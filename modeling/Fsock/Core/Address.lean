import Fsock.Lib.Run
import Fsock.Utils.ParrFill
import Fsock.Core.ListFramer
import Fsock.Core.Sendc

namespace Fsock

open Transition

namespace Net

inductive Build where
  | bind (junk : Nat → Ptr)
  | accept (k : Nat) (junk junk' : Nat → Ptr)
  | connect (junk : Nat → Ptr)
  | traffic (p : Nat) (zombie writing : Bool) (scheduled : Nat) (ol : List Frame)
  | flow (root : Root)

def build (s : Net) : Build → Option Net
  | .bind junk => s.bind (some junk)
  | .accept k junk junk' => s.accept k (some junk) (some junk')
  | .connect junk => s.connect (some junk)
  | .traffic p zombie writing scheduled ol =>
    (s.peers[p]?).map fun conn => { s with
      peers := s.peers.set p { conn with
        zombie := zombie, writing := writing, scheduled := scheduled, ol := ol } }
  | .flow root => some { s with root := root }

def via (s : Net) (p : Nat) : Option Nat := (s.peers[p]?).bind Peer.via

def alive (s : Net) (p : Nat) : Bool := (s.peers[p]?).any fun conn => !conn.zombie

def out (s : Net) (p : Nat) : List Frame := ((s.peers[p]?).map Peer.ol).getD []

def members (s : Net) (k : Nat) : List Nat :=
  (List.range s.peers.length).filter fun p => s.via p = some k

def Delivers (s s' : Net) (fr : Frame) (want : Nat → Prop) [DecidablePred want] : Prop :=
  ∀ p, s'.out p = s.out p ++ if want p then [fr] else []

def localAt (s : Net) (p : Nat) : Int := ((s.peers[p]?).map Peer.idxlocal).getD (-1)

structure Wired (s : Net) : Prop where
  conns : Parr.Filled 10 s.conns (List.range s.peers.length)
  binds : Parr.Filled 10 s.binds (List.range s.bnds.length)
  tables : ∀ k bnd, s.bnds[k]? = some bnd → Parr.Filled 10 bnd (s.members k)
  known : ∀ p k, s.via p = some k → k < s.bnds.length
  placed : ∀ k i p : Nat, (s.members k)[i]? = some p → s.localAt p = i

variable {s s' : Net} {x : Peer} {p k : Nat}

theorem wired_init (sndhwm : Int) : (init sndhwm).Wired where
  conns := .fresh
  binds := .fresh
  tables _ _ h := by cases h
  known _ _ h := by cases h
  placed _ _ _ h := by cases h

theorem mem_members : p ∈ s.members k ↔ p < s.peers.length ∧ s.via p = some k := by
  simp [members]

theorem Wired.congr (h : s.Wired) (hc : s'.conns = s.conns) (hb : s'.binds = s.binds)
    (hd : s'.bnds = s.bnds) (hl : s'.peers.length = s.peers.length) (hv : s'.via = s.via)
    (hi : s'.localAt = s.localAt) : s'.Wired := by
  have hm : s'.members = s.members := by
    funext k
    rw [members, members, hl, hv]
  constructor
  · rw [hc, hl]
    exact h.conns
  · rw [hb, hd]
    exact h.binds
  · rw [hd, hm]
    exact h.tables
  · rw [hv, hd]
    exact h.known
  · rw [hm, hi]
    exact h.placed

section
variable (hp : s'.peers = s.peers ++ [x])
include hp

theorem via_old (hlt : p < s.peers.length) : s'.via p = s.via p := by
  rw [via, via, hp, List.getElem?_append_left hlt]

theorem localAt_old (hlt : p < s.peers.length) : s'.localAt p = s.localAt p := by
  rw [localAt, localAt, hp, List.getElem?_append_left hlt]

theorem via_new : s'.via s.peers.length = x.via := by
  simp [via, hp]

theorem localAt_new : s'.localAt s.peers.length = x.idxlocal := by
  simp [localAt, hp]

theorem members_append (k : Nat) :
    s'.members k = s.members k ++ if x.via = some k then [s.peers.length] else [] := by
  have hold : ∀ p ∈ List.range s.peers.length,
      decide (s'.via p = some k) = decide (s.via p = some k) := fun p hm => by
    rw [via_old hp (List.mem_range.mp hm)]
  have hlen : s'.peers.length = s.peers.length + 1 := by simp [hp]
  rw [members, hlen, List.range_succ, List.filter_append, List.filter_congr hold,
    List.filter_cons, via_new hp]
  simp [members]

theorem known_append (h : s.Wired) (hb : s'.bnds.length = s.bnds.length)
    (hx : ∀ k, x.via = some k → k < s.bnds.length) : ∀ p k, s'.via p = some k → k < s'.bnds.length := by
  intro p k hv
  rw [hb]
  rcases Nat.lt_trichotomy p s.peers.length with hlt | rfl | hgt
  · exact h.known p k (via_old hp hlt ▸ hv)
  · exact hx k (via_new hp ▸ hv)
  · have hnone : s'.peers[p]? = none := List.getElem?_eq_none (by simp [hp]; omega)
    simp [via, hnone] at hv

theorem placed_append (h : s.Wired) (hx : ∀ k, x.via = some k → x.idxlocal = (s.members k).length) :
    ∀ k i p : Nat, (s'.members k)[i]? = some p → s'.localAt p = i := by
  intro k i p hm
  rw [members_append hp, List.getElem?_append] at hm
  split at hm
  case isTrue hlt =>
    have hmem := (mem_members.mp (List.mem_of_getElem? hm)).1
    rw [localAt_old hp hmem]
    exact h.placed k i p hm
  case isFalse hge =>
    split at hm
    case isTrue hv =>
      obtain ⟨hi, rfl⟩ : i = (s.members k).length ∧ s.peers.length = p := by
        rw [List.getElem?_singleton] at hm
        split at hm
        · exact ⟨by omega, Option.some_inj.mp hm⟩
        · cases hm
      rw [localAt_new hp, hx k hv, hi]
    case isFalse => cases hm

end

theorem wired_bind (h : s.Wired) {junk : Nat → Ptr} (hs : s.bind (some junk) = some s') :
    s'.Wired := by
  obtain ⟨binds, hi, hf⟩ := Parr.insert_filled (by decide) h.binds s.bnds.length junk
  have hpos : ¬ ((s.bnds.length : Int) < 0) := by omega
  rw [List.length_range] at hi
  simp only [bind, hi, if_neg hpos, Option.some.injEq] at hs
  subst hs
  have hlen : (s.bnds ++ [Parr.init 10]).length = s.bnds.length + 1 := by simp
  refine ⟨h.conns, ?_, ?_, ?_, h.placed⟩
  · rw [hlen, List.range_succ]
    exact hf
  · intro k bnd hk
    rw [List.getElem?_append] at hk
    split at hk
    case isTrue => exact h.tables k bnd hk
    case isFalse hge =>
      rw [List.getElem?_singleton] at hk
      split at hk <;> cases hk
      have hnone : s.members k = [] := by
        rw [List.eq_nil_iff_forall_not_mem]
        intro p hm
        exact hge (h.known p k (mem_members.mp hm).2)
      exact hnone ▸ .fresh
  · intro p k hv
    rw [hlen]
    have hk := h.known p k hv
    omega

theorem wired_connect (h : s.Wired) {junk : Nat → Ptr} (hs : s.connect (some junk) = some s') :
    s'.Wired := by
  obtain ⟨conns, hi, hf⟩ := Parr.insert_filled (by decide) h.conns s.peers.length junk
  have hpos : ¬ ((s.peers.length : Int) < 0) := by omega
  rw [List.length_range] at hi
  simp only [connect, hi, if_neg hpos, Option.some.injEq] at hs
  have hp : s'.peers = s.peers ++ [{ Peer.init .outgoing none with idx := s.peers.length }] := by
    rw [← hs]
  have hd : s'.bnds = s.bnds := by rw [← hs]
  have hm : s'.members = s.members := by
    funext k
    simp [members_append hp, Peer.init]
  constructor
  · rw [hp, List.length_append, List.length_singleton, List.range_succ, ← hs]
    exact hf
  · rw [← hs]
    exact h.binds
  · rw [hd, hm]
    exact h.tables
  · exact known_append hp h (by rw [hd]) nofun
  · exact placed_append hp h nofun

theorem wired_accept (h : s.Wired) {junk junk' : Nat → Ptr}
    (hs : s.accept k (some junk) (some junk') = some s') : s'.Wired := by
  simp only [accept] at hs
  split at hs
  case h_1 => cases hs
  case h_2 bnd hb =>
    have hklt : k < s.bnds.length := (List.getElem?_eq_some_iff.mp hb).1
    obtain ⟨bnd', hi, hf⟩ := Parr.insert_filled (by decide) (h.tables k bnd hb) s.peers.length junk
    obtain ⟨conns, hj, hg⟩ := Parr.insert_filled (by decide) h.conns s.peers.length junk'
    have hpos : ¬ (((s.members k).length : Int) < 0) := by omega
    have hpos' : ¬ ((s.peers.length : Int) < 0) := by omega
    rw [List.length_range] at hj
    simp only [hi, hj, if_neg hpos, if_neg hpos', Option.some.injEq] at hs
    have hp : s'.peers = s.peers ++ [{ Peer.init .incoming (some k) with
        idx := s.peers.length, idxlocal := (s.members k).length }] := by rw [← hs]
    have hd : s'.bnds = s.bnds.set k bnd' := by rw [← hs]
    have hdl : s'.bnds.length = s.bnds.length := by rw [hd, List.length_set]
    constructor
    · rw [hp, List.length_append, List.length_singleton, List.range_succ, ← hs]
      exact hg
    · rw [hdl, ← hs]
      exact h.binds
    · intro j t ht
      rw [hd, List.getElem?_set] at ht
      rw [members_append hp]
      split at ht
      case isTrue hkj =>
        subst hkj
        have hv : (Peer.init .incoming (some k)).via = some k := rfl
        cases ht
        rw [if_pos hv]
        exact hf
      case isFalse hkj =>
        have hne : ¬ (Peer.init .incoming (some k)).via = some j := fun he =>
          hkj (Option.some_inj.mp he)
        rw [if_neg hne, List.append_nil]
        exact h.tables j t ht
    · refine known_append hp h hdl fun j hv => ?_
      cases hv
      exact hklt
    · refine placed_append hp h fun j hv => ?_
      cases hv
      rfl

theorem wired_traffic (h : s.Wired) {zombie writing : Bool} {scheduled : Nat} {ol : List Frame}
    (hs : s.build (.traffic p zombie writing scheduled ol) = some s') : s'.Wired := by
  obtain ⟨conn, hc, rfl⟩ := Option.map_eq_some_iff.mp hs
  have hlt : p < s.peers.length := (List.getElem?_eq_some_iff.mp hc).1
  refine h.congr rfl rfl rfl (by simp) ?_ ?_
  · funext q
    rcases eq_or_ne p q with rfl | hne
    · rw [via, via, List.getElem?_set_self hlt, hc]
      rfl
    · simp [via, List.getElem?_set_ne hne]
  · funext q
    rcases eq_or_ne p q with rfl | hne
    · rw [localAt, localAt, List.getElem?_set_self hlt, hc]
      rfl
    · simp [localAt, List.getElem?_set_ne hne]

theorem wired_step {b : Build} (h : s.Wired) (hs : s.build b = some s') : s'.Wired := by
  cases b with
  | bind junk => exact wired_bind h hs
  | accept k junk junk' => exact wired_accept h hs
  | connect junk => exact wired_connect h hs
  | traffic p zombie writing scheduled ol => exact wired_traffic h hs
  | flow root =>
    cases hs
    exact h.congr rfl rfl rfl rfl rfl rfl

theorem wired_run {sndhwm : Int} {tr : List (Net × Build)} (hr : Run build (init sndhwm) tr s) :
    s.Wired :=
  hr.invariant (C := fun _ _ => True) (wired_init sndhwm) (fun _ _ _ h _ hs => wired_step h hs)
    fun _ _ => trivial

end Net

namespace Root

def Room (r : Root) : Nat → Prop
  | 0 => True
  | n + 1 => r.writing ≠ stopOp ∧ (r.sndhwm ≤ 0 ∨ r.sndqsz + (n + 1) ≤ r.sndhwm)

theorem Room.countSent {r : Root} {n : Nat} (h : r.Room (n + 1)) : r.countSent.Room n := by
  cases n with
  | zero => trivial
  | succ n =>
    obtain ⟨hw, hr⟩ := h
    push_cast at hr
    unfold Root.countSent
    dsimp only
    split
    case isTrue hc => omega
    case isFalse => exact ⟨hw, by dsimp only; omega⟩

end Root

namespace Net

variable {s s' : Net} {p k : Nat}

structure Sends (s : Net) (fr : Frame) (is : List Nat) (s' : Net) : Prop where
  conns : s'.conns = s.conns
  length : s'.peers.length = s.peers.length
  alive : s'.alive = s.alive
  out : ∀ p, s'.out p = s.out p ++ if p ∈ is ∧ s.alive p = true then [fr] else []

theorem Sends.nil (s : Net) (fr : Frame) : s.Sends fr [] s :=
  ⟨rfl, rfl, rfl, fun p => by simp⟩

theorem Sends.cons {t : Net} {fr : Frame} {is : List Nat} (hn : p ∉ is) (h : s.Sends fr [p] t)
    (ht : t.Sends fr is s') : s.Sends fr (p :: is) s' := by
  refine ⟨ht.conns.trans h.conns, ht.length.trans h.length, ht.alive.trans h.alive, fun q => ?_⟩
  rw [ht.out, h.out, h.alive, List.append_assoc]
  rcases eq_or_ne q p with rfl | hne
  · simp [hn]
  · simp [hne]

theorem out_of_get {conn : Peer} (hp : s.peers[p]? = some conn) : s.out p = conn.ol := by
  rw [out, hp]
  rfl

theorem alive_of_get {conn : Peer} (hp : s.peers[p]? = some conn) :
    s.alive p = !conn.zombie := by
  rw [alive, hp]
  rfl

theorem sends_push {conn : Peer} (hp : s.peers[p]? = some conn) (hz : conn.zombie = false)
    (fr : Frame) (root : Root) :
    s.Sends fr [p] { s with peers := s.peers.set p (conn.push fr), root := root } := by
  have hlt : p < s.peers.length := (List.getElem?_eq_some_iff.mp hp).1
  have hself : (s.peers.set p (conn.push fr))[p]? = some (conn.push fr) :=
    List.getElem?_set_self hlt
  refine ⟨rfl, List.length_set, ?_, ?_⟩
  · funext q
    rcases eq_or_ne p q with rfl | hne
    · rw [alive_of_get hp, alive_of_get hself]
      rfl
    · simp [alive, List.getElem?_set_ne hne]
  · intro q
    rcases eq_or_ne p q with rfl | hne
    · rw [out_of_get hself, out_of_get hp, alive_of_get hp]
      simp [Peer.push, hz]
    · simp [out, List.getElem?_set_ne hne, hne.symm]

theorem sends_zombie {conn : Peer} (hp : s.peers[p]? = some conn) (hz : conn.zombie = true)
    (fr : Frame) : s.Sends fr [p] s := by
  refine ⟨rfl, rfl, rfl, fun q => ?_⟩
  have hd : ¬ (q ∈ [p] ∧ s.alive q = true) := by
    rintro ⟨hq, ha⟩
    rw [List.mem_singleton.mp hq, alive_of_get hp, hz] at ha
    cases ha
  rw [if_neg hd, List.append_nil]

theorem peerAt_wired (hc : Parr.Filled 10 s.conns (List.range s.peers.length))
    (hp : p < s.peers.length) : s.peerAt p = some (p, s.peers[p]) := by
  simp [peerAt, Parr.load_range hc hp, hp]

theorem send_spec (hc : Parr.Filled 10 s.conns (List.range s.peers.length))
    (hp : p < s.peers.length) {n : Nat} (hr : s.root.Room (n + if s.alive p then 1 else 0))
    (fr : Frame) (donwait : Bool) (ret : Int) :
    ∃ s' rc, s.send p fr donwait ret = some (s', rc) ∧ s.Sends fr [p] s' ∧ s'.root.Room n := by
  have hget : s.peers[p]? = some s.peers[p] := List.getElem?_eq_getElem hp
  rw [alive_of_get hget] at hr
  rw [send, peerAt_wired hc hp]
  dsimp only
  split
  case isTrue hz =>
    rw [hz] at hr
    exact ⟨s, -1, rfl, sends_zombie hget hz fr, hr⟩
  case isFalse hz =>
    have hz : s.peers[p].zombie = false := by simpa using hz
    rw [hz] at hr
    have hr : s.root.Room (n + 1) := hr
    rw [if_neg hr.1]
    exact ⟨_, ret, rfl, sends_push hget hz fr _, hr.countSent⟩

theorem sendEach_spec {is : List Nat} (hc : Parr.Filled 10 s.conns (List.range s.peers.length))
    (hi : ∀ p ∈ is, p < s.peers.length) (hn : is.Nodup) (hr : s.root.Room (is.countP s.alive))
    (fr : Frame) (donwait : Bool) (ret : Int → Int) (rc : Int) :
    ∃ s' rc', s.sendEach fr 0 donwait false ret (is.map fun p : Nat => (p : Int)) rc =
      some (s', rc') ∧ s.Sends fr is s' := by
  induction is generalizing s rc with
  | nil => exact ⟨s, rc, rfl, .nil s fr⟩
  | cons p is ih =>
    obtain ⟨hp, hn⟩ := List.nodup_cons.mp hn
    rw [List.countP_cons] at hr
    obtain ⟨t, rc', ht, hsent, hroom⟩ := send_spec hc (hi p (by simp)) hr fr donwait (ret p)
    have hc' : Parr.Filled 10 t.conns (List.range t.peers.length) := by
      rw [hsent.conns, hsent.length]
      exact hc
    have hi' : ∀ q ∈ is, q < t.peers.length := fun q hq => hsent.length ▸ hi q (by simp [hq])
    obtain ⟨s', rc'', hs', hsends⟩ := ih hc' hi' hn (hsent.alive ▸ hroom) rc'
    refine ⟨s', rc'', ?_, hsent.cons hp hsends⟩
    rw [List.map_cons, sendEach]
    simp only [selects, if_true, ht, Bool.false_eq_true, and_false, if_false]
    exact hs'

theorem bndAt_wired (h : s.Wired) {b : Nat} {bnd : Parr} (hb : s.bnds[b]? = some bnd) :
    s.bndAt b = some bnd := by
  have hlt : b < s.bnds.length := (List.getElem?_eq_some_iff.mp hb).1
  have hin : s.binds.last > b := by
    rw [Parr.last_range h.binds]
    omega
  rw [bndAt, if_pos hin, Parr.load_range h.binds hlt]
  exact hb

theorem length_members_le (s : Net) (k : Nat) : (s.members k).length ≤ s.peers.length := by
  have h := List.length_filter_le (fun p => decide (s.via p = some k)) (List.range s.peers.length)
  rwa [List.length_range] at h

theorem sendBind_sends (h : s.Wired) {b : Nat} {bnd : Parr} (hb : s.bnds[b]? = some bnd)
    (hr : s.root.Room ((List.range bnd.last.toNat).countP s.alive)) (c : Int) (fr : Frame)
    (donwait : Bool) (ret : Int → Int) :
    ∃ s' rc, s.sendc sndBind b c fr 0 donwait false ret = some (s', rc) ∧
      s.Sends fr (List.range bnd.last.toNat) s' := by
  have hf := h.tables b bnd hb
  have hlast : bnd.last.toNat = (s.members b).length := by
    rw [Parr.last_filled hf, Int.toNat_natCast]
  obtain ⟨vs, hvs, hmap⟩ := Parr.visits_filled hf
  rw [hlast] at hr ⊢
  have hlt : ∀ p ∈ List.range (s.members b).length, p < s.peers.length := fun p hp =>
    (List.mem_range.mp hp).trans_le (s.length_members_le b)
  obtain ⟨s', rc, hs', hsends⟩ :=
    sendEach_spec h.conns hlt List.nodup_range hr fr donwait ret 0
  refine ⟨s', rc, ?_, hsends⟩
  rw [sendc, if_neg (by decide), if_pos rfl, bndAt_wired h hb]
  simp only [sendAll, hvs, hmap]
  exact hs'

theorem sendBindconn_sends (h : s.Wired) {b c q : Nat} {bnd : Parr} (hb : s.bnds[b]? = some bnd)
    (hc : (c : Int) < bnd.last) (hq : bnd.load c = .ok (.obj q)) (hr : s.root.Room 1) (fr : Frame)
    (donwait : Bool) (ret : Int → Int) :
    ∃ s' rc, s.sendc sndBindconn b c fr 0 donwait false ret = some (s', rc) ∧
      s.Sends fr [c] s' := by
  have hf := h.tables b bnd hb
  have hlt : c < (s.members b).length := by
    have hlast := Parr.last_filled hf
    omega
  have hload := Parr.load_filled hf hlt
  have hget : (s.members b)[c]? = some q := by
    rw [hq] at hload
    cases hload
    exact List.getElem?_eq_getElem hlt
  have hqlt : q < s.peers.length := (mem_members.mp (List.mem_of_getElem? hget)).1
  have hql : s.peers[q]? = some s.peers[q] := List.getElem?_eq_getElem hqlt
  have hlocal : s.peers[q].idxlocal = c := by
    have hp := h.placed b c q hget
    rwa [localAt, hql] at hp
  have hroom : s.root.Room (0 + if s.alive c then 1 else 0) := by
    split
    · exact hr
    · trivial
  obtain ⟨s', rc, hs', hsends, -⟩ := send_spec h.conns (hlt.trans_le (s.length_members_le b))
    hroom fr donwait (ret c)
  refine ⟨s', rc, ?_, hsends⟩
  rw [sendc, if_neg (by decide), if_neg (by decide), if_pos rfl, bndAt_wired h hb]
  simp only [if_pos hc, hq, hql, hlocal]
  exact hs'

theorem Sends.delivers_iff {fr : Frame} {is : List Nat} (h : s.Sends fr is s') (want : Nat → Prop)
    [DecidablePred want] :
    s.Delivers s' fr want ↔ ∀ p, (p ∈ is ∧ s.alive p = true ↔ want p) := by
  refine forall_congr' fun p => ?_
  rw [h.out, List.append_right_inj]
  by_cases hm : p ∈ is ∧ s.alive p = true <;> by_cases hw : want p <;> simp [hm, hw]

theorem peerAt_inv (h : s.Wired) {j : Nat} {conn : Nat × Peer} (hj : s.peerAt j = some conn)
    (hl : j < s.conns.last.toNat) : conn.1 = j ∧ s.peers[j]? = some conn.2 := by
  have hlast := Parr.last_range h.conns
  have hlt : j < s.peers.length := by omega
  rw [peerAt_wired h.conns hlt] at hj
  cases hj
  exact ⟨rfl, List.getElem?_eq_getElem hlt⟩

def Aligned (s : Net) (b : Nat) (bnd : Parr) : Prop :=
  ∀ j ∈ List.range s.conns.last.toNat, ∀ conn ∈ s.peerAt j, conn.2.zombie = false →
    ((j : Int) < bnd.last ↔ conn.2.via = some b)

def Meets (s : Net) (c q : Nat) : Prop :=
  ∃ conn ∈ s.peerAt c, conn.1 = q ∨ conn.2.zombie = true ∧ s.alive q = false

theorem aligned_iff (h : s.Wired) {b : Nat} {bnd : Parr} (hb : s.bnds[b]? = some bnd) :
    s.Aligned b bnd ↔ ∀ p, (p ∈ List.range bnd.last.toNat ∧ s.alive p = true ↔
      s.alive p = true ∧ s.via p = some b) := by
  have hlast := Parr.last_range h.conns
  have hbnd := Parr.last_filled (h.tables b bnd hb)
  constructor
  · intro ha p
    rw [and_comm, and_congr_right_iff, List.mem_range]
    intro hp
    rcases Nat.lt_or_ge p s.peers.length with hlt | hge
    · have hget : s.peers[p]? = some s.peers[p] := List.getElem?_eq_getElem hlt
      have hz : s.peers[p].zombie = false := by simpa [alive_of_get hget] using hp
      have hiff := ha p (List.mem_range.mpr (by omega)) _ (peerAt_wired h.conns hlt) hz
      rw [via, hget, Option.bind_some, ← hiff]
      omega
    · rw [alive, List.getElem?_eq_none hge] at hp
      cases hp
  · intro ha j hj conn hc hz
    obtain ⟨-, hget⟩ := peerAt_inv h hc (List.mem_range.mp hj)
    have hiff := ha j
    rw [alive_of_get hget, via, hget, hz, List.mem_range] at hiff
    simp only [Bool.not_false, and_true, true_and, Option.bind_some] at hiff
    rw [← hiff]
    omega

theorem meets_iff (h : s.Wired) {c q : Nat} (hc : c < s.peers.length) :
    s.Meets c q ↔ ∀ p, (p ∈ [c] ∧ s.alive p = true ↔ p = q ∧ s.alive q = true) := by
  have hget : s.peers[c]? = some s.peers[c] := List.getElem?_eq_getElem hc
  have hz : s.peers[c].zombie = !s.alive c := by simp [alive_of_get hget]
  simp only [Meets, peerAt_wired h.conns hc, Option.mem_def, Option.some.injEq, exists_eq_left',
    List.mem_singleton, hz]
  constructor
  · rintro (rfl | ⟨hcz, hqz⟩) p
    · constructor <;> (rintro ⟨rfl, ha⟩; exact ⟨rfl, ha⟩)
    · have hcz : s.alive c = false := by simpa using hcz
      constructor
      · rintro ⟨rfl, ha⟩
        simp [hcz] at ha
      · rintro ⟨-, ha⟩
        simp [hqz] at ha
  · intro hp
    rcases Bool.eq_false_or_eq_true (s.alive c) with ha | ha
    · exact .inl ((hp c).mp ⟨rfl, ha⟩).1
    · refine .inr ⟨by simp [ha], ?_⟩
      rw [← Bool.not_eq_true]
      intro hq
      have hqc := ((hp q).mpr ⟨rfl, hq⟩)
      rw [← hqc.1, hq] at ha
      cases ha

theorem sendc_addressing {sndhwm : Int} {tr : List (Net × Build)}
    (hr : Run build (init sndhwm) tr s) {b : Nat} {bnd : Parr} (hb : s.bnds[b]? = some bnd)
    (fr : Frame) (donwait : Bool) (ret : Int → Int) :
    (s.root.Room ((List.range bnd.last.toNat).countP s.alive) → ∀ c,
      ∃ s' rc, s.sendc sndBind b c fr 0 donwait false ret = some (s', rc) ∧
        (s.Delivers s' fr (fun p => s.alive p = true ∧ s.via p = some b) ↔ s.Aligned b bnd)) ∧
    (s.root.Room 1 → ∀ c q : Nat, (c : Int) < bnd.last → bnd.load c = .ok (.obj q) →
      ∃ s' rc, s.sendc sndBindconn b c fr 0 donwait false ret = some (s', rc) ∧
        (s.Delivers s' fr (fun p => p = q ∧ s.alive q = true) ↔ s.Meets c q)) := by
  have h := wired_run hr
  constructor
  · intro hroom c
    obtain ⟨s', rc, hs', hsends⟩ := sendBind_sends h hb hroom c fr donwait ret
    refine ⟨s', rc, hs', ?_⟩
    rw [hsends.delivers_iff, aligned_iff h hb]
  · intro hroom c q hc hq
    obtain ⟨s', rc, hs', hsends⟩ := sendBindconn_sends h hb hc hq hroom fr donwait ret
    have hlast := Parr.last_filled (h.tables b bnd hb)
    have hlt : c < s.peers.length := lt_of_lt_of_le (by omega) (s.length_members_le b)
    refine ⟨s', rc, hs', ?_⟩
    rw [hsends.delivers_iff, meets_iff h hlt]

def fresh : Nat → Ptr := fun _ => .null

def single : List Build := [.bind fresh, .accept 0 fresh fresh, .connect fresh]

def mixed : List Build := [.bind fresh, .bind fresh, .connect fresh, .accept 1 fresh fresh]

theorem sendc_addressing_single : ∃ bnd, (final build (init 0) single).bnds[0]? = some bnd ∧
    (∃ s' rc, (final build (init 0) single).sendc sndBind 0 0 (letter 65) 0 true false id =
      some (s', rc) ∧ (final build (init 0) single).Delivers s' (letter 65) fun p =>
        (final build (init 0) single).alive p = true ∧
          (final build (init 0) single).via p = some 0) ∧
    ∃ s' rc, (final build (init 0) single).sendc sndBindconn 0 0 (letter 65) 0 true false id =
      some (s', rc) ∧ (final build (init 0) single).Delivers s' (letter 65) fun p =>
        p = 0 ∧ (final build (init 0) single).alive 0 = true := by
  obtain ⟨hbind, hconn⟩ := sendc_addressing (s := final build (init 0) single) (run_final rfl)
    (b := 0) rfl (letter 65) true id
  obtain ⟨s', rc, hs', hd⟩ := hbind ⟨by decide, .inl (by decide)⟩ 0
  obtain ⟨t', rc', ht', he⟩ := hconn ⟨by decide, .inl (by decide)⟩ 0 0 (by decide) rfl
  refine ⟨_, rfl, ⟨s', rc, hs', hd.mpr ?_⟩, t', rc', ht', he.mpr ⟨_, rfl, .inl rfl⟩⟩
  simp only [Aligned]
  decide

theorem bind_reaches_outgoing : ∃ s, Run build (init 0) (trace build (init 0) mixed) s ∧
    s.root.Room 1 ∧ s.via 1 = some 1 ∧ s.alive 1 = true ∧
    (∃ s' rc, s.sendc sndBind 1 0 (letter 65) 0 true false id = some (s', rc) ∧
      s'.out 0 = [letter 65] ∧ s'.out 1 = []) ∧
    (∃ bnd, s.bndAt 1 = some bnd ∧ bnd.load 0 = .ok (.obj 1)) ∧
    ∃ s' rc, s.sendc sndBindconn 1 0 (letter 65) 0 true false id = some (s', rc) ∧
      s'.out 0 = [letter 65] ∧ s'.out 1 = [] :=
  ⟨final build (init 0) mixed, run_final rfl, ⟨by decide, .inl (by decide)⟩, rfl, rfl,
    ⟨_, _, rfl, rfl, rfl⟩, ⟨_, rfl, rfl⟩, _, _, rfl, rfl, rfl⟩

end Net

end Fsock
