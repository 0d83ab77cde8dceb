import Fsock.Core.Address
import Fsock.Core.Broadcast
import Fsock.Core.SendStep
import Fsock.Core.WriterStep
import Fsock.Core.WorkersRouted
import Fsock.Core.JobQueue

namespace Fsock

open Transition

namespace Parr

variable {I : Nat} {arr : Parr} {ns : List Nat}

theorem load_nonneg {i : Int} {ptr : Ptr} (h : arr.load i = .ok ptr) : 0 ≤ i := by
  simp only [load] at h
  split at h
  case h_1 => cases h
  case h_2 =>
    split at h
    case isTrue => cases h
    case isFalse hi => exact not_lt.mp hi

theorem Filled.load_cases (h : Filled I arr ns) {i : Int} {ptr : Ptr} (hi : i < arr.last)
    (hl : arr.load i = .ok ptr) : ∃ k : Nat, i = k ∧ ∃ hk : k < ns.length, ptr = .obj ns[k] := by
  obtain ⟨k, rfl⟩ := Int.eq_ofNat_of_zero_le (load_nonneg hl)
  rw [last_filled h] at hi
  have hk := Int.ofNat_lt.mp hi
  rw [load_filled h hk, Except.ok.injEq] at hl
  exact ⟨k, rfl, hk, hl.symm⟩

theorem Filled.iterable (h : Filled I arr ns) : arr.Iterable where
  last_nonneg := by
    rw [last_filled h]
    exact Int.natCast_nonneg _
  last_le := by
    cases h with
    | fresh => exact le_refl _
    | block hn hb => exact Int.ofNat_le.mpr hb.le
  block b hb := by
    cases h with
    | fresh => cases hb
    | block =>
      cases hb
      rfl
  filled i hi hl := by
    obtain ⟨k, -, hk, he⟩ := h.load_cases hi hl
    cases he

end Parr

namespace Hub

structure Mirrors {τ : Type} (h : Hub) (s : Workers Nat Nat τ) : Prop where
  conns : Parr.Filled 10 h.conns s.conns
  pool : h.pool = s.pool
  thr : ∀ p, (h.outlets p).thr = (s.peers p).thr
  zombie : ∀ p, (h.outlets p).zombie = (s.peers p).zombie
  writing : ∀ p, (h.outlets p).writing = (s.peers p).writing

variable {τ : Type} [DecidableEq τ] {h h' : Hub} {s s' : Workers Nat Nat τ} {t : τ} {p : Nat}
  {fr : Frame} {flags : Nat} {index : Int} {o : Turn} {loc : Place Thr → List (Job Nat Nat)}

omit [DecidableEq τ] in
theorem Mirrors.ready (hm : h.Mirrors s) (hc : s.Crewed loc) (hs : s.Sound)
    (hn : s.conns.Nodup) : h.Ready loc where
  iterable := hm.conns.iterable
  held i ptr hi hl _ := by
    obtain ⟨k, -, hk, rfl⟩ := hm.conns.load_cases hi hl
    exact ⟨_, rfl⟩
  once i j p hi hj hli hlj := by
    obtain ⟨k, rfl, hk, hp⟩ := hm.conns.load_cases hi hli
    obtain ⟨l, rfl, hl, hp'⟩ := hm.conns.load_cases hj hlj
    have hkl := Ptr.obj.inj (hp.symm.trans hp')
    rw [hn.getElem_inj_iff] at hkl
    rw [hkl]
  filed := hm.pool ▸ hc.filed
  idle i p _ _ hw k hk := by
    have ha : s.pool.active (.startWrite p) := .inl (hc.filed.isinqueue_iff.mpr ⟨k, hk⟩)
    rw [hm.writing, (hs.owns _ ha).1] at hw
    cases hw

omit [DecidableEq τ] in
theorem Mirrors.hosted_iff (hm : h.Mirrors s) (hs : s.Staged) (hp : p ∈ s.conns) :
    (∃ w, (h.outlets p).thr = some w) ↔ ∃ u, s.setups p = some u ∧ .thr ∉ u.stages := by
  rw [hm.thr]
  cases hu : s.setups p with
  | none => exact absurd hp (hs.fresh p hu).2
  | some u =>
    rw [hs.assigned p u hu]
    by_cases ht : .thr ∈ u.stages <;> simp [ht]

def appended (h : Hub) (p : Nat) (fr : Frame) (pool : Pool (Job Nat Nat) Thr) : Hub :=
  { h with
    outlets := Function.update h.outlets p
      { h.outlets p with writing := true, ol := (h.outlets p).ol ++ [fr] }
    pool := pool }

omit [DecidableEq τ] in
theorem Mirrors.grow {pool : Pool (Job Nat Nat) Thr} (hm : h.Mirrors s)
    (hconns : s'.conns = s.conns) (hpool : s'.pool = pool)
    (hpeers : s'.peers = Function.update s.peers p { s.peers p with writing := true }) :
    (h.appended p fr pool).Mirrors s' := by
  refine ⟨hconns ▸ hm.conns, hpool.symm, fun q => ?_, fun q => ?_, fun q => ?_⟩
  all_goals
    rw [hpeers, appended]
    rcases eq_or_ne q p with rfl | hq
  · simp only [Function.update_self, hm.thr]
  · simp only [Function.update_of_ne hq, hm.thr]
  · simp only [Function.update_self, hm.zombie]
  · simp only [Function.update_of_ne hq, hm.zombie]
  · simp only [Function.update_self]
  · simp only [Function.update_of_ne hq, hm.writing]

variable (fr) in
theorem Mirrors.push (hm : h.Mirrors s) (hf : s.fault = none) (hk : s.locked = false)
    (ht : s.sends t = some p) : ∃ s', s.step (.insert t) = some s' ∧
      (∀ h', h.push p fr = .ok h' → h'.Mirrors s' ∧ s'.fault = none) ∧
      ∀ e, h.push p fr = .error e → s'.fault ≠ none := by
  have hstep : s.step (.insert t) = s.insert t := by simp [Workers.step, hf]
  have hwriting := hm.writing p
  have hthr := hm.thr p
  rw [hstep, Workers.insert, ht]
  dsimp only
  cases hw : (s.peers p).writing with
  | true =>
    rw [hw] at hwriting
    have hpush : h.push p fr = .ok (h.appended p fr h.pool) := if_pos hwriting
    rw [hpush, if_pos rfl]
    refine ⟨_, rfl, ?_, fun _ he => by cases he⟩
    rintro h' ⟨⟩
    refine ⟨hm.grow rfl hm.pool.symm ?_, hf⟩
    rw [← hw, Function.update_eq_self]
  | false =>
    rw [hw] at hwriting
    rw [if_neg Bool.false_ne_true]
    cases hthr' : (s.peers p).thr with
    | none =>
      have hpush : h.push p fr = .error .bounds := by
        simp only [Hub.push, hwriting, hthr, hthr', Bool.false_eq_true, if_false]
      rw [hpush]
      exact ⟨_, rfl, fun _ he => (by cases he), fun _ _ => Option.some_ne_none _⟩
    | some w =>
      simp only [Workers.schedule, hk, Bool.false_eq_true, if_false]
      cases hs : s.pool.scheduleTask w (.startWrite p) with
      | none =>
        have hpush : h.push p fr = .error .assertion := by
          simp only [Hub.push, hwriting, hthr, hthr', hm.pool, hs, Bool.false_eq_true, if_false]
        rw [hpush]
        exact ⟨_, rfl, fun _ he => (by cases he), fun _ _ => Option.some_ne_none _⟩
      | some pool =>
        have hpush : h.push p fr = .ok (h.appended p fr pool) := by
          simp only [Hub.push, hwriting, hthr, hthr', hm.pool, hs, Bool.false_eq_true, if_false,
            appended]
        rw [hpush]
        refine ⟨_, rfl, ?_, fun _ he => by cases he⟩
        rintro h' ⟨⟩
        exact ⟨hm.grow rfl rfl rfl, hf⟩

def script (s : Workers Nat Nat τ) (t : τ) (p : Nat) : List (WorkersLabel Nat Nat τ) :=
  if (s.peers p).zombie then [.check t p] else [.check t p, .insert t]

theorem Mirrors.send (hm : h.Mirrors s) (hf : s.fault = none) (hk : s.locked = false)
    (ht : s.sends t = none) (hp : p ∈ s.conns) (hc : h.connAt index = .ok p)
    (hw : h.root.writing ≠ stopOp) (hi : o.item = true) :
    ∃ s', exec Workers.step s (script s t p) = some s' ∧
      (∀ h' rc, h.send index fr flags o = .ok (h', rc) → h'.Mirrors s' ∧ s'.fault = none) ∧
      ∀ e, h.send index fr flags o = .error e → s'.fault ≠ none := by
  have hcheck : s.step (.check t p) = if (s.peers p).zombie = true then some s
      else some { s with sends := Function.update s.sends t (some p) } := by
    simp [Workers.step, hf, Workers.check, ht, hp]
  rw [send_eq hc, hm.zombie, script]
  cases hz : (s.peers p).zombie with
  | true =>
    rw [hz, if_pos rfl] at hcheck
    refine ⟨s, ?_, ?_, fun _ he => by cases he⟩
    · simp only [if_true, exec, hcheck, Option.bind_some]
    · rintro h' rc ⟨⟩
      exact ⟨hm, hf⟩
  | false =>
    rw [hz, if_neg Bool.false_ne_true] at hcheck
    have hm' : h.Mirrors { s with sends := Function.update s.sends t (some p) } :=
      ⟨hm.conns, hm.pool, hm.thr, hm.zombie, hm.writing⟩
    obtain ⟨s', hs, hok, herr⟩ := hm'.push fr hf hk (Function.update_self ..)
    refine ⟨s', ?_, ?_, ?_⟩
    · simp only [Bool.false_eq_true, if_false, exec, hcheck, hs, Option.bind_some]
    · intro h' rc hsend
      simp only [Bool.false_eq_true, if_false, hw, false_and, hi, Bool.true_eq_false] at hsend
      cases hpush : h.push p fr with
      | error e =>
        rw [hpush] at hsend
        cases hsend
      | ok u =>
        rw [hpush] at hsend
        cases hsend
        obtain ⟨hu, hfu⟩ := hok u hpush
        exact ⟨⟨hu.conns, hu.pool, hu.thr, hu.zombie, hu.writing⟩, hfu⟩
    · intro e hsend
      simp only [Bool.false_eq_true, if_false, hw, false_and, hi, Bool.true_eq_false] at hsend
      cases hpush : h.push p fr with
      | error e' => exact herr e' hpush
      | ok u =>
        rw [hpush] at hsend
        cases hsend

theorem push_tables (hs : h.push p fr = .ok h') :
    h'.conns = h.conns ∧ h'.binds = h.binds ∧ h'.bnds = h.bnds := by
  simp only [push] at hs
  split at hs
  · cases hs
    exact ⟨rfl, rfl, rfl⟩
  split at hs
  · cases hs
  split at hs <;> cases hs
  exact ⟨rfl, rfl, rfl⟩

end Hub

namespace Net

structure Reflects (n : Net) (h : Hub) : Prop where
  root : n.root = h.root
  conns : n.conns = h.conns
  binds : n.binds = h.binds
  bnds : ∀ k bnd, n.bnds[k]? = some bnd → h.bnds k = bnd
  peers : ∀ p conn, n.peers[p]? = some conn → (h.outlets p).kind = conn.kind ∧
    (h.outlets p).zombie = conn.zombie ∧ (h.outlets p).idxlocal = conn.idxlocal ∧
    (h.outlets p).writing = conn.writing ∧ (h.outlets p).ol = conn.ol

variable {n : Net} {h h' : Hub} {p : Nat} {conn : Peer} {fr : Frame} {flags : Nat} {index rc : Int}
  {o : Turn}

theorem peerAt_spec (h : n.peerAt index = some (p, conn)) :
    n.conns.load index = .ok (.obj p) ∧ n.peers[p]? = some conn := by
  simp only [peerAt] at h
  split at h
  case h_2 => cases h
  case h_1 q hl =>
    obtain ⟨_, hq, he⟩ := Option.map_eq_some_iff.mp h
    cases he
    exact ⟨hl, hq⟩

theorem Reflects.push (hr : n.Reflects h) (hp : n.peers[p]? = some conn)
    (hs : h.push p fr = .ok h') :
    Reflects { n with peers := n.peers.set p (conn.push fr), root := n.root.countSent } h'.count := by
  obtain ⟨hconns, hbinds, hbnds⟩ := Hub.push_tables hs
  obtain ⟨ho, hroot⟩ := Hub.push_outlets hs
  refine ⟨?_, hr.conns.trans hconns.symm, hr.binds.trans hbinds.symm, ?_, fun q x hq => ?_⟩
  · rw [Hub.count, hroot, hr.root]
  · rw [Hub.count, hbnds]
    exact hr.bnds
  · rw [Hub.count, ho]
    rcases eq_or_ne q p with rfl | hqp
    · rw [List.getElem?_set_self (List.getElem?_eq_some_iff.mp hp).1] at hq
      cases hq
      obtain ⟨hk, hz, hi, -, hol⟩ := hr.peers q conn hp
      rw [Function.update_self]
      exact ⟨hk, hz, hi, rfl, congrArg (· ++ [fr]) hol⟩
    · rw [List.getElem?_set_ne hqp.symm] at hq
      rw [Function.update_of_ne hqp]
      exact hr.peers q x hq

theorem Reflects.send (hr : n.Reflects h) (hp : n.peerAt index = some (p, conn))
    (hi : o.item = true) (hw : h.root.writing = stopOp → flags &&& donwait ≠ 0)
    (hs : h.send index fr flags o = .ok (h', rc)) :
    ∃ n', n.send index fr (flags &&& donwait ≠ 0) o.ret = some (n', rc) ∧ n'.Reflects h' := by
  obtain ⟨hl, hq⟩ := peerAt_spec hp
  have hc : h.connAt index = .ok p := Hub.connAt_obj (hr.conns ▸ hl)
  have hzombie := (hr.peers p conn hq).2.1
  rw [Hub.send_eq hc, hzombie, ← hr.root] at hs
  rw [← hr.root] at hw
  rw [Net.send, hp]
  dsimp only
  by_cases hz : conn.zombie = true
  · rw [if_pos hz] at hs ⊢
    cases hs
    exact ⟨n, rfl, hr⟩
  rw [if_neg hz] at hs ⊢
  by_cases hst : n.root.writing = stopOp
  · rw [if_pos ⟨hst, hw hst⟩] at hs
    rw [if_pos hst, if_pos (by simpa using hw hst)]
    cases hs
    exact ⟨n, rfl, hr⟩
  · rw [if_neg fun hd => hst hd.1, if_neg hst] at hs
    rw [if_neg hst]
    simp only [hi, Bool.true_eq_false, if_false] at hs
    cases hpush : h.push p fr with
    | error e =>
      rw [hpush] at hs
      cases hs
    | ok u =>
      rw [hpush] at hs
      cases hs
      exact ⟨_, rfl, hr.push hq hpush⟩

end Net

namespace Sys

structure Follows {τ ρ : Type} (s : Sys Nat τ ρ) (h : Hub) : Prop where
  root : s.root = h.root
  zombie : ∀ p, (s.conns p).zombie = (h.outlets p).zombie
  writing : ∀ p, (s.conns p).writing = (h.outlets p).writing
  accepted : ∀ p, (s.conns p).accepted = (h.outlets p).ol

variable {τ ρ : Type} [DecidableEq τ] {F : Framer ρ} {s s' : Sys Nat τ ρ} {h h' : Hub} {t : τ}
  {p : Nat} {fr : Frame} {flags : Nat} {li : Addr} {index rc r : Int} {o : Fsock.Turn}

def script (s : Sys Nat τ ρ) (t : τ) (p : Nat) (fr : Frame) (donwait : Bool) (li : Addr)
    (rc : Int) : List (Label Nat τ) :=
  if (s.conns p).zombie then [.send t p fr donwait, .run t]
  else if s.root.writing = stopOp then [.send t p fr donwait, .run t, .run t]
  else [.send t p fr donwait, .run t, .run t, .run t, .alloc t true, .insert t li, .account t rc]

omit [DecidableEq τ] in
theorem Follows.push (hf : s.Follows h) (hs : h.push p fr = .ok h') {conn : Conn ρ}
    (hc : (s.conns p).insert F li fr = some conn) (pcs : τ → Pc Nat) :
    Follows { s with
      pcs := pcs
      conns := Function.update s.conns p conn
      root := s.root.countSent } h'.count := by
  obtain ⟨ho, hroot⟩ := Hub.push_outlets hs
  have hi := Conn.insert_spec hc
  refine ⟨?_, fun q => ?_, fun q => ?_, fun q => ?_⟩
  · rw [Hub.count, hroot, hf.root]
  all_goals
    rw [Hub.count, ho]
    rcases eq_or_ne q p with rfl | hq
  · simp only [Function.update_self, hi.zombie, hf.zombie]
  · simp only [Function.update_of_ne hq, hf.zombie]
  · simp only [Function.update_self, hi.writing]
  · simp only [Function.update_of_ne hq, hf.writing]
  · simp only [Function.update_self, hi.accepted, hf.accepted]
  · simp only [Function.update_of_ne hq, hf.accepted]

theorem Follows.send (hf : s.Follows h) (hl : s.lock = none) (ht : s.pcs t = .done r)
    (hli : (s.conns p).items li = none) (hc : h.connAt index = .ok p) (hi : o.item = true)
    (hw : h.root.writing = stopOp → flags &&& donwait ≠ 0)
    (hs : h.send index fr flags o = .ok (h', rc)) :
    ∃ s', exec (step F) s (s.script t p fr (flags &&& donwait ≠ 0) li o.ret) = some s' ∧
      s'.Follows h' ∧ s'.pcs t = .done rc := by
  rw [Hub.send_eq hc, ← hf.zombie, ← hf.root] at hs
  rw [← hf.root] at hw
  rw [script]
  by_cases hz : (s.conns p).zombie = true
  · rw [if_pos hz] at hs ⊢
    cases hs
    refine ⟨s.goto t (.done (-1)), ?_, ⟨hf.root, hf.zombie, hf.writing, hf.accepted⟩, ?_⟩
    · simp [exec, step, Sys.send, ht, goto, run, hz, Pc.finish]
    · simp [goto]
  rw [if_neg hz] at hs ⊢
  by_cases hst : s.root.writing = stopOp
  · rw [if_pos ⟨hst, hw hst⟩] at hs
    rw [if_pos hst, decide_eq_true (hw hst)]
    cases hs
    refine ⟨s.goto t (.done eagain), ?_, ⟨hf.root, hf.zombie, hf.writing, hf.accepted⟩, ?_⟩
    · simp [exec, step, Sys.send, ht, goto, run, hz, hst, Pc.finish]
    · simp [goto]
  · rw [if_neg fun hd => hst hd.1, if_neg hst] at hs
    rw [if_neg hst]
    simp only [hi, Bool.true_eq_false, if_false] at hs
    cases hpush : h.push p fr with
    | error e =>
      rw [hpush] at hs
      cases hs
    | ok u =>
      rw [hpush] at hs
      cases hs
      have hins : ((s.conns p).insert F li fr).isSome = true := by
        simp [Conn.insert, hli]
      obtain ⟨conn, hconn⟩ := Option.isSome_iff_exists.mp hins
      refine ⟨_, ?_, hf.push hpush hconn (Function.update s.pcs t (.done o.ret)), ?_⟩
      · simp [exec, step, Sys.send, ht, goto, run, hz, hst, Pc.finish, alloc, Sys.insert, touch,
          Conn.step, hconn, account, hl]
      · simp

end Sys

namespace Workers

variable {κ β τ : Type} [DecidableEq κ] [DecidableEq β] [DecidableEq τ] {s s' : Workers κ β τ}
  {l : WorkersLabel κ β τ}

theorem nodup_step (h : s.Staged) (hn : s.conns.Nodup) (he : Effect s l s') : s'.conns.Nodup := by
  cases he with
  | issue hi =>
    rw [(hi.reads _).2.1]
    exact hn
  | publish hu hs =>
    have hc := mt ((h.published _ _ hu).mp) (not_not.mpr (by simp [hs]))
    rw [← List.concat_eq_append]
    exact hn.concat hc
  | free =>
    rw [conns_release]
    exact hn
  | run hp hr => cases hr <;> exact hn
  | _ => exact hn

end Workers

theorem Hub.ready_run {τ : Type} [DecidableEq τ] (rcvhwm : Int) {s : Workers Nat Nat τ}
    {tr : List (Workers Nat Nat τ × WorkersLabel Nat Nat τ)}
    (hr : Run Workers.step (.init rcvhwm) tr s) {h : Hub} (hm : h.Mirrors s) :
    ∃ loc, h.Ready loc ∧ ∀ p ∈ s.conns, (∃ w, (h.outlets p).thr = some w) ↔
      ∃ u, s.setups p = some u ∧ .thr ∉ u.stages := by
  have hstep : ∀ (s : Workers Nat Nat τ) l s', s.Regular ∧ s.conns.Nodup → True →
      s.step l = some s' → s'.Regular ∧ s'.conns.Nodup := by
    rintro s l s' ⟨hg, hn⟩ - hs
    exact ⟨Workers.regular_step hg hs,
      Workers.nodup_step hg.staged hn (Workers.effect_of_step hs).2⟩
  obtain ⟨hg, hn⟩ := hr.invariant (C := fun _ _ => True)
    ⟨Workers.regular_init rcvhwm, List.nodup_nil⟩ hstep fun _ _ => trivial
  obtain ⟨loc, hc⟩ := hg.crewed
  exact ⟨loc, hm.ready hc hg.sound hn, fun p => hm.hosted_iff hg.staged⟩

namespace Hub

def accepting : List (WorkersLabel Nat Nat Unit) :=
  .bind 0 0 :: (Workers.work 0 ++ [.accept 0 0 0 1 7, .advance 0, .advance 0])

-- the accepted connection is in owner->conns, conn->thr is assigned after that
def published : Hub where
  root := .init hwmDefault
  conns := ⟨some (.obj 0 :: List.replicate 9 .null), 1, 10, 10⟩
  binds := .init 10
  bnds := fun _ => .init 10
  outlets := fun _ => ⟨.incoming, false, 0, none, false, []⟩
  pool := (final Workers.step (.init 1000) accepting).pool

theorem published_mirrors : published.Mirrors (final Workers.step (.init 1000) accepting) where
  conns := by
    have hconns : (final Workers.step (.init 1000) accepting).conns = [0] := by decide +kernel
    rw [hconns]
    have hroom : [0].length < (Ptr.obj 0 :: List.replicate 9 .null).length := by decide
    exact .block (List.cons_ne_nil 0 []) hroom rfl
  pool := rfl
  thr _ := rfl
  zombie _ := rfl
  writing _ := rfl

theorem published_undelivered : ∃ (s : Workers Nat Nat Unit) (tr : List _) (loc : _),
    Run Workers.step (.init 1000) tr s ∧ published.Mirrors s ∧ published.Ready loc ∧
      published.receivers 0 = [0] ∧ published.root.writing ≠ stopOp ∧
      ¬ published.Delivers loc 0 0 ping 0 0 fun _ => ⟨id, true, 0⟩ := by
  have hr : Run Workers.step (.init 1000) (trace Workers.step (.init 1000) accepting)
      (final Workers.step (.init 1000) accepting) := run_final (by decide +kernel)
  obtain ⟨loc, hloc, -⟩ := ready_run 1000 hr published_mirrors
  refine ⟨_, _, loc, hr, published_mirrors, hloc, by decide, by decide, fun h => ?_⟩
  have hhosted := (hloc.delivers_iff rfl (fun _ => rfl) (by decide)).mp h
  revert hhosted
  decide

end Hub

end Fsock
