import Fsock.Core.SendReport

namespace Fsock

namespace Hub

def receiver (s : Hub) (dflags : Nat) : Ptr → Option Nat
  | .obj p =>
    if (s.outlets p).zombie = false ∧ chosen dflags (s.outlets p).kind = true then some p else none
  | _ => none

def reached (s : Hub) (dflags : Nat) (vs : List (Ptr × Int)) : List Nat :=
  vs.filterMap fun x => s.receiver dflags x.1

def receivers (s : Hub) (dflags : Nat) : List Nat :=
  s.reached dflags (s.conns.visits.toOption.getD [])

def starts (s : Hub) (w : Thr) (p : Nat) : Bool :=
  (s.outlets p).writing = false ∧ (s.outlets p).thr = some w

def queued (s : Hub) (loc : Place Thr → List (Job Nat Nat)) (ps : List Nat) :
    Place Thr → List (Job Nat Nat)
  | .jobs w => loc (.jobs w) ++ (ps.filter (s.starts w)).map .startWrite
  | .batch w => loc (.batch w)

structure Ready (s : Hub) (loc : Place Thr → List (Job Nat Nat)) : Prop where
  iterable : s.conns.Iterable
  held : ∀ i ptr, i < s.conns.last → s.conns.load i = .ok ptr → ptr ≠ .empty →
    ∃ p, ptr = .obj p
  once : ∀ i j p, i < s.conns.last → j < s.conns.last → s.conns.load i = .ok (.obj p) →
    s.conns.load j = .ok (.obj p) → i = j
  filed : s.pool.Filed loc
  idle : ∀ i p, i < s.conns.last → s.conns.load i = .ok (.obj p) → (s.outlets p).writing = false →
    ∀ k, .startWrite p ∉ loc k

def Hosted (s : Hub) (p : Nat) : Prop :=
  (s.outlets p).writing = false → ∃ w, (s.outlets p).thr = some w

instance (s : Hub) (p : Nat) : Decidable (s.Hosted p) :=
  inferInstanceAs (Decidable (_ → ∃ _ : Thr, _))

structure Sent (s : Hub) (loc : Place Thr → List (Job Nat Nat)) (fr : Frame) (t : Hub)
    (ps : List Nat) : Prop where
  conns : t.conns = s.conns
  root : t.root = Root.countSent^[ps.length] s.root
  outlets : ∀ p, t.outlets p = if p ∈ ps then
    { s.outlets p with writing := true, ol := (s.outlets p).ol ++ [fr] } else s.outlets p
  filed : t.pool.Filed (s.queued loc ps)

variable {s t : Hub} {loc : Place Thr → List (Job Nat Nat)} {fr : Frame} {ps : List Nat}
  {p dflags sndflags flags : Nat} {index : Int} {o : Turn} {turns : Nat → Turn}

theorem connAt_obj (h : s.conns.load index = .ok (.obj p)) : s.connAt index = .ok p := by
  rw [connAt, h]
  rfl

theorem selects_eq (h : s.connAt index = .ok p) :
    s.selects dflags index = .ok (chosen dflags (s.outlets p).kind) := by
  rw [selects]
  split
  case isTrue hd =>
    rw [Nat.and_or_distrib_left, Nat.or_eq_zero_iff] at hd
    simp [chosen, hd.1, hd.2]
  case isFalse hd => rw [connType, h]; rfl

theorem receiver_eq_some {ptr : Ptr} {q : Nat} : s.receiver dflags ptr = some q ↔
    ptr = .obj q ∧ (s.outlets q).zombie = false ∧ chosen dflags (s.outlets q).kind = true := by
  cases ptr with
  | null => simp [receiver]
  | empty => simp [receiver]
  | obj p =>
    simp only [receiver, Option.ite_none_right_eq_some, Option.some.injEq, Ptr.obj.injEq]
    constructor
    · rintro ⟨hr, rfl⟩
      exact ⟨rfl, hr⟩
    · rintro ⟨rfl, hr⟩
      exact ⟨hr, rfl⟩

theorem Ready.mem_receivers (h : s.Ready loc) : p ∈ s.receivers dflags ↔
    ∃ i, i < s.conns.last ∧ s.conns.load i = .ok (.obj p) ∧ (s.outlets p).zombie = false ∧
      chosen dflags (s.outlets p).kind = true := by
  obtain ⟨vs, hv, -, hm⟩ := h.iterable.visits_spec
  rw [receivers, hv, reached, List.mem_filterMap]
  constructor
  · rintro ⟨⟨ptr, i⟩, hx, hr⟩
    obtain ⟨rfl, ha⟩ := receiver_eq_some.mp hr
    obtain ⟨hi, hl, -⟩ := (hm _ i).mp hx
    exact ⟨i, hi, hl, ha⟩
  · rintro ⟨i, hi, hl, hr⟩
    exact ⟨(.obj p, i), (hm _ i).mpr ⟨hi, hl, nofun⟩, receiver_eq_some.mpr ⟨rfl, hr⟩⟩

theorem Ready.receivers_nodup (h : s.Ready loc) : (s.receivers dflags).Nodup := by
  obtain ⟨vs, hv, hp, hm⟩ := h.iterable.visits_spec
  rw [receivers, hv, reached]
  have hx : vs.Pairwise fun x y => x ∈ vs ∧ y ∈ vs ∧ x.2 < y.2 :=
    List.Pairwise.imp_of_mem (fun hx hy hlt => ⟨hx, hy, hlt⟩) hp
  refine List.Pairwise.filterMap _ ?_ hx
  rintro ⟨q, i⟩ ⟨r, j⟩ ⟨hi, hj, hlt⟩ a ha b hb rfl
  obtain ⟨rfl, -⟩ := receiver_eq_some.mp ha
  obtain ⟨rfl, -⟩ := receiver_eq_some.mp hb
  obtain ⟨hil, hil', -⟩ := (hm _ i).mp hi
  obtain ⟨hjl, hjl', -⟩ := (hm _ j).mp hj
  exact absurd (h.once i j a hil hjl hil' hjl') hlt.ne

theorem sent_nil (h : s.Ready loc) : s.Sent loc fr s [] where
  conns := rfl
  root := rfl
  outlets := by simp
  filed := by
    have hq : s.queued loc [] = loc := by
      funext k
      cases k <;> simp [queued]
    rw [hq]
    exact h.filed

theorem Sent.outlet_other (h : s.Sent loc fr t ps) (hp : p ∉ ps) : t.outlets p = s.outlets p := by
  rw [h.outlets, if_neg hp]

theorem Sent.zombie (h : s.Sent loc fr t ps) (p : Nat) :
    (t.outlets p).zombie = (s.outlets p).zombie := by
  rw [h.outlets]
  split <;> rfl

theorem Sent.kind (h : s.Sent loc fr t ps) (p : Nat) :
    (t.outlets p).kind = (s.outlets p).kind := by
  rw [h.outlets]
  split <;> rfl

theorem queued_writing (hw : (s.outlets p).writing = true) :
    s.queued loc (ps ++ [p]) = s.queued loc ps := by
  funext k
  cases k with
  | jobs w => simp [queued, starts, hw]
  | batch w => rfl

theorem queued_idle {w : Thr} (hw : (s.outlets p).writing = false)
    (ht : (s.outlets p).thr = some w) : s.queued loc (ps ++ [p]) =
      Function.update (s.queued loc ps) (.jobs w) (s.queued loc ps (.jobs w) ++ [.startWrite p]) := by
  funext k
  cases k with
  | jobs v =>
    rcases eq_or_ne v w with rfl | hvw
    · simp [queued, starts, hw, ht]
    · simp [queued, starts, hw, ht, hvw, hvw.symm]
  | batch v => simp [queued]

theorem not_mem_queued (hp : p ∉ ps) (hn : ∀ k, Job.startWrite p ∉ loc k) (k : Place Thr) :
    Job.startWrite p ∉ s.queued loc ps k := by
  cases k with
  | jobs w => simp [queued, hn, hp]
  | batch w => exact hn _

theorem outlets_snoc (h : s.Sent loc fr t ps) (hp : p ∉ ps) (q : Nat) :
    Function.update t.outlets p { t.outlets p with
        writing := true, ol := (t.outlets p).ol ++ [fr] } q =
      if q ∈ ps ++ [p] then
        { s.outlets q with writing := true, ol := (s.outlets q).ol ++ [fr] } else s.outlets q := by
  rcases eq_or_ne q p with rfl | hq
  · rw [Function.update_self, h.outlet_other hp, if_pos (by simp)]
  · rw [Function.update_of_ne hq, h.outlets]
    simp [hq]

theorem Sent.grow {pool : Pool (Job Nat Nat) Thr} (h : s.Sent loc fr t ps) (hp : p ∉ ps)
    (hf : pool.Filed (s.queued loc (ps ++ [p]))) :
    s.Sent loc fr (count { t with
      outlets := Function.update t.outlets p { t.outlets p with
        writing := true, ol := (t.outlets p).ol ++ [fr] }
      pool := pool }) (ps ++ [p]) where
  conns := h.conns
  root := by
    rw [List.length_append, List.length_singleton, Function.iterate_succ_apply', ← h.root]
    rfl
  outlets := outlets_snoc h hp
  filed := hf

theorem push_hosted (h : s.push p fr = .ok t) : s.Hosted p := by
  intro hw
  simp only [push, hw, Bool.false_eq_true, if_false] at h
  split at h
  case h_1 => cases h
  case h_2 w ht => exact ⟨w, ht⟩

theorem Sent.push (h : s.Sent loc fr t ps) (hp : p ∉ ps)
    (hidle : (s.outlets p).writing = false → ∀ k, .startWrite p ∉ loc k) (hh : s.Hosted p) :
    ∃ t', t.push p fr = .ok t' ∧ s.Sent loc fr t'.count (ps ++ [p]) := by
  rw [Hub.push]
  cases hw : (s.outlets p).writing with
  | true =>
    have hf := h.filed
    rw [← queued_writing hw] at hf
    exact ⟨_, if_pos (by rw [h.outlet_other hp, hw]), h.grow hp hf⟩
  | false =>
    obtain ⟨w, ht⟩ := hh hw
    have hn := hidle hw
    have hq : t.pool.isinqueue (.startWrite p) = false := by
      rw [← Bool.not_eq_true, h.filed.isinqueue_iff]
      rintro ⟨k, hk⟩
      exact not_mem_queued hp hn k hk
    obtain ⟨pool, hpool⟩ := Option.isSome_iff_exists.mp (Pool.schedule_isSome hq w)
    obtain ⟨-, hf, -⟩ := h.filed.schedule hpool
    rw [← queued_idle hw ht] at hf
    refine ⟨_, ?_, h.grow hp (hf.signal w)⟩
    simp only [h.outlet_other hp, hw, ht, Pool.scheduleTask, hpool]
    rfl

theorem Sent.connAt (h : s.Sent loc fr t ps) (hc : s.connAt index = .ok p) :
    t.connAt index = .ok p := by
  rw [Hub.connAt, h.conns]
  exact hc

variable (flags) in
theorem Sent.send_push (h : s.Sent loc fr t ps) (hc : s.connAt index = .ok p)
    (hz : (s.outlets p).zombie = false)
    (hw : (Root.countSent^[ps.length] s.root).writing ≠ stopOp) (hi : o.item = true) :
    t.send index fr flags o = (t.push p fr).bind fun u => .ok (u.count, o.ret) := by
  rw [← h.root] at hw
  have hr : ¬ t.TurnedAway p flags := by
    rintro (hzt | ⟨hst, -⟩)
    · rw [h.zombie, hz] at hzt
      cases hzt
    · exact hw hst
  rw [send_accepts (h.connAt hc) (not_or.mpr ⟨hr, by rw [hi]; decide⟩), resumed, if_neg hr, if_neg hw]

theorem Sent.send_zombie (h : s.Sent loc fr t ps) (hc : s.connAt index = .ok p)
    (hz : (s.outlets p).zombie = true) : t.send index fr flags o = .ok (t, -1) := by
  rw [send_eq (h.connAt hc), if_pos (by rw [h.zombie, hz])]

variable (dflags) in
theorem Sent.selects (h : s.Sent loc fr t ps) (hc : s.connAt index = .ok p) :
    t.selects dflags index = .ok (chosen dflags (s.outlets p).kind) := by
  rw [selects_eq (h.connAt hc), h.kind]

def Idles (s : Hub) (loc : Place Thr → List (Job Nat Nat)) (x : Ptr × Int) : Prop :=
  ∃ p, x.1 = .obj p ∧ s.connAt x.2 = .ok p ∧ ((s.outlets p).writing = false →
    ∀ k, .startWrite p ∉ loc k)

section
variable {cur : Ptr × Int} {rc : Int} {attempts : List Attempt} {vs : List (Ptr × Int)}

variable (rc attempts) in
theorem Sent.turn {ptr : Ptr} (h : s.Sent loc fr t ps) (hp : ptr ≠ .null)
    (hnext : s.conns.next index = .ok cur) (hx : s.Idles loc (ptr, index))
    (hn : (ps ++ s.reached dflags ((ptr, index) :: vs)).Nodup)
    (hw : ∀ k < (ps ++ s.reached dflags ((ptr, index) :: vs)).length,
      (Root.countSent^[k] s.root).writing ≠ stopOp)
    (ho : sndflags &&& stopOnerr = 0) (hi : ∀ k, (turns k).item = true) :
    ∃ qs, s.reached dflags ((ptr, index) :: vs) = qs ++ s.reached dflags vs ∧
      ((∃ p ∈ qs, ¬ s.Hosted p) ∧ (∀ m, ∃ e, sendLoop Hub.conns fr dflags sndflags turns (m + 1) t
          (ptr, index) rc attempts = .error e) ∨
        (∀ p ∈ qs, s.Hosted p) ∧ ∃ t' rc' attempts', s.Sent loc fr t' (ps ++ qs) ∧
          ∀ m, sendLoop Hub.conns fr dflags sndflags turns (m + 1) t (ptr, index) rc attempts =
            sendLoop Hub.conns fr dflags sndflags turns m t' cur rc' attempts') := by
  obtain ⟨p, rfl, hc, hidle⟩ := hx
  have hsel := h.selects dflags hc
  cases hch : chosen dflags (s.outlets p).kind with
  | false =>
    refine ⟨[], List.filterMap_cons_none (by simp [receiver, hch]), .inr ⟨by simp, ?_⟩⟩
    refine ⟨t, rc, attempts, by simpa using h, fun m => ?_⟩
    rw [hch] at hsel
    rw [sendLoop_skip hp hsel, h.conns, hnext]
    rfl
  | true =>
    rw [hch] at hsel
    cases hz : (s.outlets p).zombie with
    | true =>
      refine ⟨[], List.filterMap_cons_none (by simp [receiver, hz]), .inr ⟨by simp, ?_⟩⟩
      refine ⟨t, -1, attempts ++ [⟨index, t, turns attempts.length, t⟩], by simpa using h,
        fun m => ?_⟩
      rw [sendLoop_send hp hsel, h.send_zombie hc hz]
      simp only [Except.bind, ho, ne_eq, not_true_eq_false, and_false, if_false, h.conns, hnext]
    | false =>
      have hre : s.reached dflags ((.obj p, index) :: vs) = p :: s.reached dflags vs :=
        List.filterMap_cons_some (by simp [receiver, hz, hch])
      rw [hre, List.append_cons] at hn hw
      have hps : p ∉ ps := by
        intro hps
        exact List.disjoint_of_nodup_append (List.nodup_append.mp hn).1 hps (by simp)
      refine ⟨[p], hre, ?_⟩
      have hsend := h.send_push (sndflags ||| sndUnsafe) hc hz (hw _ (by simp)) (hi attempts.length)
      by_cases hh : s.Hosted p
      · obtain ⟨t', ht, hs⟩ := h.push hps hidle hh
        refine .inr ⟨by simpa using hh, t'.count, (turns attempts.length).ret,
          attempts ++ [⟨index, t, turns attempts.length, t'.count⟩], hs, fun m => ?_⟩
        rw [sendLoop_send hp hsel, hsend, ht]
        simp only [Except.bind, ho, ne_eq, not_true_eq_false, and_false, if_false, hs.conns, hnext]
      · refine .inl ⟨⟨p, by simp, hh⟩, fun m => ?_⟩
        cases ht : t.push p fr with
        | error e =>
          rw [sendLoop_send hp hsel, hsend, ht]
          exact ⟨e, rfl⟩
        | ok t' =>
          have hht := push_hosted ht
          rw [Hosted, h.outlet_other hps] at hht
          exact absurd hht hh

variable (rc attempts) in
theorem Sent.loop {n : Nat} (h : s.Sent loc fr t ps) (hv : s.conns.visitsFrom n cur = .ok vs)
    (hm : ∀ x ∈ vs, s.Idles loc x) (hn : (ps ++ s.reached dflags vs).Nodup)
    (hw : ∀ k < (ps ++ s.reached dflags vs).length,
      (Root.countSent^[k] s.root).writing ≠ stopOp)
    (ho : sndflags &&& stopOnerr = 0) (hi : ∀ k, (turns k).item = true) :
    ((∀ p ∈ s.reached dflags vs, s.Hosted p) →
      ∃ b, sendLoop Hub.conns fr dflags sndflags turns n t cur rc attempts = .ok b ∧
        s.Sent loc fr b.hub (ps ++ s.reached dflags vs)) ∧
    ∀ m b, sendLoop Hub.conns fr dflags sndflags turns m t cur rc attempts = .ok b →
      ∀ p ∈ s.reached dflags vs, s.Hosted p := by
  induction n generalizing t ps cur rc attempts vs with
  | zero => cases hv
  | succ n ih =>
    obtain ⟨ptr, i⟩ := cur
    rcases Parr.visitsFrom_eq_ok hv with ⟨rfl, rfl⟩ | ⟨hp, cur, rest, hnext, hr, rfl⟩
    · exact ⟨fun _ => ⟨_, sendLoop_end, by simpa [reached] using h⟩, fun _ _ _ => nofun⟩
    obtain ⟨qs, hre, hturn⟩ := h.turn rc attempts hp hnext (hm (ptr, i) (by simp)) hn hw ho hi
    have hm' : ∀ x ∈ rest, s.Idles loc x := fun x hx => hm x (List.mem_cons_of_mem _ hx)
    rw [hre] at hn hw ⊢
    rcases hturn with ⟨⟨p, hq, hh⟩, hfail⟩ | ⟨hq, t', rc', attempts', hs, hloop⟩
    · refine ⟨fun hall => absurd (hall p (List.mem_append_left _ hq)) hh, fun m b hb => ?_⟩
      cases m with
      | zero => cases hb
      | succ m =>
        obtain ⟨e, he⟩ := hfail m
        rw [he] at hb
        cases hb
    · rw [← List.append_assoc] at hn hw ⊢
      obtain ⟨hdone, hhost⟩ := ih rc' attempts' hs hr hm' hn hw
      refine ⟨fun hall => ?_, fun m b hb p hpm => ?_⟩
      · rw [hloop]
        exact hdone fun p hpm => hall p (List.mem_append_right _ hpm)
      · cases m with
        | zero => cases hb
        | succ m =>
          rw [hloop] at hb
          exact (List.mem_append.mp hpm).elim (hq p) (hhost m b hb p)

end

theorem Ready.idles (h : s.Ready loc) {x : Ptr × Int} (hi : x.2 < s.conns.last)
    (hl : s.conns.load x.2 = .ok x.1) (he : x.1 ≠ .empty) : s.Idles loc x := by
  obtain ⟨p, hp⟩ := h.held x.2 x.1 hi hl he
  rw [hp] at hl
  exact ⟨p, hp, connAt_obj hl, h.idle x.2 p hi hl⟩

variable (fr) in
theorem Ready.broadcast (h : s.Ready loc) (ho : sndflags &&& stopOnerr = 0)
    (hi : ∀ k, (turns k).item = true)
    (hw : ∀ k < (s.receivers dflags).length, (Root.countSent^[k] s.root).writing ≠ stopOp) :
    ((∀ p ∈ s.receivers dflags, s.Hosted p) →
      ∃ fuel b, s.sendAll Hub.conns fr dflags sndflags turns fuel = .ok b ∧
        s.Sent loc fr b.hub (s.receivers dflags)) ∧
    ∀ fuel b, s.sendAll Hub.conns fr dflags sndflags turns fuel = .ok b →
      ∀ p ∈ s.receivers dflags, s.Hosted p := by
  have hn : (s.receivers dflags).Nodup := h.receivers_nodup
  obtain ⟨vs, hv, -, hm⟩ := h.iterable.visits_spec
  obtain ⟨cur, hb, hf⟩ := Parr.visits_eq_ok hv
  have hr : s.receivers dflags = s.reached dflags vs := by
    rw [receivers, hv]
    rfl
  rw [hr] at hn hw ⊢
  have hall : ∀ fuel, s.sendAll Hub.conns fr dflags sndflags turns fuel =
      sendLoop Hub.conns fr dflags sndflags turns fuel s cur 0 [] := by
    intro fuel
    rw [sendAll, hb]
    rfl
  simp only [hall]
  have hidles : ∀ x ∈ vs, s.Idles loc x := by
    intro x hx
    obtain ⟨hlt, hl, he⟩ := (hm x.1 x.2).mp hx
    exact h.idles hlt hl he
  obtain ⟨hdone, hhost⟩ := (sent_nil h).loop 0 [] hf hidles hn hw ho hi
  exact ⟨fun hh => ⟨_, hdone hh⟩, hhost⟩

theorem sndqsz_iterate (r : Root) (n : Nat) :
    (Root.countSent^[n] r).sndqsz = r.sndqsz + n := by
  induction n with
  | zero => simp
  | succ n ih =>
    rw [Function.iterate_succ_apply', sndqsz_countSent, ih]
    push_cast
    ring

def Delivers (s : Hub) (loc : Place Thr → List (Job Nat Nat)) (b c : Int) (fr : Frame)
    (dflags sndflags : Nat) (turns : Nat → Turn) : Prop :=
  ∃ fuel s' rc loc', s.sendc sndAll b c fr dflags sndflags turns fuel = .ok (s', rc) ∧
    (∀ p, (s'.outlets p).ol = (s.outlets p).ol ++ if p ∈ s.receivers dflags then [fr] else []) ∧
    s'.pool.Filed loc' ∧
    (∀ w, loc' (.jobs w) =
      loc (.jobs w) ++ ((s.receivers dflags).filter (s.starts w)).map .startWrite) ∧
    (∀ w, loc' (.batch w) = loc (.batch w)) ∧
    s'.root.sndqsz = s.root.sndqsz + (s.receivers dflags).length

theorem Ready.delivers_iff (h : s.Ready loc) {b c : Int} (ho : sndflags &&& stopOnerr = 0)
    (hi : ∀ k, (turns k).item = true)
    (hw : ∀ k < (s.receivers dflags).length, (Root.countSent^[k] s.root).writing ≠ stopOp) :
    s.Delivers loc b c fr dflags sndflags turns ↔ ∀ p ∈ s.receivers dflags, s.Hosted p := by
  obtain ⟨hdone, hhost⟩ := h.broadcast fr ho hi hw
  constructor
  · rintro ⟨fuel, s', rc, loc', hs, -⟩
    rw [sendc, if_pos rfl] at hs
    cases hr : s.sendAll Hub.conns fr dflags sndflags turns fuel with
    | error e =>
      rw [hr] at hs
      cases hs
    | ok r => exact hhost fuel r hr
  · intro hh
    obtain ⟨fuel, r, hr, hs⟩ := hdone hh
    refine ⟨fuel, r.hub, r.rc, s.queued loc (s.receivers dflags), ?_, fun p => ?_, hs.filed,
      fun w => rfl, fun w => rfl, ?_⟩
    · rw [sendc, if_pos rfl, hr]
      rfl
    · rw [hs.outlets]
      split <;> simp
    · rw [hs.root, sndqsz_iterate]

theorem sendc_all_delivers (s : Hub) (loc : Place Thr → List (Job Nat Nat)) (h : s.Ready loc)
    (b c : Int) (fr : Frame) (dflags sndflags : Nat) (turns : Nat → Turn)
    (ho : sndflags &&& stopOnerr = 0) (hi : ∀ k, (turns k).item = true)
    (hw : ∀ k < (s.receivers dflags).length, (Root.countSent^[k] s.root).writing ≠ stopOp) :
    (s.receivers dflags).Nodup ∧
    (∀ p, p ∈ s.receivers dflags ↔ ∃ i, i < s.conns.last ∧ s.conns.load i = .ok (.obj p) ∧
      (s.outlets p).zombie = false ∧ chosen dflags (s.outlets p).kind = true) ∧
    (s.Delivers loc b c fr dflags sndflags turns ↔ ∀ p ∈ s.receivers dflags, s.Hosted p) :=
  ⟨h.receivers_nodup, fun _ => h.mem_receivers, h.delivers_iff ho hi hw⟩

theorem duo_ready (outlets : Nat → Outlet) :
    { duo with outlets := outlets }.Ready fun _ => [] where
  iterable := duo_iterable
  held := by
    intro i ptr hi hl _
    rcases duo_slot hi hl with ⟨-, h⟩ | ⟨-, h⟩
    · exact ⟨0, h⟩
    · exact ⟨1, h⟩
  once := by
    intro i j p hi hj hl hm
    rcases duo_slot hi hl with ⟨rfl, h⟩ | ⟨rfl, h⟩ <;> rcases duo_slot hj hm with ⟨rfl, h'⟩ | ⟨rfl, h'⟩
    all_goals first | rfl | cases h.symm.trans h'
  filed := Pool.filed_init
  idle := fun _ _ _ _ _ => by simp

-- connection 1 has been published, its worker not yet assigned
def unhosted : Hub := { duo with outlets := fun p => ⟨.incoming, p = 0, 0, none, false, []⟩ }

theorem sendc_all_delivers_duo :
    duo.Delivers (fun _ => []) 0 0 ping 0 0 (fun _ => ⟨id, true, 1⟩) ∧
      ¬ unhosted.Delivers (fun _ => []) 0 0 ping 0 0 fun _ => ⟨id, true, 1⟩ := by
  have hduo := sendc_all_delivers duo (fun _ => []) (duo_ready _) 0 0 ping 0 0
    (fun _ => ⟨id, true, 1⟩) rfl (fun _ => rfl) (by decide)
  have hnone := sendc_all_delivers unhosted (fun _ => []) (duo_ready _) 0 0 ping 0 0
    (fun _ => ⟨id, true, 1⟩) rfl (fun _ => rfl) (by decide)
  refine ⟨hduo.2.2.mpr (by decide), fun hn => ?_⟩
  have hhosted := hnone.2.2.mp hn
  revert hhosted
  decide

end Hub

end Fsock
