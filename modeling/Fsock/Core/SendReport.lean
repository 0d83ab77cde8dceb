import Fsock.Core.Hub

namespace Fsock

namespace Hub

def TurnedAway (s : Hub) (p : Nat) (flags : Nat) : Prop :=
  (s.outlets p).zombie = true ∨ s.root.writing = stopOp ∧ flags &&& donwait ≠ 0

instance (s : Hub) (p flags : Nat) : Decidable (s.TurnedAway p flags) :=
  inferInstanceAs (Decidable (_ ∨ _))

def Refuses (s : Hub) (p flags : Nat) (item : Bool) : Prop := s.TurnedAway p flags ∨ item = false

def resumed (s : Hub) (p flags : Nat) (woken : Hub → Hub) : Hub :=
  if s.TurnedAway p flags then s else if s.root.writing = stopOp then woken s.park else s

def Accepted (p : Nat) (fr : Frame) (s s' : Hub) : Prop :=
  (s'.outlets p).ol = (s.outlets p).ol ++ [fr] ∧
    (∀ q, q ≠ p → (s'.outlets q).ol = (s.outlets q).ol) ∧ s'.root.sndqsz = s.root.sndqsz + 1

def Untouched (s s' : Hub) : Prop :=
  (∀ q, (s'.outlets q).ol = (s.outlets q).ol) ∧ s'.root.sndqsz = s.root.sndqsz

def Reports (s : Hub) (c : Int) (p : Nat) (fr : Frame) (flags : Nat) (woken : Hub → Hub)
    (item : Bool) : Prop :=
  ∀ ret, ∃ s' rc, s.send c fr flags ⟨woken, item, ret⟩ = .ok (s', rc) ∧
    (rc = 0 ↔ Accepted p fr (s.resumed p flags woken) s') ∧
    (rc ≠ 0 → Untouched (s.resumed p flags woken) s')

def picks (s : Hub) (dflags : Nat) (index : Int) : Bool :=
  (s.selects dflags index).toOption.getD false

def targets (s : Hub) (parr : Hub → Parr) (dflags : Nat) : List Int :=
  (((parr s).visits.toOption.getD []).map Prod.snd).filter (s.picks dflags)

structure Traversable (s : Hub) (parr : Hub → Parr) : Prop where
  iterable : (parr s).Iterable
  held : ∀ i ptr, i < (parr s).last → (parr s).load i = .ok ptr → ptr ≠ .empty →
    ∃ p, s.connAt i = .ok p

end Hub

def Attempt.Accepts (a : Attempt) (fr : Frame) (flags : Nat) : Prop :=
  ∃ p, a.before.connAt a.slot = .ok p ∧
    Hub.Accepted p fr (a.before.resumed p flags a.turn.woken) a.after

def Broadcast.Refused (b : Broadcast) (fr : Frame) (flags : Nat) : Prop :=
  ∃ a, b.attempts.getLast? = some a ∧ ¬ a.Accepts fr flags

structure Broadcast.Faithful (b : Broadcast) (fr : Frame) (flags : Nat) : Prop where
  onward : ∀ a ∈ b.attempts.dropLast, a.Accepts fr flags
  broke : b.broke = true ↔ b.Refused fr flags
  rc : b.rc ≠ 0 ↔ b.Refused fr flags

namespace Hub

def BulkReports (s : Hub) (parr : Hub → Parr) (fr : Frame) (dflags sndflags : Nat)
    (woken : Nat → Hub → Hub) (item : Nat → Bool) : Prop :=
  ∀ ret : Nat → Int, ∃ b : Broadcast, b.Faithful fr (sndflags ||| sndUnsafe) ∧
    ∃ n, ∀ fuel, n ≤ fuel →
      s.sendAll parr fr dflags sndflags (fun k => ⟨woken k, item k, ret k⟩) fuel = .ok b

variable {s t : Hub} {c index : Int} {p flags dflags sndflags : Nat} {fr : Frame} {o : Turn}
  {woken : Hub → Hub} {item : Bool} {parr : Hub → Parr} {turns : Nat → Turn}

theorem send_eq (hc : s.connAt c = .ok p) :
    s.send c fr flags o =
      if (s.outlets p).zombie = true then .ok (s, -1)
      else if s.root.writing = stopOp ∧ flags &&& donwait ≠ 0 then .ok (s, eagain)
      else
        let s := if s.root.writing = stopOp then o.woken s.park else s
        if o.item = false then .ok (s, -1)
        else (s.push p fr).bind fun t => .ok (t.count, o.ret) := by
  simp only [send, hc]
  rfl

variable (fr o) in
theorem send_refuses (hc : s.connAt c = .ok p) (h : s.Refuses p flags o.item) :
    ∃ rc, rc ≠ 0 ∧ s.send c fr flags o = .ok (s.resumed p flags o.woken, rc) := by
  rw [send_eq hc]
  by_cases hz : (s.outlets p).zombie = true
  · exact ⟨-1, by decide, by rw [if_pos hz, resumed, if_pos (.inl hz)]⟩
  by_cases hd : s.root.writing = stopOp ∧ flags &&& donwait ≠ 0
  · exact ⟨eagain, by decide, by rw [if_neg hz, if_pos hd, resumed, if_pos (.inr hd)]⟩
  · have hr : ¬ s.TurnedAway p flags := not_or.mpr ⟨hz, hd⟩
    have hi : o.item = false := h.resolve_left hr
    exact ⟨-1, by decide, by rw [if_neg hz, if_neg hd, if_pos hi, resumed, if_neg hr]⟩

theorem send_accepts (hc : s.connAt c = .ok p) (h : ¬ s.Refuses p flags o.item) :
    s.send c fr flags o =
      ((s.resumed p flags o.woken).push p fr).bind fun t => .ok (t.count, o.ret) := by
  obtain ⟨hr, hi⟩ := not_or.mp h
  obtain ⟨hz, hd⟩ := not_or.mp hr
  rw [send_eq hc, if_neg hz, if_neg hd, if_neg hi, resumed, if_neg hr]

@[simp] theorem sndqsz_countSent (r : Root) : r.countSent.sndqsz = r.sndqsz + 1 := by
  unfold Root.countSent
  dsimp only
  split <;> rfl

theorem push_outlets (h : s.push p fr = .ok t) :
    t.outlets = Function.update s.outlets p { s.outlets p with
      writing := true, ol := (s.outlets p).ol ++ [fr] } ∧ t.root = s.root := by
  simp only [push] at h
  split at h
  · cases h
    exact ⟨rfl, rfl⟩
  split at h
  · cases h
  split at h
  · cases h
  · cases h
    exact ⟨rfl, rfl⟩

theorem push_accepted (h : s.push p fr = .ok t) : Accepted p fr s t.count := by
  obtain ⟨ho, hr⟩ := push_outlets h
  refine ⟨?_, fun q hq => ?_, ?_⟩
  · simp [count, ho]
  · simp [count, ho, hq]
  · simp [count, hr]

theorem not_accepted_self : ¬ Accepted p fr s s := by
  rintro ⟨-, -, h⟩
  omega

theorem Accepted.touched (h : Accepted p fr s t) : ¬ Untouched s t := by
  rintro ⟨-, ht⟩
  have hs := h.2.2
  omega

theorem reports_iff (hc : s.connAt c = .ok p) :
    s.Reports c p fr flags woken item ↔ s.Refuses p flags item := by
  constructor
  · intro h
    by_contra hn
    obtain ⟨s', rc, hs, -, hu⟩ := h 1
    rw [send_accepts (o := ⟨woken, item, 1⟩) hc hn] at hs
    cases hp : (s.resumed p flags woken).push p fr with
    | error e =>
      rw [hp] at hs
      cases hs
    | ok t =>
      rw [hp] at hs
      cases hs
      exact (push_accepted hp).touched (hu one_ne_zero)
  · intro h ret
    obtain ⟨rc, hrc, hs⟩ := send_refuses fr ⟨woken, item, ret⟩ hc h
    exact ⟨_, rc, hs, iff_of_false hrc not_accepted_self, fun _ => ⟨fun _ => rfl, rfl⟩⟩

section

variable {f n : Nat} {ptr : Ptr} {cur : Ptr × Int} {rc : Int} {attempts : List Attempt}
  {vs : List (Ptr × Int)}

theorem sendLoop_end : sendLoop parr fr dflags sndflags turns (f + 1) s (.null, index) rc attempts =
    .ok ⟨s, rc, attempts, false⟩ := rfl

theorem sendLoop_skip (hp : ptr ≠ .null) (hs : s.selects dflags index = .ok false) :
    sendLoop parr fr dflags sndflags turns (f + 1) s (ptr, index) rc attempts =
      ((parr s).next index).bind fun cur =>
        sendLoop parr fr dflags sndflags turns f s cur rc attempts := by
  rw [sendLoop, if_neg hp, hs]
  rfl

theorem sendLoop_send (hp : ptr ≠ .null) (hs : s.selects dflags index = .ok true) :
    sendLoop parr fr dflags sndflags turns (f + 1) s (ptr, index) rc attempts =
      (s.send index fr (sndflags ||| sndUnsafe) (turns attempts.length)).bind fun x =>
        let attempts := attempts ++ [⟨index, s, turns attempts.length, x.1⟩]
        if x.2 ≠ 0 ∧ sndflags &&& stopOnerr ≠ 0 then .ok ⟨x.1, x.2, attempts, true⟩
        else ((parr x.1).next index).bind fun cur =>
          sendLoop parr fr dflags sndflags turns f x.1 cur x.2 attempts := by
  rw [sendLoop, if_neg hp, hs]
  rfl

theorem picks_eq {b : Bool} (hs : s.selects dflags index = .ok b) : s.picks dflags index = b := by
  rw [picks, hs]
  rfl

theorem sendLoop_approach (hv : (parr s).visitsFrom n cur = .ok vs)
    (hs : ∀ x ∈ vs, ∃ b, s.selects dflags x.2 = .ok b) (k : Nat) :
    (vs.map Prod.snd).filter (s.picks dflags) = [] ∧
        sendLoop parr fr dflags sndflags turns (n + k) s cur rc attempts =
          .ok ⟨s, rc, attempts, false⟩ ∨
      ∃ i rest ptr f, (vs.map Prod.snd).filter (s.picks dflags) = i :: rest ∧ ptr ≠ .null ∧
        s.selects dflags i = .ok true ∧
        sendLoop parr fr dflags sndflags turns (n + k) s cur rc attempts =
          sendLoop parr fr dflags sndflags turns (f + 1) s (ptr, i) rc attempts := by
  induction n generalizing cur vs with
  | zero => cases hv
  | succ n ih =>
    obtain ⟨ptr, i⟩ := cur
    rw [Nat.succ_add]
    rcases Parr.visitsFrom_eq_ok hv with ⟨rfl, rfl⟩ | ⟨hp, cur, rest, hn, hr, rfl⟩
    · exact .inl ⟨rfl, sendLoop_end⟩
    · obtain ⟨b, hb⟩ := hs (ptr, i) (by simp)
      rw [List.map_cons, List.filter_cons, picks_eq hb]
      cases b with
      | true => exact .inr ⟨i, _, ptr, n + k, rfl, hp, hb, rfl⟩
      | false =>
        rw [sendLoop_skip hp hb, hn]
        exact ih hr fun x hx => hs x (List.mem_cons_of_mem _ hx)

end

theorem Traversable.selects (h : s.Traversable parr) {ptr : Ptr} (hi : index < (parr s).last)
    (hl : (parr s).load index = .ok ptr) (he : ptr ≠ .empty) :
    ∃ b, s.selects dflags index = .ok b := by
  obtain ⟨p, hp⟩ := h.held index ptr hi hl he
  rw [Hub.selects]
  split
  · exact ⟨_, rfl⟩
  · exact ⟨_, by rw [connType, hp]; rfl⟩

theorem Traversable.targets_held (h : s.Traversable parr) (hi : index ∈ s.targets parr dflags) :
    ∃ p, s.connAt index = .ok p := by
  obtain ⟨vs, hv, -, hm⟩ := h.iterable.visits_spec
  rw [targets, hv, List.mem_filter, List.mem_map] at hi
  obtain ⟨⟨⟨ptr, i⟩, hx, rfl⟩, -⟩ := hi
  obtain ⟨hlt, hl, he⟩ := (hm ptr i).mp hx
  exact h.held i ptr hlt hl he

variable (fr dflags sndflags turns) in
theorem sendAll_approach (h : s.Traversable parr) : ∃ n, ∀ fuel, n ≤ fuel →
    s.targets parr dflags = [] ∧
        s.sendAll parr fr dflags sndflags turns fuel = .ok ⟨s, 0, [], false⟩ ∨
      ∃ i rest ptr f, s.targets parr dflags = i :: rest ∧ ptr ≠ .null ∧
        s.selects dflags i = .ok true ∧ s.sendAll parr fr dflags sndflags turns fuel =
          sendLoop parr fr dflags sndflags turns (f + 1) s (ptr, i) 0 [] := by
  obtain ⟨vs, hv, -, hm⟩ := h.iterable.visits_spec
  obtain ⟨cur, hb, hf⟩ := Parr.visits_eq_ok hv
  refine ⟨(parr s).last.toNat + 1, fun fuel hle => ?_⟩
  obtain ⟨k, rfl⟩ := Nat.exists_eq_add_of_le hle
  rw [sendAll, hb, targets, hv]
  refine sendLoop_approach hf (fun x hx => ?_) k
  obtain ⟨hlt, hl, he⟩ := (hm x.1 x.2).mp hx
  exact h.selects hlt hl he

variable (turns) in
theorem sendLoop_refused {f : Nat} {ptr : Ptr} {rc : Int} (hp : ptr ≠ .null)
    (hs : s.selects dflags index = .ok true)
    (hsend : s.send index fr (sndflags ||| sndUnsafe) (turns 0) = .ok (t, rc)) (hrc : rc ≠ 0)
    (ho : sndflags &&& stopOnerr ≠ 0) :
    sendLoop parr fr dflags sndflags turns (f + 1) s (ptr, index) 0 [] =
      .ok ⟨t, rc, [⟨index, s, turns 0, t⟩], true⟩ := by
  rw [sendLoop_send hp hs, List.length_nil, hsend]
  exact if_pos ⟨hrc, ho⟩

theorem faithful_idle : Broadcast.Faithful ⟨s, 0, [], false⟩ fr flags where
  onward := by simp
  broke := by simp [Broadcast.Refused]
  rc := by simp [Broadcast.Refused]

theorem faithful_refused {rc : Int} (hc : s.connAt index = .ok p) (hrc : rc ≠ 0) :
    Broadcast.Faithful ⟨s.resumed p flags o.woken, rc,
      [⟨index, s, o, s.resumed p flags o.woken⟩], true⟩ fr flags := by
  have hn : ¬ Attempt.Accepts ⟨index, s, o, s.resumed p flags o.woken⟩ fr flags := by
    rintro ⟨q, hq, ha⟩
    rw [hc, Except.ok.injEq] at hq
    subst hq
    exact not_accepted_self ha
  exact ⟨by simp, by simp [Broadcast.Refused, hn], by simp [Broadcast.Refused, hn, hrc]⟩

theorem sendLoop_accepted {f : Nat} {ptr : Ptr} (hp : ptr ≠ .null)
    (hs : s.selects dflags index = .ok true) (hc : s.connAt index = .ok p)
    (hr : ¬ s.Refuses p (sndflags ||| sndUnsafe) (turns 0).item) (ho : sndflags &&& stopOnerr ≠ 0)
    (hret : (turns 0).ret ≠ 0) {b : Broadcast}
    (hb : sendLoop parr fr dflags sndflags turns (f + 1) s (ptr, index) 0 [] = .ok b) :
    ¬ b.Faithful fr (sndflags ||| sndUnsafe) := by
  rw [sendLoop_send hp hs, List.length_nil, send_accepts hc hr] at hb
  cases hpush : (s.resumed p (sndflags ||| sndUnsafe) (turns 0).woken).push p fr with
  | error e =>
    rw [hpush] at hb
    cases hb
  | ok t =>
    rw [hpush] at hb
    simp only [Except.bind, if_pos (And.intro hret ho), Except.ok.injEq] at hb
    subst hb
    intro hf
    obtain ⟨a, ha, hn⟩ := hf.rc.mp hret
    cases ha
    exact hn ⟨p, hc, push_accepted hpush⟩

theorem bulkReports_iff (h : s.Traversable parr) (ho : sndflags &&& stopOnerr ≠ 0)
    {woken : Nat → Hub → Hub} {item : Nat → Bool} :
    s.BulkReports parr fr dflags sndflags woken item ↔
      ∀ i p, (s.targets parr dflags).head? = some i → s.connAt i = .ok p →
        s.Refuses p (sndflags ||| sndUnsafe) (item 0) := by
  constructor
  · intro hb i p hi hc
    by_contra hn
    obtain ⟨b, hfaith, n, hok⟩ := hb fun _ => 1
    obtain ⟨m, happ⟩ := sendAll_approach dflags sndflags fr
      (fun k => ⟨woken k, item k, 1⟩) h
    have hfuel := hok (max m n) (le_max_right ..)
    rcases happ (max m n) (le_max_left ..) with ⟨ht, -⟩ | ⟨j, rest, ptr, f, ht, hp, hs, he⟩
    · rw [ht] at hi
      cases hi
    · rw [ht] at hi
      cases hi
      rw [he] at hfuel
      exact sendLoop_accepted hp hs hc hn ho one_ne_zero hfuel hfaith
  · intro hall ret
    obtain ⟨m, happ⟩ := sendAll_approach dflags sndflags fr
      (fun k => ⟨woken k, item k, ret k⟩) h
    cases ht : s.targets parr dflags with
    | nil =>
      refine ⟨⟨s, 0, [], false⟩, faithful_idle, m, fun fuel hle => ?_⟩
      rcases happ fuel hle with ⟨-, he⟩ | ⟨j, rest, ptr, f, hj, -⟩
      · exact he
      · rw [ht] at hj
        cases hj
    | cons i rest =>
      have hi : i ∈ s.targets parr dflags := by
        rw [ht]
        exact List.mem_cons_self
      obtain ⟨p, hc⟩ := h.targets_held hi
      obtain ⟨rc, hrc, hsend⟩ := send_refuses fr ⟨woken 0, item 0, ret 0⟩ hc
        (hall i p (by rw [ht]; rfl) hc)
      refine ⟨_, faithful_refused (o := ⟨woken 0, item 0, ret 0⟩) hc hrc, m, fun fuel hle => ?_⟩
      rcases happ fuel hle with ⟨hj, -⟩ | ⟨j, rest, ptr, f, hj, hp, hs, he⟩
      · rw [ht] at hj
        cases hj
      · rw [ht] at hj
        cases hj
        rw [he]
        exact sendLoop_refused (fun k => ⟨woken k, item k, ret k⟩) hp hs hsend hrc ho

theorem send_reports (s : Hub) (c : Int) (p : Nat) (fr : Frame) (flags : Nat)
    (woken : Nat → Hub → Hub) (item : Nat → Bool) (parr : Hub → Parr) (dflags sndflags : Nat) :
    (s.connAt c = .ok p →
      (s.Reports c p fr flags (woken 0) (item 0) ↔ s.Refuses p flags (item 0))) ∧
    (s.Traversable parr → sndflags &&& stopOnerr ≠ 0 →
      (s.BulkReports parr fr dflags sndflags woken item ↔
        ∀ i p, (s.targets parr dflags).head? = some i → s.connAt i = .ok p →
          s.Refuses p (sndflags ||| sndUnsafe) (item 0))) :=
  ⟨fun hc => reports_iff hc, fun h ho => bulkReports_iff h ho⟩

def ping : Frame := ⟨[0], by decide⟩

def duo : Hub where
  root := .init hwmDefault
  conns := ⟨some (.obj 0 :: .obj 1 :: List.replicate 8 .null), 2, 10, 10⟩
  binds := .init 10
  bnds := fun _ => .init 10
  outlets := fun p => ⟨.outgoing, p = 0, -1, some 0, false, []⟩
  pool := .init

theorem duo_slot {i : Int} {ptr : Ptr} (hi : i < duo.conns.last)
    (hl : duo.conns.load i = .ok ptr) : i = 0 ∧ ptr = .obj 0 ∨ i = 1 ∧ ptr = .obj 1 := by
  obtain ⟨j, rfl, hj⟩ := (Parr.load_eq_ok rfl).mp hl
  have hlt : j < 2 := Int.ofNat_lt.mp hi
  interval_cases j
  · exact .inl ⟨rfl, (Option.some.inj hj).symm⟩
  · exact .inr ⟨rfl, (Option.some.inj hj).symm⟩

theorem duo_iterable : duo.conns.Iterable where
  last_nonneg := by decide
  last_le := by decide
  block := by
    rintro _ ⟨⟩
    rfl
  filled := by
    intro i hi hl
    rcases duo_slot hi hl with ⟨-, h⟩ | ⟨-, h⟩ <;> cases h

theorem duo_traversable : duo.Traversable conns where
  iterable := duo_iterable
  held := by
    intro i ptr hi hl he
    rcases duo_slot hi hl with ⟨rfl, -⟩ | ⟨rfl, -⟩
    · exact ⟨0, rfl⟩
    · exact ⟨1, rfl⟩

theorem send_reports_duo :
    duo.Reports 0 0 ping 0 id true ∧
      duo.BulkReports conns ping 0 stopOnerr (fun _ => id) fun _ => true := by
  have h := send_reports duo 0 0 ping 0 (fun _ => id) (fun _ => true) conns 0 stopOnerr
  refine ⟨(h.1 rfl).mpr (.inl (.inl rfl)), (h.2 duo_traversable (by decide)).mpr ?_⟩
  intro i p hi hc
  have ht : (duo.targets conns 0).head? = some 0 := by decide
  obtain rfl : 0 = i := Option.some.inj (ht.symm.trans hi)
  obtain rfl : 0 = p := Except.ok.inj hc
  exact .inl (.inl rfl)

theorem accepted_send_misreports :
    (∃ s', duo.send 1 ping 0 ⟨id, true, 1⟩ = .ok (s', 1) ∧ Accepted 1 ping duo s') ∧
      ¬ ∀ (s : Hub) (c : Int) (p : Nat) (fr : Frame) (flags : Nat) (woken : Hub → Hub)
        (item : Bool), s.connAt c = .ok p → s.Reports c p fr flags woken item := by
  refine ⟨⟨_, rfl, push_accepted rfl⟩, fun h => ?_⟩
  obtain hr | hi := (reports_iff rfl).mp (h duo 1 1 ping 0 id true rfl)
  · revert hr
    decide
  · cases hi

end Hub

end Fsock
