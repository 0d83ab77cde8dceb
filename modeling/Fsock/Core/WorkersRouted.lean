import Fsock.Core.WorkersStaged

namespace Fsock

namespace Job

variable {κ β : Type}

def peer : Job κ β → Option κ
  | .startRead c => some c
  | .stopRead c => some c
  | .startWrite c => some c
  | .thrConn c => some c
  | _ => none

@[simp] theorem peer_read (start : Bool) (c : κ) : (read start c : Job κ β).peer = some c := by
  cases start <;> rfl

end Job

namespace Phase

variable {κ : Type}

def todo (conns : List κ) : Phase κ → List κ
  | .locking => conns
  | .pushing todo => todo
  | .removing _ todo => todo
  | .signalling _ => []

end Phase

namespace Workers

variable {κ β τ : Type}

def on (s : Workers κ β τ) : Bool := s.reading ≠ stopOp

def todo (s : Workers κ β τ) : List κ :=
  match s.bulk with
  | some b => b.phase.todo s.conns
  | none => []

structure Routed (s : Workers κ β τ) (loc : Place Thr → List (Job κ β)) : Prop where
  home : ∀ j w c, s.pool.holds loc j w → j.peer = some c →
    (s.peers c).thr = some w ∧ c ∈ s.conns
  sending : ∀ t c, s.sends t = some c → c ∈ s.conns
  aimed : ∀ b, s.bulk = some b → b.start = s.on
  within : ∀ c ∈ s.todo, c ∈ s.conns
  busy : ∀ w, s.handlers w ≠ .idle → s.pool.routine w = .waiting
  parsed : ∀ w n cnt, s.handlers w = .parsed n cnt →
    ∃ c, (s.peers c).thr = some w ∧ (s.peers c).rio = true
  closing : ∀ w c, s.handlers w = .hangup c ∨ s.handlers w = .mark c → (s.peers c).thr = some w
  marked : ∀ w c, s.handlers w = .mark c → (s.peers c).rio = false ∧ (s.peers c).wio = false
  accepting : ∀ c u w b, s.setups c = some u → u.origin = some (w, b) → u.stages ≠ [] →
    s.handlers w = .accepting c
  pausing : ∀ b w, s.bulk = some b → b.holder = some w → s.handlers w = .pausing
  stopped : ∀ w, (s.pool.routine w).stopping = true → s.joined w = true

theorem todo_of_phase {s : Workers κ β τ} {b : Bulk κ} {p : Phase κ} (hb : s.bulk = some b)
    (hp : b.phase = p) : s.todo = p.todo s.conns := by
  rw [todo, hb]
  exact hp ▸ rfl

theorem todo_congr {s s' : Workers κ β τ} (hb : s'.bulk = s.bulk) (hc : s'.conns = s.conns) :
    s'.todo = s.todo := by
  rw [todo, todo, hb, hc]

theorem routed_init (rcvhwm : Int) : (init rcvhwm : Workers κ β τ).Routed fun _ => [] where
  home := by
    rintro j w c (h | h | h)
    · cases h
    · cases h
    · cases h
  sending _ _ := nofun
  aimed _ := nofun
  within _ := nofun
  busy _ h := absurd rfl h
  parsed _ _ _ := nofun
  closing _ _ h := by rcases h with h | h <;> cases h
  marked _ _ := nofun
  accepting _ _ _ _ := nofun
  pausing _ _ := nofun
  stopped _ := nofun

variable [DecidableEq κ] [DecidableEq β]

inductive Change (s : Workers κ β τ) (l : WorkersLabel κ β τ) (c : κ) : Endpoint → Prop
  | same : Change s l c (s.peers c)
  | assign {u : Setup β} {stage : Stage} {stages : List Stage} {f : Endpoint → Endpoint}
      (ha : Assign u stage f) (hu : s.setups c = some u) (hs : u.stages = stage :: stages) :
      Change s l c (f (s.peers c))
  | insert {t : τ} (ht : s.sends t = some c) (hw : (s.peers c).writing = false) :
      Change s l c { s.peers c with writing := true }
  | hangup {w : Thr} (hp : s.handlers w = .hangup c) :
      Change s l c { s.peers c with rio := false, wio := false }
  | mark {w : Thr} (hl : l = .mark w) (hp : s.handlers w = .mark c) :
      Change s l c { s.peers c with zombie := true }
  | written {w : Thr} (hp : s.handlers w = .writing c) : Change s l c { s.peers c with wio := false }
  | clear {w : Thr} (hp : s.handlers w = .clear c) : Change s l c { s.peers c with writing := false }
  | startRead {w : Thr} (hw : s.pool.routine w = .task (.startRead c))
      (hs : (s.peers c).started = true) : Change s l c { s.peers c with rio := true }
  | stopRead {w : Thr} (hw : s.pool.routine w = .task (.stopRead c))
      (hs : (s.peers c).started = true) : Change s l c { s.peers c with rio := false }
  | startWrite {w : Thr} (hw : s.pool.routine w = .task (.startWrite c))
      (hs : (s.peers c).started = true) : Change s l c { s.peers c with wio := true }
  | thrConn {w : Thr} (hw : s.pool.routine w = .task (.thrConn c)) :
      Change s l c { s.peers c with started := true, rio := true, wio := false }

inductive Relay (s s' : Workers κ β τ) (w : Thr) : Handler κ → Prop
  | same : Relay s s' w (s.handlers w)
  | idle (hm : ∀ c, s.handlers w = .mark c → (s'.peers c).zombie = true)
      (ha : ∀ c u, s.handlers w = .accepting c → s'.setups c = some u → u.stages = [])
      (hp : s.handlers w = .pausing → s'.bulk = none) : Relay s s' w .idle
  | accepting {c : κ} {b : β} (hl : s.handlers w = .idle) (hr : s'.pool.routine w = .waiting)
      (hb : (s.listeners b).rio = true) : Relay s s' w (.accepting c)
  | closed {c : κ} (hl : s.handlers w = .idle) (hr : s'.pool.routine w = .waiting)
      (hp : (s.peers c).thr = some w) (hio : (s.peers c).rio = true) : Relay s s' w (.hangup c)
  | parsed {c : κ} {n : Nat} {cnt : Int} (hl : s.handlers w = .idle)
      (hr : s'.pool.routine w = .waiting) (hp : (s'.peers c).thr = some w)
      (hio : (s'.peers c).rio = true) : Relay s s' w (.parsed n cnt)
  | writing {c : κ} (hl : s.handlers w = .idle) (hr : s'.pool.routine w = .waiting)
      (hz : (s.peers c).zombie = false) (hio : (s.peers c).wio = true) : Relay s s' w (.writing c)
  | pausing {n : Nat} {cnt : Int} (hl : s.handlers w = .parsed n cnt) : Relay s s' w .pausing
  | mark {c : κ} (hl : s.handlers w = .hangup c) (hr : (s'.peers c).rio = false)
      (hw : (s'.peers c).wio = false) : Relay s s' w (.mark c)
  | clear {c : κ} (hl : s.handlers w = .writing c) : Relay s s' w (.clear c)

inductive Motion (s : Workers κ β τ) (loc : Place Thr → List (Job κ β)) (w : Thr) :
    Routine (Job κ β) → Prop
  | same : Motion s loc w (s.pool.routine w)
  | copied (hr : s.pool.routine w = .waiting) (hh : s.handlers w = .idle) : Motion s loc w .popping
  | popped {r : Routine (Job κ β)} {rest : List (Job κ β)}
      (hp : Pool.Popped s.pool loc w (.stop w) r rest) : Motion s loc w r
  | done {j : Job κ β} (hr : s.pool.routine w = .task j) : Motion s loc w .popping

inductive Pass (s s' : Workers κ β τ) : Prop
  | same (hb : s'.bulk = s.bulk) (hr : s'.reading = s.reading) (ht : s'.todo = s.todo)
  | start {b : Bulk κ} (hb : s'.bulk = some b) (hr : b.start = s'.on) (ht : s'.todo = s.conns)
      (hh : ∀ w, b.holder = some w → s'.handlers w = .pausing)
      (hw : b.start = true ∨ ∃ w n cnt, s.handlers w = .parsed n cnt)
  | phase {b : Bulk κ} {p : Phase κ} (hb : s.bulk = some b)
      (hb' : s'.bulk = some { b with phase := p }) (hr : s'.reading = s.reading)
      (ht : ∀ c ∈ s'.todo, c ∈ s.todo)
  | free (hb : s'.bulk = none) (ht : s'.todo = [])

variable {s s' : Workers κ β τ} {l : WorkersLabel κ β τ} {loc loc' : Place Thr → List (Job κ β)}

omit [DecidableEq β] in
theorem change_modify {f : Endpoint → Endpoint} {c d : κ} (h : d = c → Change s l d (f (s.peers d)))
    (hp : s'.peers = (s.modify c f).peers) : Change s l d (s'.peers d) := by
  rw [hp]
  rcases eq_or_ne d c with rfl | hdc
  · rw [modify_self]
    exact h rfl
  · rw [modify_of_ne s c f hdc]
    exact .same

omit [DecidableEq κ] [DecidableEq β] in
theorem relay_handle {x : Handler κ} {v w : Thr} (h : Relay s s' w x)
    (hp : s'.handlers = (s.handle w x).handlers) : Relay s s' v (s'.handlers v) := by
  rw [hp]
  rcases eq_or_ne v w with rfl | hvw
  · rw [show (s.handle v x).handlers v = x from Function.update_self ..]
    exact h
  · rw [show (s.handle w x).handlers v = s.handlers v from Function.update_of_ne hvw _ _]
    exact .same

variable [DecidableEq τ]

theorem Effect.change (hc : s.Crewed loc) (he : Effect s l s') (c : κ) :
    Change s l c (s'.peers c) := by
  cases he with
  | issue hi hk hp =>
    cases hi with
    | bind => exact .same
    | join => exact .same
    | start =>
      rw [peers_release]
      exact .same
    | @insert t d _ ht hthr hw =>
      refine change_modify (f := fun p => { p with writing := true }) (c := d) ?_ rfl
      rintro rfl
      exact .insert ht hw
  | @assign d u stage stages f ha hu hs =>
    refine change_modify (f := f) (c := d) ?_ rfl
    rintro rfl
    exact .assign ha hu hs
  | free =>
    rw [peers_release]
    exact .same
  | @hangup w d hp =>
    refine change_modify (f := fun p => { p with rio := false, wio := false }) (c := d) ?_ rfl
    rintro rfl
    exact .hangup hp
  | @mark w d hp =>
    refine change_modify (f := fun p => { p with zombie := true }) (c := d) ?_ rfl
    rintro rfl
    exact .mark rfl hp
  | @written w d hp =>
    refine change_modify (f := fun p => { p with wio := false }) (c := d) ?_ rfl
    rintro rfl
    exact .written hp
  | @clear w d hp =>
    refine change_modify (f := fun p => { p with writing := false }) (c := d) ?_ rfl
    rintro rfl
    exact .clear hp
  | @run w task pool _ hp hr =>
    obtain ⟨hw, -⟩ := hc.filed.done hp
    cases hr with
    | raw => exact .same
    | stop => exact .same
    | thrBind => exact .same
    | @startRead d hs =>
      refine change_modify (f := fun p => { p with rio := true }) (c := d) ?_ rfl
      rintro rfl
      exact .startRead hw hs
    | @stopRead d hs =>
      refine change_modify (f := fun p => { p with rio := false }) (c := d) ?_ rfl
      rintro rfl
      exact .stopRead hw hs
    | @startWrite d hs =>
      refine change_modify (f := fun p => { p with wio := true }) (c := d) ?_ rfl
      rintro rfl
      exact .startWrite hw hs
    | @thrConn d =>
      refine change_modify (f := fun p => { p with started := true, rio := true, wio := false })
        (c := d) ?_ rfl
      rintro rfl
      exact .thrConn hw
  | _ => exact .same

theorem Effect.relay (hs : s.Sound) (h : s.Routed loc) (he : Effect s l s') (w : Thr) :
    Relay s s' w (s'.handlers w) := by
  have hidle : ∀ {hd : Handler κ}, s.handlers w = hd → (∀ c, hd ≠ .mark c) →
      (∀ c, hd ≠ .accepting c) → hd ≠ .pausing → Relay s s' w .idle :=
    fun hh hm ha hp => .idle (fun c hc => absurd (hh.symm.trans hc) (hm c))
      (fun c u hc => absurd (hh.symm.trans hc) (ha c)) fun hc => absurd (hh.symm.trans hc) hp
  cases he with
  | issue hi hk hp =>
    cases hi with
    | @start c u stages hu hst =>
      cases ho : u.origin with
      | none => exact .same
      | some o =>
        obtain ⟨v, b⟩ := o
        have hv := h.accepting c u v b hu ho (by simp [hst])
        have hplan := hs.planned c u hu
        rw [hst] at hplan
        rw [ho] at hidle
        refine relay_handle (w := v) (x := .idle) (.idle (fun d hd => ?_) (fun d x hd hx => ?_)
          fun hd => ?_) rfl
        · rw [hv] at hd
          cases hd
        · rw [hv, Handler.accepting.injEq] at hd
          subst hd
          change Function.update s.setups c _ c = some x at hx
          rw [Function.update_self, Option.some.injEq] at hx
          exact hx ▸ Setup.plan_start hplan
        · rw [hv] at hd
          cases hd
    | _ => exact .same
  | @free b hb hp =>
    cases ho : b.holder with
    | none => exact .same
    | some v =>
      have hv := h.pausing b v hb ho
      refine relay_handle (w := v) (x := .idle) (.idle (fun d hd => ?_) (fun d x hd => ?_)
        fun _ => rfl) rfl
      · rw [hv] at hd
        cases hd
      · rw [hv] at hd
        cases hd
  | accept hu hl hr => exact relay_handle (.accepting hl.1 hl.2 hr) rfl
  | @turn l v hd q e ht =>
    refine relay_handle (w := v) (x := hd) ?_ rfl
    cases ht with
    | closed hl hr hp => exact .closed hl.1 hl.2 hp hr
    | parsed hl hr hp => exact .parsed hl.1 hl.2 hp hr
    | delivered hp => exact .idle (by simp [hp]) (by simp [hp]) (by simp [hp])
    | writing hl hr hp hz => exact .writing hl.1 hl.2 hz hr
    | written hp => exact .idle (by simp [hp]) (by simp [hp]) (by simp [hp])
  | @pause v n cnt q e hp hb => exact relay_handle (w := v) (x := .pausing) (.pausing hp) rfl
  | @hangup v c hp =>
    refine relay_handle (w := v) (x := .mark c) (.mark hp ?_ ?_) rfl
    · rw [peers_handle, modify_self]
    · rw [peers_handle, modify_self]
  | @mark v c hp =>
    refine relay_handle (w := v) (x := .idle) (.idle (fun d hd => ?_) (by simp [hp])
      (by simp [hp])) rfl
    rw [hp, Handler.mark.injEq] at hd
    subst hd
    rw [peers_handle, modify_self]
  | @written v c hp => exact relay_handle (w := v) (x := .clear c) (.clear hp) rfl
  | @clear v c hp =>
    exact relay_handle (w := v) (x := .idle) (.idle (by simp [hp]) (by simp [hp])
      (by simp [hp])) rfl
  | run hp hr => cases hr <;> exact .same
  | _ => exact .same

theorem Effect.holds (hc : s.Crewed loc) (hc' : s'.Crewed loc') (he : Effect s l s')
    {j : Job κ β} {w : Thr} (hj : s'.pool.holds loc' j w) : s.pool.holds loc j w ∨
      (∃ k, Issue s l (some w) j k) ∨ ∃ b c todo, l = .bulk ∧ s.bulk = some b ∧
        b.phase = .pushing (c :: todo) ∧ (s.peers c).thr = some w ∧ j = .read b.start c := by
  have hsame : s'.pool = s.pool → s.pool.holds loc j w := by
    intro hp
    obtain rfl := hc.filed.unique (hp ▸ hc'.filed)
    rwa [hp] at hj
  cases he with
  | @issue l v i k pool hi hk hp =>
    obtain ⟨hpool, -⟩ := hi.frame { s with pool := pool.scheduleTaskSignal v }
    have hf := hc'.filed
    rw [hpool] at hf hj
    rcases hc.filed.schedule_holds (⟨hf.family, hf.idle, hf.owed⟩ : pool.Filed _) hp hj with
      hj | ⟨rfl, rfl⟩
    · exact .inl hj
    · exact .inr (.inl ⟨k, hi⟩)
  | @push b c todo v pool hb hp ht hs =>
    rcases hc.filed.schedule_holds hc'.filed hs hj with hj | ⟨rfl, rfl⟩
    · exact .inl hj
    · exact .inr (.inr ⟨b, c, todo, rfl, hb, hp, ht, rfl⟩)
  | remove hb hp ht hs => exact .inl (hc.filed.remove_holds hc'.filed hs hj)
  | @signal b v todo =>
    have hf := hc'.filed
    obtain rfl := hc.filed.unique (p := s.pool) ⟨hf.family, hf.idle, hf.owed⟩
    exact .inl hj
  | copyJobs hh hk hp => exact .inl (hc.filed.copyJobs_holds hc'.filed hp hj)
  | pop hp => exact .inl (hc.filed.pop_holds hc'.filed hp hj)
  | @run v task pool _ hp hr =>
    obtain ⟨hpool, -⟩ := hr.frame
    have hf := hc'.filed
    rw [hpool] at hf hj
    exact .inl (hc.filed.done_holds hf hp hj)
  | free => exact .inl (hsame (pool_release _ _))
  | _ => exact .inl (hsame rfl)

theorem Effect.conns (he : Effect s l s') {c : κ} (h : c ∈ s.conns) : c ∈ s'.conns := by
  cases he with
  | issue hi hk hp =>
    rw [(hi.reads _).2.1]
    exact h
  | publish => exact List.mem_append_left _ h
  | free =>
    rw [conns_release]
    exact h
  | run hp hr => cases hr <;> exact h
  | _ => exact h

omit [DecidableEq τ] in
theorem Change.thr {c : κ} {e : Endpoint} {w : Thr} (h : Change s l c e) (hs : s.Staged)
    (hw : (s.peers c).thr = some w) : e.thr = some w := by
  cases h with
  | assign ha hu hst =>
    cases ha with
    | thr =>
      rw [hs.assigned c _ hu, hst, if_pos (by simp)] at hw
      cases hw
    | _ => exact hw
  | _ => exact hw

omit [DecidableEq τ] in
theorem Change.watchers {c : κ} {e : Endpoint} {w : Thr} (h : Change s l c e) (hs : s.Sound)
    (hr : s.Routed loc) (hw : (s.peers c).thr = some w) (hh : s.handlers w ≠ .idle)
    (hn : s.handlers w ≠ .hangup c ∧ s.handlers w ≠ .writing c) :
    e.rio = (s.peers c).rio ∧ e.wio = (s.peers c).wio := by
  have hbusy := hr.busy w hh
  have hrun : ∀ {v j}, j.peer = some c → s.pool.routine v ≠ .task j := by
    intro v j hj hv
    have hvw := (hr.home j v c (.inr (.inr hv)) hj).1
    rw [hw, Option.some.injEq] at hvw
    rw [← hvw, hbusy] at hv
    cases hv
  cases h with
  | assign ha hu hst => cases ha <;> exact ⟨rfl, rfl⟩
  | @hangup v hp =>
    have hvw := hr.closing v c (.inl hp)
    rw [hw, Option.some.injEq] at hvw
    exact absurd (hvw ▸ hp) hn.1
  | @written v hp =>
    have hvw := (hs.handled v c (.inl hp)).1
    rw [hw, Option.some.injEq] at hvw
    exact absurd (hvw ▸ hp) hn.2
  | startRead hv => exact absurd hv (hrun rfl)
  | stopRead hv => exact absurd hv (hrun rfl)
  | startWrite hv => exact absurd hv (hrun rfl)
  | thrConn hv => exact absurd hv (hrun rfl)
  | _ => exact ⟨rfl, rfl⟩

theorem Effect.thr (hc : s.Crewed loc) (hs : s.Staged) (he : Effect s l s') {c : κ} {w : Thr}
    (h : (s.peers c).thr = some w) : (s'.peers c).thr = some w := (he.change hc c).thr hs h

theorem Effect.motion (hc : s.Crewed loc) (he : Effect s l s') (w : Thr) :
    Motion s loc w (s'.pool.routine w) := by
  have hsame : s'.pool.routine = s.pool.routine → Motion s loc w (s'.pool.routine w) := by
    intro hr
    rw [hr]
    exact .same
  have hmove : ∀ {v r}, s'.pool.routine = Function.update s.pool.routine v r →
      (w = v → Motion s loc w r) → Motion s loc w (s'.pool.routine w) := by
    intro v r hr hm
    rw [hr, Function.update_apply]
    split
    case isTrue hwv => exact hm hwv
    case isFalse => exact .same
  cases he with
  | @issue l v j k pool hi hk hp =>
    refine hsame ?_
    rw [(hi.frame _).1]
    exact (hc.filed.schedule hp).2.2.1
  | push hb hp ht hs => exact hsame (hc.filed.schedule hs).2.2.1
  | remove hb hp ht hs => exact hsame (hc.filed.remove hs).2.1
  | copyJobs hh hk hp =>
    obtain ⟨hw, -, hr, -⟩ := hc.filed.copyJobs hp
    refine hmove hr ?_
    rintro rfl
    exact .copied hw hh
  | pop hp =>
    obtain ⟨r, rest, hpop, -, hr, -⟩ := hc.filed.pop hp
    refine hmove hr ?_
    rintro rfl
    exact .popped hpop
  | @run v task pool _ hp hran =>
    obtain ⟨hw, -, hr, -⟩ := hc.filed.done hp
    refine hmove (v := v) (by rw [hran.frame.1]; exact hr) ?_
    rintro rfl
    exact .done hw
  | free => exact hsame (by rw [pool_release])
  | _ => exact hsame rfl

theorem Effect.routine (hc : s.Crewed loc) (he : Effect s l s') {w : Thr}
    (hh : s.handlers w ≠ .idle) (hw : s.pool.routine w = .waiting) :
    s'.pool.routine w = .waiting := by
  have hmotion := he.motion hc w
  generalize s'.pool.routine w = r at hmotion ⊢
  cases hmotion with
  | same => exact hw
  | copied hr hi => exact absurd hi hh
  | popped hp => exact absurd hw hp.awake
  | done hr => cases hw.symm.trans hr

theorem Effect.stops (hc : s.Crewed loc) (he : Effect s l s') {w : Thr}
    (h : (s'.pool.routine w).stopping = true) :
    (s.pool.routine w).stopping = true ∨ s.pool.active (.stop w) := by
  have hmotion := he.motion hc w
  generalize s'.pool.routine w = r at hmotion h
  cases hmotion with
  | same => exact .inl h
  | copied => cases h
  | popped hp =>
    cases hp with
    | drained | task => cases h
    | stop hr hl => exact .inr (.inl (hc.filed.isinqueue_iff.mpr ⟨.batch w, by simp [hl]⟩))
    | flush hr | exit hr =>
      rw [hr]
      exact .inl rfl
  | done => cases h

theorem Effect.stopping (hc : s.Crewed loc) (he : Effect s l s') {w : Thr}
    (h : (s'.pool.routine w).stopping = false) : (s.pool.routine w).stopping = false := by
  have hmotion := he.motion hc w
  generalize s'.pool.routine w = r at hmotion h
  cases hmotion with
  | same => exact h
  | copied hr | done hr =>
    rw [hr]
    rfl
  | popped hp =>
    cases hp with
    | drained hr | task hr | stop hr =>
      rw [hr]
      rfl
    | flush | exit => cases h

theorem Effect.setups (he : Effect s l s') {c : κ} {u : Setup β} (hu : s'.setups c = some u) :
    (∃ v, s.setups c = some v ∧ v.origin = u.origin ∧ (u.stages ≠ [] → v.stages ≠ [])) ∨
      ∀ w b, u.origin = some (w, b) →
        s'.handlers w = .accepting c ∧ (s.listeners b).rio = true := by
  have hkeep : s.setups c = some u →
      ∃ v, s.setups c = some v ∧ v.origin = u.origin ∧ (u.stages ≠ [] → v.stages ≠ []) :=
    fun h => ⟨u, h, rfl, id⟩
  have hnext : ∀ {d : κ} {v v' : Setup β} {stage : Stage} {stages : List Stage},
      s.setups d = some v → v.stages = stage :: stages →
      Function.update s.setups d (some v') c = some u → v'.origin = v.origin →
      ∃ v, s.setups c = some v ∧ v.origin = u.origin ∧ (u.stages ≠ [] → v.stages ≠ []) := by
    intro d v v' stage stages hv hst hup ho
    rcases update_some hup with ⟨rfl, rfl⟩ | ⟨-, hup⟩
    · exact ⟨v, hv, ho.symm, fun _ => by simp [hst]⟩
    · exact hkeep hup
  cases he with
  | issue hi hk hp =>
    cases hi with
    | start hu' hst =>
      rw [setups_release] at hu
      exact .inl (hnext hu' hst hu rfl)
    | _ => exact .inl (hkeep hu)
  | @connect d w fd hn =>
    rcases update_some hu with ⟨rfl, rfl⟩ | ⟨-, hu⟩
    · exact .inr nofun
    · exact .inl (hkeep hu)
  | @accept w b d v fd hn hl hr =>
    rcases update_some hu with ⟨rfl, rfl⟩ | ⟨-, hu⟩
    · refine .inr fun w' b' ho => ?_
      obtain ⟨rfl, rfl⟩ := Prod.mk.inj (Option.some.inj ho)
      exact ⟨Function.update_self .., hr⟩
    · exact .inl (hkeep hu)
  | attach hu' hst ho => exact .inl (hnext hu' hst hu rfl)
  | publish hu' hst hb => exact .inl (hnext hu' hst hu rfl)
  | assign ha hu' hst => exact .inl (hnext hu' hst hu rfl)
  | free =>
    rw [setups_release] at hu
    exact .inl (hkeep hu)
  | run hp hr => cases hr <;> exact .inl (hkeep hu)
  | _ => exact .inl (hkeep hu)

theorem Effect.joined (he : Effect s l s') {w : Thr} (h : s.joined w = true) :
    s'.joined w = true := by
  cases he with
  | issue hi hk hp =>
    cases hi with
    | start =>
      rw [joined_release]
      exact h
    | join =>
      change Function.update s.joined _ true w = true
      rw [Function.update_apply]
      split
      · rfl
      · exact h
    | _ => exact h
  | free =>
    rw [joined_release]
    exact h
  | run hp hr => cases hr <;> exact h
  | _ => exact h

theorem Effect.sends (he : Effect s l s') {t : τ} {c : κ} (h : s'.sends t = some c) :
    s.sends t = some c ∨ c ∈ s.conns := by
  have hgone : ∀ {v : τ}, Function.update s.sends v none t = some c → s.sends t = some c := by
    intro v hv
    rcases eq_or_ne t v with rfl | htv
    · rw [Function.update_self] at hv
      cases hv
    · rwa [Function.update_of_ne htv] at hv
  cases he with
  | issue hi hk hp =>
    cases hi with
    | start =>
      rw [sends_release] at h
      exact .inl h
    | insert => exact .inl (hgone h)
    | _ => exact .inl h
  | @check v d hc hz =>
    rcases update_some h with ⟨rfl, rfl⟩ | ⟨-, h⟩
    · exact .inr hc
    · exact .inl h
  | sent => exact .inl (hgone h)
  | free =>
    rw [sends_release] at h
    exact .inl h
  | run hp hr => cases hr <;> exact .inl h
  | _ => exact .inl h

theorem Effect.pass (he : Effect s l s') : Pass s s' := by
  have hsame : s'.bulk = s.bulk → s'.reading = s.reading → s'.conns = s.conns → Pass s s' :=
    fun hb hr hc => .same hb hr (todo_congr hb hc)
  cases he with
  | issue hi hk hp =>
    cases hi with
    | start => exact hsame (bulk_release _ _) (reading_release _ _) (conns_release _ _)
    | _ => exact hsame rfl rfl rfl
  | publish hu hst hb => exact .same rfl rfl (by simp [Workers.todo, setup, hb])
  | @pause w n cnt q e hp hb =>
    refine .start rfl rfl rfl (fun v hv => ?_) (.inr ⟨w, n, cnt, hp⟩)
    obtain rfl := Option.some.inj hv
    exact Function.update_self ..
  | resume hb => exact .start rfl rfl rfl (by simp) (.inl rfl)
  | lock hb hp =>
    refine .phase hb rfl rfl fun c hc => ?_
    rw [todo_of_phase hb hp]
    exact hc
  | unlock hb hp => exact .phase hb rfl rfl fun c hc => by cases hc
  | skip hb hp hq =>
    refine .phase hb rfl rfl fun c hc => ?_
    rw [todo_of_phase hb hp]
    exact List.mem_cons_of_mem _ hc
  | push hb hp ht hs =>
    refine .phase hb rfl rfl fun c hc => ?_
    rw [todo_of_phase hb hp]
    exact List.mem_cons_of_mem _ hc
  | keep hb hp hq =>
    refine .phase hb rfl rfl fun c hc => ?_
    rw [todo_of_phase hb hp]
    exact hc
  | remove hb hp ht hs =>
    refine .phase hb rfl rfl fun c hc => ?_
    rw [todo_of_phase hb hp]
    exact hc
  | signal hb hp => exact .phase hb rfl rfl fun c hc => by cases hc
  | free hb hp => exact .free (bulk_release _ _) (by rw [Workers.todo, bulk_release])
  | run hp hr => cases hr <;> exact hsame rfl rfl rfl
  | _ => exact hsame rfl rfl rfl

theorem Routed.home_step (hc : s.Crewed loc) (hc' : s'.Crewed loc') (hs : s.Sound) (hst : s.Staged)
    (h : s.Routed loc) (he : Effect s l s') {j : Job κ β} (hj : s'.pool.holds loc' j w)
    (hp : j.peer = some c) : (s.peers c).thr = some w ∧ c ∈ s.conns := by
  rcases he.holds hc hc' hj with hj | ⟨k, hi⟩ | ⟨b, d, todo, -, hb, hph, ht, rfl⟩
  · exact h.home j w c hj hp
  · cases hi with
    | bind => cases hp
    | join => cases hp
    | @start d u stages hu hstages =>
      obtain rfl := Option.some.inj hp
      have hplan := hs.planned d u hu
      rw [hstages] at hplan
      rw [Setup.plan_start hplan] at hstages
      refine ⟨?_, (hst.published d u hu).mpr (by simp [hstages])⟩
      rw [hst.assigned d u hu, if_neg (by simp [hstages])]
    | insert ht hthr hw =>
      obtain rfl := Option.some.inj hp
      exact ⟨hthr, h.sending _ _ ht⟩
  · rw [Job.peer_read, Option.some.injEq] at hp
    subst hp
    refine ⟨ht, h.within d ?_⟩
    rw [todo_of_phase hb hph]
    exact List.mem_cons_self

theorem Routed.aimed_step (h : s.Routed loc) (he : Effect s l s') {b : Bulk κ}
    (hb : s'.bulk = some b) : b.start = s'.on := by
  cases he.pass with
  | same hb' hr ht =>
    rw [hb'] at hb
    rw [on, hr]
    exact h.aimed b hb
  | start hb' hr ht =>
    rw [hb', Option.some.injEq] at hb
    exact hb ▸ hr
  | @phase b' p hb' hb'' hr ht =>
    rw [hb'', Option.some.injEq] at hb
    subst hb
    rw [on, hr]
    exact h.aimed b' hb'
  | free hb' ht =>
    rw [hb'] at hb
    cases hb

theorem Routed.within_step (h : s.Routed loc) (he : Effect s l s') (hm : c ∈ s'.todo) :
    c ∈ s.conns := by
  cases he.pass with
  | same hb hr ht => exact h.within c (ht ▸ hm)
  | start hb hr ht => rwa [ht] at hm
  | phase hb hb' hr ht => exact h.within c (ht c hm)
  | free hb ht =>
    rw [ht] at hm
    cases hm

theorem Routed.busy_step (hc : s.Crewed loc) (hs : s.Sound) (h : s.Routed loc)
    (he : Effect s l s') (hw : s'.handlers w ≠ .idle) : s'.pool.routine w = .waiting := by
  have hkeep : s.handlers w ≠ .idle → s'.pool.routine w = .waiting := fun hh =>
    he.routine hc hh (h.busy w hh)
  have hrelay := he.relay hs h w
  generalize s'.handlers w = hd at hw hrelay
  cases hrelay with
  | same => exact hkeep hw
  | idle => exact absurd rfl hw
  | pausing hl => exact hkeep (by rw [hl]; nofun)
  | mark hl => exact hkeep (by rw [hl]; nofun)
  | clear hl => exact hkeep (by rw [hl]; nofun)
  | _ hl hr => exact hr

theorem Routed.parsed_step (hc : s.Crewed loc) (hs : s.Sound) (hst : s.Staged)
    (h : s.Routed loc) (he : Effect s l s') {n : Nat} {cnt : Int}
    (hw : s'.handlers w = .parsed n cnt) :
    ∃ c, (s'.peers c).thr = some w ∧ (s'.peers c).rio = true := by
  have hrelay := he.relay hs h w
  rw [hw] at hrelay
  generalize hhd : Handler.parsed n cnt = hd at hrelay
  cases hrelay with
  | same =>
    obtain ⟨c, hthr, hio⟩ := h.parsed w n cnt hhd.symm
    have hkeep := (he.change hc c).watchers hs h hthr (by rw [← hhd]; nofun)
      ⟨by rw [← hhd]; nofun, by rw [← hhd]; nofun⟩
    exact ⟨c, he.thr hc hst hthr, hkeep.1.trans hio⟩
  | parsed hl hr hp hio => exact ⟨_, hp, hio⟩
  | _ => cases hhd

theorem Routed.closing_step (hc : s.Crewed loc) (hs : s.Sound) (hst : s.Staged)
    (h : s.Routed loc) (he : Effect s l s')
    (hw : s'.handlers w = .hangup c ∨ s'.handlers w = .mark c) : (s'.peers c).thr = some w := by
  have hrelay := he.relay hs h w
  generalize s'.handlers w = hd at hw hrelay
  cases hrelay with
  | same => exact he.thr hc hst (h.closing w c hw)
  | closed hl hr hp =>
    simp only [Handler.hangup.injEq, reduceCtorEq, or_false] at hw
    exact he.thr hc hst (hw ▸ hp)
  | mark hp =>
    simp only [Handler.mark.injEq, reduceCtorEq, false_or] at hw
    exact he.thr hc hst (h.closing w c (.inl (hw ▸ hp)))
  | _ => rcases hw with hw | hw <;> cases hw

theorem Routed.marked_step (hc : s.Crewed loc) (hs : s.Sound) (h : s.Routed loc)
    (he : Effect s l s') (hw : s'.handlers w = .mark c) :
    (s'.peers c).rio = false ∧ (s'.peers c).wio = false := by
  have hrelay := he.relay hs h w
  rw [hw] at hrelay
  generalize hhd : Handler.mark c = hd at hrelay
  cases hrelay with
  | same =>
    have hkeep := (he.change hc c).watchers hs h (h.closing w c (.inr hhd.symm))
      (by rw [← hhd]; nofun) ⟨by rw [← hhd]; nofun, by rw [← hhd]; nofun⟩
    rw [hkeep.1, hkeep.2]
    exact h.marked w c hhd.symm
  | mark hp hr hwio =>
    obtain rfl := Handler.mark.inj hhd
    exact ⟨hr, hwio⟩
  | _ => cases hhd

theorem Routed.accepting_step (hs : s.Sound) (h : s.Routed loc) (he : Effect s l s')
    {u : Setup β} {b : β} (hu : s'.setups c = some u) (ho : u.origin = some (w, b))
    (hn : u.stages ≠ []) : s'.handlers w = .accepting c := by
  rcases he.setups hu with ⟨v, hv, hvo, hvn⟩ | hnew
  · have hw := h.accepting c v w b hv (hvo.trans ho) (hvn hn)
    have hrelay := he.relay hs h w
    generalize s'.handlers w = hd at hrelay ⊢
    cases hrelay with
    | same => exact hw
    | idle hm ha => exact absurd (ha c u hw hu) hn
    | _ hl =>
      rw [hw] at hl
      cases hl
  · exact (hnew w b ho).1

theorem Routed.pausing_step (hs : s.Sound) (h : s.Routed loc) (he : Effect s l s') {b : Bulk κ}
    (hb : s'.bulk = some b) (ho : b.holder = some w) : s'.handlers w = .pausing := by
  have hkeep : s.handlers w = .pausing → s'.handlers w = .pausing := by
    intro hw
    have hrelay := he.relay hs h w
    generalize s'.handlers w = hd at hrelay ⊢
    cases hrelay with
    | same => exact hw
    | idle hm ha hp =>
      rw [hp hw] at hb
      cases hb
    | pausing => rfl
    | _ hl =>
      rw [hw] at hl
      cases hl
  cases he.pass with
  | same hb' hr ht => exact hkeep (h.pausing b w (hb' ▸ hb) ho)
  | start hb' hr ht hh =>
    rw [hb', Option.some.injEq] at hb
    exact hh w (hb ▸ ho)
  | @phase b' p hb' hb'' hr ht =>
    rw [hb'', Option.some.injEq] at hb
    subst hb
    exact hkeep (h.pausing b' w hb' ho)
  | free hb' ht =>
    rw [hb'] at hb
    cases hb

theorem routed_step (hc : s.Crewed loc) (hc' : s'.Crewed loc') (hs : s.Sound) (hst : s.Staged)
    (h : s.Routed loc) (he : Effect s l s') : s'.Routed loc' where
  home _ _ _ hj hp := (h.home_step hc hc' hs hst he hj hp).imp (he.thr hc hst) he.conns
  sending t c ht := he.conns ((he.sends ht).elim (h.sending t c) id)
  aimed _ := h.aimed_step he
  within _ hm := he.conns (h.within_step he hm)
  busy _ := h.busy_step hc hs he
  parsed _ _ _ := h.parsed_step hc hs hst he
  closing _ _ := h.closing_step hc hs hst he
  marked _ _ := h.marked_step hc hs he
  accepting _ _ _ _ := h.accepting_step hs he
  pausing _ _ := h.pausing_step hs he
  stopped w hw := he.joined ((he.stops hc hw).elim (h.stopped w) (hs.owns _))

structure Regular (s : Workers κ β τ) : Prop where
  crewed : ∃ loc, s.Crewed loc
  sound : s.Sound
  staged : s.Staged
  routed : ∀ loc, s.Crewed loc → s.Routed loc

omit [DecidableEq τ] in
theorem regular_init (rcvhwm : Int) : (init rcvhwm : Workers κ β τ).Regular where
  crewed := ⟨_, crewed_init rcvhwm⟩
  sound := sound_init rcvhwm
  staged := staged_init rcvhwm
  routed _ hc := (crewed_init rcvhwm).filed.unique hc.filed ▸ routed_init rcvhwm

theorem Effect.regular (h : s.Regular) (he : Effect s l s') : s'.Regular := by
  obtain ⟨loc, hc⟩ := h.crewed
  exact ⟨crewed_step hc he, sound_step hc h.sound he, staged_step hc h.sound h.staged he,
    fun loc' hc' => routed_step hc hc' h.sound h.staged (h.routed loc hc) he⟩

theorem regular_step (h : s.Regular) (hs : s.step l = some s') : s'.Regular :=
  (effect_of_step hs).2.regular h

theorem Effect.started (h : s.Regular) (he : Effect s l s') {c : κ} (hs : (s.peers c).started = true) :
    (s'.peers c).started = true := by
  obtain ⟨loc, hc⟩ := h.crewed
  have hchange := he.change hc c
  generalize s'.peers c = p at hchange ⊢
  cases hchange with
  | assign hassign => cases hassign <;> exact hs
  | thrConn => rfl
  | _ => exact hs

end Workers

end Fsock
