import Fsock.Core.WorkersSound

namespace Fsock

open Transition

namespace Pool

variable {ι ω : Type} [DecidableEq ι] [DecidableEq ω] {p : Pool ι ω} {w : ω}

theorem pop_isSome (stop : ι) (h : p.routine w = .popping ∨ p.routine w = .flushing) :
    (p.pop w stop).isSome = true := by
  simp only [pop]
  split <;> rcases h with h | h <;> rw [h] <;> rfl

omit [DecidableEq ι] in
theorem done_isSome {j : ι} (h : p.routine w = .task j) : (p.done w).isSome = true := by
  rw [done, h]
  rfl

end Pool

namespace Workers

variable {κ β τ : Type} [DecidableEq κ] [DecidableEq β] [DecidableEq τ]

structure Served (s : Workers κ β τ) (loc : Place Thr → List (Job κ β)) (w : Thr) : Prop where
  order : (s.pool.routine w).stopping = false → s.pool.kept w =
    s.pool.ran w ++ (s.pool.routine w).item ++ (loc (.batch w) ++ loc (.jobs w))
  rested : s.pool.routine w = .waiting → loc (.batch w) = []
  signalled : loc (.jobs w) ≠ [] → s.pool.sent w = true ∨ s.signals w
  popping : s.fault = none → s.pool.routine w = .popping → (s.step (.pop w)).isSome = true
  running : ∀ j, s.fault = none → s.pool.routine w = .task j → (s.step (.run w)).isSome = true

structure Queued (s : Workers κ β τ) : Prop where
  unasserted : s.fault ≠ some .assertion
  removable : ∀ w j, (s.pool.remove w j).isSome = true
  served : ∃ loc, Queue.Family s.pool.next s.pool.queue loc ∧ ∀ w, s.Served loc w

def StopsOnce (s : Workers κ β τ) (l : WorkersLabel κ β τ) : Prop :=
  ∀ w, l = .join w → s.pool.isinqueue (.stop w) = false

instance (s : Workers κ β τ) (l : WorkersLabel κ β τ) : Decidable (s.StopsOnce l) :=
  inferInstanceAs (Decidable (∀ w, l = .join w → s.pool.isinqueue (.stop w) = false))

variable {s s' : Workers κ β τ} {l : WorkersLabel κ β τ} {loc : Place Thr → List (Job κ β)}

theorem Issue.unqueued {thr : Option Thr} {j : Job κ β} {k : Workers κ β τ → Workers κ β τ}
    (h : s.Sound) (hl : s.StopsOnce l) (hi : Issue s l thr j k) : s.pool.isinqueue j = false := by
  by_cases hj : ∃ w, l = .join w
  · obtain ⟨w, rfl⟩ := hj
    cases hi
    exact hl w rfl
  · rw [← Bool.not_eq_true]
    exact fun hq => hi.inactive h (not_exists.mp hj) (.inl hq)

theorem Effect.unasserted (h : s.Sound) (hl : s.StopsOnce l) (hf : s.fault = none)
    (he : Effect s l s') : s'.fault ≠ some .assertion := by
  have hs : s.fault ≠ some .assertion := by
    rw [hf]
    nofun
  cases he with
  | @refuse l w j k hi hp =>
    have hsome := Pool.schedule_isSome (hi.unqueued h hl) w
    rw [hp] at hsome
    cases hsome
  | issue hi =>
    rw [(hi.frame _).2.2]
    exact hs
  | free =>
    rw [fault_release]
    exact hs
  | stray => nofun
  | null => nofun
  | run hp hr => cases hr <;> first | exact hs | nofun
  | _ => exact hs

theorem Crewed.served (h : s.Crewed loc) (w : Thr) : s.Served loc w where
  order hw := by
    obtain ⟨past, hk, hp⟩ := h.filed.owed w
    rw [hk, hp hw]
  rested := h.filed.idle w
  signalled := h.alert w
  popping hf hw := by
    obtain ⟨pool, hp⟩ := Option.isSome_iff_exists.mp
      (Pool.pop_isSome (.stop w : Job κ β) (.inl hw))
    simp [step, hf, pop, hp]
  running j hf hw := by
    obtain ⟨r, hr⟩ := Option.isSome_iff_exists.mp (Pool.done_isSome hw)
    simp [step, hf, run, hr]

structure Working (s : Workers κ β τ) : Prop where
  crewed : ∃ loc, s.Crewed loc
  sound : s.Sound
  unasserted : s.fault ≠ some .assertion

omit [DecidableEq τ] in
theorem working_init (rcvhwm : Int) : (init rcvhwm : Workers κ β τ).Working :=
  ⟨⟨_, crewed_init rcvhwm⟩, sound_init rcvhwm, nofun⟩

theorem working_step (h : s.Working) (hl : s.StopsOnce l) (hs : s.step l = some s') :
    s'.Working := by
  obtain ⟨hf, he⟩ := effect_of_step hs
  obtain ⟨loc, hc⟩ := h.crewed
  exact ⟨crewed_step hc he, sound_step hc h.sound he, he.unasserted h.sound hl hf⟩

theorem Working.queued (h : s.Working) : s.Queued := by
  obtain ⟨loc, hc⟩ := h.crewed
  exact ⟨h.unasserted, hc.filed.remove_isSome, loc, hc.filed.family, hc.served⟩

theorem jobs_in_order (rcvhwm : Int) {tr : List (Workers κ β τ × WorkersLabel κ β τ)}
    (hr : Run step (init rcvhwm) tr s) (hc : Steps StopsOnce tr) : Visits Queued tr s :=
  visits_mono (fun _ => Working.queued)
    (hr.visits (working_init rcvhwm) (fun _ _ _ => working_step) hc)

def work (w : Thr) : List (WorkersLabel κ β τ) := [.copyJobs w, .pop w, .run w, .pop w]

def established (c : κ) (w : Thr) : List (WorkersLabel κ β τ) :=
  .connect c w 5 :: (List.replicate 5 (.advance c)).append (work w)

def toggled : List (WorkersLabel Unit Unit Unit) :=
  [established () 0, [.read 0 () (.frames 2 2), .deliver 0], List.replicate 9 .bulk, [.get, .get],
    List.replicate 9 .bulk, work 0, [.check () (), .insert ()], work 0,
    [.join 0, .copyJobs 0, .pop 0, .pop 0]].flatten

theorem jobs_in_order_toggled : Visits Queued (trace step (init 1) toggled)
      (final step (init 1) toggled) ∧
    (final step (init 1) toggled).pool.ran 0 = [.thrConn (), .startRead (), .startWrite ()] :=
  ⟨jobs_in_order 1 (run_final (by decide +kernel)) (by decide +kernel), by decide +kernel⟩

-- the global runtime terminated by two closes before worker 0 drains its first stop job
def joinedTwice : List (WorkersLabel Unit Unit Unit) := [.join 0, .join 0]

theorem stop_job_asserts : ∃ (s : Workers Unit Unit Unit) (tr : List _),
    Run step (init 1) tr s ∧ s.fault = some .assertion ∧ ¬ Visits Queued tr s := by
  refine ⟨_, _, run_final (k := joinedTwice) (by decide +kernel), by decide +kernel, fun h => ?_⟩
  exact h.2.unasserted (by decide +kernel)

end Workers

end Fsock
