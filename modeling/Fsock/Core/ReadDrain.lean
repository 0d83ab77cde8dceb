import Fsock.Core.Attached
import Fsock.Core.ReadConverge
import Fsock.Core.ReadGauge
import Fsock.Core.WorkersEffort

namespace Fsock

open Transition

namespace Workers

variable {κ β τ : Type}

theorem Serves.counts {s : Workers κ β τ} {l : WorkersLabel κ β τ} (h : s.Serves l) :
    l.counts = true := by
  cases l with
  | read => exact h.elim
  | _ => rfl

theorem Serves.joinless {s : Workers κ β τ} {l : WorkersLabel κ β τ} (h : s.Serves l) (w : Thr) :
    l ≠ .join w := by
  rintro rfl
  exact h

variable [DecidableEq κ] [DecidableEq β] {s s' : Workers κ β τ} {l : WorkersLabel κ β τ} {c : κ}
  {w : Thr} {S : Set κ}

structure Serving (S : Set κ) (s : Workers κ β τ) : Prop where
  converging : s.Converging S
  gauged : s.Gauged
  held : s.Held
  admitting : s.Admitting

structure Rested (S : Set κ) (s : Workers κ β τ) : Prop where
  free : s.bulk = none
  handlers : ∀ w, s.handlers w = .idle
  routines : ∀ w, s.pool.routine w = .waiting
  executed : ∀ j, ¬ s.pool.active j
  built : ∀ c u, s.setups c = some u → u.stages = []
  sends : ∀ t, s.sends t = none
  taken : s.events = 0 ∧ s.rcvqsz = 0
  reading : s.reading ≠ stopOp
  reads : ∀ c ∈ S, s.alive c → (s.peers c).rio = true

variable [DecidableEq τ]

theorem serving_step (h : s.Serving S) (hl : l.counts = true) (hs : s.step l = some s') :
    s'.Serving S := by
  obtain ⟨-, he⟩ := effect_of_step hs
  exact ⟨converging_step h.converging hs, gauged_step h.gauged hl hs, he.held h.held,
    he.admitting h.converging.regular.sound h.admitting⟩

theorem stuck_bulk (h : s.Regular) (hf : s.fault = none) (hs : Stuck step Serves s) :
    s.bulk = none := by
  obtain ⟨loc, hc⟩ := h.crewed
  have hnone := hs .bulk trivial
  simp only [step, hf, Option.isSome_none, Bool.false_eq_true, if_false, bulkSchedule] at hnone
  split at hnone
  case h_1 hb => exact hb
  case h_2 b hb =>
    split at hnone
    case h_1 | h_2 | h_5 | h_6 => cases hnone
    case h_3 =>
      split at hnone
      case isTrue => cases hnone
      case isFalse =>
        split at hnone
        case h_1 => cases hnone
        case h_2 => split at hnone <;> cases hnone
    case h_4 c todo hp =>
      split at hnone
      case isFalse => cases hnone
      case isTrue =>
        split at hnone
        case h_1 => cases hnone
        case h_2 w ht =>
          rw [Option.map_eq_none_iff] at hnone
          have hsome := hc.filed.remove_isSome w (.read (!b.start) c)
          rw [hnone] at hsome
          cases hsome

omit [DecidableEq τ] in
theorem stuck_schedule {thr : Option Thr} {j : Job κ β} {k : Workers κ β τ → Workers κ β τ}
    (hb : s.bulk = none) : s.schedule thr j k ≠ none := by
  have hk : s.locked = false := by rw [locked, hb]
  simp only [schedule, hk, Bool.false_eq_true, if_false]
  split
  · simp
  · split <;> simp

theorem stuck_setup (h : s.Sound) (hf : s.fault = none) (hb : s.bulk = none)
    (hs : Stuck step Serves s) {u : Setup β} (hu : s.setups c = some u) : u.stages = [] := by
  have hnone := hs (.advance c) trivial
  simp only [step, hf, Option.isSome_none, Bool.false_eq_true, if_false, advance, hu] at hnone
  have hplan := h.planned c u hu
  cases hst : u.stages with
  | nil => rfl
  | cons stage stages =>
    simp only [hst] at hnone
    rw [hst] at hplan
    cases stage with
    | attach =>
      obtain ⟨⟨v, b⟩, ho⟩ := Option.isSome_iff_exists.mp (Setup.plan_attach hplan)
      simp [stage, ho] at hnone
    | publish => simp [stage, hb] at hnone
    | thr | fd | idx => cases hnone
    | start =>
      simp only [Workers.stage] at hnone
      exact absurd hnone (stuck_schedule hb)

theorem stuck_handler (h : s.Serving S) (hf : s.fault = none) (hb : s.bulk = none)
    (hs : Stuck step Serves s) (w : Thr) : s.handlers w = .idle := by
  have hrun : ∀ l : WorkersLabel κ β τ, s.Serves l → s.step l = none := hs
  simp only [step, hf, Option.isSome_none, Bool.false_eq_true, if_false] at hrun
  cases hh : s.handlers w with
  | idle => rfl
  | parsed n cnt =>
    have hnone := hrun (.deliver w) trivial
    simp only [deliver, hh, hb] at hnone
    split at hnone <;> cases hnone
  | pausing =>
    obtain ⟨b, hb', -⟩ := h.held w hh
    cases hb.symm.trans hb'
  | hangup c =>
    have hnone := hrun (.hangup w) trivial
    simp [hangup, hh] at hnone
  | mark c =>
    have hnone := hrun (.mark w) trivial
    simp [mark, hh] at hnone
  | writing c =>
    have hnone := hrun (.written w true) trivial
    simp [written, hh] at hnone
  | clear c =>
    have hnone := hrun (.clear w) trivial
    simp [clear, hh] at hnone
  | accepting c =>
    obtain ⟨u, hu, -, hn⟩ := h.admitting w c hh
    exact absurd (stuck_setup h.converging.regular.sound hf hb hs hu) hn

theorem stuck_routine (h : s.Regular) (hj : s.joined w = false) (hf : s.fault = none)
    (hs : Stuck step Serves s) : s.pool.routine w = .waiting := by
  obtain ⟨loc, hc⟩ := h.crewed
  have hgo := (h.routed loc hc).going hj
  have hserved := hc.served w
  cases hr : s.pool.routine w with
  | waiting => rfl
  | popping =>
    have hsome := hserved.popping hf hr
    rw [hs (.pop w) trivial] at hsome
    cases hsome
  | task j =>
    have hsome := hserved.running j hf hr
    rw [hs (.run w) trivial] at hsome
    cases hsome
  | flushing | exited =>
    rw [hr] at hgo
    cases hgo

theorem stuck_jobs {loc : Place Thr → List (Job κ β)} (hc : s.Crewed loc) (hf : s.fault = none)
    (hb : s.bulk = none) (hh : s.handlers w = .idle) (hr : s.pool.routine w = .waiting)
    (hs : Stuck step Serves s) : loc (.jobs w) = [] := by
  by_contra hne
  have hk : s.locked = false := by rw [locked, hb]
  rcases hc.alert w hne with hsent | ⟨b, hb', -⟩
  · have hnone := hs (.copyJobs w) hsent
    simp [step, hf, copyJobs, hh, hk, Pool.copyJobs, hr] at hnone
  · cases hb.symm.trans hb'

theorem Serving.rested (h : s.Serving S) (hj : ∀ w, s.joined w = false) (hf : s.fault = none)
    (hs : Stuck step Serves s) : s.Rested S := by
  have hregular := h.converging.regular
  have hb := stuck_bulk hregular hf hs
  have hh := stuck_handler h hf hb hs
  have hr := fun w => stuck_routine hregular (hj w) hf hs
  have hrun : ∀ l : WorkersLabel κ β τ, s.Serves l → s.step l = none := hs
  simp only [step, hf, Option.isSome_none, Bool.false_eq_true, if_false] at hrun
  have hzero : s.events = 0 := by
    have hnone := hrun .get trivial
    simp only [get, hb] at hnone
    split at hnone
    case isTrue he => exact he
    case isFalse => split at hnone <;> cases hnone
  have hsends : ∀ t, s.sends t = none := by
    intro t
    by_contra ht
    obtain ⟨c, hc⟩ := Option.ne_none_iff_exists'.mp ht
    have hnone := hrun (.fail t) trivial
    simp [fail, hc] at hnone
  have hqueued : s.rcvqsz = 0 := by rw [h.gauged.counted, hzero, Nat.cast_zero]
  have hreading : s.reading ≠ stopOp := by
    intro hstop
    obtain ⟨hpos, hle⟩ := h.gauged.full hstop
    omega
  have hactive : ∀ j, ¬ s.pool.active j := by
    obtain ⟨loc, hc⟩ := hregular.crewed
    intro j ha
    obtain ⟨w, hm | hm | hm⟩ := hc.filed.active_iff.mp ha
    · rw [hc.filed.idle w (hr w)] at hm
      cases hm
    · rw [stuck_jobs hc hf hb (hh w) (hr w) hs] at hm
      cases hm
    · cases (hr w).symm.trans hm
  refine ⟨hb, hh, hr, hactive, fun c u hu => stuck_setup hregular.sound hf hb hs hu, hsends,
    ⟨hzero, hqueued⟩, hreading, fun c hm ha => ?_⟩
  obtain ⟨loc, hfam, hconv⟩ := h.converging.converged hb
  have hempty : ∀ k, loc k = [] := fun k => List.eq_nil_iff_forall_not_mem.mpr fun j hj =>
    hactive j (.inl (decide_eq_true (hfam.queued_iff.mpr ⟨k, hj⟩)))
  obtain ⟨v, hv, hsettled⟩ := hconv c hm ha
  have hnil : s.pendingReads loc c v = [] := by
    simp [pendingReads, hr, Routine.item, hempty, Job.reads]
  have hset := hsettled (hj v)
  rw [Settled, hnil] at hset
  exact hset.mpr hreading

omit [DecidableEq τ] in
theorem serving_init (rcvhwm : Int) : (init rcvhwm : Workers κ β τ).Serving ∅ where
  converging := ⟨regular_init rcvhwm, by simp, by simp⟩
  gauged := gauged_init rcvhwm
  held := held_init rcvhwm
  admitting := admitting_init rcvhwm

theorem serving_measured [Fintype κ] [Fintype τ] :
    Measured step (fun s : Workers κ β τ => s.Serving S ∧ ∀ w, s.joined w = false) Serves
      effort where
  keeps s l s' h hl hs := by
    refine ⟨serving_step h.1 hl.counts hs, ?_⟩
    exact (effect_of_step hs).2.unjoined hl.joinless h.2
  lowers s l s' h hl hs :=
    effort_step h.1.converging.regular ((effect_of_step hs).2.unjoined hl.joinless h.2) hl hs

theorem flow_resumes [Fintype κ] [Fintype τ] {s₀ : Workers κ β τ} (rcvhwm : Int)
    {tr₀ tr : List (Workers κ β τ × WorkersLabel κ β τ)} (hr₀ : Run step (init rcvhwm) tr₀ s₀)
    (hc₀ : Steps (fun _ l => l.counts = true) tr₀) (he : s₀.Established S) (hr : Run step s₀ tr s)
    (hc : Steps (fun _ l => l.counts = true) tr) (hj : ∀ w, s.joined w = false) :
    ∀ more t, Run step s more t → Steps Serves more →
      more.length ≤ s.effort ∧ (t.fault = none → Stuck step Serves t → t.Rested S) := by
  have h₀ := hr₀.invariant (serving_init rcvhwm) (fun _ _ _ h hl hs => serving_step h hl hs) hc₀
  have hstart : s₀.Serving S :=
    ⟨he.converging h₀.converging.regular, h₀.gauged, h₀.held, h₀.admitting⟩
  have h := hr.invariant hstart (fun _ _ _ h hl hs => serving_step h hl hs) hc
  intro more t ht hmore
  refine ⟨le_of_add_le_left (serving_measured.length_le ⟨h, hj⟩ ht hmore), fun hf hstuck => ?_⟩
  obtain ⟨hend, hjoined⟩ := ht.invariant (I := fun s => s.Serving S ∧ ∀ w, s.joined w = false)
    ⟨h, hj⟩ serving_measured.keeps hmore
  exact hend.rested hjoined hf hstuck

def paused : List (WorkersLabel Bool Unit Unit) :=
  [[.read 0 false (.frames 2 2), .deliver 0], List.replicate 11 .bulk, work 1].flatten

theorem flow_resumes_paused :
    ((final step (final step (init 1) pair) paused).reading = stopOp ∧
      ((final step (final step (init 1) pair) paused).peers true).rio = false) ∧
    ∀ more t, Run step (final step (final step (init 1) pair) paused) more t → Steps Serves more →
      more.length ≤ (final step (final step (init 1) pair) paused).effort ∧
        (t.fault = none → Stuck step Serves t → t.Rested Set.univ) := by
  refine ⟨by decide +kernel, flow_resumes 1 (run_final (k := pair) (by decide +kernel))
    (by decide +kernel) ⟨fun c _ => ?_, fun c _ b => ?_, fun c _ => ?_⟩
    (run_final (k := paused) (by decide +kernel)) (by decide +kernel) (by decide +kernel)⟩
  · revert c
    decide +kernel
  · revert c b
    decide +kernel
  · revert c
    decide +kernel

end Workers

end Fsock
