import Fsock.Core.JobQueue
import Fsock.Core.ReadSwitch

namespace Fsock

open Transition

namespace Workers

variable {κ β τ : Type}

def alive (s : Workers κ β τ) (c : κ) : Prop :=
  (s.peers c).zombie = false ∧ ∀ w, s.handlers w ≠ .mark c

variable [DecidableEq κ] [DecidableEq β]

instance (s : Workers κ β τ) (c : κ) : Decidable (s.alive c) :=
  inferInstanceAs (Decidable (_ ∧ _))

def pendingReads (s : Workers κ β τ) (loc : Place Thr → List (Job κ β)) (c : κ) (w : Thr) :
    List Bool :=
  Job.reads c (s.pool.routine w).item ++ Job.reads c (loc (.batch w)) ++
    Job.reads c (loc (.jobs w))

def Settled (s : Workers κ β τ) (loc : Place Thr → List (Job κ β)) (c : κ) (w : Thr) : Prop :=
  match (s.pendingReads loc c w).getLast? with
  | some start => start = true ↔ s.reading ≠ stopOp
  | none => (s.peers c).rio = true ↔ s.reading ≠ stopOp

structure Established (S : Set κ) (s : Workers κ β τ) : Prop where
  started : ∀ c ∈ S, (s.peers c).started = true
  quiet : ∀ c ∈ S, ∀ b, ¬ s.pool.active (.read b c)
  agreed : ∀ c ∈ S, ((s.peers c).rio = true ↔ s.reading ≠ stopOp)

def Converged (S : Set κ) (s : Workers κ β τ) : Prop :=
  s.bulk = none → ∃ loc, Queue.Family s.pool.next s.pool.queue loc ∧ ∀ c ∈ S, s.alive c →
    ∃ w, (s.peers c).thr = some w ∧ (s.joined w = false → s.Settled loc c w)

structure Converging (S : Set κ) (s : Workers κ β τ) : Prop where
  regular : s.Regular
  started : ∀ c ∈ S, (s.peers c).started = true
  tracks : ∀ loc, s.Crewed loc → ∀ c ∈ S, ∀ w, (s.peers c).thr = some w →
    (s.pool.routine w).stopping = false → (s.switch loc (decide (s.alive c)) c w).Tracks

variable {s s' : Workers κ β τ} {l : WorkersLabel κ β τ} {loc : Place Thr → List (Job κ β)}
  {S : Set κ} {c : κ} {w : Thr}

theorem Established.converging (h : s.Regular) (he : s.Established S) : s.Converging S := by
  refine ⟨h, he.started, fun loc hc c hm w hw hgo => ?_⟩
  have hq := he.quiet c hm
  obtain ⟨hrun, hbatch, hjobs⟩ := reads_idle hc hq w
  have hon : (s.peers c).rio = s.on := by
    rw [on, Bool.eq_iff_iff, he.agreed c hm, decide_eq_true_iff]
  exact .agree hrun hbatch hjobs hon

theorem Converging.converged (h : s.Converging S) : s.Converged S := by
  intro hb
  obtain ⟨loc, hc⟩ := h.regular.crewed
  refine ⟨loc, hc.filed.family, fun c hm ha => ?_⟩
  obtain ⟨w, hw⟩ := h.regular.staged.home (h.started c hm)
  refine ⟨w, hw, fun hj => ?_⟩
  have hgo : (s.pool.routine w).stopping = false := by
    rw [← Bool.not_eq_true]
    intro hs
    rw [(h.regular.routed loc hc).stopped w hs] at hj
    cases hj
  have hvisit : (s.switch loc (decide (s.alive c)) c w).visit = false := by simp [switch, todo, hb]
  have hpending : (s.switch loc (decide (s.alive c)) c w).pending = s.pendingReads loc c w := by
    rw [Switch.pending, Switch.shared_of_uncut (by rw [switch, cut, hb])]
    rfl
  have hlands := (h.tracks loc hc c hm w hw hgo).lands hvisit
  have hon : ∀ b, b = s.on ↔ (b = true ↔ s.reading ≠ stopOp) := fun b => by
    rw [Bool.eq_iff_iff, on, decide_eq_true_iff]
  rw [Settled]
  split
  case h_1 start hl => exact (hon start).mp (hlands.last start (hpending ▸ hl))
  case h_2 hl =>
    have hnil := hpending.trans (List.getLast?_eq_none_iff.mp hl)
    refine (hon _).mp ?_
    cases ho : s.on with
    | false => exact hlands.closed hnil ho
    | true => exact hlands.opened hnil (decide_eq_true ha) ho

variable [DecidableEq τ]

theorem Effect.alive (h : s.Regular) (he : Effect s l s') (ha : s'.alive c) : s.alive c := by
  obtain ⟨loc, hc⟩ := h.crewed
  refine ⟨?_, fun w hw => ?_⟩
  · have hz := ha.1
    generalize hp : s'.peers c = p at hz
    have hchange := he.change hc c
    rw [hp] at hchange
    cases hchange with
    | mark => cases hz
    | assign hassign => cases hassign <;> exact hz
    | _ => exact hz
  · have hgone := ha.2 w
    have hrelay := he.relay h.sound (h.routed loc hc) w
    generalize s'.handlers w = hd at hrelay hgone
    cases hrelay with
    | same => exact hgone hw
    | idle hm =>
      have hz := ha.1
      rw [hm c hw] at hz
      cases hz
    | _ hl => cases hw.symm.trans hl

theorem converging_step (h : s.Converging S) (hs : s.step l = some s') : s'.Converging S := by
  obtain ⟨-, he⟩ := effect_of_step hs
  refine ⟨he.regular h.regular, fun c hm => he.started h.regular (h.started c hm),
    fun loc' hc' c hm w hw hgo => ?_⟩
  obtain ⟨loc, hc⟩ := h.regular.crewed
  have hst := h.started c hm
  obtain ⟨v, hv⟩ := h.regular.staged.home hst
  have hvw := he.thr hc h.regular.staged hv
  rw [hw, Option.some.injEq] at hvw
  subst hvw
  have htracks := h.tracks loc hc c hm w hv (he.stopping hc hgo)
  refine tracks_step hc hc' h.regular.staged (h.regular.routed loc hc) he hv hgo
    (fun hf => ⟨hst, (of_decide_eq_true hf).2⟩) (.inr hst) (fun _ hrun => ?_)
    (htracks.weaken fun hf => decide_eq_true (he.alive h.regular (of_decide_eq_true hf)))
  exact absurd (.inr ⟨w, hrun⟩) (h.regular.staged.started c hst).1

theorem read_converges {s₀ : Workers κ β τ} (rcvhwm : Int)
    {tr₀ tr : List (Workers κ β τ × WorkersLabel κ β τ)} (hr₀ : Run step (init rcvhwm) tr₀ s₀)
    (he : s₀.Established S) (hr : Run step s₀ tr s) : Visits (Converged S) tr s := by
  have h₀ : s₀.Regular := hr₀.invariant (C := fun _ _ => True) (regular_init rcvhwm)
    (fun _ _ _ h _ hs => regular_step h hs) fun _ _ => trivial
  exact visits_mono (fun _ => Converging.converged) (hr.visits (C := fun _ _ => True)
    (he.converging h₀) (fun _ _ _ h _ hs => converging_step h hs) fun _ _ => trivial)

def pair : List (WorkersLabel Bool Unit Unit) :=
  [established false 0, established true 1].flatten

def cycled : List (WorkersLabel Bool Unit Unit) :=
  [[.read 0 false (.frames 2 2), .deliver 0], List.replicate 11 .bulk, [.copyJobs 1, .get, .get],
    List.replicate 11 .bulk, [.pop 1, .run 1, .pop 1], work 1, work 0].flatten

theorem read_converges_cycled :
    Visits (Converged Set.univ) (trace step (final step (init 1) pair) cycled)
      (final step (final step (init 1) pair) cycled) ∧
    (final step (final step (init 1) pair) cycled).pool.ran 1 =
      [.thrConn true, .stopRead true, .startRead true] := by
  refine ⟨read_converges 1 (run_final (k := pair) (by decide +kernel)) ⟨fun c _ => ?_,
    fun c _ b => ?_, fun c _ => ?_⟩ (run_final (by decide +kernel)), by decide +kernel⟩
  · revert c
    decide +kernel
  · revert c b
    decide +kernel
  · revert c
    decide +kernel

end Workers

end Fsock
