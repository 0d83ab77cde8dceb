import Fsock.Core.JobQueue
import Fsock.Core.ReadSwitch

namespace Fsock

open Transition

namespace Workers

variable {κ β τ : Type} [DecidableEq κ] [DecidableEq β]

structure Quiet (s : Workers κ β τ) : Prop where
  free : s.bulk = none
  paused : s.reading = stopOp
  executed : ∀ c, ¬ s.pool.active (.stopRead c)

def Heeds (s : Workers κ β τ) (l : WorkersLabel κ β τ) : Prop :=
  ∀ w c, l = .run w → s.pool.routine w = .task (.thrConn c) →
    s.reading ≠ stopOp ∨ s.pool.isinqueue (.stopRead c) = true ∨ c ∈ s.todo

structure Paused (s : Workers κ β τ) : Prop where
  regular : s.Regular
  tracks : s.fault = none → ∀ loc, s.Crewed loc → ∀ c w, (s.peers c).thr = some w →
    (s.pool.routine w).stopping = false → (s.switch loc false c w).Tracks

theorem paused_init (rcvhwm : Int) : (init rcvhwm : Workers κ β τ).Paused :=
  ⟨regular_init rcvhwm, fun _ _ _ _ _ => nofun⟩

variable {s s' : Workers κ β τ} {l : WorkersLabel κ β τ} {loc loc' : Place Thr → List (Job κ β)}
  {c : κ} {w : Thr}

theorem Paused.silent (h : s.Paused) (hq : s.Quiet) (hf : s.fault = none) {n : Nat} {cnt : Int} :
    s.handlers w ≠ .parsed n cnt := by
  intro hw
  obtain ⟨loc, hc⟩ := h.regular.crewed
  have hr := h.regular.routed loc hc
  obtain ⟨c, ht, hio⟩ := hr.parsed w n cnt hw
  have hwait := hr.busy w (by rw [hw]; nofun)
  have hlands := (h.tracks hf loc hc c w ht (by rw [hwait]; rfl)).lands
    (by simp [switch, todo, hq.free])
  have hon : s.on = false := by simp [on, hq.paused]
  have hnone : ∀ b ∈ (s.switch loc false c w).pending, b = false → False := by
    rintro b hb rfl
    refine hq.executed c (hc.filed.active_iff.mpr ⟨w, ?_⟩)
    rw [Switch.pending, Switch.shared_of_uncut (by rw [switch, cut, hq.free]), switch, hwait] at hb
    simp only [List.mem_append, Job.mem_reads] at hb
    rcases hb with (hb | hb) | hb
    · cases hb
    · exact .inl hb
    · exact .inr (.inl hb)
  have hnil : (s.switch loc false c w).pending = [] := by
    rw [← List.getLast?_eq_none_iff]
    cases hl : (s.switch loc false c w).pending.getLast? with
    | none => rfl
    | some b =>
      exact (hnone b (List.mem_of_getLast? hl) ((hlands.last b hl).trans hon)).elim
  have hoff : (s.peers c).rio = false := hlands.closed hnil hon
  rw [hio] at hoff
  cases hoff

variable [DecidableEq τ]

theorem Effect.unread (hc : s.Crewed loc) (hc' : s'.Crewed loc')
    (he : Effect s l s') {b : Bool} (hn : s.bulk = none ∨ (s.peers c).thr = none)
    (ha : s'.pool.active (.read b c)) : s.pool.active (.read b c) := by
  obtain ⟨w, hw⟩ := hc'.filed.active_iff.mp ha
  rcases he.holds hc hc' hw with hw | ⟨k, hi⟩ | ⟨x, d, todo, -, hb, hp, ht, hj⟩
  · exact hc.filed.active_iff.mpr ⟨w, hw⟩
  · cases b <;> cases hi
  · have hd := congrArg Job.peer hj
    rw [Job.peer_read, Job.peer_read, Option.some.injEq] at hd
    subst hd
    rcases hn with hn | hn
    · rw [hb] at hn
      cases hn
    · rw [ht] at hn
      cases hn

theorem paused_step (h : s.Paused) (hh : s.Heeds l) (hs : s.step l = some s') : s'.Paused := by
  obtain ⟨hf, he⟩ := effect_of_step hs
  refine ⟨he.regular h.regular, fun hf' loc' hc' c w hw hgo => ?_⟩
  obtain ⟨loc, hc⟩ := h.regular.crewed
  have hr := h.regular.routed loc hc
  cases hthr : (s.peers c).thr with
  | some v =>
    have hvw := he.thr hc h.regular.staged hthr
    rw [hw, Option.some.injEq] at hvw
    subst hvw
    refine tracks_step hc hc' h.regular.staged hr he hthr hgo nofun (.inl hf') (fun hl hrun => ?_)
      (h.tracks hf loc hc c w hthr (he.stopping hc hgo))
    exact (hh w c hl hrun).imp_left fun hne => decide_eq_true hne
  | none =>
    have hout : ∀ j v, j.peer = some c → ¬ s.pool.holds loc j v := by
      intro j v hj hv
      have hsome := (hr.home j v c hv hj).1
      rw [hthr] at hsome
      cases hsome
    have hidle : ∀ b, ¬ s'.pool.active (.read b c) := by
      intro b ha
      obtain ⟨v, hv⟩ := hc.filed.active_iff.mp (he.unread hc hc' (.inr hthr) ha)
      exact hout _ v (Job.peer_read b c) hv
    obtain ⟨hrun, hbatch, hjobs⟩ := reads_idle hc' hidle w
    have hoff : (s.peers c).rio = false := by
      rw [← Bool.not_eq_true]
      intro hio
      obtain ⟨v, hv⟩ := h.regular.staged.home (h.regular.staged.watched c (.inl hio))
      rw [hthr] at hv
      cases hv
    refine .blank hbatch hjobs hrun ?_ rfl
    change (s'.peers c).rio = false
    have hchange := he.change hc c
    generalize s'.peers c = p at hchange ⊢
    cases hchange with
    | assign hassign => cases hassign <;> exact hoff
    | hangup => rfl
    | stopRead => rfl
    | startRead hrun => exact absurd (.inr (.inr hrun)) (hout _ _ rfl)
    | thrConn hrun => exact absurd (.inr (.inr hrun)) (hout _ _ rfl)
    | _ => exact hoff

theorem quiet_step (h : s.Paused) (hq : s.Quiet) (hs : s.step l = some s')
    (hp : s'.reading = stopOp) : s'.Quiet := by
  obtain ⟨hf, he⟩ := effect_of_step hs
  obtain ⟨loc, hc⟩ := h.regular.crewed
  obtain ⟨loc', hc'⟩ := (he.regular h.regular).crewed
  refine ⟨?_, hp, fun c ha => hq.executed c (he.unread (b := false) hc hc' (.inl hq.free) ha)⟩
  cases he.pass with
  | same hb => exact hb.trans hq.free
  | start hb hr ht hh hw =>
    rcases hw with hon | ⟨w, n, cnt, hw⟩
    · rw [hr, on, hp] at hon
      simp at hon
    · exact absurd hw (h.silent hq hf)
  | phase hb =>
    rw [hq.free] at hb
    cases hb
  | free hb => exact hb

theorem Paused.undelivered (h : s.Paused) (hq : s.Quiet) (hs : s.step l = some s') (w : Thr) :
    l ≠ .deliver w := by
  rintro rfl
  obtain ⟨hf, -⟩ := effect_of_step hs
  have hd : s.deliver w = some s' := by simpa [step, hf] using hs
  simp only [deliver] at hd
  split at hd
  case h_2 => cases hd
  case h_1 n cnt hw hb => exact h.silent hq hf hw

theorem pause_holds {s₀ : Workers κ β τ} (rcvhwm : Int)
    {tr₀ tr : List (Workers κ β τ × WorkersLabel κ β τ)} (hr₀ : Run step (init rcvhwm) tr₀ s₀)
    (hh₀ : Steps Heeds tr₀) (hq : s₀.Quiet) (hr : Run step s₀ tr s) (hh : Steps Heeds tr)
    (hp : Steps (fun s _ => s.reading = stopOp) tr) :
    Steps (fun _ l => ∀ w, l ≠ .deliver w) tr := by
  have h₀ : s₀.Paused := hr₀.invariant (paused_init rcvhwm)
    (fun _ _ _ h hc hs => paused_step h hc hs) hh₀
  have hstep : ∀ (s : Workers κ β τ) l s', (s.Paused ∧ (s.reading = stopOp → s.Quiet)) →
      (s.Heeds l ∧ s.reading = stopOp) → s.step l = some s' →
      s'.Paused ∧ (s'.reading = stopOp → s'.Quiet) := fun _ _ _ h hc hs =>
    ⟨paused_step h.1 hc.1 hs, quiet_step h.1 (h.2 hc.2) hs⟩
  have hsteps : Steps (fun s l => s.reading = stopOp → ∀ w, l ≠ .deliver w) tr :=
    hr.steps (fun _ _ _ h hs hread w => h.1.undelivered (h.2 hread) hs w) ⟨h₀, fun _ => hq⟩ hstep
      (steps_and hh hp)
  exact fun x hx => hsteps x hx (hp x hx)

instance [Fintype κ] (s : Workers κ β τ) (l : WorkersLabel κ β τ) : Decidable (s.Heeds l) :=
  inferInstanceAs (Decidable (∀ w c, l = .run w → s.pool.routine w = .task (.thrConn c) →
    s.reading ≠ stopOp ∨ s.pool.isinqueue (.stopRead c) = true ∨ c ∈ s.todo))

def halted : List (WorkersLabel Bool Unit Unit) :=
  [established false 0, [.read 0 false (.frames 3 3), .deliver 0], List.replicate 9 .bulk,
    work 0].flatten

def newcomer : List (WorkersLabel Bool Unit Unit) :=
  [established true 1, [.read 1 true (.frames 1 1), .deliver 1]].flatten

def silenced : List (WorkersLabel Bool Unit Unit) :=
  [established false 0, established true 1, [.read 0 false (.frames 3 3), .deliver 0],
    List.replicate 11 .bulk, work 0, work 1].flatten

-- the other connection goes on writing, on a worker whose read watcher is stopped
def bustling : List (WorkersLabel Bool Unit Unit) :=
  [[.check () true, .insert ()], work 1, [.write 1 true, .written 1 true, .clear 1],
    [.get, .get, .get]].flatten

theorem pause_holds_halted : Steps (fun _ l => ∀ w, l ≠ .deliver w)
      (trace step (final step (init 1) silenced) bustling) ∧
    (final step (final step (init 1) silenced) bustling).reading = 0 :=
  ⟨pause_holds 1 (run_final (k := silenced) (by decide +kernel)) (by decide +kernel)
    ⟨by decide +kernel, by decide +kernel, by decide +kernel⟩ (run_final (by decide +kernel))
    (by decide +kernel) (by decide +kernel), by decide +kernel⟩

theorem newcomer_appends : ∃ s₀ s : Workers Bool Unit Unit, ∃ tr₀ tr,
    Run step (init 1) tr₀ s₀ ∧ s₀.Quiet ∧ Run step s₀ tr s ∧
    Steps (fun s _ => s.reading = stopOp) tr ∧ s₀.events = 3 ∧ s.events = 4 :=
  ⟨_, _, _, _, run_final (k := halted) (by decide +kernel),
    ⟨by decide +kernel, by decide +kernel, by decide +kernel⟩,
    run_final (k := newcomer) (by decide +kernel), by decide +kernel, by decide +kernel,
    by decide +kernel⟩

end Workers

end Fsock
