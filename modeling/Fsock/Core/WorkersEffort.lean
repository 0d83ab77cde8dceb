import Fsock.Lib.Progress
import Fsock.Core.WorkersRouted

namespace Fsock

open Transition

namespace Routine

variable {ι : Type}

def toil : Routine ι → Nat
  | .popping => 1
  | _ => 0

end Routine

namespace Pool

variable {ι ω : Type}

-- a job that is kept still has to be popped and run, a signal to be answered and the drain to end
def toil (p : Pool ι ω) (w : ω) : Nat :=
  2 * ((p.kept w).length - (p.ran w).length) + (p.routine w).toil + if p.sent w then 2 else 0

variable [Fintype ω] {p p' : Pool ι ω} {w : ω} {i stop : ι} {loc : Place ω → List ι}

def load (p : Pool ι ω) : Nat := ∑ w, p.toil w

variable [DecidableEq ω]

theorem load_le {a b : Nat} (ho : ∀ v, v ≠ w → p'.toil v = p.toil v)
    (hw : p'.toil w + a ≤ p.toil w + b) : p'.load + a ≤ p.load + b := by
  have hsum := sum_local ho
  simp only [load]
  omega

theorem load_signal (p : Pool ι ω) (w : ω) : (p.scheduleTaskSignal w).load ≤ p.load + 2 := by
  refine load_le (w := w) (a := 0) (fun v hv => ?_) ?_
  · simp [toil, scheduleTaskSignal, hv]
  · simp only [toil, scheduleTaskSignal, Function.update_self, if_true]
    omega

theorem load_copyJobs (hw : p.sent w = true) (hs : p.copyJobs w = some p') :
    p'.load < p.load := by
  simp only [copyJobs] at hs
  split at hs
  case h_2 => cases hs
  case h_1 hr =>
    cases hs
    refine load_le (w := w) (a := 1) (b := 0) (fun v hv => ?_) ?_
    · simp [toil, hv]
    · simp [toil, hw, hr, Routine.toil]

variable [DecidableEq ι]

theorem load_schedule (hs : p.scheduleTaskUnsafe w i = some p') : p'.load ≤ p.load + 2 := by
  obtain ⟨⟨next, jobs⟩, -, rfl⟩ := Option.map_eq_some_iff.mp hs
  refine load_le (w := w) (a := 0) (fun v hv => ?_) ?_
  · simp [toil, hv]
  · simp only [toil, Function.update_self, List.length_append, List.length_singleton]
    omega

theorem load_remove (hs : p.remove w i = some p') : p'.load ≤ p.load := by
  obtain ⟨⟨next, jobs⟩, -, rfl⟩ := Option.map_eq_some_iff.mp hs
  refine load_le (w := w) (a := 0) (b := 0) (fun v hv => ?_) ?_
  · simp only [toil]
    split <;> simp [hv]
  · have hle : (dropLast i (p.kept w)).length ≤ (p.kept w).length := by
      rw [dropLast, List.length_reverse]
      exact (List.length_erase_le ..).trans_eq List.length_reverse
    simp only [toil]
    split
    · simp only [Function.update_self]
      omega
    · exact le_rfl

theorem Filed.load_pop (h : p.Filed loc) (hs : p.pop w stop = some p')
    (hw : (p'.routine w).stopping = false) : p'.load < p.load := by
  have hkept := pop_kept hs
  obtain ⟨r, rest, hp, -, hr, hsent, hran⟩ := h.pop hs
  rw [hr, Function.update_self] at hw
  refine load_le (w := w) (a := 1) (b := 0) (fun v hv => ?_) ?_
  · simp [toil, hkept, hr, hsent, hran, hv]
  · cases hp with
    | drained hq | task hq => simp [toil, hkept, hr, hsent, hran, hq, Routine.toil]
    | stop | flush | exit => cases hw

omit [DecidableEq ι] in
theorem Filed.load_done (h : p.Filed loc) (hs : p.done w = some (i, p')) : p'.load < p.load := by
  have hkept := done_kept hs
  obtain ⟨hq, -, hr, hsent, hran⟩ := h.done hs
  obtain ⟨past, hk, hpast⟩ := h.owed w
  rw [hq] at hpast
  have hlen : (p.ran w).length < (p.kept w).length := by
    rw [hk, hpast rfl]
    simp only [List.length_append, Routine.item, List.length_singleton]
    omega
  refine load_le (w := w) (a := 1) (b := 0) (fun v hv => ?_) ?_
  · simp [toil, hkept, hr, hsent, hran, hv]
  · simp only [toil, hkept, hr, hsent, hran, hq, Function.update_self, Routine.toil,
      List.length_append, List.length_singleton]
    omega

end Pool

namespace Phase

def walk (n : Nat) : Nat := 4 * n + 15

-- each connection: the two steps of the walk on it, and the pop and the run of a pushed job
def toil {κ : Type} (n : Nat) : Phase κ → Nat
  | .locking => walk n
  | .pushing todo => 4 * todo.length + 14
  | .removing _ todo => 4 * todo.length + 15
  | .signalling todo => 3 * todo.length + 1

end Phase

namespace Handler

def toil {κ : Type} (n : Nat) : Handler κ → Nat
  | .parsed k _ => (k + 1) * (Phase.walk n + 1)
  | .hangup _ => 2
  | .mark _ => 1
  | .writing _ => 2
  | .clear _ => 1
  | _ => 0

theorem toil_parsed {κ : Type} (n k : Nat) (cnt : Int) :
    (parsed k cnt : Handler κ).toil n = k * (Phase.walk n + 1) + (Phase.walk n + 1) :=
  Nat.add_one_mul k _

theorem toil_pausing {κ : Type} (n : Nat) : (pausing : Handler κ).toil n = 0 := rfl

theorem toil_idle {κ : Type} (n : Nat) : (idle : Handler κ).toil n = 0 := rfl

end Handler

namespace Setup

variable {β : Type}

def toil : Option (Setup β) → Nat
  | some u => 5 * u.stages.length
  | none => 0

def unpublished : Option (Setup β) → Nat
  | some u => u.stages.count .publish
  | none => 0

end Setup

namespace Workers

variable {κ β τ : Type}

def Serves (s : Workers κ β τ) : WorkersLabel κ β τ → Prop
  | .bind _ _ => False
  | .connect _ _ _ => False
  | .accept _ _ _ _ _ => False
  | .check _ _ => False
  | .read _ _ _ => False
  | .write _ _ => False
  | .join _ => False
  | .copyJobs w => s.pool.sent w = true
  | _ => True

theorem Routed.going {s : Workers κ β τ} {w : Thr} {loc : Place Thr → List (Job κ β)}
    (h : s.Routed loc) (hj : s.joined w = false) : (s.pool.routine w).stopping = false := by
  rw [← Bool.not_eq_true]
  intro hs
  cases (h.stopped w hs).symm.trans hj

section

variable [Fintype κ] [Fintype τ]

-- every connection a later pause or resume can walk: publishing one leaves the number as it is
def crowd (conns : List κ) (setups : κ → Option (Setup β)) : Nat :=
  conns.length + ∑ c, Setup.unpublished (setups c)

def handling (n : Nat) (handlers : Thr → Handler κ) : Nat := ∑ w, (handlers w).toil n

def founding (setups : κ → Option (Setup β)) : Nat := ∑ c, Setup.toil (setups c)

def sending (sends : τ → Option κ) : Nat := ∑ t, (sends t).elim 0 fun _ => 5

def rolling (n : Nat) (bulk : Option (Bulk κ)) : Nat := bulk.elim 0 fun b => b.phase.toil n

-- taking an event can start a whole resume, and a parsed batch a whole pause and its events
def effort (s : Workers κ β τ) : Nat :=
  let n := crowd s.conns s.setups
  s.pool.load + handling n s.handlers + founding s.setups + sending s.sends + rolling n s.bulk +
    s.events * (Phase.walk n + 1) + s.fault.elim 1 fun _ => 0

variable {s s' : Workers κ β τ} {l : WorkersLabel κ β τ} {b : Bulk κ} {c : κ} {w : Thr}

theorem effort_pool {pool : Pool (Job κ β) Thr} {m n : Nat} (h : pool.load + m ≤ s.pool.load + n) :
    { s with pool := pool }.effort + m ≤ s.effort + n := by
  simp only [effort]
  omega

theorem effort_crash (hf : s.fault = none) (f : Crash) : (s.crash f).effort < s.effort := by
  simp [effort, crash, hf]

theorem effort_handle (s : Workers κ β τ) (w : Thr) (hd : Handler κ) :
    (s.handle w hd).effort + (s.handlers w).toil (crowd s.conns s.setups) =
      s.effort + hd.toil (crowd s.conns s.setups) := by
  have hsum := sum_update (Handler.toil (crowd s.conns s.setups)) s.handlers w hd
  simp only [effort, handle, handling]
  omega

theorem effort_release (s : Workers κ β τ) (o : Option Thr) :
    (s.release o).effort ≤ s.effort := by
  cases o with
  | none => exact le_rfl
  | some w =>
    have hle := effort_handle s w .idle
    rw [Handler.toil_idle] at hle
    exact le_of_add_le_left hle.le

theorem effort_phase (hb : s.bulk = some b) (p : Phase κ) :
    (s.phase b p).effort + b.phase.toil (crowd s.conns s.setups) =
      s.effort + p.toil (crowd s.conns s.setups) := by
  simp only [effort, phase, hb, rolling, Option.elim]
  omega

theorem effort_deliver (hs : s.deliver w = some s') : s'.effort < s.effort := by
  simp only [deliver] at hs
  split at hs
  case h_2 => cases hs
  case h_1 n cnt hp hb =>
    have hevents : (if cnt > 0 then s.events + n else s.events) ≤ s.events + n := by
      split <;> omega
    have hmul := Nat.mul_le_mul_right (Phase.walk (crowd s.conns s.setups) + 1) hevents
    have hsum := fun hd => sum_update (Handler.toil (crowd s.conns s.setups)) s.handlers w hd
    rw [Nat.add_mul] at hmul
    split at hs <;> cases hs
    case isTrue =>
      have hto := hsum .pausing
      rw [hp, Handler.toil_parsed, Handler.toil_pausing] at hto
      simp only [effort, handle, handling, hb, rolling, Option.elim, Phase.toil]
      omega
    case isFalse =>
      have hto := hsum .idle
      rw [hp, Handler.toil_parsed, Handler.toil_idle] at hto
      simp only [effort, handle, handling, hb, rolling, Option.elim]
      omega

theorem effort_get (hs : s.get = some s') : s'.effort < s.effort := by
  simp only [get] at hs
  split at hs
  case h_2 => cases hs
  case h_1 hb =>
    split at hs
    case isTrue => cases hs
    case isFalse he =>
      have hmul : s.events * (Phase.walk (crowd s.conns s.setups) + 1) =
          (s.events - 1) * (Phase.walk (crowd s.conns s.setups) + 1) +
            (Phase.walk (crowd s.conns s.setups) + 1) := by
        rw [← Nat.succ_mul, Nat.succ_eq_add_one, Nat.sub_add_cancel (Nat.pos_of_ne_zero he)]
      split at hs <;> cases hs
      case isTrue =>
        simp only [effort, hb, rolling, Option.elim, Phase.toil]
        omega
      case isFalse =>
        simp only [effort]
        omega

theorem effort_unsend [DecidableEq τ] {t : τ} (ht : s.sends t = some c) (peers : κ → Endpoint) :
    { s with peers := peers, sends := Function.update s.sends t none }.effort + 5 = s.effort := by
  have hsum := sum_update (fun o : Option κ => o.elim 0 fun _ => 5) s.sends t none
  simp only [ht, Option.elim] at hsum
  simp only [effort, sending, Option.elim]
  omega

variable [DecidableEq κ]

theorem effort_setup {x : Setup β}
    (hx : Setup.unpublished (some x) = Setup.unpublished (s.setups c)) :
    (s.setup c x).effort + Setup.toil (s.setups c) = s.effort + Setup.toil (some x) := by
  have hcrowd := sum_update Setup.unpublished s.setups c (some x)
  have hsum := sum_update Setup.toil s.setups c (some x)
  rw [hx, add_left_inj] at hcrowd
  simp only [effort, setup, founding, crowd, hcrowd]
  omega

theorem effort_next {u x : Setup β} {stage : Stage} (hu : s.setups c = some u)
    (hst : u.stages = stage :: x.stages) (hp : stage ≠ .publish) :
    (s.setup c x).effort + 5 = s.effort := by
  have hcount : Setup.unpublished (some x) = Setup.unpublished (s.setups c) := by
    rw [hu, Setup.unpublished, Setup.unpublished, hst, List.count_cons_of_ne hp]
  have hsum := effort_setup hcount
  simp only [hu, Setup.toil, hst, List.length_cons] at hsum
  omega

theorem effort_publish {u x : Setup β} (hu : s.setups c = some u)
    (hst : u.stages = .publish :: x.stages) :
    ({ s with conns := s.conns ++ [c] }.setup c x).effort + 5 = s.effort := by
  have hleft := sum_update Setup.unpublished s.setups c (some x)
  have hsum := sum_update Setup.toil s.setups c (some x)
  have htoil : Setup.toil (some u) = Setup.toil (some x) + 5 := by
    rw [Setup.toil, Setup.toil, hst, List.length_cons, Nat.mul_succ]
  have hcount : Setup.unpublished (some u) = Setup.unpublished (some x) + 1 := by
    rw [Setup.unpublished, Setup.unpublished, hst, List.count_cons_self]
  have hcrowd : crowd (s.conns ++ [c]) (Function.update s.setups c (some x)) =
      crowd s.conns s.setups := by
    rw [hu, hcount] at hleft
    simp only [crowd, List.length_append, List.length_singleton]
    omega
  rw [hu, htoil] at hsum
  simp only [effort, setup, hcrowd, founding]
  omega

variable [DecidableEq β]

theorem effort_schedule {thr : Option Thr} {j : Job κ β} {k : Workers κ β τ → Workers κ β τ}
    (hf : s.fault = none)
    (hk : ∀ pool, (k { s with pool := pool }).effort + 5 ≤ { s with pool := pool }.effort)
    (hs : s.schedule thr j k = some s') : s'.effort < s.effort := by
  simp only [schedule] at hs
  split at hs
  case h_1 =>
    cases hs
    exact effort_crash hf _
  case h_2 w =>
    split at hs
    case isTrue => cases hs
    case isFalse =>
      split at hs <;> cases hs
      case h_1 => exact effort_crash hf _
      case h_2 hp =>
        obtain ⟨pool, hpool, rfl⟩ := Option.map_eq_some_iff.mp hp
        have hpush := Pool.load_schedule hpool
        have hsignal := pool.load_signal w
        have hload : (pool.scheduleTaskSignal w).load + 0 ≤ s.pool.load + 4 := by omega
        have hle := effort_pool hload
        have hkeep := hk (pool.scheduleTaskSignal w)
        omega

theorem effort_advance (hf : s.fault = none) (hs : s.advance c = some s') :
    s'.effort < s.effort := by
  simp only [advance] at hs
  split at hs
  case h_2 => cases hs
  case h_1 u hu =>
    split at hs
    case h_2 => cases hs
    case h_1 stage stages hst =>
      have hlt : ∀ {m n : Nat}, m + 5 = n → m < n := fun h => by omega
      cases stage with
      | attach =>
        simp only [Workers.stage] at hs
        split at hs <;> cases hs
        exact hlt (effort_next hu hst (by simp))
      | publish =>
        simp only [Workers.stage] at hs
        split at hs <;> cases hs
        exact hlt (effort_publish hu hst)
      | thr =>
        cases hs
        exact hlt (effort_next hu hst (by simp))
      | fd =>
        cases hs
        exact hlt (effort_next hu hst (by simp))
      | idx =>
        cases hs
        exact hlt (effort_next hu hst (by simp))
      | start =>
        simp only [Workers.stage] at hs
        refine effort_schedule hf (fun pool => ?_) hs
        have hnext := effort_next (s := { s with pool := pool }) (x := { u with stages := stages })
          hu hst (by simp)
        exact (Nat.add_le_add_right (effort_release _ _) 5).trans_eq hnext

theorem effort_bulk (hf : s.fault = none) (hs : s.bulkSchedule = some s') :
    s'.effort < s.effort := by
  have hmove : ∀ {b : Bulk κ} {p p' : Phase κ} {pool : Pool (Job κ β) Thr} {m : Nat},
      s.bulk = some b → b.phase = p → pool.load ≤ s.pool.load + m →
      p'.toil (crowd s.conns s.setups) + m < p.toil (crowd s.conns s.setups) →
      ({ s with pool := pool }.phase b p').effort < s.effort := by
    intro b p p' pool m hb hp hl hlt
    have hpool := effort_pool (s := s) (m := 0) hl
    have hphase := effort_phase (s := { s with pool := pool }) hb p'
    rw [hp] at hphase
    simp only at hphase
    omega
  simp only [bulkSchedule] at hs
  split at hs
  case h_1 => cases hs
  case h_2 b hb =>
    split at hs
    case h_1 hp =>
      cases hs
      refine hmove (m := 0) hb hp le_rfl ?_
      simp only [Phase.toil, Phase.walk, crowd]
      omega
    case h_2 hp =>
      cases hs
      exact hmove (m := 0) hb hp le_rfl (by simp [Phase.toil])
    case h_3 c todo hp =>
      split at hs
      case isTrue =>
        cases hs
        exact hmove (m := 0) hb hp le_rfl (by simp only [Phase.toil, List.length_cons]; omega)
      case isFalse =>
        split at hs
        case h_1 =>
          cases hs
          exact effort_crash hf _
        case h_2 w ht =>
          split at hs
          case h_1 =>
            cases hs
            exact effort_crash hf _
          case h_2 pool hpool =>
            cases hs
            exact hmove hb hp (Pool.load_schedule hpool) (by simp [Phase.toil]; omega)
    case h_4 c todo hp =>
      split at hs
      case isFalse =>
        cases hs
        exact hmove (m := 0) hb hp le_rfl (by simp [Phase.toil])
      case isTrue =>
        split at hs
        case h_1 =>
          cases hs
          exact effort_crash hf _
        case h_2 w ht =>
          obtain ⟨pool, hpool, rfl⟩ := Option.map_eq_some_iff.mp hs
          exact hmove (m := 0) hb hp (Pool.load_remove hpool) (by simp [Phase.toil])
    case h_5 w todo hp =>
      cases hs
      exact hmove hb hp (Pool.load_signal _ w) (by simp [Phase.toil]; omega)
    case h_6 hp =>
      cases hs
      refine (effort_release _ _).trans_lt ?_
      simp only [effort, hb, rolling, Option.elim, hp, Phase.toil]
      omega

theorem effort_task (hf : s.fault = none) (j : Job κ β) : (s.taskRoutine j).effort ≤ s.effort := by
  cases j with
  | startRead | stopRead | startWrite =>
    simp only [taskRoutine]
    split
    · exact le_rfl
    · exact (effort_crash hf _).le
  | thrBind | thrConn => exact le_rfl
  | stop => exact (effort_crash hf _).le

variable [DecidableEq τ]

theorem effort_step (h : s.Regular) (hj : ∀ w, s'.joined w = false) (hl : s.Serves l)
    (hs : s.step l = some s') : s'.effort < s.effort := by
  obtain ⟨hf, he⟩ := effect_of_step hs
  have h' := he.regular h
  obtain ⟨loc, hc⟩ := h.crewed
  have hhandle : ∀ {t : Workers κ β τ} {w : Thr} {hd : Handler κ}, t.effort = s.effort →
      t.handlers = s.handlers → t.conns = s.conns → t.setups = s.setups →
      hd.toil (crowd s.conns s.setups) < (s.handlers w).toil (crowd s.conns s.setups) →
      (t.handle w hd).effort < s.effort := by
    intro t w hd ht hh hcn hu hlt
    have hsum := effort_handle t w hd
    rw [ht, hh, hcn, hu] at hsum
    omega
  simp only [step, hf, Option.isSome_none, Bool.false_eq_true, if_false] at hs
  cases l with
  | bind | connect | accept | check | read | write | join => exact hl.elim
  | advance c => exact effort_advance hf hs
  | deliver w => exact effort_deliver hs
  | get => exact effort_get hs
  | bulk => exact effort_bulk hf hs
  | insert t =>
    simp only [insert] at hs
    split at hs
    case h_2 => cases hs
    case h_1 c ht =>
      split at hs
      case isTrue =>
        cases hs
        exact lt_of_lt_of_eq (Nat.lt_add_of_pos_right (Nat.succ_pos 4)) (effort_unsend ht _)
      case isFalse =>
        refine effort_schedule hf (fun pool => ?_) hs
        have hsum := effort_unsend (s := { s with pool := pool }) ht
          ({ s with pool := pool }.modify c fun p => { p with writing := true }).peers
        exact hsum.le
  | fail t =>
    simp only [fail] at hs
    split at hs <;> cases hs
    rename_i c ht
    exact lt_of_lt_of_eq (Nat.lt_add_of_pos_right (Nat.succ_pos 4)) (effort_unsend ht _)
  | hangup w =>
    simp only [hangup] at hs
    split at hs <;> cases hs
    rename_i c hp
    exact hhandle rfl rfl rfl rfl (by simp [hp, Handler.toil])
  | mark w =>
    simp only [mark] at hs
    split at hs <;> cases hs
    rename_i c hp
    exact hhandle rfl rfl rfl rfl (by simp [hp, Handler.toil])
  | written w mustStop =>
    simp only [written] at hs
    split at hs
    case h_2 => cases hs
    case h_1 c hp =>
      split at hs <;> cases hs
      · exact hhandle rfl rfl rfl rfl (by simp [hp, Handler.toil])
      · exact hhandle rfl rfl rfl rfl (by simp [hp, Handler.toil])
  | clear w =>
    simp only [clear] at hs
    split at hs <;> cases hs
    rename_i c hp
    exact hhandle rfl rfl rfl rfl (by simp [hp, Handler.toil])
  | copyJobs w =>
    simp only [copyJobs] at hs
    split at hs
    case isFalse => cases hs
    case isTrue =>
      obtain ⟨pool, hp, rfl⟩ := Option.map_eq_some_iff.mp hs
      exact effort_pool (m := 1) (n := 0) (Pool.load_copyJobs hl hp)
  | pop w =>
    obtain ⟨pool, hp, rfl⟩ := Option.map_eq_some_iff.mp hs
    refine effort_pool (m := 1) (n := 0) (hc.filed.load_pop hp ?_)
    obtain ⟨loc', hc'⟩ := h'.crewed
    exact (h'.routed loc' hc').going (hj w)
  | run w =>
    obtain ⟨⟨task, pool⟩, hp, rfl⟩ := Option.map_eq_some_iff.mp hs
    have hlt := effort_pool (s := s) (m := 1) (n := 0) (hc.filed.load_done hp)
    have htask := effort_task (s := { s with pool := pool }) hf task
    exact lt_of_le_of_lt htask hlt

end

end Workers

end Fsock
