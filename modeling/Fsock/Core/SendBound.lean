import Fsock.Core.SendCount

namespace Fsock

open Transition

namespace Pc

variable {κ : Type}

def admitted : Pc κ → Bool
  | .alloc _ => true
  | .insert _ => true
  | .account _ => true
  | _ => false

def entering (writing : Int) : Pc κ → Bool
  | .waitCheck _ => writing ≠ stopOp
  | .woken _ => true
  | _ => false

def admits (pc : Pc κ) : Int := if pc.admitted then 1 else 0

theorem admits_nonneg (pc : Pc κ) : 0 ≤ pc.admits := by
  simp only [admits]
  split <;> decide

theorem admits_le (pc : Pc κ) : pc.admits ≤ 1 := by
  simp only [admits]
  split <;> decide

@[simp] theorem admitted_finish (call : Call κ) (rc : Int) :
    (finish call rc).admitted = false := by
  simp only [finish]
  split <;> rfl

@[simp] theorem admits_finish (call : Call κ) (rc : Int) : (finish call rc).admits = 0 := by
  rw [admits, admitted_finish]
  rfl

theorem admits_mono {pc pc' : Pc κ} (h : pc.admitted = true → pc'.admitted = true) :
    pc.admits ≤ pc'.admits := by
  cases hp : pc.admitted with
  | false =>
    rw [admits, hp]
    exact admits_nonneg pc'
  | true =>
    rw [admits, admits, hp, h hp]

@[simp] theorem admits_wake (pc : Pc κ) : pc.wake.admits = pc.admits := by
  cases pc <;> rfl

end Pc

namespace Root

@[simp] theorem sndhwm_countSent (r : Root) : r.countSent.sndhwm = r.sndhwm := by
  unfold countSent
  dsimp only
  split <;> rfl

@[simp] theorem sndhwm_settle (r : Root) (removed : Nat) :
    (r.settle removed).1.sndhwm = r.sndhwm := by
  unfold settle
  dsimp only
  split
  · split <;> rfl
  · rfl

end Root

namespace Sys

variable {κ τ ρ : Type} {F : Framer ρ} {s s' : Sys κ τ ρ} {l : Label κ τ}

def Roomy (s : Sys κ τ ρ) (l : Label κ τ) : Prop :=
  ∀ t li, l = .insert t li → s.root.sndqsz < s.root.sndhwm

def Within (s : Sys κ τ ρ) : Prop := s.root.sndqsz ≤ s.root.sndhwm

section
variable [Fintype τ]

def inflight (s : Sys κ τ ρ) : Int := ∑ t, (s.pcs t).admits

def Reserved (s : Sys κ τ ρ) (l : Label κ τ) : Prop :=
  ∀ t, l = .run t → (s.pcs t).entering s.root.writing = true →
    s.root.sndqsz + s.inflight < s.root.sndhwm

def Fitting (s : Sys κ τ ρ) : Prop := s.root.sndqsz + s.inflight ≤ s.root.sndhwm

theorem inflight_nonneg (s : Sys κ τ ρ) : 0 ≤ s.inflight :=
  Finset.sum_nonneg fun t _ => (s.pcs t).admits_nonneg

theorem Fitting.within (h : s.Fitting) : s.Within := by
  have hn := s.inflight_nonneg
  unfold Fitting at h
  unfold Within
  omega

theorem admits_le_inflight (s : Sys κ τ ρ) (t : τ) : (s.pcs t).admits ≤ s.inflight :=
  Finset.single_le_sum (fun u _ => (s.pcs u).admits_nonneg) (Finset.mem_univ t)

theorem fitting_init {sndhwm : Int} (h : 0 < sndhwm) : (init F sndhwm : Sys κ τ ρ).Fitting := by
  have hz : (init F sndhwm : Sys κ τ ρ).inflight = 0 := Finset.sum_eq_zero fun _ _ => rfl
  rw [Fitting, hz]
  exact h.le

variable [DecidableEq τ]

theorem inflight_goto (s : Sys κ τ ρ) (t : τ) (pc : Pc κ) :
    (s.goto t pc).inflight + (s.pcs t).admits = s.inflight + pc.admits := by
  have hsum := sum_shift (c := t) (f := fun u => (Function.update s.pcs t pc u).admits)
    (g := fun u => (s.pcs u).admits) fun u hu => by rw [Function.update_of_ne hu]
  simp only [Function.update_self] at hsum
  exact hsum

theorem Fitting.moves {k : Option τ} (h : s.Fitting) {t : τ} {p : Pc κ}
    (hp : p.admitted = true → (s.pcs t).admitted = true) :
    Fitting { s.goto t p with lock := k } := by
  have hi := s.inflight_goto t p
  have hle := Pc.admits_mono hp
  unfold Fitting at h
  change s.root.sndqsz + (s.goto t p).inflight ≤ s.root.sndhwm
  omega

theorem entered {k : Option τ} {t : τ} {pc : Pc κ} (h : s.root.sndqsz + s.inflight < s.root.sndhwm) :
    Fitting { s.goto t pc with lock := k } := by
  have hi := s.inflight_goto t pc
  have hle := pc.admits_le
  have hnn := (s.pcs t).admits_nonneg
  change s.root.sndqsz + (s.goto t pc).inflight ≤ s.root.sndhwm
  omega

theorem fitting_run {t : τ} (h : s.Fitting) (hc : s.Reserved (.run t)) (hs : s.run t = some s') :
    s'.Fitting := by
  have hr := hc t rfl
  simp only [run] at hs
  split at hs
  case h_6 => cases hs
  case h_1 hp =>
    split at hs <;> cases hs
    exact h.moves (by rintro ⟨⟩)
  case h_2 call hp =>
    split at hs <;> cases hs
    · exact h.moves (k := s.lock) (by simp)
    · exact h.moves (k := s.lock) (by rintro ⟨⟩)
  case h_3 call hp =>
    split at hs <;> cases hs
    · exact h.moves (k := s.lock) (by simp)
    · exact h.moves (k := s.lock) (by rintro ⟨⟩)
  case h_4 call hp =>
    split at hs
    case isTrue =>
      cases hs
      exact h.moves (k := s.lock) (by rintro ⟨⟩)
    case isFalse hw =>
      cases hs
      exact entered (k := s.lock) (hr (by rw [hp]; exact decide_eq_true hw))
  case h_5 call hp =>
    split at hs <;> cases hs
    exact entered (hr (by rw [hp]; rfl))

variable [DecidableEq κ]

theorem fitting_step (h : s.Fitting) (hc : s.Reserved l) (hs : s.step F l = some s') :
    s'.Fitting := by
  cases l with
  | run t => exact fitting_run h hc hs
  | send t c fr donwait =>
    simp only [step, send] at hs
    split at hs <;> cases hs
    exact h.moves (k := s.lock) (by rintro ⟨⟩)
  | sendAll t fr donwait stopOnErr =>
    simp only [step, sendAll] at hs
    split at hs <;> cases hs
    exact h.moves (k := s.lock) (by rintro ⟨⟩)
  | target t c =>
    simp only [step, target] at hs
    split at hs
    case h_3 => cases hs
    case h_1 =>
      cases hs
      exact h.moves (by rintro ⟨⟩)
    case h_2 =>
      split at hs <;> cases hs
      exact h.moves (k := s.lock) (by rintro ⟨⟩)
  | park t =>
    simp only [step, park] at hs
    split at hs
    case h_2 => cases hs
    case h_1 call hp =>
      split at hs <;> cases hs
      exact h.moves (k := none) (t := t) (p := .sleeping call) (by rintro ⟨⟩)
  | wake t =>
    simp only [step, wake] at hs
    split at hs <;> cases hs
    exact h.moves (k := s.lock) (by rintro ⟨⟩)
  | alloc t ok =>
    simp only [step, alloc] at hs
    split at hs <;> cases hs
    rename_i hp
    exact h.moves (k := s.lock) fun _ => by rw [hp]; rfl
  | insert t li =>
    simp only [step, insert] at hs
    split at hs
    case h_2 => cases hs
    case h_1 call hp =>
      obtain ⟨u, hu, rfl⟩ := Option.map_eq_some_iff.mp hs
      obtain ⟨conn, -, rfl⟩ := touch_spec hu
      exact h.moves (k := s.lock) (t := t) (p := .account call) fun _ => by rw [hp]; rfl
  | account t rc =>
    simp only [step, account] at hs
    split at hs
    case h_2 => cases hs
    case h_1 call hp =>
      split at hs <;> cases hs
      have hi := s.inflight_goto t (.finish call rc)
      rw [hp, Pc.admits_finish] at hi
      have hone : (Pc.account call).admits = 1 := rfl
      unfold Fitting at h
      change s.root.countSent.sndqsz + (s.goto t _).inflight ≤ s.root.countSent.sndhwm
      rw [Root.sndqsz_countSent, Root.sndhwm_countSent]
      omega
  | conn c l =>
    simp only [step] at hs
    split at hs
    case isTrue => cases hs
    case isFalse =>
      obtain ⟨conn, -, rfl⟩ := touch_spec hs
      exact h
  | settle c =>
    simp only [step, settle] at hs
    split at hs
    case h_2 => cases hs
    case h_1 removed mustStop hp =>
      split at hs
      case isFalse => cases hs
      case isTrue =>
        obtain ⟨u, hu, rfl⟩ := Option.map_eq_some_iff.mp hs
        obtain ⟨conn, -, rfl⟩ := touch_spec hu
        unfold Fitting at h
        change (s.root.settle removed).1.sndqsz + s.inflight ≤ (s.root.settle removed).1.sndhwm
        rw [Root.sndqsz_settle, Root.sndhwm_settle]
        omega
  | broadcast c =>
    simp only [step, broadcast] at hs
    obtain ⟨u, hu, rfl⟩ := Option.map_eq_some_iff.mp hs
    obtain ⟨conn, -, rfl⟩ := touch_spec hu
    have hsum : ∑ t, (s.pcs t).wake.admits = s.inflight :=
      Finset.sum_congr rfl fun t _ => Pc.admits_wake _
    change s.root.sndqsz + ∑ t, (s.pcs t).wake.admits ≤ s.root.sndhwm
    rw [hsum]
    exact h

theorem Fitting.roomy (h : s.Fitting) (hs : s.step F l = some s') : s.Roomy l := by
  rintro t li rfl
  simp only [step, insert] at hs
  split at hs
  case h_2 => cases hs
  case h_1 call hp =>
    have hle := s.admits_le_inflight t
    rw [hp] at hle
    have hone : (Pc.insert call).admits = 1 := rfl
    unfold Fitting at h
    omega

theorem send_bounded {sndhwm : Int} (hpos : 0 < sndhwm) {tr : List (Sys κ τ ρ × Label κ τ)}
    (hr : Run (step F) (init F sndhwm) tr s) (hc : Steps Reserved tr) :
    Steps Roomy tr ∧ Visits Within tr s := by
  have h0 := fitting_init (F := F) (κ := κ) (τ := τ) hpos
  have hs : ∀ (s : Sys κ τ ρ) l s', s.Fitting → s.Reserved l → step F s l = some s' → s'.Fitting :=
    fun _ _ _ => fitting_step
  exact ⟨hr.steps (fun _ _ _ h hs => h.roomy hs) h0 hs hc,
    visits_mono (fun _ => Fitting.within) (hr.visits h0 hs hc)⟩

end

instance [Fintype τ] [DecidableEq κ] [DecidableEq τ] (s : Sys κ τ ρ) (l : Label κ τ) :
    Decidable (s.Reserved l) :=
  inferInstanceAs (Decidable (∀ t, l = .run t → (s.pcs t).entering s.root.writing = true →
    s.root.sndqsz + s.inflight < s.root.sndhwm))

def turns : List (Label Unit Bool) :=
  post true () (letter 65) 1 ++ post false () (letter 66) 2

def crowd : List (Label Unit Bool) :=
  approach true () (letter 65) ++ approach false () (letter 66) ++
    [.alloc true true, .insert true 1, .account true 0, .alloc false true, .insert false 2,
      .account false 0]

theorem send_bounded_turns : Steps Roomy (trace (step listFramer) (init listFramer 2) turns) ∧
    Visits Within (trace (step listFramer) (init listFramer 2) turns)
      (final (step listFramer) (init listFramer 2) turns) :=
  send_bounded (by decide) (run_final rfl) (by decide)

theorem crowd_overfills : ∃ s, Run (step listFramer) (init listFramer 1)
      (trace (step listFramer) (init listFramer 1) crowd) s ∧
    s.root.sndqsz = 2 ∧ s.root.sndhwm = 1 ∧ ¬ s.Within ∧
    ¬ Steps Roomy (trace (step listFramer) (init listFramer 1) crowd) := by
  refine ⟨_, run_final rfl, rfl, rfl, by unfold Within; decide, fun h => ?_⟩
  have hlt := h (trace (step listFramer) (init listFramer 1) crowd)[12] (List.getElem_mem _)
    false 2 rfl
  exact absurd hlt (by decide)

end Sys

end Fsock
