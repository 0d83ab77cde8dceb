import Fsock.Lib.Run
import Fsock.Core.Send

namespace Fsock

open Transition

section
variable (a b : Int32)

theorem toInt_add_cases :
    (-2 ^ 31 ≤ a.toInt + b.toInt ∧ a.toInt + b.toInt < 2 ^ 31) ∧
        (a + b).toInt = a.toInt + b.toInt ∨
      2 ^ 31 ≤ a.toInt + b.toInt ∧ (a + b).toInt = a.toInt + b.toInt - 2 ^ 32 ∨
      a.toInt + b.toInt < -2 ^ 31 ∧ (a + b).toInt = a.toInt + b.toInt + 2 ^ 32 := by
  have ha := a.toInt_lt
  have ha' := a.le_toInt
  have hb := b.toInt_lt
  have hb' := b.le_toInt
  rw [Int32.toInt_add, Int.bmod]
  omega

theorem toInt_sub_cases :
    (-2 ^ 31 ≤ a.toInt - b.toInt ∧ a.toInt - b.toInt < 2 ^ 31) ∧
        (a - b).toInt = a.toInt - b.toInt ∨
      2 ^ 31 ≤ a.toInt - b.toInt ∧ (a - b).toInt = a.toInt - b.toInt - 2 ^ 32 ∨
      a.toInt - b.toInt < -2 ^ 31 ∧ (a - b).toInt = a.toInt - b.toInt + 2 ^ 32 := by
  have ha := a.toInt_lt
  have ha' := a.le_toInt
  have hb := b.toInt_lt
  have hb' := b.le_toInt
  rw [Int32.toInt_sub, Int.bmod]
  omega

end

structure Flow where
  sndqsz : Int32
  sndhwm : Int32
  writing : Int
  rcvqsz : Int32
  rcvhwm : Int32
  reading : Int
  deriving DecidableEq

inductive FlowLabel where
  | sent
  | removed (removed : Int32)
  | batch (cnt : Int32)
  | pop
  deriving DecidableEq

namespace Flow

def init (sndhwm rcvhwm : Int32) : Flow := ⟨0, sndhwm, 0, 0, rcvhwm, 0⟩

def countSent (self : Flow) : Flow :=
  let sock := { self with sndqsz := self.sndqsz + 1 }
  if sock.sndhwm > 0 ∧ sock.writing ≠ stopOp ∧ sock.sndqsz ≥ sock.sndhwm then
    { sock with writing := stopOp }
  else sock

def settle (self : Flow) (removed : Int32) : Flow :=
  let owner := { self with sndqsz := self.sndqsz - removed }
  if owner.sndhwm > 0 ∧ owner.writing = stopOp ∧ owner.sndqsz < owner.sndhwm then
    { owner with writing := 0 }
  else owner

def append (self : Flow) (cnt : Int32) : Flow :=
  let owner := { self with rcvqsz := self.rcvqsz + cnt }
  if owner.rcvhwm > 0 ∧ owner.rcvhwm < owner.rcvqsz then { owner with reading := stopOp }
  else owner

def take (self : Flow) : Flow :=
  let sock := { self with rcvqsz := self.rcvqsz - 1 }
  if sock.rcvhwm > 0 ∧ sock.reading = stopOp ∧ sock.rcvqsz < sock.rcvhwm then
    { sock with reading := 0 }
  else sock

def step (s : Flow) : FlowLabel → Option Flow
  | .sent => some s.countSent
  | .removed removed => if removed > 0 then some (s.settle removed) else some s
  | .batch cnt => some (s.append cnt)
  | .pop => some s.take

structure Agrees (s : Flow) : Prop where
  full : s.writing = stopOp ↔ s.sndhwm ≤ s.sndqsz
  above : s.rcvhwm < s.rcvqsz → s.reading = stopOp
  held : s.reading = stopOp → s.rcvhwm ≤ s.rcvqsz

def Counted (_ : Flow) : FlowLabel → Prop
  | .removed removed => 0 ≤ removed
  | .batch cnt => 0 ≤ cnt
  | _ => True

def Fits (s : Flow) : FlowLabel → Prop
  | .sent => s.sndqsz.toInt + 1 < 2 ^ 31
  | .removed removed => -2 ^ 31 ≤ s.sndqsz.toInt - removed.toInt ∨
      s.sndqsz.toInt - removed.toInt + 2 ^ 32 < s.sndhwm.toInt
  | .batch cnt => s.rcvqsz.toInt + cnt.toInt < 2 ^ 31 ∨ s.reading ≠ stopOp
  | .pop => -2 ^ 31 ≤ s.rcvqsz.toInt - 1 ∨ s.rcvhwm.toInt + 1 = 2 ^ 31

instance (s : Flow) (l : FlowLabel) : Decidable (s.Counted l) :=
  match l with
  | .sent => isTrue trivial
  | .removed removed => inferInstanceAs (Decidable (0 ≤ removed))
  | .batch cnt => inferInstanceAs (Decidable (0 ≤ cnt))
  | .pop => isTrue trivial

instance (s : Flow) (l : FlowLabel) : Decidable (s.Fits l) :=
  match l with
  | .sent => inferInstanceAs (Decidable (_ < _))
  | .removed _ => inferInstanceAs (Decidable (_ ∨ _))
  | .batch _ => inferInstanceAs (Decidable (_ ∨ _))
  | .pop => inferInstanceAs (Decidable (_ ∨ _))

structure Steady (s : Flow) : Prop where
  sndhwm : 0 < s.sndhwm
  rcvhwm : 0 < s.rcvhwm
  agrees : s.Agrees

variable {s s' : Flow} {l : FlowLabel}

theorem agrees_iff : s.Agrees ↔
    (s.writing = stopOp ↔ s.sndhwm.toInt ≤ s.sndqsz.toInt) ∧
      (s.rcvhwm.toInt < s.rcvqsz.toInt → s.reading = stopOp) ∧
      (s.reading = stopOp → s.rcvhwm.toInt ≤ s.rcvqsz.toInt) := by
  simp only [← Int32.lt_iff_toInt_lt, ← Int32.le_iff_toInt_le]
  exact ⟨fun h => ⟨h.full, h.above, h.held⟩, fun ⟨hf, ha, hh⟩ => ⟨hf, ha, hh⟩⟩

theorem Steady.bounds (h : s.Steady) : 0 < s.sndhwm.toInt ∧ 0 < s.rcvhwm.toInt :=
  ⟨Int32.lt_iff_toInt_lt.mp h.sndhwm, Int32.lt_iff_toInt_lt.mp h.rcvhwm⟩

theorem agrees_countSent (h : s.Steady) : s.countSent.Agrees ↔ s.Fits .sent := by
  obtain ⟨hp, -⟩ := h.bounds
  obtain ⟨hf, ha, hh⟩ := agrees_iff.mp h.agrees
  have hw := toInt_add_cases s.sndqsz 1
  have hm := s.sndhwm.toInt_lt
  have hq := s.sndqsz.toInt_lt
  rw [Int32.toInt_one] at hw
  simp only [countSent, Fits, gt_iff_lt, ge_iff_le, Int32.lt_iff_toInt_lt, Int32.le_iff_toInt_le,
    Int32.toInt_zero]
  split
  case isTrue hc =>
    rw [agrees_iff]
    dsimp only
    omega
  case isFalse hc =>
    rw [agrees_iff]
    dsimp only
    omega

theorem agrees_settle (h : s.Steady) {removed : Int32} (hr : 0 < removed) :
    (s.settle removed).Agrees ↔ s.Fits (.removed removed) := by
  obtain ⟨hp, -⟩ := h.bounds
  obtain ⟨hf, ha, hh⟩ := agrees_iff.mp h.agrees
  have hw := toInt_sub_cases s.sndqsz removed
  have hm := s.sndhwm.toInt_lt
  have hq := s.sndqsz.toInt_lt
  have hn := removed.toInt_lt
  rw [Int32.lt_iff_toInt_lt, Int32.toInt_zero] at hr
  simp only [settle, Fits, gt_iff_lt, Int32.lt_iff_toInt_lt, Int32.toInt_zero]
  split
  case isTrue hc =>
    rw [agrees_iff]
    have hz : (0 : Int) ≠ stopOp := by decide
    dsimp only
    omega
  case isFalse hc =>
    rw [agrees_iff]
    dsimp only
    omega

theorem agrees_append (h : s.Steady) {cnt : Int32} (hn : 0 ≤ cnt) :
    (s.append cnt).Agrees ↔ s.Fits (.batch cnt) := by
  obtain ⟨-, hp⟩ := h.bounds
  obtain ⟨hf, ha, hh⟩ := agrees_iff.mp h.agrees
  have hw := toInt_add_cases s.rcvqsz cnt
  have hm := s.rcvhwm.toInt_lt
  have hq := s.rcvqsz.toInt_lt
  have hc := cnt.toInt_lt
  rw [Int32.le_iff_toInt_le, Int32.toInt_zero] at hn
  simp only [append, Fits, gt_iff_lt, Int32.lt_iff_toInt_lt, Int32.toInt_zero]
  split
  case isTrue hc =>
    rw [agrees_iff]
    dsimp only
    omega
  case isFalse hc =>
    rw [agrees_iff]
    dsimp only
    omega

theorem agrees_take (h : s.Steady) : s.take.Agrees ↔ s.Fits .pop := by
  obtain ⟨-, hp⟩ := h.bounds
  obtain ⟨hf, ha, hh⟩ := agrees_iff.mp h.agrees
  have hw := toInt_sub_cases s.rcvqsz 1
  have hm := s.rcvhwm.toInt_lt
  have hq := s.rcvqsz.le_toInt
  have hq' := s.rcvqsz.toInt_lt
  rw [Int32.toInt_one] at hw
  simp only [take, Fits, gt_iff_lt, Int32.lt_iff_toInt_lt, Int32.toInt_zero]
  split
  case isTrue hc =>
    rw [agrees_iff]
    have hz : (0 : Int) ≠ stopOp := by decide
    dsimp only
    omega
  case isFalse hc =>
    rw [agrees_iff]
    dsimp only
    omega

theorem marks_step (hs : s.step l = some s') : s'.sndhwm = s.sndhwm ∧ s'.rcvhwm = s.rcvhwm := by
  cases l with
  | sent =>
    cases hs
    simp only [countSent]
    split <;> exact ⟨rfl, rfl⟩
  | removed removed =>
    simp only [step] at hs
    split at hs <;> cases hs
    · simp only [settle]
      split <;> exact ⟨rfl, rfl⟩
    · exact ⟨rfl, rfl⟩
  | batch cnt =>
    cases hs
    simp only [append]
    split <;> exact ⟨rfl, rfl⟩
  | pop =>
    cases hs
    simp only [take]
    split <;> exact ⟨rfl, rfl⟩

theorem agrees_step (h : s.Steady) (hc : s.Counted l) (hs : s.step l = some s') :
    s'.Agrees ↔ s.Fits l := by
  cases l with
  | sent =>
    cases hs
    exact agrees_countSent h
  | removed removed =>
    simp only [step] at hs
    split at hs
    case isTrue hr =>
      cases hs
      exact agrees_settle h hr
    case isFalse hr =>
      cases hs
      have hq := s.sndqsz.le_toInt
      have hn : removed.toInt ≤ 0 := by
        rw [gt_iff_lt, Int32.lt_iff_toInt_lt, Int32.toInt_zero] at hr
        exact not_lt.mp hr
      exact ⟨fun _ => .inl (by omega), fun _ => h.agrees⟩
  | batch cnt =>
    cases hs
    exact agrees_append h hc
  | pop =>
    cases hs
    exact agrees_take h

theorem steady_step (h : s.Steady) (hc : s.Counted l) (hf : s.Fits l)
    (hs : s.step l = some s') : s'.Steady := by
  obtain ⟨hsnd, hrcv⟩ := marks_step hs
  exact ⟨hsnd ▸ h.sndhwm, hrcv ▸ h.rcvhwm, (agrees_step h hc hs).mpr hf⟩

theorem steady_init {sndhwm rcvhwm : Int32} (hsnd : 0 < sndhwm) (hrcv : 0 < rcvhwm) :
    (init sndhwm rcvhwm).Steady where
  sndhwm := hsnd
  rcvhwm := hrcv
  agrees := by
    refine ⟨⟨nofun, fun hq => ?_⟩, fun hq => ?_, nofun⟩
    · exact absurd hsnd (Int32.not_lt.mpr hq)
    · exact absurd (Int32.lt_trans hq hrcv) Int32.lt_irrefl

theorem flags_agree {sndhwm rcvhwm : Int32} (hsnd : 0 < sndhwm) (hrcv : 0 < rcvhwm)
    {tr : List (Flow × FlowLabel)} (hr : Run step (init sndhwm rcvhwm) tr s)
    (hc : Steps Counted tr) : Visits Agrees tr s ↔ Steps Fits tr := by
  refine (hr.exact (steady_init hsnd hrcv) (fun _ h => h.agrees) ?_ ?_ hc).symm
  · exact fun _ _ _ h hc hf hs => steady_step h hc hf hs
  · exact fun _ _ _ h hc hf hs ha => hf ((agrees_step h hc hs).mp ha)

def thresholds : List FlowLabel :=
  [.sent, .removed 1, .batch 2, .pop, .pop, .batch 2147483647, .pop]

theorem flags_agree_thresholds : Visits Agrees (trace step (init 1 1) thresholds)
      (final step (init 1 1) thresholds) ∧
    (final step (init 1 1) thresholds).rcvqsz = 2147483646 :=
  ⟨(flags_agree (by decide) (by decide) (run_final (by decide)) (by decide)).mpr (by decide),
    by decide⟩

theorem flags_disagree : ∃ s tr, Run step (init 1 1) tr s ∧ Steps Counted tr ∧
    s.reading = stopOp ∧ s.rcvqsz < 0 ∧ ¬ Visits Agrees tr s := by
  refine ⟨_, _, run_final (k := [.batch 2147483647, .batch 1]) (by decide), by decide, by decide,
    by decide, fun h => ?_⟩
  have hheld := h.2.held (by decide)
  revert hheld
  decide

end Flow

end Fsock
