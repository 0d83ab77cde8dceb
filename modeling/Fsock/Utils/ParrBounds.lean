import Fsock.Utils.ParrIter
import Fsock.Utils.ParrRefine

namespace Fsock.Parr

open SlotTable Transition

structure Checked where
  arr : Parr
  fault : Bool
  deriving DecidableEq

namespace Checked

def result (s : Checked) : Except Fault (Parr × Int) → Checked
  | .error _ => { s with fault := true }
  | .ok (arr, _) => { s with arr := arr }

def step (s : Checked) : Op → Option Checked
  | .insert elem mem => if s.fault then none else some (s.result (s.arr.insert elem mem))
  | .clear index mem => if s.fault then none else some (s.result (s.arr.clear index mem))

def start (increment : Nat) : Checked := ⟨init increment, false⟩

def Allowed (s : Checked) : Op → Prop
  | .insert _ mem => mem.isSome
  | .clear index mem => (index : Int) < s.arr.last ∧ ∀ k, (mem k).isSome

structure Bounded (s : Checked) : Prop where
  sane : s.fault = false
  multiple : ∃ k : Nat, s.arr.capacity = k * s.arr.increment
  last : (s.arr.capacity = 0 ∧ s.arr.last = 0 ∧ s.arr.elems = none) ∨
    (0 ≤ s.arr.last ∧ s.arr.last < s.arr.capacity)
  block : ∀ b, s.arr.elems = some b → (b.length : Int) = s.arr.capacity
  size : ∃ n, s.arr.size = .ok n
  canShrink : 0 < s.arr.last → ∃ r, s.arr.canShrink = .ok r
  begin : ∃ c, s.arr.begin = .ok c
  next : ∀ index, 0 ≤ index → ∃ c, s.arr.next index = .ok c

def Snug (s : Checked) : Op → Prop
  | .insert _ _ => s.arr.capacity ≠ 0 ∨ s.arr.increment ≠ 1
  | .clear index _ =>
    if s.arr.increment ∣ s.arr.last then
      s.arr.last = s.arr.increment ∧ ∀ j, j ≠ index → s.arr.view j = none
    else s.arr.last < s.arr.increment ∨ ∃ j, j ≠ index ∧
      top s.arr.last.toNat s.arr.increment.toNat ≤ j ∧ s.arr.view j ≠ none

inductive Inv (I : Nat) : Checked → Prop
  | fresh : 0 < I → Inv I ⟨init I, false⟩
  | block {b L} : Fits b L I → L < b.length → Inv I ⟨table b L I, false⟩

end Checked

variable {b : List Ptr} {L I i : Nat}

theorem bounded_init : Checked.Bounded ⟨init I, false⟩ where
  sane := rfl
  multiple := ⟨0, by simp [init]⟩
  last := .inl ⟨rfl, rfl, rfl⟩
  block := fun b hb => by simp [init] at hb
  size := ⟨0, rfl⟩
  canShrink := fun h => absurd h (lt_irrefl 0)
  begin := ⟨_, rfl⟩
  next := fun index h => ⟨(.null, index), by simp [Parr.next, init, h]⟩

theorem bounded_table (h : Fits b L I) (hL : L < b.length) :
    Checked.Bounded ⟨table b L I, false⟩ where
  sane := rfl
  multiple := by
    obtain ⟨k, hk⟩ := h.dvd
    exact ⟨k, by simp only [table, hk]; push_cast; ring⟩
  last := .inr (by simp only [table]; omega)
  block := fun c hc => by cases hc; rfl
  size := ⟨_, size_table hL.le (by rintro rfl; simp at hL)⟩
  canShrink := fun _ => ⟨_, canShrink_table h.increment_le hL.le⟩
  begin := ⟨_, begin_table h.last_pos hL.le⟩
  next := fun index h0 => by
    obtain ⟨r, rfl⟩ := Int.eq_ofNat_of_zero_le h0
    rcases Nat.lt_or_ge r L with hr | hr
    · exact ⟨_, next_table hr hL.le⟩
    · exact ⟨_, next_table_past hr⟩

theorem Checked.Inv.bounded {s : Checked} (h : s.Inv I) : s.Bounded := by
  cases h with
  | fresh => exact bounded_init
  | block hf hL => exact bounded_table hf hL

theorem not_bounded_full (hb : 0 < b.length) (hL : b.length ≤ L) :
    ¬ Checked.Bounded ⟨table b L I, false⟩ := by
  intro h
  have hl := h.last
  simp only [table] at hl
  omega

theorem Fits.dvd_last (h : Fits b L I) (hL : L < b.length) : I ∣ L ↔ b.length = L + I := by
  constructor
  · intro hd
    have hk := Nat.le_of_dvd (by omega) (Nat.dvd_sub h.dvd hd)
    have := h.low
    omega
  · intro he
    exact (Nat.dvd_add_left (Nat.dvd_refl I)).mp (he ▸ h.dvd)

theorem view_none_iff (hL : L ≤ b.length) (hi : i < L) :
    (∀ j, j ≠ i → (table b L I).view j = none) ↔ Vacant (b.set i .empty) 0 L := by
  rw [← not_iff_not, not_vacant_set hL hi (I := I)]
  simp

namespace Checked

variable {s s' : Checked}

theorem snug_clear_table {mem : Nat → Mem} (h : Fits b L I) (hL : L < b.length) (hi : i < L) :
    Snug ⟨table b L I, false⟩ (.clear i mem) ↔
      if b.length = L + I then L = I ∧ Vacant (b.set i .empty) 0 L
      else L < I ∨ ¬ Vacant (b.set i .empty) (top L I) L := by
  have hd : (table b L I).increment ∣ (table b L I).last ↔ b.length = L + I := by
    rw [← h.dvd_last hL]; exact Int.natCast_dvd_natCast
  rw [Snug, not_vacant_set hL.le hi (I := I), ← view_none_iff hL.le hi (I := I)]
  simp only [hd]
  split
  · exact and_congr_left' Int.natCast_inj
  · exact or_congr_left Int.ofNat_lt

theorem snug_insert {p : Ptr} {mem : Mem} (h : s.Inv I) (hal : s.Allowed (.insert p mem))
    (ht : s.step (.insert p mem) = some s') :
    (s.Snug (.insert p mem) → s'.Inv I) ∧ (¬ s.Snug (.insert p mem) → ¬ s'.Bounded) := by
  obtain ⟨junk, rfl⟩ := Option.isSome_iff_exists.mp hal
  cases h with
  | fresh hI =>
    obtain ⟨tail, hl, hi⟩ := insert_init p junk hI
    simp only [step, hi, result, Bool.false_eq_true, if_false, Option.some.injEq] at ht
    subst ht
    have hsnug : Snug ⟨Parr.init I, false⟩ (.insert p (some junk)) ↔ I ≠ 1 := by
      simp [Snug, Parr.init]
    rw [hsnug]
    refine ⟨fun hne => .block ⟨hI, by simp [hl], one_pos, by simp [hl], by simp [hl]; omega⟩
      (by simp [hl]; omega), fun h1 => not_bounded_full (by simp [hl]; omega) (by simp [hl]; omega)⟩
  | @block b L hf hL =>
    have hsnug : Snug ⟨table b L I, false⟩ (.insert p (some junk)) := by
      refine .inl ?_
      simp only [table]; omega
    refine ⟨fun _ => ?_, fun hn => absurd hsnug hn⟩
    rcases insert_spec (I := I) p (some junk) hL with ⟨-, hm, -⟩ | ⟨-, tail, hl, hi⟩
    · simp at hm
    · simp only [step, hi, result, Bool.false_eq_true, if_false, Option.some.injEq] at ht
      subst ht
      have hI := hf.increment_pos
      refine .block (hf.insert tail hL hl) ?_
      rw [List.length_set, List.length_append, hl]
      split <;> omega

theorem snug_clear {mem : Nat → Mem} (h : s.Inv I) (hal : s.Allowed (.clear i mem))
    (ht : s.step (.clear i mem) = some s') :
    (s.Snug (.clear i mem) → s'.Inv I) ∧ (¬ s.Snug (.clear i mem) → ¬ s'.Bounded) := by
  obtain ⟨hi, hm⟩ := hal
  cases h with
  | fresh => simp only [Parr.init] at hi; omega
  | @block b L hf hL =>
    have hiL : i < L := by simpa [table] using hi
    have hI := hf.increment_pos
    have hp := hf.last_pos
    rw [snug_clear_table hf hL hiL]
    simp only [step, Bool.false_eq_true, if_false, Option.some.injEq] at ht
    rcases clear_spec hf hiL hm with ⟨hv, c, hc, hlen, -, he⟩ | ⟨htop, hv, he⟩ | ⟨htop, hv, he⟩ <;>
      rw [he, result] at ht <;> subst ht
    · by_cases hg : b.length = L + I
      · rw [if_pos hg] at hlen ⊢
        refine ⟨fun hs => absurd (fun j hj _ => hs.2 j hj (Nat.zero_le j)) hv, fun _ => ?_⟩
        exact not_bounded_full (by omega) (by omega)
      · rw [if_neg hg] at hlen ⊢
        exact ⟨fun _ => .block hc (by omega), fun hn => absurd (.inr hv) hn⟩
    · refine ⟨fun _ => .fresh hI, fun hn => absurd ?_ hn⟩
      split
      · have := hf.top_grown ‹_›
        have := (hf.take ‹_›).increment_le
        simp only [List.length_take] at this
        exact ⟨by omega, hv⟩
      · have := hf.top_inner ‹_›
        exact .inl (by omega)
    · refine ⟨fun hs => absurd ?_ htop, fun _ hb => by simpa using hb.sane⟩
      have hzero : L ≤ I → top L I = 0 := by
        intro hle
        rw [top, Nat.div_eq_of_lt (by omega), Nat.zero_mul]
      split at hs
      · exact hzero hs.1.le
      · rcases hs with hs | hs
        · exact hzero hs.le
        · exact absurd hv hs

theorem snug_step {op : Op} (h : s.Inv I) (hal : s.Allowed op) (ht : s.step op = some s') :
    (s.Snug op → s'.Inv I) ∧ (¬ s.Snug op → ¬ s'.Bounded) := by
  cases op with
  | insert p mem => exact snug_insert h hal ht
  | clear i mem => exact snug_clear h hal ht

end Checked

theorem bounds_exact (I : Nat) (hI : 0 < I) (tr : List (Checked × Op)) (s : Checked)
    (h : Run Checked.step (Checked.start I) tr s) (ha : Steps Checked.Allowed tr) :
    Steps Checked.Snug tr ↔ Visits Checked.Bounded tr s :=
  Run.exact (.fresh hI) (fun _ hs => hs.bounded)
    (fun _ _ _ hi hal hc ht => (Checked.snug_step hi hal ht).1 hc)
    (fun _ _ _ hi hal hc ht => (Checked.snug_step hi hal ht).2 hc) h ha

namespace Checked

def inserts (n : Nat) : List Op := (List.range n).map fun k => .insert (.obj k) Shadow.junk

theorem allowed_inserts {n : Nat} {s : Checked} : Steps Allowed (trace step s (inserts n)) := by
  apply steps_trace
  intro l hl t
  obtain ⟨k, -, rfl⟩ := List.mem_map.mp hl
  rfl

def tenth : Checked :=
  ⟨table ((List.range 10).map .obj ++ List.replicate 10 (.obj 99)) 10 10, false⟩

def cut : Checked := ⟨table (.empty :: (List.range' 1 9).map .obj) 10 10, false⟩

theorem exec_tenth : exec step (start 10) (inserts 10) = some tenth := by decide

theorem step_cut : tenth.step (.clear 0 Shadow.granted) = some cut := by decide

def alone : Checked := ⟨table (.obj 0 :: List.replicate 9 (.obj 99)) 1 10, false⟩

def pair : Checked := ⟨table ([.obj 0, .obj 1] ++ List.replicate 8 (.obj 99)) 2 10, false⟩

def single : Checked := ⟨table ([.empty, .obj 1] ++ List.replicate 8 (.obj 99)) 2 10, false⟩

def brief : List (Checked × Op) :=
  [(start 10, .insert (.obj 0) Shadow.junk), (alone, .insert (.obj 1) Shadow.junk),
    (pair, .clear 0 Shadow.granted)]

theorem run_brief : Run step (start 10) brief single :=
  .cons (t := alone) (by decide) (.cons (t := pair) (by decide) (.cons (by decide) .nil))

theorem allowed_brief : Steps Allowed brief := by
  simp [Steps, brief, Allowed, Shadow.filled, Shadow.junk, Shadow.granted, pair, table]

theorem snug_brief : Steps Snug brief := by
  intro x hx
  simp only [brief, List.mem_cons, List.not_mem_nil, or_false] at hx
  rcases hx with rfl | rfl | rfl
  · exact .inr (by decide)
  · exact .inl (by decide)
  · rw [Snug, if_neg (by decide)]
    exact .inl (by decide)

end Checked

theorem bounds_exact_brief : Visits Checked.Bounded Checked.brief Checked.single :=
  (bounds_exact 10 (by decide) Checked.brief Checked.single Checked.run_brief
    Checked.allowed_brief).mp Checked.snug_brief

theorem clear_leaves_full : ∃ tr s, Run Checked.step (Checked.start 10) tr s ∧
    Steps Checked.Allowed tr ∧ s.arr.last = s.arr.capacity ∧
    s.arr.insert (.obj 11) Shadow.junk = .error .assertion ∧ ¬ Visits Checked.Bounded tr s := by
  refine ⟨_, Checked.cut, (run_exec Checked.exec_tenth).snoc Checked.step_cut,
    steps_snoc.mpr ⟨Checked.allowed_inserts, by decide, fun _ => rfl⟩, by decide, by decide,
    fun hv => ?_⟩
  exact not_bounded_full (by decide) (by decide) hv.2

end Fsock.Parr
