import Fsock.Utils.Parr
import Mathlib.Tactic

namespace Fsock.Parr

def table (b : List Ptr) (L I : Nat) : Parr := ⟨some b, L, b.length, I⟩

def Vacant (b : List Ptr) (lo hi : Nat) : Prop := ∀ j < hi, lo ≤ j → b[j]? = some .empty

instance (b : List Ptr) (lo hi : Nat) : Decidable (Vacant b lo hi) :=
  inferInstanceAs (Decidable (∀ j < hi, lo ≤ j → b[j]? = some .empty))

variable {b : List Ptr} {L I : Nat}

theorem load_table {i : Nat} (h : i < b.length) : (table b L I).load i = .ok b[i] := by
  have hn : ¬ (i : Int) < 0 := by omega
  simp [load, table, hn, h]

theorem load_table_out {i : Nat} (h : b.length ≤ i) :
    (table b L I).load i = .error .bounds := by
  have hn : ¬ (i : Int) < 0 := by omega
  simp [load, table, hn, List.getElem?_eq_none h]

theorem store_table {i : Nat} (p : Ptr) (h : i < b.length) :
    (table b L I).store i p = .ok (table (b.set i p) L I) := by
  simp [store, table, h]

theorem realloc_table {n : Nat} {d : Int} (junk : Nat → Ptr) (h : (b.length : Int) + d = n) :
    (table b L I).realloc d (some junk) = some (table (resize b n junk) L I) := by
  simp [realloc, table, resize, h]

theorem resize_shrink {n : Nat} (junk : Nat → Ptr) (h : n ≤ b.length) :
    resize b n junk = b.take n := by
  apply List.ext_getElem?
  intro i
  by_cases hi : i < n
  · have hb : i < b.length := by omega
    simp [resize, hi, hb]
  · have hm : min n b.length ≤ i := by omega
    simp [resize, hi]

theorem resize_grow {n : Nat} (junk : Nat → Ptr) (h : b.length ≤ n) :
    ∃ tail, resize b n junk = b ++ tail ∧ tail.length = n - b.length := by
  refine ⟨(List.range (n - b.length)).map fun i => junk (b.length + i), ?_, by simp⟩
  apply List.ext_getElem?
  intro i
  by_cases hi : i < b.length
  · have hn : i < n := by omega
    simp [resize, hi, hn, List.getElem?_append_left]
  · rw [List.getElem?_append_right (by omega)]
    by_cases hn : i < n
    · have hd : i - b.length < n - b.length := by omega
      simp [resize, hn, List.getElem?_eq_none (Nat.le_of_not_lt hi), hd,
        show b.length + (i - b.length) = i by omega]
    · have hd : ¬ i - b.length < n - b.length := by omega
      simp [resize, hn, hd]

theorem drop_take_succ {n r : Nat} (h : r < b.length) :
    (b.drop r).take (n + 1) = b[r] :: (b.drop (r + 1)).take n := by
  rw [List.drop_eq_getElem_cons h, List.take_succ_cons]

theorem insertScan_table {n r : Nat} (h : r + n ≤ b.length) :
    (table b L I).insertScan n r =
      .ok ((r + ((b.drop r).take n).findIdx (· == .empty) : Nat) : Int) := by
  induction n generalizing r with
  | zero => simp [insertScan]
  | succ n ih =>
    have hr : r < b.length := by omega
    have hs := ih (r := r + 1) (by omega)
    rw [Nat.cast_add, Nat.cast_one] at hs
    simp only [insertScan, load_table hr, drop_take_succ hr, List.findIdx_cons]
    by_cases he : b[r] = .empty
    · simp [he, Bind.bind, Except.bind, pure, Except.pure]
    · have hb : (b[r] == Ptr.empty) = false := by simpa using he
      simp only [Bind.bind, Except.bind, he, if_false, hs, hb, cond_false]
      congr 2; omega

theorem sizeScan_table {n r : Nat} {z : Int} (h : r + n ≤ b.length) :
    (table b L I).sizeScan n r z =
      .ok (z + (((b.drop r).take n).countP (· ≠ .empty) : Nat)) := by
  induction n generalizing r z with
  | zero => simp [sizeScan]
  | succ n ih =>
    have hr : r < b.length := by omega
    have hs := fun z => ih (r := r + 1) (z := z) (by omega)
    simp only [Nat.cast_add, Nat.cast_one] at hs
    simp only [sizeScan, load_table hr, drop_take_succ hr, Bind.bind, Except.bind, hs,
      List.countP_cons]
    by_cases he : b[r] = .empty
    · simp [he]
    · simp [he]; omega

theorem emptyScan_table {n r : Nat} (h : r + n ≤ b.length) :
    (table b L I).emptyScan n r = .ok (((b.drop r).take n).all (· == .empty)) := by
  induction n generalizing r with
  | zero => simp [emptyScan]
  | succ n ih =>
    have hr : r < b.length := by omega
    have hs := ih (r := r + 1) (by omega)
    rw [Nat.cast_add, Nat.cast_one] at hs
    simp only [emptyScan, load_table hr, drop_take_succ hr, List.all_cons]
    by_cases he : b[r] = .empty
    · simp [he, Bind.bind, Except.bind, hs]
    · simp [he, Bind.bind, Except.bind, pure, Except.pure]

theorem canShrinkScan_table {n m : Nat} (hn : n ≤ m) (h : m ≤ b.length) :
    (table b L I).canShrinkScan n ((m : Int) - 1) = .ok (decide (Vacant b (m - n) m)) := by
  induction n generalizing m with
  | zero =>
    have hv : Vacant b m m := fun j hj hm => absurd hm (by omega)
    simp [canShrinkScan, hv]
  | succ n ih =>
    have hm : m - 1 < b.length := by omega
    have hi : (m : Int) - 1 = (m - 1 : Nat) := by omega
    have hs := ih (m := m - 1) (by omega) (by omega)
    simp only [canShrinkScan, hi, load_table hm, Bind.bind, Except.bind]
    by_cases he : b[m - 1] = .empty
    · simp only [he, ne_eq, not_true, if_false, hs]
      congr 1
      apply decide_eq_decide.mpr
      constructor
      · intro hv j hj hmj
        by_cases hl : j = m - 1
        · subst hl; simp [hm, he]
        · exact hv j (by omega) (by omega)
      · intro hv j hj hmj
        exact hv j (by omega) (by omega)
    · have hv : ¬ Vacant b (m - (n + 1)) m := by
        intro hv
        have := hv (m - 1) (by omega) (by omega)
        simp [hm, he] at this
      simp [he, hv, pure, Except.pure]

theorem canShrinkScan_table_out {n m : Nat} (hn : 0 < n) (h : b.length < m) :
    (table b L I).canShrinkScan n ((m : Int) - 1) = .error .bounds := by
  obtain ⟨k, rfl⟩ := Nat.exists_eq_succ_of_ne_zero hn.ne'
  have hi : (m : Int) - 1 = (m - 1 : Nat) := by omega
  rw [canShrinkScan, hi, load_table_out (by omega)]
  rfl

theorem canShrink_table (_ : I ≤ b.length) (hL : L ≤ b.length) :
    (table b L I).canShrink = .ok (decide (Vacant b (b.length - I) L)) := by
  have hd : ((L : Int) - (b.length - I)).toNat = L - (b.length - I) := by omega
  simp only [canShrink, table, hd]
  have hs := canShrinkScan_table (b := b) (L := L) (I := I)
    (n := L - (b.length - I)) (m := L) (by omega) hL
  rw [table] at hs
  rw [hs]
  congr 1
  apply decide_eq_decide.mpr
  constructor
  · intro hv j hj hb
    exact hv j hj (by omega)
  · intro hv j hj hb
    exact hv j hj (by omega)

theorem canShrink_table_out (_ : I ≤ b.length) (hL : b.length < L) :
    (table b L I).canShrink = .error .bounds := by
  have hs := canShrinkScan_table_out (b := b) (L := L) (I := I)
    (n := ((L : Int) - (b.length - I)).toNat) (m := L) (by omega) hL
  simpa only [canShrink, table] using hs

theorem size_table (hL : L ≤ b.length) (hC : b ≠ []) :
    (table b L I).size = .ok (((b.take L).countP (· ≠ .empty) : Nat) : Int) := by
  have hs := sizeScan_table (b := b) (L := L) (I := I) (n := L) (r := 0) (z := 0)
    (by omega)
  have hc : b.length ≠ 0 := by simpa using hC
  simp only [Nat.cast_zero, List.drop_zero, zero_add] at hs
  simpa [size, table, hc] using hs

theorem empty_table (hL : L ≤ b.length) :
    (table b L I).empty = .ok ((b.take L).all (· == .empty)) := by
  have hs := emptyScan_table (b := b) (L := L) (I := I) (n := L) (r := 0) (by omega)
  simpa [empty, table] using hs

theorem countP_take_vacant (hL : L ≤ b.length) (hv : Vacant b 0 L) :
    (b.take L).countP (· ≠ .empty) = 0 := by
  rw [List.countP_eq_zero]
  intro p hp
  obtain ⟨j, hj, rfl⟩ := List.mem_iff_getElem.mp hp
  have hjL : j < L := by simp at hj; omega
  have := hv j hjL (by omega)
  rw [List.getElem?_eq_getElem (by omega), Option.some.injEq] at this
  simp [this]

theorem clearLoop_keep {f : Nat} {mem : Nat → Mem} (hI : I ≤ b.length) (hL : L ≤ b.length)
    (hv : ¬ Vacant b (b.length - I) L) :
    clearLoop (f + 1) mem (table b L I) = .ok (table b L I, 0) := by
  have hs := canShrink_table hI hL
  simp [clearLoop, hs, hv, Bind.bind, Except.bind, pure, Except.pure]

theorem clearLoop_reset {f : Nat} {mem : Nat → Mem} (hI : b.length = I) (hC : b ≠ [])
    (hL : L ≤ b.length) (hv : Vacant b 0 L) :
    clearLoop (f + 1) mem (table b L I) = .ok (init I, 0) := by
  have hv' : Vacant b (b.length - I) L := by simpa [hI] using hv
  have hc : (table b L I).capacity = (table b L I).increment := by simp [table, hI]
  have ht : (table b L I).term = .ok () := by
    rw [term, size_table hL hC, countP_take_vacant hL hv]
    rfl
  have hs := canShrink_table hI.ge hL
  simp only [clearLoop, hs, hv', decide_true, Bind.bind, Except.bind, if_true,
    hc, ht]
  rfl

theorem clearLoop_shrink {f : Nat} {mem : Nat → Mem} {junk : Nat → Ptr} (hI : I < b.length)
    (hL : L ≤ b.length) (hv : Vacant b (b.length - I) L) (hm : mem 0 = some junk) :
    clearLoop (f + 1) mem (table b L I) =
      clearLoop f (fun k => mem (k + 1)) (table (b.take (b.length - I)) L I) := by
  have hc : (table b L I).capacity ≠ (table b L I).increment := by
    simp only [table]; omega
  have hr : (table b L I).realloc (-(table b L I).increment) (some junk) =
      some (table (b.take (b.length - I)) L I) := by
    rw [← resize_shrink junk (Nat.sub_le _ _)]
    exact realloc_table junk (by simp only [table]; omega)
  have hs := canShrink_table hI.le hL
  simp only [clearLoop, hs, hv, decide_true, Bind.bind, Except.bind, if_true,
    hc, if_false, hm, hr]

theorem clearLoop_out {f : Nat} {mem : Nat → Mem} (hI : I ≤ b.length)
    (hL : b.length < L) : clearLoop (f + 1) mem (table b L I) = .error .bounds := by
  simp [clearLoop, canShrink_table_out hI hL, Bind.bind, Except.bind]

end Fsock.Parr
