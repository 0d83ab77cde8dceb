import Mathlib.Data.Set.Card
import Mathlib.Order.ConditionallyCompleteLattice.Basic
import Mathlib.Order.Lattice.Nat

namespace SlotTable

variable {α : Type}

abbrev Table (α : Type) := ℕ → Option α

def holds (t : Table α) : Set ℕ := {i | t i ≠ none}

noncomputable def free (t : Table α) : ℕ := sInf {i | t i = none}

noncomputable def card (t : Table α) : ℕ := (holds t).ncard

noncomputable def put (t : Table α) (a : α) : Table α := Function.update t (free t) (some a)

def drop (t : Table α) (i : ℕ) : Table α := Function.update t i none

def ofList (xs : List (Option α)) : Table α := fun i => xs[i]?.join

@[simp] theorem ofList_nil : ofList ([] : List (Option α)) = fun _ => none := by
  funext i; simp [ofList]

theorem ofList_eq_none_of_le {xs : List (Option α)} {i : ℕ} (h : xs.length ≤ i) :
    ofList xs i = none := by simp [ofList, List.getElem?_eq_none h]

theorem ofList_getElem {xs : List (Option α)} {i : ℕ} (h : i < xs.length) :
    ofList xs i = xs[i] := by simp [ofList, List.getElem?_eq_getElem h]

theorem ofList_set {xs : List (Option α)} {i : ℕ} (v : Option α) (h : i < xs.length) :
    ofList (xs.set i v) = Function.update (ofList xs) i v := by
  funext j
  by_cases hj : j = i
  · subst hj; simp [ofList, h]
  · simp [ofList, Function.update_of_ne hj, List.getElem?_set_ne (Ne.symm hj)]

theorem ofList_snoc (xs : List (Option α)) (v : Option α) :
    ofList (xs ++ [v]) = Function.update (ofList xs) xs.length v := by
  funext j
  by_cases hj : j = xs.length
  · subst hj; simp [ofList]
  · rw [Function.update_of_ne hj]
    rcases Nat.lt_or_gt_of_ne hj with h | h
    · simp [ofList, List.getElem?_append_left h]
    · rw [ofList_eq_none_of_le h.le, ofList_eq_none_of_le (by simp; omega)]

theorem ofList_snoc_none (xs : List (Option α)) : ofList (xs ++ [none]) = ofList xs := by
  rw [ofList_snoc, Function.update_eq_self_iff.mpr]
  exact (ofList_eq_none_of_le le_rfl).symm

theorem findIdx_isNone_le (xs : List (Option α)) : xs.findIdx Option.isNone ≤ xs.length :=
  List.findIdx_le_length

theorem free_ofList (xs : List (Option α)) : free (ofList xs) = xs.findIdx Option.isNone := by
  have hmem : ofList xs (xs.findIdx Option.isNone) = none := by
    by_cases h : xs.findIdx Option.isNone < xs.length
    · rw [ofList_getElem h]
      simpa using List.findIdx_getElem (w := h)
    · exact ofList_eq_none_of_le (by omega)
  refine le_antisymm (Nat.sInf_le hmem) (le_csInf ⟨_, hmem⟩ ?_)
  intro i hi
  by_contra hlt
  have hlt : i < xs.findIdx Option.isNone := by omega
  have hlen : i < xs.length := lt_of_lt_of_le hlt (findIdx_isNone_le xs)
  have hn := List.not_of_lt_findIdx hlt
  change ofList xs i = none at hi
  rw [ofList_getElem hlen] at hi
  simp [hi] at hn

theorem holds_update_some {t : Table α} {i : ℕ} (a : α) :
    holds (Function.update t i (some a)) = insert i (holds t) := by
  ext j
  by_cases hj : j = i
  · subst hj; simp [holds]
  · simp [holds, hj]

theorem holds_ofList_subset (xs : List (Option α)) : holds (ofList xs) ⊆ Set.Iio xs.length := by
  intro i hi
  by_contra h
  exact hi (ofList_eq_none_of_le (by simpa using h))

theorem holds_ofList_finite (xs : List (Option α)) : (holds (ofList xs)).Finite :=
  (Set.finite_Iio _).subset (holds_ofList_subset xs)

theorem card_ofList (xs : List (Option α)) : card (ofList xs) = xs.countP Option.isSome := by
  induction xs using List.reverseRecOn with
  | nil => simp [card, holds]
  | append_singleton xs v ih =>
    cases v with
    | none => simp [ofList_snoc_none, ih, List.countP_append]
    | some a =>
      have hn : xs.length ∉ holds (ofList xs) := by
        simp [holds, ofList_eq_none_of_le le_rfl]
      rw [ofList_snoc, card, holds_update_some, Set.ncard_insert_of_notMem hn (holds_ofList_finite xs)]
      change card (ofList xs) + 1 = _
      simp [ih, List.countP_append]

theorem card_ofList_eq_zero {xs : List (Option α)} :
    card (ofList xs) = 0 ↔ ofList xs = fun _ => none := by
  rw [card, Set.ncard_eq_zero (holds_ofList_finite xs), Set.eq_empty_iff_forall_notMem, funext_iff]
  exact forall_congr' fun i => not_not

def fill : List (Option α) → α → List (Option α)
  | [], a => [some a]
  | none :: xs, a => some a :: xs
  | some x :: xs, a => some x :: fill xs a

theorem fill_eq (xs : List (Option α)) (a : α) : fill xs a =
    if xs.findIdx Option.isNone < xs.length then xs.set (xs.findIdx Option.isNone) (some a)
    else xs ++ [some a] := by
  induction xs with
  | nil => rfl
  | cons x xs ih =>
    cases x with
    | none => simp [fill, List.findIdx_cons]
    | some x =>
      simp only [fill, ih, List.findIdx_cons, Option.isNone_some, cond_false, List.length_cons,
        Nat.add_lt_add_iff_right]
      split <;> simp

theorem put_ofList (xs : List (Option α)) (a : α) : put (ofList xs) a = ofList (fill xs a) := by
  have hle := findIdx_isNone_le xs
  rw [put, free_ofList, fill_eq]
  split
  · rw [ofList_set _ ‹_›]
  · rw [ofList_snoc, show xs.findIdx Option.isNone = xs.length by omega]

theorem drop_ofList (xs : List (Option α)) (i : ℕ) : drop (ofList xs) i = ofList (xs.set i none) := by
  by_cases h : i < xs.length
  · rw [drop, ofList_set none h]
  · rw [List.set_eq_of_length_le (by omega), drop, Function.update_eq_self_iff]
    exact (ofList_eq_none_of_le (by omega)).symm

end SlotTable
