import Fsock.Utils.ParrSpec
import Fsock.Utils.ParrIter

namespace Fsock.Parr

inductive Filled (I : Nat) : Parr → List Nat → Prop
  | fresh : Filled I (init I) []
  | block {b : List Ptr} {ns : List Nat} (hn : ns ≠ []) (hb : ns.length < b.length)
      (ht : b.take ns.length = ns.map .obj) : Filled I (table b ns.length I) ns

variable {I : Nat} {arr : Parr} {ns : List Nat} {b : List Ptr}

theorem hole_objs (ns : List Nat) : hole (ns.map Ptr.obj) = ns.length := by
  have h : Ptr.empty ∉ ns.map Ptr.obj := by simp
  rw [hole_eq_length.mpr h, List.length_map]

theorem take_push {p : Ptr} (hb : ns.length < b.length) (ht : b.take ns.length = ns.map .obj) :
    (b.set ns.length p).take (ns.length + 1) = ns.map .obj ++ [p] := by
  rw [List.take_add_one, List.take_set_of_le (le_refl _), ht]
  simp [hb]

theorem filled_push {n : Nat} (hb : ns.length + 1 < b.length)
    (ht : b.take ns.length = ns.map .obj) :
    Filled I (table (b.set ns.length (.obj n)) (ns.length + 1) I) (ns ++ [n]) := by
  have hlen : (ns ++ [n]).length = ns.length + 1 := by simp
  rw [← hlen]
  refine .block (by simp) (by simpa using hb) ?_
  rw [hlen, take_push (by omega) ht, List.map_append]
  rfl

theorem insert_filled (hI : 1 < I) (h : Filled I arr ns) (n : Nat) (junk : Nat → Ptr) :
    ∃ arr', arr.insert (.obj n) (some junk) = .ok (arr', ns.length) ∧ Filled I arr' (ns ++ [n]) := by
  cases h with
  | fresh =>
    obtain ⟨tail, hl, hs⟩ := insert_init (.obj n) junk (show 0 < I by omega)
    have hb : ([] : List Nat).length + 1 < tail.length := by
      rw [hl]
      exact hI
    exact ⟨_, hs, filled_push hb rfl⟩
  | @block b _ hn hb ht =>
    have hh : hole (b.take ns.length) = ns.length := by rw [ht, hole_objs]
    rcases Nat.lt_or_ge (ns.length + 1) b.length with hlt | hge
    · refine ⟨_, ?_, filled_push hlt ht⟩
      rw [insert_room hlt, hh]
    · obtain ⟨tail, hl, hs⟩ := insert_grow (I := I) (.obj n) junk (show ns.length + 1 = b.length by omega)
      rw [hh] at hs
      refine ⟨_, hs, filled_push ?_ ?_⟩
      · rw [List.length_append]
        omega
      · rw [List.take_append_of_le_length (by omega), ht]

theorem load_filled (h : Filled I arr ns) {i : Nat} (hi : i < ns.length) :
    arr.load i = .ok (.obj ns[i]) := by
  cases h with
  | fresh => cases hi
  | @block b _ hn hb ht =>
    rw [load_table (by omega)]
    have hget : (b.take ns.length)[i]? = (ns.map Ptr.obj)[i]? := by rw [ht]
    rw [List.getElem?_take_of_lt hi, List.getElem?_map, List.getElem?_eq_getElem hi,
      List.getElem?_eq_getElem (by omega)] at hget
    exact congrArg _ (Option.some_inj.mp hget)

theorem last_filled (h : Filled I arr ns) : arr.last = ns.length := by
  cases h with
  | fresh => rfl
  | block => rfl

theorem load_range {n i : Nat} (h : Filled I arr (List.range n)) (hi : i < n) :
    arr.load i = .ok (.obj i) := by
  have hl : i < (List.range n).length := by rwa [List.length_range]
  rw [load_filled h hl, List.getElem_range]

theorem last_range {n : Nat} (h : Filled I arr (List.range n)) : arr.last = n := by
  rw [last_filled h, List.length_range]

theorem visits_filled (h : Filled I arr ns) : ∃ vs, arr.visits = .ok vs ∧
    vs.map Prod.snd = (List.range ns.length).map fun j : Nat => (j : Int) := by
  cases h with
  | fresh => exact ⟨[], visits_init I, rfl⟩
  | @block b _ hn hb ht =>
    have hnull : Ptr.null ∉ b.take ns.length := by simp [ht]
    refine ⟨_, visits_table (List.length_pos_iff.mpr hn) (by omega) hnull, ?_⟩
    have hlive : ∀ j ∈ List.range ns.length, live b j = some (.obj (ns[j]?.getD 0), (j : Int)) := by
      intro j hj
      have hj : j < ns.length := List.mem_range.mp hj
      have hget : b[j]? = (ns.map Ptr.obj)[j]? := by rw [← ht, List.getElem?_take_of_lt hj]
      rw [List.getElem?_map, List.getElem?_eq_getElem hj] at hget
      simp only [live, hget, Option.map_some, List.getElem?_eq_getElem hj, Option.getD_some]
    rw [List.filterMap_congr hlive, List.filterMap_eq_map', List.map_map]
    rfl

end Fsock.Parr
