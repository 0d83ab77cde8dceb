import Fsock.Utils.ParrRefine

namespace Fsock.Parr

open SlotTable

variable {I L j : Nat} {b : List Ptr} {arr : Parr} {p : Ptr}

theorem view_table (hj : j < L) : (table b L I).view j = b[j]?.bind toSlot := by
  rw [view, used_table, ofList, List.getElem?_map, List.getElem?_take_of_lt hj]
  cases b[j]? <;> rfl

theorem view_table_out (hj : L ≤ j) : (table b L I).view j = none :=
  ofList_eq_none_of_le (by simp; omega)

theorem Formed.load_view (h : Formed I arr) (hv : arr.view j = some p) :
    arr.load j = .ok p ∧ (j : Int) < arr.last := by
  cases h with
  | fresh => simp at hv
  | @block b L hf =>
    rcases Nat.lt_or_ge j L with hj | hj
    · have hb : j < b.length := hj.trans_le hf.high
      rw [view_table hj, List.getElem?_eq_getElem hb, Option.bind_some] at hv
      refine ⟨?_, Int.ofNat_lt.mpr hj⟩
      rw [load_table hb]
      cases hp : b[j] <;> simp [hp, toSlot] at hv ⊢
      all_goals exact hv
    · rw [view_table_out hj] at hv
      cases hv

theorem view_hole (hL : L ≤ b.length) : (table b L I).view (hole (b.take L)) = none := by
  rcases Nat.lt_or_ge (hole (b.take L)) L with hlt | hge
  · have hlen : (b.take L).findIdx (· == .empty) < (b.take L).length := by
      rw [List.length_take, Nat.min_eq_left hL]
      exact hlt
    have he := List.findIdx_getElem (w := hlen)
    rw [List.getElem_take, beq_iff_eq] at he
    rw [view_table hlt, List.getElem?_eq_getElem (hlt.trans_le hL)]
    exact toSlot_eq_none.mpr he
  · exact view_table_out hge

theorem Formed.insert (h : Formed I arr) (hI : 0 < I)
    (hr : arr.capacity = 0 ∨ arr.last < arr.capacity) (hp : p ≠ .empty) (mem : Mem) :
    mem = none ∧ arr.insert p mem = .ok (arr, -1) ∨
    ∃ (arr' : Parr) (r : Nat), arr.insert p mem = .ok (arr', r) ∧ Formed I arr' ∧
      arr.view r = none ∧ arr'.view r = some p ∧ ∀ j, arr.view j ≠ none → arr'.view j = arr.view j := by
  cases h with
  | fresh =>
    cases mem with
    | none => exact .inl ⟨rfl, insert_init_fail⟩
    | some junk =>
      obtain ⟨tail, hl, hi⟩ := insert_init p junk hI
      refine .inr ⟨_, 0, hi, .block ⟨hI, by simp [hl], by omega, by simp [hl], by simp; omega⟩, ?_, ?_, ?_⟩
      · rw [view_init]
      · rw [view_table (by omega), List.getElem?_set_self (by omega)]
        exact toSlot_of_ne hp
      · intro j hj
        rw [view_init] at hj
        exact absurd rfl hj
  | @block b L hf =>
    have hL : L < b.length := by
      have hb := hf.last_pos.trans_le hf.high
      simp only [table] at hr
      omega
    rcases insert_spec (I := I) p mem hL with ⟨-, hm, hi⟩ | ⟨-, tail, hl, hi⟩
    · exact .inl ⟨Option.isNone_iff_eq_none.mp hm, hi⟩
    · have hle : hole (b.take L) ≤ L := (hole_le _).trans (List.length_take_le ..)
      refine .inr ⟨_, _, hi, .block (hf.insert tail hL hl), view_hole hL.le, ?_, ?_⟩
      · have hlen : hole (b.take L) < (b ++ tail).length := by
          rw [List.length_append]
          omega
        rw [view_table (by omega), List.getElem?_set_self hlen]
        exact toSlot_of_ne hp
      · intro j hj
        have hjL : j < L := ((view_table_ne hL.le).mp hj).1
        have hne : hole (b.take L) ≠ j := by
          rintro rfl
          exact hj (view_hole hL.le)
        rw [view_table (by omega), view_table hjL, List.getElem?_set_ne hne,
          List.getElem?_append_left (by omega)]

theorem Formed.clear {i : Nat} {mem : Nat → Mem} (h : Formed I arr) (hv : arr.view i ≠ none)
    (hm : ∀ k, (mem k).isSome)
    (hs : top arr.last.toNat arr.increment.toNat = 0 ∨
      ∃ j, j ≠ i ∧ top arr.last.toNat arr.increment.toNat ≤ j ∧ arr.view j ≠ none) :
    ∃ arr', arr.clear i mem = .ok (arr', 0) ∧ Formed I arr' ∧ arr'.view = drop arr.view i := by
  cases h with
  | fresh => simp at hv
  | @block b L hf =>
    have hi := ((view_table_ne hf.high).mp hv).1
    have hs : top L I = 0 ∨ ¬ Vacant (b.set i .empty) (top L I) L := by
      rw [not_vacant_set hf.high hi (I := I)]
      exact hs
    rcases clear_spec hf hi hm with ⟨-, c, hc, -, hview, he⟩ | ⟨-, hvac, he⟩ | ⟨htop, hvac, -⟩
    · exact ⟨_, he, .block hc, hview⟩
    · refine ⟨_, he, .fresh, ?_⟩
      rw [← view_set_empty hi hf.high, view_vacant hvac, view_init]
    · exact absurd hvac (hs.resolve_left htop)

theorem Formed.size_zero (h : Formed I arr) : arr.size = .ok 0 ↔ arr.view = fun _ => none := by
  rw [h.size_eq, Except.ok.injEq, Int.natCast_eq_zero]
  exact card_ofList_eq_zero

end Fsock.Parr
