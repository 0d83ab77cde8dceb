import Fsock.Lib.Run
import Fsock.Utils.ParrSpec

namespace Fsock.Parr

open SlotTable Transition

inductive Formed (I : Nat) : Parr → Prop
  | fresh : Formed I (init I)
  | block {b L} : Fits b L I → Formed I (table b L I)

inductive Op where
  | insert (elem : Ptr) (mem : Mem)
  | clear (index : Nat) (mem : Nat → Mem)

structure Shadow where
  arr : Parr
  tab : Table Ptr
  ret : Int
  want : Int
  fault : Bool

namespace Shadow

noncomputable def step (s : Shadow) : Op → Option Shadow
  | .insert elem mem =>
    if s.fault then none else
    match s.arr.insert elem mem with
    | .error _ => some { s with fault := true }
    | .ok (arr, ret) =>
      if s.arr.growing ∧ mem.isNone then some { s with arr := arr, ret := ret, want := -1 }
      else some { s with arr := arr, tab := put s.tab elem, ret := ret, want := free s.tab }
  | .clear index mem =>
    if s.fault then none else
    match s.arr.clear index mem with
    | .error _ => some { s with fault := true }
    | .ok (arr, ret) => some { s with arr := arr, tab := drop s.tab index, ret := ret, want := 0 }

def start (increment : Nat) : Shadow := ⟨Parr.init increment, fun _ => none, 0, 0, false⟩

def Allowed (s : Shadow) : Op → Prop
  | .insert elem _ => elem ≠ .empty
  | .clear index mem => s.tab index ≠ none ∧ ∀ k, (mem k).isSome

structure Represents (s : Shadow) : Prop where
  sane : s.fault = false
  ret : s.ret = s.want
  view : s.arr.view = s.tab
  size : s.arr.size = .ok (card s.tab)
  empty : s.arr.empty = .ok (decide (card s.tab = 0))
  refuse : s.arr.growing → ∀ elem, s.arr.insert elem none = .ok (s.arr, -1)

def Sound (s : Shadow) : Op → Prop
  | .insert _ mem => (s.arr.capacity = 0 ∨ s.arr.last < s.arr.capacity) ∧
      (s.arr.growing ∧ mem.isNone ∨ .empty ∉ s.arr.used ∨ s.arr.load s.arr.last = .ok .empty)
  | .clear index _ => top s.arr.last.toNat s.arr.increment.toNat = 0 ∨
      ∃ j, j ≠ index ∧ top s.arr.last.toNat s.arr.increment.toNat ≤ j ∧ s.arr.view j ≠ none

structure Inv (I : Nat) (s : Shadow) : Prop where
  increment_pos : 0 < I
  formed : Formed I s.arr
  sane : s.fault = false
  ret : s.ret = s.want
  view : s.arr.view = s.tab

end Shadow

variable {b : List Ptr} {L I i : Nat}

theorem view_table_ne (hL : L ≤ b.length) {j : Nat} :
    (table b L I).view j ≠ none ↔ j < L ∧ b[j]? ≠ some .empty := by
  by_cases hj : j < L
  · have hb : j < b.length := by omega
    simp [view, ofList, hj, hb, toSlot_eq_none]
  · simp [view, ofList, hj]

theorem not_vacant_set (hL : L ≤ b.length) (hi : i < L) {lo : Nat} :
    ¬ Vacant (b.set i .empty) lo L ↔ ∃ j, j ≠ i ∧ lo ≤ j ∧ (table b L I).view j ≠ none := by
  simp only [view_table_ne hL, Vacant, not_forall]
  constructor
  · rintro ⟨j, hj, hlo, hb⟩
    have hji : j ≠ i := by rintro rfl; simp [show j < b.length by omega] at hb
    exact ⟨j, hji, hlo, hj, by simpa [List.getElem?_set_ne (Ne.symm hji)] using hb⟩
  · rintro ⟨j, hji, hlo, hj, hb⟩
    exact ⟨j, hj, hlo, by simpa [List.getElem?_set_ne (Ne.symm hji)] using hb⟩

theorem view_vacant (hv : Vacant b 0 L) : (table b L I).view = fun _ => none := by
  funext j
  by_cases hj : j < L
  · simp [view, ofList, hj, hv j hj (Nat.zero_le j), toSlot]
  · simp [view, ofList, hj]

theorem view_set_empty (hi : i < L) (hL : L ≤ b.length) :
    (table (b.set i .empty) L I).view = drop (table b L I).view i := by
  have hlen : i < ((b.take L).map toSlot).length := by simp; omega
  rw [view, used_table, List.take_set, List.map_set]
  exact ofList_set none hlen

theorem view_take : (table (b.take L) L I).view = (table b L I).view := by
  simp [view, List.take_take]

theorem Formed.size_eq {self : Parr} (h : Formed I self) : self.size = .ok (card self.view : Int) := by
  cases h with
  | fresh => rw [card_view]; rfl
  | block hf =>
    rw [card_view]
    have hp := hf.last_pos
    exact size_table hf.high (by rintro rfl; have := hf.high; simp at this; omega)

theorem Formed.empty_eq {self : Parr} (h : Formed I self) :
    self.empty = .ok (decide (card self.view = 0)) := by
  cases h with
  | fresh => rw [card_view]; rfl
  | block hf =>
    rw [card_view, empty_table hf.high, used_table]
    congr 1
    rw [Bool.eq_iff_iff]
    simp

theorem Formed.refuse {self : Parr} (h : Formed I self) (hg : self.growing) (elem : Ptr) :
    self.insert elem none = .ok (self, -1) := by
  cases h with
  | fresh => exact insert_init_fail
  | block hf =>
    have hb : 0 < _ := Nat.lt_of_lt_of_le hf.last_pos hf.high
    exact insert_grow_fail ((growing_table hb).mp hg)

theorem Shadow.Inv.represents {s : Shadow} (h : s.Inv I) : s.Represents := by
  refine ⟨h.sane, h.ret, h.view, ?_, ?_, h.formed.refuse⟩
  · rw [← h.view]; exact h.formed.size_eq
  · rw [← h.view]; exact h.formed.empty_eq

theorem take_succ_set {r : Nat} (p : Ptr) (tail : List Ptr) (hL : L < b.length) :
    ((b ++ tail).set r p).take (L + 1) = (b.take L ++ [b[L]]).set r p := by
  rw [List.take_set, List.take_append_of_le_length (by omega), List.take_succ_eq_append_getElem hL]

theorem view_insert_end {p : Ptr} (tail : List Ptr) (hp : p ≠ .empty) (hL : L < b.length)
    (hh : .empty ∉ b.take L) :
    (table ((b ++ tail).set (hole (b.take L)) p) (L + 1) I).view = put (table b L I).view p := by
  have hr : hole (b.take L) = L := by
    rw [hole_eq_length.mpr hh, List.length_take]; omega
  have hset : (b.take L ++ [b[L]]).set L p = b.take L ++ [p] := by
    rw [List.set_append_right _ _ (by simp)]
    simp [show L - min L b.length = 0 by omega]
  rw [put, free_view, used_table, hr, view, used_table, take_succ_set p tail hL, hset,
    List.map_append, List.map_singleton, toSlot_of_ne hp, ofList_snoc]
  congr 1
  simp; omega

theorem set_hole {r : Nat} {p : Ptr} (hL : L < b.length) (hr : r < L) :
    (b.take L ++ [b[L]]).set r p = (b.take L).set r p ++ [b[L]] :=
  List.set_append_left _ _ (by simp; omega)

theorem hole_lt (hL : L ≤ b.length) (hh : .empty ∈ b.take L) : hole (b.take L) < L := by
  have hle := hole_le (b.take L)
  have hne : hole (b.take L) ≠ (b.take L).length := fun h => hole_eq_length.mp h hh
  simp only [List.length_take] at hle hne
  omega

theorem view_insert_hole {p : Ptr} (tail : List Ptr) (hp : p ≠ .empty) (hL : L < b.length)
    (hh : .empty ∈ b.take L) (he : b[L] = .empty) :
    (table ((b ++ tail).set (hole (b.take L)) p) (L + 1) I).view = put (table b L I).view p := by
  have hr := hole_lt hL.le hh
  rw [put, free_view, used_table, view, used_table, take_succ_set p tail hL, set_hole hL hr,
    List.map_append, List.map_singleton, he, List.map_set, toSlot_of_ne hp]
  change ofList (_ ++ [none]) = _
  rw [ofList_snoc_none, ofList_set _ (by simp; omega)]
  rfl

theorem view_insert_junk {p : Ptr} (tail : List Ptr) (hL : L < b.length)
    (hh : .empty ∈ b.take L) (he : b[L] ≠ .empty) :
    (table ((b ++ tail).set (hole (b.take L)) p) (L + 1) I).view ≠ put (table b L I).view p := by
  have hr := hole_lt hL.le hh
  intro heq
  have hl := congrFun heq L
  have hfree : L ≠ free (table b L I).view := by rw [free_view, used_table]; omega
  have hnone : (table b L I).view L = none := ofList_eq_none_of_le (by simp)
  rw [put, Function.update_of_ne hfree, hnone, view, used_table, take_succ_set p tail hL,
    set_hole hL hr, List.map_append, List.map_singleton, ofList_snoc, List.length_map,
    List.length_set, List.length_take, Nat.min_eq_left hL.le, Function.update_self,
    toSlot_eq_none] at hl
  exact he hl

theorem Fits.insert {r : Nat} {p : Ptr} (tail : List Ptr) (h : Fits b L I) (hL : L < b.length)
    (ht : tail.length = if L + 1 = b.length then I else 0) :
    Fits ((b ++ tail).set r p) (L + 1) I := by
  apply Fits.set
  obtain ⟨h1, h2, h3, h4, h5⟩ := h
  refine ⟨h1, ?_, by omega, ?_, ?_⟩ <;> rw [List.length_append, ht] <;> split
  · exact Nat.dvd_add h2 (Nat.dvd_refl I)
  · simpa using h2
  all_goals omega

theorem insert_spec (p : Ptr) (mem : Mem) (hL : L < b.length) :
    (L + 1 = b.length ∧ mem.isNone ∧ (table b L I).insert p mem = .ok (table b L I, -1)) ∨
    (¬ (L + 1 = b.length ∧ mem.isNone) ∧ ∃ tail : List Ptr,
      tail.length = (if L + 1 = b.length then I else 0) ∧ (table b L I).insert p mem =
        .ok (table ((b ++ tail).set (hole (b.take L)) p) (L + 1) I, hole (b.take L))) := by
  by_cases hg : L + 1 = b.length
  · cases mem with
    | none => exact .inl ⟨hg, rfl, insert_grow_fail hg⟩
    | some junk =>
      obtain ⟨tail, ht, hi⟩ := insert_grow (I := I) p junk hg
      exact .inr ⟨by simp, tail, by rw [if_pos hg, ht], hi⟩
  · refine .inr ⟨fun hc => hg hc.1, [], by rw [if_neg hg, List.length_nil], ?_⟩
    rw [List.append_nil]
    exact insert_room (by omega)

theorem clear_spec {mem : Nat → Mem} (h : Fits b L I) (hi : i < L) (hm : ∀ k, (mem k).isSome) :
    (¬ Vacant (b.set i .empty) (top L I) L ∧ ∃ c, Fits c L I ∧
      c.length = (if b.length = L + I then L else b.length) ∧
      (table c L I).view = drop (table b L I).view i ∧
      (table b L I).clear i mem = .ok (table c L I, 0)) ∨
    (top L I = 0 ∧ Vacant (b.set i .empty) 0 L ∧
      (table b L I).clear i mem = .ok (init I, 0)) ∨
    (top L I ≠ 0 ∧ Vacant (b.set i .empty) (top L I) L ∧
      (table b L I).clear i mem = .error .bounds) := by
  have hs : Fits (b.set i .empty) L I := h.set .empty
  have hp := h.last_pos
  have hC : 0 < b.length := Nat.lt_of_lt_of_le hp h.high
  obtain ⟨f, hf⟩ : ∃ f, b.length + 1 = f + 2 := ⟨b.length - 1, by omega⟩
  rw [clear_table hi h.high]
  by_cases hv : Vacant (b.set i .empty) (top L I) L
  · by_cases ht : top L I = 0
    · rw [ht] at hv
      exact .inr (.inl ⟨ht, hv, by rw [hf]; exact clearLoop_spec_reset hs hm ht hv⟩)
    · refine .inr (.inr ⟨ht, hv, ?_⟩)
      have htop : top L I ≤ L - 1 := Nat.div_mul_le_self _ _
      have hI := h.increment_pos
      have hlen := h.high
      obtain ⟨g, hg⟩ : ∃ g, b.length + 1 = g + 3 := ⟨b.length - 2, by omega⟩
      rw [hg]
      exact clearLoop_spec_out hs hm ht hv
  · refine .inl ⟨hv, _, ?_, ?_, ?_, by rw [hf]; exact clearLoop_spec_keep hs hm hv⟩
    · split
      · exact hs.take ‹_›
      · exact hs
    · rw [List.length_set]
      split
      · simp [*]
      · simp
    · rw [← view_set_empty hi h.high]
      split
      · exact view_take
      · rfl

theorem mem_used_table (hL : L < b.length) :
    (.empty ∉ (table b L I).used ∨ (table b L I).load (table b L I).last = .ok .empty) ↔
      (.empty ∉ b.take L ∨ b[L] = .empty) := by
  rw [used_table, show (table b L I).last = (L : Int) from rfl, load_table hL, Except.ok.injEq]

namespace Shadow

variable {s s' : Shadow}

theorem step_insert (hf : s.fault = false) {p : Ptr} {mem : Mem} :
    s.step (.insert p mem) = match s.arr.insert p mem with
      | .error _ => some { s with fault := true }
      | .ok (arr, ret) =>
        if s.arr.growing ∧ mem.isNone then some { s with arr := arr, ret := ret, want := -1 }
        else some { s with arr := arr, tab := put s.tab p, ret := ret, want := free s.tab } := by
  simp [step, hf]

theorem step_clear (hf : s.fault = false) {mem : Nat → Mem} :
    s.step (.clear i mem) = match s.arr.clear i mem with
      | .error _ => some { s with fault := true }
      | .ok (arr, ret) =>
        some { s with arr := arr, tab := drop s.tab i, ret := ret, want := 0 } := by
  simp [step, hf]

theorem insert_fresh {p : Ptr} {mem : Mem} (h : s.Inv I) (ha : s.arr = Parr.init I)
    (hp : p ≠ .empty) (ht : s.step (.insert p mem) = some s') : s'.Inv I := by
  obtain ⟨arr, tab, ret, want, fault⟩ := s
  obtain ⟨hI, hform, hsane, hret, hview⟩ := h
  dsimp only at ha hsane hview
  subst ha hsane hview
  rw [step_insert rfl] at ht
  cases mem with
  | none =>
    rw [insert_init_fail] at ht
    simp only [show (Parr.init (I : Int)).growing from .inl rfl, Option.isNone_none, and_self, if_true,
      Option.some.injEq] at ht
    subst ht
    exact ⟨hI, .fresh, rfl, rfl, rfl⟩
  | some junk =>
    obtain ⟨tail, hl, hi⟩ := insert_init p junk hI
    rw [hi] at ht
    simp only [Option.isNone_some, Bool.false_eq_true, and_false, if_false, Option.some.injEq] at ht
    subst ht
    have hcons : ∃ x xs, tail = x :: xs := List.exists_cons_of_length_pos (by omega)
    obtain ⟨x, xs, rfl⟩ := hcons
    refine ⟨hI, .block ⟨hI, by simp [← hl], by omega, by simp [← hl], by simp⟩, rfl, ?_, ?_⟩
    · rw [free_view]; rfl
    · rw [put, free_view]
      change ofList [toSlot p] = Function.update (Parr.init I).view 0 (some p)
      rw [toSlot_of_ne hp, view_init, ← ofList_nil]
      exact ofList_snoc [] (some p)

theorem insert_block {p : Ptr} {mem : Mem} (h : s.Inv I) {b : List Ptr} {L : Nat}
    (hf : Fits b L I) (ha : s.arr = table b L I) (hp : p ≠ .empty)
    (ht : s.step (.insert p mem) = some s') :
    (s.Sound (.insert p mem) → s'.Inv I) ∧ (¬ s.Sound (.insert p mem) → ¬ s'.Represents) := by
  obtain ⟨arr, tab, ret, want, fault⟩ := s
  obtain ⟨hI, hform, hsane, hret, hview⟩ := h
  dsimp only at ha hsane hview
  subst ha hsane hview
  have hp0 := hf.last_pos
  have hhi := hf.high
  have hb : 0 < b.length := by omega
  rw [step_insert rfl] at ht
  by_cases hL : L < b.length
  · have hroom : (table b L I).capacity = 0 ∨ (table b L I).last < (table b L I).capacity := by
      simp only [table]; omega
    simp only [Sound, hroom, true_and, growing_table hb, mem_used_table hL]
    rcases insert_spec (I := I) p mem hL with ⟨hg, hm, hi⟩ | ⟨hng, tail, hl, hi⟩
    · simp only [hi, growing_table hb, hg, hm, and_self, if_true, Option.some.injEq] at ht
      subst ht
      exact ⟨fun _ => ⟨hI, .block hf, rfl, rfl, rfl⟩, fun hn => absurd (.inl ⟨hg, hm⟩) hn⟩
    · simp only [hi, growing_table hb, hng, if_false, Option.some.injEq] at ht
      subst ht
      simp only [hng, false_or]
      refine ⟨fun hs => ⟨hI, .block (hf.insert tail hL hl), rfl, ?_, ?_⟩, fun hn hr => ?_⟩
      · rw [free_view]; rfl
      · by_cases hh : .empty ∈ b.take L
        · exact view_insert_hole tail hp hL hh (hs.resolve_left (not_not.mpr hh))
        · exact view_insert_end tail hp hL hh
      · obtain ⟨hh, he⟩ := not_or.mp hn
        exact view_insert_junk tail hL (not_not.mp hh) he hr.view
  · rw [insert_full hb (by omega)] at ht
    simp only [Option.some.injEq] at ht
    subst ht
    have hfull : ¬ ((table b L I).capacity = 0 ∨ (table b L I).last < (table b L I).capacity) := by
      simp only [table]; omega
    exact ⟨fun hs => absurd hs.1 hfull, fun _ hr => by simpa using hr.sane⟩

theorem clear_block {mem : Nat → Mem} (h : s.Inv I) {b : List Ptr} {L : Nat}
    (hf : Fits b L I) (ha : s.arr = table b L I) (hal : s.Allowed (.clear i mem))
    (ht : s.step (.clear i mem) = some s') :
    (s.Sound (.clear i mem) → s'.Inv I) ∧ (¬ s.Sound (.clear i mem) → ¬ s'.Represents) := by
  obtain ⟨arr, tab, ret, want, fault⟩ := s
  obtain ⟨hI, hform, hsane, hret, hview⟩ := h
  dsimp only at ha hsane hview
  subst ha hsane hview
  obtain ⟨hi, hm⟩ := hal
  have hiL := ((view_table_ne hf.high).mp hi).1
  rw [step_clear rfl] at ht
  have hsound : Sound ⟨table b L I, (table b L I).view, ret, want, false⟩ (.clear i mem) ↔
      (top L I = 0 ∨ ¬ Vacant (b.set i .empty) (top L I) L) := by
    rw [not_vacant_set hf.high hiL (I := I)]; rfl
  rw [hsound]
  rcases clear_spec hf hiL hm with ⟨hv, c, hc, -, hview, he⟩ | ⟨htop, hv, he⟩ | ⟨htop, hv, he⟩ <;>
    simp only [he, Option.some.injEq] at ht <;> subst ht
  · exact ⟨fun _ => ⟨hI, .block hc, rfl, rfl, hview⟩, fun hn => absurd (.inr hv) hn⟩
  · refine ⟨fun _ => ⟨hI, .fresh, rfl, rfl, ?_⟩, fun hn => absurd (.inl htop) hn⟩
    rw [← view_set_empty hiL hf.high, view_vacant hv, view_init]
  · exact ⟨fun hs => absurd hv (hs.resolve_left htop), fun _ hr => by simpa using hr.sane⟩

theorem sound_step {op : Op} (h : s.Inv I) (hal : s.Allowed op) (ht : s.step op = some s') :
    (s.Sound op → s'.Inv I) ∧ (¬ s.Sound op → ¬ s'.Represents) := by
  obtain ⟨arr, hform⟩ : ∃ arr, s.arr = arr := ⟨_, rfl⟩
  have hf := h.formed
  rw [hform] at hf
  cases hf with
  | fresh =>
    cases op with
    | insert p mem =>
      refine ⟨fun _ => insert_fresh h hform hal ht, fun hn => absurd ?_ hn⟩
      rw [Sound, hform]
      exact ⟨.inl rfl, .inr (.inl (by simp))⟩
    | clear i mem =>
      have hi := hal.1
      rw [← h.view, hform, view_init] at hi
      exact absurd rfl hi
  | block hf =>
    cases op with
    | insert p mem => exact insert_block h hf hform hal ht
    | clear i mem => exact clear_block h hf hform hal ht

end Shadow

theorem lowest_free_table (I : Nat) (hI : 0 < I) (tr : List (Shadow × Op)) (s : Shadow)
    (h : Run Shadow.step (Shadow.start I) tr s) (ha : Steps Shadow.Allowed tr) :
    Steps Shadow.Sound tr ↔ Visits Shadow.Represents tr s := by
  have h0 : (Shadow.start I).Inv I := ⟨hI, .fresh, rfl, rfl, view_init I⟩
  exact Run.exact h0 (fun s hs => hs.represents)
    (fun s l s' hi hal hc ht => (Shadow.sound_step hi hal ht).1 hc)
    (fun s l s' hi hal hc ht => (Shadow.sound_step hi hal ht).2 hc) h ha

namespace Shadow

def filled (q : Ptr) : Mem := some fun _ => q

def junk : Mem := filled (.obj 99)

def granted : Nat → Mem := fun _ => junk

def one (q : Ptr) : Shadow :=
  ⟨table (.obj 1 :: List.replicate 9 q) 1 10, ofList [some (.obj 1)], 0, 0, false⟩

def two (q : Ptr) : Shadow :=
  ⟨table ([.obj 1, .obj 2] ++ List.replicate 8 q) 2 10,
    ofList [some (.obj 1), some (.obj 2)], 1, 1, false⟩

def cleared (q : Ptr) : Shadow :=
  ⟨table ([.empty, .obj 2] ++ List.replicate 8 q) 2 10, ofList [none, some (.obj 2)], 0, 0, false⟩

def reused (q : Ptr) : Shadow :=
  ⟨table ([.obj 3, .obj 2] ++ List.replicate 8 q) 3 10,
    ofList [some (.obj 3), some (.obj 2)], 0, 0, false⟩

theorem step_one (q : Ptr) : (start 10).step (.insert (.obj 1) (filled q)) = some (one q) := by
  have hf : free (ofList ([] : List (Option Ptr))) = 0 := free_ofList []
  have hp := put_ofList [] (Ptr.obj 1)
  simp only [ofList_nil] at hf hp
  simp only [start, step, hf, hp, Bool.false_eq_true, if_false]
  rfl

theorem step_two (q : Ptr) : (one q).step (.insert (.obj 2) (filled q)) = some (two q) := by
  have hf : free (ofList [some (Ptr.obj 1)]) = 1 := free_ofList _
  simp only [one, step, hf, put_ofList, Bool.false_eq_true, if_false]
  rfl

theorem step_cleared (q : Ptr) : (two q).step (.clear 0 fun _ => filled q) = some (cleared q) := by
  simp only [two, step, drop_ofList, Bool.false_eq_true, if_false]
  rfl

theorem step_reused (q : Ptr) :
    (cleared q).step (.insert (.obj 3) (filled q)) = some (reused q) := by
  have hf : free (ofList [none, some (Ptr.obj 2)]) = 0 := free_ofList _
  simp only [cleared, step, hf, put_ofList, Bool.false_eq_true, if_false]
  rfl

def churn (q : Ptr) : List (Shadow × Op) :=
  [(start 10, .insert (.obj 1) (filled q)), (one q, .insert (.obj 2) (filled q)),
    (two q, .clear 0 fun _ => filled q), (cleared q, .insert (.obj 3) (filled q))]

theorem run_churn (q : Ptr) : Run step (start 10) (churn q) (reused q) :=
  .cons (step_one q) (.cons (step_two q) (.cons (step_cleared q) (.cons (step_reused q) .nil)))

theorem allowed_churn (q : Ptr) : Steps Allowed (churn q) := by
  simp [Steps, churn, Allowed, two, ofList, filled]

-- the slot that last++ exposes holds FSOCK_PARR_EMPTY
theorem sound_churn : Steps Sound (churn .empty) := by
  intro x hx
  simp only [churn, List.mem_cons, List.not_mem_nil, or_false] at hx
  rcases hx with rfl | rfl | rfl | rfl
  · exact ⟨.inl rfl, .inr (.inl (by decide))⟩
  · exact ⟨.inr (by decide), .inr (.inl (by decide))⟩
  · exact .inl rfl
  · exact ⟨.inr (by decide), .inr (.inr rfl)⟩

end Shadow

theorem lowest_free_table_churn :
    Visits Shadow.Represents (Shadow.churn .empty) (Shadow.reused .empty) :=
  (lowest_free_table 10 (by decide) (Shadow.churn .empty) (Shadow.reused .empty)
    (Shadow.run_churn .empty) (Shadow.allowed_churn .empty)).mp Shadow.sound_churn

theorem reuse_exposes_junk : ∃ tr s, Run Shadow.step (Shadow.start 10) tr s ∧
    Steps Shadow.Allowed tr ∧ s.arr.size = .ok 3 ∧ card s.tab = 2 ∧
    ¬ Visits Shadow.Represents tr s := by
  have hs : (Shadow.reused (.obj 99)).arr.size = .ok 3 := rfl
  have hc : card (Shadow.reused (.obj 99)).tab = 2 := card_ofList _
  refine ⟨_, _, Shadow.run_churn (.obj 99), Shadow.allowed_churn (.obj 99), hs, hc, fun hv => ?_⟩
  have hr := hv.2.size
  rw [hs, hc] at hr
  exact absurd (Except.ok.inj hr) (by decide)

end Fsock.Parr
