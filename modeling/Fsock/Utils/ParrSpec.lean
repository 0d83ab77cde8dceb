import Fsock.Lib.SlotTable
import Fsock.Utils.ParrTable

namespace Fsock.Parr

open SlotTable

def top (L I : Nat) : Nat := (L - 1) / I * I

structure Fits (b : List Ptr) (L I : Nat) : Prop where
  increment_pos : 0 < I
  dvd : I ∣ b.length
  last_pos : 0 < L
  low : b.length ≤ L + I
  high : L ≤ b.length

variable {b : List Ptr} {L I i : Nat}

theorem Fits.set (h : Fits b L I) (p : Ptr) : Fits (b.set i p) L I := by
  obtain ⟨h1, h2, h3, h4, h5⟩ := h
  exact ⟨h1, by simpa using h2, h3, by simpa using h4, by simpa using h5⟩

theorem Fits.increment_le (h : Fits b L I) : I ≤ b.length :=
  Nat.le_of_dvd (by have := h.last_pos; have := h.high; omega) h.dvd

theorem Fits.take (h : Fits b L I) (he : b.length = L + I) : Fits (b.take L) L I := by
  have hl : (b.take L).length = L := by simp [he]
  refine ⟨h.increment_pos, ?_, h.last_pos, by omega, by omega⟩
  rw [hl]
  exact (Nat.dvd_add_left (Nat.dvd_refl I)).mp (he ▸ h.dvd)

theorem Fits.top_grown (h : Fits b L I) (he : b.length = L + I) : top L I = L - I := by
  have h0 := h.increment_pos
  have hp := h.last_pos
  obtain ⟨q, hq⟩ := (h.take he).dvd
  have hl : (b.take L).length = L := by simp [he]
  rw [hl] at hq
  obtain ⟨k, rfl⟩ : ∃ k, q = k + 1 := Nat.exists_eq_succ_of_ne_zero (by rintro rfl; omega)
  have hd : (L - 1) / I = k := by
    apply Nat.div_eq_of_lt_le
    · rw [hq, Nat.mul_comm, Nat.mul_succ]; omega
    · rw [Nat.mul_comm, ← hq]; omega
  rw [top, hd, hq, Nat.mul_succ, Nat.add_sub_cancel, Nat.mul_comm]

theorem Fits.top_inner (h : Fits b L I) (he : b.length ≠ L + I) : top L I = b.length - I := by
  have h0 := h.increment_pos
  have hp := h.last_pos
  have hlo := h.low
  have hhi := h.high
  obtain ⟨q, hq⟩ := h.dvd
  obtain ⟨k, rfl⟩ : ∃ k, q = k + 1 := Nat.exists_eq_succ_of_ne_zero (by rintro rfl; omega)
  rw [Nat.mul_succ] at hq
  have hd : (L - 1) / I = k := by
    apply Nat.div_eq_of_lt_le
    · rw [Nat.mul_comm]; omega
    · rw [Nat.mul_comm, Nat.mul_succ]; omega
  rw [top, hd, hq, Nat.add_sub_cancel, Nat.mul_comm]

theorem vacant_take {lo : Nat} : Vacant (b.take L) lo L ↔ Vacant b lo L := by
  constructor
  · intro hv j hj hl
    simpa [List.getElem?_take, hj] using hv j hj hl
  · intro hv j hj hl
    simpa [List.getElem?_take, hj] using hv j hj hl

theorem vacant_above (h : L ≤ i) : Vacant b i L := fun j hj hi => absurd hj (by omega)

theorem clearLoop_grown {f : Nat} {mem : Nat → Mem} (h : Fits b L I) (he : b.length = L + I)
    (hm : ∀ k, (mem k).isSome) :
    clearLoop (f + 1) mem (table b L I) =
      clearLoop f (fun k => mem (k + 1)) (table (b.take L) L I) := by
  obtain ⟨junk, hj⟩ := Option.isSome_iff_exists.mp (hm 0)
  have hp := h.last_pos
  have hs := clearLoop_shrink (f := f) (b := b) (L := L) (I := I) (by omega) h.high
    (vacant_above (by omega)) hj
  rwa [he, Nat.add_sub_cancel] at hs

theorem clearLoop_spec_keep {f : Nat} {mem : Nat → Mem} (h : Fits b L I)
    (hm : ∀ k, (mem k).isSome) (hv : ¬ Vacant b (top L I) L) :
    clearLoop (f + 2) mem (table b L I) =
      .ok (table (if b.length = L + I then b.take L else b) L I, 0) := by
  by_cases he : b.length = L + I
  · have ht := h.take he
    have hl : (b.take L).length = L := by simp [he]
    rw [clearLoop_grown h he hm, if_pos he]
    apply clearLoop_keep ht.increment_le ht.high
    rwa [hl, ← h.top_grown he, vacant_take]
  · rw [if_neg he]
    apply clearLoop_keep h.increment_le h.high
    rwa [← h.top_inner he]

theorem clearLoop_spec_reset {f : Nat} {mem : Nat → Mem} (h : Fits b L I)
    (hm : ∀ k, (mem k).isSome) (ht : top L I = 0) (hv : Vacant b 0 L) :
    clearLoop (f + 2) mem (table b L I) = .ok (init I, 0) := by
  have hp := h.last_pos
  have hI := h.increment_le
  have h0 := h.increment_pos
  by_cases he : b.length = L + I
  · have hk := h.take he
    have hl : (b.take L).length = L := by simp [he]
    have hLI : L = I := by
      have := h.top_grown he
      have := hk.increment_le
      omega
    rw [clearLoop_grown h he hm]
    apply clearLoop_reset (by omega) (by intro hn; simp [hn] at hl; omega) hk.high
    exact vacant_take.mpr hv
  · have := h.top_inner he
    exact clearLoop_reset (by omega) (by intro hn; simp [hn] at hI; omega) h.high hv

theorem clearLoop_spec_out {f : Nat} {mem : Nat → Mem} (h : Fits b L I)
    (hm : ∀ k, (mem k).isSome) (ht : top L I ≠ 0) (hv : Vacant b (top L I) L) :
    clearLoop (f + 3) mem (table b L I) = .error .bounds := by
  have inner : ∀ {c : List Ptr} {g : Nat} {mem : Nat → Mem}, Fits c L I → c.length ≠ L + I →
      (∀ k, (mem k).isSome) → Vacant c (top L I) L →
      clearLoop (g + 2) mem (table c L I) = .error .bounds := by
    intro c g mem hc he hm hv
    obtain ⟨junk, hj⟩ := Option.isSome_iff_exists.mp (hm 0)
    have htop := hc.top_inner he
    have hlo := hc.low
    have hI := hc.increment_pos
    have hd : I ≤ c.length - I := Nat.le_of_dvd (by omega) (Nat.dvd_sub hc.dvd (Nat.dvd_refl I))
    rw [clearLoop_shrink (by omega) hc.high (htop ▸ hv) hj]
    apply clearLoop_out <;> simp only [List.length_take] <;> omega
  by_cases he : b.length = L + I
  · have hk := h.take he
    have hl : (b.take L).length = L := by simp [he]
    have hI := h.increment_pos
    rw [clearLoop_grown h he hm]
    exact inner hk (by omega) (fun k => hm (k + 1)) (vacant_take.mpr hv)
  · exact inner h he hm hv

theorem clear_table {mem : Nat → Mem} (hi : i < L) (hL : L ≤ b.length) :
    (table b L I).clear i mem =
      clearLoop (b.length + 1) mem (table (b.set i .empty) L I) := by
  have hg : 0 ≤ (i : Int) ∧ (i : Int) < (table b L I).last := by simp only [table]; omega
  have hs := store_table (b := b) (L := L) (I := I) (i := i) .empty (by omega)
  simp only [clear, hg, and_self, not_true, if_false, hs, Bind.bind, Except.bind]
  simp [table]

def used (self : Parr) : List Ptr := (self.elems.getD []).take self.last.toNat

def toSlot : Ptr → Option Ptr
  | .empty => none
  | p => some p

def view (self : Parr) : Table Ptr := ofList (self.used.map toSlot)

def hole (xs : List Ptr) : Nat := xs.findIdx (· == .empty)

theorem toSlot_eq_none {p : Ptr} : toSlot p = none ↔ p = .empty := by cases p <;> simp [toSlot]

theorem toSlot_of_ne {p : Ptr} (h : p ≠ .empty) : toSlot p = some p := by
  cases p <;> simp_all [toSlot]

theorem isNone_toSlot (p : Ptr) : (toSlot p).isNone = (p == .empty) := by cases p <;> rfl

theorem isSome_toSlot (p : Ptr) : (toSlot p).isSome = decide (p ≠ .empty) := by cases p <;> rfl

@[simp] theorem used_init (I : Int) : (init I).used = [] := rfl

@[simp] theorem used_table : (table b L I).used = b.take L := rfl

@[simp] theorem view_init (I : Int) : (init I).view = fun _ => none := by simp [view]

theorem free_view (self : Parr) : free self.view = hole self.used := by
  rw [view, free_ofList, List.findIdx_map]
  exact congrArg (List.findIdx · _) (funext isNone_toSlot)

theorem card_view (self : Parr) : card self.view = self.used.countP (· ≠ .empty) := by
  rw [view, card_ofList, List.countP_map]
  exact congrArg (List.countP · _) (funext isSome_toSlot)

theorem hole_le (xs : List Ptr) : hole xs ≤ xs.length := List.findIdx_le_length

theorem hole_eq_length {xs : List Ptr} : hole xs = xs.length ↔ .empty ∉ xs := by
  rw [hole, List.findIdx_eq_length]
  constructor
  · intro h hm
    simpa using h _ hm
  · intro h x hx
    simpa using fun he : x = .empty => h (he ▸ hx)

theorem insertAt_table {p : Ptr} (hL : L < b.length) :
    (table b L I).insertAt p =
      .ok (table (b.set (hole (b.take L)) p) (L + 1) I, hole (b.take L)) := by
  have hs := insertScan_table (b := b) (L := L) (I := I) (n := L) (r := 0) (by omega)
  have hh : hole (b.take L) ≤ L := by simpa using (hole_le (b.take L)).trans (List.length_take_le ..)
  have ht := store_table (b := b) (L := L) (I := I) p (show hole (b.take L) < b.length by omega)
  simp only [Nat.cast_zero, List.drop_zero, Nat.zero_add] at hs
  rw [insertAt, show (table b L I).last.toNat = L from Int.toNat_natCast L, hs]
  change ((table b L I).store (hole (b.take L) : Nat) p).bind _ = _
  rw [ht]
  rfl

theorem growing_table (hb : 0 < b.length) : (table b L I).growing ↔ L + 1 = b.length := by
  simp only [growing, table]; omega

theorem insert_full {p : Ptr} {mem : Mem} (hb : 0 < b.length) (hL : b.length ≤ L) :
    (table b L I).insert p mem = .error .assertion := by
  have hn : ¬ (0 ≤ (table b L I).last ∧ ((table b L I).capacity = 0 ∨
      (table b L I).last < (table b L I).capacity)) := by simp only [table]; omega
  simp [insert, hn]

theorem insert_room {p : Ptr} {mem : Mem} (hL : L + 1 < b.length) :
    (table b L I).insert p mem =
      .ok (table (b.set (hole (b.take L)) p) (L + 1) I, hole (b.take L)) := by
  have hg : 0 ≤ (table b L I).last ∧ ((table b L I).capacity = 0 ∨
      (table b L I).last < (table b L I).capacity) := by simp only [table]; omega
  have hn : ¬ (table b L I).growing := by rw [growing_table (by omega)]; omega
  rw [insert, if_neg (not_not.mpr hg), if_neg hn, insertAt_table (by omega)]

theorem insert_grow_fail {p : Ptr} (hL : L + 1 = b.length) :
    (table b L I).insert p none = .ok (table b L I, -1) := by
  have hg : 0 ≤ (table b L I).last ∧ ((table b L I).capacity = 0 ∨
      (table b L I).last < (table b L I).capacity) := by simp only [table]; omega
  have hn : (table b L I).growing := by rw [growing_table (by omega)]; omega
  rw [insert, if_neg (not_not.mpr hg), if_pos hn]
  rfl

theorem insert_grow (p : Ptr) (junk : Nat → Ptr) (hL : L + 1 = b.length) :
    ∃ tail, tail.length = I ∧ (table b L I).insert p (some junk) =
      .ok (table ((b ++ tail).set (hole (b.take L)) p) (L + 1) I, hole (b.take L)) := by
  have hg : 0 ≤ (table b L I).last ∧ ((table b L I).capacity = 0 ∨
      (table b L I).last < (table b L I).capacity) := by simp only [table]; omega
  have hn : (table b L I).growing := by rw [growing_table (by omega)]; omega
  obtain ⟨tail, ht, hl⟩ := resize_grow (b := b) (n := b.length + I) junk (by omega)
  have hr : (table b L I).realloc (table b L I).increment (some junk) =
      some (table (b ++ tail) L I) := by
    rw [← ht]
    exact realloc_table junk (by simp [table])
  refine ⟨tail, by omega, ?_⟩
  rw [insert, if_neg (not_not.mpr hg), if_pos hn, hr]
  have htake : (b ++ tail).take L = b.take L := List.take_append_of_le_length (by omega)
  have := insertAt_table (b := b ++ tail) (L := L) (I := I) (p := p) (by simp; omega)
  rwa [htake] at this

theorem insert_init_fail {p : Ptr} : (init I).insert p none = .ok (init I, -1) := rfl

theorem insert_init (p : Ptr) (junk : Nat → Ptr) (hI : 0 < I) :
    ∃ tail : List Ptr, tail.length = I ∧
      (init I).insert p (some junk) = .ok (table (tail.set 0 p) 1 I, 0) := by
  refine ⟨resize [] I junk, by simp [resize], ?_⟩
  have hr : (init I).realloc (init I).increment (some junk) = some (table (resize [] I junk) 0 I) := by
    simp [realloc, init, table, resize]
  have := insertAt_table (b := resize [] I junk) (L := 0) (I := I) (p := p) (by simp [resize, hI])
  simp only [List.take_zero, hole, List.findIdx_nil, Nat.zero_add, Nat.cast_zero] at this
  have hw : 0 ≤ (init I).last ∧ ((init I).capacity = 0 ∨ (init I).last < (init I).capacity) :=
    ⟨le_rfl, .inl rfl⟩
  have hg : (init I).growing := by simp [growing, init]
  rw [insert, if_neg (not_not_intro hw), if_pos hg, hr]
  exact this

end Fsock.Parr
