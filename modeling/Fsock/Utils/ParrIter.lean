import Fsock.Utils.ParrTable

namespace Fsock.Parr

variable {b : List Ptr} {L I : Nat}

def liveFrom (b : List Ptr) (n r : Nat) : Option Nat :=
  (List.range' r n).find? fun j => b[j]? != some .empty

def cursor (b : List Ptr) (n r : Nat) (d : Int) : Ptr × Int :=
  match liveFrom b n r with
  | some j => (b[j]?.getD .null, j)
  | none => (.null, d)

def visitsFrom (self : Parr) : Nat → Ptr × Int → Except Fault (List (Ptr × Int))
  | 0, _ => .error .diverges
  | fuel + 1, (ptr, index) =>
      if ptr = .null then .ok []
      else do
        let cur ← self.next index
        let rest ← visitsFrom self fuel cur
        return (ptr, index) :: rest

def visits (self : Parr) : Except Fault (List (Ptr × Int)) := do
  let cur ← self.begin
  self.visitsFrom (self.last.toNat + 1) cur

theorem visitsFrom_succ (self : Parr) (fuel : Nat) (ptr : Ptr) (index : Int) :
    self.visitsFrom (fuel + 1) (ptr, index) = if ptr = .null then .ok []
      else (self.next index).bind fun cur =>
        (self.visitsFrom fuel cur).bind fun rest => .ok ((ptr, index) :: rest) := rfl

theorem liveFrom_succ_empty {n r : Nat} (h : b[r]? = some .empty) :
    liveFrom b (n + 1) r = liveFrom b n (r + 1) := by
  simp [liveFrom, List.range'_succ, h]

theorem liveFrom_succ_live {n r : Nat} (h : b[r]? ≠ some .empty) :
    liveFrom b (n + 1) r = some r := by
  simp [liveFrom, List.range'_succ, h]

theorem beginScan_table {n r : Nat} (h : r + n ≤ b.length) :
    (table b L I).beginScan n r = .ok (cursor b n r (-1)) := by
  induction n generalizing r with
  | zero => simp [beginScan, cursor, liveFrom]
  | succ n ih =>
    have hr : r < b.length := by omega
    have hs := ih (r := r + 1) (by omega)
    rw [Nat.cast_add, Nat.cast_one] at hs
    simp only [beginScan, load_table hr, Bind.bind, Except.bind]
    by_cases he : b[r] = .empty
    · rw [if_pos he, hs, cursor, cursor, liveFrom_succ_empty (by simp [hr, he])]
    · rw [if_neg he, cursor, liveFrom_succ_live (by simp [hr, he])]
      simp [hr, pure, Except.pure]

theorem nextScan_table {n r : Nat} (h : r + 1 + n ≤ b.length) :
    (table b L I).nextScan n r = .ok (cursor b n (r + 1) (r + n : Nat)) := by
  induction n generalizing r with
  | zero => simp [nextScan, cursor, liveFrom]
  | succ n ih =>
    have hr : r + 1 < b.length := by omega
    have hs := ih (r := r + 1) (by omega)
    have hl := load_table (L := L) (I := I) hr
    rw [Nat.cast_add, Nat.cast_one] at hs hl
    simp only [nextScan, hl, Bind.bind, Except.bind]
    by_cases he : b[r + 1] = .empty
    · rw [if_pos he, hs, cursor, cursor, liveFrom_succ_empty (r := r + 1) (by simp [hr, he]),
        show r + 1 + n = r + (n + 1) by omega]
    · rw [if_neg he, cursor, liveFrom_succ_live (by simp [hr, he])]
      simp [hr, pure, Except.pure]

theorem begin_table (h0 : 0 < L) (hL : L ≤ b.length) :
    (table b L I).begin = .ok (cursor b L 0 (-1)) := by
  have hs := beginScan_table (b := b) (L := L) (I := I) (n := L) (r := 0) (by omega)
  have hn : ¬ ((table b L I).last = 0 ∨ (table b L I).elems = none) := by simp [table]; omega
  rw [begin, if_neg hn]
  exact hs

theorem next_table {r : Nat} (hr : r < L) (hL : L ≤ b.length) :
    (table b L I).next r = .ok (cursor b (L - (r + 1)) (r + 1) (L - 1 : Nat)) := by
  have h0 : ¬ ¬ 0 ≤ (r : Int) := by omega
  rw [next, if_neg h0]
  by_cases he : r + 1 = L
  · have hl : (table b L I).last = 0 ∨ (r : Int) = (table b L I).last - 1 := by
      simp only [table]; omega
    rw [if_pos hl]
    subst he
    simp [cursor, liveFrom]
  · have hl : ¬ ((table b L I).last = 0 ∨ (r : Int) = (table b L I).last - 1) := by
      simp only [table]; omega
    have hn : ((table b L I).last - ((r : Int) + 1)).toNat = L - (r + 1) := by
      simp only [table]; omega
    rw [if_neg hl, hn, nextScan_table (by omega), show r + (L - (r + 1)) = L - 1 by omega]

theorem next_table_past {r : Nat} (hr : L ≤ r) :
    (table b L I).next r = .ok (.null, r) := by
  have h0 : ¬ ¬ 0 ≤ (r : Int) := by omega
  have hn : ((table b L I).last - ((r : Int) + 1)).toNat = 0 := by simp only [table]; omega
  rw [next, if_neg h0, hn]
  simp [nextScan]

def live (b : List Ptr) (j : Nat) : Option (Ptr × Int) :=
  match b[j]? with
  | some .empty => none
  | some p => some (p, j)
  | none => none

theorem visitsFrom_cursor {n r f : Nat} {d : Int} (h : r + n = L) (hL : L ≤ b.length)
    (hnull : .null ∉ b.take L) (hf : n ≤ f) :
    (table b L I).visitsFrom (f + 1) (cursor b n r d) =
      .ok ((List.range' r n).filterMap (live b)) := by
  induction n generalizing r f d with
  | zero => simp [cursor, liveFrom, visitsFrom]
  | succ n ih =>
    have hr : r < b.length := by omega
    by_cases he : b[r] = .empty
    · have hs := ih (r := r + 1) (f := f) (d := d) (by omega) (by omega)
      have hb : b[r]? = some .empty := by simp [hr, he]
      have hcur : cursor b (n + 1) r d = cursor b n (r + 1) d := by
        rw [cursor, cursor, liveFrom_succ_empty hb]
      have hlive : live b r = none := by simp only [live, hb]
      rw [hcur, hs, List.range'_succ, List.filterMap_cons_none hlive]
    · have hp : b[r] ≠ .null := by
        intro hp
        exact hnull (hp ▸ List.mem_take_iff_getElem.mpr ⟨r, by omega, rfl⟩)
      obtain ⟨g, rfl⟩ : ∃ g, f = g + 1 := ⟨f - 1, by omega⟩
      have hs := ih (r := r + 1) (f := g) (d := (L - 1 : Nat)) (by omega) (by omega)
      have hn := next_table (I := I) (show r < L by omega) hL
      rw [show L - (r + 1) = n by omega] at hn
      have hlive : live b r = some (b[r], (r : Int)) := by
        simp only [live, List.getElem?_eq_getElem hr]
      have hcur : cursor b (n + 1) r d = (b[r], (r : Int)) := by
        rw [cursor, liveFrom_succ_live (by simp [hr, he])]
        simp [hr]
      rw [hcur, visitsFrom_succ, if_neg hp, hn, List.range'_succ, List.filterMap_cons_some hlive]
      simp only [Except.bind, hs]

theorem visits_table (h0 : 0 < L) (hL : L ≤ b.length) (hnull : .null ∉ b.take L) :
    (table b L I).visits = .ok ((List.range L).filterMap (live b)) := by
  have hs := visitsFrom_cursor (I := I) (d := -1) (Nat.zero_add L) hL hnull (le_refl L)
  rw [visits, begin_table h0 hL, List.range_eq_range']
  exact hs

theorem visits_init (I : Int) : (init I).visits = .ok [] := rfl

section

variable {a c : Parr}

theorem load_congr (he : a.elems = c.elems) (i : Int) : a.load i = c.load i := by
  rw [load, load, he]

theorem beginScan_congr (he : a.elems = c.elems) (n : Nat) (i : Int) :
    a.beginScan n i = c.beginScan n i := by
  induction n generalizing i with
  | zero => rfl
  | succ n ih => simp only [beginScan, load_congr he, ih]

theorem nextScan_congr (he : a.elems = c.elems) (n : Nat) (i : Int) :
    a.nextScan n i = c.nextScan n i := by
  induction n generalizing i with
  | zero => rfl
  | succ n ih => simp only [nextScan, load_congr he, ih]

theorem visitsFrom_congr (he : a.elems = c.elems) (hl : a.last = c.last) (n : Nat)
    (cur : Ptr × Int) : a.visitsFrom n cur = c.visitsFrom n cur := by
  induction n generalizing cur with
  | zero => rfl
  | succ n ih =>
    obtain ⟨p, i⟩ := cur
    simp only [visitsFrom_succ, next, nextScan_congr he, hl, ih]

theorem visits_congr (he : a.elems = c.elems) (hl : a.last = c.last) : a.visits = c.visits := by
  simp only [visits, begin, beginScan_congr he, visitsFrom_congr he hl, he, hl]

end

def cut (self : Parr) : Parr :=
  { self with elems := self.elems.map fun block => block.take self.last.toNat }

structure Iterable (arr : Parr) : Prop where
  last_nonneg : 0 ≤ arr.last
  last_le : arr.last ≤ arr.capacity
  block : ∀ b, arr.elems = some b → (b.length : Int) = arr.capacity
  filled : ∀ i, i < arr.last → arr.load i ≠ .ok .null

theorem visits_idle {self : Parr} (h : self.last = 0 ∨ self.elems = none) :
    self.visits = .ok [] := by
  rw [visits, begin, if_pos h]
  rfl

theorem live_eq_some {j : Nat} {p : Ptr} {i : Int} :
    live b j = some (p, i) ↔ i = j ∧ b[j]? = some p ∧ p ≠ .empty := by
  rw [live]
  cases hb : b[j]? with
  | none => simp
  | some q =>
    cases q with
    | empty =>
      refine ⟨by simp, ?_⟩
      rintro ⟨-, hq, hne⟩
      exact absurd (Option.some.inj hq).symm hne
    | null => grind
    | obj a => grind

theorem mem_live {p : Ptr} {i : Int} :
    (p, i) ∈ (List.range L).filterMap (live b) ↔
      ∃ j : Nat, i = j ∧ j < L ∧ b[j]? = some p ∧ p ≠ .empty := by
  simp only [List.mem_filterMap, List.mem_range, live_eq_some]
  constructor
  · rintro ⟨j, hj, hi, hb⟩
    exact ⟨j, hi, hj, hb⟩
  · rintro ⟨j, hi, hj, hb⟩
    exact ⟨j, hj, hi, hb⟩

theorem pairwise_live (b : List Ptr) (L : Nat) :
    ((List.range L).filterMap (live b)).Pairwise fun x y => x.2 < y.2 := by
  refine List.Pairwise.filterMap (live b) ?_ List.pairwise_lt_range
  rintro j k hjk ⟨p, i⟩ hp ⟨q, l⟩ hq
  obtain ⟨rfl, -⟩ := live_eq_some.mp hp
  obtain ⟨rfl, -⟩ := live_eq_some.mp hq
  exact Int.ofNat_lt.mpr hjk

theorem load_eq_ok {self : Parr} (hb : self.elems = some b) {i : Int} {p : Ptr} :
    self.load i = .ok p ↔ ∃ j : Nat, i = j ∧ b[j]? = some p := by
  rw [load, hb]
  rcases Int.lt_or_le i 0 with hi | hi
  · simp only [if_pos hi, reduceCtorEq, false_iff]
    rintro ⟨j, rfl, -⟩
    omega
  · obtain ⟨j, rfl⟩ := Int.eq_ofNat_of_zero_le hi
    simp only [if_neg (Int.not_lt.mpr hi), Int.toNat_natCast]
    constructor
    · intro h
      refine ⟨j, rfl, ?_⟩
      cases hj : b[j]? with
      | none => simp [hj] at h
      | some q => simpa [hj] using h
    · rintro ⟨k, hk, h⟩
      obtain rfl := Int.ofNat_inj.mp hk
      simp [h]

theorem Iterable.visits_eq {self : Parr} (h : self.Iterable) (hb : self.elems = some b) :
    self.visits = .ok ((List.range self.last.toNat).filterMap (live b)) := by
  obtain ⟨L, hL⟩ := Int.eq_ofNat_of_zero_le h.last_nonneg
  have hlen : L ≤ b.length := by
    have := h.last_le
    have := h.block b hb
    omega
  have hnull : .null ∉ b.take L := by
    intro hm
    obtain ⟨j, hj, hp⟩ := List.mem_take_iff_getElem.mp hm
    refine h.filled j (by omega) ((load_eq_ok hb).mpr ⟨j, rfl, ?_⟩)
    rw [List.getElem?_eq_getElem (by omega), hp]
  rw [hL, Int.toNat_natCast]
  rcases Nat.eq_zero_or_pos L with rfl | h0
  · exact visits_idle (.inl hL)
  · rw [visits_congr (c := table b L 0) hb hL]
    exact visits_table h0 hlen hnull

theorem live_take {j : Nat} (hj : j < L) : live (b.take L) j = live b j := by
  rw [live, live, List.getElem?_take_of_lt hj]

theorem Iterable.cut_iterable {self : Parr} (h : self.Iterable) (hb : self.elems = some b) :
    Iterable ⟨some (b.take self.last.toNat), self.last, self.last, self.increment⟩ where
  last_nonneg := h.last_nonneg
  last_le := Int.le_refl _
  block := by
    rintro _ ⟨⟩
    have := h.last_nonneg
    have := h.last_le
    have := h.block b hb
    simp only [List.length_take]
    omega
  filled := by
    intro i hi hl
    obtain ⟨j, rfl, hj⟩ := (load_eq_ok rfl).mp hl
    refine h.filled j hi ((load_eq_ok hb).mpr ⟨j, rfl, ?_⟩)
    have hlt : (j : Int) < self.last := hi
    rwa [List.getElem?_take_of_lt (by omega)] at hj

theorem Iterable.visits_cut {self : Parr} (h : self.Iterable) : self.cut.visits = self.visits := by
  cases hb : self.elems with
  | none => rw [visits_idle (.inr hb), visits_idle (.inr (by simp [cut, hb]))]
  | some b =>
    have hc : self.cut.elems = some (b.take self.last.toNat) := by simp [cut, hb]
    rw [h.visits_eq hb, visits_congr (c := ⟨_, self.last, self.last, self.increment⟩) hc rfl,
      (h.cut_iterable hb).visits_eq rfl]
    congr 1
    refine List.filterMap_congr fun j hj => ?_
    exact live_take (List.mem_range.mp hj)

theorem Iterable.visits_spec {self : Parr} (h : self.Iterable) :
    ∃ vs, self.visits = .ok vs ∧ vs.Pairwise (fun x y => x.2 < y.2) ∧
      ∀ p i, (p, i) ∈ vs ↔ i < self.last ∧ self.load i = .ok p ∧ p ≠ .empty := by
  cases hb : self.elems with
  | none =>
    refine ⟨[], visits_idle (.inr hb), .nil, fun p i => ?_⟩
    simp [load, hb]
  | some b =>
    refine ⟨_, h.visits_eq hb, pairwise_live b _, fun p i => ?_⟩
    rw [mem_live, load_eq_ok hb]
    have h0 := h.last_nonneg
    constructor
    · rintro ⟨j, rfl, hj, hp, he⟩
      exact ⟨by omega, ⟨j, rfl, hp⟩, he⟩
    · rintro ⟨hi, ⟨j, rfl, hp⟩, he⟩
      exact ⟨j, rfl, by omega, hp, he⟩

theorem visitsFrom_eq_ok {self : Parr} {fuel : Nat} {ptr : Ptr} {index : Int}
    {vs : List (Ptr × Int)} (h : self.visitsFrom (fuel + 1) (ptr, index) = .ok vs) :
    ptr = .null ∧ vs = [] ∨ ptr ≠ .null ∧ ∃ cur rest, self.next index = .ok cur ∧
      self.visitsFrom fuel cur = .ok rest ∧ vs = (ptr, index) :: rest := by
  rw [visitsFrom_succ] at h
  split at h
  case isTrue hp =>
    cases h
    exact .inl ⟨hp, rfl⟩
  case isFalse hp =>
    refine .inr ⟨hp, ?_⟩
    cases hn : self.next index with
    | error e => simp [hn, Except.bind] at h
    | ok cur =>
      cases hr : self.visitsFrom fuel cur with
      | error e => simp [hn, hr, Except.bind] at h
      | ok rest =>
        simp only [hn, hr, Except.bind, Except.ok.injEq] at h
        exact ⟨cur, rest, rfl, hr, h.symm⟩

theorem visits_eq_ok {self : Parr} {vs : List (Ptr × Int)} (h : self.visits = .ok vs) :
    ∃ cur, self.begin = .ok cur ∧ self.visitsFrom (self.last.toNat + 1) cur = .ok vs := by
  rw [visits] at h
  cases hb : self.begin with
  | error e =>
    rw [hb] at h
    cases h
  | ok cur =>
    rw [hb] at h
    exact ⟨cur, rfl, h⟩

theorem visits_live_slots (self : Parr) (h : self.Iterable) :
    ∃ vs, self.visits = .ok vs ∧ self.cut.visits = .ok vs ∧
      vs.Pairwise (fun x y => x.2 < y.2) ∧
      ∀ p i, (p, i) ∈ vs ↔ i < self.last ∧ self.load i = .ok p ∧ p ≠ .empty := by
  obtain ⟨vs, hv, hp, hm⟩ := h.visits_spec
  exact ⟨vs, hv, by rw [h.visits_cut, hv], hp, hm⟩

def holed : Parr :=
  ⟨some [.empty, .obj 1, .empty, .empty, .obj 2, .empty, .null, .obj 7], 6, 8, 8⟩

theorem holed_iterable : holed.Iterable where
  last_nonneg := by decide
  last_le := by decide
  block := by
    rintro _ ⟨⟩
    rfl
  filled := by
    intro i hi hl
    obtain ⟨j, rfl, hj⟩ := (load_eq_ok rfl).mp hl
    have hlt : j < 6 := Int.ofNat_lt.mp hi
    interval_cases j <;> simp at hj

theorem visits_live_slots_holed :
    ∃ vs, holed.visits = .ok vs ∧ holed.cut.visits = .ok vs ∧
      vs.Pairwise (fun x y => x.2 < y.2) ∧
      ∀ p i, (p, i) ∈ vs ↔ i < holed.last ∧ holed.load i = .ok p ∧ p ≠ .empty :=
  visits_live_slots holed holed_iterable

example : holed.visits = .ok [(.obj 1, 1), (.obj 2, 4)] := by decide

end Fsock.Parr
