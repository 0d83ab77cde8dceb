import Fsock.Utils.ParrIter
import Fsock.Utils.ParrSlots

namespace Fsock

theorem bind_eq_ok {ε α γ : Type} {x : Except ε α} {f : α → Except ε γ} {r : γ}
    (h : x >>= f = .ok r) : ∃ a, x = .ok a ∧ f a = .ok r := by
  cases x with
  | error e => cases h
  | ok a => exact ⟨a, rfl, h⟩

namespace Parr

structure Marks (b : List Ptr) (n I : Nat) (f : Nat → Bool) : Prop where
  fits : Fits b n I
  slot : ∀ j < n, b[j]? = some (if f j then .obj j else .empty)

inductive Part (I n : Nat) (f : Nat → Bool) : Parr → Prop
  | gone (h : ∀ j < n, f j = false) : Part I n f (init I)
  | block {b : List Ptr} (h : Marks b n I f) : Part I n f (table b n I)

def nextLive (f : Nat → Bool) (r n : Nat) : Option Nat := (List.range' r (n - r)).find? f

def pointer (d : Int) : Option Nat → Ptr × Int
  | some j => (.obj j, j)
  | none => (.null, d)

inductive Stuck (I : Nat) : Parr → Prop
  | block {b : List Ptr} {n j : Nat} {f : Nat → Bool} (h : Marks b n I f) (hn : I < n)
      (hj : top n I ≤ j ∧ j < n) (hf : f j = true) : Stuck I (table b n I)

def sweep {ρ : Type} (row : ρ → Parr) (step : Int → ρ → Except Fault ρ) :
    Nat → Ptr × Int → ρ → Except Fault ρ
  | _, (.null, _), r => .ok r
  | 0, _, _ => .error .diverges
  | k + 1, (_, i), r => do
    let r ← step i r
    let next ← (row r).next i
    sweep row step k next r

variable {I n : Nat} {f g : Nat → Bool} {arr : Parr} {b : List Ptr} {i j k r : Nat}
  {mem : Nat → Mem}

theorem nextLive_eq_none : nextLive f r n = none ↔ ∀ j, r ≤ j → j < n → f j = false := by
  simp only [nextLive, List.find?_eq_none, List.mem_range'_1, Bool.not_eq_true]
  exact ⟨fun h j hr hn => h j ⟨hr, by omega⟩, fun h j hj => h j hj.1 (by omega)⟩

theorem nextLive_eq_some : nextLive f r n = some j ↔
    r ≤ j ∧ j < n ∧ f j = true ∧ ∀ i, r ≤ i → i < j → f i = false := by
  simp only [nextLive, List.find?_range'_eq_some, List.mem_range'_1, Bool.not_eq_true']
  constructor
  · rintro ⟨hf, ⟨hr, hj⟩, hi⟩
    exact ⟨hr, by omega, hf, hi⟩
  · rintro ⟨hr, hj, hf, hi⟩
    exact ⟨hf, ⟨hr, by omega⟩, hi⟩

theorem clearLoop_fail {f : Nat} (hI : I < b.length) (hL : n ≤ b.length)
    (hv : Vacant b (b.length - I) n) (hm : mem 0 = none) :
    clearLoop (f + 1) mem (table b n I) = .ok (table b n I, -1) := by
  have hc : (table b n I).capacity ≠ (table b n I).increment := by
    simp only [table]
    omega
  have hs := canShrink_table hI.le hL
  simp only [clearLoop, hs, hv, decide_true, Bind.bind, Except.bind, if_true, hc, if_false, hm,
    realloc]
  rfl

theorem Marks.congr (h : Marks b n I f) (hg : ∀ j < n, g j = f j) : Marks b n I g :=
  ⟨h.fits, fun j hj => by rw [hg j hj, h.slot j hj]⟩

theorem Marks.set (h : Marks b n I f) (i : Nat) :
    Marks (b.set i .empty) n I (Function.update f i false) := by
  refine ⟨h.fits.set .empty, fun j hj => ?_⟩
  rcases eq_or_ne j i with rfl | hji
  · rw [List.getElem?_set_self (hj.trans_le h.fits.high), Function.update_self]
    rfl
  · rw [List.getElem?_set_ne hji.symm, h.slot j hj, Function.update_of_ne hji]

theorem Marks.take (h : Marks b n I f) (he : b.length = n + I) : Marks (b.take n) n I f :=
  ⟨h.fits.take he, fun j hj => (List.getElem?_take_of_lt hj).trans (h.slot j hj)⟩

theorem Marks.vacant (h : Marks b n I f) {lo : Nat} :
    Vacant b lo n ↔ ∀ j, lo ≤ j → j < n → f j = false := by
  constructor
  · intro hv j hlo hj
    have he := (h.slot j hj).symm.trans (hv j hj hlo)
    cases hf : f j with
    | false => rfl
    | true => simp [hf] at he
  · intro hf j hj hlo
    rw [h.slot j hj, hf j hlo hj]
    rfl

theorem Marks.load (h : Marks b n I f) (hi : i < n) (hf : f i = true) :
    (table b n I).load i = .ok (.obj i) := by
  have hlen : i < b.length := hi.trans_le h.fits.high
  have hslot := h.slot i hi
  rw [hf, if_pos rfl, List.getElem?_eq_getElem hlen, Option.some.injEq] at hslot
  rw [load_table hlen, hslot]

theorem Marks.cursor (h : Marks b n I f) (hr : r ≤ n) (d : Int) :
    cursor b (n - r) r d = pointer d (nextLive f r n) := by
  have hlive : liveFrom b (n - r) r = nextLive f r n := by
    refine List.find?_congr fun j hj => ?_
    have hj : j < n := by
      have := List.mem_range'_1.mp hj
      omega
    rw [h.slot j hj]
    cases f j <;> rfl
  rw [Parr.cursor, hlive]
  cases hn : nextLive f r n with
  | none => rfl
  | some j =>
    obtain ⟨-, hj, hf, -⟩ := nextLive_eq_some.mp hn
    simp [h.slot j hj, hf, pointer]

theorem Marks.begin (h : Marks b n I f) :
    (table b n I).begin = .ok (pointer (-1) (nextLive f 0 n)) := by
  rw [begin_table h.fits.last_pos h.fits.high, ← h.cursor (Nat.zero_le n), Nat.sub_zero]

theorem Marks.next (h : Marks b n I f) (hi : i < n) :
    (table b n I).next i = .ok (pointer (n - 1 : Nat) (nextLive f (i + 1) n)) := by
  rw [next_table hi h.fits.high, h.cursor hi]

theorem Marks.size (h : Marks b n I f) (hf : ∀ j < n, f j = false) :
    (table b n I).size = .ok 0 := by
  have hne : b ≠ [] := List.ne_nil_of_length_pos (h.fits.last_pos.trans_le h.fits.high)
  have hv : Vacant b 0 n := h.vacant.mpr fun j _ hj => hf j hj
  rw [size_table h.fits.high hne, countP_take_vacant h.fits.high hv]
  rfl

theorem Marks.settle (h : Marks b n I f) (hb : b.length = I) :
    (∃ j < n, f j = true) ∧ clearLoop (k + 1) mem (table b n I) = .ok (table b n I, 0) ∨
      (∀ j < n, f j = false) ∧ clearLoop (k + 1) mem (table b n I) = .ok (init I, 0) := by
  have hp := h.fits.last_pos
  by_cases hf : ∀ j < n, f j = false
  · have hne : b ≠ [] := List.ne_nil_of_length_pos (hp.trans_le h.fits.high)
    have hv : Vacant b 0 n := h.vacant.mpr fun j _ hj => hf j hj
    exact .inr ⟨hf, clearLoop_reset hb hne h.fits.high hv⟩
  · refine .inl ⟨by simpa using hf, clearLoop_keep hb.ge h.fits.high fun hv => hf fun j hj => ?_⟩
    exact h.vacant.mp hv j (by omega) hj

theorem Marks.clear (h : Marks b n I f) (hi : i < n) (hs : n ≤ I) (mem : Nat → Mem) :
    ∃ arr rc, (table b n I).clear i mem = .ok (arr, rc) ∧
      ((∃ c, Marks c n I (Function.update f i false) ∧ arr = table c n I) ∨
        (∀ j < n, Function.update f i false j = false) ∧ arr = init I) := by
  have hd := h.set i
  have hlen : (b.set i .empty).length = b.length := List.length_set
  rw [clear_table hi h.fits.high]
  generalize b.set i .empty = c at hd hlen
  generalize Function.update f i false = f at hd
  have settle : ∀ {d : List Ptr} {k : Nat} {mem : Nat → Mem}, Marks d n I f → d.length = I →
      ∃ arr rc, clearLoop (k + 1) mem (table d n I) = .ok (arr, rc) ∧
        ((∃ c, Marks c n I f ∧ arr = table c n I) ∨ (∀ j < n, f j = false) ∧ arr = init I) := by
    intro d k mem hd hl
    rcases hd.settle hl with ⟨-, he⟩ | ⟨hf, he⟩
    · exact ⟨_, _, he, .inl ⟨d, hd, rfl⟩⟩
    · exact ⟨_, _, he, .inr ⟨hf, rfl⟩⟩
  obtain ⟨q, hq⟩ := hd.fits.dvd
  have hp := hd.fits.last_pos
  have hlow := hd.fits.low
  have hhigh := hd.fits.high
  by_cases he : c.length = n + I
  · have hgone : Vacant c (c.length - I) n := vacant_above (by omega)
    cases hm : mem 0 with
    | none => exact ⟨_, _, clearLoop_fail (by omega) hhigh hgone hm, .inl ⟨c, hd, rfl⟩⟩
    | some junk =>
      rw [clearLoop_shrink (by omega) hhigh hgone hm]
      have hI : n = I := by
        have hk := (hd.take he).fits.increment_le
        rw [List.length_take, Nat.min_eq_left hhigh] at hk
        omega
      obtain ⟨k, hk⟩ : ∃ k, b.length = k + 1 := ⟨b.length - 1, by omega⟩
      rw [hk, he, Nat.add_sub_cancel]
      exact settle (hd.take he) (by simp [he, hI])
  · refine settle hd ?_
    have hq1 : q = 1 := by
      have hlt : I * q < I * 2 := by omega
      have hpos : 0 < I * q := by omega
      have := Nat.lt_of_mul_lt_mul_left hlt
      have := Nat.pos_of_mul_pos_left hpos
      omega
    rw [hq, hq1, Nat.mul_one]

theorem Marks.clear_keep (h : Marks b n I f) (hi : i < n) (hm : ∀ k, (mem k).isSome)
    (hj : top n I ≤ j ∧ j < n) (hf : Function.update f i false j = true) :
    ∃ c, Marks c n I (Function.update f i false) ∧
      (table b n I).clear i mem = .ok (table c n I, 0) := by
  have hd := h.set i
  obtain ⟨k, hk⟩ : ∃ k, b.length + 1 = k + 2 := ⟨b.length - 1, by have := h.fits.high; omega⟩
  have hv : ¬ Vacant (b.set i .empty) (top n I) n := fun hv => by
    rw [hd.vacant.mp hv j hj.1 hj.2] at hf
    cases hf
  rw [clear_table hi h.fits.high, hk, clearLoop_spec_keep hd.fits hm hv]
  split
  case isTrue he => exact ⟨_, hd.take he, rfl⟩
  case isFalse => exact ⟨_, hd, rfl⟩

theorem Marks.clear_out (h : Marks b n I f) (hi : i < n) (hs : I < n) (hm : ∀ k, (mem k).isSome)
    (hf : ∀ j, top n I ≤ j → j < n → Function.update f i false j = false) :
    (table b n I).clear i mem = .error .bounds := by
  have hd := h.set i
  have hI := h.fits.increment_pos
  have htop : top n I ≠ 0 := by
    have hdiv : 0 < (n - 1) / I := Nat.div_pos (by omega) hI
    exact (Nat.mul_pos hdiv hI).ne'
  obtain ⟨k, hk⟩ : ∃ k, b.length + 1 = k + 3 := ⟨b.length - 2, by have := h.fits.high; omega⟩
  rw [clear_table hi h.fits.high, hk]
  exact clearLoop_spec_out hd.fits hm htop (hd.vacant.mpr hf)

theorem Part.congr (h : Part I n f arr) (hg : ∀ j < n, g j = f j) : Part I n g arr := by
  cases h with
  | gone h => exact .gone fun j hj => (hg j hj).trans (h j hj)
  | block h => exact .block (h.congr hg)

theorem Part.load (h : Part I n f arr) (hi : i < n) (hf : f i = true) : arr.load i = .ok (.obj i) := by
  cases h with
  | gone h => rw [h i hi] at hf; cases hf
  | block h => exact h.load hi hf

theorem Part.begin (h : Part I n f arr) : ∃ d, arr.begin = .ok (pointer d (nextLive f 0 n)) := by
  cases h with
  | gone h =>
    have hn : nextLive f 0 n = none := nextLive_eq_none.mpr fun j _ hj => h j hj
    exact ⟨-1, by rw [hn]; rfl⟩
  | block h => exact ⟨_, h.begin⟩

theorem Part.next (h : Part I n f arr) (hi : i < n) :
    ∃ d, arr.next i = .ok (pointer d (nextLive f (i + 1) n)) := by
  cases h with
  | gone h =>
    have hn : nextLive f (i + 1) n = none := nextLive_eq_none.mpr fun j _ hj => h j hj
    refine ⟨i, ?_⟩
    rw [hn, Parr.next, if_neg (by omega)]
    rfl
  | block h => exact ⟨_, h.next hi⟩

theorem Part.clear (h : Part I n f arr) (hs : n ≤ I) (hi : i < n) (hf : f i = true)
    (mem : Nat → Mem) : ∃ arr' rc, arr.clear i mem = .ok (arr', rc) ∧
      Part I n (Function.update f i false) arr' := by
  cases h with
  | gone h => rw [h i hi] at hf; cases hf
  | block h =>
    obtain ⟨arr', rc, he, ⟨c, hc, rfl⟩ | ⟨hg, rfl⟩⟩ := h.clear hi hs mem
    · exact ⟨_, rc, he, .block hc⟩
    · exact ⟨_, rc, he, .gone hg⟩

theorem Part.size (h : Part I n f arr) (hf : ∀ j < n, f j = false) : arr.size = .ok 0 := by
  cases h with
  | gone => rfl
  | block h => exact h.size hf

theorem Part.term (h : Part I n f arr) (hf : ∀ j < n, f j = false) : arr.term = .ok () := by
  rw [Parr.term, h.size hf]
  rfl

theorem Part.view (h : Part I n f arr) (j : Nat) :
    arr.view j = if j < n ∧ f j = true then some (.obj j) else none := by
  cases h with
  | gone h =>
    rw [view_init, if_neg]
    rintro ⟨hj, hf⟩
    rw [h j hj] at hf
    cases hf
  | block h =>
    rcases Nat.lt_or_ge j n with hj | hj
    · rw [view_table hj, h.slot j hj]
      cases f j <;> simp [hj, toSlot]
    · rw [view_table_out hj, if_neg fun hc => hj.not_gt hc.1]

theorem Part.last (h : Part I n f arr) : arr.last.toNat = n ∨ ∀ j < n, f j = false := by
  cases h with
  | gone h => exact .inr h
  | block => exact .inl rfl

theorem Stuck.clear {arr' : Parr} {d rc : Int} (h : Stuck I arr) (hm : ∀ k, (mem k).isSome)
    (hc : arr.clear d mem = .ok (arr', rc)) : Stuck I arr' := by
  obtain @⟨b, n, j, f, h, hn, hj, hf⟩ := h
  by_cases hd : 0 ≤ d ∧ d < n
  · obtain ⟨i, rfl⟩ := Int.eq_ofNat_of_zero_le hd.1
    have hi : i < n := Int.ofNat_lt.mp hd.2
    by_cases hg : ∃ m, top n I ≤ m ∧ m < n ∧ Function.update f i false m = true
    · obtain ⟨m, hlo, hhi, hm'⟩ := hg
      obtain ⟨c, hmarks, he⟩ := h.clear_keep hi hm ⟨hlo, hhi⟩ hm'
      rw [he, Except.ok.injEq, Prod.mk.injEq] at hc
      obtain ⟨rfl, -⟩ := hc
      exact .block hmarks hn ⟨hlo, hhi⟩ hm'
    · have hdead : ∀ m, top n I ≤ m → m < n → Function.update f i false m = false := by
        simpa using hg
      rw [h.clear_out hi hn hm hdead] at hc
      cases hc
  · have hd : ¬ (0 ≤ d ∧ d < (table b n I).last) := hd
    rw [Parr.clear, if_pos hd] at hc
    cases hc

theorem size_of_term (h : arr.term = .ok ()) : arr.size = .ok 0 := by
  obtain ⟨len, hl, h⟩ := bind_eq_ok h
  by_cases hz : len = 0
  · rw [hl, hz]
  · rw [if_pos hz] at h
    cases h

theorem Stuck.term (h : Stuck I arr) : arr.term ≠ .ok () := by
  obtain @⟨b, n, j, f, h, hn, hj, hf⟩ := h
  intro ht
  have hslot := h.slot j hj.2
  rw [if_pos hf] at hslot
  have hview : (table b n I).view j = none := by
    rw [(Formed.block h.fits).size_zero.mp (size_of_term ht)]
  rw [view_table hj.2, hslot] at hview
  cases hview

section

variable {ρ : Type} {row : ρ → Parr} {step : Int → ρ → Except Fault ρ} {P : ρ → Prop} {ro : ρ}

theorem sweep_null {d : Int} : sweep row step k (.null, d) ro = .ok ro := by
  cases k <;> rfl

theorem sweep_drains {f : ρ → Nat → Bool} {q : Nat} {d : Int}
    (hpart : ∀ r, P r → Part I n (f r) (row r))
    (hstep : ∀ r (i : Nat), P r → i < n → f r i = true → ∃ r', step i r = .ok r' ∧ P r' ∧
      f r' i = false ∧ ∀ j, f r j = false → f r' j = false)
    (hr : P ro) (hq : ∀ j < q, f ro j = false) (hk : n ≤ q + k) :
    ∃ r', sweep row step k (pointer d (nextLive (f ro) q n)) ro = .ok r' ∧ P r' ∧
      ∀ j < n, f r' j = false := by
  induction k generalizing q d ro with
  | zero =>
    have hdead : ∀ j < n, f ro j = false := fun j hj => hq j (by omega)
    rw [nextLive_eq_none.mpr fun j _ hj => hdead j hj]
    exact ⟨ro, rfl, hr, hdead⟩
  | succ k ih =>
    cases hn : nextLive (f ro) q n with
    | none =>
      have hrest := nextLive_eq_none.mp hn
      refine ⟨ro, rfl, hr, fun j hj => ?_⟩
      rcases Nat.lt_or_ge j q with hjq | hjq
      · exact hq j hjq
      · exact hrest j hjq hj
    | some j =>
      obtain ⟨hjq, hj, hf, hgap⟩ := nextLive_eq_some.mp hn
      obtain ⟨r', hs, hr', hj', hmono⟩ := hstep ro j hr hj hf
      obtain ⟨d', hnext⟩ := (hpart r' hr').next hj
      have hdead : ∀ i < j + 1, f r' i = false := by
        intro i hi
        rcases Nat.lt_or_ge i q with hiq | hiq
        · exact hmono i (hq i hiq)
        · rcases Nat.lt_or_eq_of_le (Nat.le_of_lt_succ hi) with hij | rfl
          · exact hmono i (hgap i hiq hij)
          · exact hj'
      obtain ⟨r, hsweep, hend⟩ := ih (d := d') hr' hdead (by omega)
      refine ⟨r, ?_, hend⟩
      rw [← hsweep]
      simp only [pointer, sweep, hs, hnext, Bind.bind, Except.bind]

theorem sweep_begin {f : ρ → Nat → Bool} (hpart : ∀ r, P r → Part I n (f r) (row r))
    (hstep : ∀ r (i : Nat), P r → i < n → f r i = true → ∃ r', step i r = .ok r' ∧ P r' ∧
      f r' i = false ∧ ∀ j, f r j = false → f r' j = false) (hr : P ro) :
    ∃ ptr r', (row ro).begin = .ok ptr ∧ sweep row step (row ro).last.toNat ptr ro = .ok r' ∧
      P r' ∧ ∀ j < n, f r' j = false := by
  obtain ⟨d, hb⟩ := (hpart ro hr).begin
  rcases (hpart ro hr).last with hl | hdead
  · obtain ⟨r', hs, hr', hend⟩ := sweep_drains (k := n) (q := 0) (d := d) hpart hstep hr nofun
      (Nat.zero_add n).ge
    exact ⟨_, r', hb, by rw [hl, hs], hr', hend⟩
  · rw [nextLive_eq_none.mpr fun j _ hj => hdead j hj] at hb
    exact ⟨_, ro, hb, sweep_null, hr, hdead⟩

theorem sweep_keeps {ptr : Ptr × Int} {r' : ρ}
    (hstep : ∀ i r r', P r → step i r = .ok r' → P r') (hr : P ro)
    (hs : sweep row step k ptr ro = .ok r') : P r' := by
  induction k generalizing ptr ro with
  | zero =>
    obtain ⟨p, i⟩ := ptr
    cases p with
    | null => exact (Except.ok.inj hs) ▸ hr
    | empty | obj => cases hs
  | succ k ih =>
    obtain ⟨p, i⟩ := ptr
    cases p with
    | null => exact (Except.ok.inj hs) ▸ hr
    | empty | obj =>
      obtain ⟨r, h₁, hs⟩ := bind_eq_ok hs
      obtain ⟨next, -, hs⟩ := bind_eq_ok hs
      exact ih (hstep i ro r hr h₁) hs

end

end Parr

end Fsock
