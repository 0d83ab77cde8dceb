import Fsock.Utils.ParrFill
import Fsock.Utils.ParrSlots
import Fsock.Utils.ParrSweep

namespace Fsock.Parr

structure Drained (b : List Ptr) (L I i : Nat) : Prop where
  fits : Fits b L I
  slot : ∀ j < L, b[j]? = some (if j < i then .empty else .obj j)

variable {b : List Ptr} {L I i : Nat} {mem : Nat → Mem}

theorem room_filled {arr : Parr} {ns : List Nat} (h : Filled I arr ns) :
    arr.capacity = 0 ∨ arr.last < arr.capacity := by
  cases h with
  | fresh => exact .inl rfl
  | block hn hb => exact .inr (Int.ofNat_lt.mpr hb)

theorem drained_filled {arr : Parr} {n : Nat} (hf : Formed I arr) (h : Filled I arr (List.range n)) :
    n = 0 ∧ arr = init I ∨ ∃ b, Drained b n I 0 ∧ arr = table b n I := by
  generalize hns : List.range n = ns at h
  cases h with
  | fresh => exact .inl ⟨by simpa using hns, rfl⟩
  | @block b _ hn hb ht =>
    have hlen : ns.length = n := by rw [← hns, List.length_range]
    rw [hlen] at hb ht hf ⊢
    refine .inr ⟨b, ⟨?_, fun j hj => ?_⟩, rfl⟩
    · generalize hx : table b n I = x at hf
      cases hf with
      | fresh => cases hx
      | @block c L hc =>
        simp only [table, Parr.mk.injEq, Option.some.injEq, Nat.cast_inj] at hx
        obtain ⟨rfl, rfl, -, -⟩ := hx
        exact hc
    · have hget : (b.take n)[j]? = ((List.range n).map Ptr.obj)[j]? := by rw [ht, hns]
      rw [List.getElem?_take_of_lt hj, List.getElem?_map, List.getElem?_range hj] at hget
      simpa using hget

theorem drained_iff : Drained b L I i ↔ Marks b L I fun j => decide (i ≤ j) := by
  have hslot : ∀ j, (if j < i then Ptr.empty else .obj j) = if decide (i ≤ j) then .obj j else .empty := by
    intro j
    rcases Nat.lt_or_ge j i with hlt | hge
    · rw [if_pos hlt, if_neg (by simpa using hlt)]
    · rw [if_neg (by omega), if_pos (by simpa using hge)]
  constructor
  · exact fun h => ⟨h.fits, fun j hj => by rw [h.slot j hj, hslot]⟩
  · exact fun h => ⟨h.fits, fun j hj => by rw [h.slot j hj, hslot]⟩

theorem update_from (j : Nat) :
    Function.update (fun j => decide (i ≤ j)) i false j = decide (i + 1 ≤ j) := by
  rcases eq_or_ne j i with rfl | hji
  · simp
  · rw [Function.update_of_ne hji]
    exact decide_eq_decide.mpr (by omega)

theorem drained_succ (h : Marks b L I (Function.update (fun j => decide (i ≤ j)) i false)) :
    Drained b L I (i + 1) :=
  drained_iff.mpr (h.congr fun j _ => (update_from j).symm)

theorem Drained.clear (h : Drained b L I i) (hi : i < L) (hs : L ≤ I) (mem : Nat → Mem) :
    ∃ arr rc, (table b L I).clear i mem = .ok (arr, rc) ∧
      ((∃ c, Drained c L I (i + 1) ∧ arr = table c L I) ∨ i + 1 = L ∧ arr = init I) := by
  obtain ⟨arr, rc, he, ⟨c, hc, ha⟩ | ⟨hg, ha⟩⟩ := (drained_iff.mp h).clear hi hs mem
  · exact ⟨arr, rc, he, .inl ⟨c, drained_succ hc, ha⟩⟩
  · refine ⟨arr, rc, he, .inr ⟨?_, ha⟩⟩
    have hlast := hg (L - 1) (by omega)
    rw [update_from, decide_eq_false_iff_not] at hlast
    omega

theorem Drained.load (h : Drained b L I i) (hi : i < L) : (table b L I).load i = .ok (.obj i) :=
  (drained_iff.mp h).load hi (by simp)

theorem nextLive_from (hi : i < L) : nextLive (fun j => decide (i ≤ j)) i L = some i :=
  nextLive_eq_some.mpr ⟨le_refl i, hi, by simp, fun j hj hji => absurd hj (by omega)⟩

theorem Drained.begin (h : Drained b L I 0) : (table b L I).begin = .ok (.obj 0, 0) := by
  rw [(drained_iff.mp h).begin, nextLive_from h.fits.last_pos]
  rfl

theorem Drained.next (h : Drained b L I (i + 1)) (hi : i + 1 < L) :
    (table b L I).next i = .ok (.obj (i + 1), ((i + 1 : Nat) : Int)) := by
  rw [(drained_iff.mp h).next (by omega), nextLive_from hi]
  rfl

theorem Drained.dead (h : Drained b L I L) : Marks b L I fun _ => false :=
  (drained_iff.mp h).congr fun j hj => (decide_eq_false (by omega)).symm

theorem Drained.next_null (h : Drained b L I L) (hi : i + 1 = L) :
    ∃ d, (table b L I).next i = .ok (.null, d) := by
  have hn : nextLive (fun _ => false) (i + 1) L = none := nextLive_eq_none.mpr fun _ _ _ => rfl
  exact ⟨_, by rw [h.dead.next (by omega), hn]; rfl⟩

theorem Drained.term (h : Drained b L I L) : (table b L I).term = .ok () :=
  (Part.block h.dead).term fun _ _ => rfl

end Fsock.Parr
