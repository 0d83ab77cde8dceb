import Fsock.Core.OutList

namespace Fsock

open Segment

namespace ListFramer

def insert (h : Items) (l : OutList Nat) (li : Addr) : Items × OutList Nat :=
  match l.list.last with
  | none => ((h.setNext li none).setPrev li none, ⟨⟨some li, some li⟩, l.rest⟩)
  | some last => (((h.setNext li none).setPrev li (some last)).setNext last (some li),
      ⟨⟨l.list.first, some li⟩, l.rest⟩)

def walk (h : Items) : Nat → Option Addr → List (List UInt8)
  | 0, _ => []
  | _ + 1, none => []
  | n + 1, some a => h.bytes a :: walk h n (h.next a)

def skip : Nat → List (List UInt8) → List (List UInt8)
  | _, [] => []
  | n, b :: bs => b.drop n :: skip (n - b.length) bs

def getIovs (h : Items) (l : OutList Nat) (n : Nat) : List (List UInt8) :=
  skip l.rest (walk h n l.list.first)

def release : Nat → Items → Option Addr → Nat → Items × Option Addr × Nat × Nat
  | 0, h, p, n => (h, p, n, 0)
  | _ + 1, h, none, n => (h, none, n, 0)
  | fuel + 1, h, some a, n =>
    if (h.bytes a).length ≤ n then
      let (h', p, n', k) := release fuel (h.free a) (h.next a) (n - (h.bytes a).length)
      (h', p, n', k + 1)
    else (h, some a, n, 0)

def written (h : Items) (l : OutList Nat) (n : Nat) : Items × OutList Nat × Nat :=
  match release (l.rest + n + 1) h l.list.first (l.rest + n) with
  | (h', none, progress, k) => (h', ⟨⟨none, none⟩, progress⟩, k)
  | (h', some a, progress, k) => (h'.setPrev a none, ⟨⟨some a, l.list.last⟩, progress⟩, k)

theorem skip_flatten (bs : List (List UInt8)) (n : Nat) :
    (skip n bs).flatten = bs.flatten.drop n := by
  induction bs generalizing n with
  | nil => simp [skip]
  | cons b bs ih => simp [skip, ih, List.drop_append]

variable {h : Items} {l : OutList Nat} {li : Addr} {xs : List Addr}

theorem walk_prefix {p : Option Addr} (hs : Seg some h.next p xs none) (n : Nat) :
    (walk h n p).flatten <+: h.wire xs := by
  induction xs generalizing n p with
  | nil =>
    obtain rfl : p = none := hs
    cases n <;> simp [walk]
  | cons a xs ih =>
    obtain ⟨rfl, hs⟩ := hs
    cases n with
    | zero => simp [walk]
    | succ n =>
      simp only [walk, List.flatten_cons, Items.wire, List.flatMap_cons]
      exact List.prefix_append_right_inj _ |>.mpr (ih hs n)

theorem bytes_pos {a : Addr} (ha : (h a).isSome) : 0 < (h.bytes a).length := by
  obtain ⟨i, hi⟩ := Option.isSome_iff_exists.mp ha
  simpa [Items.bytes, Items.frame, hi, List.length_pos_iff] using i.frame.nonempty

theorem release_spec {p : Option Addr} {fuel n : Nat} (hs : Seg some h.next p xs none)
    (hn : xs.Nodup) (ha : ∀ a ∈ xs, (h a).isSome) (hf : n < fuel) (hw : n ≤ (h.wire xs).length) :
    ∃ h' r, ∃ k ≤ xs.length, release fuel h p n = (h', (xs.drop k).head?, r, k) ∧
      (h.wire (xs.take k)).length + r = n ∧
      (k < xs.length → n < (h.wire (xs.take (k + 1))).length) ∧
      (∀ c ∈ xs.drop k, h' c = h c) ∧ ∀ c, c ∉ xs → h' c = h c := by
  induction xs generalizing h p fuel n with
  | nil =>
    obtain rfl : p = none := hs
    cases fuel with
    | zero => omega
    | succ fuel => exact ⟨h, n, 0, by simp [release, Items.wire]⟩
  | cons a xs ih =>
    obtain ⟨rfl, hs⟩ := hs
    obtain ⟨hax, hn⟩ := List.nodup_cons.mp hn
    have hpos := bytes_pos (ha a (by simp))
    cases fuel with
    | zero => omega
    | succ fuel =>
      have hwire : ∀ ys, h.wire (a :: ys) = h.bytes a ++ h.wire ys := fun _ => List.flatMap_cons
      rw [hwire, List.length_append] at hw
      rcases Nat.lt_or_ge n (h.bytes a).length with hlt | hge
      · refine ⟨h, n, 0, by simp, ?_, by simp [Items.wire], ?_, by simp, by simp⟩
        · rw [release, if_neg (by omega)]
          rfl
        · simp [Items.wire]
          omega
      · have hother : ∀ c ∈ xs, h.free a c = h c := fun c hc =>
          Items.free_of_ne fun he => hax (he ▸ hc)
        have hlen : ∀ k, ((h.free a).wire (xs.take k)).length = (h.wire (xs.take k)).length :=
          fun k => by rw [wire_of_eq fun c hc => hother c (List.mem_of_mem_take hc)]
        have hseg : Seg some (h.free a).next (h.next a) xs none :=
          (seg_congr fun c hc => by simp only [Items.next, hother c hc]).mpr hs
        have halive : ∀ c ∈ xs, (h.free a c).isSome := fun c hc => by
          rw [hother c hc]
          exact ha c (by simp [hc])
        have hfuel : n - (h.bytes a).length < fuel := by omega
        have hrest : n - (h.bytes a).length ≤ ((h.free a).wire xs).length := by
          rw [wire_of_eq hother]
          omega
        obtain ⟨h', r, k, hk, heq, hsum, hmax, hkeep, hout⟩ := ih hseg hn halive hfuel hrest
        rw [hlen] at hsum
        refine ⟨h', r, k + 1, by simpa using hk, ?_, ?_, ?_, ?_, ?_⟩
        · rw [release, if_pos hge, heq]
          rfl
        · rw [List.take_succ_cons, hwire, List.length_append]
          omega
        · intro hlt
          have hm := hmax (by simpa using hlt)
          rw [hlen] at hm
          rw [List.take_succ_cons, hwire, List.length_append]
          omega
        · intro c hc
          rw [hkeep c hc, hother c (List.mem_of_mem_drop hc)]
        · intro c hc
          have hne : c ≠ a := fun he => hc (by simp [he])
          rw [hout c fun hm => hc (by simp [hm]), Items.free_of_ne hne]

theorem written_spec {n : Nat} (hl : Holds h l.list xs) (hn : l.rest + n ≤ (h.wire xs).length) :
    ∃ k ≤ xs.length, (written h l n).2.2 = k ∧
      Holds (written h l n).1 (written h l n).2.1.list (xs.drop k) ∧
      (h.wire (xs.take k)).length + (written h l n).2.1.rest = l.rest + n ∧
      (k < xs.length → l.rest + n < (h.wire (xs.take (k + 1))).length) ∧
      (∀ c ∈ xs.drop k, (written h l n).1.frame c = h.frame c) ∧
      ∀ c, c ∉ xs → (written h l n).1 c = h c := by
  obtain ⟨g, r, k, hk, heq, hsum, hmax, hkeep, hout⟩ :=
    release_spec hl.forward hl.nodup hl.alive (Nat.lt_succ_self _) hn
  have hsplit := List.take_append_drop k xs
  refine ⟨k, hk, ?_⟩
  cases hd : xs.drop k with
  | nil =>
    rw [hd] at heq
    rw [written, heq]
    exact ⟨rfl, holds_nil, hsum, hmax, by simp, hout⟩
  | cons a ys =>
    rw [hd] at heq hkeep hsplit
    rw [written, heq]
    rw [← hsplit] at hl
    simp only [List.head?_cons]
    refine ⟨trivial, hl.suffix.congr fun c hc => Items.setPrev_congr _ (hkeep c hc), hsum, hmax, ?_, ?_⟩
    · intro c hc
      rw [Items.frame_setPrev, Items.frame, Items.frame, hkeep c hc]
    · intro c hc
      have hne : c ≠ a := by
        rintro rfl
        exact hc (hsplit ▸ by simp)
      rw [Items.setPrev_of_ne _ hne, hout c hc]

theorem insert_holds (hl : Holds h l.list xs) (ha : (h li).isSome) (hn : li ∉ xs) :
    Holds (insert h l li).1 (insert h l li).2.list (xs ++ [li]) := by
  rcases List.eq_nil_or_concat xs with rfl | ⟨zs, t, rfl⟩
  · have hlast : l.list.last = none := hl.last
    rw [insert, hlast]
    constructor
    · simp
    · simpa using ha
    · simp [Items.next_setNext _ ha]
    · simp [Items.prev_setPrev, ha, Back]
    · rfl
  · rw [List.concat_eq_append] at hl hn ⊢
    have hlast : l.list.last = some t := by simpa using hl.last
    have ht : (h t).isSome := hl.alive t (by simp)
    have hne : li ≠ t := fun he => hn (by simp [he])
    have hsnoc : (zs ++ [t] ++ [li]).Nodup :=
      List.nodup_append.mpr ⟨hl.nodup, by simp, fun a hm b hb he => hn (by simp_all)⟩
    rw [insert, hlast]
    constructor
    · exact hsnoc
    · intro a hm
      rcases List.mem_append.mp hm with hm | hm
      · simpa using hl.alive a hm
      · obtain rfl := List.mem_singleton.mp hm
        simpa using ha
    · rw [Items.next_setNext _ (by simpa using ht), Items.next_setPrev, Items.next_setNext _ ha]
      refine seg_snoc.mpr ⟨seg_link hl.nodup ((seg_update hn).mpr hl.forward), ?_⟩
      rw [Function.update_of_ne hne, Function.update_self]
    · rw [Items.prev_setNext, Items.prev_setPrev _ (by simpa using ha), Items.prev_setNext]
      exact back_append.mpr ⟨(back_update hn).mpr hl.backward, by simp [Back]⟩
    · simp

theorem insert_frame : (insert h l li).1.frame = h.frame := by
  simp only [insert]
  split <;> simp

theorem insert_other (hl : Holds h l.list xs) {c : Addr} (hc : c ∉ xs) (hne : c ≠ li) :
    (insert h l li).1 c = h c := by
  simp only [insert]
  split
  · exact (Items.setPrev_of_ne _ hne).trans (Items.setNext_of_ne _ hne)
  · rename_i t ht
    have hct : c ≠ t := by
      rintro rfl
      exact hc (List.mem_of_getLast? (hl.last.symm.trans ht))
    exact (Items.setNext_of_ne _ hct).trans
      ((Items.setPrev_of_ne _ hne).trans (Items.setNext_of_ne _ hne))

theorem insert_rest : (insert h l li).2.rest = l.rest := by
  simp only [insert]
  split <;> rfl

end ListFramer

def listFramer : Framer Nat where
  init := ⟨⟨none, none⟩, 0⟩
  progress := OutList.rest
  insert := ListFramer.insert
  getIovs := ListFramer.getIovs
  written := ListFramer.written

def letter (b : UInt8) : Frame := ⟨[b], by simp⟩

theorem listFramer_lawful : listFramer.Lawful where
  init_first := rfl
  init_last := rfl
  init_progress := rfl
  insert_holds _ _ _ _ hl ha hn := ListFramer.insert_holds hl ha hn
  insert_frame _ _ _ _ _ _ _ := ListFramer.insert_frame
  insert_other _ _ _ _ hl _ _ _ hc hne := ListFramer.insert_other hl hc hne
  insert_progress _ _ _ _ _ _ _ := ListFramer.insert_rest
  getIovs_prefix _ l n _ hl := by
    have hp := (ListFramer.walk_prefix hl.forward n).drop l.rest
    rwa [← ListFramer.skip_flatten] at hp
  written_spec _ _ _ _ hl hn := ListFramer.written_spec hl hn

end Fsock
