import Fsock.Lib.Segment

namespace Fsock

open Segment

abbrev Addr := Nat

structure Frame where
  bytes : List UInt8
  nonempty : bytes ≠ []
  deriving DecidableEq

structure Item where
  next : Option Addr
  prev : Option Addr
  frame : Frame
  deriving DecidableEq

abbrev Items := Addr → Option Item

structure FrmList where
  first : Option Addr
  last : Option Addr
  deriving DecidableEq

def FrmList.empty (l : FrmList) : Bool := l.first.isNone

structure OutList (ρ : Type) where
  list : FrmList
  rest : ρ

namespace Items

def next (h : Items) (a : Addr) : Option Addr := (h a).bind Item.next

def prev (h : Items) (a : Addr) : Option Addr := (h a).bind Item.prev

def frame (h : Items) (a : Addr) : Option Frame := (h a).map Item.frame

def bytes (h : Items) (a : Addr) : List UInt8 := ((h.frame a).map Frame.bytes).getD []

def wire (h : Items) (xs : List Addr) : List UInt8 := xs.flatMap h.bytes

def setNext (h : Items) (a : Addr) (p : Option Addr) : Items :=
  Function.update h a ((h a).map fun i => { i with next := p })

def setPrev (h : Items) (a : Addr) (p : Option Addr) : Items :=
  Function.update h a ((h a).map fun i => { i with prev := p })

def free (h : Items) (a : Addr) : Items := Function.update h a none

section
variable (h : Items) (a : Addr) (p : Option Addr)

@[simp] theorem isSome_setNext (b : Addr) : (h.setNext a p b).isSome = (h b).isSome := by
  rcases eq_or_ne b a with rfl | hne <;> simp [setNext, *]

@[simp] theorem isSome_setPrev (b : Addr) : (h.setPrev a p b).isSome = (h b).isSome := by
  rcases eq_or_ne b a with rfl | hne <;> simp [setPrev, *]

@[simp] theorem frame_setNext : (h.setNext a p).frame = h.frame := by
  funext b
  rcases eq_or_ne b a with rfl | hne <;> simp [setNext, frame, *]
  rfl

@[simp] theorem frame_setPrev : (h.setPrev a p).frame = h.frame := by
  funext b
  rcases eq_or_ne b a with rfl | hne <;> simp [setPrev, frame, *]
  rfl

@[simp] theorem prev_setNext : (h.setNext a p).prev = h.prev := by
  funext b
  rcases eq_or_ne b a with rfl | hne <;> simp [setNext, prev, *]
  cases h b <;> rfl

@[simp] theorem next_setPrev : (h.setPrev a p).next = h.next := by
  funext b
  rcases eq_or_ne b a with rfl | hne <;> simp [setPrev, next, *]
  cases h b <;> rfl

variable {h a}

theorem next_setNext (ha : (h a).isSome) : (h.setNext a p).next = Function.update h.next a p := by
  obtain ⟨i, hi⟩ := Option.isSome_iff_exists.mp ha
  funext b
  rcases eq_or_ne b a with rfl | hne <;> simp [setNext, next, *]

theorem prev_setPrev (ha : (h a).isSome) : (h.setPrev a p).prev = Function.update h.prev a p := by
  obtain ⟨i, hi⟩ := Option.isSome_iff_exists.mp ha
  funext b
  rcases eq_or_ne b a with rfl | hne <;> simp [setPrev, prev, *]

theorem setNext_of_ne {b : Addr} (hb : b ≠ a) : h.setNext a p b = h b := Function.update_of_ne hb _ _

theorem setPrev_of_ne {b : Addr} (hb : b ≠ a) : h.setPrev a p b = h b := Function.update_of_ne hb _ _

theorem setPrev_congr {h' : Items} {b : Addr} (hb : h' b = h b) :
    h'.setPrev a p b = h.setPrev a p b := by
  rcases eq_or_ne b a with rfl | hne
  · simp [setPrev, hb]
  · rw [setPrev_of_ne p hne, setPrev_of_ne p hne, hb]

theorem free_of_ne {b : Addr} (hb : b ≠ a) : h.free a b = h b := Function.update_of_ne hb _ _

end

end Items

structure Holds (h : Items) (l : FrmList) (xs : List Addr) : Prop where
  nodup : xs.Nodup
  alive : ∀ a ∈ xs, (h a).isSome
  forward : Seg some h.next l.first xs none
  backward : Back h.prev none xs
  last : l.last = xs.getLast?

structure Framer (ρ : Type) where
  init : OutList ρ
  progress : OutList ρ → Nat
  insert : Items → OutList ρ → Addr → Items × OutList ρ
  getIovs : Items → OutList ρ → Nat → List (List UInt8)
  written : Items → OutList ρ → Nat → Items × OutList ρ × Nat

structure Framer.Lawful {ρ : Type} (F : Framer ρ) : Prop where
  init_first : F.init.list.first = none
  init_last : F.init.list.last = none
  init_progress : F.progress F.init = 0
  insert_holds : ∀ h l a xs, Holds h l.list xs → (h a).isSome → a ∉ xs →
    Holds (F.insert h l a).1 (F.insert h l a).2.list (xs ++ [a])
  insert_frame : ∀ h l a xs, Holds h l.list xs → (h a).isSome → a ∉ xs →
    (F.insert h l a).1.frame = h.frame
  insert_other : ∀ h l a xs, Holds h l.list xs → (h a).isSome → a ∉ xs →
    ∀ c, c ∉ xs → c ≠ a → (F.insert h l a).1 c = h c
  insert_progress : ∀ h l a xs, Holds h l.list xs → (h a).isSome → a ∉ xs →
    F.progress (F.insert h l a).2 = F.progress l
  getIovs_prefix : ∀ h l n xs, Holds h l.list xs →
    (F.getIovs h l n).flatten <+: (h.wire xs).drop (F.progress l)
  written_spec : ∀ h l n xs, Holds h l.list xs → F.progress l + n ≤ (h.wire xs).length →
    ∃ k ≤ xs.length, (F.written h l n).2.2 = k ∧
      Holds (F.written h l n).1 (F.written h l n).2.1.list (xs.drop k) ∧
      (h.wire (xs.take k)).length + F.progress (F.written h l n).2.1 = F.progress l + n ∧
      (k < xs.length → F.progress l + n < (h.wire (xs.take (k + 1))).length) ∧
      (∀ c ∈ xs.drop k, (F.written h l n).1.frame c = h.frame c) ∧
      ∀ c, c ∉ xs → (F.written h l n).1 c = h c

section
variable {h h' : Items} {l : FrmList} {xs ys : List Addr}

theorem Holds.first_none (hl : Holds h l xs) : l.first = none ↔ xs = [] := by
  cases xs with
  | nil => simpa using hl.forward
  | cons a xs => simp [hl.forward.1]

theorem Holds.empty_eq (hl : Holds h l xs) : l.empty = true ↔ xs = [] := by
  rw [FrmList.empty, Option.isNone_iff_eq_none, hl.first_none]

theorem holds_nil : Holds h ⟨none, none⟩ [] where
  nodup := .nil
  alive := by simp
  forward := rfl
  backward := trivial
  last := rfl

theorem Holds.congr (hl : Holds h l xs) (hc : ∀ a ∈ xs, h' a = h a) : Holds h' l xs where
  nodup := hl.nodup
  alive := fun a ha => hc a ha ▸ hl.alive a ha
  forward := (seg_congr fun a ha => by rw [Items.next, Items.next, hc a ha]).mpr hl.forward
  backward := (back_congr fun a ha => by rw [Items.prev, Items.prev, hc a ha]).mpr hl.backward
  last := hl.last

theorem Holds.suffix {a : Addr} (hl : Holds h l (xs ++ a :: ys)) :
    Holds (h.setPrev a none) ⟨some a, l.last⟩ (a :: ys) := by
  obtain ⟨-, hn, -⟩ := List.nodup_append.mp hl.nodup
  obtain ⟨q, -, hseg⟩ := seg_append.mp hl.forward
  obtain ⟨-, hback⟩ := back_append.mp hl.backward
  have ha : a ∉ ys := (List.nodup_cons.mp hn).1
  constructor
  · exact hn
  · simpa using fun b hb => hl.alive b (List.mem_append_right _ hb)
  · rw [Items.next_setPrev]
    exact ⟨rfl, hseg.2⟩
  · rw [Items.prev_setPrev _ (hl.alive a (by simp))]
    exact ⟨Function.update_self .., (back_update ha).mpr hback.2⟩
  · simpa [List.getLast?_append, List.getLast?_cons] using hl.last

theorem wire_append : h.wire (xs ++ ys) = h.wire xs ++ h.wire ys := List.flatMap_append

theorem wire_congr (hc : ∀ a ∈ xs, h'.frame a = h.frame a) : h'.wire xs = h.wire xs :=
  List.flatMap_congr fun a ha => by rw [Items.bytes, Items.bytes, hc a ha]

theorem wire_of_eq (hc : ∀ a ∈ xs, h' a = h a) : h'.wire xs = h.wire xs :=
  wire_congr fun a ha => by simp only [Items.frame, hc a ha]

theorem bytes_update (a : Addr) (i : Item) :
    Items.bytes (Function.update h a (some i)) a = i.frame.bytes := by
  simp [Items.bytes, Items.frame]

end

end Fsock
