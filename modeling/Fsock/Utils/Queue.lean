import Fsock.Lib.Segment

namespace Fsock

open Segment

inductive Link (α : Type) where
  | null
  | notInQueue
  | item (a : α)
  deriving DecidableEq

structure Queue (α : Type) where
  head : Link α
  tail : Link α
  deriving DecidableEq

namespace Queue

variable {α : Type} [DecidableEq α]

def init : Queue α := ⟨.null, .null⟩

def empty (self : Queue α) : Bool := self.head = .null

def push (next : α → Link α) (self : Queue α) (item : α) : Option ((α → Link α) × Queue α) :=
  if next item = .notInQueue then
    let next := Function.update next item .null
    let head := if self.head = .null then .item item else self.head
    let next := match self.tail with
      | .item tail => Function.update next tail (.item item)
      | _ => next
    some (next, ⟨head, .item item⟩)
  else none

def pop (next : α → Link α) (self : Queue α) : (α → Link α) × Queue α × Option α :=
  match self.head with
  | .item result =>
    let head := next result
    let tail := if head = .null then .null else self.tail
    (Function.update next result .notInQueue, ⟨head, tail⟩, some result)
  | _ => (next, self, none)

def removeFrom (next : α → Link α) (self : Queue α) (item : α) :
    Nat → Link α → Link α → Option ((α → Link α) × Queue α)
  | 0, _, _ => none
  | fuel + 1, .item it, prev =>
    if it = item then
      let head := if self.head = .item it then next it else self.head
      let tail := if self.tail = .item it then prev else self.tail
      let next := match prev with
        | .item prev => Function.update next prev (next it)
        | _ => next
      some (Function.update next item .notInQueue, ⟨head, tail⟩)
    else removeFrom next self item fuel (next it) (.item it)
  | _, .null, _ => some (next, self)
  | _, .notInQueue, _ => none

def remove (next : α → Link α) (self : Queue α) (item : α) (fuel : Nat) :
    Option ((α → Link α) × Queue α) :=
  if next item = .notInQueue then some (next, self)
  else removeFrom next self item fuel self.head .null

end Queue

namespace Queue

variable {α : Type}

def ending (xs : List α) : Link α := xs.getLast?.elim .null .item

structure Lists (next : α → Link α) (q : Queue α) (xs : List α) : Prop where
  nodup : xs.Nodup
  forward : Seg .item next q.head xs .null
  tail : q.tail = ending xs

theorem ending_snoc (xs : List α) (a : α) : ending (xs ++ [a]) = .item a := by simp [ending]

theorem ending_append (xs : List α) {ys : List α} (hy : ys ≠ []) :
    ending (xs ++ ys) = ending ys := by
  rw [ending, ending, List.getLast?_append]
  cases hl : ys.getLast? with
  | none => exact absurd (List.getLast?_eq_none_iff.mp hl) hy
  | some => rfl

theorem ending_mem {xs : List α} {a : α} (h : ending xs = .item a) : a ∈ xs := by
  rcases List.eq_nil_or_concat xs with rfl | ⟨zs, t, rfl⟩
  · cases h
  · rw [List.concat_eq_append] at h ⊢
    rw [ending_snoc, Link.item.injEq] at h
    simp [h]

variable {next alt : α → Link α} {q : Queue α} {xs : List α} {a : α}

theorem lists_init : Lists next init ([] : List α) := ⟨.nil, rfl, rfl⟩

theorem Lists.congr (h : Lists next q xs) (hc : ∀ b ∈ xs, alt b = next b) : Lists alt q xs :=
  ⟨h.nodup, (seg_congr hc).mpr h.forward, h.tail⟩

theorem Lists.queued (h : Lists next q xs) (ha : a ∈ xs) : next a ≠ .notInQueue := by
  obtain ⟨ys, zs, rfl⟩ := List.append_of_mem ha
  obtain ⟨p, -, -, hseg⟩ := seg_append.mp h.forward
  cases zs with
  | nil =>
    rw [show next a = .null from hseg]
    nofun
  | cons b zs =>
    rw [hseg.1]
    nofun

variable [DecidableEq α]

theorem Lists.empty_eq (h : Lists next q xs) : q.empty = true ↔ xs = [] := by
  cases xs with
  | nil => simpa [empty] using h.forward
  | cons b xs => simp [empty, h.forward.1]

theorem push_lists (h : Lists next q xs) (hn : next a = .notInQueue) :
    ∃ next' q', push next q a = some (next', q') ∧ Lists next' q' (xs ++ [a]) ∧
      ∀ b, b ∉ xs → b ≠ a → next' b = next b := by
  have ha : a ∉ xs := fun hm => h.queued hm hn
  refine ⟨_, _, if_pos hn, ?_⟩
  rcases List.eq_nil_or_concat xs with rfl | ⟨zs, t, rfl⟩
  · have hhead : q.head = .null := h.forward
    have htail : q.tail = .null := h.tail
    simp only [hhead, htail, if_true]
    exact ⟨⟨by simp, ⟨rfl, Function.update_self ..⟩, rfl⟩, fun b _ hb => Function.update_of_ne hb _ _⟩
  · rw [List.concat_eq_append] at h ha ⊢
    have htail : q.tail = .item t := by rw [h.tail, ending_snoc]
    have hhead : q.head ≠ .null := fun he => by
      have hempty := h.empty_eq.mp (by simp [empty, he])
      simp at hempty
    have hat : a ≠ t := fun he => ha (by simp [he])
    have hnodup : (zs ++ [t] ++ [a]).Nodup :=
      List.nodup_append.mpr ⟨h.nodup, by simp, fun b hb c hc he => ha (by simp_all)⟩
    simp only [htail, if_neg hhead]
    refine ⟨⟨hnodup, seg_snoc.mpr ⟨seg_link h.nodup ((seg_update ha).mpr h.forward), ?_⟩,
      (ending_snoc ..).symm⟩, ?_⟩
    · rw [Function.update_of_ne hat, Function.update_self]
    · intro b hb hba
      have hbt : b ≠ t := fun he => hb (by simp [he])
      rw [Function.update_of_ne hbt, Function.update_of_ne hba]

theorem pop_lists (h : Lists next q (a :: xs)) :
    ∃ q', pop next q = (Function.update next a .notInQueue, q', some a) ∧
      Lists (Function.update next a .notInQueue) q' xs := by
  obtain ⟨ha, hn⟩ := List.nodup_cons.mp h.nodup
  obtain ⟨hhead, hseg⟩ := h.forward
  refine ⟨⟨next a, if next a = .null then .null else q.tail⟩, by rw [pop, hhead], hn,
    (seg_update ha).mpr hseg, ?_⟩
  cases xs with
  | nil => exact if_pos hseg
  | cons b xs =>
    have hb : next a = .item b := hseg.1
    simp [hb, h.tail, ending, List.getLast?_cons]

theorem unlink_lists {ys zs : List α} (h : Lists next q (ys ++ a :: zs)) (fuel : Nat) :
    ∃ next' q', removeFrom next q a (fuel + 1) (.item a) (ending ys) = some (next', q') ∧
      Lists next' q' (ys ++ zs) ∧ next' a = .notInQueue ∧
      ∀ b, b ∉ ys ++ a :: zs → next' b = next b := by
  obtain ⟨hperm, hnd⟩ := List.nodup_cons.mp ((@List.perm_middle α a ys zs).nodup_iff.mp h.nodup)
  obtain ⟨p, hys, rfl, hzs⟩ := seg_append.mp h.forward
  refine ⟨_, _, if_pos rfl, ⟨hnd, ?_, ?_⟩, Function.update_self .., ?_⟩
  · rcases List.eq_nil_or_concat ys with rfl | ⟨us, t, rfl⟩
    · have hhead : q.head = .item a := hys
      exact (seg_update hperm).mpr (by simpa [hhead, ending] using hzs)
    · rw [List.concat_eq_append] at *
      have hhead : q.head ≠ .item a := by
        intro he
        cases us with
        | nil =>
          have ht := hys.1
          simp_all
        | cons u us =>
          have hu := hys.1
          simp_all
      rw [ending_snoc, if_neg hhead]
      have ht : t ∉ zs := fun hm => by
        have hd := List.nodup_append.mp hnd
        exact hd.2.2 t (by simp) t hm rfl
      refine (seg_update hperm).mpr (seg_append.mpr ⟨next a, seg_link ?_ hys, (seg_update ht).mpr hzs⟩)
      exact (List.nodup_append.mp hnd).1
  · rw [h.tail]
    cases zs with
    | nil => simp [ending_snoc]
    | cons z zs =>
      have hz : ending (ys ++ a :: z :: zs) = ending (z :: zs) := by
        rw [ending_append _ (by simp), ← List.singleton_append, ending_append _ (by simp)]
      have hne : ending (ys ++ a :: z :: zs) ≠ .item a := by
        rw [hz]
        intro he
        exact hperm (List.mem_append_right _ (ending_mem he))
      rw [if_neg hne, hz, ending_append _ (by simp)]
  · intro b hb
    have hba : b ≠ a := fun he => hb (by simp [he])
    rw [Function.update_of_ne hba]
    rcases List.eq_nil_or_concat ys with rfl | ⟨us, t, rfl⟩
    · rfl
    · rw [List.concat_eq_append] at *
      have hbt : b ≠ t := fun he => hb (by simp [he])
      rw [ending_snoc]
      exact Function.update_of_ne hbt _ _

theorem removeFrom_lists {ys zs : List α} (h : Lists next q (ys ++ zs)) (ha : a ∉ ys) {fuel : Nat}
    (hf : zs.length < fuel) {p : Link α} (hp : Seg .item next p zs .null) :
    ∃ next' q', removeFrom next q a fuel p (ending ys) = some (next', q') ∧
      Lists next' q' (ys ++ zs.erase a) ∧ (a ∈ zs → next' a = .notInQueue) ∧
      ∀ b, b ∉ ys ++ zs → next' b = next b := by
  induction zs generalizing ys fuel p with
  | nil =>
    obtain ⟨fuel, rfl⟩ := Nat.exists_eq_succ_of_ne_zero hf.ne'
    obtain rfl : p = .null := hp
    exact ⟨next, q, rfl, h, by simp, fun _ _ => rfl⟩
  | cons z zs ih =>
    obtain ⟨fuel, rfl⟩ := Nat.exists_eq_succ_of_ne_zero (Nat.zero_lt_of_lt hf).ne'
    obtain ⟨rfl, hseg⟩ := hp
    rcases eq_or_ne z a with rfl | hza
    · obtain ⟨next', q', hr, hl, hn, ho⟩ := unlink_lists h fuel
      exact ⟨next', q', hr, by simpa using hl, fun _ => hn, ho⟩
    · have hmid : ys ++ z :: zs = (ys ++ [z]) ++ zs := by simp
      rw [hmid] at h
      obtain ⟨next', q', hr, hl, hn, ho⟩ := ih h (by simp [ha, hza.symm])
        (by simpa using hf) hseg
      refine ⟨next', q', ?_, ?_, ?_, ?_⟩
      · rw [ending_snoc] at hr
        exact (if_neg hza).trans hr
      · rw [List.erase_cons_tail (by simpa using hza)]
        simpa using hl
      · intro hm
        exact hn (List.mem_of_ne_of_mem hza.symm hm)
      · intro b hb
        exact ho b (by simpa using hb)

theorem remove_lists (h : Lists next q xs) {fuel : Nat} (hf : xs.length < fuel) :
    ∃ next' q', remove next q a fuel = some (next', q') ∧ Lists next' q' (xs.erase a) ∧
      (a ∈ xs → next' a = .notInQueue) ∧ ∀ b, b ∉ xs → next' b = next b := by
  unfold remove
  split
  case isTrue hn =>
    have ha : a ∉ xs := fun hm => h.queued hm hn
    exact ⟨next, q, rfl, by rwa [List.erase_of_not_mem ha], fun hm => absurd hm ha, fun _ _ => rfl⟩
  case isFalse =>
    have hnil : a ∉ ([] : List α) := List.not_mem_nil
    exact removeFrom_lists h hnil hf h.forward

end Queue

end Fsock
