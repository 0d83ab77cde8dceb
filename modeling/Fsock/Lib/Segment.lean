import Mathlib.Tactic

namespace Segment

variable {α π : Type} {ptr : α → π} {nxt alt : α → π}

def Seg (ptr : α → π) (nxt : α → π) : π → List α → π → Prop
  | p, [], q => p = q
  | p, a :: xs, q => p = ptr a ∧ Seg ptr nxt (nxt a) xs q

def Back (prv : α → Option α) : Option α → List α → Prop
  | _, [] => True
  | p, a :: xs => prv a = p ∧ Back prv (some a) xs

@[simp] theorem seg_nil {p q : π} : Seg ptr nxt p [] q ↔ p = q := Iff.rfl

@[simp] theorem seg_cons {p q : π} {a : α} {xs : List α} :
    Seg ptr nxt p (a :: xs) q ↔ p = ptr a ∧ Seg ptr nxt (nxt a) xs q := Iff.rfl

theorem seg_congr {p q : π} {xs : List α} (h : ∀ a ∈ xs, nxt a = alt a) :
    Seg ptr nxt p xs q ↔ Seg ptr alt p xs q := by
  induction xs generalizing p with
  | nil => rfl
  | cons a xs ih =>
    rw [seg_cons, seg_cons, h a (by simp), ih fun b hb => h b (by simp [hb])]

theorem seg_append {p r : π} {xs ys : List α} :
    Seg ptr nxt p (xs ++ ys) r ↔ ∃ q, Seg ptr nxt p xs q ∧ Seg ptr nxt q ys r := by
  induction xs generalizing p with
  | nil => simp
  | cons a xs ih => simp [ih, and_assoc]

theorem seg_snoc {p r : π} {xs : List α} {a : α} :
    Seg ptr nxt p (xs ++ [a]) r ↔ Seg ptr nxt p xs (ptr a) ∧ nxt a = r := by
  simp [seg_append]

theorem seg_unique (hp : Function.Injective ptr) {p q : π} (hq : ∀ a, ptr a ≠ q) {xs ys : List α}
    (hx : Seg ptr nxt p xs q) (hy : Seg ptr nxt p ys q) : xs = ys := by
  induction xs generalizing p ys with
  | nil =>
    cases ys with
    | nil => rfl
    | cons b ys => exact absurd (hy.1.symm.trans hx) (hq b)
  | cons a xs ih =>
    cases ys with
    | nil => exact absurd (hx.1.symm.trans hy) (hq a)
    | cons b ys =>
      obtain rfl := hp (hx.1.symm.trans hy.1)
      rw [ih hx.2 hy.2]

theorem back_congr {prv alt : α → Option α} {p : Option α} {xs : List α}
    (h : ∀ a ∈ xs, prv a = alt a) : Back prv p xs ↔ Back alt p xs := by
  induction xs generalizing p with
  | nil => rfl
  | cons a xs ih =>
    rw [Back, Back, h a (by simp), ih fun b hb => h b (by simp [hb])]

theorem back_append {prv : α → Option α} {p : Option α} {xs ys : List α} :
    Back prv p (xs ++ ys) ↔ Back prv p xs ∧ Back prv (xs.getLast?.or p) ys := by
  induction xs generalizing p with
  | nil => simp [Back]
  | cons a xs ih =>
    have hl : (a :: xs).getLast?.or p = xs.getLast?.or (some a) := by
      rw [List.getLast?_cons]
      cases xs.getLast? <;> rfl
    rw [List.cons_append, Back, Back, ih, hl, and_assoc]

section
variable [DecidableEq α]

theorem seg_update {p q r : π} {a : α} {xs : List α} (ha : a ∉ xs) :
    Seg ptr (Function.update nxt a q) p xs r ↔ Seg ptr nxt p xs r :=
  seg_congr fun b hb => by
    have hne : b ≠ a := fun he => ha (he ▸ hb)
    rw [Function.update_of_ne hne]

theorem seg_link {p q r : π} {a : α} {xs : List α} (hn : (xs ++ [a]).Nodup)
    (h : Seg ptr nxt p (xs ++ [a]) r) : Seg ptr (Function.update nxt a q) p (xs ++ [a]) q := by
  have ha : a ∉ xs := fun hm => (List.nodup_append.mp hn).2.2 a hm a (by simp) rfl
  rw [seg_snoc, seg_update ha]
  exact ⟨(seg_snoc.mp h).1, Function.update_self ..⟩

theorem back_update {prv : α → Option α} {p q : Option α} {a : α} {xs : List α} (ha : a ∉ xs) :
    Back (Function.update prv a q) p xs ↔ Back prv p xs :=
  back_congr fun b hb => by
    have hne : b ≠ a := fun he => ha (he ▸ hb)
    rw [Function.update_of_ne hne]

end

end Segment
