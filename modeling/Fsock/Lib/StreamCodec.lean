import Mathlib.Data.List.Basic

namespace StreamCodec

variable {α β σ : Type}

def wire (enc : β → List α) (bs : List β) : List α := bs.flatMap enc

def whole (enc : β → List α) : List β → Nat → List β
  | [], _ => []
  | b :: bs, n => if (enc b).length ≤ n then b :: whole enc bs (n - (enc b).length) else []

structure Decoder (σ α β : Type) where
  init : σ
  feed : σ → List α → Option (σ × List β)

structure Decoder.Tracks (D : Decoder σ α β) (enc : β → List α) (valid : β → Prop)
    (rel : σ → List α → Prop) : Prop where
  init : rel D.init []
  feed : ∀ s u v bs, rel s u → (∀ b ∈ bs, valid b) → u ++ v <+: wire enc bs →
    ∃ s', D.feed s v = some (s', (whole enc bs (u ++ v).length).drop (whole enc bs u.length).length) ∧
      rel s' (u ++ v)

structure Splits (split : List α → Option (β × List α)) (enc : β → List α) (valid : β → Prop) :
    Prop where
  nil : split [] = none
  nonempty : ∀ b, valid b → enc b ≠ []
  head : ∀ b rest, valid b → split (enc b ++ rest) = some (b, rest)
  short : ∀ b u, valid b → u <+: enc b → u ≠ enc b → split u = none

def peel (split : List α → Option (β × List α)) : Nat → List α → List β × List α
  | 0, u => ([], u)
  | n + 1, u =>
    match split u with
    | none => ([], u)
    | some (b, u) => ((b :: (peel split n u).1), (peel split n u).2)

def buffered (split : List α → Option (β × List α)) : Decoder (List α) α β where
  init := []
  feed buf v :=
    let (bs, buf) := peel split (buf ++ v).length (buf ++ v)
    some (buf, bs)

section

variable {enc : β → List α} {bs cs : List β} {m n : Nat} {u v : List α}

@[simp] theorem wire_nil : wire enc [] = [] := rfl

@[simp] theorem wire_cons (b : β) : wire enc (b :: bs) = enc b ++ wire enc bs :=
  List.flatMap_cons

theorem wire_append : wire enc (bs ++ cs) = wire enc bs ++ wire enc cs := List.flatMap_append

theorem wire_le (enc : β → List α) (h : bs <+: cs) : wire enc bs <+: wire enc cs := by
  obtain ⟨ds, rfl⟩ := h
  rw [wire_append]
  exact List.prefix_append ..

theorem whole_le (enc : β → List α) (bs : List β) (n : Nat) : whole enc bs n <+: bs := by
  induction bs generalizing n with
  | nil => exact List.prefix_refl _
  | cons b bs ih =>
    rw [whole]
    split
    · exact (List.prefix_cons_inj b).mpr (ih _)
    · exact List.nil_prefix

theorem whole_mono (enc : β → List α) (bs : List β) (h : m ≤ n) :
    whole enc bs m <+: whole enc bs n := by
  induction bs generalizing m n with
  | nil => exact List.prefix_refl _
  | cons b bs ih =>
    rw [whole, whole]
    split
    case isTrue hm =>
      rw [if_pos (Nat.le_trans hm h)]
      exact (List.prefix_cons_inj b).mpr (ih (Nat.sub_le_sub_right h _))
    case isFalse => exact List.nil_prefix

theorem whole_past (enc : β → List α) (bs cs : List β) (n : Nat) :
    whole enc (bs ++ cs) ((wire enc bs).length + n) = bs ++ whole enc cs n := by
  induction bs with
  | nil => simp
  | cons b bs ih =>
    rw [wire_cons, List.length_append, Nat.add_assoc, List.cons_append, whole,
      if_pos (Nat.le_add_right ..), Nat.add_sub_cancel_left, ih]
    rfl

theorem whole_all : whole enc bs (wire enc bs).length = bs := by
  simpa [whole] using whole_past enc bs [] 0

theorem whole_append (hne : ∀ b ∈ cs, enc b ≠ []) (hn : n ≤ (wire enc bs).length) :
    whole enc (bs ++ cs) n = whole enc bs n := by
  induction bs generalizing n with
  | nil =>
    obtain rfl : n = 0 := Nat.le_zero.mp hn
    cases cs with
    | nil => rfl
    | cons c cs =>
      have hpos := List.length_pos_iff.mpr (hne c (by simp))
      exact if_neg (by omega)
  | cons b bs ih =>
    rw [wire_cons, List.length_append] at hn
    rw [List.cons_append, whole, whole, ih (by omega)]

theorem wire_whole_le : (wire enc (whole enc bs n)).length ≤ n := by
  induction bs generalizing n with
  | nil => exact Nat.zero_le _
  | cons b bs ih =>
    rw [whole]
    split
    · have hle := ih (n := n - (enc b).length)
      rw [wire_cons, List.length_append]
      omega
    · exact Nat.zero_le _

end

section

variable {split : List α → Option (β × List α)} {enc : β → List α} {valid : β → Prop}
  {bs : List β} {n : Nat} {u : List α}

theorem Splits.peel_eq (h : Splits split enc valid) (hv : ∀ b ∈ bs, valid b)
    (hu : u <+: wire enc bs) (hn : u.length ≤ n) :
    peel split n u = (whole enc bs u.length, u.drop (wire enc (whole enc bs u.length)).length) := by
  induction bs generalizing n u with
  | nil =>
    obtain rfl : u = [] := List.prefix_nil.mp hu
    cases n with
    | zero => rfl
    | succ n => rw [peel, h.nil]; rfl
  | cons b bs ih =>
    obtain ⟨hb, hbs⟩ := List.forall_mem_cons.mp hv
    have hpos := List.length_pos_iff.mpr (h.nonempty b hb)
    rw [wire_cons] at hu
    rcases Nat.lt_or_ge u.length (enc b).length with hlt | hge
    · have hp : u <+: enc b := List.prefix_of_prefix_length_le hu (List.prefix_append ..) (Nat.le_of_lt hlt)
      have hne : u ≠ enc b := by
        rintro rfl
        exact Nat.lt_irrefl _ hlt
      have hw : whole enc (b :: bs) u.length = [] := if_neg (by omega)
      rw [hw]
      cases n with
      | zero => rfl
      | succ n => rw [peel, h.short b u hb hp hne]; rfl
    · obtain ⟨rest, rfl⟩ := List.prefix_of_prefix_length_le (List.prefix_append ..) hu hge
      have hr := (List.prefix_append_right_inj _).mp hu
      rw [List.length_append] at hn
      cases n with
      | zero => omega
      | succ n =>
        have hi := ih hbs hr (n := n) (by omega)
        have hw : whole enc (b :: bs) (enc b ++ rest).length = b :: whole enc bs rest.length := by
          rw [whole, List.length_append, if_pos (Nat.le_add_right ..), Nat.add_sub_cancel_left]
        rw [peel, h.head b rest hb, hw, wire_cons, List.length_append, List.drop_length_add_append]
        simp only [hi]

theorem Splits.leftover (h : Splits split enc valid) (hv : ∀ b ∈ bs, valid b)
    (hu : u <+: wire enc bs) :
    wire enc (whole enc bs u.length) ++ (peel split u.length u).2 = u := by
  have hp := wire_le enc (whole_le enc bs u.length)
  have hw := List.prefix_of_prefix_length_le hp hu wire_whole_le
  rw [h.peel_eq hv hu (Nat.le_refl _)]
  exact List.prefix_iff_eq_append.mp hw

theorem Splits.tracks (h : Splits split enc valid) : (buffered split).Tracks enc valid
    fun buf u => (peel split u.length u).2 = buf where
  init := rfl
  feed := by
    rintro _ u v bs rfl hv hu
    have hb := h.leftover hv ((List.prefix_append u v).trans hu)
    have hp := h.peel_eq hv hu (Nat.le_refl _)
    obtain ⟨cs, hcs⟩ := whole_le enc bs u.length
    generalize hw : whole enc bs u.length = ws at hb hcs
    generalize (peel split u.length u).2 = buf at hb
    subst hcs hb
    have hvc : ∀ b ∈ cs, valid b := fun b hb => hv b (by simp [hb])
    rw [List.append_assoc, wire_append] at hu
    have hr := h.peel_eq hvc ((List.prefix_append_right_inj _).mp hu) (Nat.le_refl _)
    have hlen : whole enc (ws ++ cs) (wire enc ws ++ buf ++ v).length =
        ws ++ whole enc cs (buf ++ v).length := by
      rw [List.append_assoc, List.length_append, whole_past]
    refine ⟨_, ?_, rfl⟩
    rw [hp, hlen, List.drop_left]
    simp only [buffered, hr]
    rw [List.append_assoc, wire_append, @List.length_append _ (wire enc ws),
      List.drop_length_add_append]

end

end StreamCodec
