import Fsock.Core.Channel

namespace Fsock

open StreamCodec

namespace SizedParser

def size (a b c d : UInt8) : Nat :=
  ((a.toNat * 256 + b.toNat) * 256 + c.toNat) * 256 + d.toNat

def split : List UInt8 → Option (Frame × List UInt8)
  | a :: b :: c :: d :: rest =>
    if size a b c d ≤ rest.length then
      some (⟨a :: b :: c :: d :: rest.take (size a b c d), by simp⟩, rest.drop (size a b c d))
    else none
  | _ => none

abbrev Sized (fr : Frame) : Prop := split fr.bytes = some (fr, [])

theorem sized_bytes {fr : Frame} (h : Sized fr) :
    ∃ a b c d p, fr.bytes = a :: b :: c :: d :: p ∧ size a b c d = p.length := by
  unfold Sized split at h
  split at h
  case h_2 => cases h
  case h_1 a b c d p hb =>
    split at h
    case isFalse => cases h
    case isTrue hle =>
      obtain ⟨-, hd⟩ := Prod.mk.inj (Option.some.inj h)
      have hlen := congrArg List.length hd
      rw [List.length_drop, List.length_nil] at hlen
      exact ⟨a, b, c, d, p, hb, by omega⟩

theorem splits : Splits split Frame.bytes Sized where
  nil := rfl
  nonempty fr _ := fr.nonempty
  head fr rest h := by
    obtain ⟨a, b, c, d, p, hb, hn⟩ := sized_bytes h
    have hle : size a b c d ≤ (p ++ rest).length := by
      rw [List.length_append, hn]
      exact Nat.le_add_right ..
    have hfr : fr = ⟨a :: b :: c :: d :: p, by simp⟩ := by
      cases fr
      simp_all
    rw [hb, hfr, List.cons_append, List.cons_append, List.cons_append, List.cons_append, split,
      if_pos hle]
    simp only [hn, List.take_left, List.drop_left]
  short fr u h hp hne := by
    obtain ⟨a, b, c, d, p, hb, hn⟩ := sized_bytes h
    obtain ⟨w, hw⟩ := hp
    rw [hb] at hw hne
    unfold split
    split
    case h_2 => rfl
    case h_1 =>
      simp only [List.cons_append, List.cons.injEq] at hw
      obtain ⟨rfl, rfl, rfl, rfl, rfl⟩ := hw
      have hpos : w ≠ [] := by
        rintro rfl
        simp at hne
      have hlen := List.length_pos_iff.mpr hpos
      rw [List.length_append] at hn
      exact if_neg (by omega)

end SizedParser

def sizedParser : FrameParser (List UInt8) := buffered SizedParser.split

end Fsock
