import Mathlib.Data.List.Basic

namespace Fsock

structure Efd (E : Type) where
  init : E
  signal : E → Option E
  readable : E → Bool
  unsignal : E → Option (E × Bool)

namespace Efd

variable {E : Type} {I : Efd E} {count : E → Nat} {n : Nat}

structure Lawful (I : Efd E) (count : E → Nat) (n : Nat) : Prop where
  init : count I.init = 0
  signal : ∀ e, count e < n → ∃ e', I.signal e = some e' ∧ count e' = count e + 1
  readable : ∀ e, I.readable e = decide (0 < count e)
  unsignal : ∀ e, 0 < count e → count e ≤ n → ∃ e', I.unsignal e = some (e', false) ∧ count e' = 0

def Tolerant (I : Efd E) (count : E → Nat) : Prop :=
  ∀ e, count e = 0 → ∃ e', I.unsignal e = some (e', false) ∧ count e' = 0

def eventfdMax : Nat := 18446744073709551614

def eventfd : Efd Nat where
  init := 0
  signal efd := if efd + 1 ≤ eventfdMax then some (efd + 1) else none
  readable efd := decide (0 < efd)
  unsignal efd := if 0 < efd then some (0, false) else none

def bufSize : Nat := 16

def pipe (capacity : Nat) : Efd (List UInt8) where
  init := []
  signal bytes := if bytes.length < capacity then some (bytes ++ [101]) else none
  readable bytes := !bytes.isEmpty
  -- EAGAIN on the empty pipe counts as nbytes = 0; only a full buffer repeats the read
  unsignal bytes := some (bytes.drop bufSize, decide (bufSize ≤ bytes.length))

def socketpair (capacity : Nat) : Efd (List UInt8) := pipe capacity

theorem eventfd_lawful (hn : n ≤ eventfdMax) : eventfd.Lawful id n where
  init := rfl
  signal e he := ⟨e + 1, if_pos (by simp only [id] at he; omega), rfl⟩
  readable _ := rfl
  unsignal e he _ := ⟨0, if_pos he, rfl⟩

theorem pipe_unsignal {capacity : Nat} {bytes : List UInt8} (h : bytes.length < bufSize) :
    ∃ e', (pipe capacity).unsignal bytes = some (e', false) ∧ e'.length = 0 :=
  ⟨bytes.drop bufSize, by simp [pipe, h], by simp [Nat.le_of_lt h]⟩

theorem pipe_lawful {capacity : Nat} (hc : n ≤ capacity) (hn : n < bufSize) :
    (pipe capacity).Lawful List.length n where
  init := rfl
  signal e he := ⟨e ++ [101], if_pos (Nat.lt_of_lt_of_le he hc), List.length_append⟩
  readable e := by cases e <;> simp [pipe]
  unsignal _ _ he := pipe_unsignal (Nat.lt_of_le_of_lt he hn)

theorem pipe_tolerant {capacity : Nat} : (pipe capacity).Tolerant List.length :=
  fun _ he => pipe_unsignal (he ▸ (by decide : 0 < bufSize))

end Efd

end Fsock
