import Mathlib.Data.List.Basic
import Mathlib.Data.List.TakeDrop

namespace Fsock

inductive Ptr where
  | null
  | empty
  | obj (addr : Nat)
  deriving DecidableEq, Repr

inductive Fault where
  | assertion
  | bounds
  | diverges
  deriving DecidableEq, Repr

structure Parr where
  elems : Option (List Ptr)
  last : Int
  capacity : Int
  increment : Int
  deriving DecidableEq, Repr

abbrev Mem := Option (Nat → Ptr)

namespace Parr

def init (increment : Int) : Parr := ⟨none, 0, 0, increment⟩

def load (self : Parr) (i : Int) : Except Fault Ptr :=
  match self.elems with
  | none => .error .bounds
  | some block => if i < 0 then .error .bounds else
      match block[i.toNat]? with
      | none => .error .bounds
      | some p => .ok p

def store (self : Parr) (i : Int) (p : Ptr) : Except Fault Parr :=
  match self.elems with
  | none => .error .bounds
  | some block => if 0 ≤ i ∧ i.toNat < block.length then
      .ok { self with elems := some (block.set i.toNat p) } else .error .bounds

def resize (block : List Ptr) (n : Nat) (junk : Nat → Ptr) : List Ptr :=
  (List.range n).map fun i => block[i]?.getD (junk i)

def realloc (self : Parr) (increment : Int) : Mem → Option Parr
  | none => none
  | some junk => some { self with
      elems := some (resize (self.elems.getD []) (self.capacity + increment).toNat junk)
      capacity := self.capacity + increment }

def insertScan (self : Parr) : Nat → Int → Except Fault Int
  | 0, ret => .ok ret
  | n + 1, ret => do
      if (← self.load ret) = .empty then return ret
      insertScan self n (ret + 1)

def insertAt (self : Parr) (elem : Ptr) : Except Fault (Parr × Int) := do
  let ret ← self.insertScan self.last.toNat 0
  let self ← self.store ret elem
  return ({ self with last := self.last + 1 }, ret)

def growing (self : Parr) : Prop := self.capacity = 0 ∨ self.last = self.capacity - 1

instance (self : Parr) : Decidable self.growing := by unfold growing; infer_instance

def insert (self : Parr) (elem : Ptr) (mem : Mem) : Except Fault (Parr × Int) :=
  if ¬ (0 ≤ self.last ∧ (self.capacity = 0 ∨ self.last < self.capacity)) then .error .assertion
  else if self.growing then
    match self.realloc self.increment mem with
    | none => .ok (self, -1)
    | some self => self.insertAt elem
  else self.insertAt elem

def emptyScan (self : Parr) : Nat → Int → Except Fault Bool
  | 0, _ => .ok true
  | n + 1, i => do
      if (← self.load i) ≠ .empty then return false
      emptyScan self n (i + 1)

def empty (self : Parr) : Except Fault Bool := self.emptyScan self.last.toNat 0

def sizeScan (self : Parr) : Nat → Int → Int → Except Fault Int
  | 0, _, len => .ok len
  | n + 1, i, len => do
      let p ← self.load i
      sizeScan self n (i + 1) (if p ≠ .empty then len + 1 else len)

def size (self : Parr) : Except Fault Int :=
  if self.capacity = 0 then .ok 0 else self.sizeScan self.last.toNat 0 0

def term (self : Parr) : Except Fault Unit := do
  if (← self.size) ≠ 0 then throw .assertion

def canShrinkScan (self : Parr) : Nat → Int → Except Fault Bool
  | 0, _ => .ok true
  | n + 1, index => do
      if (← self.load index) ≠ .empty then return false
      canShrinkScan self n (index - 1)

def canShrink (self : Parr) : Except Fault Bool :=
  self.canShrinkScan (self.last - (self.capacity - self.increment)).toNat (self.last - 1)

def clearLoop : Nat → (Nat → Mem) → Parr → Except Fault (Parr × Int)
  | 0, _, _ => .error .diverges
  | fuel + 1, mem, self => do
      if ← self.canShrink then
        if self.capacity = self.increment then
          self.term
          return (init self.increment, 0)
        else
          match self.realloc (-self.increment) (mem 0) with
          | none => return (self, -1)
          | some self => clearLoop fuel (fun k => mem (k + 1)) self
      else return (self, 0)

def clear (self : Parr) (index : Int) (mem : Nat → Mem) : Except Fault (Parr × Int) :=
  if ¬ (0 ≤ index ∧ index < self.last) then .error .assertion
  else do
    let self ← self.store index .empty
    clearLoop (self.capacity.toNat + 1) mem self

def beginScan (self : Parr) : Nat → Int → Except Fault (Ptr × Int)
  | 0, _ => .ok (.null, -1)
  | n + 1, i => do
      let p ← self.load i
      if p = .empty then beginScan self n (i + 1) else return (p, i)

def begin (self : Parr) : Except Fault (Ptr × Int) :=
  if self.last = 0 ∨ self.elems = none then .ok (.null, -1)
  else self.beginScan self.last.toNat 0

def nextScan (self : Parr) : Nat → Int → Except Fault (Ptr × Int)
  | 0, index => .ok (.null, index)
  | n + 1, index => do
      let p ← self.load (index + 1)
      if p = .empty then nextScan self n (index + 1) else return (p, index + 1)

def next (self : Parr) (index : Int) : Except Fault (Ptr × Int) :=
  if ¬ 0 ≤ index then .error .assertion
  else if self.last = 0 ∨ index = self.last - 1 then .ok (.null, index)
  else self.nextScan (self.last - (index + 1)).toNat index

end Parr

end Fsock
