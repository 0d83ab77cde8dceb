import Fsock.Core.Workers
import Fsock.Utils.Parr

namespace Fsock

inductive Member (κ β : Type) where
  | conn (c : κ)
  | bind (b : β)
  deriving DecidableEq

inductive Slots (β : Type) where
  | binds
  | conns
  | bnd (b : β)
  deriving DecidableEq

structure Tables (β : Type) where
  conns : Parr
  binds : Parr
  bnds : β → Parr

namespace Tables

variable {β : Type}

def init : Tables β := ⟨.init 10, .init 10, fun _ => .init 10⟩

def row (self : Tables β) : Slots β → Parr
  | .binds => self.binds
  | .conns => self.conns
  | .bnd b => self.bnds b

def set [DecidableEq β] (self : Tables β) (k : Slots β) (arr : Parr) : Tables β :=
  match k with
  | .binds => { self with binds := arr }
  | .conns => { self with conns := arr }
  | .bnd b => { self with bnds := Function.update self.bnds b arr }

def insert [DecidableEq β] (self : Tables β) (k : Slots β) (index : Nat) (junk : Nat → Ptr) :
    Option (Tables β) :=
  match (self.row k).insert (.obj index) (some junk) with
  | .ok (arr, _) => some (self.set k arr)
  | .error _ => none

section

variable [DecidableEq β] (t : Tables β) {j k : Slots β} (arr : Parr)

@[simp] theorem row_set_self : (t.set k arr).row k = arr := by
  cases k with
  | binds => rfl
  | conns => rfl
  | bnd b => exact Function.update_self b arr t.bnds

theorem row_set_of_ne (hj : j ≠ k) : (t.set k arr).row j = t.row j := by
  cases k with
  | binds =>
    cases j with
    | binds => exact absurd rfl hj
    | _ => rfl
  | conns =>
    cases j with
    | conns => exact absurd rfl hj
    | _ => rfl
  | bnd b =>
    cases j with
    | bnd d => exact Function.update_of_ne (fun he => hj (congrArg Slots.bnd he)) arr t.bnds
    | _ => rfl

@[simp] theorem set_row : t.set k (t.row k) = t := by
  cases k with
  | binds => rfl
  | conns => rfl
  | bnd b => rw [set, row, Function.update_eq_self]

end

end Tables

structure Site (κ β τ : Type) where
  sys : Workers κ β τ
  tables : Tables β

abbrev SiteLabel (κ β τ : Type) := WorkersLabel κ β τ × (Nat → Ptr)

namespace Site

variable {κ β τ : Type} [DecidableEq κ] [DecidableEq β] [DecidableEq τ]

def init (rcvhwm : Int) : Site κ β τ := ⟨.init rcvhwm, .init⟩

def record (s : Workers κ β τ) (t : Tables β) (l : WorkersLabel κ β τ) (junk : Nat → Ptr) :
    Option (Tables β) :=
  match l with
  | .bind b _ => (t.insert .binds s.binds.length junk).map fun t => t.set (.bnd b) (.init 10)
  | .advance c =>
    match s.setups c with
    | some ⟨some (_, b), _, _, _, .attach :: _⟩ => t.insert (.bnd b) (s.listeners b).conns.length junk
    | some ⟨_, _, _, _, .publish :: _⟩ => t.insert .conns s.conns.length junk
    | _ => some t
  | _ => some t

def step (self : Site κ β τ) (l : SiteLabel κ β τ) : Option (Site κ β τ) :=
  match l.1 with
  | .join _ => none
  | _ => (self.sys.step l.1).bind fun sys =>
    if sys.fault.isSome then some ⟨sys, self.tables⟩
    else (record self.sys self.tables l.1 l.2).map fun tables => ⟨sys, tables⟩

end Site

namespace Workers

variable {κ β τ : Type} [DecidableEq κ] [DecidableEq β]

def incoming (s : Workers κ β τ) (c : κ) : Bool :=
  match s.setups c with
  | some u => u.origin.isSome
  | none => false

def queued (s : Workers κ β τ) (c : κ) : Bool :=
  s.pool.isinqueue (.startRead c) || s.pool.isinqueue (.stopRead c) ||
    s.pool.isinqueue (.startWrite c)

def connAt (s : Workers κ β τ) : Slots β → Ptr → Except Fault κ
  | .conns, .obj k => (s.conns[k]?).elim (.error .bounds) .ok
  | .bnd b, .obj k => ((s.listeners b).conns[k]?).elim (.error .bounds) .ok
  | _, _ => .error .bounds

def bindAt (s : Workers κ β τ) : Ptr → Except Fault β
  | .obj k => (s.binds[k]?).elim (.error .bounds) .ok
  | _ => .error .bounds

def clearSlot (mem : Slots β → Int → Nat → Mem) (k : Slots β) (i : Int) (t : Tables β) :
    Except Fault (Tables β) :=
  ((t.row k).clear i (mem k i)).map fun x => t.set k x.1

def unlink (s : Workers κ β τ) (mem : Slots β → Int → Nat → Mem) (self : Slots β) (c : κ)
    (t : Tables β) : Except Fault (Tables β) :=
  if s.incoming c then clearSlot mem self (s.peers c).idx t else .ok t

def connTerm (s : Workers κ β τ) (c : κ) : Except Fault Unit :=
  if s.queued c then .error .assertion else .ok ()

def connStep (s : Workers κ β τ) (mem : Slots β → Int → Nat → Mem) (self parr : Slots β) (i : Int)
    (t : Tables β) : Except Fault (Tables β × κ) := do
  let ptr ← (t.row parr).load i
  let conn ← s.connAt parr ptr
  let t ← s.unlink mem self conn t
  s.connTerm conn
  let t ← clearSlot mem parr i t
  return (t, conn)

def connLoop (s : Workers κ β τ) (mem : Slots β → Int → Nat → Mem) (self parr : Slots β) :
    Nat → Ptr × Int → Tables β × List (Member κ β) → Except Fault (Tables β × List (Member κ β))
  | _, (.null, _), r => .ok r
  | 0, _, _ => .error .diverges
  | n + 1, (_, i), (t, freed) => do
    let (t, conn) ← s.connStep mem self parr i t
    let next ← (t.row parr).next i
    s.connLoop mem self parr n next (t, freed ++ [.conn conn])

def connParrTerm (s : Workers κ β τ) (mem : Slots β → Int → Nat → Mem) (self parr : Slots β)
    (r : Tables β × List (Member κ β)) : Except Fault (Tables β × List (Member κ β)) := do
  let ptr ← (r.1.row parr).begin
  s.connLoop mem self parr (r.1.row parr).last.toNat ptr r

def bindStep (s : Workers κ β τ) (mem : Slots β → Int → Nat → Mem) (i : Int)
    (r : Tables β × List (Member κ β)) : Except Fault (Tables β × List (Member κ β)) := do
  let ptr ← r.1.binds.load i
  let bnd ← s.bindAt ptr
  let r ← s.connParrTerm mem .conns (.bnd bnd) r
  let r ← s.connParrTerm mem (.bnd bnd) (.bnd bnd) r
  (r.1.bnds bnd).term
  let t ← clearSlot mem .binds i r.1
  return (t, r.2 ++ [.bind bnd])

def bindLoop (s : Workers κ β τ) (mem : Slots β → Int → Nat → Mem) :
    Nat → Ptr × Int → Tables β × List (Member κ β) → Except Fault (Tables β × List (Member κ β))
  | _, (.null, _), r => .ok r
  | 0, _, _ => .error .diverges
  | n + 1, (_, i), r => do
    let r ← s.bindStep mem i r
    let next ← r.1.binds.next i
    s.bindLoop mem n next r

def bindParrTerm (s : Workers κ β τ) (mem : Slots β → Int → Nat → Mem)
    (r : Tables β × List (Member κ β)) : Except Fault (Tables β × List (Member κ β)) := do
  let ptr ← r.1.binds.begin
  s.bindLoop mem r.1.binds.last.toNat ptr r

def sockTerm (s : Workers κ β τ) (mem : Slots β → Int → Nat → Mem) (t : Tables β) :
    Except Fault (List (Member κ β)) := do
  let r ← s.bindParrTerm mem (t, [])
  let r ← s.connParrTerm mem .conns .conns r
  r.1.binds.term
  r.1.conns.term
  return r.2

end Workers

end Fsock
