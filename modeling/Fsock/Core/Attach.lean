import Fsock.Utils.ParrSpec
import Fsock.Core.Close
import Fsock.Core.Sendc

namespace Fsock

structure Sock where
  kind : Kind
  owner : Option Nat
  thr : Option Thr
  fd : Int
  idx : Int
  idxlocal : Int
  deriving DecidableEq

def Sock.init (kind : Kind) : Sock where
  kind := kind
  owner := none
  thr := none
  fd := -1
  idx := -1
  idxlocal := -1

structure Tree where
  addr : Nat
  tables : Tables Nat
  socks : Nat → Option Sock
  efds : Nat
  fds : List Int
  jobs : Thr → List (Job Nat Nat)
  thrLastIdx : Thr

structure Draw where
  sock : Option Nat
  fd : Int
  inner : Mem
  outer : Mem

inductive Attaching where
  | bind (o : Draw)
  | connect (o : Draw)
  | accept (b : Nat) (o : Draw)

namespace Attaching

def draw : Attaching → Draw
  | .bind o => o
  | .connect o => o
  | .accept _ o => o

def kind : Attaching → Kind
  | .bind _ => .bind
  | .connect _ => .outgoing
  | .accept _ _ => .incoming

def slots : Attaching → List (Slots Nat)
  | .bind _ => [.binds]
  | .connect _ => [.conns]
  | .accept b _ => [.bnd b, .conns]

def job : Attaching → Nat → Job Nat Nat
  | .bind _ => .thrBind
  | _ => .thrConn

-- bind and connect allocate first and give up without a system call; accept calls first
def asks : Attaching → Bool
  | .bind o | .connect o => o.sock.isSome
  | .accept _ _ => true

-- fsock_sock_init is reached
def inits : Attaching → Bool
  | .bind o | .connect o => o.sock.isSome
  | .accept _ o => decide (0 ≤ o.fd) && o.sock.isSome

end Attaching

namespace Tree

def init (addr : Nat) : Tree where
  addr := addr
  tables := .init
  socks := fun _ => none
  efds := 0
  fds := []
  jobs := fun _ => []
  thrLastIdx := 0

def chooseThr (t : Tree) : Thr × Tree :=
  (t.thrLastIdx, { t with thrLastIdx := t.thrLastIdx + 1 })

def write (t : Tree) (a : Nat) (s : Sock) : Tree :=
  { t with socks := Function.update t.socks a (some s) }

def sockInit (t : Tree) (a : Nat) (s : Sock) : Tree :=
  { t.write a s with tables := t.tables.set (.bnd a) (.init 10), efds := t.efds + 1 }

def free (t : Tree) (a : Nat) : Tree := { t with socks := Function.update t.socks a none }

def opened (t : Tree) (fd : Int) : Tree := { t with fds := t.fds ++ [fd] }

def schedule (t : Tree) (w : Thr) (j : Job Nat Nat) : Tree :=
  { t with jobs := Function.update t.jobs w (t.jobs w ++ [j]) }

def parrInsert (t : Tree) (k : Slots Nat) (a : Nat) (mem : Mem) : Except Fault (Tree × Int) :=
  ((t.tables.row k).insert (.obj a) mem).map fun (arr, index) =>
    ({ t with tables := t.tables.set k arr }, index)

def accept (t : Tree) (b : Nat) (o : Draw) : Except Fault (Tree × Int) :=
  if o.fd < 0 then .ok (t, 0)
  else match o.sock with
    | none => .ok (t.opened o.fd, 0)
    | some conn => do
      let s := { Sock.init .incoming with owner := some t.addr }
      let (t, indexlocal) ← ((t.opened o.fd).sockInit conn s).parrInsert (.bnd b) conn o.inner
      if indexlocal < 0 then return (t.free conn, 0)
      let (t, index) ← t.parrInsert .conns conn o.outer
      if index < 0 then return (t, 0)
      let (thr, t) := t.chooseThr
      let s := { s with thr := some thr, fd := o.fd, idx := index, idxlocal := indexlocal }
      return ((t.write conn s).schedule thr (.thrConn conn), 0)

def enter (t : Tree) (kind : Kind) (k : Slots Nat) (job : Nat → Job Nat Nat) (o : Draw) :
    Except Fault (Tree × Int) :=
  match o.sock with
  | none => .ok (t, -1)
  | some sock => do
    let (thr, t) := t.chooseThr
    let s := { Sock.init kind with owner := some t.addr, thr := some thr }
    let t := t.sockInit sock s
    if o.fd < 0 then return (t, -1)
    let (t, index) ← (t.opened o.fd).parrInsert k sock o.outer
    if index < 0 then throw .assertion
    return ((t.write sock { s with idx := index, fd := o.fd }).schedule thr (job sock), index)

def bind (t : Tree) (o : Draw) : Except Fault (Tree × Int) := t.enter .bind .binds .thrBind o

def connect (t : Tree) (o : Draw) : Except Fault (Tree × Int) :=
  t.enter .outgoing .conns .thrConn o

def attempt (t : Tree) : Attaching → Except Fault (Tree × Int)
  | .bind o => t.bind o
  | .connect o => t.connect o
  | .accept b o => t.accept b o

structure Fresh (t : Tree) (o : Draw) : Prop where
  sock : ∀ a, o.sock = some a → a ≠ t.addr ∧ t.socks a = none
  fd : o.fd ∉ t.fds

def Bound (t : Tree) : Attaching → Prop
  | .accept b _ => .obj b ∈ t.tables.binds.used
  | _ => True

structure Offers (t : Tree) (l : Attaching) : Prop where
  fresh : t.Fresh l.draw
  bound : t.Bound l

instance (t : Tree) (o : Draw) : Decidable (t.Fresh o) :=
  decidable_of_iff ((o.sock.all fun a => a ≠ t.addr ∧ t.socks a = none) = true ∧ o.fd ∉ t.fds)
    ⟨fun ⟨hs, hf⟩ => ⟨fun a ha => by simpa using (Option.all_eq_true _ _).mp hs a ha, hf⟩,
      fun h => ⟨(Option.all_eq_true _ _).mpr fun a ha => by simpa using h.sock a ha, h.fd⟩⟩

instance (t : Tree) : (l : Attaching) → Decidable (t.Bound l)
  | .accept b _ => inferInstanceAs (Decidable (.obj b ∈ t.tables.binds.used))
  | .bind _ => inferInstanceAs (Decidable True)
  | .connect _ => inferInstanceAs (Decidable True)

instance (t : Tree) (l : Attaching) : Decidable (t.Offers l) :=
  decidable_of_iff (t.Fresh l.draw ∧ t.Bound l) ⟨fun ⟨hf, hb⟩ => ⟨hf, hb⟩, fun h => ⟨h.fresh, h.bound⟩⟩

def step (t : Tree) (l : Attaching) : Option Tree :=
  match t.attempt l with
  | .ok (t, _) => some t
  | .error _ => none

end Tree

end Fsock
