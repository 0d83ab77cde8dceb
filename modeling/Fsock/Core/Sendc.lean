import Fsock.Utils.ParrIter
import Fsock.Core.Send

namespace Fsock

inductive Kind where
  | base
  | bind
  | incoming
  | outgoing
  deriving DecidableEq

abbrev sndAll : Int := 1

abbrev sndBind : Int := 3

abbrev sndBindconn : Int := 4

abbrev distIn : Nat := 1

abbrev distOut : Nat := 2

structure Peer where
  kind : Kind
  via : Option Nat
  zombie : Bool
  idx : Int
  idxlocal : Int
  writing : Bool
  scheduled : Nat
  ol : List Frame
  deriving DecidableEq

def Peer.init (kind : Kind) (via : Option Nat) : Peer where
  kind := kind
  via := via
  zombie := false
  idx := -1
  idxlocal := -1
  writing := false
  scheduled := 0
  ol := []

def Peer.push (conn : Peer) (fr : Frame) : Peer :=
  { conn with
    scheduled := if conn.writing then conn.scheduled else conn.scheduled + 1
    writing := true
    ol := conn.ol ++ [fr] }

structure Net where
  root : Root
  conns : Parr
  binds : Parr
  bnds : List Parr
  peers : List Peer

namespace Net

def init (sndhwm : Int) : Net where
  root := .init sndhwm
  conns := .init 10
  binds := .init 10
  bnds := []
  peers := []

def bind (s : Net) (mem : Mem) : Option Net :=
  match s.binds.insert (.obj s.bnds.length) mem with
  | .ok (binds, index) =>
    if index < 0 then none else some { s with binds := binds, bnds := s.bnds ++ [.init 10] }
  | .error _ => none

def accept (s : Net) (k : Nat) (mem mem' : Mem) : Option Net :=
  match s.bnds[k]? with
  | none => none
  | some bnd =>
    match bnd.insert (.obj s.peers.length) mem with
    | .error _ => none
    | .ok (bnd, indexlocal) =>
      let s := { s with bnds := s.bnds.set k bnd }
      if indexlocal < 0 then some s
      else
        match s.conns.insert (.obj s.peers.length) mem' with
        | .error _ => none
        | .ok (conns, index) =>
          let conn := Peer.init .incoming (some k)
          if index < 0 then some { s with conns := conns, peers := s.peers ++ [conn] }
          else some { s with
            conns := conns
            peers := s.peers ++ [{ conn with idx := index, idxlocal := indexlocal }] }

def connect (s : Net) (mem : Mem) : Option Net :=
  match s.conns.insert (.obj s.peers.length) mem with
  | .error _ => none
  | .ok (conns, index) =>
    if index < 0 then none
    else some { s with
      conns := conns
      peers := s.peers ++ [{ Peer.init .outgoing none with idx := index }] }

def peerAt (s : Net) (c : Int) : Option (Nat × Peer) :=
  match s.conns.load c with
  | .ok (.obj p) => (s.peers[p]?).map (p, ·)
  | _ => none

def send (s : Net) (c : Int) (fr : Frame) (donwait : Bool) (ret : Int) : Option (Net × Int) :=
  match s.peerAt c with
  | none => none
  | some (p, conn) =>
    if conn.zombie then some (s, -1)
    else if s.root.writing = stopOp then if donwait then some (s, eagain) else none
    else some ({ s with peers := s.peers.set p (conn.push fr), root := s.root.countSent }, ret)

def connType (s : Net) (c : Int) : Option Kind := (s.peerAt c).map fun x => x.2.kind

def selects (s : Net) (dflags : Nat) (index : Int) : Option Bool :=
  if dflags = 0 then some true
  else if dflags &&& (distIn ||| distOut) = 0 then some false
  else (s.connType index).map fun kind =>
    dflags &&& distIn ≠ 0 ∧ kind = .incoming ∨ dflags &&& distOut ≠ 0 ∧ kind = .outgoing

def sendEach (s : Net) (fr : Frame) (dflags : Nat) (donwait stopOnErr : Bool) (ret : Int → Int) :
    List Int → Int → Option (Net × Int)
  | [], rc => some (s, rc)
  | index :: is, rc =>
    match s.selects dflags index with
    | none => none
    | some false => sendEach s fr dflags donwait stopOnErr ret is rc
    | some true =>
      match s.send index fr donwait (ret index) with
      | none => none
      | some (s, rc) =>
        if rc ≠ 0 ∧ stopOnErr = true then some (s, rc)
        else sendEach s fr dflags donwait stopOnErr ret is rc

def sendAll (s : Net) (parr : Parr) (fr : Frame) (dflags : Nat) (donwait stopOnErr : Bool)
    (ret : Int → Int) : Option (Net × Int) :=
  match parr.visits with
  | .error _ => none
  | .ok vs => s.sendEach fr dflags donwait stopOnErr ret (vs.map Prod.snd) 0

def bndAt (s : Net) (b : Int) : Option Parr :=
  if s.binds.last > b then
    match s.binds.load b with
    | .ok (.obj k) => s.bnds[k]?
    | _ => none
  else none

def sendc (s : Net) (type b c : Int) (fr : Frame) (dflags : Nat) (donwait stopOnErr : Bool)
    (ret : Int → Int) : Option (Net × Int) :=
  if type = sndAll then s.sendAll s.conns fr dflags donwait stopOnErr ret
  else if type = sndBind then
    match s.bndAt b with
    | none => none
    | some conns => s.sendAll conns fr dflags donwait stopOnErr ret
  else if type = sndBindconn then
    match s.bndAt b with
    | none => none
    | some conns =>
      if conns.last > c then
        match conns.load c with
        | .ok (.obj p) =>
          match s.peers[p]? with
          | some conn => s.send conn.idxlocal fr donwait (ret conn.idxlocal)
          | none => none
        | _ => none
      else none
  else some (s, -1)

end Net

end Fsock
