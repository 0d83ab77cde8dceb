import Fsock.Core.Sendc
import Fsock.Core.Workers

namespace Fsock

abbrev donwait : Nat := 1

abbrev stopOnerr : Nat := 2

abbrev sndUnsafe : Nat := 4

structure Outlet where
  kind : Kind
  zombie : Bool
  idxlocal : Int
  thr : Option Thr
  writing : Bool
  ol : List Frame

structure Hub where
  root : Root
  conns : Parr
  binds : Parr
  bnds : Nat → Parr
  outlets : Nat → Outlet
  pool : Pool (Job Nat Nat) Thr

structure Turn where
  woken : Hub → Hub
  item : Bool
  ret : Int

structure Attempt where
  slot : Int
  before : Hub
  turn : Turn
  after : Hub

structure Broadcast where
  hub : Hub
  rc : Int
  attempts : List Attempt
  broke : Bool

namespace Hub

def connAt (s : Hub) (c : Int) : Except Fault Nat := do
  match ← s.conns.load c with
  | .obj p => return p
  | _ => throw .bounds

def park (s : Hub) : Hub := { s with root := { s.root with wantWcond := true } }

def push (s : Hub) (p : Nat) (fr : Frame) : Except Fault Hub :=
  let conn := s.outlets p
  let s' := { s with
    outlets := Function.update s.outlets p { conn with writing := true, ol := conn.ol ++ [fr] } }
  if conn.writing then .ok s'
  else
    match conn.thr with
    | none => .error .bounds
    | some w =>
      match s.pool.scheduleTask w (.startWrite p) with
      | none => .error .assertion
      | some pool => .ok { s' with pool := pool }

def count (s : Hub) : Hub := { s with root := s.root.countSent }

def send (s : Hub) (c : Int) (fr : Frame) (flags : Nat) (o : Turn) : Except Fault (Hub × Int) := do
  let p ← s.connAt c
  if (s.outlets p).zombie then return (s, -1)
  if s.root.writing = stopOp ∧ flags &&& donwait ≠ 0 then return (s, eagain)
  let s := if s.root.writing = stopOp then o.woken s.park else s
  if o.item = false then return (s, -1)
  let s ← s.push p fr
  return (s.count, o.ret)

def connType (s : Hub) (c : Int) : Except Fault Kind := do
  let p ← s.connAt c
  return (s.outlets p).kind

def chosen (dflags : Nat) (kind : Kind) : Bool :=
  dflags = 0 ∨ dflags &&& distIn ≠ 0 ∧ kind = .incoming ∨ dflags &&& distOut ≠ 0 ∧ kind = .outgoing

def selects (s : Hub) (dflags : Nat) (index : Int) : Except Fault Bool :=
  if dflags &&& (distIn ||| distOut) = 0 then .ok (dflags = 0)
  else do
    let kind ← s.connType index
    return chosen dflags kind

def sendLoop (parr : Hub → Parr) (fr : Frame) (dflags sndflags : Nat) (turns : Nat → Turn) :
    Nat → Hub → Ptr × Int → Int → List Attempt → Except Fault Broadcast
  | 0, _, _, _, _ => .error .diverges
  | fuel + 1, s, (ptr, index), rc, attempts =>
    if ptr = .null then .ok ⟨s, rc, attempts, false⟩
    else do
      if ← s.selects dflags index then
        let o := turns attempts.length
        let (t, rc) ← s.send index fr (sndflags ||| sndUnsafe) o
        let attempts := attempts ++ [⟨index, s, o, t⟩]
        if rc ≠ 0 ∧ sndflags &&& stopOnerr ≠ 0 then return ⟨t, rc, attempts, true⟩
        let cur ← (parr t).next index
        sendLoop parr fr dflags sndflags turns fuel t cur rc attempts
      else
        let cur ← (parr s).next index
        sendLoop parr fr dflags sndflags turns fuel s cur rc attempts

def sendAll (s : Hub) (parr : Hub → Parr) (fr : Frame) (dflags sndflags : Nat)
    (turns : Nat → Turn) (fuel : Nat) : Except Fault Broadcast := do
  let cur ← (parr s).begin
  sendLoop parr fr dflags sndflags turns fuel s cur 0 []

def bndAt (s : Hub) (b : Int) : Except Fault Nat :=
  if s.binds.last > b then do
    match ← s.binds.load b with
    | .obj k => return k
    | _ => throw .bounds
  else .error .assertion

def sendc (s : Hub) (type b c : Int) (fr : Frame) (dflags sndflags : Nat) (turns : Nat → Turn)
    (fuel : Nat) : Except Fault (Hub × Int) :=
  if type = sndAll then do
    let r ← s.sendAll Hub.conns fr dflags sndflags turns fuel
    return (r.hub, r.rc)
  else if type = sndBind then do
    let k ← s.bndAt b
    let r ← s.sendAll (fun s => s.bnds k) fr dflags sndflags turns fuel
    return (r.hub, r.rc)
  else if type = sndBindconn then do
    let k ← s.bndAt b
    if (s.bnds k).last > c then
      match ← (s.bnds k).load c with
      | .obj p => s.send (s.outlets p).idxlocal fr sndflags (turns 0)
      | _ => throw .bounds
    else throw .assertion
  else .ok (s, -1)

end Hub

end Fsock
