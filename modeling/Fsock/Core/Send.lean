import Fsock.Core.Writer

namespace Fsock

abbrev stopOp : Int := -1

abbrev eagain : Int := 11

abbrev hwmDefault : Int := 1000

structure Root where
  writing : Int
  sndhwm : Int
  sndqsz : Int
  wantWcond : Bool
  deriving DecidableEq

namespace Root

def init (sndhwm : Int) : Root := ⟨0, sndhwm, 0, false⟩

def countSent (self : Root) : Root :=
  let sock := { self with sndqsz := self.sndqsz + 1 }
  if sock.sndhwm > 0 ∧ sock.writing ≠ stopOp ∧ sock.sndqsz ≥ sock.sndhwm then
    { sock with writing := stopOp }
  else sock

def settle (self : Root) (removed : Nat) : Root × Bool :=
  let owner := { self with sndqsz := self.sndqsz - removed }
  if owner.sndhwm > 0 ∧ owner.writing = stopOp ∧ owner.sndqsz < owner.sndhwm then
    if owner.wantWcond then ({ owner with writing := 0, wantWcond := false }, true)
    else ({ owner with writing := 0 }, false)
  else (owner, false)

end Root

structure Call (κ : Type) where
  conn : κ
  frame : Frame
  donwait : Bool
  stopOnErr : Bool
  bulk : Bool
  deriving DecidableEq

inductive Pc (κ : Type) where
  | done (rc : Int)
  | lockAll (fr : Frame) (donwait stopOnErr : Bool)
  | loop (fr : Frame) (donwait stopOnErr : Bool) (rc : Int)
  | zombieCheck (call : Call κ)
  | donwaitCheck (call : Call κ)
  | waitCheck (call : Call κ)
  | park (call : Call κ)
  | sleeping (call : Call κ)
  | woken (call : Call κ)
  | alloc (call : Call κ)
  | insert (call : Call κ)
  | account (call : Call κ)
  deriving DecidableEq

namespace Pc

variable {κ : Type}

def finish (call : Call κ) (rc : Int) : Pc κ :=
  if call.bulk then .loop call.frame call.donwait call.stopOnErr rc else .done rc

def wake : Pc κ → Pc κ
  | .sleeping call => .woken call
  | pc => pc

end Pc

structure Sys (κ τ ρ : Type) where
  root : Root
  lock : Option τ
  pcs : τ → Pc κ
  conns : κ → Conn ρ

inductive Label (κ τ : Type) where
  | send (t : τ) (c : κ) (fr : Frame) (donwait : Bool)
  | sendAll (t : τ) (fr : Frame) (donwait stopOnErr : Bool)
  | target (t : τ) (c : Option κ)
  | run (t : τ)
  | park (t : τ)
  | wake (t : τ)
  | alloc (t : τ) (ok : Bool)
  | insert (t : τ) (li : Addr)
  | account (t : τ) (rc : Int)
  | conn (c : κ) (l : ConnLabel)
  | settle (c : κ)
  | broadcast (c : κ)
  deriving DecidableEq

def ConnLabel.shared : ConnLabel → Bool
  | .insert _ _ => true
  | .settle _ => true
  | .broadcast => true
  | _ => false

namespace Sys

variable {κ τ ρ : Type} [DecidableEq κ] [DecidableEq τ] (F : Framer ρ)

def init (sndhwm : Int) : Sys κ τ ρ where
  root := .init sndhwm
  lock := none
  pcs := fun _ => .done 0
  conns := fun _ => .init F

def goto (s : Sys κ τ ρ) (t : τ) (pc : Pc κ) : Sys κ τ ρ :=
  { s with pcs := Function.update s.pcs t pc }

def touch (s : Sys κ τ ρ) (c : κ) (l : ConnLabel) : Option (Sys κ τ ρ) :=
  ((s.conns c).step F l).map fun conn => { s with conns := Function.update s.conns c conn }

def send (s : Sys κ τ ρ) (t : τ) (c : κ) (fr : Frame) (donwait : Bool) : Option (Sys κ τ ρ) :=
  match s.pcs t with
  | .done _ => some (s.goto t (.zombieCheck ⟨c, fr, donwait, false, false⟩))
  | _ => none

def sendAll (s : Sys κ τ ρ) (t : τ) (fr : Frame) (donwait stopOnErr : Bool) :
    Option (Sys κ τ ρ) :=
  match s.pcs t with
  | .done _ => some (s.goto t (.lockAll fr donwait stopOnErr))
  | _ => none

def target (s : Sys κ τ ρ) (t : τ) (c : Option κ) : Option (Sys κ τ ρ) :=
  match s.pcs t, c with
  | .loop _ _ _ rc, none => some { s.goto t (.done rc) with lock := none }
  | .loop fr donwait stopOnErr rc, some c =>
    if rc ≠ 0 ∧ stopOnErr = true then none
    else some (s.goto t (.zombieCheck ⟨c, fr, donwait, stopOnErr, true⟩))
  | _, _ => none

def run (s : Sys κ τ ρ) (t : τ) : Option (Sys κ τ ρ) :=
  match s.pcs t with
  | .lockAll fr donwait stopOnErr =>
    if s.lock = none then some { s.goto t (.loop fr donwait stopOnErr 0) with lock := some t }
    else none
  | .zombieCheck call =>
    if (s.conns call.conn).zombie then some (s.goto t (.finish call (-1)))
    else some (s.goto t (.donwaitCheck call))
  | .donwaitCheck call =>
    if s.root.writing = stopOp ∧ call.donwait = true then some (s.goto t (.finish call eagain))
    else some (s.goto t (.waitCheck call))
  | .waitCheck call =>
    if s.root.writing = stopOp then some (s.goto t (.park call))
    else some (s.goto t (.alloc call))
  | .woken call =>
    if s.lock = none then
      some { s.goto t (.alloc call) with lock := if call.bulk then some t else none }
    else none
  | _ => none

def park (s : Sys κ τ ρ) (t : τ) : Option (Sys κ τ ρ) :=
  match s.pcs t with
  | .park call =>
    if s.lock = none ∨ call.bulk = true then
      some { s.goto t (.sleeping call) with
        root := { s.root with wantWcond := true }
        lock := none }
    else none
  | _ => none

def wake (s : Sys κ τ ρ) (t : τ) : Option (Sys κ τ ρ) :=
  match s.pcs t with
  | .sleeping call => some (s.goto t (.woken call))
  | _ => none

def alloc (s : Sys κ τ ρ) (t : τ) (ok : Bool) : Option (Sys κ τ ρ) :=
  match s.pcs t with
  | .alloc call => some (s.goto t (if ok then .insert call else .finish call (-1)))
  | _ => none

def insert (s : Sys κ τ ρ) (t : τ) (li : Addr) : Option (Sys κ τ ρ) :=
  match s.pcs t with
  | .insert call => (s.touch F call.conn (.insert li call.frame)).map (·.goto t (.account call))
  | _ => none

def account (s : Sys κ τ ρ) (t : τ) (rc : Int) : Option (Sys κ τ ρ) :=
  match s.pcs t with
  | .account call =>
    if s.lock = none ∨ call.bulk = true then
      some { s.goto t (.finish call rc) with root := s.root.countSent }
    else none
  | _ => none

def settle (s : Sys κ τ ρ) (c : κ) : Option (Sys κ τ ρ) :=
  match (s.conns c).pc with
  | .settle removed _ =>
    if s.lock = none then
      let (owner, broadcast) := s.root.settle removed
      (s.touch F c (.settle broadcast)).map fun s => { s with root := owner }
    else none
  | _ => none

def broadcast (s : Sys κ τ ρ) (c : κ) : Option (Sys κ τ ρ) :=
  (s.touch F c .broadcast).map fun s => { s with pcs := fun t => (s.pcs t).wake }

def step (s : Sys κ τ ρ) : Label κ τ → Option (Sys κ τ ρ)
  | .send t c fr donwait => s.send t c fr donwait
  | .sendAll t fr donwait stopOnErr => s.sendAll t fr donwait stopOnErr
  | .target t c => s.target t c
  | .run t => s.run t
  | .park t => s.park t
  | .wake t => s.wake t
  | .alloc t ok => s.alloc t ok
  | .insert t li => s.insert F t li
  | .account t rc => s.account t rc
  | .conn c l => if l.shared then none else s.touch F c l
  | .settle c => s.settle F c
  | .broadcast c => s.broadcast F c

end Sys

end Fsock
