import Fsock.Lib.StreamCodec
import Fsock.Core.Writer
import Fsock.Core.RecvWait

namespace Fsock

open StreamCodec

abbrev FrameParser (σ : Type) := Decoder σ UInt8 Frame

inductive Down where
  | eof
  | parseError
  deriving DecidableEq

structure Inlet (σ : Type) where
  parser : σ
  taken : Nat
  inFrames : List Frame
  down : Option Down

structure Channel (κ τ ρ σ : Type) where
  outs : κ → Conn ρ
  ins : κ → Inlet σ
  recv : Recv κ τ
  log : List (κ × Frame)

inductive ChannelLabel (κ τ : Type) where
  | out (c : κ) (l : ConnLabel)
  | read (c : κ) (nread : Nat) (cnt : Int)
  | hangup (c : κ)
  | event (c : κ) (a : Addr)
  | nomem (c : κ)
  | deliver (c : κ)
  | consume (l : RecvLabel κ τ)
  deriving DecidableEq

namespace RecvLabel

variable {κ τ : Type}

def consumes : RecvLabel κ τ → Bool
  | .read _ _ => false
  | .event _ _ _ => false
  | .deliver _ => false
  | _ => true

end RecvLabel

namespace Channel

variable {κ τ ρ σ : Type} [DecidableEq κ] [DecidableEq τ] (F : Framer ρ) (P : FrameParser σ)

def init (rcvhwm : Int) : Channel κ τ ρ σ where
  outs := fun _ => .init F
  ins := fun _ => ⟨P.init, 0, [], none⟩
  recv := .init rcvhwm
  log := []

def out (s : Channel κ τ ρ σ) (c : κ) (l : ConnLabel) : Option (Channel κ τ ρ σ) :=
  ((s.outs c).step F l).map fun conn => { s with outs := Function.update s.outs c conn }

def inlet (s : Channel κ τ ρ σ) (c : κ) (i : Inlet σ) : Channel κ τ ρ σ :=
  { s with ins := Function.update s.ins c i }

def chunk (s : Channel κ τ ρ σ) (c : κ) (nread : Nat) : List UInt8 :=
  ((s.outs c).kernel.drop (s.ins c).taken).take nread

def read (s : Channel κ τ ρ σ) (c : κ) (nread : Nat) (cnt : Int) : Option (Channel κ τ ρ σ) :=
  let i := s.ins c
  let cbuf := s.chunk c nread
  if i.down = none ∧ 1 ≤ nread ∧ nread ≤ 1400 ∧ cbuf.length = nread then
    (s.recv.step (.read c cnt)).map fun recv =>
      match P.feed i.parser cbuf with
      | none => s.inlet c { i with taken := i.taken + nread, down := some .parseError }
      | some (parser, frames) => { s.inlet c { i with
          parser := parser
          taken := i.taken + nread
          inFrames := i.inFrames ++ frames } with recv := recv }
  else none

def hangup (s : Channel κ τ ρ σ) (c : κ) : Option (Channel κ τ ρ σ) :=
  match s.recv.handlers c with
  | .idle => some (s.inlet c { s.ins c with down := some .eof })
  | _ => none

def event (s : Channel κ τ ρ σ) (c : κ) (a : Addr) : Option (Channel κ τ ρ σ) :=
  match (s.ins c).inFrames with
  | fr :: frames => (s.recv.step (.event c a fr)).map fun recv =>
      { s.inlet c { s.ins c with inFrames := frames } with recv := recv }
  | [] => none

def handOver (s : Channel κ τ ρ σ) (c : κ) : Option (Channel κ τ ρ σ) :=
  (s.recv.step (.deliver c)).map fun recv => { s with
    recv := recv
    log := s.log ++ (s.recv.handlers c).batch.map fun fr => (c, fr) }

def nomem (s : Channel κ τ ρ σ) (c : κ) : Option (Channel κ τ ρ σ) :=
  match (s.ins c).inFrames with
  -- the item is erased from in_frames before fsock_queue_event fails, and the loop breaks
  | _ :: frames => (s.inlet c { s.ins c with inFrames := frames }).handOver c
  | [] => none

def deliver (s : Channel κ τ ρ σ) (c : κ) : Option (Channel κ τ ρ σ) :=
  match (s.ins c).inFrames with
  | [] => s.handOver c
  | _ => none

def step (s : Channel κ τ ρ σ) : ChannelLabel κ τ → Option (Channel κ τ ρ σ)
  | .out c l => s.out F c l
  | .read c nread cnt => s.read P c nread cnt
  | .hangup c => s.hangup c
  | .event c a => s.event c a
  | .nomem c => s.nomem c
  | .deliver c => s.deliver c
  | .consume l =>
    if l.consumes then (s.recv.step l).map fun recv => { s with recv := recv } else none

end Channel

end Fsock
