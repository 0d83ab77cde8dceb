import Fsock.Utils.Queue
import Fsock.Core.Send

namespace Fsock

structure Owner where
  events : Queue Addr
  rcvqsz : Int
  rcvhwm : Int
  reading : Int
  wantEfd : Bool
  efd : Nat

inductive RecvPc where
  | idle
  | parsing (garbage : Int) (queue : Queue Addr) (cnt : Int) (batch : List Frame)

inductive GetPc where
  | idle
  | waiting
  | ready
  | relock
  deriving DecidableEq

structure Recv (κ τ : Type) where
  next : Addr → Link Addr
  frames : Addr → Option Frame
  owner : Owner
  handlers : κ → RecvPc
  consumers : τ → GetPc
  delivered : List Frame
  returned : List Frame
  fault : Bool

inductive RecvLabel (κ τ : Type) where
  | read (c : κ) (cnt : Int)
  | event (c : κ) (a : Addr) (fr : Frame)
  | deliver (c : κ)
  | get (t : τ) (donwait : Bool)
  | efdReady (t : τ)
  | timeout (t : τ)
  | unsignal (t : τ)
  | relock (t : τ)
  | destroy (a : Addr)
  deriving DecidableEq

def queueEvent (next : Addr → Link Addr) (frames : Addr → Option Frame) (queue : Queue Addr)
    (a : Addr) (fr : Frame) : Option ((Addr → Link Addr) × (Addr → Option Frame) × Queue Addr) :=
  if (frames a).isSome then none
  else
    let next := Function.update next a .notInQueue
    (queue.push next a).map fun (next, queue) => (next, Function.update frames a (some fr), queue)

def splice (next : Addr → Link Addr) (events queue : Queue Addr) :
    (Addr → Link Addr) × Queue Addr :=
  match events.tail, events.head with
  | .item tail, _ => (Function.update next tail queue.head, ⟨events.head, queue.tail⟩)
  | _, .item head => (Function.update next head queue.head, ⟨events.head, queue.tail⟩)
  | _, _ => (next, queue)

namespace Owner

def init (rcvhwm : Int) : Owner where
  events := .init
  rcvqsz := 0
  rcvhwm := rcvhwm
  reading := 0
  wantEfd := false
  efd := 0

def signal (self : Owner) : Owner :=
  if self.wantEfd then { self with efd := self.efd + 1, wantEfd := false } else self

def pause (self : Owner) : Owner :=
  if self.rcvhwm > 0 ∧ self.rcvhwm < self.rcvqsz then { self with reading := stopOp } else self

def resume (self : Owner) : Owner :=
  if self.rcvhwm > 0 ∧ self.reading = stopOp ∧ self.rcvqsz < self.rcvhwm then
    { self with reading := 0 }
  else self

@[simp] theorem events_signal (r : Owner) : r.signal.events = r.events := by
  simp only [signal]
  split <;> rfl

@[simp] theorem rcvqsz_signal (r : Owner) : r.signal.rcvqsz = r.rcvqsz := by
  simp only [signal]
  split <;> rfl

@[simp] theorem events_pause (r : Owner) : r.pause.events = r.events := by
  simp only [pause]
  split <;> rfl

@[simp] theorem rcvqsz_pause (r : Owner) : r.pause.rcvqsz = r.rcvqsz := by
  simp only [pause]
  split <;> rfl

@[simp] theorem events_resume (r : Owner) : r.resume.events = r.events := by
  simp only [resume]
  split <;> rfl

@[simp] theorem rcvqsz_resume (r : Owner) : r.resume.rcvqsz = r.rcvqsz := by
  simp only [resume]
  split <;> rfl

@[simp] theorem efd_pause (r : Owner) : r.pause.efd = r.efd := by
  simp only [pause]
  split <;> rfl

@[simp] theorem wantEfd_pause (r : Owner) : r.pause.wantEfd = r.wantEfd := by
  simp only [pause]
  split <;> rfl

@[simp] theorem efd_resume (r : Owner) : r.resume.efd = r.efd := by
  simp only [resume]
  split <;> rfl

end Owner

namespace Recv

variable {κ τ : Type} [DecidableEq κ] [DecidableEq τ]

def init (rcvhwm : Int) : Recv κ τ where
  next := fun _ => .notInQueue
  frames := fun _ => none
  owner := .init rcvhwm
  handlers := fun _ => .idle
  consumers := fun _ => .idle
  delivered := []
  returned := []
  fault := false

def handle (s : Recv κ τ) (c : κ) (pc : RecvPc) : Recv κ τ :=
  { s with handlers := Function.update s.handlers c pc }

def goto (s : Recv κ τ) (t : τ) (pc : GetPc) : Recv κ τ :=
  { s with consumers := Function.update s.consumers t pc }

def read (s : Recv κ τ) (c : κ) (cnt : Int) : Option (Recv κ τ) :=
  match s.handlers c with
  | .idle => some (s.handle c (.parsing cnt .init cnt []))
  | _ => none

def event (s : Recv κ τ) (c : κ) (a : Addr) (fr : Frame) : Option (Recv κ τ) :=
  match s.handlers c with
  | .parsing garbage queue cnt batch =>
    (queueEvent s.next s.frames queue a fr).map fun (next, frames, queue) =>
      { s.handle c (.parsing garbage queue (cnt + 1) (batch ++ [fr])) with
        next := next
        frames := frames }
  | _ => none

def append (s : Recv κ τ) (queue : Queue Addr) (cnt : Int) : Recv κ τ :=
  let s := { s with owner := { s.owner with rcvqsz := s.owner.rcvqsz + cnt } }
  if cnt > 0 then
    let (next, events) := splice s.next s.owner.events queue
    { s with next := next, owner := { s.owner with events := events }.signal }
  else s

def deliver (s : Recv κ τ) (c : κ) : Option (Recv κ τ) :=
  match s.handlers c with
  | .parsing _ queue cnt batch =>
    let s := s.append queue cnt
    some { s.handle c .idle with
      owner := s.owner.pause
      delivered := s.delivered ++ batch }
  | _ => none

def take (s : Recv κ τ) (t : τ) : Recv κ τ :=
  match s.owner.events.pop s.next with
  | (next, events, some item) =>
    { s.goto t .idle with
      next := next
      owner := { s.owner with events := events, rcvqsz := s.owner.rcvqsz - 1 }.resume
      returned := s.returned ++ (s.frames item).toList }
  | _ => { s with fault := true }

def get (s : Recv κ τ) (t : τ) (donwait : Bool) : Option (Recv κ τ) :=
  match s.consumers t with
  | .idle =>
    if s.owner.events.empty then
      if donwait then some s
      else some { s.goto t .waiting with owner := { s.owner with wantEfd := true } }
    else some (s.take t)
  | _ => none

def efdReady (s : Recv κ τ) (t : τ) : Option (Recv κ τ) :=
  match s.consumers t with
  | .waiting => if 0 < s.owner.efd then some (s.goto t .ready) else none
  | _ => none

def timeout (s : Recv κ τ) (t : τ) : Option (Recv κ τ) :=
  match s.consumers t with
  | .waiting => if 0 < s.owner.efd then none else some (s.goto t .idle)
  | _ => none

def unsignal (s : Recv κ τ) (t : τ) : Option (Recv κ τ) :=
  match s.consumers t with
  | .ready => some { s.goto t .relock with owner := { s.owner with efd := 0 } }
  | _ => none

def relock (s : Recv κ τ) (t : τ) : Option (Recv κ τ) :=
  match s.consumers t with
  | .relock => if s.owner.events.empty then some { s with fault := true } else some (s.take t)
  | _ => none

def destroy (s : Recv κ τ) (a : Addr) : Option (Recv κ τ) :=
  if s.next a = .notInQueue then some { s with frames := Function.update s.frames a none }
  else none

def step (s : Recv κ τ) (l : RecvLabel κ τ) : Option (Recv κ τ) :=
  if s.fault then none
  else
    match l with
    | .read c cnt => s.read c cnt
    | .event c a fr => s.event c a fr
    | .deliver c => s.deliver c
    | .get t donwait => s.get t donwait
    | .efdReady t => s.efdReady t
    | .timeout t => s.timeout t
    | .unsignal t => s.unsignal t
    | .relock t => s.relock t
    | .destroy a => s.destroy a

end Recv

end Fsock
