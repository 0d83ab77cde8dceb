import Fsock.Core.OutList

namespace Fsock

inductive Sent where
  | wrote (n : Nat)
  | wouldBlock
  | failed
  deriving DecidableEq

inductive WritePc (ρ : Type) where
  | idle
  | top (removed : Nat)
  | inner (removed : Nat) (ol : OutList ρ)
  | merge (removed : Nat) (ol : OutList ρ)
  | settle (removed : Nat) (mustStop : Bool)
  | broadcast (mustStop : Bool)
  | stop
  | clear

structure Conn (ρ : Type) where
  zombie : Bool
  writing : Bool
  wio : Bool
  queued : Bool
  items : Items
  ol : OutList ρ
  pc : WritePc ρ
  accepted : List Frame
  kernel : List UInt8
  fault : Bool

inductive ConnLabel where
  | insert (li : Addr) (fr : Frame)
  | startWrite
  | zombie
  | ready
  | steal
  | writev (nw : Sent)
  | merge
  | settle (wake : Bool)
  | broadcast
  | stopWatcher
  | clearWriting
  deriving DecidableEq

namespace Conn

variable {ρ : Type} (F : Framer ρ)

def init : Conn ρ where
  zombie := false
  writing := false
  wio := false
  queued := false
  items := fun _ => none
  ol := F.init
  pc := .idle
  accepted := []
  kernel := []
  fault := false

def schedule (self : Conn ρ) : Conn ρ :=
  if self.writing then self
  else { self with queued := true, writing := true, fault := self.fault || self.queued }

def insert (self : Conn ρ) (li : Addr) (fr : Frame) : Option (Conn ρ) :=
  if (self.items li).isSome then none
  else
    let conn := self.schedule
    let (items, ol) := F.insert (Function.update conn.items li (some ⟨none, none, fr⟩)) conn.ol li
    some { conn with items := items, ol := ol, accepted := conn.accepted ++ [fr] }

def startWrite (self : Conn ρ) : Option (Conn ρ) :=
  match self.pc with
  | .idle => if self.queued then some { self with queued := false, wio := true } else none
  | _ => none

def hangup (self : Conn ρ) : Conn ρ := { self with wio := false, zombie := true }

def ready (self : Conn ρ) : Option (Conn ρ) :=
  match self.pc with
  | .idle =>
    if self.wio then
      if self.zombie then some self else some { self with pc := .top 0 }
    else none
  | _ => none

def steal (self : Conn ρ) : Option (Conn ρ) :=
  match self.pc with
  | .top removed =>
    if self.ol.list.empty then
      if removed > 0 then some { self with pc := .settle removed true }
      else some { self with pc := .stop }
    else some { self with ol := F.init, pc := .inner removed self.ol }
  | _ => none

def remain (removed : Nat) (ol : OutList ρ) : WritePc ρ :=
  if ol.list.empty then .top removed else .inner removed ol

def writev (self : Conn ρ) (nw : Sent) : Option (Conn ρ) :=
  match self.pc, nw with
  | .inner removed ol, .wrote n =>
    let iovs := (F.getIovs self.items ol 128).flatten
    if 0 < n ∧ n ≤ iovs.length then
      let (items, ol, k) := F.written self.items ol n
      some { self with
        items := items
        kernel := self.kernel ++ iovs.take n
        pc := remain (removed + k) ol }
    else none
  | .inner removed ol, .wouldBlock => some { self with pc := .merge removed ol }
  | .inner _ _, .failed => some { self with pc := .stop }
  | _, _ => none

def glue (items : Items) (ol list : FrmList) : Items :=
  if list.empty then items
  else
    let tail := if ol.last.isSome then ol.last else ol.first
    let items := tail.elim items fun a => items.setNext a list.first
    list.first.elim items fun a => items.setPrev a tail

def resume (removed : Nat) : WritePc ρ := if removed = 0 then .idle else .top removed

def merge (self : Conn ρ) : Option (Conn ρ) :=
  match self.pc with
  | .merge removed ol => some { self with
      items := glue self.items ol.list self.ol.list
      ol := ol
      pc := resume removed }
  | _ => none

def leave (mustStop : Bool) : WritePc ρ := if mustStop then .stop else .idle

def settle (self : Conn ρ) (wake : Bool) : Option (Conn ρ) :=
  match self.pc with
  | .settle _ mustStop =>
    some { self with pc := if wake then .broadcast mustStop else leave mustStop }
  | _ => none

def broadcast (self : Conn ρ) : Option (Conn ρ) :=
  match self.pc with
  | .broadcast mustStop => some { self with pc := leave mustStop }
  | _ => none

def stopWatcher (self : Conn ρ) : Option (Conn ρ) :=
  match self.pc with
  | .stop => some { self with wio := false, pc := .clear }
  | _ => none

def clearWriting (self : Conn ρ) : Option (Conn ρ) :=
  match self.pc with
  | .clear => some { self with writing := false, pc := .idle }
  | _ => none

def step (self : Conn ρ) : ConnLabel → Option (Conn ρ)
  | .insert li fr => self.insert F li fr
  | .startWrite => self.startWrite
  | .zombie => some self.hangup
  | .ready => self.ready
  | .steal => self.steal F
  | .writev nw => self.writev F nw
  | .merge => self.merge
  | .settle wake => self.settle wake
  | .broadcast => self.broadcast
  | .stopWatcher => self.stopWatcher
  | .clearWriting => self.clearWriting

end Conn

end Fsock
