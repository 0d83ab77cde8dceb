import Fsock.Core.Writer

namespace Fsock

inductive Nread where
  | bytes (n : Nat)
  | eof
  | wouldBlock
  | failed
  deriving DecidableEq

inductive ReadPc where
  | idle
  | parse (nread : Int)
  | stop
  | mark
  deriving DecidableEq

structure Duplex (ρ : Type) where
  conn : Conn ρ
  rio : Bool
  pc : ReadPc
  parsed : List Int

inductive DuplexLabel where
  | conn (l : ConnLabel)
  | startRead
  | stopRead
  | read (nread : Nread)
  | parse (ok : Bool)
  | stopWatchers
  | mark
  deriving DecidableEq

namespace Duplex

variable {ρ : Type} (F : Framer ρ)

def init : Duplex ρ := ⟨Conn.init F, true, .idle, []⟩

def inLoop (self : Duplex ρ) : Bool :=
  match self.pc, self.conn.pc with
  | .idle, .idle => true
  | _, _ => false

def write (self : Duplex ρ) (l : ConnLabel) : Option (Duplex ρ) :=
  match l with
  | .zombie => none
  | .startWrite | .ready =>
    if self.inLoop then (self.conn.step F l).map fun conn => { self with conn := conn } else none
  | l => (self.conn.step F l).map fun conn => { self with conn := conn }

def watch (self : Duplex ρ) (rio : Bool) : Option (Duplex ρ) :=
  if self.inLoop then some { self with rio := rio } else none

def read (self : Duplex ρ) (nread : Nread) : Option (Duplex ρ) :=
  if self.inLoop ∧ self.rio = true then
    match nread with
    | .bytes n => if 1 ≤ n ∧ n ≤ 1400 then some { self with pc := .parse n } else none
    | .eof => some { self with pc := .stop }
    | .wouldBlock => some self
    -- nread is -1 here, and only EAGAIN and EWOULDBLOCK are tested before the parser is called
    | .failed => some { self with pc := .parse (-1) }
  else none

def parse (self : Duplex ρ) (ok : Bool) : Option (Duplex ρ) :=
  match self.pc with
  | .parse nread => some { self with
      parsed := self.parsed ++ [nread]
      pc := if ok then .idle else .stop }
  | _ => none

def stopWatchers (self : Duplex ρ) : Option (Duplex ρ) :=
  match self.pc with
  | .stop => some { self with
      conn := { self.conn with wio := false }
      rio := false
      pc := .mark }
  | _ => none

def mark (self : Duplex ρ) : Option (Duplex ρ) :=
  match self.pc with
  | .mark => some { self with conn := { self.conn with zombie := true }, pc := .idle }
  | _ => none

def step (self : Duplex ρ) : DuplexLabel → Option (Duplex ρ)
  | .conn l => self.write F l
  | .startRead => self.watch true
  | .stopRead => self.watch false
  | .read nread => self.read nread
  | .parse ok => self.parse ok
  | .stopWatchers => self.stopWatchers
  | .mark => self.mark

end Duplex

end Fsock
