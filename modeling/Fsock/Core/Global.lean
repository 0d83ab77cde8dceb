import Fsock.Utils.Parr
import Mathlib.Logic.Function.Basic

namespace Fsock

inductive Worker where
  | unborn
  | running
  | joined
  deriving DecidableEq

structure Open where
  idx : Int
  sock : Nat
  closing : Bool
  deriving DecidableEq

def Open.mark (s : Int) (o : Open) : Open := if o.idx = s then { o with closing := true } else o

inductive GlobalPc where
  | idle
  | closing (s : Int)
  | leaving (term : Bool)
  deriving DecidableEq

def GlobalPc.target : GlobalPc → Option Int
  | .closing s => some s
  | _ => none

structure Global (τ : Type) where
  initialized : Bool
  threads : Fin 4 → Worker
  socks : Parr
  pcs : τ → GlobalPc
  opens : List Open
  closed : Bool
  fault : Bool

inductive GlobalLabel (τ : Type) where
  | socket (t : τ) (sock : Nat) (mem : Mem)
  | close (t : τ) (s : Int)
  | shut (t : τ) (mem : Nat → Mem)
  | leave (t : τ)

namespace Global

variable {τ : Type} [DecidableEq τ]

def start : Global τ where
  initialized := false
  threads := fun _ => .unborn
  socks := .init 0
  pcs := fun _ => .idle
  opens := []
  closed := false
  fault := false

def fail (g : Global τ) : Global τ := { g with fault := true }

def goto (g : Global τ) (t : τ) (pc : GlobalPc) : Global τ :=
  { g with pcs := Function.update g.pcs t pc }

def init (g : Global τ) : Global τ :=
  { g with initialized := true, socks := .init 10, threads := fun _ => .running }

def term (g : Global τ) : Global τ :=
  if g.initialized then
    let g := { g with threads := fun _ => .joined }
    match g.socks.term with
    | .error _ => g.fail
    | .ok () => { g with initialized := false }
  else g

def insert (g : Global τ) (sock : Nat) (mem : Mem) : Global τ :=
  match g.socks.insert (.obj sock) mem with
  | .error _ => g.fail
  | .ok (socks, index) =>
    if index < 0 then { g with socks := socks }
    else { g with socks := socks, opens := g.opens ++ [⟨index, sock, false⟩] }

def socket (g : Global τ) (t : τ) (sock : Nat) (mem : Mem) : Option (Global τ) :=
  match g.pcs t with
  | .idle => some ((if g.initialized then g else g.init).insert sock mem)
  | _ => none

def close (g : Global τ) (t : τ) (s : Int) : Option (Global τ) :=
  match g.pcs t with
  | .idle =>
    if ∃ o ∈ g.opens, o.idx = s ∧ o.closing = false then
      if g.initialized then some { g.goto t (.closing s) with opens := g.opens.map (Open.mark s) }
      else some g
    else none
  | _ => none

def clear (g : Global τ) (t : τ) (s : Int) (mem : Nat → Mem) : Global τ :=
  match g.socks.clear s mem with
  | .error _ => g.fail
  | .ok (socks, rc) =>
    if rc ≠ 0 then g.fail
    else match socks.size with
      | .error _ => g.fail
      | .ok n => { g.goto t (.leaving (n = 0)) with
          socks := socks
          opens := g.opens.filter fun o => o.idx ≠ s
          closed := true }

def shut (g : Global τ) (t : τ) (mem : Nat → Mem) : Option (Global τ) :=
  match g.pcs t with
  | .closing s =>
    if 0 ≤ s ∧ s < g.socks.last then
      match g.socks.load s with
      | .error _ => some g.fail
      | .ok p => if p ≠ .empty then some (g.clear t s mem) else some g.fail
    else some g.fail
  | _ => none

def leave (g : Global τ) (t : τ) : Option (Global τ) :=
  match g.pcs t with
  | .leaving true => some (g.term.goto t .idle)
  | .leaving false => some (g.goto t .idle)
  | _ => none

def step (g : Global τ) (l : GlobalLabel τ) : Option (Global τ) :=
  if g.fault then none else
  match l with
  | .socket t sock mem => g.socket t sock mem
  | .close t s => g.close t s
  | .shut t mem => g.shut t mem
  | .leave t => g.leave t

end Global

end Fsock
