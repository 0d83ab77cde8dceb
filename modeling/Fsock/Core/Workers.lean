import Fsock.Utils.Thread
import Fsock.Core.Send

namespace Fsock

abbrev Thr := Fin 4

instance Thr.neZero : NeZero 4 := ⟨by decide⟩

inductive Job (κ β : Type) where
  | startRead (c : κ)
  | stopRead (c : κ)
  | startWrite (c : κ)
  | thrBind (b : β)
  | thrConn (c : κ)
  | stop (w : Thr)
  deriving DecidableEq

namespace Job

variable {κ β : Type}

def read : Bool → κ → Job κ β
  | true, c => .startRead c
  | false, c => .stopRead c

end Job

structure Endpoint where
  thr : Option Thr
  fd : Int
  idx : Int
  zombie : Bool
  writing : Bool
  started : Bool
  rio : Bool
  wio : Bool
  deriving DecidableEq

namespace Endpoint

def init : Endpoint where
  thr := none
  fd := -1
  idx := -1
  zombie := false
  writing := false
  started := false
  rio := false
  wio := false

end Endpoint

inductive Stage where
  | attach
  | publish
  | thr
  | fd
  | idx
  | start
  deriving DecidableEq

def connectStages : List Stage := [.thr, .publish, .idx, .fd, .start]

def acceptStages : List Stage := [.attach, .publish, .thr, .fd, .idx, .start]

structure Setup (β : Type) where
  origin : Option (Thr × β)
  thr : Thr
  fd : Int
  index : Int
  stages : List Stage

inductive ReadResult where
  | wouldBlock
  | closed
  | frames (n : Nat) (cnt : Int)
  deriving DecidableEq

inductive Handler (κ : Type) where
  | idle
  | parsed (n : Nat) (cnt : Int)
  | pausing
  | hangup (c : κ)
  | mark (c : κ)
  | writing (c : κ)
  | clear (c : κ)
  | accepting (c : κ)
  deriving DecidableEq

inductive Phase (κ : Type) where
  | locking
  | pushing (todo : List κ)
  | removing (c : κ) (todo : List κ)
  | signalling (todo : List Thr)
  deriving DecidableEq

structure Bulk (κ : Type) where
  holder : Option Thr
  start : Bool
  phase : Phase κ
  deriving DecidableEq

inductive Crash where
  | assertion
  | noCallback
  | nullThread
  | rawWatcher
  deriving DecidableEq

structure Listener (κ : Type) where
  thr : Option Thr
  rio : Bool
  conns : List κ

namespace Listener

variable {κ : Type}

def attach (self : Listener κ) (c : κ) : Listener κ := { self with conns := self.conns ++ [c] }

end Listener

structure Workers (κ β τ : Type) where
  pool : Pool (Job κ β) Thr
  peers : κ → Endpoint
  setups : κ → Option (Setup β)
  conns : List κ
  binds : List β
  listeners : β → Listener κ
  reading : Int
  rcvhwm : Int
  rcvqsz : Int
  events : Nat
  bulk : Option (Bulk κ)
  handlers : Thr → Handler κ
  sends : τ → Option κ
  joined : Thr → Bool
  fault : Option Crash

inductive WorkersLabel (κ β τ : Type) where
  | bind (b : β) (w : Thr)
  | connect (c : κ) (w : Thr) (fd : Int)
  | accept (w : Thr) (b : β) (c : κ) (v : Thr) (fd : Int)
  | advance (c : κ)
  | check (t : τ) (c : κ)
  | insert (t : τ)
  | fail (t : τ)
  | read (w : Thr) (c : κ) (res : ReadResult)
  | deliver (w : Thr)
  | get
  | bulk
  | hangup (w : Thr)
  | mark (w : Thr)
  | write (w : Thr) (c : κ)
  | written (w : Thr) (mustStop : Bool)
  | clear (w : Thr)
  | join (w : Thr)
  | copyJobs (w : Thr)
  | pop (w : Thr)
  | run (w : Thr)
  deriving DecidableEq

namespace Workers

variable {κ β τ : Type}

def init (rcvhwm : Int) : Workers κ β τ where
  pool := .init
  peers := fun _ => .init
  setups := fun _ => none
  conns := []
  binds := []
  listeners := fun _ => ⟨none, false, []⟩
  reading := 0
  rcvhwm := rcvhwm
  rcvqsz := 0
  events := 0
  bulk := none
  handlers := fun _ => .idle
  sends := fun _ => none
  joined := fun _ => false
  fault := none

def locked (s : Workers κ β τ) : Bool :=
  match s.bulk with
  | some ⟨_, _, .pushing _⟩ => true
  | some ⟨_, _, .removing _ _⟩ => true
  | _ => false

def inLoop (s : Workers κ β τ) (w : Thr) : Prop :=
  s.handlers w = .idle ∧ s.pool.routine w = .waiting

def crash (s : Workers κ β τ) (f : Crash) : Workers κ β τ := { s with fault := some f }

def phase (s : Workers κ β τ) (b : Bulk κ) (p : Phase κ) : Workers κ β τ :=
  { s with bulk := some { b with phase := p } }

def handle (s : Workers κ β τ) (w : Thr) (h : Handler κ) : Workers κ β τ :=
  { s with handlers := Function.update s.handlers w h }

def release (s : Workers κ β τ) : Option Thr → Workers κ β τ
  | some w => s.handle w .idle
  | none => s

variable [DecidableEq κ] [DecidableEq β] [DecidableEq τ]

instance (s : Workers κ β τ) (w : Thr) : Decidable (s.inLoop w) :=
  inferInstanceAs (Decidable (_ ∧ _))

def modify (s : Workers κ β τ) (c : κ) (f : Endpoint → Endpoint) : Workers κ β τ :=
  { s with peers := Function.update s.peers c (f (s.peers c)) }

def setup (s : Workers κ β τ) (c : κ) (u : Setup β) : Workers κ β τ :=
  { s with setups := Function.update s.setups c (some u) }

def schedule (s : Workers κ β τ) (thr : Option Thr) (j : Job κ β)
    (k : Workers κ β τ → Workers κ β τ) : Option (Workers κ β τ) :=
  match thr with
  | none => some (s.crash .nullThread)
  | some w =>
    if s.locked then none
    else
      match s.pool.scheduleTask w j with
      | none => some (s.crash .assertion)
      | some pool => some (k { s with pool := pool })

def bind (s : Workers κ β τ) (b : β) (w : Thr) : Option (Workers κ β τ) :=
  if b ∈ s.binds then none
  else
    s.schedule (some w) (.thrBind b) fun s => { s with
      binds := s.binds ++ [b]
      listeners := Function.update s.listeners b ⟨some w, false, []⟩ }

def connect (s : Workers κ β τ) (c : κ) (w : Thr) (fd : Int) : Option (Workers κ β τ) :=
  match s.setups c with
  | none => some (s.setup c ⟨none, w, fd, -1, connectStages⟩)
  | some _ => none

def accept (s : Workers κ β τ) (w : Thr) (b : β) (c : κ) (v : Thr) (fd : Int) :
    Option (Workers κ β τ) :=
  match s.setups c with
  | none =>
    if s.inLoop w ∧ (s.listeners b).rio = true ∧ (s.listeners b).thr = some w then
      some ((s.setup c ⟨some (w, b), v, fd, -1, acceptStages⟩).handle w (.accepting c))
    else none
  | some _ => none

def stage (s : Workers κ β τ) (c : κ) (u : Setup β) : Stage → Option (Workers κ β τ)
  | .attach =>
    match u.origin with
    | some (_, b) =>
      let listeners := Function.update s.listeners b ((s.listeners b).attach c)
      some ({ s with listeners := listeners }.setup c u)
    | none => none
  | .publish =>
    if s.bulk = none then
      some ({ s with conns := s.conns ++ [c] }.setup c { u with index := s.conns.length })
    else none
  | .thr => some ((s.modify c fun p => { p with thr := some u.thr }).setup c u)
  | .fd => some ((s.modify c fun p => { p with fd := u.fd }).setup c u)
  | .idx => some ((s.modify c fun p => { p with idx := u.index }).setup c u)
  | .start => s.schedule (some u.thr) (.thrConn c) fun s => (s.setup c u).release (u.origin.map (·.1))

def advance (s : Workers κ β τ) (c : κ) : Option (Workers κ β τ) :=
  match s.setups c with
  | some u =>
    match u.stages with
    | stage :: stages => s.stage c { u with stages := stages } stage
    | [] => none
  | none => none

def check (s : Workers κ β τ) (t : τ) (c : κ) : Option (Workers κ β τ) :=
  match s.sends t with
  | none =>
    if c ∈ s.conns then
      if (s.peers c).zombie then some s
      else some { s with sends := Function.update s.sends t (some c) }
    else none
  | some _ => none

def insert (s : Workers κ β τ) (t : τ) : Option (Workers κ β τ) :=
  match s.sends t with
  | some c =>
    if (s.peers c).writing then some { s with sends := Function.update s.sends t none }
    else
      s.schedule (s.peers c).thr (.startWrite c) fun s => { s.modify c fun p =>
        { p with writing := true } with sends := Function.update s.sends t none }
  | none => none

def fail (s : Workers κ β τ) (t : τ) : Option (Workers κ β τ) :=
  match s.sends t with
  | some _ => some { s with sends := Function.update s.sends t none }
  | none => none

def read (s : Workers κ β τ) (w : Thr) (c : κ) (res : ReadResult) : Option (Workers κ β τ) :=
  if s.inLoop w ∧ (s.peers c).rio = true ∧ (s.peers c).thr = some w then
    match res with
    | .wouldBlock => some s
    | .closed => some (s.handle w (.hangup c))
    | .frames n cnt => some (s.handle w (.parsed n cnt))
  else none

def deliver (s : Workers κ β τ) (w : Thr) : Option (Workers κ β τ) :=
  match s.handlers w, s.bulk with
  | .parsed n cnt, none =>
    let s : Workers κ β τ := { s with
      rcvqsz := s.rcvqsz + cnt
      events := if cnt > 0 then s.events + n else s.events }
    if s.rcvhwm > 0 ∧ s.rcvhwm < s.rcvqsz then
      some { s.handle w .pausing with
        reading := stopOp
        bulk := some ⟨some w, false, .locking⟩ }
    else some (s.handle w .idle)
  | _, _ => none

def get (s : Workers κ β τ) : Option (Workers κ β τ) :=
  match s.bulk with
  | none =>
    if s.events = 0 then none
    else
      let s := { s with events := s.events - 1, rcvqsz := s.rcvqsz - 1 }
      if s.rcvhwm > 0 ∧ s.reading = stopOp ∧ s.rcvqsz < s.rcvhwm then
        some { s with reading := 0, bulk := some ⟨none, true, .locking⟩ }
      else some s
  | some _ => none

def bulkSchedule (s : Workers κ β τ) : Option (Workers κ β τ) :=
  match s.bulk with
  | none => none
  | some b =>
    match b.phase with
    | .locking => some (s.phase b (.pushing s.conns))
    | .pushing [] => some (s.phase b (.signalling [0, 1, 2, 3]))
    | .pushing (c :: todo) =>
      if s.pool.isinqueue (.read b.start c) then some (s.phase b (.removing c todo))
      else
        match (s.peers c).thr with
        | none => some (s.crash .nullThread)
        | some w =>
          match s.pool.scheduleTaskUnsafe w (.read b.start c) with
          | none => some (s.crash .assertion)
          | some pool => some ({ s with pool := pool }.phase b (.removing c todo))
    | .removing c todo =>
      if s.pool.isinqueue (.read (!b.start) c) then
        match (s.peers c).thr with
        | none => some (s.crash .nullThread)
        | some w => (s.pool.remove w (.read (!b.start) c)).map fun pool =>
            { s with pool := pool }.phase b (.pushing todo)
      else some (s.phase b (.pushing todo))
    | .signalling (w :: todo) =>
      some ({ s with pool := s.pool.scheduleTaskSignal w }.phase b (.signalling todo))
    | .signalling [] => some ({ s with bulk := none }.release b.holder)

def hangup (s : Workers κ β τ) (w : Thr) : Option (Workers κ β τ) :=
  match s.handlers w with
  | .hangup c => some ((s.modify c fun p => { p with rio := false, wio := false }).handle w (.mark c))
  | _ => none

def mark (s : Workers κ β τ) (w : Thr) : Option (Workers κ β τ) :=
  match s.handlers w with
  | .mark c => some ((s.modify c fun p => { p with zombie := true }).handle w .idle)
  | _ => none

def write (s : Workers κ β τ) (w : Thr) (c : κ) : Option (Workers κ β τ) :=
  if s.inLoop w ∧ (s.peers c).wio = true ∧ (s.peers c).thr = some w then
    if (s.peers c).zombie then some s else some (s.handle w (.writing c))
  else none

def written (s : Workers κ β τ) (w : Thr) (mustStop : Bool) : Option (Workers κ β τ) :=
  match s.handlers w with
  | .writing c =>
    if mustStop then some ((s.modify c fun p => { p with wio := false }).handle w (.clear c))
    else some (s.handle w .idle)
  | _ => none

def clear (s : Workers κ β τ) (w : Thr) : Option (Workers κ β τ) :=
  match s.handlers w with
  | .clear c => some ((s.modify c fun p => { p with writing := false }).handle w .idle)
  | _ => none

def join (s : Workers κ β τ) (w : Thr) : Option (Workers κ β τ) :=
  s.schedule (some w) (.stop w) fun s => { s with joined := Function.update s.joined w true }

def copyJobs (s : Workers κ β τ) (w : Thr) : Option (Workers κ β τ) :=
  if s.handlers w = .idle ∧ s.locked = false then
    (s.pool.copyJobs w).map fun pool => { s with pool := pool }
  else none

def pop (s : Workers κ β τ) (w : Thr) : Option (Workers κ β τ) :=
  (s.pool.pop w (.stop w)).map fun pool => { s with pool := pool }

def taskRoutine (s : Workers κ β τ) : Job κ β → Workers κ β τ
  | .startRead c =>
    if (s.peers c).started then s.modify c fun p => { p with rio := true }
    else s.crash .rawWatcher
  | .stopRead c =>
    if (s.peers c).started then s.modify c fun p => { p with rio := false }
    else s.crash .rawWatcher
  | .startWrite c =>
    if (s.peers c).started then s.modify c fun p => { p with wio := true }
    else s.crash .rawWatcher
  | .thrBind b =>
    { s with listeners := Function.update s.listeners b { s.listeners b with rio := true } }
  | .thrConn c => s.modify c fun p => { p with started := true, rio := true, wio := false }
  | .stop _ => s.crash .noCallback

def run (s : Workers κ β τ) (w : Thr) : Option (Workers κ β τ) :=
  (s.pool.done w).map fun (task, pool) => { s with pool := pool }.taskRoutine task

def step (s : Workers κ β τ) (l : WorkersLabel κ β τ) : Option (Workers κ β τ) :=
  if s.fault.isSome then none
  else
    match l with
    | .bind b w => s.bind b w
    | .connect c w fd => s.connect c w fd
    | .accept w b c v fd => s.accept w b c v fd
    | .advance c => s.advance c
    | .check t c => s.check t c
    | .insert t => s.insert t
    | .fail t => s.fail t
    | .read w c res => s.read w c res
    | .deliver w => s.deliver w
    | .get => s.get
    | .bulk => s.bulkSchedule
    | .hangup w => s.hangup w
    | .mark w => s.mark w
    | .write w c => s.write w c
    | .written w mustStop => s.written w mustStop
    | .clear w => s.clear w
    | .join w => s.join w
    | .copyJobs w => s.copyJobs w
    | .pop w => s.pop w
    | .run w => s.run w

end Workers

end Fsock
