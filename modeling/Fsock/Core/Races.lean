import Fsock.Lib.Lockset
import Fsock.Core.Locks

namespace Fsock.Races

open LockOrder (Exits)
open Lockset Lockset.Prog Access Locks

inductive Bulk where
  | startRead
  | stopRead
  deriving DecidableEq

def Bulk.other : Bulk → Bulk
  | .startRead => .stopRead
  | .stopRead => .startRead

inductive Field where
  | socks
  | lastIdx
  | jobs (w : Thr)
  | writing (r : Nat)
  | sndqsz (r : Nat)
  | wantWcond (r : Nat)
  | reading (r : Nat)
  | rcvqsz (r : Nat)
  | wantEfd (r : Nat)
  | events (r : Nat)
  | conns (r : Nat)
  | binds (r : Nat)
  | bindConns (b : Nat)
  | flags (c : Nat)
  | thr (c : Nat)
  | connWriting (c : Nat)
  | ol (c : Nat)
  | item (j : Bulk) (c : Nat)
  deriving DecidableEq

abbrev Prog := Lockset.Prog Mutex Field

def scheduleTask (w : Thr) : Prog :=
  call (block [lock (.worker w), touch {writes (.jobs w)} (unlock (.worker w))])

def workersLock : Prog :=
  block [lock (.worker 0), lock (.worker 1), lock (.worker 2), lock (.worker 3)]

def workersUnlock : Prog :=
  block [unlock (.worker 0), unlock (.worker 1), unlock (.worker 2), unlock (.worker 3)]

def bulked (r : Nat) (j : Bulk) : Set (Access Field) :=
  {reads (.conns r)} ∪ {x | ∃ c, x = reads (.thr c)} ∪
    {x | ∃ c, x = writes (.item j c) ∨ x = writes (.item j.other c)} ∪
    {x | ∃ w, x = writes (.jobs w)}

def bulkSchedule (r : Nat) (j : Bulk) : Prog :=
  block [workersLock, touch (bulked r j) workersUnlock]

def chooseThr : Prog :=
  block [lock .glock, touch {writes .lastIdx} (unlock .glock)]

def socket : Prog :=
  call (block [
    alt ret skip,
    lock .glock,
    touch {writes .socks} (alt (alt (block [unlock .glock, ret]) skip) skip),
    touch {writes .socks} (alt (block [unlock .glock, ret]) skip),
    unlock .glock])

def bind (r : Nat) (w : Thr) : Prog :=
  call (block [
    alt ret skip,
    chooseThr,
    touch {reads .socks} (alt ret skip),
    touch {writes (.binds r)} (scheduleTask w)])

def connect (r : Nat) (w : Thr) : Prog :=
  call (block [
    alt ret skip,
    chooseThr,
    touch {reads .socks} (alt ret skip),
    lock (.root r),
    touch {writes (.conns r)} (unlock (.root r)),
    scheduleTask w])

def getEvent (r : Nat) : Prog :=
  call (block [
    touch {reads .socks} (lock (.root r)),
    touch {reads (.events r)} (alt (block [
      alt (block [unlock (.root r), ret]) skip,
      touch {writes (.wantEfd r)} (unlock (.root r)),
      alt ret skip,
      lock (.root r)]) skip),
    touch {writes (.events r), writes (.rcvqsz r), writes (.reading r)}
      (alt (bulkSchedule r .startRead) skip),
    unlock (.root r)])

def send (canlock : Bool) (r c : Nat) (w : Thr) : Prog :=
  call (block [
    touch {reads .socks, reads (.conns r), reads (.flags c)} (alt ret skip),
    touch {reads (.writing r)} (alt ret skip),
    touch {reads (.writing r)} (alt (block [
      only canlock (lock (.root r)),
      touch {writes (.wantWcond r)} (wait (.root r)),
      only canlock (unlock (.root r))]) skip),
    alt ret skip,
    lock (.conn c),
    touch {reads (.connWriting c), reads (.thr c)} (alt (scheduleTask w) skip),
    touch {writes (.connWriting c), writes (.ol c)} (unlock (.conn c)),
    only canlock (lock (.root r)),
    touch {writes (.sndqsz r), writes (.writing r)} (only canlock (unlock (.root r)))])

def sendAll (parr : Field) (r : Nat) : Prog :=
  call (block [
    touch {reads .socks} (lock (.root r)),
    loop (touch {reads parr, reads (.conns r)} (alt (block [
      any fun x : Nat × Thr => send false r x.1 x.2,
      alt brk skip]) skip)),
    unlock (.root r)])

def sendc (type : Int) (r b c : Nat) (w : Thr) : Prog :=
  call (touch {reads .socks} (if type = sndAll then sendAll (.conns r) r
    else if type = sndBind then touch {reads (.binds r)} (sendAll (.bindConns b) r)
    else if type = sndBindconn then
      touch {reads (.binds r), reads (.bindConns b)} (send true r c w)
    else ret))

def taskRoutine : Prog := call skip

def asyncRoutine (w : Thr) : Prog :=
  call (block [
    lock (.worker w),
    touch {writes (.jobs w)} (unlock (.worker w)),
    loop (touch {x | ∃ j c, x = writes (.item j c)} (alt ret taskRoutine))])

def acceptHandler (b r c : Nat) (w : Thr) : Prog :=
  call (block [
    alt ret skip,
    alt ret skip,
    lock (.bind b),
    touch {writes (.bindConns b)} (unlock (.bind b)),
    alt ret skip,
    lock (.root r),
    touch {writes (.conns r)} (unlock (.root r)),
    alt ret skip,
    chooseThr,
    touch {writes (.thr c)} (scheduleTask w)])

def marked (f : Field) (c : Nat) : Prog :=
  block [lock (.conn c), touch {writes f} (unlock (.conn c))]

def readHandler (c r : Nat) : Prog :=
  call (block [
    alt ret skip,
    alt (marked (.flags c) c) (alt skip (alt (marked (.flags c) c) (block [
      lock (.root r),
      touch {writes (.rcvqsz r), writes (.events r), writes (.wantEfd r), writes (.reading r)}
        (alt (bulkSchedule r .stopRead) skip),
      unlock (.root r)])))])

def writeHandler (c r : Nat) : Prog :=
  call (block [
    touch {reads (.flags c)} (alt ret skip),
    loop (block [
      lock (.conn c),
      touch {reads (.ol c)} (alt (block [
        unlock (.conn c),
        alt brk (block [marked (.connWriting c) c, ret])]) skip),
      touch {writes (.ol c)} (unlock (.conn c)),
      loop (alt
        (block [lock (.conn c), touch {writes (.ol c)} (unlock (.conn c)), alt ret brk])
        (alt (block [marked (.connWriting c) c, ret]) skip))]),
    alt (block [
      lock (.root r),
      touch {writes (.sndqsz r), writes (.writing r), writes (.wantWcond r)} (unlock (.root r))]) skip,
    alt (marked (.connWriting c) c) skip])

inductive Calls {α : Type} : Thread α → Prog → Prop
  | socket {a} : Calls (.user a) socket
  | bind {a r w} : Calls (.user a) (bind r w)
  | connect {a r w} : Calls (.user a) (connect r w)
  | getEvent {a r} : Calls (.user a) (getEvent r)
  | send {a r c w} : Calls (.user a) (send true r c w)
  | sendc {a type r b c w} : Calls (.user a) (sendc type r b c w)
  | async {w} : Calls (.worker w) (asyncRoutine w)
  | task {w} : Calls (.worker w) taskRoutine
  | accept {w b r c v} : Calls (.worker w) (acceptHandler b r c v)
  | read {w c r} : Calls (.worker w) (readHandler c r)
  | write {w c r} : Calls (.worker w) (writeHandler c r)

def guard : Field → Option Mutex
  | .lastIdx => some .glock
  | .jobs w => some (.worker w)
  | .sndqsz r => some (.root r)
  | .wantWcond r => some (.root r)
  | .reading r => some (.root r)
  | .rcvqsz r => some (.root r)
  | .wantEfd r => some (.root r)
  | .events r => some (.root r)
  | .connWriting c => some (.conn c)
  | .ol c => some (.conn c)
  | _ => none

section

variable {held : List Mutex} {post : LockOrder.Exits Mutex} {b c r : Nat} {v w : Thr}

theorem calls_erase {α : Type} {t : Thread α} {p : Prog} (h : Calls t p) :
    Locks.Calls t p.erase := by
  cases h with
  | socket => exact .socket
  | bind => exact .bind
  | connect => exact .connect
  | getEvent => exact .getEvent
  | send => exact .send
  | @sendc a type r b c w =>
    have he : (sendc type r b c w).erase = Locks.sendc type r c w := by
      simp only [sendc, Locks.sendc, Prog.erase]
      split
      · rfl
      · split
        · rfl
        · split <;> rfl
    rw [he]
    exact .sendc
  | async => exact .async
  | task => exact .task
  | accept => exact .accept
  | read => exact .read
  | write => exact .write

end

section

variable {a : Access Field} {b c r : Nat} {v w : Thr} {j : Bulk} {s : Set (Access Field)}
  {p : Prog} {ps : List Prog} {o : Outcome} {k : List (Act Mutex Field)}

end

end Fsock.Races
