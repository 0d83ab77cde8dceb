import Fsock.Lib.LockOrder
import Fsock.Core.Sendc
import Fsock.Core.Workers

namespace Fsock.Locks

open LockOrder

inductive Mutex where
  | glock
  | root (r : Nat)
  | bind (b : Nat)
  | conn (c : Nat)
  | worker (w : Thr)
  deriving DecidableEq

abbrev Path := Stmt Mutex

def scheduleTask (w : Thr) : Path :=
  .call (.block [.lock (.worker w), .unlock (.worker w)])

def workersLock : Path :=
  .block [.lock (.worker 0), .lock (.worker 1), .lock (.worker 2), .lock (.worker 3)]

def workersUnlock : Path :=
  .block [.unlock (.worker 0), .unlock (.worker 1), .unlock (.worker 2), .unlock (.worker 3)]

def bulkSchedule : Path := .block [workersLock, workersUnlock]

def chooseThr : Path := .block [.lock .glock, .unlock .glock]

def socket : Path :=
  .call (.block [
    .alt .ret .skip,
    .lock .glock,
    .alt (.alt (.block [.unlock .glock, .ret]) .skip) .skip,
    .alt (.block [.unlock .glock, .ret]) .skip,
    .unlock .glock])

def bind (w : Thr) : Path :=
  .call (.block [
    .alt .ret .skip,
    chooseThr,
    .alt .ret .skip,
    scheduleTask w])

def connect (r : Nat) (w : Thr) : Path :=
  .call (.block [
    .alt .ret .skip,
    chooseThr,
    .alt .ret .skip,
    .lock (.root r),
    .unlock (.root r),
    scheduleTask w])

def getEvent (r : Nat) : Path :=
  .call (.block [
    .lock (.root r),
    .alt (.block [
      .alt (.block [.unlock (.root r), .ret]) .skip,
      .unlock (.root r),
      .alt .ret .skip,
      .lock (.root r)]) .skip,
    .alt bulkSchedule .skip,
    .unlock (.root r)])

def send (canlock : Bool) (r c : Nat) (w : Thr) : Path :=
  .call (.block [
    .alt .ret .skip,
    .alt .ret .skip,
    .alt (.block [
      .only canlock (.lock (.root r)),
      .wait (.root r),
      .only canlock (.unlock (.root r))]) .skip,
    .alt .ret .skip,
    .lock (.conn c),
    .alt (scheduleTask w) .skip,
    .unlock (.conn c),
    .only canlock (.lock (.root r)),
    .only canlock (.unlock (.root r))])

def sendAll (r : Nat) : Path :=
  .call (.block [
    .lock (.root r),
    .loop (.alt (.block [
      .any fun x : Nat × Thr => send false r x.1 x.2,
      .alt .brk .skip]) .skip),
    .unlock (.root r)])

def sendc (type : Int) (r c : Nat) (w : Thr) : Path :=
  .call (if type = sndAll then sendAll r
    else if type = sndBind then sendAll r
    else if type = sndBindconn then send true r c w
    else .ret)

def taskRoutine : Path := .call .skip

def asyncRoutine (w : Thr) : Path :=
  .call (.block [
    .lock (.worker w),
    .unlock (.worker w),
    .loop (.alt .ret taskRoutine)])

def acceptHandler (b r : Nat) (w : Thr) : Path :=
  .call (.block [
    .alt .ret .skip,
    .alt .ret .skip,
    .lock (.bind b),
    .unlock (.bind b),
    .alt .ret .skip,
    .lock (.root r),
    .unlock (.root r),
    .alt .ret .skip,
    chooseThr,
    scheduleTask w])

def marked (c : Nat) : Path := .block [.lock (.conn c), .unlock (.conn c)]

def readHandler (c r : Nat) : Path :=
  .call (.block [
    .alt .ret .skip,
    .alt (marked c) (.alt .skip (.alt (marked c) (.block [
      .lock (.root r),
      .alt bulkSchedule .skip,
      .unlock (.root r)])))])

def writeHandler (c r : Nat) : Path :=
  .call (.block [
    .alt .ret .skip,
    .loop (.block [
      .lock (.conn c),
      .alt (.block [
        .unlock (.conn c),
        .alt .brk (.block [marked c, .ret])]) .skip,
      .unlock (.conn c),
      .loop (.alt
        (.block [.lock (.conn c), .unlock (.conn c), .alt .ret .brk])
        (.alt (.block [marked c, .ret]) .skip))]),
    .alt (.block [.lock (.root r), .unlock (.root r)]) .skip,
    .alt (marked c) .skip])

inductive Thread (α : Type) where
  | user (a : α)
  | worker (w : Thr)
  deriving DecidableEq

inductive Calls {α : Type} : Thread α → Path → Prop
  | socket {a} : Calls (.user a) socket
  | bind {a w} : Calls (.user a) (bind w)
  | connect {a r w} : Calls (.user a) (connect r w)
  | getEvent {a r} : Calls (.user a) (getEvent r)
  | send {a r c w} : Calls (.user a) (send true r c w)
  | sendc {a type r c w} : Calls (.user a) (sendc type r c w)
  | async {w} : Calls (.worker w) (asyncRoutine w)
  | task {w} : Calls (.worker w) taskRoutine
  | accept {w b r v} : Calls (.worker w) (acceptHandler b r v)
  | read {w c r} : Calls (.worker w) (readHandler c r)
  | write {w c r} : Calls (.worker w) (writeHandler c r)

def rank : Mutex → Nat
  | .glock => 0
  | .root _ => 0
  | .bind _ => 0
  | .conn _ => 1
  | .worker w => 2 + w

section

variable {held : List Mutex} {post : Exits Mutex} {b c r : Nat} {v w : Thr}

@[simp] theorem rank_root_conn : rank (.root r) < rank (.conn c) := Nat.zero_lt_one

@[simp] theorem rank_root_worker : rank (.root r) < rank (.worker w) := by
  simp only [rank]
  omega

@[simp] theorem rank_conn_worker : rank (.conn c) < rank (.worker w) := by
  simp only [rank]
  omega

@[simp] theorem rank_worker_worker : rank (.worker v) < rank (.worker w) ↔ v < w := by
  simp only [rank, Fin.lt_def]
  omega

theorem above_worker (ha : Above rank (.worker 0) held) : Above rank (.worker w) held := by
  intro h hh
  have hlt := ha h hh
  simp only [rank] at hlt ⊢
  omega

theorem scheduleTask_safe (ha : Above rank (.worker w) held) (hn : post.normal held) :
    (scheduleTask w).Safe rank held post := by
  simp [scheduleTask, ha, hn]

theorem bulkSchedule_safe (ha : Above rank (.worker 0) held) (hn : post.normal held) :
    bulkSchedule.Safe rank held post := by
  simp [bulkSchedule, workersLock, workersUnlock, above_cons, above_worker ha, hn]

theorem socket_safe : socket.Safe rank [] .done := by
  simp [socket, Exits.done, above_nil]

theorem bind_safe : (bind w).Safe rank [] .done := by
  simp [bind, chooseThr, scheduleTask, Exits.done, above_nil]

theorem connect_safe : (connect r w).Safe rank [] .done := by
  simp [connect, chooseThr, scheduleTask, Exits.done, above_nil]

theorem getEvent_safe : (getEvent r).Safe rank [] .done := by
  have hw : ∀ post : Exits Mutex, post.normal [.root r] →
      bulkSchedule.Safe rank [.root r] post := by
    intro post
    exact bulkSchedule_safe (by simp [above_cons, above_nil])
  simp [getEvent, Exits.done, above_nil, hw]

theorem send_safe (canlock : Bool) (hn : post.normal (if canlock then [] else [.root r])) :
    (send canlock r c w).Safe rank (if canlock then [] else [.root r]) post := by
  cases canlock with
  | true =>
    simp only [if_true] at hn
    simp [send, scheduleTask, above_nil, above_cons, hn]
  | false =>
    simp only [Bool.false_eq_true, if_false] at hn
    simp [send, scheduleTask, above_nil, above_cons, hn]

theorem sendAll_safe (hn : post.normal []) : (sendAll r).Safe rank [] post := by
  have hs : ∀ c w, ∀ post : Exits Mutex, post.normal [.root r] →
      (send false r c w).Safe rank [.root r] post := fun c w post => send_safe false
  simp [sendAll, above_nil, hs, hn]

theorem sendc_safe (type : Int) : (sendc type r c w).Safe rank [] .done := by
  rw [sendc, Stmt.safe_call]
  split
  · exact sendAll_safe rfl
  split
  · exact sendAll_safe rfl
  split
  · exact send_safe true rfl
  · exact rfl

theorem asyncRoutine_safe : (asyncRoutine w).Safe rank [] .done := by
  simp [asyncRoutine, taskRoutine, Exits.done, above_nil]

theorem acceptHandler_safe : (acceptHandler b r w).Safe rank [] .done := by
  simp [acceptHandler, chooseThr, scheduleTask, Exits.done, above_nil]

theorem readHandler_safe : (readHandler c r).Safe rank [] .done := by
  have hw : ∀ post : Exits Mutex, post.normal [.root r] →
      bulkSchedule.Safe rank [.root r] post := by
    intro post
    exact bulkSchedule_safe (by simp [above_cons, above_nil])
  simp [readHandler, marked, Exits.done, above_nil, hw]

theorem writeHandler_safe : (writeHandler c r).Safe rank [] .done := by
  simp [writeHandler, marked, Exits.done, above_nil]

theorem Calls.safe {α : Type} {t : Thread α} {p : Path} (h : Calls t p) :
    p.Safe rank [] .done := by
  cases h with
  | socket => exact socket_safe
  | bind => exact bind_safe
  | connect => exact connect_safe
  | getEvent => exact getEvent_safe
  | send => exact send_safe true rfl
  | sendc => exact sendc_safe _
  | async => exact asyncRoutine_safe
  | task => exact rfl
  | accept => exact acceptHandler_safe
  | read => exact readHandler_safe
  | write => exact writeHandler_safe

end

theorem no_lock_deadlock {α : Type} [DecidableEq α] (s : Thread α → LockOrder.Thr Mutex)
    (h : Reachable Calls s) :
    (∀ t m, (s t).Wants m → m ∉ (s t).held) ∧ (∀ t m, (s t).Drops m → m ∈ (s t).held) ∧
      (∀ t, (s t).Finished → (s t).held = []) ∧ ∀ t, ¬ Relation.TransGen (Blocked s) t t := by
  have hs : ∀ t, (s t).Sound rank := h.sound fun _ _ => Calls.safe
  exact ⟨fun t m hw => not_reacquire hs hw, fun t m hd => hd.holds (hs t),
    fun t hf => hf.released (hs t), no_cycle hs⟩

theorem contended : ∃ s : Thread Nat → LockOrder.Thr Mutex,
    Reachable Calls s ∧ Blocked s (.user 1) (.user 0) := by
  have h0 : Reachable (Calls (α := Nat)) _ := .tail .refl (.start (t := .user 0) (.inl rfl)
    (.getEvent (r := 0)))
  have h1 := h0.tail (.silent (t := .user 0) rfl .call)
  have h2 := h1.tail (.silent (t := .user 0) rfl .seq)
  have h3 := h2.tail (.lock (t := .user 0) rfl (by
    intro u
    simp only [Function.update_apply]
    split <;> simp [LockOrder.Thr.idle]))
  have h4 := h3.tail (.start (t := .user 1) (.inl rfl) (.getEvent (r := 0)))
  have h5 := h4.tail (.silent (t := .user 1) rfl .call)
  have h6 := h5.tail (.silent (t := .user 1) rfl .seq)
  exact ⟨_, h6, .root 0, ⟨_, .inl rfl⟩, .head _⟩

theorem no_lock_deadlock_contended : ∃ s : Thread Nat → LockOrder.Thr Mutex,
    Blocked s (.user 1) (.user 0) ∧ (∀ t m, (s t).Wants m → m ∉ (s t).held) ∧
      (∀ t m, (s t).Drops m → m ∈ (s t).held) ∧ (∀ t, (s t).Finished → (s t).held = []) ∧
      ∀ t, ¬ Relation.TransGen (Blocked s) t t := by
  obtain ⟨s, hr, hb⟩ := contended
  exact ⟨s, hb, no_lock_deadlock s hr⟩

end Fsock.Locks
