import Fsock.Utils.QueueFamily

namespace Fsock

inductive Place (ω : Type) where
  | jobs (w : ω)
  | batch (w : ω)
  deriving DecidableEq

inductive Routine (ι : Type) where
  | waiting
  | popping
  | task (item : ι)
  | flushing
  | exited
  deriving DecidableEq

structure Pool (ι ω : Type) where
  next : ι → Link ι
  queue : Place ω → Queue ι
  routine : ω → Routine ι
  sent : ω → Bool
  kept : ω → List ι
  ran : ω → List ι

namespace Routine

variable {ι : Type}

def item : Routine ι → List ι
  | .task item => [item]
  | _ => []

def stopping : Routine ι → Bool
  | .flushing => true
  | .exited => true
  | _ => false

end Routine

def dropLast {ι : Type} [DecidableEq ι] (i : ι) (is : List ι) : List ι :=
  (is.reverse.erase i).reverse

section
variable {ι : Type} [DecidableEq ι] {i : ι} {xs ys : List ι}

theorem dropLast_append (hi : i ∈ ys) : dropLast i (xs ++ ys) = xs ++ dropLast i ys := by
  rw [dropLast, List.reverse_append, List.erase_append_left _ (by simpa using hi),
    List.reverse_append, List.reverse_reverse, dropLast]

theorem dropLast_eq_erase (hn : ys.Nodup) : dropLast i ys = ys.erase i := by
  rw [dropLast, (List.nodup_reverse.mpr hn).erase_eq_filter, hn.erase_eq_filter,
    List.filter_reverse, List.reverse_reverse]

end

namespace Pool

variable {ι ω : Type}

def init : Pool ι ω where
  next := fun _ => .notInQueue
  queue := fun _ => .init
  routine := fun _ => .waiting
  sent := fun _ => false
  kept := fun _ => []
  ran := fun _ => []

variable [DecidableEq ι] [DecidableEq ω]

def isinqueue (self : Pool ι ω) (i : ι) : Bool := self.next i ≠ .notInQueue

def scheduleTaskUnsafe (self : Pool ι ω) (w : ω) (i : ι) : Option (Pool ι ω) :=
  ((self.queue (.jobs w)).push self.next i).map fun (next, jobs) => { self with
    next := next
    queue := Function.update self.queue (.jobs w) jobs
    kept := Function.update self.kept w (self.kept w ++ [i]) }

def scheduleTaskSignal (self : Pool ι ω) (w : ω) : Pool ι ω :=
  { self with sent := Function.update self.sent w true }

def scheduleTask (self : Pool ι ω) (w : ω) (i : ι) : Option (Pool ι ω) :=
  (self.scheduleTaskUnsafe w i).map (·.scheduleTaskSignal w)

def remove (self : Pool ι ω) (w : ω) (i : ι) : Option (Pool ι ω) :=
  ((self.queue (.jobs w)).remove self.next i ((self.kept w).length + 1)).map fun (next, jobs) =>
    { self with
      next := next
      queue := Function.update self.queue (.jobs w) jobs
      kept := if self.next i ≠ next i then Function.update self.kept w (dropLast i (self.kept w))
        else self.kept }

def copyJobs (self : Pool ι ω) (w : ω) : Option (Pool ι ω) :=
  match self.routine w with
  | .waiting => some { self with
      queue := Function.update (Function.update self.queue (.batch w) (self.queue (.jobs w)))
        (.jobs w) .init
      routine := Function.update self.routine w .popping
      sent := Function.update self.sent w false }
  | _ => none

def pop (self : Pool ι ω) (w : ω) (stop : ι) : Option (Pool ι ω) :=
  match (self.queue (.batch w)).pop self.next with
  | (next, jobs, some item) =>
    let pool := { self with
      next := next
      queue := Function.update self.queue (.batch w) jobs }
    match self.routine w with
    | .popping =>
      let r := if item = stop then .flushing else .task item
      some { pool with routine := Function.update self.routine w r }
    | .flushing => some pool
    | _ => none
  | (_, _, none) =>
    match self.routine w with
    | .popping => some { self with routine := Function.update self.routine w .waiting }
    | .flushing => some { self with routine := Function.update self.routine w .exited }
    | _ => none

def done (self : Pool ι ω) (w : ω) : Option (ι × Pool ι ω) :=
  match self.routine w with
  | .task item => some (item, { self with
      routine := Function.update self.routine w .popping
      ran := Function.update self.ran w (self.ran w ++ [item]) })
  | _ => none

end Pool

namespace Pool

variable {ι ω : Type}

structure Filed (p : Pool ι ω) (loc : Place ω → List ι) : Prop where
  family : Queue.Family p.next p.queue loc
  idle : ∀ w, p.routine w = .waiting → loc (.batch w) = []
  owed : ∀ w, ∃ past, p.kept w = past ++ (loc (.batch w) ++ loc (.jobs w)) ∧
    ((p.routine w).stopping = false → past = p.ran w ++ (p.routine w).item)

inductive Popped (p : Pool ι ω) (loc : Place ω → List ι) (w : ω) (stop : ι) :
    Routine ι → List ι → Prop
  | drained (hr : p.routine w = .popping) (hl : loc (.batch w) = []) : Popped p loc w stop .waiting []
  | task {item : ι} {rest : List ι} (hr : p.routine w = .popping)
      (hl : loc (.batch w) = item :: rest) (hi : item ≠ stop) :
      Popped p loc w stop (.task item) rest
  | stop {rest : List ι} (hr : p.routine w = .popping) (hl : loc (.batch w) = stop :: rest) :
      Popped p loc w stop .flushing rest
  | flush {item : ι} {rest : List ι} (hr : p.routine w = .flushing)
      (hl : loc (.batch w) = item :: rest) : Popped p loc w stop .flushing rest
  | exit (hr : p.routine w = .flushing) (hl : loc (.batch w) = []) : Popped p loc w stop .exited []

theorem filed_init : (init : Pool ι ω).Filed fun _ => [] where
  family := Queue.family_init
  idle _ _ := rfl
  owed _ := ⟨[], rfl, fun _ => rfl⟩

variable {p p' : Pool ι ω} {loc : Place ω → List ι} {w : ω} {i stop : ι}

theorem Popped.awake {r : Routine ι} {rest : List ι} (h : Popped p loc w stop r rest) :
    p.routine w ≠ .waiting := by
  cases h with
  | drained hr | task hr | stop hr | flush hr | exit hr =>
    rw [hr]
    nofun

theorem Filed.signal [DecidableEq ω] (h : p.Filed loc) (w : ω) :
    (p.scheduleTaskSignal w).Filed loc :=
  ⟨h.family, h.idle, h.owed⟩

theorem Filed.room (h : p.Filed loc) (w : ω) : (loc (.jobs w)).length ≤ (p.kept w).length := by
  obtain ⟨past, hk, -⟩ := h.owed w
  simp only [hk, List.length_append]
  omega

variable [DecidableEq ι]

theorem Filed.isinqueue_iff (h : p.Filed loc) : p.isinqueue i = true ↔ ∃ k, i ∈ loc k := by
  rw [← h.family.queued_iff, isinqueue, decide_eq_true_iff]

variable [DecidableEq ω]

theorem schedule_isSome (hi : p.isinqueue i = false) (w : ω) :
    (p.scheduleTaskUnsafe w i).isSome = true := by
  have hn : p.next i = .notInQueue := by simpa [isinqueue] using hi
  rw [scheduleTaskUnsafe, Queue.push, if_pos hn]
  rfl

theorem Filed.schedule (h : p.Filed loc) (hs : p.scheduleTaskUnsafe w i = some p') :
    p.isinqueue i = false ∧
      p'.Filed (Function.update loc (.jobs w) (loc (.jobs w) ++ [i])) ∧
      p'.routine = p.routine ∧ p'.sent = p.sent ∧ p'.ran = p.ran := by
  obtain ⟨⟨next, jobs⟩, hp, rfl⟩ := Option.map_eq_some_iff.mp hs
  have hn : p.next i = .notInQueue := by
    by_contra hn
    rw [Queue.push, if_neg hn] at hp
    cases hp
  obtain ⟨next', jobs', hp', hf⟩ := h.family.push hn (.jobs w)
  rw [hp, Option.some.injEq, Prod.mk.injEq] at hp'
  obtain ⟨rfl, rfl⟩ := hp'
  refine ⟨by simpa [isinqueue] using hn, ⟨hf, fun v hv => ?_, fun v => ?_⟩, rfl, rfl, rfl⟩
  · simpa using h.idle v hv
  · obtain ⟨past, hk, hr⟩ := h.owed v
    refine ⟨past, ?_, hr⟩
    rcases eq_or_ne v w with rfl | hvw
    · simp [hk]
    · simp [hvw, hk]

theorem Filed.remove_isSome (h : p.Filed loc) (w : ω) (i : ι) : (p.remove w i).isSome = true := by
  obtain ⟨next, jobs, hr, -, -⟩ := h.family.remove i (.jobs w) (Nat.lt_succ_of_le (h.room w))
  rw [Pool.remove, hr]
  rfl

theorem Filed.remove (h : p.Filed loc) (hs : p.remove w i = some p') :
    p'.Filed (Function.update loc (.jobs w) ((loc (.jobs w)).erase i)) ∧
      p'.routine = p.routine ∧ p'.sent = p.sent ∧ p'.ran = p.ran := by
  obtain ⟨next, jobs, hr, hf, hi⟩ := h.family.remove i (.jobs w) (Nat.lt_succ_of_le (h.room w))
  obtain ⟨⟨next', jobs'⟩, hr', rfl⟩ := Option.map_eq_some_iff.mp hs
  rw [hr, Option.some.injEq, Prod.mk.injEq] at hr'
  obtain ⟨rfl, rfl⟩ := hr'
  refine ⟨⟨hf, fun v hv => by simpa using h.idle v hv, fun v => ?_⟩, rfl, rfl, rfl⟩
  obtain ⟨past, hk, hran⟩ := h.owed v
  refine ⟨past, ?_, hran⟩
  dsimp only
  rw [if_congr hi rfl rfl]
  split
  case isTrue hm =>
    rcases eq_or_ne v w with rfl | hvw
    · have hb : Place.batch v ≠ .jobs v := nofun
      rw [Function.update_self, Function.update_self, Function.update_of_ne hb, hk,
        dropLast_append (List.mem_append_right _ hm), dropLast_append hm,
        dropLast_eq_erase (h.family.lists (.jobs v)).nodup]
    · simp [hvw, hk]
  case isFalse hm =>
    rw [List.erase_of_not_mem hm, Function.update_eq_self]
    exact hk

omit [DecidableEq ι] in
theorem Filed.copyJobs (h : p.Filed loc) (hs : p.copyJobs w = some p') :
    p.routine w = .waiting ∧ p'.Filed (Function.update
      (Function.update loc (.batch w) (loc (.jobs w))) (.jobs w) []) ∧
      p'.routine = Function.update p.routine w .popping ∧
      p'.sent = Function.update p.sent w false ∧ p'.ran = p.ran := by
  simp only [Pool.copyJobs] at hs
  split at hs
  case h_2 => cases hs
  case h_1 hr =>
    cases hs
    have hidle := h.idle w hr
    refine ⟨hr, ⟨h.family.move nofun hidle, fun v hv => ?_, fun v => ?_⟩, rfl, rfl, rfl⟩
    · rcases eq_or_ne v w with rfl | hvw
      · simp at hv
      · simpa [hvw] using h.idle v (by simpa [hvw] using hv)
    · obtain ⟨past, hk, hran⟩ := h.owed v
      rcases eq_or_ne v w with rfl | hvw
      · rw [hr] at hran
        exact ⟨past, by simp [hk, hidle], fun _ => by simpa [Routine.item] using hran rfl⟩
      · exact ⟨past, by simp [hvw, hk], by simpa [hvw] using hran⟩

omit [DecidableEq ι] in
theorem Filed.advance (h : p.Filed loc) {r : Routine ι} {rest : List ι} (taken : List ι)
    (hl : loc (.batch w) = taken ++ rest) (hw : r = .waiting → rest = [])
    (hr : r.stopping = false →
      (p.routine w).stopping = false ∧ r.item = (p.routine w).item ++ taken)
    (hf : Queue.Family p'.next p'.queue (Function.update loc (.batch w) rest))
    (hroutine : p'.routine = Function.update p.routine w r) (hkept : p'.kept = p.kept)
    (hran : p'.ran = p.ran) : p'.Filed (Function.update loc (.batch w) rest) := by
  refine ⟨hf, fun v hv => ?_, fun v => ?_⟩
  · rw [hroutine] at hv
    rcases eq_or_ne v w with rfl | hvw
    · simpa using hw (by simpa using hv)
    · simpa [hvw] using h.idle v (by simpa [hvw] using hv)
  · obtain ⟨past, hk, hpast⟩ := h.owed v
    rw [hkept, hran, hroutine]
    rcases eq_or_ne v w with rfl | hvw
    · refine ⟨past ++ taken, by simp [hk, hl], fun hs => ?_⟩
      rw [Function.update_self] at hs ⊢
      obtain ⟨hgo, hitem⟩ := hr hs
      rw [hpast hgo, hitem, List.append_assoc]
    · exact ⟨past, by simp [hvw, hk], by simpa [hvw] using hpast⟩

theorem Filed.pop (h : p.Filed loc) (hs : p.pop w stop = some p') :
    ∃ r rest, Popped p loc w stop r rest ∧ p'.Filed (Function.update loc (.batch w) rest) ∧
      p'.routine = Function.update p.routine w r ∧ p'.sent = p.sent ∧ p'.ran = p.ran := by
  cases hl : loc (.batch w) with
  | nil =>
    have hq := (h.family.lists (.batch w)).forward
    rw [hl] at hq
    have hp : (p.queue (.batch w)).pop p.next = (p.next, p.queue (.batch w), none) := by
      rw [Queue.pop, show (p.queue (.batch w)).head = .null from hq]
    have hf : Queue.Family p.next p.queue (Function.update loc (.batch w) []) := by
      rw [← hl, Function.update_eq_self]
      exact h.family
    simp only [Pool.pop, hp] at hs
    split at hs
    case h_1 hr =>
      cases hs
      exact ⟨_, _, .drained hr hl, h.advance (r := .waiting) [] hl (fun _ => rfl)
        (fun _ => by rw [hr]; exact ⟨rfl, rfl⟩) hf rfl rfl rfl, rfl, rfl, rfl⟩
    case h_2 hr =>
      cases hs
      exact ⟨_, _, .exit hr hl, h.advance (r := .exited) [] hl (by simp) (by rintro ⟨⟩) hf rfl rfl
        rfl, rfl, rfl, rfl⟩
    case h_3 => cases hs
  | cons item rest =>
    obtain ⟨batch, hp, hf⟩ := h.family.pop hl
    simp only [Pool.pop, hp] at hs
    split at hs
    case h_1 hr =>
      rcases eq_or_ne item stop with rfl | hi
      · rw [if_pos rfl] at hs
        cases hs
        exact ⟨_, _, .stop hr hl, h.advance (r := .flushing) [item] hl (by simp) (by rintro ⟨⟩) hf
          rfl rfl rfl, rfl, rfl, rfl⟩
      · rw [if_neg hi] at hs
        cases hs
        exact ⟨_, _, .task hr hl hi, h.advance (r := .task item) [item] hl (by simp)
          (fun _ => by rw [hr]; exact ⟨rfl, rfl⟩) hf rfl rfl rfl, rfl, rfl, rfl⟩
    case h_2 hr =>
      cases hs
      have hsame : p.routine = Function.update p.routine w .flushing := by
        rw [← hr, Function.update_eq_self]
      exact ⟨.flushing, _, .flush hr hl, h.advance (r := .flushing) [item] hl (by simp)
        (by rintro ⟨⟩) hf hsame rfl rfl, hsame, rfl, rfl⟩
    case h_3 => cases hs

omit [DecidableEq ι] in
theorem Filed.done (h : p.Filed loc) (hs : p.done w = some (i, p')) :
    p.routine w = .task i ∧ p'.Filed loc ∧
      p'.routine = Function.update p.routine w .popping ∧ p'.sent = p.sent ∧
      p'.ran = Function.update p.ran w (p.ran w ++ [i]) := by
  simp only [Pool.done] at hs
  split at hs
  case h_2 => cases hs
  case h_1 item hr =>
    simp only [Option.some.injEq, Prod.mk.injEq] at hs
    obtain ⟨rfl, rfl⟩ := hs
    refine ⟨hr, ⟨h.family, fun v hv => ?_, fun v => ?_⟩, rfl, rfl, rfl⟩
    · rcases eq_or_ne v w with rfl | hvw
      · simp at hv
      · exact h.idle v (by simpa [hvw] using hv)
    · obtain ⟨past, hk, hran⟩ := h.owed v
      refine ⟨past, hk, ?_⟩
      rcases eq_or_ne v w with rfl | hvw
      · rw [hr] at hran
        simpa [Routine.item, Routine.stopping] using hran rfl
      · simpa [hvw] using hran

end Pool

end Fsock
