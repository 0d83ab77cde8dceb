import Fsock.Core.Workers

namespace Fsock

theorem update_some {α ι : Type} [DecidableEq ι] {f : ι → Option α} {i j : ι} {a b : α}
    (h : Function.update f i (some a) j = some b) : j = i ∧ b = a ∨ j ≠ i ∧ f j = some b := by
  rcases eq_or_ne j i with rfl | hij
  · rw [Function.update_self, Option.some.injEq] at h
    exact .inl ⟨rfl, h.symm⟩
  · rw [Function.update_of_ne hij] at h
    exact .inr ⟨hij, h⟩

namespace Workers

variable {κ β τ : Type} [DecidableEq κ] [DecidableEq β] [DecidableEq τ]

inductive Issue (s : Workers κ β τ) : WorkersLabel κ β τ → Option Thr → Job κ β →
    (Workers κ β τ → Workers κ β τ) → Prop
  | bind {b : β} {w : Thr} (hb : b ∉ s.binds) : Issue s (.bind b w) (some w) (.thrBind b)
      fun s => { s with
        binds := s.binds ++ [b]
        listeners := Function.update s.listeners b ⟨some w, false, []⟩ }
  | start {c : κ} {u : Setup β} {stages : List Stage} (hu : s.setups c = some u)
      (hs : u.stages = .start :: stages) : Issue s (.advance c) (some u.thr) (.thrConn c)
      fun s => (s.setup c { u with stages := stages }).release (u.origin.map (·.1))
  | insert {t : τ} {c : κ} {thr : Option Thr} (ht : s.sends t = some c)
      (hp : (s.peers c).thr = thr) (hw : (s.peers c).writing = false) :
      Issue s (.insert t) thr (.startWrite c) fun s => { s.modify c fun p =>
        { p with writing := true } with sends := Function.update s.sends t none }
  | join {w : Thr} : Issue s (.join w) (some w) (.stop w)
      fun s => { s with joined := Function.update s.joined w true }

inductive Turn (s : Workers κ β τ) (w : Thr) : WorkersLabel κ β τ → Handler κ → Prop
  | closed {c : κ} (hl : s.inLoop w) (hr : (s.peers c).rio = true)
      (ht : (s.peers c).thr = some w) : Turn s w (.read w c .closed) (.hangup c)
  | parsed {c : κ} {n : Nat} {cnt : Int} (hl : s.inLoop w) (hr : (s.peers c).rio = true)
      (ht : (s.peers c).thr = some w) : Turn s w (.read w c (.frames n cnt)) (.parsed n cnt)
  | delivered {n : Nat} {cnt : Int} (hp : s.handlers w = .parsed n cnt) (hb : s.bulk = none) :
      Turn s w (.deliver w) .idle
  | writing {c : κ} (hl : s.inLoop w) (hr : (s.peers c).wio = true)
      (ht : (s.peers c).thr = some w) (hz : (s.peers c).zombie = false) :
      Turn s w (.write w c) (.writing c)
  | written {c : κ} (hp : s.handlers w = .writing c) : Turn s w (.written w false) .idle

inductive Assign (u : Setup β) : Stage → (Endpoint → Endpoint) → Prop
  | thr : Assign u .thr fun p => { p with thr := some u.thr }
  | fd : Assign u .fd fun p => { p with fd := u.fd }
  | idx : Assign u .idx fun p => { p with idx := u.index }

inductive Ran (s : Workers κ β τ) : Job κ β → Workers κ β τ → Prop
  | raw {j : Job κ β} {c : κ} (hj : j = .startRead c ∨ j = .stopRead c ∨ j = .startWrite c)
      (hs : (s.peers c).started = false) : Ran s j (s.crash .rawWatcher)
  | startRead {c : κ} (hs : (s.peers c).started = true) :
      Ran s (.startRead c) (s.modify c fun p => { p with rio := true })
  | stopRead {c : κ} (hs : (s.peers c).started = true) :
      Ran s (.stopRead c) (s.modify c fun p => { p with rio := false })
  | startWrite {c : κ} (hs : (s.peers c).started = true) :
      Ran s (.startWrite c) (s.modify c fun p => { p with wio := true })
  | thrBind {b : β} : Ran s (.thrBind b)
      { s with listeners := Function.update s.listeners b { s.listeners b with rio := true } }
  | thrConn {c : κ} : Ran s (.thrConn c)
      (s.modify c fun p => { p with started := true, rio := true, wio := false })
  | stop {w : Thr} : Ran s (.stop w) (s.crash .noCallback)

inductive Effect (s : Workers κ β τ) : WorkersLabel κ β τ → Workers κ β τ → Prop
  | issue {l : WorkersLabel κ β τ} {w : Thr} {j : Job κ β} {k : Workers κ β τ → Workers κ β τ}
      {pool : Pool (Job κ β) Thr} (hi : Issue s l (some w) j k) (hk : s.locked = false)
      (hp : s.pool.scheduleTaskUnsafe w j = some pool) :
      Effect s l (k { s with pool := pool.scheduleTaskSignal w })
  | refuse {l : WorkersLabel κ β τ} {w : Thr} {j : Job κ β} {k : Workers κ β τ → Workers κ β τ}
      (hi : Issue s l (some w) j k) (hp : s.pool.scheduleTaskUnsafe w j = none) :
      Effect s l (s.crash .assertion)
  | stray {l : WorkersLabel κ β τ} {j : Job κ β} {k : Workers κ β τ → Workers κ β τ}
      (hi : Issue s l none j k) : Effect s l (s.crash .nullThread)
  | connect {c : κ} {w : Thr} {fd : Int} (hu : s.setups c = none) :
      Effect s (.connect c w fd) (s.setup c ⟨none, w, fd, -1, connectStages⟩)
  | accept {w : Thr} {b : β} {c : κ} {v : Thr} {fd : Int} (hu : s.setups c = none)
      (hl : s.inLoop w) (hr : (s.listeners b).rio = true) : Effect s (.accept w b c v fd)
        ((s.setup c ⟨some (w, b), v, fd, -1, acceptStages⟩).handle w (.accepting c))
  | attach {c : κ} {u : Setup β} {stages : List Stage} {w : Thr} {b : β}
      (hu : s.setups c = some u) (hs : u.stages = .attach :: stages)
      (ho : u.origin = some (w, b)) : Effect s (.advance c)
        ({ s with
            listeners := Function.update s.listeners b ((s.listeners b).attach c) }.setup c
          { u with stages := stages })
  | publish {c : κ} {u : Setup β} {stages : List Stage} (hu : s.setups c = some u)
      (hs : u.stages = .publish :: stages) (hb : s.bulk = none) : Effect s (.advance c)
        ({ s with conns := s.conns ++ [c] }.setup c
          { u with stages := stages, index := s.conns.length })
  | assign {c : κ} {u : Setup β} {stage : Stage} {stages : List Stage} {f : Endpoint → Endpoint}
      (ha : Assign u stage f) (hu : s.setups c = some u) (hs : u.stages = stage :: stages) :
      Effect s (.advance c) ((s.modify c f).setup c { u with stages := stages })
  | check {t : τ} {c : κ} (hc : c ∈ s.conns) (hz : (s.peers c).zombie = false) :
      Effect s (.check t c) { s with sends := Function.update s.sends t (some c) }
  | sent {l : WorkersLabel κ β τ} {t : τ} :
      Effect s l { s with sends := Function.update s.sends t none }
  | idle {l : WorkersLabel κ β τ} : Effect s l s
  | turn {l : WorkersLabel κ β τ} {w : Thr} {h : Handler κ} {q : Int} {e : Nat}
      (ht : Turn s w l h) : Effect s l { s.handle w h with rcvqsz := q, events := e }
  | pause {w : Thr} {n : Nat} {cnt q : Int} {e : Nat} (hp : s.handlers w = .parsed n cnt)
      (hb : s.bulk = none) : Effect s (.deliver w) { s.handle w .pausing with
        rcvqsz := q
        events := e
        reading := stopOp
        bulk := some ⟨some w, false, .locking⟩ }
  | take {q : Int} {e : Nat} (hb : s.bulk = none) :
      Effect s .get { s with events := e, rcvqsz := q }
  | resume {q : Int} {e : Nat} (hb : s.bulk = none) : Effect s .get { s with
        events := e
        rcvqsz := q
        reading := 0
        bulk := some ⟨none, true, .locking⟩ }
  | lock {b : Bulk κ} (hb : s.bulk = some b) (hp : b.phase = .locking) :
      Effect s .bulk (s.phase b (.pushing s.conns))
  | unlock {b : Bulk κ} (hb : s.bulk = some b) (hp : b.phase = .pushing []) :
      Effect s .bulk (s.phase b (.signalling [0, 1, 2, 3]))
  | skip {b : Bulk κ} {c : κ} {todo : List κ} (hb : s.bulk = some b)
      (hp : b.phase = .pushing (c :: todo)) (hq : s.pool.isinqueue (.read b.start c) = true) :
      Effect s .bulk (s.phase b (.removing c todo))
  | push {b : Bulk κ} {c : κ} {todo : List κ} {w : Thr} {pool : Pool (Job κ β) Thr}
      (hb : s.bulk = some b) (hp : b.phase = .pushing (c :: todo))
      (ht : (s.peers c).thr = some w)
      (hs : s.pool.scheduleTaskUnsafe w (.read b.start c) = some pool) :
      Effect s .bulk ({ s with pool := pool }.phase b (.removing c todo))
  | null {b : Bulk κ} {c : κ} {todo : List κ} (hb : s.bulk = some b)
      (hp : b.phase = .pushing (c :: todo) ∨ b.phase = .removing c todo)
      (hc : (s.peers c).thr = none) : Effect s .bulk (s.crash .nullThread)
  | keep {b : Bulk κ} {c : κ} {todo : List κ} (hb : s.bulk = some b)
      (hp : b.phase = .removing c todo)
      (hq : s.pool.isinqueue (.read (!b.start) c) = false) :
      Effect s .bulk (s.phase b (.pushing todo))
  | remove {b : Bulk κ} {c : κ} {todo : List κ} {w : Thr} {pool : Pool (Job κ β) Thr}
      (hb : s.bulk = some b) (hp : b.phase = .removing c todo)
      (ht : (s.peers c).thr = some w)
      (hs : s.pool.remove w (.read (!b.start) c) = some pool) :
      Effect s .bulk ({ s with pool := pool }.phase b (.pushing todo))
  | signal {b : Bulk κ} {w : Thr} {todo : List Thr} (hb : s.bulk = some b)
      (hp : b.phase = .signalling (w :: todo)) : Effect s .bulk
        ({ s with pool := s.pool.scheduleTaskSignal w }.phase b (.signalling todo))
  | free {b : Bulk κ} (hb : s.bulk = some b) (hp : b.phase = .signalling []) :
      Effect s .bulk ({ s with bulk := none }.release b.holder)
  | hangup {w : Thr} {c : κ} (hp : s.handlers w = .hangup c) : Effect s (.hangup w)
      ((s.modify c fun p => { p with rio := false, wio := false }).handle w (.mark c))
  | mark {w : Thr} {c : κ} (hp : s.handlers w = .mark c) : Effect s (.mark w)
      ((s.modify c fun p => { p with zombie := true }).handle w .idle)
  | written {w : Thr} {c : κ} (hp : s.handlers w = .writing c) : Effect s (.written w true)
      ((s.modify c fun p => { p with wio := false }).handle w (.clear c))
  | clear {w : Thr} {c : κ} (hp : s.handlers w = .clear c) : Effect s (.clear w)
      ((s.modify c fun p => { p with writing := false }).handle w .idle)
  | copyJobs {w : Thr} {pool : Pool (Job κ β) Thr} (hh : s.handlers w = .idle)
      (hk : s.locked = false) (hp : s.pool.copyJobs w = some pool) :
      Effect s (.copyJobs w) { s with pool := pool }
  | pop {w : Thr} {pool : Pool (Job κ β) Thr} (hp : s.pool.pop w (.stop w) = some pool) :
      Effect s (.pop w) { s with pool := pool }
  | run {w : Thr} {task : Job κ β} {pool : Pool (Job κ β) Thr} {s' : Workers κ β τ}
      (hp : s.pool.done w = some (task, pool)) (hr : Ran { s with pool := pool } task s') :
      Effect s (.run w) s'

omit [DecidableEq τ] in
theorem ran_task (s : Workers κ β τ) (j : Job κ β) : Ran s j (s.taskRoutine j) := by
  cases j with
  | startRead c =>
    simp only [taskRoutine]
    split
    case isTrue hs => exact .startRead hs
    case isFalse hs => exact .raw (.inl rfl) (by simpa using hs)
  | stopRead c =>
    simp only [taskRoutine]
    split
    case isTrue hs => exact .stopRead hs
    case isFalse hs => exact .raw (.inr (.inl rfl)) (by simpa using hs)
  | startWrite c =>
    simp only [taskRoutine]
    split
    case isTrue hs => exact .startWrite hs
    case isFalse hs => exact .raw (.inr (.inr rfl)) (by simpa using hs)
  | thrBind b => exact .thrBind
  | thrConn c => exact .thrConn
  | stop w => exact .stop

variable {s s' : Workers κ β τ} {l : WorkersLabel κ β τ}

theorem effect_schedule {thr : Option Thr} {j : Job κ β} {k : Workers κ β τ → Workers κ β τ}
    (hi : Issue s l thr j k) (hs : s.schedule thr j k = some s') : Effect s l s' := by
  simp only [schedule] at hs
  split at hs
  case h_1 =>
    cases hs
    exact .stray hi
  case h_2 w =>
    split at hs
    case isTrue => cases hs
    case isFalse hk =>
      simp only [Pool.scheduleTask] at hs
      cases hp : s.pool.scheduleTaskUnsafe w j with
      | none =>
        rw [hp] at hs
        cases hs
        exact .refuse hi hp
      | some pool =>
        rw [hp] at hs
        cases hs
        exact .issue hi (by simpa using hk) hp

theorem effect_advance {c : κ} (hs : s.advance c = some s') : Effect s (.advance c) s' := by
  simp only [advance] at hs
  split at hs
  case h_2 => cases hs
  case h_1 u hu =>
    split at hs
    case h_2 => cases hs
    case h_1 stage stages hst =>
      cases stage with
      | attach =>
        simp only [Workers.stage] at hs
        split at hs
        case h_2 => cases hs
        case h_1 w b ho =>
          cases hs
          exact .attach hu hst ho
      | publish =>
        simp only [Workers.stage] at hs
        split at hs
        case isFalse => cases hs
        case isTrue hb =>
          cases hs
          exact .publish hu hst hb
      | thr =>
        cases hs
        exact .assign .thr hu hst
      | fd =>
        cases hs
        exact .assign .fd hu hst
      | idx =>
        cases hs
        exact .assign .idx hu hst
      | start => exact effect_schedule (.start hu hst) hs

theorem effect_bulk (hs : s.bulkSchedule = some s') : Effect s .bulk s' := by
  simp only [bulkSchedule] at hs
  split at hs
  case h_1 => cases hs
  case h_2 b hb =>
    split at hs
    case h_1 hp =>
      cases hs
      exact .lock hb hp
    case h_2 hp =>
      cases hs
      exact .unlock hb hp
    case h_3 c todo hp =>
      split at hs
      case isTrue hq =>
        cases hs
        exact .skip hb hp hq
      case isFalse hq =>
        split at hs
        case h_1 ht =>
          cases hs
          exact .null hb (.inl hp) ht
        case h_2 w ht =>
          split at hs
          case h_1 hn =>
            have hsome := Pool.schedule_isSome (by simpa using hq) w
            rw [hn] at hsome
            cases hsome
          case h_2 pool hpool =>
            cases hs
            exact .push hb hp ht hpool
    case h_4 c todo hp =>
      split at hs
      case isFalse hq =>
        cases hs
        exact .keep hb hp (by simpa using hq)
      case isTrue hq =>
        split at hs
        case h_1 ht =>
          cases hs
          exact .null hb (.inr hp) ht
        case h_2 w ht =>
          obtain ⟨pool, hpool, rfl⟩ := Option.map_eq_some_iff.mp hs
          exact .remove hb hp ht hpool
    case h_5 w todo hp =>
      cases hs
      exact .signal hb hp
    case h_6 hp =>
      cases hs
      exact .free hb hp

theorem effect_deliver {w : Thr} (hs : s.deliver w = some s') : Effect s (.deliver w) s' := by
  simp only [deliver] at hs
  split at hs
  case h_2 => cases hs
  case h_1 n cnt hp hb =>
    split at hs <;> cases hs
    · exact .pause hp hb
    · exact .turn (.delivered hp hb)

theorem effect_get (hs : s.get = some s') : Effect s .get s' := by
  simp only [get] at hs
  split at hs
  case h_2 => cases hs
  case h_1 hb =>
    split at hs
    case isTrue => cases hs
    case isFalse =>
      split at hs <;> cases hs
      · exact .resume hb
      · exact .take hb

theorem effect_read {w : Thr} {c : κ} {res : ReadResult} (hs : s.read w c res = some s') :
    Effect s (.read w c res) s' := by
  simp only [read] at hs
  split at hs
  case isFalse => cases hs
  case isTrue hc =>
    obtain ⟨hl, hr, ht⟩ := hc
    cases res with
    | wouldBlock =>
      cases hs
      exact .idle
    | closed =>
      cases hs
      exact .turn (.closed hl hr ht)
    | frames n cnt =>
      cases hs
      exact .turn (.parsed hl hr ht)

theorem effect_write {w : Thr} {c : κ} (hs : s.write w c = some s') :
    Effect s (.write w c) s' := by
  simp only [write] at hs
  split at hs
  case isFalse => cases hs
  case isTrue hc =>
    obtain ⟨hl, hr, ht⟩ := hc
    split at hs
    case isTrue =>
      cases hs
      exact .idle
    case isFalse hz =>
      cases hs
      exact .turn (.writing hl hr ht (by simpa using hz))

theorem effect_of_step (hs : s.step l = some s') : s.fault = none ∧ Effect s l s' := by
  simp only [step] at hs
  split at hs
  case isTrue => cases hs
  case isFalse hf =>
    refine ⟨by simpa using hf, ?_⟩
    cases l with
    | bind b w =>
      simp only [bind] at hs
      split at hs
      case isTrue => cases hs
      case isFalse hb => exact effect_schedule (.bind hb) hs
    | connect c w fd =>
      simp only [connect] at hs
      split at hs <;> cases hs
      exact .connect ‹_›
    | accept w b c v fd =>
      simp only [accept] at hs
      split at hs
      case h_2 => cases hs
      case h_1 hu =>
        split at hs <;> cases hs
        rename_i hl
        exact .accept hu hl.1 hl.2.1
    | advance c => exact effect_advance hs
    | check t c =>
      simp only [check] at hs
      split at hs
      case h_2 => cases hs
      case h_1 =>
        split at hs
        case isFalse => cases hs
        case isTrue hc =>
          split at hs
          case isTrue =>
            cases hs
            exact .idle
          case isFalse hz =>
            cases hs
            exact .check hc (by simpa using hz)
    | insert t =>
      simp only [insert] at hs
      split at hs
      case h_2 => cases hs
      case h_1 c ht =>
        split at hs
        case isTrue =>
          cases hs
          exact .sent
        case isFalse hw => exact effect_schedule (.insert ht rfl (by simpa using hw)) hs
    | fail t =>
      simp only [fail] at hs
      split at hs <;> cases hs
      exact .sent
    | read w c res => exact effect_read hs
    | deliver w => exact effect_deliver hs
    | get => exact effect_get hs
    | bulk => exact effect_bulk hs
    | hangup w =>
      simp only [hangup] at hs
      split at hs <;> cases hs
      exact .hangup ‹_›
    | mark w =>
      simp only [mark] at hs
      split at hs <;> cases hs
      exact .mark ‹_›
    | write w c => exact effect_write hs
    | written w mustStop =>
      simp only [written] at hs
      split at hs
      case h_2 => cases hs
      case h_1 c hp =>
        cases mustStop with
        | true =>
          cases hs
          exact .written hp
        | false =>
          cases hs
          exact .turn (.written hp)
    | clear w =>
      simp only [clear] at hs
      split at hs <;> cases hs
      exact .clear ‹_›
    | join w => exact effect_schedule .join hs
    | copyJobs w =>
      simp only [copyJobs] at hs
      split at hs
      case isFalse => cases hs
      case isTrue hc =>
        obtain ⟨pool, hp, rfl⟩ := Option.map_eq_some_iff.mp hs
        exact .copyJobs hc.1 hc.2 hp
    | pop w =>
      obtain ⟨pool, hp, rfl⟩ := Option.map_eq_some_iff.mp hs
      exact .pop hp
    | run w =>
      obtain ⟨⟨task, pool⟩, hp, rfl⟩ := Option.map_eq_some_iff.mp hs
      exact .run hp (ran_task _ task)

end Workers

end Fsock
