import Fsock.Core.Teardown
import Fsock.Core.JobQueue

namespace Fsock

open Transition

namespace Workers

variable {κ β τ : Type}

structure GoneConn [DecidableEq κ] [DecidableEq β] (s : Workers κ β τ) (c : κ) : Prop where
  jobs : ∀ j : Job κ β, j.peer = some c → ¬ s.pool.active j
  rio : (s.peers c).rio = false
  wio : (s.peers c).wio = false
  handlers : ∀ w, (s.handlers w).conn ≠ some c

structure GoneBind [DecidableEq κ] [DecidableEq β] (s : Workers κ β τ) (b : β) : Prop where
  jobs : ¬ s.pool.active (.thrBind b)
  rio : (s.listeners b).rio = false
  handlers : ∀ w c u v, s.handlers w = .accepting c → s.setups c = some u → u.origin ≠ some (v, b)

def Gone [DecidableEq κ] [DecidableEq β] (s : Workers κ β τ) : Member κ β → Prop
  | .conn c => s.GoneConn c
  | .bind b => s.GoneBind b

def Works (s : Workers κ β τ) : WorkersLabel κ β τ → Prop
  | .bind _ _ => False
  | .connect _ _ _ => False
  | .check _ _ => False
  | .insert _ => False
  | .fail _ => False
  | .get => False
  | .advance c => ∃ u, s.setups c = some u ∧ u.origin ≠ none
  | .bulk => ∃ b, s.bulk = some b ∧ b.holder ≠ none
  | .join w => s.joined w = false
  | _ => True

variable [DecidableEq κ] [DecidableEq β] [DecidableEq τ]

structure Vacated (s : Workers κ β τ) : Prop where
  regular : s.Regular
  listeners : ∀ b, (s.listeners b).rio = false
  watchers : ∀ c, (s.peers c).rio = false ∧ (s.peers c).wio = false
  handlers : ∀ w, s.handlers w = .idle
  origins : ∀ c u, s.setups c = some u → u.origin = none
  bulk : ∀ b, s.bulk = some b → b.holder = none
  jobs : ∀ loc, s.Crewed loc → ∀ j w, s.pool.holds loc j w → j = .stop w
  resting : ∀ w j, s.pool.routine w ≠ .task j

variable {s s' : Workers κ β τ} {l : WorkersLabel κ β τ}

structure Still (s s' : Workers κ β τ) : Prop where
  peers : s'.peers = s.peers
  listeners : s'.listeners = s.listeners
  handlers : s'.handlers = s.handlers
  setups : s'.setups = s.setups
  bulk : s'.bulk = s.bulk
  fault : s'.fault = s.fault

omit [DecidableEq τ] in
theorem Vacated.unjobbed (h : s.Vacated) {j : Job κ β} (hj : ∀ w, j ≠ .stop w) : ¬ s.pool.active j := by
  obtain ⟨loc, hc⟩ := h.regular.crewed
  intro ha
  obtain ⟨w, hw⟩ := hc.filed.active_iff.mp ha
  exact hj w (h.jobs loc hc j w hw)

theorem Vacated.still (h : s.Vacated) (hw : s.Works l) (he : Effect s l s') : Still s s' := by
  have hunset : ∀ {c u}, s.setups c = some u → ¬ ∃ v, s.setups c = some v ∧ v.origin ≠ none := by
    rintro c u hu ⟨v, hv, ho⟩
    exact ho (h.origins c v hv)
  have hfree : ¬ ∃ b, s.bulk = some b ∧ b.holder ≠ none := by
    rintro ⟨b, hb, ho⟩
    exact ho (h.bulk b hb)
  have hidle : ∀ {w hd}, s.handlers w = hd → hd ≠ .idle → False := fun hh hn =>
    hn (hh.symm.trans (h.handlers _))
  cases he with
  | issue hi hk hp =>
    cases hi with
    | bind => exact hw.elim
    | start hu => exact (hunset hu hw).elim
    | insert => exact hw.elim
    | join => exact ⟨rfl, rfl, rfl, rfl, rfl, rfl⟩
  | @refuse l w j k hi hp =>
    have hsound := h.regular.sound
    have hl : s.StopsOnce l := by
      rintro v rfl
      rw [← Bool.not_eq_true]
      exact fun hq => Bool.false_ne_true (hw.symm.trans (hsound.owns _ (.inl hq)))
    have hsome := Pool.schedule_isSome (hi.unqueued hsound hl) w
    rw [hp] at hsome
    cases hsome
  | stray hi =>
    cases hi with
    | insert => exact hw.elim
  | connect => exact hw.elim
  | accept _ _ hr => simp [h.listeners] at hr
  | attach hu => exact (hunset hu hw).elim
  | publish hu => exact (hunset hu hw).elim
  | assign _ hu => exact (hunset hu hw).elim
  | check => exact hw.elim
  | sent => exact ⟨rfl, rfl, rfl, rfl, rfl, rfl⟩
  | idle => exact ⟨rfl, rfl, rfl, rfl, rfl, rfl⟩
  | turn ht =>
    cases ht with
    | closed _ hr => simp [h.watchers] at hr
    | parsed _ hr => simp [h.watchers] at hr
    | writing _ hr => simp [h.watchers] at hr
    | delivered hp => exact (hidle hp nofun).elim
    | written hp => exact (hidle hp nofun).elim
  | pause hp => exact (hidle hp nofun).elim
  | take => exact hw.elim
  | resume => exact hw.elim
  | lock | unlock | skip | push | null | keep | remove | signal | free => exact (hfree hw).elim
  | hangup hp => exact (hidle hp nofun).elim
  | mark hp => exact (hidle hp nofun).elim
  | written hp => exact (hidle hp nofun).elim
  | clear hp => exact (hidle hp nofun).elim
  | copyJobs => exact ⟨rfl, rfl, rfl, rfl, rfl, rfl⟩
  | pop => exact ⟨rfl, rfl, rfl, rfl, rfl, rfl⟩
  | @run w task pool _ hp hr =>
    obtain ⟨loc, hc⟩ := h.regular.crewed
    exact absurd (hc.filed.done hp).1 (h.resting w task)

theorem vacated_step (h : s.Vacated) (hw : s.Works l) (hs : s.step l = some s') :
    s'.Vacated ∧ s'.fault = s.fault := by
  obtain ⟨-, he⟩ := effect_of_step hs
  have hstill := h.still hw he
  obtain ⟨loc, hc⟩ := h.regular.crewed
  refine ⟨⟨he.regular h.regular, ?_, ?_, ?_, ?_, ?_, fun loc' hc' j w hj => ?_, fun w j hj => ?_⟩,
    hstill.fault⟩
  · rw [hstill.listeners]
    exact h.listeners
  · rw [hstill.peers]
    exact h.watchers
  · rw [hstill.handlers]
    exact h.handlers
  · rw [hstill.setups]
    exact h.origins
  · rw [hstill.bulk]
    exact h.bulk
  · rcases he.holds hc hc' hj with hj | ⟨k, hi⟩ | ⟨b, c, todo, rfl, hb, -⟩
    · exact h.jobs loc hc j w hj
    · cases hi with
      | bind => exact hw.elim
      | insert => exact hw.elim
      | join => rfl
      | start hu =>
        obtain ⟨u, hu, ho⟩ := hw
        exact absurd (h.origins _ _ hu) ho
    · obtain ⟨b, hb, ho⟩ := hw
      exact absurd (h.bulk b hb) ho
  · have hmotion := he.motion hc w
    rw [hj] at hmotion
    generalize hr : Routine.task j = r at hmotion
    cases hmotion with
    | same => exact h.resting w j hr.symm
    | copied | done => cases hr
    | popped hp =>
      cases hp with
      | task _ hl hi =>
        obtain rfl := Routine.task.inj hr
        exact hi (h.jobs loc hc j w (.inl (by simp [hl])))
      | drained | stop | flush | exit => cases hr

omit [DecidableEq τ] in
theorem Vacated.gone (h : s.Vacated) (m : Member κ β) : s.Gone m := by
  have hnone : ∀ w c, (s.handlers w).conn ≠ some c := by
    intro w c hc
    rw [h.handlers w] at hc
    cases hc
  cases m with
  | conn c =>
    refine ⟨fun j hj => h.unjobbed ?_, (h.watchers c).1, (h.watchers c).2, fun w => hnone w c⟩
    rintro w rfl
    cases hj
  | bind b =>
    refine ⟨h.unjobbed nofun, h.listeners b, fun w c u v hw => ?_⟩
    rw [h.handlers w] at hw
    cases hw

end Workers

namespace Site

variable {κ β τ : Type} [DecidableEq κ] [DecidableEq β]

structure Quiet (s : Site κ β τ) : Prop where
  binds : s.sys.binds = []
  room : s.sys.conns.length ≤ 10
  resting : ∀ w, s.sys.handlers w = .idle
  jobs : ∀ c ∈ s.sys.conns, ∀ j : Job κ β, j.peer = some c → ¬ s.sys.pool.active j
  watchers : ∀ c ∈ s.sys.conns, (s.sys.peers c).rio = false ∧ (s.sys.peers c).wio = false

variable [DecidableEq τ]

def LeavesNothing (s : Site κ β τ) : Prop :=
  ∀ mem, ∃ freed, s.sys.sockTerm mem s.tables = .ok freed ∧
    ∀ tr t, Run Workers.step s.sys tr t → Steps Workers.Works tr →
      t.fault = s.sys.fault ∧ ∀ m ∈ freed, t.Gone m

def granted : Slots β → Int → Nat → Mem := fun _ _ _ => some fun _ => .empty

variable {s : Site κ β τ}

omit [DecidableEq τ] in
theorem Built.jobless (h : s.Built) (hq : s.Quiet) (j : Job κ β) : ¬ s.sys.pool.active j := by
  obtain ⟨loc, hc⟩ := h.regular.crewed
  intro ha
  obtain ⟨w, hw⟩ := hc.filed.active_iff.mp ha
  have hpeer : ∀ c, j.peer = some c → False := fun c hj =>
    hq.jobs c ((h.regular.routed loc hc).home j w c hw hj).2 j hj ha
  cases j with
  | thrBind b =>
    have hb : b ∈ s.sys.binds := h.regular.sound.owns _ ha
    rw [hq.binds] at hb
    cases hb
  | stop v =>
    have hv : s.sys.joined v = true := h.regular.sound.owns _ ha
    rw [h.attached.unjoined v] at hv
    cases hv
  | startRead c | stopRead c | startWrite c | thrConn c => exact hpeer c rfl

omit [DecidableEq τ] in
theorem Built.vacated (h : s.Built) (hq : s.Quiet) : s.sys.Vacated := by
  have hunbound : ∀ b, b ∉ s.sys.binds := by
    rw [hq.binds]
    nofun
  have hwatch : ∀ c, ¬ ((s.sys.peers c).rio = true ∨ (s.sys.peers c).wio = true) := by
    intro c hc
    obtain ⟨hr, hw⟩ := hq.watchers c (h.regular.staged.conns (h.regular.staged.watched c hc))
    simp [hr, hw] at hc
  refine ⟨h.regular, fun b => ?_, fun c => ?_, hq.resting, fun c u hu => ?_, fun b hb => ?_,
    fun loc hc j w hj => absurd (hc.filed.active_iff.mpr ⟨w, hj⟩) (h.jobless hq j),
    fun w j hj => h.jobless hq j (.inr ⟨w, hj⟩)⟩
  · rw [← Bool.not_eq_true]
    exact fun hb => hunbound b (h.attached.listening b hb)
  · simpa using hwatch c
  · cases ho : u.origin with
    | none => rfl
    | some o => exact absurd (h.attached.origin c u o.1 o.2 hu ho) (hunbound o.2)
  · obtain ⟨loc, hc⟩ := h.regular.crewed
    cases ho : b.holder with
    | none => rfl
    | some w =>
      have hw := (h.regular.routed loc hc).pausing b w hb ho
      rw [hq.resting w] at hw
      cases hw

omit [DecidableEq τ] in
theorem Built.outgoing (h : s.Built) (hb : s.sys.binds = []) (c : κ) : s.sys.incoming c = false := by
  rw [Workers.incoming]
  split
  case h_2 => rfl
  case h_1 u hu =>
    cases ho : u.origin with
    | none => rfl
    | some o =>
      have hm := h.attached.origin c u o.1 o.2 hu ho
      rw [hb] at hm
      cases hm

theorem Built.leaves_nothing (h : s.Built) (hq : s.Quiet) : s.LeavesNothing := by
  intro mem
  rcases Workers.sockTerm_drains mem h.kept hq.binds hq.room
    fun c _ => h.outgoing hq.binds c with ⟨hok, -⟩ | ⟨⟨c, hc, hqueued⟩, -⟩
  · refine ⟨_, hok, fun tr t hr hw => ?_⟩
    have hinv : t.Vacated ∧ t.fault = s.sys.fault :=
      hr.invariant (I := fun t => t.Vacated ∧ t.fault = s.sys.fault) ⟨h.vacated hq, rfl⟩
        (fun _ _ _ hi hl hs => (Workers.vacated_step hi.1 hl hs).imp_right fun hf => hf.trans hi.2) hw
    exact ⟨hinv.2, fun m _ => hinv.1.gone m⟩
  · have hidle : ∀ j : Job κ β, s.sys.pool.isinqueue j = false := by
      intro j
      rw [← Bool.not_eq_true]
      exact fun hj => h.jobless hq j (.inl hj)
    simp [Workers.queued, hidle] at hqueued

theorem Built.quiet (h : s.Built) (hl : s.LeavesNothing) : s.Quiet := by
  obtain ⟨freed, hok, hgone⟩ := hl granted
  have hgone : ∀ m ∈ freed, s.sys.Gone m := (hgone [] _ .nil fun x hx => by cases hx).2
  have hbinds : s.sys.binds = [] := by
    cases hb : s.sys.binds with
    | nil => rfl
    | cons b bs =>
      have hb' := hgone _ (Workers.sockTerm_binds h.kept hb hok)
      rcases h.attached.bound b (by simp [hb]) with ha | hr
      · exact absurd ha hb'.jobs
      · rw [hb'.rio] at hr
        cases hr
  have hout : ∀ c ∈ s.sys.conns, s.sys.incoming c = false := fun c _ => h.outgoing hbinds c
  have hroom := (Workers.sockTerm_room h.kept (fun _ _ _ => rfl) hok).2
  have hconns : ∀ c ∈ s.sys.conns, s.sys.GoneConn c := by
    rcases Workers.sockTerm_drains granted h.kept hbinds hroom hout with ⟨he, -⟩ | ⟨-, he⟩
    · rw [hok, Except.ok.injEq] at he
      exact fun c hc => hgone (.conn c) (he ▸ List.mem_map_of_mem hc)
    · rw [hok] at he
      cases he
  obtain ⟨loc, hc⟩ := h.regular.crewed
  have hr := h.regular.routed loc hc
  have hstarted : ∀ c, (s.sys.peers c).started = true → s.sys.GoneConn c := fun c hs =>
    hconns c (h.regular.staged.conns hs)
  have hreading : ∀ w, ¬ ∃ c, (s.sys.peers c).thr = some w ∧ (s.sys.peers c).rio = true := by
    rintro w ⟨c, -, hio⟩
    rw [(hstarted c (h.regular.staged.watched c (.inl hio))).rio] at hio
    cases hio
  refine ⟨hbinds, hroom, fun w => ?_, fun c hm => (hconns c hm).jobs,
    fun c hm => ⟨(hconns c hm).rio, (hconns c hm).wio⟩⟩
  have hconn : ∀ c, (s.sys.handlers w).conn ≠ some c := by
    intro c hw
    rcases h.attached.handled w c hw with ha | hs
    · obtain ⟨b, hb⟩ := h.attached.accepting w c ha
      rw [hbinds] at hb
      cases hb
    · exact (hstarted c hs).handlers w hw
  cases hw : s.sys.handlers w with
  | idle => rfl
  | parsed n cnt => exact absurd (hr.parsed w n cnt hw) (hreading w)
  | pausing => exact absurd (h.attached.pausing w hw) (hreading w)
  | hangup c | mark c | writing c | clear c | accepting c => exact absurd (by rw [hw]; rfl) (hconn c)

theorem close_leaves_nothing (rcvhwm : Int) {tr : List (Site κ β τ × SiteLabel κ β τ)}
    (hr : Run step (init rcvhwm) tr s) : s.LeavesNothing ↔ s.Quiet :=
  ⟨(built_run rcvhwm hr).quiet, (built_run rcvhwm hr).leaves_nothing⟩

def fresh (l : WorkersLabel κ β τ) : SiteLabel κ β τ := (l, fun _ => .empty)

def watching : List (SiteLabel Unit Unit Unit) := (Workers.established () 0).map fresh

def sending : List (SiteLabel Unit Unit Unit) :=
  watching ++ [.check () (), .insert ()].map fresh

def hungUp : List (SiteLabel Unit Unit Unit) :=
  watching ++ [.read 0 () .closed, .hangup 0, .mark 0].map fresh

theorem close_leaves_nothing_hung_up : (final step (init 1) hungUp).LeavesNothing ∧
    (final step (init 1) hungUp).sys.conns = [()] := by
  refine ⟨(close_leaves_nothing 1 (run_final (k := hungUp) (by decide +kernel))).mpr
    ⟨by decide +kernel, by decide +kernel, by decide +kernel, fun _ _ j hj => ?_, by decide +kernel⟩,
    by decide +kernel⟩
  cases j with
  | startRead c | stopRead c | startWrite c | thrConn c =>
    clear hj
    revert c
    decide +kernel
  | thrBind | stop => cases hj

theorem close_leaves_watcher :
    (∃ s tr, Run step (init 1 : Site Unit Unit Unit) tr s ∧
      s.sys.sockTerm granted s.tables = .ok [.conn ()] ∧ (s.sys.peers ()).rio = true ∧
      (s.sys.step (.read 0 () (.frames 1 1))).isSome = true ∧ ¬ s.LeavesNothing) ∧
    ∃ s tr, Run step (init 1 : Site Unit Unit Unit) tr s ∧
      s.sys.pool.isinqueue (.startWrite ()) = true ∧
      s.sys.sockTerm granted s.tables = .error .assertion ∧ ¬ s.LeavesNothing := by
  refine ⟨⟨_, _, run_final (k := watching) (by decide +kernel), by decide +kernel,
    by decide +kernel, by decide +kernel, fun h => ?_⟩, ⟨_, _, run_final (k := sending)
    (by decide +kernel), by decide +kernel, by decide +kernel, fun h => ?_⟩⟩
  · obtain ⟨freed, hok, hgone⟩ := h granted
    have hfreed : (final step (init 1) watching).sys.sockTerm granted
        (final step (init 1) watching).tables = .ok [.conn ()] := by decide +kernel
    rw [hfreed, Except.ok.injEq] at hok
    subst hok
    have hg := (hgone [] _ .nil fun x hx => by cases hx).2 (.conn ()) (by simp)
    exact absurd hg.rio (by decide +kernel)
  · obtain ⟨freed, hok, -⟩ := h granted
    have hfail : (final step (init 1) sending).sys.sockTerm granted
        (final step (init 1) sending).tables = .error .assertion := by decide +kernel
    rw [hfail] at hok
    cases hok

end Site

end Fsock
