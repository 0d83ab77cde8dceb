import Fsock.Lib.Run
import Fsock.Utils.ThreadJobs
import Fsock.Core.WorkersStep

namespace Fsock

open Transition

namespace Job

variable {κ β : Type}

def owned : Job κ β → Bool
  | .startRead _ => false
  | .stopRead _ => false
  | _ => true

def oneShot : Job κ β → Bool
  | .stop _ => false
  | j => j.owned

@[simp] theorem owned_read (start : Bool) (c : κ) : (read start c : Job κ β).owned = false := by
  cases start <;> rfl

@[simp] theorem oneShot_read (start : Bool) (c : κ) : (read start c : Job κ β).oneShot = false := by
  cases start <;> rfl

end Job

namespace Phase

variable {κ : Type}

def signals : Phase κ → Thr → Bool
  | .locking, _ => false
  | .pushing _, _ => true
  | .removing _ _, _ => true
  | .signalling todo, w => w ∈ todo

end Phase

namespace Setup

variable {β : Type} {u : Setup β} {stage : Stage} {stages : List Stage}

def plan (u : Setup β) : List Stage := if u.origin.isSome then acceptStages else connectStages

theorem plan_nodup (u : Setup β) : u.plan.Nodup := by
  simp only [plan]
  split <;> decide

theorem plan_cons (h : stage :: stages <:+ u.plan) : stage ∉ stages ∧ stages <:+ u.plan :=
  ⟨(List.nodup_cons.mp (h.sublist.nodup u.plan_nodup)).1, (List.suffix_cons _ _).trans h⟩

end Setup

namespace Workers

variable {κ β τ : Type}

section
variable (s : Workers κ β τ)

@[simp] theorem pool_release (o : Option Thr) : (s.release o).pool = s.pool := by
  cases o <;> rfl

@[simp] theorem peers_release (o : Option Thr) : (s.release o).peers = s.peers := by
  cases o <;> rfl

@[simp] theorem setups_release (o : Option Thr) : (s.release o).setups = s.setups := by
  cases o <;> rfl

@[simp] theorem binds_release (o : Option Thr) : (s.release o).binds = s.binds := by
  cases o <;> rfl

@[simp] theorem joined_release (o : Option Thr) : (s.release o).joined = s.joined := by
  cases o <;> rfl

@[simp] theorem conns_release (o : Option Thr) : (s.release o).conns = s.conns := by
  cases o <;> rfl

@[simp] theorem sends_release (o : Option Thr) : (s.release o).sends = s.sends := by
  cases o <;> rfl

@[simp] theorem reading_release (o : Option Thr) : (s.release o).reading = s.reading := by
  cases o <;> rfl

@[simp] theorem bulk_release (o : Option Thr) : (s.release o).bulk = s.bulk := by
  cases o <;> rfl

@[simp] theorem fault_release (o : Option Thr) : (s.release o).fault = s.fault := by
  cases o <;> rfl

theorem handlers_release (o : Option Thr) (w : Thr) :
    (s.release o).handlers w = .idle ∨ (s.release o).handlers w = s.handlers w := by
  cases o with
  | none => exact .inr rfl
  | some v =>
    rcases eq_or_ne w v with rfl | hwv
    · exact .inl (Function.update_self ..)
    · exact .inr (Function.update_of_ne hwv _ _)

theorem mem_threads : ∀ w : Thr, w ∈ [0, 1, 2, 3] := by decide

def signals (w : Thr) : Prop := ∃ b, s.bulk = some b ∧ b.phase.signals w = true

def Owns : Job κ β → Prop
  | .startRead _ => True
  | .stopRead _ => True
  | .startWrite c => (s.peers c).writing = true ∧ (s.peers c).wio = false ∧
      ∀ w, s.handlers w ≠ .writing c ∧ s.handlers w ≠ .clear c
  | .thrBind b => b ∈ s.binds
  | .thrConn c => ∃ u, s.setups c = some u ∧ .start ∉ u.stages
  | .stop w => s.joined w = true

end

structure Crewed (s : Workers κ β τ) (loc : Place Thr → List (Job κ β)) : Prop where
  filed : s.pool.Filed loc
  alert : ∀ w, loc (.jobs w) ≠ [] → s.pool.sent w = true ∨ s.signals w

theorem crewed_init (rcvhwm : Int) : (init rcvhwm : Workers κ β τ).Crewed fun _ => [] :=
  ⟨Pool.filed_init, by simp⟩

variable {s s' : Workers κ β τ} {l : WorkersLabel κ β τ} {loc : Place Thr → List (Job κ β)}

theorem Crewed.same (h : s.Crewed loc) (hp : s'.pool = s.pool)
    (hs : ∀ w, s.signals w → s'.signals w) : s'.Crewed loc := by
  refine ⟨hp ▸ h.filed, fun w hw => ?_⟩
  rw [hp]
  exact (h.alert w hw).imp_right (hs w)

theorem Crewed.moved {loc' : Place Thr → List (Job κ β)} (h : s.Crewed loc)
    (hf : s'.pool.Filed loc') (hs : ∀ w, s.pool.sent w = true → s'.pool.sent w = true)
    (hj : ∀ w, loc' (.jobs w) ≠ [] → loc (.jobs w) ≠ [] ∨ s'.pool.sent w = true ∨ s'.signals w)
    (hg : ∀ w, s.signals w → s'.pool.sent w = true ∨ s'.signals w) : s'.Crewed loc' := by
  refine ⟨hf, fun w hw => ?_⟩
  rcases hj w hw with hw | hw
  · rcases h.alert w hw with hsent | hsig
    · exact .inl (hs w hsent)
    · exact hg w hsig
  · exact hw

variable [DecidableEq κ] [DecidableEq β]

section
variable (s : Workers κ β τ) (c : κ) (f : Endpoint → Endpoint)

omit [DecidableEq β] in
theorem modify_self : (s.modify c f).peers c = f (s.peers c) := Function.update_self ..

omit [DecidableEq β] in
theorem modify_of_ne {d : κ} (h : d ≠ c) : (s.modify c f).peers d = s.peers d :=
  Function.update_of_ne h _ _

omit [DecidableEq β] in
theorem modify_field {α : Type} (g : Endpoint → α) (h : g (f (s.peers c)) = g (s.peers c)) (d : κ) :
    g ((s.modify c f).peers d) = g (s.peers d) := by
  rcases eq_or_ne d c with rfl | hdc
  · rw [modify_self, h]
  · rw [modify_of_ne s c f hdc]

end

omit [DecidableEq κ] [DecidableEq β] in
theorem peers_handle (s : Workers κ β τ) (w : Thr) (hd : Handler κ) :
    (s.handle w hd).peers = s.peers := rfl

omit [DecidableEq κ] [DecidableEq β] in
theorem handle_of_ne {s : Workers κ β τ} {v w : Thr} {hd hd' : Handler κ} (hne : hd' ≠ hd)
    (hv : (s.handle w hd).handlers v = hd') : s.handlers v = hd' := by
  rcases eq_or_ne v w with rfl | hvw
  · exact absurd (hv.symm.trans (Function.update_self ..)) hne
  · change Function.update s.handlers w hd v = hd' at hv
    rwa [Function.update_of_ne hvw] at hv

structure Sound (s : Workers κ β τ) : Prop where
  owns : ∀ j, s.pool.active j → s.Owns j
  once : ∀ j, j.oneShot = true → s.pool.Once j
  writer : ∀ c, (s.peers c).wio = true → (s.peers c).writing = true
  handled : ∀ w c, s.handlers w = .writing c ∨ s.handlers w = .clear c →
    (s.peers c).thr = some w ∧ (s.peers c).writing = true
  cleared : ∀ w c, s.handlers w = .clear c → (s.peers c).wio = false
  planned : ∀ c u, s.setups c = some u → u.stages <:+ u.plan
  placed : ∀ c w, (s.peers c).thr = some w → ∃ u, s.setups c = some u ∧ .thr ∉ u.stages

theorem sound_init (rcvhwm : Int) : (init rcvhwm : Workers κ β τ).Sound where
  owns j h := absurd h (Pool.not_active_init j)
  once j _ := Pool.once_init j
  writer _ := nofun
  handled _ _ := nofun
  cleared _ _ := nofun
  planned _ _ := nofun
  placed _ _ := nofun

theorem Sound.mono (h : s.Sound) (hactive : ∀ j, j.owned = true → s'.pool.active j →
      s.pool.active j)
    (honce : ∀ j, j.oneShot = true → s.pool.Once j → s'.pool.Once j)
    (hthr : ∀ c, (s'.peers c).thr = (s.peers c).thr)
    (hwriting : ∀ c, (s'.peers c).writing = (s.peers c).writing)
    (hwio : ∀ c, (s'.peers c).wio = true → (s.peers c).wio = true)
    (hsetups : s'.setups = s.setups) (hbinds : s'.binds = s.binds) (hjoined : s'.joined = s.joined)
    (hw : ∀ w c, s'.handlers w = .writing c → s.handlers w = .writing c)
    (hc : ∀ w c, s'.handlers w = .clear c → s.handlers w = .clear c) : s'.Sound := by
  have hoff : ∀ c, (s.peers c).wio = false → (s'.peers c).wio = false := by
    intro c hf
    cases ht : (s'.peers c).wio with
    | false => rfl
    | true => rw [hwio c ht] at hf; cases hf
  refine ⟨fun j hj => ?_, fun j hj => honce j hj (h.once j hj), fun c hio => ?_,
    fun w c hh => ?_, fun w c hh => hoff c (h.cleared w c (hc w c hh)), ?_, fun c w hp => ?_⟩
  · cases j with
    | startRead c => trivial
    | stopRead c => trivial
    | startWrite c =>
      obtain ⟨hwr, hio, hh⟩ := h.owns _ (hactive _ rfl hj)
      exact ⟨(hwriting c).trans hwr, hoff c hio, fun w =>
        ⟨fun hp => (hh w).1 (hw w c hp), fun hp => (hh w).2 (hc w c hp)⟩⟩
    | thrBind b =>
      have hb := h.owns _ (hactive _ rfl hj)
      rwa [Owns, ← hbinds] at hb
    | thrConn c =>
      have hu := h.owns _ (hactive _ rfl hj)
      rwa [Owns, ← hsetups] at hu
    | stop w =>
      have hjoin := h.owns _ (hactive _ rfl hj)
      rwa [Owns, ← hjoined] at hjoin
  · rw [hwriting]
    exact h.writer c (hwio c hio)
  · rw [hthr, hwriting]
    exact h.handled w c (hh.imp (hw w c) (hc w c))
  · rw [hsetups]
    exact h.planned
  · rw [hsetups]
    exact h.placed c w (hthr c ▸ hp)

theorem Issue.frame [DecidableEq τ] {thr : Option Thr} {j : Job κ β}
    {k : Workers κ β τ → Workers κ β τ} (hi : Issue s l thr j k) (t : Workers κ β τ) :
    (k t).pool = t.pool ∧ (k t).bulk = t.bulk ∧ (k t).fault = t.fault := by
  cases hi with
  | bind => exact ⟨rfl, rfl, rfl⟩
  | start => exact ⟨pool_release _ _, bulk_release _ _, fault_release _ _⟩
  | insert => exact ⟨rfl, rfl, rfl⟩
  | join => exact ⟨rfl, rfl, rfl⟩

theorem Issue.reads [DecidableEq τ] {thr : Option Thr} {j : Job κ β}
    {k : Workers κ β τ → Workers κ β τ} (hi : Issue s l thr j k) (t : Workers κ β τ) :
    (k t).reading = t.reading ∧ (k t).conns = t.conns ∧
      ∀ c, ((k t).peers c).rio = (t.peers c).rio := by
  cases hi with
  | bind => exact ⟨rfl, rfl, fun _ => rfl⟩
  | start =>
    exact ⟨reading_release _ _, conns_release _ _, fun _ => by rw [peers_release]; rfl⟩
  | @insert _ d =>
    exact ⟨rfl, rfl, t.modify_field d (fun p => { p with writing := true }) Endpoint.rio rfl⟩
  | join => exact ⟨rfl, rfl, fun _ => rfl⟩

theorem Ran.frame {j : Job κ β} (hr : Ran s j s') : s'.pool = s.pool ∧ s'.bulk = s.bulk := by
  cases hr <;> exact ⟨rfl, rfl⟩

variable [DecidableEq τ]

theorem crewed_step (h : s.Crewed loc) (he : Effect s l s') : ∃ loc', s'.Crewed loc' := by
  have hsig : ∀ {t : Workers κ β τ}, t.bulk = s.bulk → ∀ w, s.signals w → t.signals w := by
    rintro t ht w ⟨b, hb, hw⟩
    exact ⟨b, ht ▸ hb, hw⟩
  cases he with
  | @issue l w j k pool hi hk hp =>
    obtain ⟨-, hf, -, hsent, -⟩ := h.filed.schedule hp
    obtain ⟨hpool, hbulk, -⟩ := hi.frame { s with pool := pool.scheduleTaskSignal w }
    change _ = pool.scheduleTaskSignal w at hpool
    refine ⟨_, h.moved (hpool ▸ hf.signal w) (fun v hv => ?_) (fun v hv => ?_)
      fun v hv => .inr (hsig hbulk v hv)⟩
    · rw [hpool]
      rcases eq_or_ne v w with rfl | hvw
      · simp [Pool.scheduleTaskSignal]
      · simp [Pool.scheduleTaskSignal, hvw, hsent, hv]
    · rw [hpool]
      rcases eq_or_ne v w with rfl | hvw
      · exact .inr (.inl (by simp [Pool.scheduleTaskSignal]))
      · exact .inl (by simpa [hvw] using hv)
  | refuse => exact ⟨loc, h.same rfl fun _ hw => hw⟩
  | stray => exact ⟨loc, h.same rfl fun _ hw => hw⟩
  | connect => exact ⟨loc, h.same rfl fun _ hw => hw⟩
  | accept => exact ⟨loc, h.same rfl fun _ hw => hw⟩
  | attach => exact ⟨loc, h.same rfl fun _ hw => hw⟩
  | publish => exact ⟨loc, h.same rfl fun _ hw => hw⟩
  | assign => exact ⟨loc, h.same rfl fun _ hw => hw⟩
  | check => exact ⟨loc, h.same rfl fun _ hw => hw⟩
  | sent => exact ⟨loc, h.same rfl fun _ hw => hw⟩
  | idle => exact ⟨loc, h⟩
  | turn => exact ⟨loc, h.same rfl fun _ hw => hw⟩
  | take => exact ⟨loc, h.same rfl fun _ hw => hw⟩
  | null => exact ⟨loc, h.same rfl fun _ hw => hw⟩
  | hangup => exact ⟨loc, h.same rfl fun _ hw => hw⟩
  | mark => exact ⟨loc, h.same rfl fun _ hw => hw⟩
  | written => exact ⟨loc, h.same rfl fun _ hw => hw⟩
  | clear => exact ⟨loc, h.same rfl fun _ hw => hw⟩
  | pause _ hb => exact ⟨loc, h.same rfl fun w ⟨b, hb', _⟩ => by rw [hb] at hb'; cases hb'⟩
  | resume hb => exact ⟨loc, h.same rfl fun w ⟨b, hb', _⟩ => by rw [hb] at hb'; cases hb'⟩
  | @lock b => exact ⟨loc, h.same rfl fun w _ => ⟨{ b with phase := .pushing s.conns }, rfl, rfl⟩⟩
  | @unlock b =>
    exact ⟨loc, h.same rfl fun w _ => ⟨{ b with phase := .signalling [0, 1, 2, 3] }, rfl,
      decide_eq_true (mem_threads w)⟩⟩
  | @skip b c todo =>
    exact ⟨loc, h.same rfl fun w _ => ⟨{ b with phase := .removing c todo }, rfl, rfl⟩⟩
  | @keep b c todo =>
    exact ⟨loc, h.same rfl fun w _ => ⟨{ b with phase := .pushing todo }, rfl, rfl⟩⟩
  | @push b c todo w pool hb hp ht hs =>
    obtain ⟨-, hf, -, hsent, -⟩ := h.filed.schedule hs
    have hall : ∀ v, ({ s with pool := pool }.phase b (.removing c todo)).signals v := fun v =>
      ⟨{ b with phase := .removing c todo }, rfl, rfl⟩
    exact ⟨_, h.moved hf (fun v hv => by rwa [← hsent] at hv) (fun v _ => .inr (.inr (hall v)))
      fun v _ => .inr (hall v)⟩
  | @remove b c todo w pool hb hp ht hs =>
    obtain ⟨hf, -, hsent, -⟩ := h.filed.remove hs
    have hall : ∀ v, ({ s with pool := pool }.phase b (.pushing todo)).signals v := fun v =>
      ⟨{ b with phase := .pushing todo }, rfl, rfl⟩
    exact ⟨_, h.moved hf (fun v hv => by rwa [← hsent] at hv) (fun v _ => .inr (.inr (hall v)))
      fun v _ => .inr (hall v)⟩
  | @signal b w todo hb hp =>
    refine ⟨loc, h.moved (h.filed.signal w) (fun v hv => ?_) (fun v hv => .inl hv) ?_⟩
    · rcases eq_or_ne v w with rfl | hvw
      · exact Function.update_self ..
      · exact (Function.update_of_ne hvw _ _).trans hv
    · rintro v ⟨b', hb', hv⟩
      rw [hb, Option.some.injEq] at hb'
      subst hb'
      rw [hp, Phase.signals, decide_eq_true_iff, List.mem_cons] at hv
      rcases hv with rfl | hv
      · exact .inl (Function.update_self ..)
      · exact .inr ⟨{ b with phase := .signalling todo }, rfl, decide_eq_true hv⟩
  | @free b hb hp =>
    refine ⟨loc, h.same (pool_release _ _) ?_⟩
    rintro w ⟨b', hb', hw⟩
    rw [hb, Option.some.injEq] at hb'
    subst hb'
    simp [hp, Phase.signals] at hw
  | @copyJobs w pool hh hk hp =>
    obtain ⟨-, hf, -, hsent, -⟩ := h.filed.copyJobs hp
    refine ⟨_, hf, fun v hv => ?_⟩
    rcases eq_or_ne v w with rfl | hvw
    · simp at hv
    · rw [hsent, Function.update_of_ne hvw]
      exact (h.alert v (by simpa [hvw] using hv)).imp_right (hsig rfl v)
  | @pop w pool hp =>
    obtain ⟨r, rest, -, hf, -, hsent, -⟩ := h.filed.pop hp
    refine ⟨_, hf, fun v hv => ?_⟩
    rw [hsent]
    exact (h.alert v (by simpa using hv)).imp_right (hsig rfl v)
  | @run w task pool _ hp hr =>
    obtain ⟨-, hf, -, hsent, -⟩ := h.filed.done hp
    obtain ⟨hpool, hbulk⟩ := hr.frame
    change _ = pool at hpool
    refine ⟨loc, by rwa [hpool], fun v hv => ?_⟩
    rw [hpool, hsent]
    exact (h.alert v hv).imp_right (hsig hbulk v)

theorem Issue.inactive {thr : Option Thr} {j : Job κ β} {k : Workers κ β τ → Workers κ β τ}
    (h : s.Sound) (hi : Issue s l thr j k) (hj : ∀ w, l ≠ .join w) : ¬ s.pool.active j := by
  intro ha
  have ho := h.owns j ha
  cases hi with
  | bind hb => exact hb ho
  | start hu hs =>
    obtain ⟨u, hu', hn⟩ := ho
    rw [hu, Option.some.injEq] at hu'
    subst hu'
    exact hn (by simp [hs])
  | insert ht hp hw =>
    rw [ho.1] at hw
    cases hw
  | join => exact hj _ rfl

omit [DecidableEq τ] in
theorem Sound.advance {c : κ} {u x : Setup β} {stage : Stage} (h : s.Sound)
    (hu : s.setups c = some u) (hs : u.stages = stage :: x.stages) (ho : x.origin = u.origin)
    (hset : s'.setups = Function.update s.setups c (some x))
    (hactive : ∀ j, s'.pool.active j → s.pool.active j ∨ j = .thrConn c ∧ stage = .start)
    (honce : ∀ j, j.oneShot = true → s.pool.Once j → s'.pool.Once j)
    (hthr : ∀ d, (s'.peers d).thr = (s.peers d).thr ∨ d = c ∧ stage = .thr)
    (hwriting : ∀ d, (s'.peers d).writing = (s.peers d).writing)
    (hwio : ∀ d, (s'.peers d).wio = (s.peers d).wio)
    (hbinds : s'.binds = s.binds) (hjoined : s'.joined = s.joined)
    (hh : ∀ w, s'.handlers w = .idle ∨ s'.handlers w = s.handlers w) : s'.Sound := by
  have hkeep : ∀ w d, (s'.handlers w = .writing d → s.handlers w = .writing d) ∧
      (s'.handlers w = .clear d → s.handlers w = .clear d) := by
    intro w d
    rcases hh w with hw | hw <;> rw [hw]
    · exact ⟨nofun, nofun⟩
    · exact ⟨id, id⟩
  have hplan := h.planned c u hu
  rw [hs] at hplan
  obtain ⟨hout, hrest⟩ := Setup.plan_cons hplan
  have hunset : stage = .thr → (s.peers c).thr = none := by
    rintro rfl
    by_contra hne
    obtain ⟨w, hw⟩ := Option.ne_none_iff_exists'.mp hne
    obtain ⟨v, hv, hn⟩ := h.placed c w hw
    rw [hu, Option.some.injEq] at hv
    subst hv
    exact hn (by simp [hs])
  refine ⟨fun j hj => ?_, fun j hj => honce j hj (h.once j hj), fun d hio => ?_, fun w d hd => ?_,
    fun w d hd => ?_, fun d v hv => ?_, fun d w hw => ?_⟩
  · have hmove : s.Owns j → s'.Owns j := by
      intro howns
      cases j with
      | startRead d => trivial
      | stopRead d => trivial
      | startWrite d =>
        obtain ⟨hwr, hio, hw⟩ := howns
        exact ⟨(hwriting d).trans hwr, (hwio d).trans hio, fun w =>
          ⟨fun hp => (hw w).1 ((hkeep w d).1 hp), fun hp => (hw w).2 ((hkeep w d).2 hp)⟩⟩
      | thrBind b => rwa [Owns, ← hbinds] at howns
      | thrConn d =>
        obtain ⟨v, hv, hn⟩ := howns
        rw [Owns, hset]
        rcases eq_or_ne d c with rfl | hdc
        · rw [hu, Option.some.injEq] at hv
          subst hv
          exact ⟨x, Function.update_self .., fun hm => hn (by simp [hs, hm])⟩
        · exact ⟨v, (Function.update_of_ne hdc _ _).trans hv, hn⟩
      | stop w => rwa [Owns, ← hjoined] at howns
    rcases hactive j hj with ha | ⟨rfl, rfl⟩
    · exact hmove (h.owns j ha)
    · rw [Owns, hset]
      exact ⟨x, Function.update_self .., hout⟩
  · rw [hwriting]
    exact h.writer d (hwio d ▸ hio)
  · obtain ⟨ht, hwr⟩ := h.handled w d (hd.imp (hkeep w d).1 (hkeep w d).2)
    refine ⟨?_, (hwriting d).trans hwr⟩
    rcases hthr d with hsame | ⟨rfl, hst⟩
    · exact hsame.trans ht
    · rw [hunset hst] at ht
      cases ht
  · rw [hwio]
    exact h.cleared w d ((hkeep w d).2 hd)
  · rcases update_some (hset ▸ hv) with ⟨rfl, rfl⟩ | ⟨-, hv⟩
    · rw [Setup.plan, ho]
      exact hrest
    · exact h.planned d v hv
  · rw [hset]
    rcases eq_or_ne d c with rfl | hdc
    · refine ⟨x, Function.update_self .., fun hm => ?_⟩
      rcases hthr d with hsame | ⟨-, rfl⟩
      · obtain ⟨v, hv, hn⟩ := h.placed d w (hsame ▸ hw)
        rw [hu, Option.some.injEq] at hv
        subst hv
        exact hn (by simp [hs, hm])
      · exact hout hm
    · rcases hthr d with hsame | ⟨rfl, -⟩
      · rw [Function.update_of_ne hdc]
        exact h.placed d w (hsame ▸ hw)
      · exact absurd rfl hdc

omit [DecidableEq τ] in
theorem Sound.launch {c : κ} {u : Setup β} (h : s.Sound) (hu : s.setups c = none)
    (hp : u.stages = u.plan) (hset : s'.setups = Function.update s.setups c (some u))
    (hpool : s'.pool = s.pool) (hpeers : s'.peers = s.peers) (hbinds : s'.binds = s.binds)
    (hjoined : s'.joined = s.joined)
    (hw : ∀ w d, s'.handlers w = .writing d → s.handlers w = .writing d)
    (hc : ∀ w d, s'.handlers w = .clear d → s.handlers w = .clear d) : s'.Sound := by
  have hother : ∀ d v, s.setups d = some v → s'.setups d = some v := by
    intro d v hv
    have hdc : d ≠ c := by
      rintro rfl
      rw [hu] at hv
      cases hv
    rw [hset, Function.update_of_ne hdc]
    exact hv
  refine ⟨fun j hj => ?_, fun j hj => ?_, fun d hio => ?_, fun w d hd => ?_, fun w d hd => ?_,
    fun d v hv => ?_, fun d w hd => ?_⟩
  · rw [hpool] at hj
    have howns := h.owns j hj
    cases j with
    | startRead d => trivial
    | stopRead d => trivial
    | startWrite d =>
      obtain ⟨hwr, hio, hd⟩ := howns
      rw [Owns, hpeers]
      exact ⟨hwr, hio, fun w =>
        ⟨fun hp => (hd w).1 (hw w d hp), fun hp => (hd w).2 (hc w d hp)⟩⟩
    | thrBind b => rwa [Owns, ← hbinds] at howns
    | thrConn d =>
      obtain ⟨v, hv, hn⟩ := howns
      exact ⟨v, hother d v hv, hn⟩
    | stop w => rwa [Owns, ← hjoined] at howns
  · rw [hpool]
    exact h.once j hj
  · rw [hpeers] at hio ⊢
    exact h.writer d hio
  · rw [hpeers]
    exact h.handled w d (hd.imp (hw w d) (hc w d))
  · rw [hpeers]
    exact h.cleared w d (hc w d hd)
  · rcases update_some (hset ▸ hv) with ⟨rfl, rfl⟩ | ⟨-, hv⟩
    · exact hp ▸ List.suffix_refl _
    · exact h.planned d v hv
  · rw [hpeers] at hd
    obtain ⟨v, hv, hn⟩ := h.placed d w hd
    exact ⟨v, hother d v hv, hn⟩

theorem sound_issue {w : Thr} {j : Job κ β} {k : Workers κ β τ → Workers κ β τ}
    {pool : Pool (Job κ β) Thr} (h : s.Sound) (hi : Issue s l (some w) j k)
    (hactive : ∀ i, pool.active i → s.pool.active i ∨ i = j)
    (honce : ∀ i, i.oneShot = true → s.pool.Once i → pool.Once i) :
    (k { s with pool := pool }).Sound := by
  cases hi with
  | @bind b _ hb =>
    have howns : ∀ i, s.pool.active i → Owns { s with binds := s.binds ++ [b] } i := by
      intro i hi
      have ho := h.owns i hi
      cases i with
      | thrBind c => exact List.mem_append_left _ ho
      | _ => exact ho
    refine ⟨fun i hi => ?_, fun i hi => honce i hi (h.once i hi), h.writer, h.handled, h.cleared,
      h.planned, h.placed⟩
    rcases hactive i hi with ha | rfl
    · exact howns i ha
    · exact List.mem_append_right _ (List.mem_singleton_self b)
  | @start c u stages hu hs =>
    refine h.advance (x := { u with stages := stages }) hu hs rfl (setups_release _ _) ?_ ?_
      ?_ ?_ ?_ (binds_release _ _) (joined_release _ _) fun w => handlers_release _ _ w
    · intro i hi
      rw [pool_release] at hi
      exact (hactive i hi).imp_right fun hi => ⟨hi, rfl⟩
    · rw [pool_release]
      exact honce
    · exact fun d => .inl (by rw [peers_release]; rfl)
    · exact fun d => by rw [peers_release]; rfl
    · exact fun d => by rw [peers_release]; rfl
  | @insert t c _ ht hp hw =>
    have hoff : (s.peers c).wio = false := by
      cases hio : (s.peers c).wio with
      | false => rfl
      | true => rw [h.writer c hio] at hw; cases hw
    have hfree : ∀ v, s.handlers v ≠ .writing c ∧ s.handlers v ≠ .clear c := by
      refine fun v => ⟨fun hv => ?_, fun hv => ?_⟩
      · rw [(h.handled v c (.inl hv)).2] at hw
        cases hw
      · rw [(h.handled v c (.inr hv)).2] at hw
        cases hw
    have hthr := fun d => s.modify_field c (fun p => { p with writing := true }) Endpoint.thr rfl d
    have hwio := fun d => s.modify_field c (fun p => { p with writing := true }) Endpoint.wio rfl d
    have hset : ∀ d, (s.peers d).writing = true →
        ((s.modify c fun p => { p with writing := true }).peers d).writing = true := by
      intro d hd
      rcases eq_or_ne d c with rfl | hdc
      · rw [modify_self]
      · rwa [modify_of_ne s c _ hdc]
    have hon : ((s.modify c fun p => { p with writing := true }).peers c).writing = true := by
      rw [modify_self]
    refine ⟨fun i hi => ?_, fun i hi => honce i hi (h.once i hi), fun d hio => ?_, fun v d hd => ?_,
      fun v d hd => ?_, h.planned, fun d v hd => ?_⟩
    · rcases hactive i hi with ha | rfl
      · have ho := h.owns i ha
        cases i with
        | startWrite d => exact ⟨hset d ho.1, (hwio d).trans ho.2.1, ho.2.2⟩
        | _ => exact ho
      · exact ⟨hon, (hwio c).trans hoff, hfree⟩
    · exact hset d (h.writer d ((hwio d).symm.trans hio))
    · obtain ⟨ht, hwr⟩ := h.handled v d hd
      exact ⟨(hthr d).trans ht, hset d hwr⟩
    · exact (hwio d).trans (h.cleared v d hd)
    · exact h.placed d v ((hthr d).symm.trans hd)
  | @join w =>
    refine ⟨fun i hi => ?_, fun i hi => honce i hi (h.once i hi), h.writer, h.handled, h.cleared,
      h.planned, h.placed⟩
    rcases hactive i hi with ha | rfl
    · have ho := h.owns i ha
      cases i with
      | stop v =>
        rcases eq_or_ne v w with rfl | hvw
        · exact Function.update_self ..
        · exact (Function.update_of_ne hvw _ _).trans ho
      | _ => exact ho
    · exact Function.update_self ..

omit [DecidableEq τ] in
theorem Sound.work (h : s.Sound) (hactive : ∀ j, j.owned = true → s'.pool.active j →
      s.pool.active j) (honce : ∀ j, j.oneShot = true → s.pool.Once j → s'.pool.Once j)
    (hp : s'.peers = s.peers) (hs : s'.setups = s.setups) (hb : s'.binds = s.binds)
    (hj : s'.joined = s.joined) (hh : s'.handlers = s.handlers) : s'.Sound :=
  h.mono hactive honce (fun _ => by rw [hp]) (fun _ => by rw [hp]) (fun _ hw => by rwa [hp] at hw)
    hs hb hj (fun _ _ hw => by rwa [hh] at hw) fun _ _ hw => by rwa [hh] at hw

omit [DecidableEq τ] in
theorem Sound.still (h : s.Sound) (hpool : s'.pool = s.pool) (hp : s'.peers = s.peers)
    (hs : s'.setups = s.setups) (hb : s'.binds = s.binds) (hj : s'.joined = s.joined)
    (hh : s'.handlers = s.handlers) : s'.Sound :=
  h.work (fun _ _ ha => by rwa [hpool] at ha) (fun _ _ ho => by rwa [hpool]) hp hs hb hj hh

omit [DecidableEq τ] in
theorem sound_turn {w : Thr} {hd : Handler κ} {q : Int} {e : Nat} (h : s.Sound)
    (ht : Turn s w l hd) : Sound { s.handle w hd with rcvqsz := q, events := e } := by
  have hplain : (∀ d, hd ≠ .writing d ∧ hd ≠ .clear d) →
      Sound { s.handle w hd with rcvqsz := q, events := e } := fun hne =>
    h.mono (fun _ _ ha => ha) (fun _ _ ho => ho) (fun _ => rfl) (fun _ => rfl)
      (fun _ hio => hio) rfl rfl rfl (fun v d => handle_of_ne (s := s) (hne d).1.symm) fun v d =>
      handle_of_ne (s := s) (hne d).2.symm
  cases ht with
  | closed => exact hplain fun _ => ⟨nofun, nofun⟩
  | parsed => exact hplain fun _ => ⟨nofun, nofun⟩
  | delivered => exact hplain fun _ => ⟨nofun, nofun⟩
  | written => exact hplain fun _ => ⟨nofun, nofun⟩
  | @writing c hl hr ht hz =>
    have hkeep : ∀ v d, (s.handle w (.writing c)).handlers v = .writing d →
        s.handlers v = .writing d ∨ v = w ∧ d = c := by
      intro v d hv
      rcases eq_or_ne d c with rfl | hdc
      · rcases eq_or_ne v w with rfl | hvw
        · exact .inr ⟨rfl, rfl⟩
        · exact .inl ((Function.update_of_ne hvw _ _).symm.trans hv)
      · exact .inl (handle_of_ne (by simpa using hdc) hv)
    have hold : ∀ v d, (s.handle w (.writing c)).handlers v = .clear d → s.handlers v = .clear d :=
      fun v d => handle_of_ne nofun
    refine ⟨fun i hi => ?_, h.once, h.writer, fun v d hd => ?_, fun v d hd =>
      h.cleared v d (hold v d hd), h.planned, h.placed⟩
    · have ho := h.owns i hi
      cases i with
      | startWrite d =>
        refine ⟨ho.1, ho.2.1, fun v => ⟨fun hv => ?_, fun hv => ?_⟩⟩
        · rcases hkeep v d hv with hv | ⟨-, rfl⟩
          · exact (ho.2.2 v).1 hv
          · have hio := ho.2.1
            rw [hr] at hio
            cases hio
        · exact (ho.2.2 v).2 (hold v d hv)
      | _ => exact ho
    · rcases hd with hd | hd
      · rcases hkeep v d hd with hd | ⟨rfl, rfl⟩
        · exact h.handled v d (.inl hd)
        · exact ⟨ht, h.writer d hr⟩
      · exact h.handled v d (.inr (hold v d hd))

omit [DecidableEq τ] in
theorem sound_written {w : Thr} {c : κ} (h : s.Sound) (hp : s.handlers w = .writing c) :
    Sound ((s.modify c fun p => { p with wio := false }).handle w (.clear c)) := by
  have hfield {α : Type} (g : Endpoint → α) := s.modify_field c (fun p => { p with wio := false }) g
  have hclosed : ((s.modify c fun p => { p with wio := false }).peers c).wio = false := by
    rw [modify_self]
  have hoff : ∀ d, (s.peers d).wio = false →
      ((s.modify c fun p => { p with wio := false }).peers d).wio = false := by
    intro d hd
    rcases eq_or_ne d c with rfl | hdc
    · exact hclosed
    · rwa [modify_of_ne s c _ hdc]
  have hwriting : ∀ v d, ((s.modify c fun p => { p with wio := false }).handle w
      (.clear c)).handlers v = .writing d → s.handlers v = .writing d := fun v d =>
    handle_of_ne (s := s.modify c _) nofun
  have hclear : ∀ v d, ((s.modify c fun p => { p with wio := false }).handle w
      (.clear c)).handlers v = .clear d → s.handlers v = .clear d ∨ v = w ∧ d = c := by
    intro v d hv
    rcases eq_or_ne d c with rfl | hdc
    · rcases eq_or_ne v w with rfl | hvw
      · exact .inr ⟨rfl, rfl⟩
      · exact .inl ((Function.update_of_ne hvw _ _).symm.trans hv)
    · exact .inl (handle_of_ne (s := s.modify c _) (by simpa using hdc) hv)
  refine ⟨fun i hi => ?_, h.once, fun d hio => ?_, fun v d hd => ?_, fun v d hd => ?_, h.planned,
    fun d v hd => h.placed d v ((hfield Endpoint.thr rfl d).symm.trans hd)⟩
  · have ho := h.owns i hi
    cases i with
    | startWrite d =>
      refine ⟨(hfield Endpoint.writing rfl d).trans ho.1, hoff d ho.2.1, fun v =>
        ⟨fun hv => (ho.2.2 v).1 (hwriting v d hv), fun hv => ?_⟩⟩
      rcases hclear v d hv with hv | ⟨rfl, rfl⟩
      · exact (ho.2.2 v).2 hv
      · exact (ho.2.2 v).1 hp
    | _ => exact ho
  · have hdc : d ≠ c := by
      rintro rfl
      rw [peers_handle, hclosed] at hio
      cases hio
    rw [peers_handle, modify_of_ne s c _ hdc] at hio ⊢
    exact h.writer d hio
  · have hold : s.handlers v = .writing d ∨ s.handlers v = .clear d := by
      rcases hd with hd | hd
      · exact .inl (hwriting v d hd)
      · rcases hclear v d hd with hd | ⟨rfl, rfl⟩
        · exact .inr hd
        · exact .inl hp
    obtain ⟨ht, hwr⟩ := h.handled v d hold
    exact ⟨(hfield Endpoint.thr rfl d).trans ht, (hfield Endpoint.writing rfl d).trans hwr⟩
  · rcases hclear v d hd with hd | ⟨-, rfl⟩
    · exact hoff d (h.cleared v d hd)
    · exact hclosed

omit [DecidableEq τ] in
theorem sound_clear {w : Thr} {c : κ} (h : s.Sound) (hp : s.handlers w = .clear c) :
    Sound ((s.modify c fun p => { p with writing := false }).handle w .idle) := by
  have hfield {α : Type} (g : Endpoint → α) :=
    s.modify_field c (fun p => { p with writing := false }) g
  have hkeep : ∀ v hd, hd ≠ .idle → ((s.modify c fun p => { p with writing := false }).handle w
      .idle).handlers v = hd → v ≠ w ∧ s.handlers v = hd := by
    rintro v hd hne hv
    refine ⟨?_, handle_of_ne (s := s.modify c _) hne hv⟩
    rintro rfl
    exact hne (hv.symm.trans (Function.update_self ..))
  have hw := fun v d => hkeep v (.writing d) nofun
  have hc := fun v d => hkeep v (.clear d) nofun
  have hwriting : ∀ d, d ≠ c → (s.peers d).writing = true →
      ((s.modify c fun p => { p with writing := false }).peers d).writing = true := by
    intro d hdc hd
    rwa [modify_of_ne s c _ hdc]
  refine ⟨fun i hi => ?_, h.once, fun d hio => ?_, fun v d hd => ?_, fun v d hd => ?_, h.planned,
    fun d v hd => h.placed d v ((hfield Endpoint.thr rfl d).symm.trans hd)⟩
  · have ho := h.owns i hi
    cases i with
    | startWrite d =>
      have hdc : d ≠ c := by
        rintro rfl
        exact (ho.2.2 w).2 hp
      exact ⟨hwriting d hdc ho.1, (hfield Endpoint.wio rfl d).trans ho.2.1, fun v =>
        ⟨fun hv => (ho.2.2 v).1 (hw v d hv).2, fun hv =>
          (ho.2.2 v).2 (hc v d hv).2⟩⟩
    | _ => exact ho
  · have hon := (hfield Endpoint.wio rfl d).symm.trans hio
    have hdc : d ≠ c := by
      rintro rfl
      rw [h.cleared w d hp] at hon
      cases hon
    exact hwriting d hdc (h.writer d hon)
  · have hold : v ≠ w ∧ (s.handlers v = .writing d ∨ s.handlers v = .clear d) := by
      rcases hd with hd | hd
      · exact (hw v d hd).imp_right .inl
      · exact (hc v d hd).imp_right .inr
    obtain ⟨ht, hwr⟩ := h.handled v d hold.2
    refine ⟨(hfield Endpoint.thr rfl d).trans ht, hwriting d ?_ hwr⟩
    rintro rfl
    have ht' := (h.handled w d (.inr hp)).1
    rw [ht, Option.some.injEq] at ht'
    exact hold.1 ht'
  · exact (hfield Endpoint.wio rfl d).trans (h.cleared v d (hc v d hd).2)

omit [DecidableEq τ] in
theorem sound_run {w : Thr} {task : Job κ β} {pool : Pool (Job κ β) Thr} (hc : s.Crewed loc)
    (h : s.Sound) (hp : s.pool.done w = some (task, pool))
    (hr : Ran { s with pool := pool } task s') : s'.Sound := by
  obtain ⟨hsh, hgone⟩ := hc.filed.done_shrinks hp
  obtain ⟨hw, -⟩ := hc.filed.done hp
  have hdone : Sound { s with pool := pool } :=
    h.work (fun j _ => hsh.active j) (fun j _ => hsh.once j) rfl rfl rfl rfl rfl
  cases hr with
  | raw => exact hdone.still rfl rfl rfl rfl rfl rfl
  | stop => exact hdone.still rfl rfl rfl rfl rfl rfl
  | thrBind => exact hdone.still rfl rfl rfl rfl rfl rfl
  | @startRead c hs =>
    have hfield {α : Type} (g : Endpoint → α) := s.modify_field c (fun p => { p with rio := true }) g
    exact hdone.mono (fun _ _ ha => ha) (fun _ _ ho => ho) (hfield Endpoint.thr rfl)
      (hfield Endpoint.writing rfl) (fun d hio => (hfield Endpoint.wio rfl d).symm.trans hio)
      rfl rfl rfl (fun _ _ hw => hw) fun _ _ hw => hw
  | @stopRead c hs =>
    have hfield {α : Type} (g : Endpoint → α) := s.modify_field c (fun p => { p with rio := false }) g
    exact hdone.mono (fun _ _ ha => ha) (fun _ _ ho => ho) (hfield Endpoint.thr rfl)
      (hfield Endpoint.writing rfl) (fun d hio => (hfield Endpoint.wio rfl d).symm.trans hio)
      rfl rfl rfl (fun _ _ hw => hw) fun _ _ hw => hw
  | @thrConn c =>
    have hfield {α : Type} (g : Endpoint → α) :=
      s.modify_field c (fun p => { p with started := true, rio := true, wio := false }) g
    refine hdone.mono (fun _ _ ha => ha) (fun _ _ ho => ho) (hfield Endpoint.thr rfl)
      (hfield Endpoint.writing rfl) (fun d hio => ?_) rfl rfl rfl (fun _ _ hw => hw)
      fun _ _ hw => hw
    rcases eq_or_ne d c with rfl | hdc
    · rw [modify_self] at hio
      cases hio
    · rwa [modify_of_ne _ c _ hdc] at hio
  | @startWrite c hs =>
    have hfield {α : Type} (g : Endpoint → α) := s.modify_field c (fun p => { p with wio := true }) g
    have hother : ∀ d, d ≠ c → ((s.modify c fun p => { p with wio := true }).peers d).wio =
        (s.peers d).wio := fun d hdc => congrArg Endpoint.wio (s.modify_of_ne c _ hdc)
    obtain ⟨hwr, hoff, hfree⟩ := h.owns (.startWrite c) (.inr ⟨w, hw⟩)
    refine ⟨fun i hi => ?_, hdone.once, fun d hio => ?_, fun v d hd => ?_, fun v d hd => ?_,
      h.planned, fun d v hd => h.placed d v ((hfield Endpoint.thr rfl d).symm.trans hd)⟩
    · have ho := hdone.owns i hi
      cases i with
      | startWrite d =>
        have hdc : d ≠ c := by
          rintro rfl
          exact hgone (h.once _ rfl) hi
        exact ⟨(hfield Endpoint.writing rfl d).trans ho.1, (hother d hdc).trans ho.2.1, ho.2.2⟩
      | _ => exact ho
    · refine (hfield Endpoint.writing rfl d).trans ?_
      rcases eq_or_ne d c with rfl | hdc
      · exact hwr
      · exact h.writer d ((hother d hdc).symm.trans hio)
    · obtain ⟨ht, hwd⟩ := h.handled v d hd
      exact ⟨(hfield Endpoint.thr rfl d).trans ht, (hfield Endpoint.writing rfl d).trans hwd⟩
    · have hdc : d ≠ c := by
        rintro rfl
        exact (hfree v).2 hd
      exact (hother d hdc).trans (h.cleared v d hd)

theorem sound_step (hc : s.Crewed loc) (h : s.Sound) (he : Effect s l s') : s'.Sound := by
  cases he with
  | @issue l w j k pool hi hk hp =>
    refine sound_issue h hi (fun i => (hc.filed.schedule_active hp).mp) fun i hone ho => ?_
    have ho' := hc.filed.schedule_once hp ho fun he => hi.inactive h fun w hw => ?_
    · exact ⟨ho'.apart, ho'.single⟩
    · subst hw he
      cases hi
      cases hone
  | refuse => exact h.still rfl rfl rfl rfl rfl rfl
  | stray => exact h.still rfl rfl rfl rfl rfl rfl
  | connect hu => exact h.launch hu rfl rfl rfl rfl rfl rfl (fun _ _ hw => hw) fun _ _ hw => hw
  | @accept w b c v fd hu hl =>
    exact h.launch hu rfl rfl rfl rfl rfl rfl (fun v d => handle_of_ne nofun) fun v d =>
      handle_of_ne nofun
  | @attach c u stages w b hu hs ho =>
    exact h.advance (x := { u with stages := stages }) hu hs rfl rfl (fun _ ha => .inl ha)
      (fun _ _ ho => ho) (fun _ => .inl rfl) (fun _ => rfl) (fun _ => rfl) rfl rfl fun _ => .inr rfl
  | @publish c u stages hu hs hb =>
    exact h.advance (x := { u with stages := stages, index := s.conns.length }) hu hs rfl rfl
      (fun _ ha => .inl ha) (fun _ _ ho => ho) (fun _ => .inl rfl) (fun _ => rfl) (fun _ => rfl) rfl
      rfl fun _ => .inr rfl
  | @assign c u stage stages f ha hu hs =>
    refine h.advance (x := { u with stages := stages }) hu hs rfl rfl (fun _ ha => .inl ha)
      (fun _ _ ho => ho) (fun d => ?_) (fun d => ?_) (fun d => ?_) rfl rfl fun _ => .inr rfl
    · rcases eq_or_ne d c with rfl | hdc
      · rcases eq_or_ne stage .thr with rfl | hst
        · exact .inr ⟨rfl, rfl⟩
        · have hthr : (f (s.peers d)).thr = (s.peers d).thr := by
            cases ha with
            | thr => exact absurd rfl hst
            | fd => rfl
            | idx => rfl
          exact .inl (s.modify_field d f Endpoint.thr hthr d)
      · exact .inl (congrArg Endpoint.thr (s.modify_of_ne c f hdc))
    · have hwriting : (f (s.peers c)).writing = (s.peers c).writing := by cases ha <;> rfl
      exact s.modify_field c f Endpoint.writing hwriting d
    · have hwio : (f (s.peers c)).wio = (s.peers c).wio := by cases ha <;> rfl
      exact s.modify_field c f Endpoint.wio hwio d
  | check => exact h.still rfl rfl rfl rfl rfl rfl
  | sent => exact h.still rfl rfl rfl rfl rfl rfl
  | idle => exact h
  | turn ht => exact sound_turn h ht
  | @pause w n cnt q e hp hb =>
    exact h.mono (fun _ _ ha => ha) (fun _ _ ho => ho) (fun _ => rfl) (fun _ => rfl)
      (fun _ hio => hio) rfl rfl rfl (fun v d => handle_of_ne (s := s) nofun) fun v d =>
      handle_of_ne (s := s) nofun
  | take => exact h.still rfl rfl rfl rfl rfl rfl
  | resume => exact h.still rfl rfl rfl rfl rfl rfl
  | lock => exact h.still rfl rfl rfl rfl rfl rfl
  | unlock => exact h.still rfl rfl rfl rfl rfl rfl
  | skip => exact h.still rfl rfl rfl rfl rfl rfl
  | @push b c todo w pool hb hp ht hs =>
    refine h.work (fun j hj ha => ?_) (fun j hj ho => ?_) rfl rfl rfl rfl rfl
    · refine ((hc.filed.schedule_active hs).mp ha).resolve_right ?_
      rintro rfl
      simp at hj
    · refine hc.filed.schedule_once hs ho ?_
      rintro rfl
      simp at hj
  | null => exact h.still rfl rfl rfl rfl rfl rfl
  | keep => exact h.still rfl rfl rfl rfl rfl rfl
  | @remove b c todo w pool hb hp ht hs =>
    have hsh := hc.filed.remove_shrinks hs
    exact h.work (fun j _ => hsh.active j) (fun j _ => hsh.once j) rfl rfl rfl rfl rfl
  | @signal b w todo hb hp =>
    exact h.work (fun _ _ ha => ha) (fun _ _ ho => ⟨ho.apart, ho.single⟩) rfl rfl rfl rfl rfl
  | @free b hb hp =>
    have hkeep : ∀ v hd, hd ≠ Handler.idle → ({ s with bulk := none }.release b.holder).handlers v =
        hd → s.handlers v = hd := by
      rintro v hd hne rfl
      exact ((handlers_release { s with bulk := none } b.holder v).resolve_left hne).symm
    exact h.mono (fun _ _ ha => by rwa [pool_release] at ha) (fun _ _ ho => by rwa [pool_release])
      (fun _ => by rw [peers_release]) (fun _ => by rw [peers_release])
      (fun _ hio => by rwa [peers_release] at hio) (setups_release _ _) (binds_release _ _)
      (joined_release _ _) (fun v d => hkeep v _ nofun) fun v d => hkeep v _ nofun
  | @hangup w c hp =>
    have hfield {α : Type} (g : Endpoint → α) :=
      s.modify_field c (fun p => { p with rio := false, wio := false }) g
    refine h.mono (fun _ _ ha => ha) (fun _ _ ho => ho) (hfield Endpoint.thr rfl)
      (hfield Endpoint.writing rfl) (fun d hio => ?_) rfl rfl rfl
      (fun v d => handle_of_ne (s := s) nofun) fun v d => handle_of_ne (s := s) nofun
    rcases eq_or_ne d c with rfl | hdc
    · rw [peers_handle, modify_self] at hio
      cases hio
    · rwa [peers_handle, modify_of_ne s c _ hdc] at hio
  | @mark w c hp =>
    have hfield {α : Type} (g : Endpoint → α) :=
      s.modify_field c (fun p => { p with zombie := true }) g
    exact h.mono (fun _ _ ha => ha) (fun _ _ ho => ho) (hfield Endpoint.thr rfl)
      (hfield Endpoint.writing rfl) (fun d hio => (hfield Endpoint.wio rfl d).symm.trans hio)
      rfl rfl rfl (fun v d => handle_of_ne (s := s) nofun) fun v d => handle_of_ne (s := s) nofun
  | written hp => exact sound_written h hp
  | clear hp => exact sound_clear h hp
  | copyJobs hh hk hp =>
    have hsh := hc.filed.copyJobs_shrinks hp
    exact h.work (fun j _ => hsh.active j) (fun j _ => hsh.once j) rfl rfl rfl rfl rfl
  | pop hp =>
    have hsh := hc.filed.pop_shrinks hp
    exact h.work (fun j _ => hsh.active j) (fun j _ => hsh.once j) rfl rfl rfl rfl rfl
  | run hp hr => exact sound_run hc h hp hr

end Workers

end Fsock
