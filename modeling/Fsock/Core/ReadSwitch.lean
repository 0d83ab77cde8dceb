import Fsock.Core.Switch
import Fsock.Core.WorkersRouted

namespace Fsock

open Transition

namespace Job

variable {κ β : Type} [DecidableEq κ]

def switches (c : κ) : Job κ β → Option Bool
  | .startRead d => if d = c then some true else none
  | .stopRead d => if d = c then some false else none
  | _ => none

theorem switches_iff {c : κ} {j : Job κ β} {b : Bool} : j.switches c = some b ↔ j = .read b c := by
  cases j <;> cases b <;> simp [switches, read]

theorem switches_none {c : κ} {j : Job κ β} (h : j.peer ≠ some c) : j.switches c = none := by
  cases hs : j.switches c with
  | none => rfl
  | some b =>
    rw [switches_iff.mp hs] at h
    exact absurd (peer_read b c) h

def reads (c : κ) (js : List (Job κ β)) : List Bool := js.filterMap (switches c)

variable {c : κ} {js : List (Job κ β)} {b : Bool} {j : Job κ β}

theorem mem_reads : b ∈ reads c js ↔ read b c ∈ js := by
  simp only [reads, List.mem_filterMap, switches_iff]
  exact ⟨fun ⟨j, hj, he⟩ => he ▸ hj, fun h => ⟨_, h, rfl⟩⟩

theorem reads_snoc_read : reads c (js ++ [.read b c]) = reads c js ++ [b] := by
  simp [reads, List.filterMap_append, switches_iff.mpr rfl]

theorem reads_snoc_none (h : j.switches c = none) : reads c (js ++ [j]) = reads c js := by
  simp [reads, List.filterMap_append, h]

variable (js) in
theorem reads_none (h : j.switches c = none) : reads c (j :: js) = reads c js :=
  List.filterMap_cons_none h

variable (js) in
theorem reads_some (h : j.switches c = some b) : reads c (j :: js) = b :: reads c js :=
  List.filterMap_cons_some h

variable (c j js) in
theorem reads_cons : reads c (j :: js) = reads c [j] ++ reads c js :=
  List.filterMap_append (l := [j])

variable [DecidableEq β]

theorem reads_erase_read : reads c (js.erase (.read b c)) = (reads c js).erase b := by
  induction js with
  | nil => rfl
  | cons j js ih =>
    rcases eq_or_ne j (.read b c) with rfl | hj
    · rw [List.erase_cons_head, reads_some _ (switches_iff.mpr rfl), List.erase_cons_head]
    · rw [List.erase_cons_tail (by simpa using hj)]
      cases hs : j.switches c with
      | none => rw [reads_none _ hs, reads_none _ hs, ih]
      | some a =>
        have hab : a ≠ b := by
          rintro rfl
          exact hj (switches_iff.mp hs)
        rw [reads_some _ hs, reads_some _ hs, ih, List.erase_cons_tail (by simpa using hab)]

theorem reads_erase_none {i : Job κ β} (hi : i.switches c = none) :
    reads c (js.erase i) = reads c js := by
  induction js with
  | nil => rfl
  | cons j js ih =>
    rcases eq_or_ne j i with rfl | hj
    · rw [List.erase_cons_head, reads_none _ hi]
    · rw [List.erase_cons_tail (by simpa using hj), reads_cons, ih, ← reads_cons]

end Job

namespace Phase

variable {κ : Type} [DecidableEq κ]

def cuts : Phase κ → κ → Bool
  | .removing d _, c => d = c
  | _, _ => false

end Phase

namespace Workers

variable {κ β τ : Type} [DecidableEq κ] [DecidableEq β]

def cut (s : Workers κ β τ) (c : κ) : Bool :=
  match s.bulk with
  | some b => b.phase.cuts c
  | none => false

def switch (s : Workers κ β τ) (loc : Place Thr → List (Job κ β)) (full : Bool) (c : κ) (w : Thr) :
    Switch where
  full := full
  on := s.on
  rio := (s.peers c).rio
  run := Job.reads c (s.pool.routine w).item
  batch := Job.reads c (loc (.batch w))
  jobs := Job.reads c (loc (.jobs w))
  visit := c ∈ s.todo
  cut := s.cut c

variable {s s' : Workers κ β τ} {l : WorkersLabel κ β τ} {loc loc' : Place Thr → List (Job κ β)}
  {full : Bool} {c : κ} {w : Thr}

omit [DecidableEq β] in
theorem cut_of_phase {b : Bulk κ} {p : Phase κ} (hb : s.bulk = some b) (hp : b.phase = p) :
    s.cut c = p.cuts c := by
  rw [cut, hb]
  exact hp ▸ rfl

omit [DecidableEq β] in
theorem tracks_still (h : (s.switch loc full c w).Tracks) (hc : s.Crewed loc) (hc' : s'.Crewed loc')
    (hp : s'.pool = s.pool) (hon : s'.on = s.on) (hio : (s'.peers c).rio = (s.peers c).rio)
    (ht : s'.todo = s.todo) (hcut : s'.cut c = s.cut c) : (s'.switch loc' full c w).Tracks := by
  obtain rfl := hc.filed.unique (hp ▸ hc'.filed)
  exact h.congr rfl hon hio (by simp [switch, hp]) rfl rfl (by simp only [switch, ht]) hcut

theorem Staged.conns (h : s.Staged) (hs : (s.peers c).started = true) : c ∈ s.conns := by
  obtain ⟨-, u, hu, hn⟩ := h.started c hs
  exact (h.published c u hu).mpr (by simp [hn])

theorem reads_idle (hc : s.Crewed loc) (hq : ∀ b, ¬ s.pool.active (.read b c)) (w : Thr) :
    Job.reads c (s.pool.routine w).item = [] ∧ Job.reads c (loc (.batch w)) = [] ∧
      Job.reads c (loc (.jobs w)) = [] := by
  have hnil : ∀ js : List (Job κ β), (∀ j ∈ js, s.pool.holds loc j w) → Job.reads c js = [] := by
    intro js hjs
    rw [List.eq_nil_iff_forall_not_mem]
    intro b hb
    exact hq b (hc.filed.active_iff.mpr ⟨w, hjs _ (Job.mem_reads.mp hb)⟩)
  refine ⟨hnil _ fun j hj => ?_, hnil _ fun j hj => .inl hj, hnil _ fun j hj => .inr (.inl hj)⟩
  cases hr : s.pool.routine w with
  | task i =>
    rw [hr] at hj
    obtain rfl := List.mem_singleton.mp hj
    exact .inr (.inr hr)
  | _ =>
    rw [hr] at hj
    cases hj

theorem Routed.unlisted (h : s.Routed loc) (hc : s.Crewed loc) (hst : s.Staged)
    (hn : c ∉ s.conns) : (∀ b, ¬ s.pool.active (.read b c)) ∧ (s.peers c).rio = false := by
  refine ⟨fun b ha => ?_, ?_⟩
  · obtain ⟨v, hv⟩ := hc.filed.active_iff.mp ha
    exact hn (h.home _ v c hv (Job.peer_read b c)).2
  · rw [← Bool.not_eq_true]
    exact fun hio => hn (hst.conns (hst.watched c (.inl hio)))

theorem tracks_begin {start : Bool} {holder : Option Thr} (hc : s.Crewed loc)
    (hc' : s'.Crewed loc') (hst : s.Staged) (hr : s.Routed loc) (hb : s.bulk = none)
    (hb' : s'.bulk = some ⟨holder, start, .locking⟩) (hp : s'.pool = s.pool)
    (hn : s'.conns = s.conns) (hio : (s'.peers c).rio = (s.peers c).rio)
    (hfull : full = true → (s.peers c).started = true) (h : (s.switch loc full c w).Tracks) :
    (s'.switch loc' full c w).Tracks := by
  obtain rfl := hc.filed.unique (hp ▸ hc'.filed)
  have ht : s'.todo = s.conns := hn ▸ todo_of_phase hb' rfl
  have hcut : s.cut c = false := by rw [cut, hb]
  have hcut' : s'.cut c = false := cut_of_phase hb' rfl
  rcases em (c ∈ s.conns) with hm | hm
  · have hflip := h.flip (b := s'.on) hcut
    simpa only [switch, hp, hio, ht, hm, hcut, hcut', decide_true] using hflip
  · obtain ⟨hidle, hoff⟩ := hr.unlisted hc hst hm
    obtain ⟨hrun, hbatch, hjobs⟩ := reads_idle hc hidle w
    refine .blank hbatch hjobs ?_ (hio.trans hoff) ?_
    · rw [← hrun, switch, hp]
    · change full = false
      rw [← Bool.not_eq_true]
      exact fun hf => hm (hst.conns (hfull hf))

theorem Routed.queued (hc : s.Crewed loc) (h : s.Routed loc) {b : Bool}
    (ht : (s.peers c).thr = some w) :
    s.pool.isinqueue (.read b c) = true ↔
      b ∈ Job.reads c (loc (.batch w)) ∨ b ∈ Job.reads c (loc (.jobs w)) := by
  rw [Job.mem_reads, Job.mem_reads, hc.filed.isinqueue_iff]
  constructor
  · rintro ⟨k, hk⟩
    have hown : ∀ {v}, s.pool.holds loc (.read b c) v → v = w := by
      intro v hv
      have hthr := (h.home _ v c hv (Job.peer_read b c)).1
      rw [ht, Option.some.injEq] at hthr
      exact hthr.symm
    cases k with
    | batch v => exact .inl (hown (.inl hk) ▸ hk)
    | jobs v => exact .inr (hown (.inr (.inl hk)) ▸ hk)
  · rintro (hk | hk)
    · exact ⟨_, hk⟩
    · exact ⟨_, hk⟩

omit [DecidableEq β] in
theorem tracks_pushing {b : Bulk κ} {d : κ} {todo : List κ} (hb : s.bulk = some b) (hp : b.phase = .pushing (d :: todo))
    (hb' : s'.bulk = some { b with phase := .removing d todo }) (hreading : s'.reading = s.reading)
    (hio : s'.peers = s.peers) (hroutine : s'.pool.routine = s.pool.routine)
    (hbatch : loc' (.batch w) = loc (.batch w))
    (hjobs : d ≠ c → Job.reads c (loc' (.jobs w)) = Job.reads c (loc (.jobs w)))
    (hself : d = c → (s.switch loc full c w).cut = false →
      Switch.Tracks { s.switch loc full c w with
        jobs := Job.reads c (loc' (.jobs w))
        visit := c ∈ todo
        cut := true }) (h : (s.switch loc full c w).Tracks) :
    (s'.switch loc' full c w).Tracks := by
  have hon : s'.on = s.on := by rw [on, on, hreading]
  have hrio : (s'.peers c).rio = (s.peers c).rio := by rw [hio]
  have hrun : Job.reads c (s'.pool.routine w).item = Job.reads c (s.pool.routine w).item := by
    rw [hroutine]
  have hreads : Job.reads c (loc' (.batch w)) = Job.reads c (loc (.batch w)) := by rw [hbatch]
  have hcut : s.cut c = false := cut_of_phase hb hp
  have ht : s.todo = d :: todo := todo_of_phase hb hp
  have ht' : s'.todo = todo := todo_of_phase hb' rfl
  have hcut' : s'.cut c = decide (d = c) := cut_of_phase hb' rfl
  rcases eq_or_ne d c with rfl | hdc
  · have hnew := hself rfl hcut
    simpa only [switch, hroutine, hbatch, hon, hio, ht', hcut', decide_true] using hnew
  · exact h.congr rfl hon hrio hrun hreads (hjobs hdc) (by simp [switch, ht, ht', hdc.symm])
      (by simp [switch, hcut, hcut', hdc])

omit [DecidableEq β] in
theorem tracks_removing {b : Bulk κ} {d : κ} {todo : List κ}
    (hb : s.bulk = some b) (hp : b.phase = .removing d todo)
    (hb' : s'.bulk = some { b with phase := .pushing todo }) (hreading : s'.reading = s.reading)
    (hio : s'.peers = s.peers) (hroutine : s'.pool.routine = s.pool.routine)
    (hbatch : loc' (.batch w) = loc (.batch w))
    (hjobs : d ≠ c → Job.reads c (loc' (.jobs w)) = Job.reads c (loc (.jobs w)))
    (hself : d = c → (s.switch loc full c w).cut = true →
      Switch.Tracks { s.switch loc full c w with
        jobs := Job.reads c (loc' (.jobs w))
        cut := false }) (h : (s.switch loc full c w).Tracks) :
    (s'.switch loc' full c w).Tracks := by
  have hon : s'.on = s.on := by rw [on, on, hreading]
  have hrio : (s'.peers c).rio = (s.peers c).rio := by rw [hio]
  have hrun : Job.reads c (s'.pool.routine w).item = Job.reads c (s.pool.routine w).item := by
    rw [hroutine]
  have hreads : Job.reads c (loc' (.batch w)) = Job.reads c (loc (.batch w)) := by rw [hbatch]
  have hcut : s.cut c = decide (d = c) := cut_of_phase hb hp
  have ht : s.todo = todo := todo_of_phase hb hp
  have ht' : s'.todo = todo := todo_of_phase hb' rfl
  have hcut' : s'.cut c = false := cut_of_phase hb' rfl
  rcases eq_or_ne d c with rfl | hdc
  · have hnew := hself rfl (hcut.trans (decide_eq_true rfl))
    simpa only [switch, hroutine, hbatch, hon, hio, ht, ht', hcut'] using hnew
  · exact h.congr rfl hon hrio hrun hreads (hjobs hdc) (by simp [switch, ht, ht'])
      (by simp [switch, hcut, hcut', hdc])

omit [DecidableEq β] in
theorem cut_of_unlocked (hk : s.locked = false) : s.cut c = false := by
  rw [cut]
  split
  case h_2 => rfl
  case h_1 b hb =>
    obtain ⟨holder, start, p⟩ := b
    cases p with
    | removing d todo =>
      rw [locked, hb] at hk
      cases hk
    | _ => rfl

omit [DecidableEq β] in
theorem tracks_copyJobs {v : Thr} {pool : Pool (Job κ β) Thr} (hc : s.Crewed loc)
    (hf : pool.Filed loc') (hk : s.locked = false) (hp : s.pool.copyJobs v = some pool)
    (h : (s.switch loc full c w).Tracks) :
    (Workers.switch { s with pool := pool } loc' full c w).Tracks := by
  obtain ⟨hwait, hf', hr, -⟩ := hc.filed.copyJobs hp
  obtain rfl := hf'.unique hf
  rcases eq_or_ne w v with rfl | hwv
  · have hcopy := h.copy (cut_of_unlocked hk) (by rw [switch, hc.filed.idle w hwait]; rfl)
    have hrun : Job.reads c (pool.routine w).item = Job.reads c (s.pool.routine w).item := by
      rw [hr, hwait, Function.update_self]
      rfl
    exact hcopy.congr rfl rfl rfl hrun (by simp [switch]) (by simp [switch, Job.reads]) rfl rfl
  · exact h.congr rfl rfl rfl (by simp [switch, hr, hwv]) (by simp [switch, hwv])
      (by simp [switch, hwv]) rfl rfl

theorem tracks_pop {v : Thr} {pool : Pool (Job κ β) Thr} (hc : s.Crewed loc)
    (hf : pool.Filed loc') (hp : s.pool.pop v (.stop v) = some pool)
    (hgo : (pool.routine w).stopping = false) (h : (s.switch loc full c w).Tracks) :
    (Workers.switch { s with pool := pool } loc' full c w).Tracks := by
  obtain ⟨r, rest, hpop, hf', hr, -⟩ := hc.filed.pop hp
  obtain rfl := hf'.unique hf
  rcases eq_or_ne w v with rfl | hwv
  · rw [hr, Function.update_self] at hgo
    have hmove : Job.reads c r.item ++ Job.reads c rest =
          Job.reads c (s.pool.routine w).item ++ Job.reads c (loc (.batch w)) →
        (Job.reads c rest).length ≤ (Job.reads c (loc (.batch w))).length →
        (Workers.switch { s with pool := pool } (Function.update loc (.batch w) rest) full c
          w).Tracks := by
      intro hsame hlen
      have hnext := h.pop hsame hlen
      exact hnext.congr rfl rfl rfl (by simp [switch, hr]) (by simp [switch]) (by simp [switch]) rfl
        rfl
    cases hpop with
    | drained hroutine hl => exact hmove (by rw [hroutine, hl]; rfl) (by rw [hl])
    | @task item rest hroutine hl hi =>
      refine hmove ?_ ?_
      · rw [hroutine, hl, Job.reads_cons c rest item]
        rfl
      · rw [hl, Job.reads_cons, List.length_append]
        exact Nat.le_add_left _ _
    | stop => cases hgo
    | flush => cases hgo
    | exit => cases hgo
  · exact h.congr rfl rfl rfl (by simp [switch, hr, hwv]) (by simp [switch, hwv]) (by simp [switch])
      rfl rfl

theorem tracks_run {v : Thr} {task : Job κ β} {pool : Pool (Job κ β) Thr} (hc : s.Crewed loc)
    (hc' : s'.Crewed loc') (hrout : s.Routed loc) (hp : s.pool.done v = some (task, pool))
    (hr : Ran { s with pool := pool } task s') (ht : (s.peers c).thr = some w)
    (hf : s'.fault = none ∨ (s.peers c).started = true)
    (hlate : task = .thrConn c → s.on = true ∨ s.pool.isinqueue (.stopRead c) = true ∨ c ∈ s.todo)
    (h : (s.switch loc full c w).Tracks) : (s'.switch loc' full c w).Tracks := by
  obtain ⟨hv, hfiled, hroutine, -⟩ := hc.filed.done hp
  have hpool := hr.frame.1
  change s'.pool = pool at hpool
  have hloc := hc'.filed
  rw [hpool] at hloc
  obtain rfl := hfiled.unique hloc
  have hsame : s'.on = s.on ∧ s'.todo = s.todo ∧ s'.cut c = s.cut c := by
    cases hr <;> exact ⟨rfl, rfl, rfl⟩
  obtain ⟨hon, htodo, hcut⟩ := hsame
  have hhome : task.peer = some c → v = w := by
    intro hpeer
    have hthr := (hrout.home task v c (.inr (.inr hv)) hpeer).1
    rw [ht, Option.some.injEq] at hthr
    exact hthr.symm
  have hafter : v = w → Job.reads c (s'.pool.routine w).item = [] := by
    rintro rfl
    rw [hpool, hroutine, Function.update_self]
    rfl
  have hrun : task.switches c = none →
      Job.reads c (s'.pool.routine w).item = Job.reads c (s.pool.routine w).item := by
    intro hn
    rcases eq_or_ne v w with rfl | hvw
    · rw [hafter rfl, hv]
      exact (Job.reads_none [] hn).symm
    · rw [hpool, hroutine, Function.update_of_ne hvw.symm]
  have hother : task.switches c = none → (s'.peers c).rio = (s.peers c).rio →
      (s'.switch loc full c w).Tracks := fun hn hio =>
    h.congr rfl hon hio (hrun hn) rfl rfl (by simp only [switch, htodo]) hcut
  have hread : ∀ {b : Bool}, task = .read b c → (s'.peers c).rio = b →
      (s'.switch loc full c w).Tracks := by
    rintro b rfl hio
    obtain rfl := hhome (Job.peer_read b c)
    have hnext := h.run (b := b) (by
      rw [switch, hv]
      exact Job.reads_some [] (Job.switches_iff.mpr rfl))
    exact hnext.congr rfl hon hio (hafter rfl) rfl rfl (by simp only [switch, htodo]) hcut
  cases hr with
  | @raw j d hj hs =>
    have hdc : d ≠ c := by
      rintro rfl
      rcases hf with hf | hf
      · cases hf
      · change (s.peers d).started = false at hs
        rw [hf] at hs
        cases hs
    refine hother (Job.switches_none ?_) rfl
    rcases hj with rfl | rfl | rfl
    all_goals simpa [Job.peer] using hdc
  | @startRead d hs =>
    rcases eq_or_ne d c with rfl | hdc
    · exact hread (b := true) rfl (by rw [modify_self])
    · exact hother (if_neg hdc) (by rw [modify_of_ne _ d _ hdc.symm])
  | @stopRead d hs =>
    rcases eq_or_ne d c with rfl | hdc
    · exact hread (b := false) rfl (by rw [modify_self])
    · exact hother (if_neg hdc) (by rw [modify_of_ne _ d _ hdc.symm])
  | @startWrite d hs =>
    exact hother rfl (modify_field _ d (fun p => { p with wio := true }) Endpoint.rio rfl c)
  | thrBind => exact hother rfl rfl
  | @thrConn d =>
    rcases eq_or_ne d c with rfl | hdc
    · have hnext := h.connect ((hlate rfl).imp_right fun hq => hq.symm.imp decide_eq_true
        (hrout.queued hc (b := false) ht).mp)
      exact hnext.congr rfl hon (by rw [switch, modify_self]) (hrun rfl) rfl rfl
        (by simp only [switch, htodo]) hcut
    · exact hother rfl (by rw [modify_of_ne _ d _ hdc.symm])
  | stop => exact hother rfl rfl

variable [DecidableEq τ]

theorem tracks_issue {v : Thr} {j : Job κ β} {k : Workers κ β τ → Workers κ β τ}
    {pool : Pool (Job κ β) Thr} (hc : s.Crewed loc)
    (hc' : Crewed (k { s with pool := pool.scheduleTaskSignal v }) loc')
    (hi : Issue s l (some v) j k) (hp : s.pool.scheduleTaskUnsafe v j = some pool)
    (h : (s.switch loc full c w).Tracks) :
    (Workers.switch (k { s with pool := pool.scheduleTaskSignal v }) loc' full c w).Tracks := by
  obtain ⟨-, hf, hr, -⟩ := hc.filed.schedule hp
  have hj : j.switches c = none := by cases hi <;> rfl
  obtain ⟨hpool, -⟩ := hi.frame { s with pool := pool.scheduleTaskSignal v }
  have hf' := hc'.filed
  rw [hpool] at hf'
  obtain rfl := hf.unique (p := pool) ⟨hf'.family, hf'.idle, hf'.owed⟩
  have hrun : Job.reads c (((k { s with pool := pool.scheduleTaskSignal v }).pool.routine w).item) =
      Job.reads c (s.pool.routine w).item := by
    rw [hpool]
    exact congrArg (fun r => Job.reads c (Routine.item r)) (congrFun hr w)
  have hjobs : Job.reads c (Function.update loc (.jobs v) (loc (.jobs v) ++ [j]) (.jobs w)) =
      Job.reads c (loc (.jobs w)) := by
    rcases eq_or_ne w v with rfl | hwv
    · rw [Function.update_self, Job.reads_snoc_none hj]
    · simp [hwv]
  obtain ⟨-, hbulk, -⟩ := hi.frame { s with pool := pool.scheduleTaskSignal v }
  obtain ⟨hreading, hconns, hrio⟩ := hi.reads { s with pool := pool.scheduleTaskSignal v }
  have htodo : (k { s with pool := pool.scheduleTaskSignal v }).todo = s.todo :=
    todo_congr hbulk hconns
  refine h.congr rfl ?_ (hrio c) hrun (by simp [switch]) hjobs (by simp only [switch, htodo]) ?_
  · simp only [switch, on, hreading]
  · simp only [switch, cut, hbulk]

theorem tracks_step (hc : s.Crewed loc) (hc' : s'.Crewed loc') (hst : s.Staged)
    (hrout : s.Routed loc) (he : Effect s l s') (ht : (s.peers c).thr = some w)
    (hgo : (s'.pool.routine w).stopping = false)
    (hfull : full = true →
      (s.peers c).started = true ∧ ∀ v, s'.handlers v ≠ .mark c)
    (hf : s'.fault = none ∨ (s.peers c).started = true)
    (hlate : l = .run w → s.pool.routine w = .task (.thrConn c) →
      s.on = true ∨ s.pool.isinqueue (.stopRead c) = true ∨ c ∈ s.todo)
    (h : (s.switch loc full c w).Tracks) : (s'.switch loc' full c w).Tracks := by
  cases he with
  | issue hi hk hp => exact tracks_issue hc hc' hi hp h
  | publish hu hs hb =>
    exact tracks_still h hc hc' rfl rfl rfl (by simp [Workers.todo, setup, hb]) rfl
  | @assign d u stage stages f ha hu hs =>
    have hrio : (f (s.peers d)).rio = (s.peers d).rio := by cases ha <;> rfl
    exact tracks_still h hc hc' rfl rfl (s.modify_field d f Endpoint.rio hrio c) rfl rfl
  | pause hp hb =>
    exact tracks_begin hc hc' hst hrout hb rfl rfl rfl rfl (fun hf => (hfull hf).1) h
  | resume hb =>
    exact tracks_begin hc hc' hst hrout hb rfl rfl rfl rfl (fun hf => (hfull hf).1) h
  | lock hb hp =>
    refine tracks_still h hc hc' rfl rfl rfl ?_ ?_
    · rw [todo_of_phase hb hp]
      rfl
    · rw [cut_of_phase hb hp]
      rfl
  | unlock hb hp =>
    refine tracks_still h hc hc' rfl rfl rfl ?_ ?_
    · rw [todo_of_phase hb hp]
      rfl
    · rw [cut_of_phase hb hp]
      rfl
  | @skip b d todo hb hp hq =>
    obtain rfl := hc.filed.unique hc'.filed
    refine tracks_pushing hb hp rfl rfl rfl rfl rfl (fun _ => rfl) ?_ h
    rintro rfl hcut
    rw [hrout.aimed b hb, hrout.queued hc ht] at hq
    refine h.skip hcut ?_ hq
    intro a hbatch hjobs
    exact hc.filed.family.distinct (.batch w) (.jobs w) (by simp) (Job.mem_reads.mp hbatch)
      (Job.mem_reads.mp hjobs)
  | @push b d todo v pool hb hp htd hs =>
    obtain ⟨hq, hfiled, hr, -⟩ := hc.filed.schedule hs
    obtain rfl := hfiled.unique hc'.filed
    refine tracks_pushing hb hp rfl rfl rfl hr (by simp) (fun hdc => ?_) ?_ h
    · rcases eq_or_ne w v with rfl | hwv
      · rw [Function.update_self, Job.reads_snoc_none (Job.switches_none (by simpa using hdc))]
      · simp [hwv]
    · rintro rfl hcut
      rw [ht, Option.some.injEq] at htd
      subst htd
      rw [← Bool.not_eq_true, hrout.queued hc ht, hrout.aimed b hb, not_or] at hq
      rw [Function.update_self, Job.reads_snoc_read, hrout.aimed b hb]
      exact h.push hcut hq.2
  | @keep b d todo hb hp hq =>
    obtain rfl := hc.filed.unique hc'.filed
    refine tracks_removing hb hp rfl rfl rfl rfl rfl (fun _ => rfl) ?_ h
    rintro rfl hcut
    rw [← Bool.not_eq_true, hrout.queued hc ht, hrout.aimed b hb, not_or] at hq
    exact h.keep hcut hq.2
  | @remove b d todo v pool hb hp htd hs =>
    obtain ⟨hfiled, hr, -⟩ := hc.filed.remove hs
    obtain rfl := hfiled.unique hc'.filed
    refine tracks_removing hb hp rfl rfl rfl hr (by simp) (fun hdc => ?_) ?_ h
    · rcases eq_or_ne w v with rfl | hwv
      · rw [Function.update_self, Job.reads_erase_none (Job.switches_none (by simpa using hdc))]
      · simp [hwv]
    · rintro rfl hcut
      rw [ht, Option.some.injEq] at htd
      subst htd
      rw [Function.update_self, Job.reads_erase_read, hrout.aimed b hb]
      exact h.remove hcut
  | @signal b v todo hb hp =>
    have hfiled := hc'.filed
    obtain rfl := hc.filed.unique (p := s.pool) ⟨hfiled.family, hfiled.idle, hfiled.owed⟩
    refine h.congr rfl rfl rfl rfl rfl rfl ?_ ?_
    · simp only [switch, todo_of_phase hb hp]
      rfl
    · exact (cut_of_phase hb hp).symm
  | @free b hb hp =>
    refine tracks_still h hc hc' (pool_release _ _) ?_ (by rw [peers_release]) ?_ ?_
    · rw [on, on, reading_release]
    · rw [todo_of_phase hb hp, Workers.todo, bulk_release]
      rfl
    · rw [cut_of_phase hb hp, cut, bulk_release]
      rfl
  | @hangup v d hp =>
    rcases eq_or_ne c d with rfl | hcd
    · have hdead : full = false := by
        rw [← Bool.not_eq_true]
        exact fun hf => (hfull hf).2 v (Function.update_self ..)
      obtain rfl := hc.filed.unique hc'.filed
      exact h.hangup.congr hdead rfl (by rw [switch, peers_handle, modify_self]) rfl rfl rfl rfl rfl
    · exact tracks_still h hc hc' rfl rfl (by rw [peers_handle, modify_of_ne s d _ hcd]) rfl rfl
  | @mark v d hp =>
    exact tracks_still h hc hc' rfl rfl (s.modify_field d (fun p => { p with zombie := true })
      Endpoint.rio rfl c) rfl rfl
  | @written v d hp =>
    exact tracks_still h hc hc' rfl rfl (s.modify_field d (fun p => { p with wio := false })
      Endpoint.rio rfl c) rfl rfl
  | @clear v d hp =>
    exact tracks_still h hc hc' rfl rfl (s.modify_field d (fun p => { p with writing := false })
      Endpoint.rio rfl c) rfl rfl
  | copyJobs hh hk hp => exact tracks_copyJobs hc hc'.filed hk hp h
  | pop hp => exact tracks_pop hc hc'.filed hp hgo h
  | @run v task pool _ hp hr =>
    refine tracks_run hc hc' hrout hp hr ht hf ?_ h
    rintro rfl
    obtain ⟨hv, -⟩ := hc.filed.done hp
    have hthr := (hrout.home _ v c (.inr (.inr hv)) rfl).1
    rw [ht, Option.some.injEq] at hthr
    subst hthr
    exact hlate rfl hv
  | _ => exact tracks_still h hc hc' rfl rfl rfl rfl rfl

end Workers

end Fsock
