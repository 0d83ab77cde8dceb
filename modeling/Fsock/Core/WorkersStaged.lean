import Fsock.Core.WorkersSound

namespace Fsock

namespace Setup

variable {β : Type} {u : Setup β}

theorem plan_mem (u : Setup β) (stage : Stage) (h : stage ≠ .attach) : stage ∈ u.plan := by
  simp only [plan]
  split <;> cases stage <;> first | exact absurd rfl h | decide

theorem plan_tails {P : List Stage → Prop} (ha : ∀ l ∈ acceptStages.tails, P l)
    (hc : ∀ l ∈ connectStages.tails, P l) {stages : List Stage} (h : stages <:+ u.plan) :
    P stages := by
  rw [← List.mem_tails] at h
  simp only [plan] at h
  split at h
  · exact ha _ h
  · exact hc _ h

theorem plan_done (h : u.stages <:+ u.plan) (hn : .start ∉ u.stages) : u.stages = [] :=
  plan_tails (P := fun l => .start ∉ l → l = []) (by decide) (by decide) h hn

theorem plan_start {stages : List Stage} (h : .start :: stages <:+ u.plan) : stages = [] :=
  plan_tails (P := fun l => l.head? = some .start → l.tail = []) (by decide) (by decide) h rfl

theorem plan_publish {stages : List Stage} (h : .publish :: stages <:+ u.plan) :
    .idx ∈ stages ∧ .start ∈ stages :=
  plan_tails (P := fun l => l.head? = some .publish → .idx ∈ l.tail ∧ .start ∈ l.tail) (by decide)
    (by decide) h rfl

end Setup

namespace Workers

variable {κ β τ : Type} [DecidableEq κ] [DecidableEq β]

structure Staged (s : Workers κ β τ) : Prop where
  fresh : ∀ c, s.setups c = none → (s.peers c).thr = none ∧ c ∉ s.conns
  assigned : ∀ c u, s.setups c = some u →
    (s.peers c).thr = if .thr ∈ u.stages then none else some u.thr
  published : ∀ c u, s.setups c = some u → (c ∈ s.conns ↔ .publish ∉ u.stages)
  started : ∀ c, (s.peers c).started = true →
    ¬ s.pool.active (.thrConn c) ∧ ∃ u, s.setups c = some u ∧ u.stages = []
  watched : ∀ c, (s.peers c).rio = true ∨ (s.peers c).wio = true → (s.peers c).started = true

theorem staged_init (rcvhwm : Int) : (init rcvhwm : Workers κ β τ).Staged where
  fresh _ _ := ⟨rfl, List.not_mem_nil⟩
  assigned _ _ := nofun
  published _ _ := nofun
  started _ := nofun
  watched _ h := by rcases h with h | h <;> cases h

variable {s s' : Workers κ β τ} {l : WorkersLabel κ β τ} {loc : Place Thr → List (Job κ β)}

theorem Staged.home (h : s.Staged) {c : κ} (hs : (s.peers c).started = true) :
    ∃ w, (s.peers c).thr = some w := by
  obtain ⟨-, u, hu, hn⟩ := h.started c hs
  exact ⟨u.thr, (h.assigned c u hu).trans (if_neg (by simp [hn]))⟩

theorem Staged.mono (h : s.Staged)
    (hactive : ∀ c, s'.pool.active (.thrConn c) → s.pool.active (.thrConn c))
    (hsetups : s'.setups = s.setups) (hconns : s'.conns = s.conns)
    (hthr : ∀ c, (s'.peers c).thr = (s.peers c).thr)
    (hstarted : ∀ c, (s'.peers c).started = (s.peers c).started)
    (hwatch : ∀ c, (s'.peers c).rio = true ∨ (s'.peers c).wio = true →
      (s.peers c).started = true) : s'.Staged := by
  refine ⟨fun c hu => ?_, fun c u hu => ?_, fun c u hu => ?_, fun c hc => ?_, fun c hc => ?_⟩
  · rw [hsetups] at hu
    rw [hthr, hconns]
    exact h.fresh c hu
  · rw [hsetups] at hu
    exact (hthr c).trans (h.assigned c u hu)
  · rw [hsetups] at hu
    rw [hconns]
    exact h.published c u hu
  · rw [hstarted] at hc
    rw [hsetups]
    exact (h.started c hc).imp_left fun hn ha => hn (hactive c ha)
  · exact (hstarted c).trans (hwatch c hc)

theorem Staged.still (h : s.Staged)
    (hactive : ∀ c, s'.pool.active (.thrConn c) → s.pool.active (.thrConn c))
    (hsetups : s'.setups = s.setups) (hconns : s'.conns = s.conns) (hp : s'.peers = s.peers) :
    s'.Staged :=
  h.mono hactive hsetups hconns (fun _ => by rw [hp]) (fun _ => by rw [hp]) fun c hc =>
    h.watched c (by rwa [hp] at hc)

theorem Staged.advance {c : κ} {u x : Setup β} {stage : Stage} (hsound : s.Sound) (h : s.Staged)
    (hu : s.setups c = some u) (hs : u.stages = stage :: x.stages) (ht : x.thr = u.thr)
    (hset : s'.setups = Function.update s.setups c (some x))
    (hactive : ∀ d, s'.pool.active (.thrConn d) → s.pool.active (.thrConn d) ∨ d = c)
    (hthr : ∀ d, (s'.peers d).thr =
      if d = c ∧ stage = .thr then some u.thr else (s.peers d).thr)
    (hconns : ∀ d, d ∈ s'.conns ↔ d ∈ s.conns ∨ d = c ∧ stage = .publish)
    (hstarted : ∀ d, (s'.peers d).started = (s.peers d).started)
    (hrio : ∀ d, (s'.peers d).rio = (s.peers d).rio)
    (hwio : ∀ d, (s'.peers d).wio = (s.peers d).wio) : s'.Staged := by
  have hplan := hsound.planned c u hu
  rw [hs] at hplan
  obtain ⟨hout, -⟩ := Setup.plan_cons hplan
  have hidle : (s.peers c).started ≠ true := by
    intro hc
    obtain ⟨-, v, hv, hnil⟩ := h.started c hc
    rw [hu, Option.some.injEq] at hv
    subst hv
    simp [hs] at hnil
  refine ⟨fun d hd => ?_, fun d v hv => ?_, fun d v hv => ?_, fun d hd => ?_, fun d hd => ?_⟩
  · have hdc : d ≠ c := by
      rintro rfl
      rw [hset, Function.update_self] at hd
      cases hd
    rw [hset, Function.update_of_ne hdc] at hd
    obtain ⟨hn, hm⟩ := h.fresh d hd
    rw [hthr, hconns, if_neg fun he => hdc he.1]
    exact ⟨hn, fun he => he.elim hm fun he => hdc he.1⟩
  · rw [hthr]
    rcases update_some (hset ▸ hv) with ⟨rfl, rfl⟩ | ⟨hdc, hv⟩
    · rcases eq_or_ne stage .thr with rfl | hst
      · rw [if_pos ⟨rfl, rfl⟩, if_neg hout, ht]
      · rw [if_neg fun he => hst he.2, h.assigned d u hu, ht]
        simp only [hs, List.mem_cons, hst.symm, false_or]
    · rw [if_neg fun he => hdc he.1]
      exact h.assigned d v hv
  · rw [hconns]
    rcases update_some (hset ▸ hv) with ⟨rfl, rfl⟩ | ⟨hdc, hv⟩
    · rcases eq_or_ne stage .publish with rfl | hst
      · simp [hout]
      · rw [h.published d u hu, hs, List.mem_cons]
        simp [hst, hst.symm]
    · simpa [hdc] using h.published d v hv
  · rw [hstarted] at hd
    have hdc : d ≠ c := by
      rintro rfl
      exact hidle hd
    rw [hset, Function.update_of_ne hdc]
    exact (h.started d hd).imp_left fun hn ha => (hactive d ha).elim hn hdc
  · rw [hrio, hwio] at hd
    exact (hstarted d).trans (h.watched d hd)

theorem Staged.launch {c : κ} {u : Setup β} (h : s.Staged) (hu : s.setups c = none)
    (hp : u.stages = u.plan) (hset : s'.setups = Function.update s.setups c (some u))
    (hpool : s'.pool = s.pool) (hpeers : s'.peers = s.peers) (hconns : s'.conns = s.conns) :
    s'.Staged := by
  have hthr := u.plan_mem .thr nofun
  have hpublish := u.plan_mem .publish nofun
  obtain ⟨hnone, hout⟩ := h.fresh c hu
  have hother : ∀ {d v}, s'.setups d = some v → d = c ∧ v = u ∨ s.setups d = some v := fun hv =>
    (update_some (hset ▸ hv)).imp_right And.right
  refine ⟨fun d hd => ?_, fun d v hv => ?_, fun d v hv => ?_, fun d hd => ?_, fun d hd => ?_⟩
  · have hdc : d ≠ c := by
      rintro rfl
      rw [hset, Function.update_self] at hd
      cases hd
    rw [hset, Function.update_of_ne hdc] at hd
    rw [hpeers, hconns]
    exact h.fresh d hd
  · rw [hpeers]
    rcases hother hv with ⟨rfl, rfl⟩ | hv
    · rw [if_pos (hp ▸ hthr), hnone]
    · exact h.assigned d v hv
  · rw [hconns]
    rcases hother hv with ⟨rfl, rfl⟩ | hv
    · exact iff_of_false hout (not_not.mpr (hp ▸ hpublish))
    · exact h.published d v hv
  · rw [hpeers] at hd
    obtain ⟨hn, v, hv, hnil⟩ := h.started d hd
    have hdc : d ≠ c := by
      rintro rfl
      rw [hu] at hv
      cases hv
    rw [hpool, hset, Function.update_of_ne hdc]
    exact ⟨hn, v, hv, hnil⟩
  · rw [hpeers] at hd ⊢
    exact h.watched d hd

theorem Staged.modify {c : κ} {f : Endpoint → Endpoint} (h : s.Staged)
    (hactive : ∀ d, s'.pool.active (.thrConn d) → s.pool.active (.thrConn d))
    (hsetups : s'.setups = s.setups) (hconns : s'.conns = s.conns)
    (hpeers : s'.peers = (s.modify c f).peers) (hthr : (f (s.peers c)).thr = (s.peers c).thr)
    (hstarted : (f (s.peers c)).started = (s.peers c).started)
    (hwatch : (f (s.peers c)).rio = true ∨ (f (s.peers c)).wio = true →
      (s.peers c).started = true) : s'.Staged := by
  refine h.mono hactive hsetups hconns (fun d => ?_) (fun d => ?_) fun d hd => ?_
  · rw [hpeers]
    exact s.modify_field c f Endpoint.thr hthr d
  · rw [hpeers]
    exact s.modify_field c f Endpoint.started hstarted d
  · rw [hpeers] at hd
    rcases eq_or_ne d c with rfl | hdc
    · rw [modify_self] at hd
      exact hwatch hd
    · rw [modify_of_ne s c f hdc] at hd
      exact h.watched d hd

theorem staged_run {w : Thr} {task : Job κ β} {pool : Pool (Job κ β) Thr} (hc : s.Crewed loc)
    (hs : s.Sound) (h : s.Staged) (hp : s.pool.done w = some (task, pool))
    (hr : Ran { s with pool := pool } task s') : s'.Staged := by
  obtain ⟨hsh, hgone⟩ := hc.filed.done_shrinks hp
  obtain ⟨hw, -⟩ := hc.filed.done hp
  have hdone : Staged { s with pool := pool } := h.still (fun d => hsh.active _) rfl rfl rfl
  cases hr with
  | raw => exact hdone.still (fun _ ha => ha) rfl rfl rfl
  | stop => exact hdone.still (fun _ ha => ha) rfl rfl rfl
  | thrBind => exact hdone.still (fun _ ha => ha) rfl rfl rfl
  | startRead hst => exact hdone.modify (fun _ ha => ha) rfl rfl rfl rfl rfl fun _ => hst
  | stopRead hst => exact hdone.modify (fun _ ha => ha) rfl rfl rfl rfl rfl fun _ => hst
  | startWrite hst => exact hdone.modify (fun _ ha => ha) rfl rfl rfl rfl rfl fun _ => hst
  | @thrConn c =>
    obtain ⟨u, hu, hn⟩ := hs.owns (.thrConn c) (.inr ⟨w, hw⟩)
    have hthr := s.modify_field c (fun p => { p with started := true, rio := true, wio := false })
      Endpoint.thr rfl
    refine ⟨fun d hd => ?_, fun d v hv => (hthr d).trans (h.assigned d v hv), h.published,
      fun d hd => ?_, fun d hd => ?_⟩
    · exact ⟨(hthr d).trans (h.fresh d hd).1, (h.fresh d hd).2⟩
    · rcases eq_or_ne d c with rfl | hdc
      · exact ⟨hgone (hs.once _ rfl), u, hu, Setup.plan_done (hs.planned d u hu) hn⟩
      · rw [modify_of_ne _ c _ hdc] at hd
        exact hdone.started d hd
    · rcases eq_or_ne d c with rfl | hdc
      · rw [modify_self]
      · rw [modify_of_ne _ c _ hdc] at hd ⊢
        exact h.watched d hd

variable [DecidableEq τ]

theorem staged_issue {w : Thr} {j : Job κ β} {k : Workers κ β τ → Workers κ β τ}
    {pool : Pool (Job κ β) Thr} (hs : s.Sound) (h : s.Staged) (hi : Issue s l (some w) j k)
    (hactive : ∀ i, pool.active i → s.pool.active i ∨ i = j) :
    (k { s with pool := pool }).Staged := by
  have hother : (∀ d, j ≠ .thrConn d) → ∀ d, pool.active (.thrConn d) → s.pool.active (.thrConn d) :=
    fun hj d hd => (hactive _ hd).resolve_right fun he => hj d he.symm
  cases hi with
  | bind => exact h.still (hother nofun) rfl rfl rfl
  | join => exact h.still (hother nofun) rfl rfl rfl
  | @insert t c =>
    exact h.modify (f := fun p => { p with writing := true }) (hother nofun) rfl rfl rfl rfl rfl
      (h.watched c)
  | @start c u stages hu hst =>
    refine h.advance hs (x := { u with stages := stages }) hu hst rfl (setups_release _ _)
      (fun d hd => ?_) (fun d => ?_) (fun d => ?_) (fun d => ?_) (fun d => ?_) fun d => ?_
    · rw [pool_release] at hd
      exact (hactive _ hd).imp_right fun he => Job.thrConn.inj he
    · rw [peers_release, if_neg fun he => by cases he.2]
      rfl
    · rw [conns_release]
      exact ⟨.inl, fun he => he.elim id fun he => by cases he.2⟩
    · rw [peers_release]
      rfl
    · rw [peers_release]
      rfl
    · rw [peers_release]
      rfl

theorem staged_step (hc : s.Crewed loc) (hs : s.Sound) (h : s.Staged) (he : Effect s l s') :
    s'.Staged := by
  have hsame : ∀ {t : Workers κ β τ}, t.pool = s.pool → t.setups = s.setups →
      t.conns = s.conns → t.peers = s.peers → t.Staged := fun hp =>
    h.still fun _ ha => by rwa [hp] at ha
  cases he with
  | @issue l w j k pool hi hk hp =>
    exact staged_issue hs h hi fun i => (hc.filed.schedule_active hp).mp
  | refuse => exact hsame rfl rfl rfl rfl
  | stray => exact hsame rfl rfl rfl rfl
  | connect hu => exact h.launch hu rfl rfl rfl rfl rfl
  | accept hu hl => exact h.launch hu rfl rfl rfl rfl rfl
  | @attach c u stages w b hu hst ho =>
    exact h.advance hs (x := { u with stages := stages }) hu hst rfl rfl (fun _ ha => .inl ha)
      (fun d => by rw [if_neg fun he => by cases he.2]; rfl) (fun d =>
        ⟨.inl, fun he => he.elim id fun he => by cases he.2⟩) (fun _ => rfl) (fun _ => rfl)
      fun _ => rfl
  | @publish c u stages hu hst hb =>
    exact h.advance hs (x := { u with stages := stages, index := s.conns.length }) hu hst rfl rfl
      (fun _ ha => .inl ha) (fun d => by rw [if_neg fun he => by cases he.2]; rfl)
      (fun d => by simp [setup]) (fun _ => rfl) (fun _ => rfl) fun _ => rfl
  | @assign c u stage stages f ha hu hst =>
    have hfield {α : Type} (g : Endpoint → α) := s.modify_field c f g
    have hkeep : (f (s.peers c)).started = (s.peers c).started ∧
        (f (s.peers c)).rio = (s.peers c).rio ∧ (f (s.peers c)).wio = (s.peers c).wio := by
      cases ha <;> exact ⟨rfl, rfl, rfl⟩
    obtain ⟨hstarted, hrio, hwio⟩ := hkeep
    refine h.advance hs (x := { u with stages := stages }) hu hst rfl rfl (fun _ ha => .inl ha)
      (fun d => ?_) (fun d => ⟨.inl, fun he => he.elim id fun he => ?_⟩) (hfield _ hstarted)
      (hfield _ hrio) (hfield _ hwio)
    · change ((s.modify c f).peers d).thr = _
      cases ha with
      | thr =>
        rcases eq_or_ne d c with rfl | hdc
        · rw [modify_self, if_pos ⟨rfl, rfl⟩]
        · rw [modify_of_ne s c _ hdc, if_neg fun he => hdc he.1]
      | fd => rw [hfield Endpoint.thr rfl, if_neg fun he => by cases he.2]
      | idx => rw [hfield Endpoint.thr rfl, if_neg fun he => by cases he.2]
    · obtain ⟨-, rfl⟩ := he
      cases ha
  | check => exact hsame rfl rfl rfl rfl
  | sent => exact hsame rfl rfl rfl rfl
  | idle => exact h
  | turn => exact hsame rfl rfl rfl rfl
  | pause => exact hsame rfl rfl rfl rfl
  | take => exact hsame rfl rfl rfl rfl
  | resume => exact hsame rfl rfl rfl rfl
  | lock => exact hsame rfl rfl rfl rfl
  | unlock => exact hsame rfl rfl rfl rfl
  | skip => exact hsame rfl rfl rfl rfl
  | null => exact hsame rfl rfl rfl rfl
  | keep => exact hsame rfl rfl rfl rfl
  | @push b c todo w pool hb hp ht hpool =>
    refine h.still (fun d hd => ?_) rfl rfl rfl
    refine ((hc.filed.schedule_active hpool).mp hd).resolve_right fun he => ?_
    have hread := Job.oneShot_read b.start c (β := β)
    rw [← he] at hread
    cases hread
  | @remove b c todo w pool hb hp ht hpool =>
    exact h.still (fun d => (hc.filed.remove_shrinks hpool).active _) rfl rfl rfl
  | @signal b w todo => exact h.still (fun _ ha => ha) rfl rfl rfl
  | free => exact hsame (pool_release _ _) (setups_release _ _) (conns_release _ _) (peers_release _ _)
  | hangup =>
    exact h.modify (f := fun p => { p with rio := false, wio := false }) (fun _ ha => ha) rfl rfl rfl
      rfl rfl fun hd => by rcases hd with hd | hd <;> cases hd
  | @mark w c =>
    exact h.modify (f := fun p => { p with zombie := true }) (fun _ ha => ha) rfl rfl rfl rfl rfl
      (h.watched c)
  | @written w c =>
    exact h.modify (f := fun p => { p with wio := false }) (fun _ ha => ha) rfl rfl rfl rfl rfl
      fun hd => h.watched c (.inl (hd.resolve_right Bool.false_ne_true))
  | @clear w c =>
    exact h.modify (f := fun p => { p with writing := false }) (fun _ ha => ha) rfl rfl rfl rfl rfl
      (h.watched c)
  | copyJobs _ _ hpool =>
    exact h.still (fun d => (hc.filed.copyJobs_shrinks hpool).active _) rfl rfl rfl
  | pop hpool => exact h.still (fun d => (hc.filed.pop_shrinks hpool).active _) rfl rfl rfl
  | run hp hr => exact staged_run hc hs h hp hr

end Workers

end Fsock
