import Fsock.Utils.Thread

namespace Fsock

namespace Pool

variable {ι ω : Type} [DecidableEq ι]

def active (p : Pool ι ω) (j : ι) : Prop := p.isinqueue j = true ∨ ∃ w, p.routine w = .task j

instance [Fintype ω] (p : Pool ι ω) (j : ι) : Decidable (p.active j) :=
  inferInstanceAs (Decidable (_ ∨ _))

def holds (p : Pool ι ω) (loc : Place ω → List ι) (j : ι) (w : ω) : Prop :=
  j ∈ loc (.batch w) ∨ j ∈ loc (.jobs w) ∨ p.routine w = .task j

structure Once (p : Pool ι ω) (j : ι) : Prop where
  apart : p.isinqueue j = true → ∀ w, p.routine w ≠ .task j
  single : ∀ v w, p.routine v = .task j → p.routine w = .task j → v = w

structure Shrinks (p p' : Pool ι ω) : Prop where
  active : ∀ j, p'.active j → p.active j
  once : ∀ j, p.Once j → p'.Once j

theorem not_active_init (j : ι) : ¬ (init : Pool ι ω).active j := by
  rintro (h | ⟨w, h⟩)
  · simp [isinqueue, init] at h
  · cases h

theorem once_init (j : ι) : (init : Pool ι ω).Once j :=
  ⟨fun h => absurd (.inl h) (not_active_init j), nofun⟩

variable {p p' : Pool ι ω} {loc : Place ω → List ι} {w : ω} {i j stop : ι}

omit [DecidableEq ι] in
theorem Filed.unique {loc' : Place ω → List ι} (h : p.Filed loc) (h' : p.Filed loc') :
    loc = loc' := by
  funext k
  exact Segment.seg_unique (fun _ _ he => Link.item.inj he) nofun (h.family.lists k).forward
    (h'.family.lists k).forward

theorem Filed.active_iff (h : p.Filed loc) : p.active j ↔ ∃ w, p.holds loc j w := by
  rw [active, h.isinqueue_iff]
  constructor
  · rintro (⟨k, hk⟩ | ⟨w, hw⟩)
    · cases k with
      | jobs w => exact ⟨w, .inr (.inl hk)⟩
      | batch w => exact ⟨w, .inl hk⟩
    · exact ⟨w, .inr (.inr hw)⟩
  · rintro ⟨w, hw | hw | hw⟩
    · exact .inl ⟨_, hw⟩
    · exact .inl ⟨_, hw⟩
    · exact .inr ⟨w, hw⟩

theorem shrinks_of_task (hq : ∀ j, p'.isinqueue j = true → p.isinqueue j = true)
    (hr : ∀ j v, p'.routine v = .task j → p.routine v = .task j) : p.Shrinks p' where
  active j h := h.imp (hq j) fun ⟨v, hv⟩ => ⟨v, hr j v hv⟩
  once j h := ⟨fun hj v hv => h.apart (hq j hj) v (hr j v hv),
    fun u v hu hv => h.single u v (hr j u hu) (hr j v hv)⟩

variable [DecidableEq ω]

theorem Filed.schedule_queued (h : p.Filed loc) (hs : p.scheduleTaskUnsafe w i = some p') :
    p'.isinqueue j = true ↔ p.isinqueue j = true ∨ j = i := by
  obtain ⟨-, h', -⟩ := h.schedule hs
  rw [h.isinqueue_iff, h'.isinqueue_iff]
  constructor
  · rintro ⟨k, hk⟩
    rcases eq_or_ne k (.jobs w) with rfl | hkw
    · rw [Function.update_self, List.mem_append, List.mem_singleton] at hk
      exact hk.imp_left fun hj => ⟨_, hj⟩
    · rw [Function.update_of_ne hkw] at hk
      exact .inl ⟨k, hk⟩
  · rintro (⟨k, hk⟩ | rfl)
    · rcases eq_or_ne k (.jobs w) with rfl | hkw
      · exact ⟨.jobs w, by simp [hk]⟩
      · exact ⟨k, by simpa [hkw] using hk⟩
    · exact ⟨.jobs w, by simp⟩

theorem Filed.schedule_active (h : p.Filed loc) (hs : p.scheduleTaskUnsafe w i = some p') :
    p'.active j ↔ p.active j ∨ j = i := by
  rw [active, active, h.schedule_queued hs, (h.schedule hs).2.2.1, or_right_comm]

theorem Filed.schedule_once (h : p.Filed loc) (hs : p.scheduleTaskUnsafe w i = some p')
    (ho : p.Once j) (hi : j = i → ¬ p.active i) : p'.Once j := by
  have hr := (h.schedule hs).2.2.1
  refine ⟨fun hj v hv => ?_, by rw [hr]; exact ho.single⟩
  rw [hr] at hv
  rcases (h.schedule_queued hs).mp hj with hj | rfl
  · exact ho.apart hj v hv
  · exact hi rfl (.inr ⟨v, hv⟩)

theorem Filed.remove_shrinks (h : p.Filed loc) (hs : p.remove w i = some p') : p.Shrinks p' := by
  obtain ⟨h', hr, -⟩ := h.remove hs
  refine shrinks_of_task (fun j => ?_) fun j v hv => by rwa [hr] at hv
  rw [h.isinqueue_iff, h'.isinqueue_iff]
  rintro ⟨k, hk⟩
  rcases eq_or_ne k (.jobs w) with rfl | hkw
  · rw [Function.update_self] at hk
    exact ⟨_, List.mem_of_mem_erase hk⟩
  · rw [Function.update_of_ne hkw] at hk
    exact ⟨k, hk⟩

theorem Filed.copyJobs_shrinks (h : p.Filed loc) (hs : p.copyJobs w = some p') :
    p.Shrinks p' := by
  obtain ⟨-, h', hr, -⟩ := h.copyJobs hs
  refine shrinks_of_task (fun j => ?_) fun j v hv => ?_
  · rw [h.isinqueue_iff, h'.isinqueue_iff]
    rintro ⟨k, hk⟩
    rcases eq_or_ne k (.jobs w) with rfl | hkj
    · simp at hk
    · rw [Function.update_of_ne hkj] at hk
      rcases eq_or_ne k (.batch w) with rfl | hkb
      · rw [Function.update_self] at hk
        exact ⟨_, hk⟩
      · rw [Function.update_of_ne hkb] at hk
        exact ⟨k, hk⟩
  · rw [hr] at hv
    rcases eq_or_ne v w with rfl | hvw
    · simp at hv
    · rwa [Function.update_of_ne hvw] at hv

theorem Filed.schedule_holds {v : ω} (h : p.Filed loc) {loc' : Place ω → List ι}
    (h' : p'.Filed loc') (hs : p.scheduleTaskUnsafe w i = some p') (hj : p'.holds loc' j v) :
    p.holds loc j v ∨ j = i ∧ v = w := by
  obtain ⟨-, hf, hr, -⟩ := h.schedule hs
  obtain rfl := hf.unique h'
  rw [holds, hr] at hj
  rcases eq_or_ne v w with rfl | hvw
  · rcases hj with hj | hj | hj
    · exact .inl (.inl (by simpa using hj))
    · rw [Function.update_self, List.mem_append, List.mem_singleton] at hj
      exact hj.imp (fun hj => .inr (.inl hj)) fun hj => ⟨hj, rfl⟩
    · exact .inl (.inr (.inr hj))
  · exact .inl (by simpa [holds, hvw] using hj)

theorem Filed.remove_holds {v : ω} (h : p.Filed loc) {loc' : Place ω → List ι}
    (h' : p'.Filed loc') (hs : p.remove w i = some p') (hj : p'.holds loc' j v) :
    p.holds loc j v := by
  obtain ⟨hf, hr, -⟩ := h.remove hs
  obtain rfl := hf.unique h'
  rw [holds, hr] at hj
  rcases hj with hj | hj | hj
  · exact .inl (by simpa using hj)
  · rcases eq_or_ne v w with rfl | hvw
    · rw [Function.update_self] at hj
      exact .inr (.inl (List.mem_of_mem_erase hj))
    · exact .inr (.inl (by simpa [hvw] using hj))
  · exact .inr (.inr hj)

omit [DecidableEq ι] in
theorem Filed.copyJobs_holds {v : ω} (h : p.Filed loc) {loc' : Place ω → List ι}
    (h' : p'.Filed loc') (hs : p.copyJobs w = some p') (hj : p'.holds loc' j v) :
    p.holds loc j v := by
  obtain ⟨-, hf, hr, -⟩ := h.copyJobs hs
  obtain rfl := hf.unique h'
  rw [holds, hr] at hj
  rcases eq_or_ne v w with rfl | hvw
  · exact .inr (.inl (by simpa using hj))
  · simpa [holds, hvw] using hj

theorem Filed.pop_holds {v : ω} (h : p.Filed loc) {loc' : Place ω → List ι}
    (h' : p'.Filed loc') (hs : p.pop w stop = some p') (hj : p'.holds loc' j v) :
    p.holds loc j v := by
  obtain ⟨r, rest, hp, hf, hr, -⟩ := h.pop hs
  obtain rfl := hf.unique h'
  rw [holds, hr] at hj
  rcases eq_or_ne v w with rfl | hvw
  · rcases hj with hj | hj | hj
    · rw [Function.update_self] at hj
      cases hp with
      | drained | exit => cases hj
      | task _ hl | stop _ hl | flush _ hl => exact .inl (by simp [hl, hj])
    · exact .inr (.inl (by simpa using hj))
    · rw [Function.update_self] at hj
      cases hp with
      | drained | exit | stop | flush => cases hj
      | task _ hl =>
        obtain rfl := Routine.task.inj hj
        exact .inl (by simp [hl])
  · simpa [holds, hvw] using hj

omit [DecidableEq ι] in
theorem Filed.done_holds {v : ω} (h : p.Filed loc) {loc' : Place ω → List ι}
    (h' : p'.Filed loc') (hs : p.done w = some (i, p')) (hj : p'.holds loc' j v) :
    p.holds loc j v := by
  obtain ⟨-, hf, hr, -⟩ := h.done hs
  obtain rfl := hf.unique h'
  refine hj.imp_right fun hj => hj.imp_right fun hj => ?_
  rcases eq_or_ne v w with rfl | hvw
  · rw [hr, Function.update_self] at hj
    cases hj
  · rwa [hr, Function.update_of_ne hvw] at hj

theorem Filed.rest_queued {rest : List ι} (h : p.Filed loc)
    (h' : p'.Filed (Function.update loc (.batch w) rest)) (hr : ∀ j ∈ rest, j ∈ loc (.batch w))
    (hj : p'.isinqueue j = true) : p.isinqueue j = true := by
  obtain ⟨k, hk⟩ := h'.isinqueue_iff.mp hj
  refine h.isinqueue_iff.mpr ⟨k, ?_⟩
  rcases eq_or_ne k (.batch w) with rfl | hkw
  · rw [Function.update_self] at hk
    exact hr j hk
  · rwa [Function.update_of_ne hkw] at hk

theorem Filed.popped_unqueued {rest : List ι} (h : p.Filed loc)
    (h' : p'.Filed (Function.update loc (.batch w) rest)) (hl : loc (.batch w) = i :: rest) :
    p'.isinqueue i = false := by
  rw [← Bool.not_eq_true, h'.isinqueue_iff]
  rintro ⟨k, hk⟩
  have hnodup := (h.family.lists (.batch w)).nodup
  rw [hl] at hnodup
  rcases eq_or_ne k (.batch w) with rfl | hkw
  · rw [Function.update_self] at hk
    exact (List.nodup_cons.mp hnodup).1 hk
  · rw [Function.update_of_ne hkw] at hk
    exact hkw (h.family.same_place hk (by simp [hl]))

theorem Filed.pop_shrinks (h : p.Filed loc) (hs : p.pop w stop = some p') : p.Shrinks p' := by
  obtain ⟨r, rest, hp, h', hr, -⟩ := h.pop hs
  have hother : ∀ j v, v ≠ w → p'.routine v = .task j → p.routine v = .task j := by
    intro j v hvw hv
    rwa [hr, Function.update_of_ne hvw] at hv
  have hquiet : (∀ j ∈ rest, j ∈ loc (.batch w)) → (∀ j, r ≠ .task j) → p.Shrinks p' := by
    intro hrest htask
    refine shrinks_of_task (fun j => h.rest_queued h' hrest) fun j v hv => ?_
    rcases eq_or_ne v w with rfl | hvw
    · rw [hr, Function.update_self] at hv
      exact absurd hv (htask j)
    · exact hother j v hvw hv
  cases hp with
  | drained _ hl => exact hquiet (by simp) nofun
  | exit _ hl => exact hquiet (by simp) nofun
  | stop _ hl => exact hquiet (by simp +contextual [hl]) nofun
  | flush _ hl => exact hquiet (by simp +contextual [hl]) nofun
  | @task item _ _ hl =>
    have hrest : ∀ j ∈ rest, j ∈ loc (.batch w) := by simp +contextual [hl]
    have hitem : p.isinqueue item = true := h.isinqueue_iff.mpr ⟨.batch w, by simp [hl]⟩
    have hgone := h.popped_unqueued h' hl
    have hself : ∀ j, p'.routine w = .task j → j = item := by
      intro j hj
      rw [hr, Function.update_self, Routine.task.injEq] at hj
      exact hj.symm
    refine ⟨fun j hj => ?_, fun j ho => ⟨fun hj v hv => ?_, fun u v hu hv => ?_⟩⟩
    · rcases hj with hj | ⟨v, hv⟩
      · exact .inl (h.rest_queued h' hrest hj)
      · rcases eq_or_ne v w with rfl | hvw
        · rw [hself j hv]
          exact .inl hitem
        · exact .inr ⟨v, hother j v hvw hv⟩
    · rcases eq_or_ne v w with rfl | hvw
      · rw [hself j hv, hgone] at hj
        cases hj
      · exact ho.apart (h.rest_queued h' hrest hj) v (hother j v hvw hv)
    · rcases eq_or_ne u w with rfl | huw <;> rcases eq_or_ne v u with rfl | hvu
      · rfl
      · obtain rfl := hself j hu
        exact absurd (hother j v hvu hv) (ho.apart hitem v)
      · rfl
      · rcases eq_or_ne v w with rfl | hvw
        · obtain rfl := hself j hv
          exact absurd (hother j u huw hu) (ho.apart hitem u)
        · exact ho.single u v (hother j u huw hu) (hother j v hvw hv)

theorem Filed.done_shrinks (h : p.Filed loc) (hs : p.done w = some (i, p')) :
    p.Shrinks p' ∧ (p.Once i → ¬ p'.active i) := by
  obtain ⟨hw, h', hr, -⟩ := h.done hs
  have hq : ∀ j, p'.isinqueue j = true → p.isinqueue j = true := by
    intro j hj
    rwa [h.isinqueue_iff, ← h'.isinqueue_iff]
  have hother : ∀ j v, p'.routine v = .task j → v ≠ w ∧ p.routine v = .task j := by
    intro j v hv
    rcases eq_or_ne v w with rfl | hvw
    · rw [hr, Function.update_self] at hv
      cases hv
    · exact ⟨hvw, by rwa [hr, Function.update_of_ne hvw] at hv⟩
  refine ⟨shrinks_of_task hq fun j v hv => (hother j v hv).2, ?_⟩
  rintro ho (hi | ⟨v, hv⟩)
  · exact ho.apart (hq i hi) w hw
  · obtain ⟨hvw, hv⟩ := hother i v hv
    exact hvw (ho.single v w hv hw)

theorem Filed.remove_stays (h : p.Filed loc) (hs : p.remove w i = some p') (hi : j ≠ i)
    (hj : p.active j) : p'.active j := by
  obtain ⟨h', hr, -⟩ := h.remove hs
  refine hj.imp (fun hj => ?_) fun ⟨v, hv⟩ => ⟨v, by rwa [hr]⟩
  rw [h.isinqueue_iff] at hj
  rw [h'.isinqueue_iff]
  obtain ⟨k, hk⟩ := hj
  rcases eq_or_ne k (.jobs w) with rfl | hkw
  · exact ⟨.jobs w, by rwa [Function.update_self, List.mem_erase_of_ne hi]⟩
  · exact ⟨k, by rwa [Function.update_of_ne hkw]⟩

theorem Filed.copyJobs_stays (h : p.Filed loc) (hs : p.copyJobs w = some p') (hj : p.active j) :
    p'.active j := by
  obtain ⟨hw, h', hr, -⟩ := h.copyJobs hs
  rcases hj with hj | ⟨v, hv⟩
  · rw [h.isinqueue_iff] at hj
    refine .inl (h'.isinqueue_iff.mpr ?_)
    obtain ⟨k, hk⟩ := hj
    rcases eq_or_ne k (.jobs w) with rfl | hkj
    · exact ⟨.batch w, by simpa using hk⟩
    · rcases eq_or_ne k (.batch w) with rfl | hkb
      · rw [h.idle w hw] at hk
        cases hk
      · exact ⟨k, by simpa [hkj, hkb] using hk⟩
  · refine .inr ⟨v, ?_⟩
    have hvw : v ≠ w := by
      rintro rfl
      cases hv.symm.trans hw
    rwa [hr, Function.update_of_ne hvw]

theorem Filed.pop_stays (h : p.Filed loc) (hs : p.pop w stop = some p')
    (hw : p.routine w ≠ .flushing) (hi : j ≠ stop) (hj : p.active j) : p'.active j := by
  obtain ⟨r, rest, hp, h', hr, -⟩ := h.pop hs
  have hother : ∀ v, p.routine v = .task j → p'.active j := by
    intro v hv
    have hvw : v ≠ w := by
      rintro rfl
      cases hp with
      | drained hq | task hq | stop hq | flush hq | exit hq => cases hv.symm.trans hq
    exact .inr ⟨v, by rwa [hr, Function.update_of_ne hvw]⟩
  have hrest : ∀ k, j ∈ loc k → k ≠ .batch w ∨ j ∈ rest → p'.active j := by
    intro k hk hm
    refine .inl (h'.isinqueue_iff.mpr ?_)
    rcases eq_or_ne k (.batch w) with rfl | hkw
    · exact ⟨.batch w, by simpa using hm⟩
    · exact ⟨k, by rwa [Function.update_of_ne hkw]⟩
  rcases hj with hj | ⟨v, hv⟩
  · obtain ⟨k, hk⟩ := h.isinqueue_iff.mp hj
    refine (eq_or_ne k (.batch w)).elim (fun he => ?_) fun hne => hrest k hk (.inl hne)
    subst he
    cases hp with
    | drained _ hl | exit _ hl =>
      rw [hl] at hk
      cases hk
    | stop _ hl =>
      refine hrest _ hk (.inr ?_)
      rw [hl, List.mem_cons] at hk
      exact hk.resolve_left hi
    | @task item _ _ hl =>
      rcases eq_or_ne j item with rfl | hne
      · exact .inr ⟨w, by rw [hr, Function.update_self]⟩
      · refine hrest _ hk (.inr ?_)
        rw [hl, List.mem_cons] at hk
        exact hk.resolve_left hne
    | flush hf => exact absurd hf hw
  · exact hother v hv

theorem Filed.done_stays (h : p.Filed loc) (hs : p.done w = some (i, p')) (hi : j ≠ i)
    (hj : p.active j) : p'.active j := by
  obtain ⟨hw, h', hr, -⟩ := h.done hs
  refine hj.imp (fun hj => ?_) fun ⟨v, hv⟩ => ⟨v, ?_⟩
  · rwa [h'.isinqueue_iff, ← h.isinqueue_iff]
  · have hvw : v ≠ w := by
      rintro rfl
      exact hi (Routine.task.inj (hv.symm.trans hw))
    rwa [hr, Function.update_of_ne hvw]

theorem schedule_kept (hs : p.scheduleTaskUnsafe w i = some p') :
    p'.kept = Function.update p.kept w (p.kept w ++ [i]) := by
  obtain ⟨_, -, rfl⟩ := Option.map_eq_some_iff.mp hs
  rfl

theorem remove_kept (hs : p.remove w i = some p') :
    p'.kept = p.kept ∨ p'.kept = Function.update p.kept w (dropLast i (p.kept w)) := by
  obtain ⟨⟨next, jobs⟩, -, rfl⟩ := Option.map_eq_some_iff.mp hs
  dsimp only
  split
  · exact .inr rfl
  · exact .inl rfl

omit [DecidableEq ι] in
theorem copyJobs_kept (hs : p.copyJobs w = some p') : p'.kept = p.kept := by
  simp only [copyJobs] at hs
  split at hs <;> cases hs
  rfl

theorem pop_kept (hs : p.pop w stop = some p') : p'.kept = p.kept := by
  simp only [pop] at hs
  split at hs <;> split at hs <;> cases hs <;> rfl

omit [DecidableEq ι] in
theorem done_kept (hs : p.done w = some (i, p')) : p'.kept = p.kept := by
  simp only [done] at hs
  split at hs <;> cases hs
  rfl

end Pool

end Fsock
