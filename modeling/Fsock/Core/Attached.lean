import Fsock.Core.ReadSwitch

namespace Fsock

namespace Handler

variable {κ : Type}

def conn : Handler κ → Option κ
  | .hangup c => some c
  | .mark c => some c
  | .writing c => some c
  | .clear c => some c
  | .accepting c => some c
  | _ => none

end Handler

namespace Workers

variable {κ β τ : Type} [DecidableEq κ] [DecidableEq β]

structure Attached (s : Workers κ β τ) : Prop where
  unjoined : ∀ w, s.joined w = false
  bound : ∀ b ∈ s.binds, s.pool.active (.thrBind b) ∨ (s.listeners b).rio = true
  listening : ∀ b, (s.listeners b).rio = true → b ∈ s.binds
  origin : ∀ c u w b, s.setups c = some u → u.origin = some (w, b) → b ∈ s.binds
  accepting : ∀ w c, s.handlers w = .accepting c → ∃ b, b ∈ s.binds
  handled : ∀ w c, (s.handlers w).conn = some c →
    s.handlers w = .accepting c ∨ (s.peers c).started = true
  pausing : ∀ w, s.handlers w = .pausing → ∃ c, (s.peers c).thr = some w ∧ (s.peers c).rio = true

inductive Listens (s s' : Workers κ β τ) (b : β) : Prop
  | same (hb : b ∈ s'.binds ↔ b ∈ s.binds) (hr : (s'.listeners b).rio = (s.listeners b).rio)
      (ha : s.pool.active (.thrBind b) → s'.pool.active (.thrBind b))
  | bound (hb : b ∈ s'.binds) (hr : (s'.listeners b).rio = false)
      (ha : s'.pool.active (.thrBind b))
  | opened (hb : b ∈ s'.binds) (hr : (s'.listeners b).rio = true)

theorem attached_init (rcvhwm : Int) : (init rcvhwm : Workers κ β τ).Attached where
  unjoined _ := rfl
  bound _ h := by cases h
  listening _ := nofun
  origin _ _ _ _ := nofun
  accepting _ _ := nofun
  handled _ _ := nofun
  pausing _ := nofun

variable {s s' : Workers κ β τ} {l : WorkersLabel κ β τ} {loc : Place Thr → List (Job κ β)}

omit [DecidableEq κ] [DecidableEq β] in
@[simp] theorem listeners_release (s : Workers κ β τ) (o : Option Thr) :
    (s.release o).listeners = s.listeners := by
  cases o <;> rfl

theorem Listens.mem {b : β} (h : Listens s s' b) (hb : b ∈ s.binds) : b ∈ s'.binds := by
  cases h with
  | same hm => exact hm.mpr hb
  | bound hm | opened hm => exact hm

variable [DecidableEq τ]

theorem Effect.unjoined (he : Effect s l s') (hl : ∀ w, l ≠ .join w) (h : ∀ w, s.joined w = false)
    (w : Thr) : s'.joined w = false := by
  cases he with
  | issue hi hk hp =>
    cases hi with
    | join => exact absurd rfl (hl _)
    | start =>
      rw [joined_release]
      exact h w
    | _ => exact h w
  | free =>
    rw [joined_release]
    exact h w
  | run hp hr => cases hr <;> exact h w
  | _ => exact h w

theorem Effect.listens (hc : s.Crewed loc) (hs : s.Sound) (hr : s.Routed loc)
    (hj : ∀ w, s.joined w = false) (he : Effect s l s') (b : β) : Listens s s' b := by
  have hsame : s'.binds = s.binds → (s'.listeners b).rio = (s.listeners b).rio →
      s'.pool = s.pool → Listens s s' b := fun hb hl hp =>
    .same (by rw [hb]) hl fun ha => by rwa [hp]
  cases he with
  | @issue l w j k pool hi hk hp =>
    have hact : ∀ {i}, s.pool.active i → pool.active i := fun ha =>
      (hc.filed.schedule_active hp).mpr (.inl ha)
    cases hi with
    | @bind d v hd =>
      rcases eq_or_ne b d with rfl | hbd
      · refine .bound (List.mem_append_right _ List.mem_cons_self) ?_
          ((hc.filed.schedule_active hp).mpr (.inr rfl))
        exact congrArg Listener.rio (Function.update_self b _ s.listeners)
      · refine .same ?_ (congrArg Listener.rio (Function.update_of_ne hbd _ _)) hact
        change b ∈ s.binds ++ [d] ↔ b ∈ s.binds
        simp [hbd]
    | start =>
      refine .same (by rw [binds_release]; rfl) (by rw [listeners_release]; rfl) fun ha => ?_
      rw [pool_release]
      exact hact ha
    | insert => exact .same .rfl rfl hact
    | join => exact .same .rfl rfl hact
  | @attach c u stages w d hu hst ho =>
    refine .same .rfl ?_ id
    change (Function.update s.listeners d _ b).rio = _
    rcases eq_or_ne b d with rfl | hbd
    · rw [Function.update_self]
      rfl
    · rw [Function.update_of_ne hbd]
  | push hb hp ht hpool =>
    exact .same .rfl rfl fun ha => (hc.filed.schedule_active hpool).mpr (.inl ha)
  | @remove bulk c todo w pool hb hp ht hpool =>
    refine .same .rfl rfl fun ha => hc.filed.remove_stays hpool ?_ ha
    cases bulk.start <;> nofun
  | copyJobs hh hk hp => exact .same .rfl rfl fun ha => hc.filed.copyJobs_stays hp ha
  | @pop w pool hp =>
    refine .same .rfl rfl fun ha => hc.filed.pop_stays hp (fun hw => ?_) nofun ha
    have hstop := hr.stopped w (by rw [hw]; rfl)
    rw [hj w] at hstop
    cases hstop
  | @run w task pool _ hp hran =>
    obtain ⟨hw, -⟩ := hc.filed.done hp
    have hstay : task ≠ .thrBind b → s.pool.active (.thrBind b) → pool.active (.thrBind b) :=
      fun hne ha => hc.filed.done_stays hp hne.symm ha
    cases hran with
    | @thrBind d =>
      rcases eq_or_ne b d with rfl | hbd
      · exact .opened (hs.owns (.thrBind b) (.inr ⟨w, hw⟩))
          (congrArg Listener.rio (Function.update_self b _ s.listeners))
      · exact .same .rfl (congrArg Listener.rio (Function.update_of_ne hbd _ _))
          (hstay fun he => hbd (Job.thrBind.inj he).symm)
    | raw hraw => exact .same .rfl rfl (hstay (by rcases hraw with rfl | rfl | rfl <;> nofun))
    | _ => exact .same .rfl rfl (hstay nofun)
  | signal => exact .same .rfl rfl id
  | free =>
    exact hsame (binds_release _ _) (by rw [listeners_release]) (pool_release _ _)
  | _ => exact hsame rfl rfl rfl

theorem attached_step (hg : s.Regular) (h : s.Attached) (he : Effect s l s')
    (hl : ∀ w, l ≠ .join w) : s'.Attached := by
  obtain ⟨loc, hc⟩ := hg.crewed
  have hr := hg.routed loc hc
  have hlisten := he.listens hc hg.sound hr h.unjoined
  have hmem : ∀ {b}, b ∈ s.binds → b ∈ s'.binds := fun hb => (hlisten _).mem hb
  refine ⟨he.unjoined hl h.unjoined, fun b hb => ?_, fun b hb => ?_, fun c u w b hu ho => ?_,
    fun w c hw => ?_, fun w c hw => ?_, fun w hw => ?_⟩
  · cases hlisten b with
    | same hm hrio ha =>
      rw [hrio]
      exact (h.bound b (hm.mp hb)).imp_left ha
    | bound _ _ ha => exact .inl ha
    | opened _ hrio => exact .inr hrio
  · cases hlisten b with
    | same hm hrio => exact hm.mpr (h.listening b (hrio ▸ hb))
    | bound hm | opened hm => exact hm
  · rcases he.setups hu with ⟨v, hv, hvo, -⟩ | hnew
    · exact hmem (h.origin c v w b hv (hvo.trans ho))
    · exact hmem (h.listening b (hnew w b ho).2)
  · have hrelay := he.relay hg.sound hr w
    rw [hw] at hrelay
    generalize hhd : Handler.accepting c = hd at hrelay
    cases hrelay with
    | same => exact (h.accepting w c hhd.symm).imp fun _ => hmem
    | accepting _ _ hio => exact ⟨_, hmem (h.listening _ hio)⟩
    | _ => cases hhd
  · have hrelay := he.relay hg.sound hr w
    generalize s'.handlers w = hd at hrelay hw ⊢
    have hold : ∀ {d}, s.handlers w = .hangup d ∨ s.handlers w = .writing d →
        (s'.peers d).started = true := by
      intro d hd
      refine he.started hg ((h.handled w d ?_).resolve_left ?_)
      · rcases hd with hd | hd <;> rw [hd] <;> rfl
      · rcases hd with hd | hd <;> rw [hd] <;> nofun
    cases hrelay with
    | same => exact (h.handled w c hw).imp_right (he.started hg)
    | accepting =>
      obtain rfl := Option.some.inj hw
      exact .inl rfl
    | closed _ _ _ hio =>
      obtain rfl := Option.some.inj hw
      exact .inr (he.started hg (hg.staged.watched _ (.inl hio)))
    | writing _ _ _ hio =>
      obtain rfl := Option.some.inj hw
      exact .inr (he.started hg (hg.staged.watched _ (.inr hio)))
    | mark hd =>
      obtain rfl := Option.some.inj hw
      exact .inr (hold (.inl hd))
    | clear hd =>
      obtain rfl := Option.some.inj hw
      exact .inr (hold (.inr hd))
    | idle | parsed | pausing => cases hw
  · suffices hold : ∃ c, (s.peers c).thr = some w ∧ (s.peers c).rio = true ∧
        s.handlers w ≠ .idle ∧ s.handlers w ≠ .hangup c ∧ s.handlers w ≠ .writing c by
      obtain ⟨c, hthr, hio, hi, hn⟩ := hold
      have hkeep := (he.change hc c).watchers hg.sound hr hthr hi hn
      exact ⟨c, he.thr hc hg.staged hthr, hkeep.1.trans hio⟩
    have hrelay := he.relay hg.sound hr w
    rw [hw] at hrelay
    generalize hhd : Handler.pausing = hd at hrelay
    cases hrelay with
    | same =>
      obtain ⟨c, hthr, hio⟩ := h.pausing w hhd.symm
      rw [← hhd]
      exact ⟨c, hthr, hio, nofun, nofun, nofun⟩
    | pausing hp =>
      obtain ⟨c, hthr, hio⟩ := hr.parsed w _ _ hp
      rw [hp]
      exact ⟨c, hthr, hio, nofun, nofun, nofun⟩
    | _ => cases hhd

end Workers

end Fsock
