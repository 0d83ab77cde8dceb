import Fsock.Core.JobQueue
import Fsock.Core.WorkersRouted

namespace Fsock

open Transition

namespace Workers

variable {κ β τ : Type}

def Dormant (s : Workers κ β τ) : Prop :=
  ∀ c, (s.peers c).zombie = true → (s.peers c).rio = false ∧ (s.peers c).wio = false

def Unserved (s : Workers κ β τ) (l : WorkersLabel κ β τ) : Prop :=
  ∀ w c, l = .write w c → (s.peers c).zombie = false

def resumes (s : Workers κ β τ) : Option κ :=
  match s.bulk with
  | some ⟨_, true, .pushing (c :: _)⟩ => some c
  | _ => none

variable [DecidableEq κ] [DecidableEq β]

structure Spares (s : Workers κ β τ) (l : WorkersLabel κ β τ) : Prop where
  mark : ∀ w c, l = .mark w → s.handlers w = .mark c →
    s.pool.isinqueue (.startRead c) = false ∧ s.pool.isinqueue (.startWrite c) = false
  insert : ∀ t c, l = .insert t → s.sends t = some c → (s.peers c).writing = false →
    (s.peers c).zombie = false
  resume : ∀ c, l = .bulk → s.resumes = some c → (s.peers c).zombie = false

structure Buried (s : Workers κ β τ) : Prop where
  regular : s.Regular
  opened : ∀ w c, s.handlers w = .hangup c ∨ s.handlers w = .mark c → (s.peers c).started = true
  dormant : s.Dormant
  idle : ∀ c, (s.peers c).zombie = true → ¬ s.pool.active (.startRead c) ∧
    ¬ s.pool.active (.startWrite c) ∧ (s.peers c).started = true

theorem buried_init (rcvhwm : Int) : (init rcvhwm : Workers κ β τ).Buried where
  regular := regular_init rcvhwm
  opened _ _ h := by rcases h with h | h <;> cases h
  dormant _ := nofun
  idle _ := nofun

variable {s s' : Workers κ β τ} {l : WorkersLabel κ β τ} {loc loc' : Place Thr → List (Job κ β)}
  {c : κ} {w : Thr}

theorem Regular.unheld (h : s.Regular) {j : Job κ β} (hj : j.peer = some c)
    (hw : s.handlers w = .mark c) (hq : s.pool.isinqueue j = false) : ¬ s.pool.active j := by
  obtain ⟨loc, hc⟩ := h.crewed
  have hr := h.routed loc hc
  rintro (ha | ⟨v, hv⟩)
  · rw [hq] at ha
    cases ha
  · have hthr := (hr.home j v c (.inr (.inr hv)) hj).1
    rw [hr.closing w c (.inr hw), Option.some.injEq] at hthr
    subst hthr
    rw [hr.busy w (by rw [hw]; nofun)] at hv
    cases hv

variable [DecidableEq τ]

theorem Effect.arms (hc : s.Crewed loc) (hc' : s'.Crewed loc') (hsp : s.Spares l)
    (he : Effect s l s') (hz : (s.peers c).zombie = true ∨ ∃ w, l = .mark w) {j : Job κ β}
    (hj : j = .startRead c ∨ j = .startWrite c) (ha : s'.pool.active j) : s.pool.active j := by
  obtain ⟨w, hw⟩ := hc'.filed.active_iff.mp ha
  rcases he.holds hc hc' hw with hw | ⟨k, hi⟩ | ⟨b, d, todo, hl, hb, hp, ht, hr⟩
  · exact hc.filed.active_iff.mpr ⟨w, hw⟩
  · rcases hj with rfl | rfl
    · cases hi
    · cases hi with
      | insert ht hthr hwr =>
        rcases hz with hz | ⟨v, hz⟩
        · rw [hsp.insert _ c rfl ht hwr] at hz
          cases hz
        · cases hz
  · have hstart : b.start = true ∧ d = c := by
      rcases hj with rfl | rfl
      · cases hs : b.start <;> rw [hs] at hr <;> cases hr
        exact ⟨rfl, rfl⟩
      · cases hs : b.start <;> rw [hs] at hr <;> cases hr
    obtain ⟨hs, rfl⟩ := hstart
    rcases hz with hz | ⟨v, rfl⟩
    · obtain ⟨holder, start, p⟩ := b
      obtain rfl := hs
      obtain rfl := hp
      rw [hsp.resume d hl (by rw [resumes, hb])] at hz
      cases hz
    · cases hl

omit [DecidableEq κ] [DecidableEq β] [DecidableEq τ] in
theorem Change.zombie {p : Endpoint} (h : Change s l c p) (hz : p.zombie = true) :
    (s.peers c).zombie = true ∨ ∃ w, l = .mark w ∧ s.handlers w = .mark c := by
  cases h with
  | assign ha => cases ha <;> exact .inl hz
  | mark hl hp => exact .inr ⟨_, hl, hp⟩
  | _ => exact .inl hz

omit [DecidableEq κ] [DecidableEq β] [DecidableEq τ] in
theorem Change.unwatched {p : Endpoint} (h : Change s l c p) (hoff : (s.peers c).rio = false ∧
      (s.peers c).wio = false) (hrun : ∀ v j, s.pool.routine v = .task j →
      j ≠ .startRead c ∧ j ≠ .startWrite c ∧ j ≠ .thrConn c) : p.rio = false ∧ p.wio = false := by
  obtain ⟨hrio, hwio⟩ := hoff
  cases h with
  | assign ha => cases ha <;> exact ⟨hrio, hwio⟩
  | hangup => exact ⟨rfl, rfl⟩
  | written => exact ⟨hrio, rfl⟩
  | stopRead => exact ⟨rfl, hwio⟩
  | startRead hw => exact absurd rfl (hrun _ _ hw).1
  | startWrite hw => exact absurd rfl (hrun _ _ hw).2.1
  | thrConn hw => exact absurd rfl (hrun _ _ hw).2.2
  | _ => exact ⟨hrio, hwio⟩

theorem Effect.opened (h : s.Buried) (he : Effect s l s')
    (hw : s'.handlers w = .hangup c ∨ s'.handlers w = .mark c) : (s'.peers c).started = true := by
  obtain ⟨loc, hc⟩ := h.regular.crewed
  suffices hold : (s.peers c).started = true from he.started h.regular hold
  have hrelay := he.relay h.regular.sound (h.regular.routed loc hc) w
  generalize s'.handlers w = hd at hrelay hw
  cases hrelay with
  | same => exact h.opened w c hw
  | closed hl hr hp hio =>
    simp only [Handler.hangup.injEq, reduceCtorEq, or_false] at hw
    exact h.regular.staged.watched c (.inl (hw ▸ hio))
  | mark hl =>
    simp only [Handler.mark.injEq, reduceCtorEq, false_or] at hw
    exact h.opened w c (.inl (hw ▸ hl))
  | _ => rcases hw with hw | hw <;> cases hw

theorem buried_step (h : s.Buried) (hsp : s.Spares l) (hs : s.step l = some s') : s'.Buried := by
  obtain ⟨-, he⟩ := effect_of_step hs
  obtain ⟨loc, hc⟩ := h.regular.crewed
  have hreg := he.regular h.regular
  obtain ⟨loc', hc'⟩ := hreg.crewed
  have hbefore : ∀ c, (s'.peers c).zombie = true → ((s.peers c).rio = false ∧
      (s.peers c).wio = false) ∧ ¬ s.pool.active (.startRead c) ∧
      ¬ s.pool.active (.startWrite c) ∧ (s.peers c).started = true ∧
      ((s.peers c).zombie = true ∨ ∃ w, l = .mark w) := by
    intro c hz
    rcases (he.change hc c).zombie hz with hz | ⟨w, hl, hw⟩
    · obtain ⟨hr, hwr, hst⟩ := h.idle c hz
      exact ⟨h.dormant c hz, hr, hwr, hst, .inl hz⟩
    · obtain ⟨hr, hwr⟩ := hsp.mark w c hl hw
      exact ⟨(h.regular.routed loc hc).marked w c hw, h.regular.unheld rfl hw hr,
        h.regular.unheld rfl hw hwr, h.opened w c (.inr hw), .inr ⟨w, hl⟩⟩
  refine ⟨hreg, fun w c => he.opened h, fun c hz => ?_, fun c hz => ?_⟩
  · obtain ⟨hoff, hr, hwr, hst, -⟩ := hbefore c hz
    refine (he.change hc c).unwatched hoff fun v j hv => ⟨?_, ?_, ?_⟩
    · rintro rfl
      exact hr (.inr ⟨v, hv⟩)
    · rintro rfl
      exact hwr (.inr ⟨v, hv⟩)
    · rintro rfl
      exact (h.regular.staged.started c hst).1 (.inr ⟨v, hv⟩)
  · obtain ⟨-, hr, hwr, hst, hm⟩ := hbefore c hz
    exact ⟨fun ha => hr (he.arms hc hc' hsp hm (.inl rfl) ha),
      fun ha => hwr (he.arms hc hc' hsp hm (.inr rfl) ha), he.started h.regular hst⟩

theorem Buried.unserved (h : s.Buried) (hs : s.step l = some s') : s.Unserved l := by
  rintro w c rfl
  obtain ⟨hf, -⟩ := effect_of_step hs
  have hw : s.write w c = some s' := by simpa [step, hf] using hs
  simp only [write] at hw
  split at hw
  case isFalse => cases hw
  case isTrue hl =>
    rw [← Bool.not_eq_true]
    intro hz
    have hoff := (h.dormant c hz).2
    rw [hl.2.1] at hoff
    cases hoff

theorem zombies_stay_dead (rcvhwm : Int) {tr : List (Workers κ β τ × WorkersLabel κ β τ)}
    (hr : Run step (init rcvhwm) tr s) (hsp : Steps Spares tr) :
    Visits Dormant tr s ∧ Steps Unserved tr := by
  have hstep : ∀ (s : Workers κ β τ) l s', s.Buried → s.Spares l → s.step l = some s' →
      s'.Buried := fun _ _ _ => buried_step
  exact ⟨visits_mono (fun _ => Buried.dormant) (hr.visits (buried_init rcvhwm) hstep hsp),
    hr.steps (fun _ _ _ h hs => h.unserved hs) (buried_init rcvhwm) hstep hsp⟩

instance [Fintype κ] [Fintype τ] (s : Workers κ β τ) (l : WorkersLabel κ β τ) :
    Decidable (s.Spares l) :=
  decidable_of_iff ((∀ w c, l = .mark w → s.handlers w = .mark c →
      s.pool.isinqueue (.startRead c) = false ∧ s.pool.isinqueue (.startWrite c) = false) ∧
    (∀ t c, l = .insert t → s.sends t = some c → (s.peers c).writing = false →
      (s.peers c).zombie = false) ∧
    ∀ c, l = .bulk → s.resumes = some c → (s.peers c).zombie = false)
    ⟨fun ⟨hm, hi, hr⟩ => ⟨hm, hi, hr⟩, fun h => ⟨h.mark, h.insert, h.resume⟩⟩

def dying : List (WorkersLabel Unit Unit Unit) := [.read 0 () .closed, .hangup 0, .mark 0]

def buried : List (WorkersLabel Unit Unit Unit) :=
  [established () 0, [.check () (), .insert ()], work 0, [.write 0 (), .written 0 true, .clear 0],
    dying].flatten

def revived : List (WorkersLabel Unit Unit Unit) :=
  [established () 0, [.read 0 () (.frames 2 2), .deliver 0], List.replicate 9 .bulk,
    [.check () ()], dying, [.insert (), .copyJobs 0, .pop 0, .run 0, .pop 0, .run 0, .pop 0, .get,
    .get], List.replicate 9 .bulk, work 0, [.write 0 ()]].flatten

theorem zombies_stay_dead_buried : Visits Dormant (trace step (init 1) buried)
      (final step (init 1) buried) ∧ Steps Unserved (trace step (init 1) buried) ∧
    ((final step (init 1) buried).peers ()).zombie = true := by
  obtain ⟨hv, hu⟩ := zombies_stay_dead 1 (run_final (k := buried) (by decide +kernel))
    (by decide +kernel)
  exact ⟨hv, hu, by decide +kernel⟩

theorem zombie_revived : ∃ (s : Workers Unit Unit Unit) (tr : List _), Run step (init 1) tr s ∧
    (s.peers ()).zombie = true ∧ (s.peers ()).rio = true ∧ (s.peers ()).wio = true ∧
    ¬ s.Dormant ∧ ¬ Steps Unserved tr := by
  refine ⟨_, _, run_final (k := revived) (by decide +kernel), by decide +kernel,
    by decide +kernel, by decide +kernel, fun h => ?_, fun h => ?_⟩
  · have hoff := (h () (by decide +kernel)).1
    revert hoff
    decide +kernel
  · have hz : ∀ x ∈ trace step (init 1) revived, x.2 = .write 0 () →
        (x.1.peers ()).zombie = false := fun x hx => h x hx 0 ()
    revert hz
    decide +kernel

end Workers

end Fsock
