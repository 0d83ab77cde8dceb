import Fsock.Core.WorkersRouted

namespace Fsock

open Transition

namespace Setup

variable {β : Type} {u : Setup β} {stage : Stage} {stages : List Stage}

theorem plan_attach (h : .attach :: stages <:+ u.plan) : u.origin.isSome = true := by
  by_contra ho
  have hm := h.subset List.mem_cons_self
  rw [plan, if_neg ho] at hm
  exact absurd hm (by decide)

theorem plan_more (h : stage :: stages <:+ u.plan) (hs : stage ≠ .start) : stages ≠ [] :=
  plan_tails (P := fun l => l.head? ≠ some .start → l ≠ [] → l.tail ≠ []) (by decide) (by decide) h
    (by simpa using hs) (by simp)

end Setup

namespace WorkersLabel

variable {κ β τ : Type}

def counts : WorkersLabel κ β τ → Bool
  | .read _ _ (.frames n cnt) => cnt = n
  | _ => true

def gauges : WorkersLabel κ β τ → Bool
  | .read _ _ _ => true
  | .deliver _ => true
  | .get => true
  | .write _ _ => true
  | .written _ _ => true
  | _ => false

end WorkersLabel

namespace Workers

variable {κ β τ : Type}

structure Gauged (s : Workers κ β τ) : Prop where
  counted : s.rcvqsz = s.events
  parsed : ∀ w n cnt, s.handlers w = .parsed n cnt → cnt = n
  full : s.reading = stopOp → 0 < s.rcvhwm ∧ s.rcvhwm ≤ s.rcvqsz

def Held (s : Workers κ β τ) : Prop :=
  ∀ w, s.handlers w = .pausing → ∃ b, s.bulk = some b ∧ b.holder = some w

def Admitting (s : Workers κ β τ) : Prop :=
  ∀ w c, s.handlers w = .accepting c →
    ∃ u, s.setups c = some u ∧ u.origin.map (·.1) = some w ∧ u.stages ≠ []

structure Aside (s s' : Workers κ β τ) : Prop where
  rcvqsz : s'.rcvqsz = s.rcvqsz
  rcvhwm : s'.rcvhwm = s.rcvhwm
  events : s'.events = s.events
  reading : s'.reading = s.reading
  parsed : ∀ w n cnt, s'.handlers w = .parsed n cnt → s.handlers w = .parsed n cnt

theorem gauged_init (rcvhwm : Int) : (init rcvhwm : Workers κ β τ).Gauged where
  counted := rfl
  parsed _ _ _ := nofun
  full h := by cases h

theorem held_init (rcvhwm : Int) : (init rcvhwm : Workers κ β τ).Held := fun _ => nofun

theorem admitting_init (rcvhwm : Int) : (init rcvhwm : Workers κ β τ).Admitting :=
  fun _ _ => nofun

variable {s s' : Workers κ β τ} {l : WorkersLabel κ β τ} {w : Thr} {c : κ}

theorem handle_self (s : Workers κ β τ) (w : Thr) (hd : Handler κ) :
    (s.handle w hd).handlers w = hd := Function.update_self ..

theorem Gauged.aside (h : s.Gauged) (hs : s.Aside s') : s'.Gauged where
  counted := by rw [hs.rcvqsz, hs.events, h.counted]
  parsed w n cnt hw := h.parsed w n cnt (hs.parsed w n cnt hw)
  full hr := by
    rw [hs.rcvhwm, hs.rcvqsz]
    exact h.full (hs.reading ▸ hr)

theorem Aside.handle {t : Workers κ β τ} {hd : Handler κ} (h : s.Aside t)
    (hn : ∀ n cnt, Handler.parsed n cnt ≠ hd) : s.Aside (t.handle w hd) where
  rcvqsz := h.rcvqsz
  rcvhwm := h.rcvhwm
  events := h.events
  reading := h.reading
  parsed v n cnt hv := h.parsed v n cnt (handle_of_ne (hn n cnt) hv)

theorem Aside.release {t : Workers κ β τ} (h : s.Aside t) (o : Option Thr) :
    s.Aside (t.release o) := by
  cases o with
  | none => exact h
  | some v => exact h.handle (by simp)

theorem aside_refl (s : Workers κ β τ) : s.Aside s := ⟨rfl, rfl, rfl, rfl, fun _ _ _ h => h⟩

theorem Admitting.mono (h : s.Admitting) (hu : s'.setups = s.setups)
    (hh : ∀ w c, s'.handlers w = .accepting c → s.handlers w = .accepting c) : s'.Admitting := by
  intro w c hw
  rw [hu]
  exact h w c (hh w c hw)

theorem Admitting.release (h : s.Admitting) (o : Option Thr) : (s.release o).Admitting := by
  refine h.mono (setups_release _ _) fun w c hw => ?_
  rcases handlers_release s o w with hr | hr
  · cases hr.symm.trans hw
  · exact hr.symm.trans hw

theorem Admitting.handle (h : s.Admitting) {hd : Handler κ}
    (hn : ∀ c, Handler.accepting c ≠ hd) : (s.handle w hd).Admitting :=
  h.mono rfl fun _ c hv => handle_of_ne (hn c) hv

theorem Held.mono (h : s.Held) (hb : s'.bulk = s.bulk)
    (hh : ∀ w, s'.handlers w = .pausing → s.handlers w = .pausing) : s'.Held := by
  intro w hw
  rw [hb]
  exact h w (hh w hw)

theorem Held.phase (h : s.Held) {b : Bulk κ} {p : Phase κ} (hb : s.bulk = some b)
    (hb' : s'.bulk = some { b with phase := p }) (hh : s'.handlers = s.handlers) : s'.Held := by
  intro w hw
  obtain ⟨b', hb'', ho⟩ := h w (hh ▸ hw)
  rw [hb, Option.some.injEq] at hb''
  subst hb''
  exact ⟨_, hb', ho⟩

variable [DecidableEq κ] [DecidableEq β] [DecidableEq τ]

theorem Effect.aside (he : Effect s l s') (hl : l.gauges = false) : s.Aside s' := by
  have hsame : ∀ {t : Workers κ β τ}, t.rcvqsz = s.rcvqsz → t.rcvhwm = s.rcvhwm →
      t.events = s.events → t.reading = s.reading → t.handlers = s.handlers → s.Aside t :=
    fun hq hm he hr hh => ⟨hq, hm, he, hr, fun _ _ _ h => hh ▸ h⟩
  cases he with
  | issue hi hk hp =>
    cases hi with
    | start =>
      apply Aside.release
      exact hsame rfl rfl rfl rfl rfl
    | bind | insert | join => exact hsame rfl rfl rfl rfl rfl
  | accept | hangup | mark | clear => exact Aside.handle (hsame rfl rfl rfl rfl rfl) (by simp)
  | turn ht => cases ht <;> cases hl
  | pause | take | resume | written => cases hl
  | free =>
    apply Aside.release
    exact hsame rfl rfl rfl rfl rfl
  | run hp hr => cases hr <;> exact hsame rfl rfl rfl rfl rfl
  | _ => exact hsame rfl rfl rfl rfl rfl

omit [DecidableEq τ] in
theorem Gauged.read {res : ReadResult} (h : s.Gauged)
    (hl : (WorkersLabel.read w c res : WorkersLabel κ β τ).counts = true)
    (hs : s.read w c res = some s') : s'.Gauged := by
  simp only [Workers.read] at hs
  split at hs
  case isFalse => cases hs
  case isTrue =>
    cases res with
    | wouldBlock =>
      cases hs
      exact h
    | closed =>
      cases hs
      exact h.aside ((aside_refl s).handle (by simp))
    | frames n cnt =>
      cases hs
      refine ⟨h.counted, fun v n' cnt' hv => ?_, h.full⟩
      rcases eq_or_ne v w with rfl | hvw
      · obtain ⟨rfl, rfl⟩ := Handler.parsed.inj ((handle_self s v _).symm.trans hv)
        exact of_decide_eq_true hl
      · exact h.parsed v n' cnt' ((Function.update_of_ne hvw ..).symm.trans hv)

omit [DecidableEq κ] [DecidableEq β] [DecidableEq τ] in
theorem Gauged.deliver (h : s.Gauged) (hs : s.deliver w = some s') : s'.Gauged := by
  simp only [Workers.deliver] at hs
  split at hs
  case h_2 => cases hs
  case h_1 n cnt hp hb =>
    have hcnt := h.parsed w n cnt hp
    subst hcnt
    have hcount := h.counted
    have hevents : s.rcvqsz + n =
        ((if (n : Int) > 0 then s.events + n else s.events : Nat) : Int) := by
      split <;> omega
    have hparsed : ∀ hd v m cnt, (s.handle w hd).handlers v = .parsed m cnt →
        (∀ m cnt, Handler.parsed m cnt ≠ hd) → cnt = m := fun hd v m cnt hv hn =>
      h.parsed v m cnt (handle_of_ne (hn m cnt) hv)
    split at hs <;> cases hs
    case isTrue hover =>
      exact ⟨hevents, fun v m cnt hv => hparsed .pausing v m cnt hv (by simp), fun _ =>
        ⟨hover.1, hover.2.le⟩⟩
    case isFalse =>
      refine ⟨hevents, fun v m cnt hv => hparsed .idle v m cnt hv (by simp), fun hr => ?_⟩
      obtain ⟨hpos, hle⟩ := h.full hr
      exact ⟨hpos, hle.trans (by simp [handle])⟩

omit [DecidableEq κ] [DecidableEq β] [DecidableEq τ] in
theorem Gauged.get (h : s.Gauged) (hs : s.get = some s') : s'.Gauged := by
  simp only [Workers.get] at hs
  split at hs
  case h_2 => cases hs
  case h_1 hb =>
    split at hs
    case isTrue => cases hs
    case isFalse he =>
      have hcount := h.counted
      have hevents : s.rcvqsz - 1 = ((s.events - 1 : Nat) : Int) := by omega
      split at hs <;> cases hs
      case isTrue => exact ⟨hevents, h.parsed, fun hr => by cases hr⟩
      case isFalse hkeep =>
        refine ⟨hevents, h.parsed, fun hr => ?_⟩
        obtain ⟨hpos, -⟩ := h.full hr
        refine ⟨hpos, not_lt.mp fun hlt => hkeep ⟨hpos, hr, hlt⟩⟩

theorem gauged_step (h : s.Gauged) (hl : l.counts = true) (hs : s.step l = some s') :
    s'.Gauged := by
  cases hg : l.gauges with
  | false => exact h.aside ((effect_of_step hs).2.aside hg)
  | true =>
  simp only [Workers.step] at hs
  split at hs
  case isTrue => cases hs
  case isFalse =>
  cases l with
  | read w c res => exact h.read hl hs
  | deliver w => exact h.deliver hs
  | get => exact h.get hs
  | write w c =>
    simp only [write] at hs
    split at hs
    case isFalse => cases hs
    case isTrue =>
      split at hs <;> cases hs
      · exact h
      · exact h.aside (.handle (aside_refl s) (by simp))
  | written w mustStop =>
    simp only [written] at hs
    split at hs
    case h_2 => cases hs
    case h_1 =>
      split at hs <;> cases hs
      · exact h.aside (.handle ⟨rfl, rfl, rfl, rfl, fun _ _ _ h => h⟩ (by simp))
      · exact h.aside (.handle (aside_refl s) (by simp))
  | _ => cases hg

theorem Effect.held (h : s.Held) (he : Effect s l s') : s'.Held := by
  have hhandle : ∀ {t : Workers κ β τ} {w : Thr} {hd : Handler κ}, t.Held → hd ≠ .pausing →
      (t.handle w hd).Held := fun ht hn => ht.mono rfl fun _ hv => handle_of_ne hn.symm hv
  have hnone : ∀ w, s.bulk = none → s.handlers w ≠ .pausing := by
    intro w hb hw
    obtain ⟨b, hb', -⟩ := h w hw
    rw [hb] at hb'
    cases hb'
  cases he with
  | issue hi hk hp =>
    cases hi with
    | @start c u stages hu hst =>
      refine h.mono (bulk_release _ _) fun w hw => ?_
      rcases handlers_release _ (u.origin.map (·.1)) w with hr | hr
      · cases hr.symm.trans hw
      · exact hr.symm.trans hw
    | bind | insert | join => exact h.mono rfl fun _ hw => hw
  | accept | hangup | mark | written | clear => exact hhandle (h.mono rfl fun _ hw => hw) (by simp)
  | turn ht =>
    refine (hhandle h ?_).mono rfl fun _ hw => hw
    cases ht <;> simp
  | @pause w n cnt q e hp hb =>
    intro v hv
    rcases eq_or_ne v w with rfl | hvw
    · exact ⟨_, rfl, rfl⟩
    · exact absurd ((Function.update_of_ne hvw ..).symm.trans hv) (hnone v hb)
  | resume hb => exact fun v hv => absurd hv (hnone v hb)
  | lock hb | unlock hb | skip hb | push hb | keep hb | remove hb | signal hb =>
    exact h.phase hb rfl rfl
  | @free b hb hp =>
    intro v hv
    rcases handlers_release { s with bulk := none } b.holder v with hr | hr
    · cases hr.symm.trans hv
    · obtain ⟨b', hb', ho⟩ := h v (hr.symm.trans hv)
      rw [hb, Option.some.injEq] at hb'
      subst hb'
      rw [ho] at hr hv
      cases (Function.update_self ..).symm.trans hv
  | run hp hr => cases hr <;> exact h.mono rfl fun _ hw => hw
  | _ => exact h.mono rfl fun _ hw => hw

omit [DecidableEq τ] in
theorem Admitting.next (h : s.Admitting) (hs : s.Sound) {u x : Setup β} {stage : Stage}
    {stages : List Stage} (hu : s.setups c = some u) (hst : u.stages = stage :: stages)
    (hstage : stage ≠ .start) (hup : s'.setups = Function.update s.setups c (some x))
    (hh : s'.handlers = s.handlers) (ho : x.origin = u.origin) (hx : x.stages = stages) :
    s'.Admitting := by
  intro w d hw
  obtain ⟨v, hv, hvo, hvn⟩ := h w d (hh ▸ hw)
  rw [hup]
  rcases eq_or_ne d c with rfl | hdc
  · rw [hu, Option.some.injEq] at hv
    subst hv
    have hplan := hs.planned d u hu
    rw [hst] at hplan
    exact ⟨x, Function.update_self .., ho ▸ hvo, hx ▸ Setup.plan_more hplan hstage⟩
  · exact ⟨v, (Function.update_of_ne hdc ..).trans hv, hvo, hvn⟩

theorem Effect.admitting (hs : s.Sound) (h : s.Admitting) (he : Effect s l s') :
    s'.Admitting := by
  have hsame : ∀ {t : Workers κ β τ}, t.setups = s.setups → t.handlers = s.handlers →
      t.Admitting := fun hu hh => h.mono hu fun _ _ hw => hh ▸ hw
  have hfresh : ∀ {c d : κ} {w : Thr}, s.setups d = none → s.handlers w = .accepting c → c ≠ d := by
    rintro c d w hd hw rfl
    obtain ⟨u, hu, -⟩ := h w c hw
    cases hd.symm.trans hu
  cases he with
  | issue hi hk hp =>
    cases hi with
    | @start d u stages hu hst =>
      intro w c hw
      rcases handlers_release _ (u.origin.map (·.1)) w with hr | hr
      · cases hr.symm.trans hw
      · obtain ⟨v, hv, hvo, hvn⟩ := h w c (hr.symm.trans hw)
        have hcd : c ≠ d := by
          rintro rfl
          rw [hu, Option.some.injEq] at hv
          subst hv
          simp only [hvo] at hr hw
          cases (handle_self _ w .idle).symm.trans hw
        refine ⟨v, ?_, hvo, hvn⟩
        rw [setups_release]
        exact (Function.update_of_ne hcd ..).trans hv
    | bind | insert | join => exact hsame rfl rfl
  | connect hu =>
    intro w c hw
    obtain ⟨v, hv, hvo, hvn⟩ := h w c hw
    exact ⟨v, (Function.update_of_ne (hfresh hu hw) ..).trans hv, hvo, hvn⟩
  | @accept v b d w' fd hu hl hr =>
    intro w c hw
    rcases eq_or_ne w v with rfl | hwv
    · obtain rfl := Handler.accepting.inj ((handle_self _ w _).symm.trans hw)
      exact ⟨_, Function.update_self .., rfl, by simp [acceptStages]⟩
    · have hw := (Function.update_of_ne hwv ..).symm.trans hw
      obtain ⟨v, hv, hvo, hvn⟩ := h w c hw
      exact ⟨v, (Function.update_of_ne (hfresh hu hw) ..).trans hv, hvo, hvn⟩
  | attach hu hst ho => exact h.next hs hu hst (by simp) rfl rfl rfl rfl
  | publish hu hst hb => exact h.next hs hu hst (by simp) rfl rfl rfl rfl
  | assign ha hu hst =>
    refine h.next hs hu hst ?_ rfl rfl rfl rfl
    cases ha <;> simp
  | turn ht =>
    refine (h.handle ?_).mono rfl fun _ _ hw => hw
    cases ht <;> simp
  | pause hp hb => exact (h.handle (by simp)).mono rfl fun _ _ hw => hw
  | hangup | mark | written | clear =>
    apply Admitting.handle
    · exact hsame rfl rfl
    · simp
  | free =>
    apply Admitting.release
    exact hsame rfl rfl
  | run hp hr => cases hr <;> exact hsame rfl rfl
  | _ => exact hsame rfl rfl

end Workers

end Fsock
