import Fsock.Core.Attached
import Fsock.Core.Close

namespace Fsock

namespace Workers

variable {κ β τ : Type}

def Enlisted (s : Workers κ β τ) (c : κ) (b : β) : Prop :=
  ∃ u w, s.setups c = some u ∧ u.origin = some (w, b) ∧ .attach ∉ u.stages

structure Level (s s' : Workers κ β τ) : Prop where
  conns : s'.conns = s.conns
  binds : s'.binds = s.binds
  inner : ∀ b, (s'.listeners b).conns = (s.listeners b).conns
  enlisted : ∀ c b, s'.Enlisted c b ↔ s.Enlisted c b

structure Rostered (s : Workers κ β τ) : Prop where
  conns : s.conns.Nodup
  binds : s.binds.Nodup
  inner : ∀ b, (s.listeners b).conns.Nodup
  origin : ∀ b c, c ∈ (s.listeners b).conns ↔ s.Enlisted c b

theorem rostered_init (rcvhwm : Int) : (init rcvhwm : Workers κ β τ).Rostered where
  conns := .nil
  binds := .nil
  inner _ := .nil
  origin _ _ := ⟨nofun, nofun⟩

variable {s s' : Workers κ β τ} {u x : Setup β} {c : κ} {b : β} {w : Thr} {stages : List Stage}

theorem enlisted_congr (h : s'.setups = s.setups) (c : κ) (b : β) :
    s'.Enlisted c b ↔ s.Enlisted c b := by
  rw [Enlisted, h]
  rfl

theorem nodup_snoc {α : Type} {xs : List α} {a : α} (h : xs.Nodup) (ha : a ∉ xs) :
    (xs ++ [a]).Nodup := by
  rw [← List.concat_eq_append]
  exact h.concat ha

theorem Rostered.level (h : s.Rostered) (hl : Level s s') : s'.Rostered where
  conns := by rw [hl.conns]; exact h.conns
  binds := by rw [hl.binds]; exact h.binds
  inner b := by rw [hl.inner]; exact h.inner b
  origin b c := by rw [hl.inner, hl.enlisted]; exact h.origin b c

variable [DecidableEq κ]

theorem enlisted_update (hset : s'.setups = Function.update s.setups c (some x)) (d : κ) (b : β) :
    s'.Enlisted d b ↔ d = c ∧ (∃ w, x.origin = some (w, b) ∧ .attach ∉ x.stages) ∨
      d ≠ c ∧ s.Enlisted d b := by
  rcases eq_or_ne d c with rfl | hdc
  · simp [Enlisted, hset]
  · simp [Enlisted, hset, hdc]

theorem enlisted_launch (hset : s'.setups = Function.update s.setups c (some x))
    (hu : s.setups c = none) (hx : x.origin = none ∨ .attach ∈ x.stages) (d : κ) (b : β) :
    s'.Enlisted d b ↔ s.Enlisted d b := by
  rw [enlisted_update hset]
  rcases eq_or_ne d c with rfl | hdc
  · have hnew : ¬ ∃ w, x.origin = some (w, b) ∧ .attach ∉ x.stages := by
      rintro ⟨w, ho, hm⟩
      exact hx.elim (fun hn => by simp [hn] at ho) hm
    simp [Enlisted, hu, hnew]
  · simp [hdc]

theorem enlisted_later (hset : s'.setups = Function.update s.setups c (some x))
    (hu : s.setups c = some u) (ho : x.origin = u.origin)
    (hs : .attach ∈ x.stages ↔ .attach ∈ u.stages) (d : κ) (b : β) :
    s'.Enlisted d b ↔ s.Enlisted d b := by
  rw [enlisted_update hset]
  rcases eq_or_ne d c with rfl | hdc
  · simp [Enlisted, hu, ho, hs]
  · simp [hdc]

theorem enlisted_attach (hset : s'.setups = Function.update s.setups c (some x))
    (hu : s.setups c = some u) (ho : u.origin = some (w, b)) (hx : x.origin = u.origin)
    (hs : .attach ∈ u.stages) (hn : .attach ∉ x.stages) (d : κ) (e : β) :
    s'.Enlisted d e ↔ s.Enlisted d e ∨ d = c ∧ e = b := by
  rw [enlisted_update hset]
  rcases eq_or_ne d c with rfl | hdc
  · simp [Enlisted, hu, hx, ho, hs, hn, eq_comm]
  · simp [hdc]

variable [DecidableEq β] [DecidableEq τ] {l : WorkersLabel κ β τ}

theorem Effect.level_fault (he : Effect s l s') (hf : s.fault = none)
    (hn : s'.fault.isSome = true) : Level s s' := by
  have hlive : s'.fault = s.fault → Level s s' := by
    intro h
    rw [h, hf] at hn
    cases hn
  have hcrash : ∀ f, Level s (s.crash f) := fun _ => ⟨rfl, rfl, fun _ => rfl, enlisted_congr rfl⟩
  cases he with
  | refuse | stray | null => exact hcrash _
  | issue hi => exact hlive (hi.frame _).2.2
  | free => exact hlive (fault_release _ _)
  | run hp hr =>
    cases hr with
    | raw | stop => exact ⟨rfl, rfl, fun _ => rfl, enlisted_congr rfl⟩
    | _ => exact hlive rfl
  | _ => exact hlive rfl

theorem Effect.level (he : Effect s l s') (hb : ∀ b w, l ≠ .bind b w) (ha : ∀ c, l ≠ .advance c) :
    Level s s' := by
  cases he with
  | issue hi =>
    cases hi with
    | bind => exact absurd rfl (hb _ _)
    | start => exact absurd rfl (ha _)
    | _ => exact ⟨rfl, rfl, fun _ => rfl, enlisted_congr rfl⟩
  | attach | publish | assign => exact absurd rfl (ha _)
  | connect hu => exact ⟨rfl, rfl, fun _ => rfl, enlisted_launch rfl hu (.inl rfl)⟩
  | accept hu => exact ⟨rfl, rfl, fun _ => rfl, enlisted_launch rfl hu (.inr List.mem_cons_self)⟩
  | free =>
    refine ⟨conns_release _ _, binds_release _ _, fun b => ?_, enlisted_congr (setups_release _ _)⟩
    rw [listeners_release]
  | run hp hr =>
    cases hr with
    | @thrBind d =>
      refine ⟨rfl, rfl, fun b => ?_, enlisted_congr rfl⟩
      change (Function.update s.listeners d _ b).conns = _
      rcases eq_or_ne b d with rfl | hbd
      · rw [Function.update_self]
      · rw [Function.update_of_ne hbd]
    | _ => exact ⟨rfl, rfl, fun _ => rfl, enlisted_congr rfl⟩
  | _ => exact ⟨rfl, rfl, fun _ => rfl, enlisted_congr rfl⟩

end Workers

namespace Tables

variable {β : Type} [DecidableEq β] {t t' : Tables β} {k : Slots β} {n : Nat} {junk : Nat → Ptr}

theorem insert_cases (h : t.insert k n junk = some t') :
    ∃ arr r, (t.row k).insert (.obj n) (some junk) = .ok (arr, r) ∧ t' = t.set k arr := by
  rw [insert] at h
  split at h
  case h_1 arr r he => exact ⟨arr, r, he, (Option.some.inj h).symm⟩
  case h_2 => cases h

end Tables

namespace Site

variable {κ β τ : Type} [DecidableEq β]

inductive Enrols (s s' : Site κ β τ) : Prop
  | still (hl : Workers.Level s.sys s'.sys) (ht : s'.tables = s.tables)
  | bind {b : β} {w : Thr} {arr : Parr} {r : Int} {junk : Nat → Ptr} (hb : b ∉ s.sys.binds)
      (hi : s.tables.binds.insert (.obj s.sys.binds.length) (some junk) = .ok (arr, r))
      (hbinds : s'.sys.binds = s.sys.binds ++ [b]) (hconns : s'.sys.conns = s.sys.conns)
      (hinner : s'.sys.listeners = Function.update s.sys.listeners b ⟨some w, false, []⟩)
      (he : ∀ c d, s'.sys.Enlisted c d ↔ s.sys.Enlisted c d)
      (ht : s'.tables = (s.tables.set .binds arr).set (.bnd b) (.init 10))
  | attach {c : κ} {b : β} {arr : Parr} {r : Int} {junk : Nat → Ptr} (hc : ¬ s.sys.Enlisted c b)
      (hi : (s.tables.bnds b).insert (.obj (s.sys.listeners b).conns.length) (some junk) =
        .ok (arr, r))
      (hbinds : s'.sys.binds = s.sys.binds) (hconns : s'.sys.conns = s.sys.conns)
      (hinner : s'.sys.listeners =
        Function.update s.sys.listeners b ((s.sys.listeners b).attach c))
      (he : ∀ d e, s'.sys.Enlisted d e ↔ s.sys.Enlisted d e ∨ d = c ∧ e = b)
      (ht : s'.tables = s.tables.set (.bnd b) arr)
  | publish {c : κ} {arr : Parr} {r : Int} {junk : Nat → Ptr} (hc : c ∉ s.sys.conns)
      (hi : s.tables.conns.insert (.obj s.sys.conns.length) (some junk) = .ok (arr, r))
      (hbinds : s'.sys.binds = s.sys.binds) (hconns : s'.sys.conns = s.sys.conns ++ [c])
      (hinner : s'.sys.listeners = s.sys.listeners)
      (he : ∀ d e, s'.sys.Enlisted d e ↔ s.sys.Enlisted d e)
      (ht : s'.tables = s.tables.set .conns arr)

variable [DecidableEq κ] [DecidableEq τ] {s s' : Site κ β τ} {l : SiteLabel κ β τ}
  {junk : Nat → Ptr}

theorem step_sys (hs : s.step l = some s') : (∀ w, l.1 ≠ .join w) ∧ s.sys.step l.1 = some s'.sys ∧
    (s'.sys.fault.isSome = true ∧ s'.tables = s.tables ∨
      s'.sys.fault.isSome = false ∧ record s.sys s.tables l.1 l.2 = some s'.tables) := by
  simp only [step] at hs
  split at hs
  case h_1 => cases hs
  case h_2 hj =>
    obtain ⟨sys, hsys, hs⟩ := Option.bind_eq_some_iff.mp hs
    refine ⟨fun w hw => hj w hw, ?_⟩
    split at hs
    case isTrue hf =>
      cases hs
      exact ⟨hsys, .inl ⟨hf, rfl⟩⟩
    case isFalse hf =>
      obtain ⟨tables, ht, rfl⟩ := Option.map_eq_some_iff.mp hs
      exact ⟨hsys, .inr ⟨by simpa using hf, ht⟩⟩

omit [DecidableEq κ] [DecidableEq τ] in
theorem record_rest {t : Tables β} {c : κ} {u : Setup β} {stage : Stage} {stages : List Stage}
    {sys : Workers κ β τ} (hu : sys.setups c = some u) (hs : u.stages = stage :: stages)
    (ha : stage ≠ .attach) (hp : stage ≠ .publish) : record sys t (.advance c) junk = some t := by
  obtain ⟨origin, thr, fd, index, stages⟩ := u
  simp only at hs
  subst hs
  simp only [record, hu]
  cases stage with
  | attach => exact absurd rfl ha
  | publish => exact absurd rfl hp
  | _ => cases origin <;> rfl

omit [DecidableEq κ] [DecidableEq τ] in
theorem record_attach {sys : Workers κ β τ} {t t' : Tables β} {c : κ} {u : Setup β}
    {stages : List Stage} {w : Thr} {b : β} (hu : sys.setups c = some u)
    (hs : u.stages = .attach :: stages) (ho : u.origin = some (w, b))
    (hr : record sys t (.advance c) junk = some t') :
    t.insert (.bnd b) (sys.listeners b).conns.length junk = some t' := by
  obtain ⟨origin, thr, fd, index, ss⟩ := u
  simp only at ho hs
  subst ho hs
  simpa only [record, hu] using hr

omit [DecidableEq κ] [DecidableEq τ] in
theorem record_publish {sys : Workers κ β τ} {t t' : Tables β} {c : κ} {u : Setup β}
    {stages : List Stage} (hu : sys.setups c = some u) (hs : u.stages = .publish :: stages)
    (hr : record sys t (.advance c) junk = some t') :
    t.insert .conns sys.conns.length junk = some t' := by
  obtain ⟨origin, thr, fd, index, ss⟩ := u
  simp only at hs
  subst hs
  simp only [record, hu] at hr
  cases origin <;> exact hr

omit [DecidableEq τ] in
theorem enrols_bind {sys : Workers κ β τ} {t : Tables β} {b : β} {w : Thr}
    (hs : s.sys.bind b w = some sys) (hn : sys.fault.isSome = false)
    (hr : record s.sys s.tables (.bind b w) junk = some t) : Enrols s ⟨sys, t⟩ := by
  obtain ⟨t₁, ht, rfl⟩ := Option.map_eq_some_iff.mp hr
  obtain ⟨arr, r, hi, rfl⟩ := Tables.insert_cases ht
  simp only [Workers.bind, Workers.schedule] at hs
  split at hs
  case isTrue => cases hs
  case isFalse hb =>
    split at hs
    case isTrue => cases hs
    case isFalse =>
      split at hs <;> cases hs
      · cases hn
      · exact .bind hb hi rfl rfl rfl (Workers.enlisted_congr rfl) rfl

omit [DecidableEq τ] in
theorem enrols_attach {t : Tables β} {c : κ} {u : Setup β} {stages : List Stage} {w : Thr} {b : β}
    (hu : s.sys.setups c = some u) (hst : u.stages = .attach :: stages) (hout : .attach ∉ stages)
    (ho : u.origin = some (w, b)) (hr : record s.sys s.tables (.advance c) junk = some t) :
    Enrols s ⟨{ s.sys with
        listeners := Function.update s.sys.listeners b ((s.sys.listeners b).attach c) }.setup c
      { u with stages := stages }, t⟩ := by
  obtain ⟨arr, r, hi, rfl⟩ := Tables.insert_cases (record_attach hu hst ho hr)
  have hc : ¬ s.sys.Enlisted c b := by
    rintro ⟨v, w', hv, -, hm⟩
    rw [hu, Option.some.injEq] at hv
    subst hv
    simp [hst] at hm
  exact .attach hc hi rfl rfl rfl (Workers.enlisted_attach (x := { u with stages := stages }) rfl hu
    ho rfl (by simp [hst]) hout) rfl

omit [DecidableEq τ] in
theorem enrols_publish {t : Tables β} {c : κ} {u : Setup β} {stages : List Stage}
    (hu : s.sys.setups c = some u) (hst : u.stages = .publish :: stages) (hc : c ∉ s.sys.conns)
    (hr : record s.sys s.tables (.advance c) junk = some t) :
    Enrols s ⟨{ s.sys with conns := s.sys.conns ++ [c] }.setup c
      { u with stages := stages, index := s.sys.conns.length }, t⟩ := by
  obtain ⟨arr, r, hi, rfl⟩ := Tables.insert_cases (record_publish hu hst hr)
  exact .publish hc hi rfl rfl rfl (Workers.enlisted_later
    (x := { u with stages := stages, index := s.sys.conns.length }) rfl hu rfl (by simp [hst])) rfl

omit [DecidableEq τ] in
theorem enrols_advance {sys : Workers κ β τ} {t : Tables β} {c : κ} (hg : s.sys.Regular)
    (hs : s.sys.advance c = some sys) (hn : sys.fault.isSome = false)
    (hr : record s.sys s.tables (.advance c) junk = some t) : Enrols s ⟨sys, t⟩ := by
  simp only [Workers.advance] at hs
  split at hs
  case h_2 => cases hs
  case h_1 u hu =>
    split at hs
    case h_2 => cases hs
    case h_1 stage stages hst =>
      have hplan := hg.sound.planned c u hu
      rw [hst] at hplan
      obtain ⟨hout, -⟩ := Setup.plan_cons hplan
      have hlater : ∀ {x : Setup β} {sys : Workers κ β τ},
          sys.setups = Function.update s.sys.setups c (some x) → x.origin = u.origin →
          x.stages = stages → stage ≠ .attach →
          ∀ d e, sys.Enlisted d e ↔ s.sys.Enlisted d e := by
        intro x sys hset ho hx hne
        exact Workers.enlisted_later hset hu ho (by simp [hx, hst, hne.symm])
      have hrest : stage ≠ .attach → stage ≠ .publish → t = s.tables := fun ha hp =>
        (Option.some.inj ((record_rest hu hst ha hp).symm.trans hr)).symm
      cases stage with
      | attach =>
        simp only [Workers.stage] at hs
        split at hs
        case h_2 => cases hs
        case h_1 w b ho =>
          cases hs
          exact enrols_attach hu hst hout ho hr
      | publish =>
        simp only [Workers.stage] at hs
        split at hs
        case isFalse => cases hs
        case isTrue =>
          cases hs
          have hc : c ∉ s.sys.conns := by
            rw [hg.staged.published c u hu, hst]
            simp
          exact enrols_publish hu hst hc hr
      | start =>
        obtain rfl := hrest (by decide) (by decide)
        simp only [Workers.stage, Workers.schedule] at hs
        split at hs
        case isTrue => cases hs
        case isFalse =>
          split at hs <;> cases hs
          · cases hn
          · refine .still ⟨Workers.conns_release _ _, Workers.binds_release _ _,
              fun b => by rw [Workers.listeners_release]; rfl,
              hlater (x := { u with stages := stages }) (Workers.setups_release _ _) rfl rfl
                (by decide)⟩ rfl
      | thr | fd | idx =>
        obtain rfl := hrest (by decide) (by decide)
        cases hs
        exact .still ⟨rfl, rfl, fun _ => rfl,
          hlater (x := { u with stages := stages }) rfl rfl rfl (by decide)⟩ rfl

theorem enrols_step (hg : s.sys.Regular) (hs : s.step l = some s') : Enrols s s' := by
  obtain ⟨-, hsys, ht⟩ := step_sys hs
  obtain ⟨hf, he⟩ := Workers.effect_of_step hsys
  rcases ht with ⟨hn, ht⟩ | ⟨hn, ht⟩
  · exact .still (he.level_fault hf hn) ht
  · obtain ⟨l, junk⟩ := l
    simp only [Workers.step, hf, Option.isSome_none, Bool.false_eq_true, if_false] at hsys
    cases l with
    | bind b w => exact enrols_bind hsys hn ht
    | advance c => exact enrols_advance hg hsys hn ht
    | _ => exact .still (he.level (by simp) (by simp)) (Option.some.inj ht).symm

omit [DecidableEq τ] in
theorem Enrols.rostered (he : Enrols s s') (h : s.sys.Rostered) (ha : s.sys.Attached) :
    s'.sys.Rostered := by
  cases he with
  | still hl => exact h.level hl
  | @bind b w _ _ _ hb _ hbinds hconns hinner he =>
    refine ⟨hconns ▸ h.conns, ?_, fun d => ?_, fun d c => ?_⟩
    · rw [hbinds]
      exact Workers.nodup_snoc h.binds hb
    · rw [hinner]
      rcases eq_or_ne d b with rfl | hdb
      · simp
      · rw [Function.update_of_ne hdb]
        exact h.inner d
    · rw [he, hinner]
      rcases eq_or_ne d b with rfl | hdb
      · rw [Function.update_self]
        refine iff_of_false (by simp) ?_
        rintro ⟨u, v, hu, ho, -⟩
        exact hb (ha.origin c u v d hu ho)
      · rw [Function.update_of_ne hdb]
        exact h.origin d c
  | @attach c b _ _ _ hc _ hbinds hconns hinner he =>
    refine ⟨hconns ▸ h.conns, hbinds ▸ h.binds, fun d => ?_, fun d e => ?_⟩
    · rw [hinner]
      rcases eq_or_ne d b with rfl | hdb
      · rw [Function.update_self]
        exact Workers.nodup_snoc (h.inner d) fun hm => hc ((h.origin d c).mp hm)
      · rw [Function.update_of_ne hdb]
        exact h.inner d
    · rw [he, hinner, ← h.origin]
      rcases eq_or_ne d b with rfl | hdb
      · simp [Listener.attach]
      · simp [hdb]
  | publish hc _ hbinds hconns hinner he =>
    refine ⟨?_, hbinds ▸ h.binds, hinner ▸ h.inner, fun b c => ?_⟩
    · rw [hconns]
      exact Workers.nodup_snoc h.conns hc
    · rw [he, hinner]
      exact h.origin b c

end Site

end Fsock
