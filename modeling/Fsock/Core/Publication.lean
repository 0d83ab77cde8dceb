import Fsock.Core.JobQueue
import Fsock.Core.WorkersRouted

namespace Fsock

open Transition

namespace Job

variable {κ β : Type}

def Ahead (c : κ) (js : List (Job κ β)) : Prop :=
  ∀ past j rest, js = past ++ j :: rest → j.peer = some c → j ≠ .thrConn c → .thrConn c ∈ past

variable {c : κ} {js : List (Job κ β)} {i : Job κ β}

theorem ahead_nil : Ahead c ([] : List (Job κ β)) := by
  intro past j rest h
  simp at h

theorem Ahead.snoc (h : Ahead c js) (hi : i.peer = some c → i ≠ .thrConn c → .thrConn c ∈ js) :
    Ahead c (js ++ [i]) := by
  intro past j rest hs hj hne
  rcases List.eq_nil_or_concat rest with rfl | ⟨rest, k, rfl⟩
  · obtain ⟨rfl, hij⟩ := List.append_inj' hs rfl
    obtain rfl : i = j := by simpa using hij
    exact hi hj hne
  · rw [List.concat_eq_append, ← List.cons_append, ← List.append_assoc] at hs
    exact h past j rest (List.append_inj' hs rfl).1 hj hne

theorem Ahead.splice {as bs : List (Job κ β)} (h : Ahead c (as ++ i :: bs)) (hi : i ≠ .thrConn c) :
    Ahead c (as ++ bs) := by
  intro past j rest hs hj hne
  rcases List.append_eq_append_iff.mp hs with ⟨ds, rfl, hb⟩ | ⟨ds, ha, hb⟩
  · have hm := h (as ++ i :: ds) j rest (by simp [hb]) hj hne
    simpa [hi.symm] using hm
  · cases ds with
    | nil =>
      have hm := h (as ++ [i]) j rest (by simp [show bs = j :: rest from hb.symm]) hj hne
      simpa [ha, hi.symm] using hm
    | cons d ds =>
      obtain ⟨rfl, rfl⟩ := List.cons.inj hb
      exact h past j (ds ++ i :: bs) (by simp [ha]) hj hne

variable [DecidableEq κ] [DecidableEq β]

theorem Ahead.dropLast (h : Ahead c js) (hi : i ≠ .thrConn c) : Ahead c (dropLast i js) := by
  rcases em (i ∈ js) with hm | hm
  · obtain ⟨as, bs, -, hs, he⟩ := List.exists_erase_eq (List.mem_reverse.mpr hm)
    have hjs : js = bs.reverse ++ i :: as.reverse := by
      rw [← List.reverse_reverse js, hs]
      simp
    rw [Fsock.dropLast, he, List.reverse_append]
    exact (hjs ▸ h).splice hi
  · rw [Fsock.dropLast, List.erase_of_not_mem (by simpa using hm), List.reverse_reverse]
    exact h

theorem mem_dropLast {j : Job κ β} (hj : j ≠ i) : j ∈ Fsock.dropLast i js ↔ j ∈ js := by
  rw [Fsock.dropLast, List.mem_reverse, List.mem_erase_of_ne hj, List.mem_reverse]

end Job

namespace Workers

variable {κ β τ : Type}

def Ready (s : Workers κ β τ) (c : κ) : Prop :=
  ∃ u, s.setups c = some u ∧ (s.peers c).thr = some u.thr ∧ (s.peers c).fd = u.fd ∧
    0 ≤ (s.peers c).idx ∧ s.conns[(s.peers c).idx.toNat]? = some c ∧ .start ∉ u.stages ∧
    Job.Ahead c (s.pool.kept u.thr)

def Published (s : Workers κ β τ) : Prop := ∀ c ∈ s.conns, s.Ready c

def Withholds (s : Workers κ β τ) (l : WorkersLabel κ β τ) : Prop :=
  ∀ c u, l = .advance c → s.setups c = some u → u.stages.head? ≠ some .publish

def Unharmed (s : Workers κ β τ) : Prop :=
  s.fault ≠ some .nullThread ∧ s.fault ≠ some .rawWatcher

def launched (s : Workers κ β τ) (c : κ) : Bool :=
  match s.setups c with
  | some u => .start ∉ u.stages
  | none => false

def visits (s : Workers κ β τ) : Option κ :=
  match s.bulk with
  | some ⟨_, _, .pushing (c :: _)⟩ => some c
  | _ => none

structure Patient (s : Workers κ β τ) (l : WorkersLabel κ β τ) : Prop where
  insert : ∀ t c, l = .insert t → s.sends t = some c → (s.peers c).writing = false →
    s.launched c = true
  bulk : ∀ c, l = .bulk → s.visits = some c → s.launched c = true

variable [DecidableEq κ] [DecidableEq β] [DecidableEq τ]

variable {s s' : Workers κ β τ} {l : WorkersLabel κ β τ} {loc loc' : Place Thr → List (Job κ β)}
  {c : κ} {w : Thr}

theorem Effect.withheld (he : Effect s l s') (hw : s.Withholds l) : s'.conns = s.conns := by
  cases he with
  | issue hi hk hp => exact (hi.reads _).2.1
  | publish hu hs hb => exact absurd (by rw [hs]; rfl) (hw _ _ rfl hu)
  | free => exact conns_release _ _
  | run hp hr => cases hr <;> rfl
  | _ => rfl

theorem unready_of_publish (h : s.Regular) (hw : ¬ s.Withholds l) (hs : s.step l = some s') :
    ¬ s'.Published := by
  simp only [Withholds, not_forall, not_not] at hw
  obtain ⟨c, u, rfl, hu, hst⟩ := hw
  obtain ⟨hf, -⟩ := effect_of_step hs
  obtain ⟨stages, hstages⟩ := List.head?_eq_some_iff.mp hst
  have hadv : s.advance c = some s' := by simpa [step, hf] using hs
  simp only [advance, hu, hstages, stage] at hadv
  split at hadv
  case isFalse => cases hadv
  case isTrue hb =>
    cases hadv
    intro hp
    obtain ⟨v, hv, -, -, -, -, hn, -⟩ := hp c (by simp [setup])
    simp only [setup, Function.update_self, Option.some.injEq] at hv
    subst hv
    have hplan := h.sound.planned c u hu
    rw [hstages] at hplan
    exact hn (Setup.plan_publish hplan).2

theorem Effect.kept (he : Effect s l s') (v : Thr) : s'.pool.kept v = s.pool.kept v ∨
    (∃ j k, Issue s l (some v) j k ∧ s'.pool.kept v = s.pool.kept v ++ [j]) ∨
    (∃ b c todo, l = .bulk ∧ s.bulk = some b ∧ b.phase = .pushing (c :: todo) ∧
      (s.peers c).thr = some v ∧ s'.pool.kept v = s.pool.kept v ++ [.read b.start c]) ∨
    ∃ b c, s'.pool.kept v = dropLast (.read b c) (s.pool.kept v) := by
  have hsame : s'.pool.kept = s.pool.kept → s'.pool.kept v = s.pool.kept v := fun h => by rw [h]
  cases he with
  | @issue l w j k pool hi hk hp =>
    have hkept := Pool.schedule_kept hp
    rw [(hi.frame _).1]
    change pool.kept v = _ ∨ _
    rcases eq_or_ne v w with rfl | hvw
    · exact .inr (.inl ⟨j, k, hi, by rw [Pool.scheduleTaskSignal, hkept, Function.update_self]⟩)
    · exact .inl (by rw [hkept, Function.update_of_ne hvw])
  | @push b c todo w pool hb hp ht hs =>
    have hkept := Pool.schedule_kept hs
    rcases eq_or_ne v w with rfl | hvw
    · exact .inr (.inr (.inl ⟨b, c, todo, rfl, hb, hp, ht, by
        rw [phase, hkept, Function.update_self]⟩))
    · exact .inl (by rw [phase, hkept, Function.update_of_ne hvw])
  | @remove b c todo w pool hb hp ht hs =>
    rcases Pool.remove_kept hs with hkept | hkept
    · exact .inl (by rw [phase, hkept])
    · rcases eq_or_ne v w with rfl | hvw
      · exact .inr (.inr (.inr ⟨!b.start, c, by rw [phase, hkept, Function.update_self]⟩))
      · exact .inl (by rw [phase, hkept, Function.update_of_ne hvw])
  | copyJobs hh hk hp => exact .inl (hsame (Pool.copyJobs_kept hp))
  | pop hp => exact .inl (hsame (Pool.pop_kept hp))
  | run hp hr =>
    refine .inl (hsame ?_)
    rw [hr.frame.1]
    exact Pool.done_kept hp
  | free => exact .inl (by rw [pool_release])
  | _ => exact .inl rfl

theorem Effect.keeps (he : Effect s l s') (h : .thrConn c ∈ s.pool.kept w) :
    .thrConn c ∈ s'.pool.kept w := by
  rcases he.kept w with hk | ⟨j, k, -, hk⟩ | ⟨b, d, todo, -, -, -, -, hk⟩ | ⟨b, d, hk⟩
  · rwa [hk]
  · rw [hk]
    exact List.mem_append_left _ h
  · rw [hk]
    exact List.mem_append_left _ h
  · rw [hk, Job.mem_dropLast]
    · exact h
    · cases b <;> nofun

structure Slotted (s : Workers κ β τ) : Prop where
  fd : ∀ c u, s.setups c = some u → .fd ∉ u.stages → (s.peers c).fd = u.fd
  idx : ∀ c u, s.setups c = some u → .idx ∉ u.stages → (s.peers c).idx = u.index
  slot : ∀ c u, s.setups c = some u → .publish ∉ u.stages →
    0 ≤ u.index ∧ s.conns[u.index.toNat]? = some c
  queued : ∀ c u, s.setups c = some u → .start ∉ u.stages → .thrConn c ∈ s.pool.kept u.thr

omit [DecidableEq κ] [DecidableEq β] [DecidableEq τ] in
theorem slotted_init (rcvhwm : Int) : (init rcvhwm : Workers κ β τ).Slotted :=
  ⟨fun _ _ => nofun, fun _ _ => nofun, fun _ _ => nofun, fun _ _ => nofun⟩

omit [DecidableEq κ] [DecidableEq β] [DecidableEq τ] in
theorem Slotted.mono (h : s.Slotted) (hsetups : ∀ d u, s'.setups d = some u → s.setups d = some u ∨
      .fd ∈ u.stages ∧ .idx ∈ u.stages ∧ .publish ∈ u.stages ∧ .start ∈ u.stages)
    (hfd : ∀ d, (s'.peers d).fd = (s.peers d).fd) (hidx : ∀ d, (s'.peers d).idx = (s.peers d).idx)
    (hconns : s'.conns = s.conns)
    (hkept : ∀ d w, .thrConn d ∈ s.pool.kept w → .thrConn d ∈ s'.pool.kept w) : s'.Slotted := by
  refine ⟨fun d u hu hn => ?_, fun d u hu hn => ?_, fun d u hu hn => ?_, fun d u hu hn => ?_⟩
  · rw [hfd]
    exact h.fd d u ((hsetups d u hu).resolve_right fun hm => hn hm.1) hn
  · rw [hidx]
    exact h.idx d u ((hsetups d u hu).resolve_right fun hm => hn hm.2.1) hn
  · rw [hconns]
    exact h.slot d u ((hsetups d u hu).resolve_right fun hm => hn hm.2.2.1) hn
  · exact hkept d _ (h.queued d u ((hsetups d u hu).resolve_right fun hm => hn hm.2.2.2) hn)

omit [DecidableEq β] [DecidableEq τ] in
theorem Slotted.advance {x : Setup β} (h : s.Slotted)
    (hset : s'.setups = Function.update s.setups c (some x))
    (hother : ∀ d, d ≠ c → (s'.peers d).fd = (s.peers d).fd ∧ (s'.peers d).idx = (s.peers d).idx)
    (hconns : ∀ (n : Nat) d, s.conns[n]? = some d → s'.conns[n]? = some d)
    (hkept : ∀ d w, .thrConn d ∈ s.pool.kept w → .thrConn d ∈ s'.pool.kept w)
    (hfd : .fd ∉ x.stages → (s'.peers c).fd = x.fd)
    (hidx : .idx ∉ x.stages → (s'.peers c).idx = x.index)
    (hslot : .publish ∉ x.stages → 0 ≤ x.index ∧ s'.conns[x.index.toNat]? = some c)
    (hstart : .start ∉ x.stages → .thrConn c ∈ s'.pool.kept x.thr) : s'.Slotted := by
  have hcases : ∀ d v, s'.setups d = some v → d = c ∧ v = x ∨ d ≠ c ∧ s.setups d = some v :=
    fun d v hv => update_some (hset ▸ hv)
  refine ⟨fun d v hv hn => ?_, fun d v hv hn => ?_, fun d v hv hn => ?_, fun d v hv hn => ?_⟩
  · rcases hcases d v hv with ⟨rfl, rfl⟩ | ⟨hdc, hv⟩
    · exact hfd hn
    · rw [(hother d hdc).1]
      exact h.fd d v hv hn
  · rcases hcases d v hv with ⟨rfl, rfl⟩ | ⟨hdc, hv⟩
    · exact hidx hn
    · rw [(hother d hdc).2]
      exact h.idx d v hv hn
  · rcases hcases d v hv with ⟨rfl, rfl⟩ | ⟨hdc, hv⟩
    · exact hslot hn
    · obtain ⟨hpos, hget⟩ := h.slot d v hv hn
      exact ⟨hpos, hconns _ d hget⟩
  · rcases hcases d v hv with ⟨rfl, rfl⟩ | ⟨hdc, hv⟩
    · exact hstart hn
    · exact hkept d _ (h.queued d v hv hn)

omit [DecidableEq β] [DecidableEq τ] in
theorem Slotted.launch {x : Setup β} (h : s.Slotted)
    (hset : s'.setups = Function.update s.setups c (some x)) (hx : x.stages = x.plan)
    (hpeers : s'.peers = s.peers) (hconns : s'.conns = s.conns)
    (hkept : ∀ d w, .thrConn d ∈ s.pool.kept w → .thrConn d ∈ s'.pool.kept w) : s'.Slotted := by
  refine h.mono (fun d v hv => ?_) (fun _ => by rw [hpeers]) (fun _ => by rw [hpeers]) hconns hkept
  rcases update_some (hset ▸ hv) with ⟨rfl, rfl⟩ | ⟨-, hv⟩
  · rw [hx]
    exact .inr ⟨v.plan_mem _ (by simp), v.plan_mem _ (by simp), v.plan_mem _ (by simp),
      v.plan_mem _ (by simp)⟩
  · exact .inl hv

omit [DecidableEq β] [DecidableEq τ] in
theorem Slotted.fields {f : Endpoint → Endpoint} (h : s.Slotted)
    (hpeers : s'.peers = (s.modify c f).peers) (hfd : (f (s.peers c)).fd = (s.peers c).fd)
    (hidx : (f (s.peers c)).idx = (s.peers c).idx) (hset : s'.setups = s.setups)
    (hconns : s'.conns = s.conns)
    (hkept : ∀ d w, .thrConn d ∈ s.pool.kept w → .thrConn d ∈ s'.pool.kept w) : s'.Slotted := by
  refine h.mono (fun d u hu => .inl (hset ▸ hu)) (fun d => ?_) (fun d => ?_) hconns hkept
  · rw [hpeers]
    exact s.modify_field c f Endpoint.fd hfd d
  · rw [hpeers]
    exact s.modify_field c f Endpoint.idx hidx d

omit [DecidableEq κ] [DecidableEq β] [DecidableEq τ] in
theorem Slotted.later (h : s.Slotted) {u : Setup β} {stage : Stage} {stages : List Stage}
    (hu : s.setups c = some u) (hst : u.stages = stage :: stages) :
    (stage ≠ .fd → .fd ∉ stages → (s.peers c).fd = u.fd) ∧
      (stage ≠ .idx → .idx ∉ stages → (s.peers c).idx = u.index) ∧
      (stage ≠ .publish → .publish ∉ stages →
        0 ≤ u.index ∧ s.conns[u.index.toNat]? = some c) ∧
      (stage ≠ .start → .start ∉ stages → .thrConn c ∈ s.pool.kept u.thr) := by
  have hout : ∀ {x : Stage}, stage ≠ x → x ∉ stages → x ∉ u.stages := fun hne hn =>
    hst ▸ List.not_mem_cons_of_ne_of_not_mem hne.symm hn
  exact ⟨fun hne hn => h.fd c u hu (hout hne hn), fun hne hn => h.idx c u hu (hout hne hn),
    fun hne hn => h.slot c u hu (hout hne hn), fun hne hn => h.queued c u hu (hout hne hn)⟩

omit [DecidableEq β] [DecidableEq τ] in
theorem Slotted.assign {u : Setup β} {stage : Stage} {stages : List Stage}
    {f : Endpoint → Endpoint} (h : s.Slotted) (ha : Assign u stage f) (hu : s.setups c = some u)
    (hst : u.stages = stage :: stages)
    (hset : s'.setups = Function.update s.setups c (some { u with stages := stages }))
    (hpeers : s'.peers = (s.modify c f).peers) (hconns : s'.conns = s.conns)
    (hkept : ∀ d w, .thrConn d ∈ s.pool.kept w → .thrConn d ∈ s'.pool.kept w) : s'.Slotted := by
  obtain ⟨hfd, hidx, hslot, hqueued⟩ := h.later hu hst
  have hstage : stage ≠ .publish ∧ stage ≠ .start := by cases ha <;> decide
  refine h.advance hset (fun d hdc => ?_) (fun _ _ hn => hconns ▸ hn) hkept (fun hn => ?_)
    (fun hn => ?_) (fun hn => ?_) fun hn => hkept c _ (hqueued hstage.2 hn)
  · rw [hpeers, modify_of_ne s c f hdc]
    exact ⟨rfl, rfl⟩
  · rw [hpeers, modify_self]
    cases ha with
    | fd => rfl
    | thr | idx => exact hfd (by decide) hn
  · rw [hpeers, modify_self]
    cases ha with
    | idx => rfl
    | thr | fd => exact hidx (by decide) hn
  · rw [hconns]
    exact hslot hstage.1 hn

theorem slotted_step (hs : s.Sound) (h : s.Slotted) (he : Effect s l s') : s'.Slotted := by
  have hkeeps : ∀ d w, .thrConn d ∈ s.pool.kept w → .thrConn d ∈ s'.pool.kept w := fun d w =>
    he.keeps
  have hstill : s'.setups = s.setups → s'.peers = s.peers → s'.conns = s.conns → s'.Slotted :=
    fun hset hpeers hconns => h.mono (fun d u hu => .inl (hset ▸ hu)) (fun _ => by rw [hpeers])
      (fun _ => by rw [hpeers]) hconns hkeeps
  cases he with
  | @issue l w j k pool hi hk hp =>
    cases hi with
    | bind => exact hstill rfl rfl rfl
    | join => exact hstill rfl rfl rfl
    | insert =>
      exact h.fields (f := fun p => { p with writing := true }) rfl rfl rfl rfl rfl hkeeps
    | @start c u stages hu hst =>
      obtain ⟨hfd, hidx, hslot, -⟩ := h.later hu hst
      refine h.advance (x := { u with stages := stages }) (setups_release _ _)
        (fun d _ => by rw [peers_release]; exact ⟨rfl, rfl⟩)
        (fun _ _ hn => by rw [conns_release]; exact hn) hkeeps
        (fun hn => ?_) (fun hn => ?_) (fun hn => ?_) (fun _ => ?_)
      · rw [peers_release]
        exact hfd (by decide) hn
      · rw [peers_release]
        exact hidx (by decide) hn
      · rw [conns_release]
        exact hslot (by decide) hn
      · rw [pool_release]
        change Job.thrConn c ∈ pool.kept u.thr
        rw [Pool.schedule_kept hp, Function.update_self]
        exact List.mem_append_right _ (List.mem_singleton_self _)
  | connect hu => exact h.launch rfl rfl rfl rfl hkeeps
  | accept hu hl => exact h.launch rfl rfl rfl rfl hkeeps
  | @attach c u stages w b hu hst ho =>
    obtain ⟨hfd, hidx, hslot, hqueued⟩ := h.later hu hst
    exact h.advance (x := { u with stages := stages }) rfl (fun _ _ => ⟨rfl, rfl⟩)
      (fun _ _ hn => hn) hkeeps (hfd (by decide)) (hidx (by decide)) (hslot (by decide))
      (hqueued (by decide))
  | @publish c u stages hu hst hb =>
    obtain ⟨hfd, -, -, -⟩ := h.later hu hst
    have hplan := hs.planned c u hu
    rw [hst] at hplan
    obtain ⟨hidx, hstart⟩ := Setup.plan_publish hplan
    refine h.advance (x := { u with stages := stages, index := s.conns.length }) rfl
      (fun _ _ => ⟨rfl, rfl⟩) (fun n d hn => ?_) hkeeps (hfd (by decide))
      (fun hn => absurd hidx hn) (fun _ => ⟨Int.natCast_nonneg _, ?_⟩) fun hn => absurd hstart hn
    · obtain ⟨hlt, -⟩ := List.getElem?_eq_some_iff.mp hn
      exact (List.getElem?_append_left hlt).trans hn
    · simp [setup]
  | assign ha hu hst => exact h.assign ha hu hst rfl rfl rfl hkeeps
  | free => exact hstill (setups_release _ _) (peers_release _ _) (conns_release _ _)
  | hangup =>
    exact h.fields (f := fun p => { p with rio := false, wio := false }) rfl rfl rfl rfl rfl hkeeps
  | mark => exact h.fields (f := fun p => { p with zombie := true }) rfl rfl rfl rfl rfl hkeeps
  | written => exact h.fields (f := fun p => { p with wio := false }) rfl rfl rfl rfl rfl hkeeps
  | clear => exact h.fields (f := fun p => { p with writing := false }) rfl rfl rfl rfl rfl hkeeps
  | run hp hr =>
    cases hr with
    | startRead => exact h.fields (f := fun p => { p with rio := true }) rfl rfl rfl rfl rfl hkeeps
    | stopRead => exact h.fields (f := fun p => { p with rio := false }) rfl rfl rfl rfl rfl hkeeps
    | startWrite => exact h.fields (f := fun p => { p with wio := true }) rfl rfl rfl rfl rfl hkeeps
    | thrConn =>
      exact h.fields (f := fun p => { p with started := true, rio := true, wio := false }) rfl rfl
        rfl rfl rfl hkeeps
    | _ => exact hstill rfl rfl rfl
  | _ => exact hstill rfl rfl rfl

theorem published_iff (rcvhwm : Int) {tr : List (Workers κ β τ × WorkersLabel κ β τ)}
    (hr : Run step (init rcvhwm) tr s) : Steps Withholds tr ↔ Visits Published tr s := by
  refine hr.exact (I := fun s => s.Regular ∧ s.conns = []) (A := fun _ _ => True)
    ⟨regular_init rcvhwm, rfl⟩ (fun s h c hm => ?_) (fun s l s' h _ hw hs => ?_)
    (fun s l s' h _ hw hs => ?_) fun _ _ => trivial
  · rw [h.2] at hm
    cases hm
  · obtain ⟨-, he⟩ := effect_of_step hs
    exact ⟨he.regular h.1, (he.withheld hw).trans h.2⟩
  · exact unready_of_publish h.1 hw hs

structure Orderly (s : Workers κ β τ) : Prop where
  regular : s.Regular
  slotted : s.Slotted
  ahead : ∀ c w, Job.Ahead c (s.pool.kept w)
  ran : ∀ c w, .thrConn c ∈ s.pool.ran w → (s.peers c).started = true
  held : ∀ b c todo, s.bulk = some b → b.phase = .removing c todo → ∃ w, (s.peers c).thr = some w
  unharmed : s.Unharmed

omit [DecidableEq τ] in
theorem orderly_init (rcvhwm : Int) : (init rcvhwm : Workers κ β τ).Orderly where
  regular := regular_init rcvhwm
  slotted := slotted_init rcvhwm
  ahead _ _ := Job.ahead_nil
  ran _ _ h := by cases h
  held _ _ _ := nofun
  unharmed := ⟨nofun, nofun⟩

omit [DecidableEq τ] in
theorem Orderly.launched (h : s.Orderly) (hl : s.launched c = true) :
    ∃ u, s.setups c = some u ∧ u.stages = [] ∧ (s.peers c).thr = some u.thr ∧
      .thrConn c ∈ s.pool.kept u.thr := by
  rw [Workers.launched] at hl
  split at hl
  case h_2 => cases hl
  case h_1 u hu =>
    have hn := of_decide_eq_true hl
    have hnil := Setup.plan_done (h.regular.sound.planned c u hu) hn
    refine ⟨u, hu, hnil, ?_, h.slotted.queued c u hu hn⟩
    rw [h.regular.staged.assigned c u hu, if_neg (by simp [hnil])]

omit [DecidableEq κ] [DecidableEq β] [DecidableEq τ] in
theorem visits_of_phase {b : Bulk κ} {todo : List κ} (hb : s.bulk = some b)
    (hp : b.phase = .pushing (c :: todo)) : s.visits = some c := by
  obtain ⟨holder, start, p⟩ := b
  obtain rfl := hp
  rw [visits, hb]

theorem Orderly.ahead_step (h : s.Orderly) (hp : s.Patient l) (he : Effect s l s') (c : κ)
    (w : Thr) : Job.Ahead c (s'.pool.kept w) := by
  have hled : ∀ {d}, s.launched d = true → (s.peers d).thr = some w →
      .thrConn d ∈ s.pool.kept w := by
    intro d hl ht
    obtain ⟨u, -, -, hu, hm⟩ := h.launched hl
    rw [ht, Option.some.injEq] at hu
    exact hu ▸ hm
  rcases he.kept w with hk | ⟨j, k, hi, hk⟩ | ⟨b, d, todo, hl, hb, hph, ht, hk⟩ | ⟨b, d, hk⟩
  · rw [hk]
    exact h.ahead c w
  · rw [hk]
    refine (h.ahead c w).snoc fun hpeer hne => ?_
    cases hi with
    | bind => cases hpeer
    | join => cases hpeer
    | start => exact absurd (congrArg Job.thrConn (Option.some.inj hpeer)) hne
    | insert hs ht hw =>
      obtain rfl := Option.some.inj hpeer
      exact hled (hp.insert _ _ rfl hs hw) ht
  · rw [hk]
    refine (h.ahead c w).snoc fun hpeer _ => ?_
    rw [Job.peer_read, Option.some.injEq] at hpeer
    subst hpeer
    exact hled (hp.bulk d hl (visits_of_phase hb hph)) ht
  · rw [hk]
    refine (h.ahead c w).dropLast ?_
    cases b <;> nofun

theorem Effect.ran (hc : s.Crewed loc) (he : Effect s l s') (h : .thrConn c ∈ s'.pool.ran w) :
    .thrConn c ∈ s.pool.ran w ∨ (s'.peers c).started = true := by
  have hsame : s'.pool.ran = s.pool.ran → .thrConn c ∈ s.pool.ran w := fun hr => hr ▸ h
  cases he with
  | issue hi hk hp =>
    refine .inl (hsame ?_)
    rw [(hi.frame _).1]
    exact (hc.filed.schedule hp).2.2.2.2
  | push hb hp ht hs => exact .inl (hsame (hc.filed.schedule hs).2.2.2.2)
  | remove hb hp ht hs => exact .inl (hsame (hc.filed.remove hs).2.2.2)
  | copyJobs hh hk hp => exact .inl (hsame (hc.filed.copyJobs hp).2.2.2.2)
  | pop hp =>
    obtain ⟨_, _, -, -, -, -, hr⟩ := hc.filed.pop hp
    exact .inl (hsame hr)
  | @run v task pool _ hp hran =>
    obtain ⟨-, -, -, -, hr⟩ := hc.filed.done hp
    rw [hran.frame.1] at h
    change Job.thrConn c ∈ pool.ran w at h
    rw [hr, Function.update_apply] at h
    split at h
    case isFalse => exact .inl h
    case isTrue hwv =>
      subst hwv
      rcases List.mem_append.mp h with h | h
      · exact .inl h
      · obtain rfl := List.mem_singleton.mp h
        cases hran with
        | raw hj => rcases hj with hj | hj | hj <;> cases hj
        | thrConn => exact .inr (by rw [modify_self])
  | free => exact .inl (hsame (by rw [pool_release]))
  | _ => exact .inl h

theorem Orderly.held_step (h : s.Orderly) (hp : s.Patient l) (he : Effect s l s') {b : Bulk κ}
    {todo : List κ} (hb : s'.bulk = some b) (hph : b.phase = .removing c todo) :
    ∃ w, (s'.peers c).thr = some w := by
  obtain ⟨loc, hc⟩ := h.regular.crewed
  suffices hold : ∃ w, (s.peers c).thr = some w by
    obtain ⟨w, hw⟩ := hold
    exact ⟨w, he.thr hc h.regular.staged hw⟩
  have hsame : s'.bulk = s.bulk → ∃ w, (s.peers c).thr = some w := fun hs =>
    h.held b c todo (hs ▸ hb) hph
  have hother : ∀ {x : Bulk κ} {p : Phase κ}, s'.bulk = some { x with phase := p } →
      (∀ d ds, p ≠ .removing d ds) → ∃ w, (s.peers c).thr = some w := by
    intro x p hb' hne
    rw [hb', Option.some.injEq] at hb
    subst hb
    exact absurd hph (hne c todo)
  have hvisited : ∀ {x : Bulk κ} {d : κ} {ds : List κ}, s'.bulk =
      some { x with phase := .removing d ds } → (∃ w, (s.peers d).thr = some w) →
      ∃ w, (s.peers c).thr = some w := by
    intro x d ds hb' hd
    rw [hb', Option.some.injEq] at hb
    subst hb
    obtain ⟨rfl, -⟩ := Phase.removing.inj hph
    exact hd
  cases he with
  | issue hi hk hpool => exact hsame (hi.frame _).2.1
  | pause => exact hother (x := ⟨_, _, .locking⟩) rfl nofun
  | resume => exact hother (x := ⟨_, _, .locking⟩) rfl nofun
  | lock => exact hother rfl nofun
  | unlock => exact hother rfl nofun
  | keep => exact hother rfl nofun
  | remove => exact hother rfl nofun
  | signal => exact hother rfl nofun
  | skip hb' hp' hq =>
    obtain ⟨u, -, -, hu, -⟩ := h.launched (hp.bulk _ rfl (visits_of_phase hb' hp'))
    exact hvisited rfl ⟨_, hu⟩
  | push hb' hp' ht hs => exact hvisited rfl ⟨_, ht⟩
  | free =>
    rw [bulk_release] at hb
    cases hb
  | run hpool hr => exact hsame hr.frame.2
  | _ => exact hsame rfl

omit [DecidableEq τ] in
theorem Orderly.started (h : s.Orderly) {j : Job κ β} (hw : s.pool.routine w = .task j)
    (hj : j.peer = some c) (hne : j ≠ .thrConn c) : (s.peers c).started = true := by
  obtain ⟨loc, hc⟩ := h.regular.crewed
  obtain ⟨past, hk, hpast⟩ := hc.filed.owed w
  rw [hw] at hpast
  refine h.ran c w ((h.ahead c w) (s.pool.ran w) j (loc (.batch w) ++ loc (.jobs w)) ?_ hj hne)
  rw [hk, hpast rfl]
  exact List.append_assoc ..

theorem Orderly.unharmed_step (h : s.Orderly) (hf : s.fault = none) (hp : s.Patient l)
    (he : Effect s l s') : s'.Unharmed := by
  have hplain : s'.fault = none → s'.Unharmed := fun hn => by
    rw [Unharmed, hn]
    exact ⟨nofun, nofun⟩
  obtain ⟨loc, hc⟩ := h.regular.crewed
  have hthr : ∀ {d : κ}, s.launched d = true → (s.peers d).thr ≠ none := by
    intro d hl hn
    obtain ⟨u, -, -, hu, -⟩ := h.launched hl
    rw [hn] at hu
    cases hu
  cases he with
  | issue hi hk hpool => exact hplain ((hi.frame _).2.2.trans hf)
  | refuse => exact ⟨nofun, nofun⟩
  | stray hi =>
    generalize hn : (none : Option Thr) = o at hi
    cases hi with
    | insert hs ht hw => exact absurd (ht.trans hn.symm) (hthr (hp.insert _ _ rfl hs hw))
    | _ => cases hn
  | null hb hph hn =>
    rcases hph with hph | hph
    · exact absurd hn (hthr (hp.bulk _ rfl (visits_of_phase hb hph)))
    · obtain ⟨w, hw⟩ := h.held _ _ _ hb hph
      rw [hn] at hw
      cases hw
  | free => exact hplain ((fault_release _ _).trans hf)
  | @run v task pool _ hpool hr =>
    obtain ⟨hv, -⟩ := hc.filed.done hpool
    cases hr with
    | @raw _ d hj hs =>
      have hst : (s.peers d).started = true := by
        rcases hj with rfl | rfl | rfl <;> exact h.started hv rfl nofun
      change (s.peers d).started = false at hs
      rw [hst] at hs
      cases hs
    | stop => exact ⟨nofun, nofun⟩
    | _ => exact hplain hf
  | _ => exact hplain hf

theorem orderly_step (h : s.Orderly) (hp : s.Patient l) (hs : s.step l = some s') : s'.Orderly := by
  obtain ⟨hf, he⟩ := effect_of_step hs
  obtain ⟨loc, hc⟩ := h.regular.crewed
  refine ⟨he.regular h.regular, slotted_step h.regular.sound h.slotted he,
    h.ahead_step hp he, fun c w hm => ?_, fun b c todo => h.held_step hp he, h.unharmed_step hf hp he⟩
  exact (he.ran hc hm).elim (fun hm => he.started h.regular (h.ran c w hm)) id

omit [DecidableEq τ] in
theorem Orderly.ready_iff (h : s.Orderly) : s.Ready c ↔ s.launched c = true := by
  constructor
  · rintro ⟨u, hu, -, -, -, -, hn, -⟩
    rw [Workers.launched, hu]
    exact decide_eq_true hn
  · intro hl
    obtain ⟨u, hu, hnil, ht, -⟩ := h.launched hl
    obtain ⟨hpos, hslot⟩ := h.slotted.slot c u hu (by simp [hnil])
    have hidx := h.slotted.idx c u hu (by simp [hnil])
    exact ⟨u, hu, ht, h.slotted.fd c u hu (by simp [hnil]), by rwa [hidx], by rwa [hidx],
      by simp [hnil], h.ahead c u.thr⟩

def Launching (s : Workers κ β τ) : Prop :=
  s.Unharmed ∧ ∀ c, s.Ready c ↔ s.launched c = true

theorem published_late (rcvhwm : Int) {tr : List (Workers κ β τ × WorkersLabel κ β τ)}
    (hr : Run step (init rcvhwm) tr s) :
    (Steps Withholds tr ↔ Visits Published tr s) ∧ (Steps Patient tr → Visits Launching tr s) :=
  ⟨published_iff rcvhwm hr, fun hp => visits_mono
    (fun _ h => ⟨h.unharmed, fun _ => h.ready_iff⟩) (hr.visits (orderly_init rcvhwm)
      (fun _ _ _ => orderly_step) hp)⟩

instance [Fintype κ] [Fintype τ] (s : Workers κ β τ) (l : WorkersLabel κ β τ) :
    Decidable (s.Patient l) :=
  decidable_of_iff ((∀ t c, l = .insert t → s.sends t = some c → (s.peers c).writing = false →
      s.launched c = true) ∧ ∀ c, l = .bulk → s.visits = some c → s.launched c = true)
    ⟨fun ⟨hi, hb⟩ => ⟨hi, hb⟩, fun h => ⟨h.insert, h.bulk⟩⟩

instance [Fintype κ] (s : Workers κ β τ) (l : WorkersLabel κ β τ) : Decidable (s.Withholds l) :=
  decidable_of_iff (∀ c, l = .advance c →
      ((s.setups c).all fun u => decide (u.stages.head? ≠ some .publish)) = true)
    ⟨fun h c u hl hu => by simpa [hu] using h c hl,
      fun h c hl => (Option.all_eq_true _ _).mpr fun u hu => decide_eq_true (h c u hl hu)⟩

def joining : List (WorkersLabel Bool Unit Unit) :=
  [established false 0, [.connect true 1 6, .advance true, .advance true]].flatten

def toggling : List (WorkersLabel Bool Unit Unit) :=
  [[.read 0 false (.frames 2 2), .deliver 0], List.replicate 11 .bulk, work 1].flatten

def early : List (WorkersLabel Bool Unit Unit) :=
  [joining, [.read 0 false (.frames 2 2), .deliver 0], List.replicate 11 .bulk,
    List.replicate 3 (.advance true), [.copyJobs 1, .pop 1, .run 1]].flatten

def orphan : List (WorkersLabel Bool Unit Unit) :=
  [established false 0, [.bind () 2], work 2, [.accept 2 () true 1 6, .advance true, .advance true,
    .read 0 false (.frames 2 2), .deliver 0], List.replicate 4 .bulk].flatten

def launching : List (WorkersLabel Bool Unit Unit) :=
  [joining, List.replicate 3 (.advance true), toggling].flatten

def unannounced : List (WorkersLabel Bool Unit Unit) :=
  [[.bind () 2], work 2, [.accept 2 () true 1 6, .advance true, .connect false 0 5]].flatten

theorem published_late_joined :
    Visits Launching (trace step (init 1) launching) (final step (init 1) launching) ∧
      ¬ Visits Published (trace step (init 1) launching) (final step (init 1) launching) ∧
      Visits Published (trace step (init 1) unannounced) (final step (init 1) unannounced) := by
  obtain ⟨hiff, hlaunch⟩ := published_late 1 (run_final (k := launching) (by decide +kernel))
  obtain ⟨hiff', -⟩ := published_late 1 (run_final (k := unannounced) (by decide +kernel))
  refine ⟨hlaunch (by decide +kernel), ?_, hiff'.mp (by decide +kernel)⟩
  rw [← hiff]
  decide +kernel

theorem published_unready : (∃ (s : Workers Bool Unit Unit) (tr : _),
      Run step (init 1) tr s ∧ ¬ s.Published) ∧
    (∃ (s : Workers Bool Unit Unit) (tr : _),
      Run step (init 1) tr s ∧ s.fault = some .rawWatcher) ∧
    ∃ (s : Workers Bool Unit Unit) (tr : _),
      Run step (init 1) tr s ∧ s.fault = some .nullThread := by
  refine ⟨⟨_, _, run_final (k := joining) (by decide +kernel), fun h => ?_⟩,
    ⟨_, _, run_final (k := early) (by decide +kernel), by decide +kernel⟩,
    ⟨_, _, run_final (k := orphan) (by decide +kernel), by decide +kernel⟩⟩
  obtain ⟨u, -, -, -, hpos, -⟩ := h true (by decide +kernel)
  revert hpos
  decide +kernel

end Workers

end Fsock
