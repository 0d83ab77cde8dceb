import Fsock.Lib.Run
import Fsock.Core.FramerWalk
import Fsock.Core.WriterOrder
import Fsock.Core.SendIdle

namespace Fsock

open Transition Segment

variable {ρ : Type} {F : Framer ρ}

def WritePc.rank : WritePc ρ → Nat
  | .idle => 0
  | .top _ => 5
  | .inner _ _ => 4
  | .merge _ _ => 1
  | .settle _ _ => 4
  | .broadcast _ => 3
  | .stop => 2
  | .clear => 1

namespace ConnLabel

def handles : ConnLabel → Bool
  | .insert _ _ => false
  | .startWrite => false
  | .zombie => false
  | .ready => false
  | _ => true

def writes : ConnLabel → Bool
  | .writev _ => true
  | _ => false

def fuel : ConnLabel → Nat
  | .insert _ fr => 2 * fr.bytes.length
  | .ready => 5
  | _ => 0

end ConnLabel

namespace Conn

def work (tr : List (Conn ρ × ConnLabel)) : Nat := tr.countP fun x => x.2.handles

def fuel (tr : List (Conn ρ × ConnLabel)) : Nat := (tr.map fun x => x.2.fuel).sum

@[simp] theorem work_nil : work ([] : List (Conn ρ × ConnLabel)) = 0 := rfl

@[simp] theorem fuel_nil : fuel ([] : List (Conn ρ × ConnLabel)) = 0 := rfl

theorem work_snoc (tr : List (Conn ρ × ConnLabel)) (c : Conn ρ) (l : ConnLabel) :
    work (tr ++ [(c, l)]) = work tr + l.handles.toNat := by
  rw [work, work, List.countP_append, List.countP_singleton]
  cases l.handles <;> rfl

theorem fuel_snoc (tr : List (Conn ρ × ConnLabel)) (c : Conn ρ) (l : ConnLabel) :
    fuel (tr ++ [(c, l)]) = fuel tr + l.fuel := by
  simp [fuel]

def Ends (h : Items) (l : FrmList) : Prop :=
  ∃ ys, Seg some h.next l.first ys none ∧ l.last = ys.getLast?

structure Prompt (c : Conn ρ) (l : ConnLabel) : Prop where
  fresh : l = .writev .wouldBlock → ∀ r ol, c.pc = .inner r ol →
    r = 0 ∧ (c.ol.list.empty = false → Ends c.items ol.list)
  joined : l.inserts = true → ∀ r ol, c.pc = .merge r ol → Ends c.items ol.list

structure Yields (F : Framer ρ) (c : Conn ρ) (r : Nat) (ol : OutList ρ) : Prop where
  quiet : ∀ tr e, Run (Conn.step F) c tr e → Steps (fun _ l => l ≠ .ready) tr →
    Steps (fun _ l => l.writes = false) tr
  returns : ∃ n, ∀ tr e, Run (Conn.step F) c tr e → Steps (fun _ l => l ≠ .ready) tr → work tr ≤ n
  settled : ∀ tr e, Run (Conn.step F) c tr e → Steps (fun _ l => l ≠ .ready) tr → e.pc = .idle →
    (tr.map fun x => x.1.loss x.2).sum = r ∧ (e.wio = true ∨ e.zombie = true)
  restored : ∃ xs ys, Seg some c.items.next c.ol.list.first xs none ∧
    Seg some c.items.next ol.list.first ys none ∧ ∀ e, c.merge = some e →
      e.ol = ol ∧ e.items.frame = c.items.frame ∧
        Seg some e.items.next ol.list.first (ys ++ xs) none

def Yielding (F : Framer ρ) (c : Conn ρ) : Prop :=
  ∀ r ol, c.pc = .merge r ol → c.Yields F r ol

def Fresh (c : Conn ρ) : Prop := ∀ r ol, c.pc = .merge r ol →
  r = 0 ∧ (c.ol.list.empty = false → Ends c.items ol.list)

structure Threaded (F : Framer ρ) (c : Conn ρ) (xs ys : List Addr) : Prop where
  out : F.Spans c.items c.ol xs
  anchored : Anchored c.ol.list xs
  held : ∀ ol, c.pc.held = some ol → F.Spans c.items ol ys ∧ ys ≠ []
  kept : ∀ ol, c.pc.held = some ol → c.pc.removed = 0 → Anchored ol.list ys
  reset : ∀ ol, c.pc.held = some ol → F.progress c.ol = 0
  bare : c.pc.held = none → ys = []
  disjoint : xs.Disjoint ys
  awake : c.pc = .idle ∨ c.pc = .clear ∨ c.wio = true ∨ c.zombie = true

def effort (F : Framer ρ) (c : Conn ρ) (xs ys : List Addr) : Nat :=
  2 * (F.backlog c.items c.ol xs + c.pc.held.elim 0 fun ol => F.backlog c.items ol ys) + c.pc.rank

def Pays (F : Framer ρ) (c c' : Conn ρ) (xs ys : List Addr) (l : ConnLabel) : Prop :=
  ∃ xs' ys', c'.Threaded F xs' ys' ∧
    c'.effort F xs' ys' + l.handles.toNat ≤ c.effort F xs ys + l.fuel

variable {c c' : Conn ρ} {xs ys : List Addr} {l : ConnLabel}

theorem ends_iff {h : Items} {l : FrmList} (hc : Chain h l.first xs) :
    Ends h l ↔ l.last = xs.getLast? := by
  constructor
  · rintro ⟨ys, hs, hl⟩
    rwa [seg_unique (Option.some_injective _) (by simp) hs hc.forward] at hl
  · exact fun hl => ⟨xs, hc.forward, hl⟩

theorem threaded_init (hF : F.Walks) : (Conn.init F).Threaded F [] [] where
  out := Framer.spans_init hF
  anchored := Framer.anchored_init hF
  held _ ho := by cases ho
  kept _ ho := by cases ho
  reset _ ho := by cases ho
  bare _ := rfl
  disjoint := by simp
  awake := .inl rfl

theorem fresh_init : (Conn.init F).Fresh := fun _ _ hp => by cases hp

theorem Threaded.alive (h : c.Threaded F xs ys) : ∀ a ∈ ys, (c.items a).isSome := by
  cases hp : c.pc.held with
  | none => simp [h.bare hp]
  | some ol => exact (h.held ol hp).1.chain.alive

theorem Threaded.still (h : c.Threaded F xs ys) (hi : c'.items = c.items) (ho : c'.ol = c.ol)
    (hp : c'.pc.held = c.pc.held) (hr : c'.pc.removed = c.pc.removed)
    (ha : c'.pc = .idle ∨ c'.pc = .clear ∨ c'.wio = true ∨ c'.zombie = true) :
    c'.Threaded F xs ys where
  out := by rw [hi, ho]; exact h.out
  anchored := by rw [ho]; exact h.anchored
  held := by rw [hi, hp]; exact h.held
  kept := by rw [hp, hr]; exact h.kept
  reset := by rw [hp, ho]; exact h.reset
  bare := by rw [hp]; exact h.bare
  disjoint := h.disjoint
  awake := ha

theorem Threaded.drops (h : c.Threaded F xs ys) (hi : ∀ a ∈ xs, c'.items a = c.items a)
    (ho : c'.ol = c.ol) (hp : c'.pc.held = none)
    (ha : c'.pc = .idle ∨ c'.pc = .clear ∨ c'.wio = true ∨ c'.zombie = true) :
    c'.Threaded F xs [] where
  out := by rw [ho]; exact h.out.congr hi
  anchored := by rw [ho]; exact h.anchored
  held ol hol := by rw [hp] at hol; cases hol
  kept ol hol := by rw [hp] at hol; cases hol
  reset ol hol := by rw [hp] at hol; cases hol
  bare _ := rfl
  disjoint := by simp
  awake := ha

theorem Threaded.inside (h : c.Threaded F xs ys) (hi : c.pc ≠ .idle) (hc : c.pc ≠ .clear) :
    c.wio = true ∨ c.zombie = true :=
  (h.awake.resolve_left hi).resolve_left hc

theorem effort_bare (hp : c.pc.held = none) :
    c.effort F xs ys = 2 * F.backlog c.items c.ol xs + c.pc.rank := by
  rw [effort, hp]
  rfl

theorem effort_held {ol : OutList ρ} (hp : c.pc.held = some ol) : c.effort F xs ys =
    2 * (F.backlog c.items c.ol xs + F.backlog c.items ol ys) + c.pc.rank := by
  rw [effort, hp]
  rfl

theorem pays_bare (h : c.Threaded F xs ys) (hi : c'.items = c.items) (ho : c'.ol = c.ol)
    (hp : c'.pc.held = none)
    (ha : c'.pc = .idle ∨ c'.pc = .clear ∨ c'.wio = true ∨ c'.zombie = true)
    (hr : c'.pc.rank + l.handles.toNat ≤ c.pc.rank + l.fuel) : c.Pays F c' xs ys l := by
  refine ⟨xs, [], h.drops (fun a _ => by rw [hi]) ho hp ha, ?_⟩
  rw [effort_bare hp, effort, hi, ho]
  omega

theorem pays_insert (hF : F.Walks) (h : c.Threaded F xs ys) {li : Addr} {fr : Frame}
    (hins : Inserts F c li fr c') : c.Pays F c' xs ys (.insert li fr) := by
  obtain ⟨hi, ho⟩ := Prod.mk.inj hins.lists
  obtain ⟨zs, hspan, hanchor, -, hmem, hprog, hback, hother⟩ :=
    h.out.insert hF h.anchored hins.fresh rfl
  have hli : li ∉ ys := fun hm => by simpa [hins.fresh] using h.alive li hm
  have hys : ∀ a ∈ ys, c'.items a = c.items a := by
    intro a ha
    rw [hi]
    exact hother a (fun hx => h.disjoint hx ha) fun he => hli (he ▸ ha)
  have hpc := hins.pc
  rw [← hi, ← ho] at hspan hback
  rw [← ho] at hanchor hprog
  refine ⟨zs, ys, ?_, ?_⟩
  · constructor
    · exact hspan
    · exact hanchor
    · intro ol hol
      rw [hpc] at hol
      exact ⟨(h.held ol hol).1.congr hys, (h.held ol hol).2⟩
    · rw [hpc]
      exact h.kept
    · intro ol hol
      rw [hpc] at hol
      rw [hprog, h.reset ol hol]
    · rw [hpc]
      exact h.bare
    · intro a ha hy
      rcases hmem a ha with hx | rfl
      · exact h.disjoint hx hy
      · exact hli hy
    · rw [hpc, hins.wio, hins.zombie]
      exact h.awake
  · have hh : c'.pc.held.elim 0 (fun ol => F.backlog c'.items ol ys) =
        c.pc.held.elim 0 fun ol => F.backlog c.items ol ys := by
      rw [hpc]
      cases c.pc.held with
      | none => rfl
      | some ol => exact Framer.backlog_congr hys
    rw [effort, effort, hh, hpc]
    simp only [ConnLabel.handles, ConnLabel.fuel, Bool.toNat_false] at hback ⊢
    omega

theorem pays_steal (hF : F.Walks) (h : c.Threaded F xs ys) {removed : Nat}
    (hp : c.pc = .top removed) (he : c.ol.list.empty = false) :
    c.Pays F { c with ol := F.init, pc := .inner removed c.ol } xs ys .steal := by
  have hin := h.inside (by simp [hp]) (by simp [hp])
  refine ⟨[], xs, ?_, ?_⟩
  · constructor
    · exact Framer.spans_init hF
    · exact Framer.anchored_init hF
    · intro ol hol
      cases hol
      exact ⟨h.out, fun hn => by simp [h.out.empty_eq.mpr hn] at he⟩
    · intro ol hol _
      cases hol
      exact h.anchored
    · intro _ _
      exact hF.init_progress
    · simp
    · simp
    · exact .inr (.inr hin)
  · rw [effort_held rfl, effort_bare (by rw [hp]; rfl), Framer.backlog_nil, hp]
    simp only [WritePc.rank, ConnLabel.handles, ConnLabel.fuel, Bool.toNat_true]
    omega

theorem pays_wrote (hF : F.Walks) (h : c.Threaded F xs ys) {n : Nat}
    (hs : c.writev F (.wrote n) = some c') : c.Pays F c' xs ys (.writev (.wrote n)) := by
  obtain ⟨removed, ol, hpc, hle, -, hi, ho, -, hpc'⟩ := wrote_eq hs
  have hp : c.pc.held = some ol := by rw [hpc]; rfl
  obtain ⟨hn, hwio, hzombie⟩ := wrote_frame hs
  have hin : c'.pc = .idle ∨ c'.pc = .clear ∨ c'.wio = true ∨ c'.zombie = true := by
    rw [hwio, hzombie]
    exact .inr (.inr (h.inside (by simp [hpc]) (by simp [hpc])))
  obtain ⟨hspan, hne⟩ := h.held ol hp
  have hlen : n ≤ F.backlog c.items ol ys := by
    have hpre := (hF.getIovs_prefix c.items ol 128 ys hspan.chain).length_le
    rw [List.length_drop] at hpre
    exact hle.trans hpre
  obtain ⟨k, -, hrk, hspan', hback, hlast, hother⟩ := hspan.written hF hlen
  rw [← hi] at hspan' hback hother
  rw [hrk] at hpc'
  generalize (F.written c.items ol n).2.1 = rest at hpc' hspan' hback hlast
  have hxs : ∀ a ∈ xs, c'.items a = c.items a := fun a hx => hother a fun hy => h.disjoint hx hy
  have hheld : c'.pc.held = if rest.list.empty then none else some rest := by
    rw [hpc', WritePc.held_remain]
  rcases Decidable.em (rest.list.empty = true) with he | he
  · rw [if_pos he] at hheld
    refine ⟨xs, [], h.drops hxs ho hheld hin, ?_⟩
    rw [effort_bare hheld, effort_held hp, hpc', hpc, ho, Framer.backlog_congr hxs, remain, if_pos he]
    simp only [WritePc.rank, ConnLabel.handles, ConnLabel.fuel, Bool.toNat_true]
    omega
  · rw [if_neg he] at hheld
    refine ⟨xs, ys.drop k, ?_, ?_⟩
    · constructor
      · rw [ho]
        exact h.out.congr hxs
      · rw [ho]
        exact h.anchored
      · intro _ hol
        cases hheld.symm.trans hol
        exact ⟨hspan', fun hd => he (hspan'.empty_eq.mpr hd)⟩
      · intro _ hol hr
        cases hheld.symm.trans hol
        rw [hpc', WritePc.removed_remain] at hr
        obtain ⟨rfl, rfl⟩ := Nat.add_eq_zero_iff.mp hr
        obtain ⟨pre, post, hys, hl, hpp⟩ := h.kept ol hp (by rw [hpc]; rfl)
        exact ⟨pre, post, hys, (hlast rfl hne).trans hl, hpp⟩
      · intro _ _
        rw [ho]
        exact h.reset ol hp
      · intro hol
        cases hheld.symm.trans hol
      · exact fun a hx hd => h.disjoint hx (List.mem_of_mem_drop hd)
      · exact hin
    · rw [effort_held hheld, effort_held hp, hpc', hpc, ho, Framer.backlog_congr hxs, remain, if_neg he]
      simp only [WritePc.rank, ConnLabel.handles, ConnLabel.fuel, Bool.toNat_true]
      omega

theorem spans_glue {h : Items} {cl ol : OutList ρ} (hx : F.Spans h cl xs) (hy : F.Spans h ol ys)
    (ha : Anchored ol.list ys) (hne : ys ≠ []) (hd : xs.Disjoint ys) :
    ∃ zs, zs <+: ys ∧ (cl.list.empty = true → zs = ys) ∧
      (cl.list.empty = false → ol.list.last = zs.getLast?) ∧
      F.Spans (glue h ol.list cl.list) ol (zs ++ xs) ∧ Anchored ol.list (zs ++ xs) ∧
      (glue h ol.list cl.list).frame = h.frame := by
  cases he : cl.list.empty with
  | true =>
    obtain rfl := hx.empty_eq.mp he
    have hg : glue h ol.list cl.list = h := if_pos he
    rw [hg]
    exact ⟨ys, List.prefix_refl ys, fun _ => rfl, by simp, by simpa using hy, by simpa using ha, rfl⟩
  | false =>
    obtain ⟨pre, post, rfl, hlast, hpp⟩ := ha
    rcases List.eq_nil_or_concat pre with rfl | ⟨ws, t, rfl⟩
    · obtain rfl := hpp rfl
      exact absurd rfl hne
    · rw [List.concat_eq_append] at hlast hy hd hne ⊢
      have ht : ol.list.last = some t := by simpa using hlast
      obtain ⟨x, hfirst⟩ : ∃ x, cl.list.first = some x :=
        Option.isSome_iff_exists.mp (by simpa [FrmList.empty] using he)
      have hg : glue h ol.list cl.list = (h.setNext t cl.list.first).setPrev x (some t) := by
        rw [glue, he, ht, hfirst]
        rfl
      have hdt : (ws ++ [t]).Disjoint xs := fun a hm hx => hd hx (List.mem_append_left _ hm)
      have hframe : (glue h ol.list cl.list).frame = h.frame := by simp [hg]
      refine ⟨ws ++ [t], List.prefix_append _ _, by simp, fun _ => hlast, ⟨?_, ?_⟩,
        ⟨ws ++ [t], xs, rfl, hlast, by simp⟩, hframe⟩
      · rw [hg]
        exact (hy.chain.relink hx.chain hdt).setPrev x (some t)
      · rw [wire_congr fun a _ => congrFun hframe a, List.take_append_of_le_length (by simp)]
        have hp := hy.progress
        rwa [List.take_append_of_le_length (by simp)] at hp

theorem pays_merge (h : c.Threaded F xs ys) (hf : c.Fresh) {removed : Nat} {ol : OutList ρ}
    (hpc : c.pc = .merge removed ol) : c.Pays F { c with
      items := glue c.items ol.list c.ol.list
      ol := ol
      pc := resume removed } xs ys .merge := by
  have hp : c.pc.held = some ol := by rw [hpc]; rfl
  obtain ⟨rfl, -⟩ := hf removed ol hpc
  obtain ⟨hy, hne⟩ := h.held ol hp
  obtain ⟨zs, hpre, -, -, hspan, hanchor, hframe⟩ :=
    spans_glue h.out hy (h.kept ol hp (by rw [hpc]; rfl)) hne h.disjoint
  refine ⟨zs ++ xs, [], ?_, ?_⟩
  · constructor
    · exact hspan
    · exact hanchor
    · simp
    · simp
    · simp
    · simp
    · simp
    · exact .inl rfl
  · have hz : (c.items.wire zs).length ≤ (c.items.wire ys).length := by
      obtain ⟨ws, rfl⟩ := hpre
      rw [wire_append, List.length_append]
      exact Nat.le_add_right ..
    have hr := h.reset ol hp
    rw [effort_bare rfl, effort_held hp, hpc, Framer.backlog, Framer.backlog, Framer.backlog, hr,
      wire_congr fun a _ => congrFun hframe a, wire_append, List.length_append]
    simp only [resume, if_pos, WritePc.rank, ConnLabel.handles, ConnLabel.fuel, Bool.toNat_true]
    omega

theorem pays_step (hF : F.Walks) (h : c.Threaded F xs ys) (hf : c.Fresh)
    (hs : c.step F l = some c') : c.Pays F c' xs ys l := by
  cases effect_of_step hs with
  | insert hi => exact pays_insert hF h hi
  | startWrite hp =>
    exact pays_bare h rfl rfl (by simp [hp]) (.inr (.inr (.inl rfl))) (by simp [ConnLabel.handles])
  | zombie => exact ⟨xs, ys, h.still rfl rfl rfl rfl (.inr (.inr (.inr rfl))), Nat.le_refl _⟩
  | skip hp => exact pays_bare h rfl rfl (by simp [hp]) h.awake (by simp [ConnLabel.handles])
  | enter hp hw =>
    exact pays_bare h rfl rfl rfl (.inr (.inr (.inl hw)))
      (by simp [hp, WritePc.rank, ConnLabel.handles, ConnLabel.fuel])
  | sent hp | bare hp | failed hp =>
    refine pays_bare h rfl rfl rfl (.inr (.inr (h.inside (by simp [hp]) (by simp [hp])))) ?_
    simp [hp, WritePc.rank, ConnLabel.handles, ConnLabel.fuel]
  | steal hp he => exact pays_steal hF h hp he
  | wrote => exact pays_wrote hF h hs
  | wouldBlock hp =>
    refine ⟨xs, ys, h.still rfl rfl (by simp [hp]) (by simp [hp])
      (.inr (.inr (h.inside (by simp [hp]) (by simp [hp])))), ?_⟩
    rw [effort_held rfl, effort_held (by rw [hp]; rfl), hp]
    simp [WritePc.rank, ConnLabel.handles, ConnLabel.fuel]
  | merge hp => exact pays_merge h hf hp
  | @settle _ mustStop wake hp =>
    refine pays_bare h rfl rfl ?_ (.inr (.inr (h.inside (by simp [hp]) (by simp [hp])))) ?_
    · cases wake <;> simp
    · cases wake <;> cases mustStop <;>
        simp [hp, leave, WritePc.rank, ConnLabel.handles, ConnLabel.fuel]
  | @broadcast mustStop hp =>
    refine pays_bare h rfl rfl (by simp) (.inr (.inr (h.inside (by simp [hp]) (by simp [hp])))) ?_
    cases mustStop <;> simp [hp, leave, WritePc.rank, ConnLabel.handles, ConnLabel.fuel]
  | stopWatcher hp =>
    exact pays_bare h rfl rfl rfl (.inr (.inl rfl))
      (by simp [hp, WritePc.rank, ConnLabel.handles, ConnLabel.fuel])
  | clearWriting hp =>
    exact pays_bare h rfl rfl rfl (.inl rfl)
      (by simp [hp, WritePc.rank, ConnLabel.handles, ConnLabel.fuel])

theorem merging_step {r : Nat} {ol : OutList ρ} (hs : c.step F l = some c')
    (hp : c'.pc = .merge r ol) :
    (l.inserts = true ∨ l = .zombie ∨ l = .writev .wouldBlock) := by
  cases effect_of_step hs with
  | insert => exact .inl rfl
  | zombie => exact .inr (.inl rfl)
  | wouldBlock => exact .inr (.inr rfl)
  | startWrite hi | skip hi => cases hi.symm.trans hp
  | wrote =>
    simp only [remain] at hp
    split at hp <;> cases hp
  | merge =>
    simp only [resume] at hp
    split at hp <;> cases hp
  | @settle _ mustStop wake => cases wake <;> cases mustStop <;> cases hp
  | @broadcast mustStop => cases mustStop <;> cases hp
  | _ => cases hp

theorem fresh_insert (hF : F.Walks) (h : c.Threaded F xs ys) (hf : c.Fresh) {li : Addr} {fr : Frame}
    (hins : Inserts F c li fr c') : c.Prompt (.insert li fr) ↔ c'.Fresh := by
  have hpc := hins.pc
  obtain ⟨hi, ho⟩ := Prod.mk.inj hins.lists
  obtain ⟨zs, hspan, -, hne, -, -, -, hother⟩ := h.out.insert hF h.anchored hins.fresh rfl
  have hli : li ∉ ys := fun hm => by simpa [hins.fresh] using h.alive li hm
  have hys : ∀ a ∈ ys, c'.items a = c.items a := by
    intro a ha
    rw [hi]
    exact hother a (fun hx => h.disjoint hx ha) fun he => hli (he ▸ ha)
  have hgrown : c'.ol.list.empty = false := by
    rw [← ho] at hspan
    rw [Bool.eq_false_iff, ne_eq, hspan.empty_eq]
    exact hne
  have hends : ∀ r ol, c.pc = .merge r ol → (Ends c'.items ol.list ↔ Ends c.items ol.list) := by
    intro r ol hm
    obtain ⟨hy, -⟩ := h.held ol (by rw [hm]; rfl)
    rw [ends_iff hy.chain, ends_iff (hy.congr hys).chain]
  constructor
  · intro hp r ol hm
    rw [hpc] at hm
    exact ⟨(hf r ol hm).1, fun _ => (hends r ol hm).mpr (hp.joined rfl r ol hm)⟩
  · intro hp
    refine ⟨by simp, fun _ r ol hm => (hends r ol hm).mp ?_⟩
    exact (hp r ol (hpc.trans hm)).2 hgrown

theorem fresh_step (hF : F.Walks) (h : c.Threaded F xs ys) (hf : c.Fresh)
    (hs : c.step F l = some c') : c.Prompt l ↔ c'.Fresh := by
  rcases Decidable.em (l.inserts = true) with hi | hi
  · cases l with
    | insert li fr => exact fresh_insert hF h hf (insert_spec hs)
    | _ => cases hi
  rcases eq_or_ne l (.writev .wouldBlock) with rfl | hw
  · cases effect_writev hs with
    | @wouldBlock removed ol hpc =>
      constructor
      · rintro hp _ _ ⟨⟩
        exact hp.fresh rfl removed ol hpc
      · intro hp
        refine ⟨fun _ r ol hm => ?_, fun he => absurd he hi⟩
        cases hpc.symm.trans hm
        exact hp removed ol rfl
  · refine iff_of_true ⟨fun he => absurd he hw, fun he => absurd he hi⟩ fun r ol hm => ?_
    rcases merging_step hs hm with he | rfl | he
    · exact absurd he hi
    · cases hs
      exact hf r ol hm
    · exact absurd he hw

def Lulled (c : Conn ρ) : Prop :=
  (c.pc = .idle ∨ ∃ ol, c.pc = .merge 0 ol) ∧ (c.wio = true ∨ c.zombie = true)

theorem lulled_step (h : c.Lulled) (hl : l ≠ .ready) (hs : c.step F l = some c') :
    c'.Lulled ∧ l.writes = false ∧ c.loss l = 0 ∧ c'.pc.rank + l.handles.toNat ≤ c.pc.rank := by
  obtain ⟨hp, hin⟩ := h
  have hout : ∀ {p}, c.pc = p → (∀ ol, p ≠ .merge 0 ol) → p ≠ .idle → False := by
    rintro p he hm hi
    rcases hp with hp | ⟨ol, hp⟩
    · exact hi (he.symm.trans hp)
    · exact hm ol (he.symm.trans hp)
  cases effect_of_step hs with
  | insert hins =>
    rw [Lulled, hins.pc, hins.wio, hins.zombie]
    exact ⟨⟨hp, hin⟩, rfl, rfl, Nat.le_refl _⟩
  | zombie => exact ⟨⟨hp, .inr rfl⟩, rfl, rfl, Nat.le_refl _⟩
  | startWrite => exact ⟨⟨hp, .inl rfl⟩, rfl, rfl, Nat.le_refl _⟩
  | skip | enter => exact absurd rfl hl
  | merge hm =>
    rcases hp with hp | ⟨ol, hp⟩
    · cases hm.symm.trans hp
    · cases hm.symm.trans hp
      exact ⟨⟨.inl rfl, hin⟩, rfl, rfl, by simp [hm, resume, WritePc.rank, ConnLabel.handles]⟩
  | sent hp | bare hp | steal hp | wrote hp | wouldBlock hp | failed hp | settle hp | broadcast hp
  | stopWatcher hp | clearWriting hp =>
    exact (hout hp (by simp) (by simp)).elim

theorem lulled_run {e : Conn ρ} (h : c.Lulled) {tr : List (Conn ρ × ConnLabel)}
    (hr : Run (Conn.step F) c tr e) (hq : Steps (fun _ l => l ≠ .ready) tr) :
    e.Lulled ∧ Steps (fun _ l => l.writes = false) tr ∧
      (tr.map fun x => x.1.loss x.2).sum = 0 ∧ e.pc.rank + work tr ≤ c.pc.rank := by
  induction hr with
  | nil => exact ⟨h, fun x hx => by simp at hx, rfl, Nat.le_refl _⟩
  | snoc hr hs ih =>
    obtain ⟨hq, hl⟩ := steps_snoc.mp hq
    obtain ⟨hd, hw, hz, hk⟩ := ih hq
    obtain ⟨hd', hw', hz', hk'⟩ := lulled_step hd hl hs
    refine ⟨hd', steps_snoc.mpr ⟨hw, hw'⟩, by simp [hz, hz'], ?_⟩
    rw [work_snoc]
    omega

theorem merge_eq {r : Nat} {ol : OutList ρ} (hp : c.pc = .merge r ol) : c.merge = some
    { c with items := glue c.items ol.list c.ol.list, ol := ol, pc := resume r } := by
  rw [merge, hp]

theorem prefix_last {zs : List Addr} (hn : ys.Nodup) (hp : zs <+: ys)
    (hl : zs.getLast? = ys.getLast?) : zs = ys := by
  obtain ⟨ws, rfl⟩ := hp
  rcases List.eq_nil_or_concat ws with rfl | ⟨vs, t, rfl⟩
  · simp
  · rw [List.concat_eq_append] at hn hl
    have ht : t ∈ zs := List.mem_of_getLast? (by simpa using hl)
    exact absurd rfl ((List.nodup_append.mp hn).2.2 t ht t (by simp))

theorem yields_fresh (h : c.Threaded F xs ys) (hf : c.Fresh) {r : Nat} {ol : OutList ρ}
    (hp : c.pc = .merge r ol) : c.Yields F r ol := by
  obtain ⟨rfl, hends⟩ := hf r ol hp
  have hheld : c.pc.held = some ol := by rw [hp]; rfl
  have hl : c.Lulled := ⟨.inr ⟨ol, hp⟩, h.inside (by simp [hp]) (by simp [hp])⟩
  obtain ⟨hy, hne⟩ := h.held ol hheld
  constructor
  · intro tr e hr hq
    exact (lulled_run hl hr hq).2.1
  · refine ⟨c.pc.rank, fun tr e hr hq => ?_⟩
    have hk := (lulled_run hl hr hq).2.2.2
    omega
  · intro tr e hr hq _
    obtain ⟨hd, -, hz, -⟩ := lulled_run hl hr hq
    exact ⟨hz, hd.2⟩
  · refine ⟨xs, ys, h.out.chain.forward, hy.chain.forward, fun e he => ?_⟩
    obtain ⟨zs, hpre, hsame, hlast, hspan, -, hframe⟩ :=
      spans_glue h.out hy (h.kept ol hheld (by rw [hp]; rfl)) hne h.disjoint
    have hz : zs = ys := by
      cases hemp : c.ol.list.empty with
      | true => exact hsame hemp
      | false =>
        have hl := (ends_iff hy.chain).mp (hends hemp)
        exact prefix_last hy.chain.nodup hpre ((hlast hemp).symm.trans hl)
    rw [merge_eq hp] at he
    cases he
    exact ⟨rfl, hframe, hz ▸ hspan.chain.forward⟩

def round : List ConnLabel := [.merge, .steal, .writev .wouldBlock]

theorem spin {r : Nat} {ol : OutList ρ} (hp : c.pc = .merge r ol) (hr : r ≠ 0)
    (hfull : ol.list.empty = false) : ∃ tr, tr.map Prod.snd = round ∧ Run (Conn.step F) c tr
      { c with items := glue c.items ol.list c.ol.list, ol := F.init, pc := .merge r ol } := by
  have hmerge : Conn.step F c .merge = some
      { c with items := glue c.items ol.list c.ol.list, ol := ol, pc := .top r } := by
    rw [step, merge_eq hp, resume, if_neg hr]
  have hsteal : Conn.step F
      { c with items := glue c.items ol.list c.ol.list, ol := ol, pc := .top r } .steal = some
      { c with items := glue c.items ol.list c.ol.list, ol := F.init, pc := .inner r ol } := by
    simp [step, steal, hfull]
  exact ⟨_, rfl, .cons hmerge (.cons hsteal (.cons rfl .nil))⟩

theorem spins {r : Nat} {ol : OutList ρ} (hp : c.pc = .merge r ol) (hr : r ≠ 0)
    (hfull : ol.list.empty = false) (n : Nat) : ∃ tr d, Run (Conn.step F) c tr d ∧
      (∀ x ∈ tr, x.2 ∈ round) ∧ work tr = 3 * n ∧ d.pc = .merge r ol := by
  induction n with
  | zero => exact ⟨[], c, .nil, by simp, rfl, hp⟩
  | succ n ih =>
    obtain ⟨tr, d, hrun, hmem, hwork, hd⟩ := ih
    obtain ⟨tr', hround, hrun'⟩ := spin (F := F) hd hr hfull
    refine ⟨tr ++ tr', _, hrun.trans hrun', ?_, ?_, rfl⟩
    · intro x hx
      rcases List.mem_append.mp hx with hx | hx
      · exact hmem x hx
      · exact hround ▸ List.mem_map_of_mem hx
    · have hthree : work tr' = 3 := by
        have hc := List.countP_map (p := ConnLabel.handles) (f := Prod.snd) (l := tr')
        rw [hround] at hc
        exact hc.symm
      rw [work, List.countP_append, ← work, ← work, hwork, hthree]
      omega

theorem never_yields {r : Nat} {ol : OutList ρ} (hp : c.pc = .merge r ol) (hr : r ≠ 0)
    (hfull : ol.list.empty = false) : ¬ c.Yields F r ol := by
  intro hY
  obtain ⟨n, hn⟩ := hY.returns
  obtain ⟨tr, d, hrun, hmem, hwork, -⟩ := spins (F := F) hp hr hfull (n + 1)
  have hq : Steps (fun _ l => l ≠ .ready) tr := fun x hx he =>
    absurd (he ▸ hmem x hx) (by decide)
  have hle := hn tr d hrun hq
  omega

theorem fresh_yields (h : c.Threaded F xs ys) (hY : c.Yielding F) : c.Fresh := by
  intro r ol hp
  have hheld : c.pc.held = some ol := by rw [hp]; rfl
  obtain ⟨hy, hne⟩ := h.held ol hheld
  have hfull : ol.list.empty = false := by
    rw [Bool.eq_false_iff, ne_eq, hy.empty_eq]
    exact hne
  obtain rfl : r = 0 := by
    by_contra hr
    exact never_yields hp hr hfull (hY r ol hp)
  refine ⟨rfl, fun hemp => ?_⟩
  obtain ⟨xs', ys', hx', hy', hback⟩ := (hY 0 ol hp).restored
  obtain ⟨-, -, hseg⟩ := hback _ (merge_eq hp)
  obtain ⟨zs, -, -, hlast, hspan, -, -⟩ :=
    spans_glue h.out hy (h.kept ol hheld (by rw [hp]; rfl)) hne h.disjoint
  have hinj := Option.some_injective Addr
  obtain rfl := seg_unique hinj (by simp) hx' h.out.chain.forward
  obtain rfl := seg_unique hinj (by simp) hy' hy.chain.forward
  obtain rfl := List.append_cancel_right (seg_unique hinj (by simp) hseg hspan.chain.forward)
  exact (ends_iff hy.chain).mpr (hlast hemp)

theorem paid_run (hF : F.Walks) {tr : List (Conn ρ × ConnLabel)}
    (hr : Run (Conn.step F) (Conn.init F) tr c) (hp : Steps Prompt tr) :
    ∃ xs ys, c.Threaded F xs ys ∧ c.Fresh ∧ c.effort F xs ys + work tr ≤ fuel tr := by
  induction hr with
  | nil =>
    refine ⟨[], [], threaded_init hF, fresh_init, ?_⟩
    rw [effort_bare rfl]
    simp [Conn.init, Framer.backlog_nil, WritePc.rank]
  | snoc hr hs ih =>
    obtain ⟨hp, hl⟩ := steps_snoc.mp hp
    obtain ⟨xs, ys, h, hf, hk⟩ := ih hp
    obtain ⟨xs', ys', h', hk'⟩ := pays_step hF h hf hs
    refine ⟨xs', ys', h', (fresh_step hF h hf hs).mp hl, ?_⟩
    rw [work_snoc, fuel_snoc]
    omega

theorem would_block_ends (hF : F.Walks) {tr : List (Conn ρ × ConnLabel)} {c : Conn ρ}
    (hr : Run (Conn.step F) (Conn.init F) tr c) :
    (Steps Prompt tr ↔ Visits (Yielding F) tr c) ∧ (Steps Prompt tr → work tr ≤ fuel tr) := by
  constructor
  · refine Run.exact (A := fun _ _ => True)
      (I := fun c => (∃ xs ys, c.Threaded F xs ys) ∧ c.Fresh) ?_ ?_ ?_ ?_ hr fun _ _ => trivial
    · exact ⟨⟨[], [], threaded_init hF⟩, fresh_init⟩
    · rintro c ⟨⟨xs, ys, h⟩, hf⟩ r ol hp
      exact yields_fresh h hf hp
    · rintro c l c' ⟨⟨xs, ys, h⟩, hf⟩ - hc hs
      obtain ⟨xs', ys', h', -⟩ := pays_step hF h hf hs
      exact ⟨⟨xs', ys', h'⟩, (fresh_step hF h hf hs).mp hc⟩
    · rintro c l c' ⟨⟨xs, ys, h⟩, hf⟩ - hc hs hY
      obtain ⟨xs', ys', h', -⟩ := pays_step hF h hf hs
      exact hc ((fresh_step hF h hf hs).mpr (fresh_yields h' hY))
  · intro hp
    obtain ⟨xs, ys, -, -, hk⟩ := paid_run hF hr hp
    omega

theorem tame_prompt (hw : l = .writev .wouldBlock → c.pc.removed = 0 ∧ c.ol.list.empty = true)
    (hi : l.inserts = true → c.pc.held.isNone = true) : c.Prompt l where
  fresh he r ol hp := by
    obtain ⟨hr, hemp⟩ := hw he
    rw [hp] at hr
    exact ⟨hr, by simp [hemp]⟩
  joined he r ol hp := by
    have hn := hi he
    rw [hp] at hn
    cases hn

def parked : List ConnLabel :=
  [.insert 1 (letter 65), .insert 2 (letter 66), .startWrite, .ready, .steal, .writev .wouldBlock,
    .merge, .insert 3 (letter 67), .ready, .steal, .writev (.wrote 3), .steal, .settle false,
    .stopWatcher, .clearWriting]

theorem would_block_ends_parked :
    Visits (Yielding listFramer) (trace (Conn.step listFramer) (Conn.init listFramer) parked)
      (final (Conn.step listFramer) (Conn.init listFramer) parked) ∧
    work (trace (Conn.step listFramer) (Conn.init listFramer) parked) ≤
      fuel (trace (Conn.step listFramer) (Conn.init listFramer) parked) := by
  have htame : ∀ x ∈ trace (Conn.step listFramer) (Conn.init listFramer) parked,
      (x.2 = .writev .wouldBlock → x.1.pc.removed = 0 ∧ x.1.ol.list.empty = true) ∧
        (x.2.inserts = true → x.1.pc.held.isNone = true) := by decide
  have hp : Steps Prompt (trace (Conn.step listFramer) (Conn.init listFramer) parked) :=
    fun x hx => tame_prompt (htame x hx).1 (htame x hx).2
  obtain ⟨hexact, hbound⟩ := would_block_ends listFramer_walks
    (show Run (Conn.step listFramer) _ _ _ from run_final (rfl : (exec _ _ parked).isSome = true))
  exact ⟨hexact.mp hp, hbound hp⟩

def choked : List ConnLabel :=
  [.insert 1 (letter 65), .insert 2 (letter 66), .startWrite, .ready, .steal, .writev (.wrote 1),
    .writev .wouldBlock]

theorem choked_spins : ∃ c, Run (Conn.step listFramer) (Conn.init listFramer)
      (trace (Conn.step listFramer) (Conn.init listFramer) choked) c ∧
    c.pc.removed = 1 ∧ ¬ c.Yielding listFramer ∧
    ∀ n, ∃ tr d, Run (Conn.step listFramer) c tr d ∧ (∀ x ∈ tr, x.2 ∈ round) ∧ n ≤ work tr := by
  have hp : ∃ ol, (final (Conn.step listFramer) (Conn.init listFramer) choked).pc = .merge 1 ol ∧
      ol.list.empty = false := ⟨_, rfl, rfl⟩
  obtain ⟨ol, hp, hfull⟩ := hp
  refine ⟨_, run_final rfl, by rw [hp]; rfl, fun hY => ?_, fun n => ?_⟩
  · exact never_yields hp (by decide) hfull (hY 1 ol hp)
  · obtain ⟨tr, d, hrun, hmem, hwork, -⟩ := spins (F := listFramer) hp (by decide) hfull n
    exact ⟨tr, d, hrun, hmem, by omega⟩

end Conn

end Fsock
