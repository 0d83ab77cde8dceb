import Fsock.Core.Publication
import Fsock.Core.CloseQuiet
import Fsock.Core.TreeSweep

namespace Fsock

open Transition Parr

theorem Parr.Lists.part {arr : Parr} {n : Nat} (h : arr.Lists n) : Part 10 n (fun _ => true) arr := by
  rcases drained_filled h.1 h.2 with ⟨rfl, rfl⟩ | ⟨b, hd, rfl⟩
  · exact .gone nofun
  · exact .block ((drained_iff.mp hd).congr fun j _ => by simp)

namespace Workers

variable {κ β τ : Type}

def Completed (s : Workers κ β τ) : Prop := ∀ c u, s.setups c = some u → u.stages = []

instance [Fintype κ] (s : Workers κ β τ) : Decidable s.Completed :=
  decidable_of_iff (∀ c, (s.setups c).all (fun u => u.stages.isEmpty) = true)
    ⟨fun h c u hu => by simpa [hu] using h c, fun h c => by
      cases hu : s.setups c with
      | none => rfl
      | some u => simp [h c u hu]⟩

end Workers

namespace Site

variable {κ β τ : Type} [DecidableEq κ] [DecidableEq β]

structure Planted (s : Site κ β τ) : Prop where
  built : s.Built
  rostered : s.sys.Rostered
  slotted : s.sys.Slotted
  stocked : s.Stocked

structure Torndown (s : Site κ β τ) (mem : Slots β → Int → Nat → Mem)
    (r r' : Tables β × List (Member κ β)) : Prop where
  binds : s.sys.bindParrTerm mem (s.tables, []) = .ok r
  conns : s.sys.connParrTerm mem .conns .conns r = .ok r'
  term : s.sys.sockTerm mem s.tables = .ok r'.2
  once : r'.2.Nodup
  all : ∀ m, m ∈ r'.2 ↔ m ∈ s.sys.members
  own : ∀ c ∈ s.sys.conns, s.sys.incoming c = true → ∃ p : Nat, (s.sys.peers c).idx = p ∧
    s.sys.conns[p]? = some c ∧ s.tables.conns.view p = some (.obj p)
  cleared : ∀ j, r.1.conns.view j =
    if s.sys.conns[j]?.any s.sys.incoming then none else s.tables.conns.view j
  empty : ∀ k, (r'.1.row k).size = .ok 0

def TearsDown (s : Site κ β τ) : Prop := ∀ mem, ∃ r r', s.Torndown mem r r'

variable {s s' : Site κ β τ}

theorem planted_init (rcvhwm : Int) : (init rcvhwm : Site κ β τ).Planted where
  built := built_init rcvhwm
  rostered := Workers.rostered_init rcvhwm
  slotted := Workers.slotted_init rcvhwm
  stocked _ := lists_init

theorem Planted.rooted (h : s.Planted) (hd : s.sys.Completed) : s.sys.Rooted := by
  have hstaged := h.built.regular.staged
  have henlisted : ∀ {b c}, c ∈ (s.sys.listeners b).conns →
      ∃ u w, s.sys.setups c = some u ∧ u.origin = some (w, b) := by
    intro b c hc
    obtain ⟨u, w, hu, ho, -⟩ := (h.rostered.origin b c).mp hc
    exact ⟨u, w, hu, ho⟩
  have hsetup : ∀ {c}, s.sys.incoming c = true → ∃ u w b, s.sys.setups c = some u ∧
      u.origin = some (w, b) := by
    intro c hin
    rw [Workers.incoming] at hin
    split at hin
    case h_2 => cases hin
    case h_1 u hu =>
      obtain ⟨⟨w, b⟩, ho⟩ := Option.isSome_iff_exists.mp hin
      exact ⟨u, w, b, hu, ho⟩
  refine ⟨fun k => ?_, fun b c hc => ?_, fun c hc hin => ?_, fun b d c hb hc => ?_,
    fun c hc hin => ?_⟩
  · cases k with
    | binds => exact h.rostered.binds.map fun _ _ => Member.bind.inj
    | conns => exact h.rostered.conns.map fun _ _ => Member.conn.inj
    | bnd b => exact (h.rostered.inner b).map fun _ _ => Member.conn.inj
  · obtain ⟨u, w, hu, ho⟩ := henlisted hc
    refine ⟨h.built.attached.origin c u w b hu ho, ?_, ?_⟩
    · rw [hstaged.published c u hu, hd c u hu]
      exact List.not_mem_nil
    · simp [Workers.incoming, hu, ho]
  · obtain ⟨u, w, b, hu, ho⟩ := hsetup hin
    refine ⟨b, (h.rostered.origin b c).mpr ⟨u, w, hu, ho, ?_⟩⟩
    rw [hd c u hu]
    exact List.not_mem_nil
  · obtain ⟨u, w, hu, ho⟩ := henlisted hb
    obtain ⟨v, x, hv, ho'⟩ := henlisted hc
    rw [hu, Option.some.injEq] at hv
    subst hv
    rw [ho, Option.some.injEq, Prod.mk.injEq] at ho'
    exact ho'.2
  · obtain ⟨u, w, b, hu, -⟩ := hsetup hin
    have hnil := hd c u hu
    obtain ⟨hpos, hslot⟩ := h.slotted.slot c u hu (by simp [hnil])
    refine ⟨u.index.toNat, ?_, hslot⟩
    rw [h.slotted.idx c u hu (by simp [hnil]), Int.toNat_of_nonneg hpos]

theorem Planted.sweep (h : s.Planted) : s.sys.Sweep (s.tables, []) := by
  have hlive : ∀ k, ∀ j < (s.sys.roster k).length, s.sys.live [] k j = true := fun k j hj =>
    Workers.live_eq_true.mpr ⟨_, List.getElem?_eq_getElem hj, List.not_mem_nil⟩
  refine ⟨fun k => ?_, .nil⟩
  refine Part.congr (f := fun _ => true) ?_ (hlive k)
  cases k with
  | binds => simpa [Workers.roster, Tables.row] using h.built.kept.binds.part
  | conns => simpa [Workers.roster, Tables.row] using h.built.kept.conns.part
  | bnd b => simpa [Workers.roster, Tables.row] using (h.stocked b).part

theorem Planted.room (h : s.Planted) (hs : s.sys.Rooted) (hb : s.sys.binds.length ≤ 10)
    (hc : s.sys.conns.length ≤ 10) (k : Slots β) : (s.sys.roster k).length ≤ 10 := by
  cases k with
  | binds => simpa [Workers.roster] using hb
  | conns => simpa [Workers.roster] using hc
  | bnd b =>
    have hsub : (s.sys.listeners b).conns ⊆ s.sys.conns := fun c hm => (hs.inner b c hm).2.1
    have hlen := ((h.rostered.inner b).subperm hsub).length_le
    simpa [Workers.roster] using hlen.trans hc

theorem Planted.cleared {r : Tables β × List (Member κ β)} (h : s.Planted) (hs : s.sys.Rooted)
    (hp : s.sys.Pruned r) (hb : s.sys.roster .binds ⊆ r.2) (j : Nat) : r.1.conns.view j =
      if s.sys.conns[j]?.any s.sys.incoming then none else s.tables.conns.view j := by
  have hnow : r.1.conns.view j = if j < (s.sys.roster .conns).length ∧
      s.sys.live r.2 .conns j = true then some (.obj j) else none :=
    (hp.sweep.rows .conns).view j
  rw [hnow, h.built.kept.conns.part.view]
  cases hj : s.sys.conns[j]? with
  | none =>
    have hlen := List.getElem?_eq_none_iff.mp hj
    have hout : ¬ j < (s.sys.roster .conns).length := by simpa [Workers.roster] using hlen
    rw [if_neg fun hc => hout hc.1, if_neg (by simp), if_neg fun hc => hlen.not_gt hc.1]
  | some c =>
    have hlen := (List.getElem?_eq_some_iff.mp hj).1
    have hslot := Workers.conns_slot hj
    have hin := (List.getElem?_eq_some_iff.mp hslot).1
    have hmem := hp.conn_mem hb hs (List.mem_of_getElem? hj)
    have hlive : s.sys.live r.2 .conns j = !s.sys.incoming c := by
      rw [Workers.live, hslot, Option.any_some]
      simp [hmem]
    rw [hlive, Option.any_some]
    cases s.sys.incoming c <;> simp [hin, hlen]

theorem Planted.tears_down (h : s.Planted) (hd : s.sys.Completed)
    (hq : ∀ c ∈ s.sys.conns, s.sys.queued c = false) (hb : s.sys.binds.length ≤ 10)
    (hc : s.sys.conns.length ≤ 10) : s.TearsDown := by
  intro mem
  have hs := h.rooted hd
  obtain ⟨r, r', hbinds, hconns, hterm, hpruned, hsub, hsweep, hmem⟩ :=
    hs.sockTerm mem (h.room hs hb hc) hq h.sweep
  refine ⟨r, r', hbinds, hconns, hterm, hsweep.once, hmem, fun c hm hin => ?_,
    h.cleared hs hpruned hsub, fun k => ?_⟩
  · obtain ⟨p, hidx, hp⟩ := hs.slot c hm hin
    refine ⟨p, hidx, hp, ?_⟩
    have hlt := (List.getElem?_eq_some_iff.mp hp).1
    rw [(h.built.kept.conns.part).view, if_pos ⟨hlt, rfl⟩]
  · refine (hsweep.rows k).size fun j _ => Workers.dead_of_freed (fun m hm => (hmem m).mpr ?_) j
    cases k with
    | binds => exact List.mem_append_left _ hm
    | conns => exact List.mem_append_right _ hm
    | bnd b =>
      obtain ⟨c, hc, rfl⟩ := List.mem_map.mp hm
      exact List.mem_append_right _ (List.mem_map_of_mem (hs.inner b c hc).2.1)

variable [DecidableEq τ] {l : SiteLabel κ β τ}

theorem planted_step (h : s.Planted) (hs : s.step l = some s') : s'.Planted := by
  obtain ⟨-, hsys, -⟩ := step_sys hs
  obtain ⟨-, he⟩ := Workers.effect_of_step hsys
  have henrols := enrols_step h.built.regular hs
  exact ⟨built_step h.built hs, henrols.rostered h.rostered h.built.attached,
    Workers.slotted_step h.built.regular.sound h.slotted he, henrols.stocked h.stocked⟩

theorem planted_run (rcvhwm : Int) {tr : List (Site κ β τ × SiteLabel κ β τ)}
    (hr : Run step (init rcvhwm) tr s) : s.Planted :=
  hr.invariant (C := fun _ _ => True) (planted_init rcvhwm) (fun _ _ _ h _ hs => planted_step h hs)
    fun _ _ => trivial

theorem teardown_frees_tree (rcvhwm : Int) {tr : List (Site κ β τ × SiteLabel κ β τ)}
    (hr : Run step (init rcvhwm) tr s) (hd : s.sys.Completed)
    (hq : ∀ c ∈ s.sys.conns, s.sys.queued c = false) :
    s.TearsDown ↔ s.sys.binds.length ≤ 10 ∧ s.sys.conns.length ≤ 10 := by
  have h := planted_run rcvhwm hr
  refine ⟨fun ht => ?_, fun ⟨hb, hc⟩ => h.tears_down hd hq hb hc⟩
  obtain ⟨r, r', ht⟩ := ht granted
  exact Workers.sockTerm_room h.built.kept (fun _ _ _ => rfl) ht.term

def grafted : List (SiteLabel Bool Unit Unit) :=
  [[.bind () 2], Workers.work 2, [.accept 2 () true 1 6], List.replicate 6 (.advance true),
    Workers.work 1, Workers.established false 0].flatten.map fresh

def crowded : List (SiteLabel (Fin 11) Unit Unit) :=
  ((List.finRange 11).flatMap fun c => Workers.established c 0).map fresh

theorem teardown_frees_tree_grafted : (final step (init 1) grafted).TearsDown ∧
    (final step (init 1) grafted).sys.members = [.bind (), .conn true, .conn false] := by
  refine ⟨(teardown_frees_tree 1 (run_final (k := grafted) (by decide +kernel)) (by decide +kernel)
    (by decide +kernel)).mpr (by decide +kernel), by decide +kernel⟩

theorem crowded_aborts : ∃ s tr, Run step (init 1 : Site (Fin 11) Unit Unit) tr s ∧
    s.sys.Completed ∧ (∀ c, s.sys.queued c = false) ∧ s.sys.binds = [] ∧
    s.sys.conns.length = 11 ∧ s.sys.sockTerm granted s.tables = .error .bounds ∧
    ¬ s.TearsDown := by
  refine ⟨_, _, run_final (k := crowded) (by decide +kernel), by decide +kernel, by decide +kernel,
    by decide +kernel, by decide +kernel, by decide +kernel, fun h => ?_⟩
  obtain ⟨r, r', h⟩ := h granted
  have hterm := h.term
  have hfail : (final step (init 1) crowded).sys.sockTerm granted
      (final step (init 1) crowded).tables = .error .bounds := by decide +kernel
  rw [hfail] at hterm
  cases hterm

end Site

end Fsock
