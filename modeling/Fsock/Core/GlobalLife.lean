import Fsock.Lib.Run
import Fsock.Utils.ParrSlots
import Fsock.Core.Global

namespace Fsock.Global

open Transition Parr

variable {τ : Type}

structure Served (g : Global τ) : Prop where
  sane : g.fault = false
  distinct : (g.opens.map Open.idx).Nodup
  slots : ∀ o ∈ g.opens, g.socks.load o.idx = .ok (.obj o.sock)
  running : g.opens ≠ [] → g.initialized = true ∧ ∀ i, g.threads i = .running
  down : g.closed = true → g.opens = [] → (∀ t, g.pcs t = .idle) →
    g.initialized = false ∧ ∀ i, g.threads i = .joined

def Granted : GlobalLabel τ → Prop
  | .shut _ mem => ∀ k, (mem k).isSome
  | _ => True

def Timely (g : Global τ) : GlobalLabel τ → Prop
  | .socket _ _ mem =>
    (g.initialized = true → g.socks.capacity = 0 ∨ g.socks.last < g.socks.capacity) ∧
      (g.initialized = false → g.closed = true → mem.isSome)
  | .close _ _ => True
  | .shut t _ => ∀ s ∈ (g.pcs t).target,
      (top g.socks.last.toNat g.socks.increment.toNat = 0 ∨
        ∃ j < g.socks.last.toNat, (j : Int) ≠ s ∧
          top g.socks.last.toNat g.socks.increment.toNat ≤ j ∧ g.socks.view j ≠ none) ∧
      (g.opens.length = 1 → ∀ j < g.socks.last.toNat, (j : Int) ≠ s → g.socks.view j = none)
  | .leave t => g.pcs t = .leaving true → g.opens = []

def Orderly (g : Global τ) (l : GlobalLabel τ) : Prop := Granted l ∧ g.Timely l

structure Stable (g : Global τ) : Prop where
  sane : g.fault = false
  distinct : (g.opens.map Open.idx).Nodup
  slots : ∀ o ∈ g.opens, ∃ n : Nat, o.idx = n ∧ g.socks.view n = some (.obj o.sock)
  formed : g.initialized = true → Formed 10 g.socks
  on : g.initialized = true → ∀ i, g.threads i = .running
  off : g.initialized = false → g.opens = [] ∧ (g.closed = true → ∀ i, g.threads i = .joined)
  bare : g.initialized = true → g.opens = [] → g.socks.view = fun _ => none
  busy : ∀ t s, g.pcs t = .closing s → ∃ o ∈ g.opens, o.idx = s ∧ o.closing = true
  alone : ∀ t t' s, g.pcs t = .closing s → g.pcs t' = .closing s → t = t'

def Pending (g : Global τ) : Prop :=
  g.initialized = true → g.opens = [] → g.closed = true → ∃ t, g.pcs t = .leaving true

def Inv (g : Global τ) : Prop := g.Stable ∧ g.Pending

variable {g g' : Global τ} {t : τ}

theorem Stable.initialized (h : g.Stable) (ho : g.opens ≠ []) : g.initialized = true := by
  rcases Bool.eq_false_or_eq_true g.initialized with hi | hi
  · exact hi
  · exact absurd (h.off hi).1 ho

theorem Inv.served (h : g.Inv) : g.Served := by
  obtain ⟨h, hp⟩ := h
  refine ⟨h.sane, h.distinct, ?_, ?_, ?_⟩
  · intro o ho
    obtain ⟨n, hn, hv⟩ := h.slots o ho
    have hi := h.initialized (List.ne_nil_of_mem ho)
    rw [hn]
    exact ((h.formed hi).load_view hv).1
  · intro ho
    have hi := h.initialized ho
    exact ⟨hi, h.on hi⟩
  · intro hc ho hidle
    rcases Bool.eq_false_or_eq_true g.initialized with hi | hi
    · obtain ⟨t, ht⟩ := hp hi ho hc
      rw [hidle t] at ht
      cases ht
    · exact ⟨hi, (h.off hi).2 hc⟩

theorem stable_start : (start : Global τ).Stable where
  sane := rfl
  distinct := List.nodup_nil
  slots _ h := nomatch h
  formed h := nomatch h
  on h := nomatch h
  off _ := ⟨rfl, nofun⟩
  bare h := nomatch h
  busy _ _ h := nomatch h
  alone _ _ _ h := nomatch h

theorem inv_start : (start : Global τ).Inv := ⟨stable_start, nofun⟩

theorem stable_init (h : g.Stable) (hi : g.initialized = false) : g.init.Stable where
  sane := h.sane
  distinct := h.distinct
  slots o ho := by
    have hnil : g.opens = [] := (h.off hi).1
    rw [show g.init.opens = g.opens from rfl, hnil] at ho
    cases ho
  formed _ := .fresh
  on _ _ := rfl
  off := nofun
  bare _ _ := view_init 10
  busy := h.busy
  alone := h.alone

theorem insert_spec (h : g.Stable) (hi : g.initialized = true)
    (hr : g.socks.capacity = 0 ∨ g.socks.last < g.socks.capacity) (sock : Nat) (mem : Mem) :
    mem = none ∧ g.insert sock mem = g ∨
      (g.insert sock mem).Stable ∧ (g.insert sock mem).opens ≠ [] := by
  have hp : Ptr.obj sock ≠ .empty := nofun
  rcases (h.formed hi).insert (by decide) hr hp mem with ⟨hm, he⟩ | ⟨socks, r, he, hf, hn, hs, hk⟩
  · refine .inl ⟨hm, ?_⟩
    rw [Global.insert, he]
    rfl
  · have hpos : ¬ (r : Int) < 0 := by omega
    have hins : g.insert sock mem =
        { g with socks := socks, opens := g.opens ++ [⟨r, sock, false⟩] } := by
      simp only [Global.insert, he, if_neg hpos]
    have hfree : ∀ o ∈ g.opens, o.idx ≠ r := by
      intro o ho hor
      obtain ⟨n, hn', hv⟩ := h.slots o ho
      obtain rfl : n = r := by omega
      rw [hn] at hv
      cases hv
    rw [hins]
    refine .inr ⟨⟨h.sane, ?_, ?_, fun _ => hf, h.on, ?_, ?_, ?_, h.alone⟩, by simp⟩
    · rw [List.map_append, List.map_singleton, List.nodup_append]
      refine ⟨h.distinct, List.nodup_singleton _, ?_⟩
      intro a ha b hb
      obtain ⟨o, ho, rfl⟩ := List.mem_map.mp ha
      rw [List.mem_singleton.mp hb]
      exact hfree o ho
    · intro o ho
      rcases List.mem_append.mp ho with ho | ho
      · obtain ⟨n, hn', hv⟩ := h.slots o ho
        refine ⟨n, hn', ?_⟩
        rw [← hv]
        exact hk n (by simp [hv])
      · rw [List.mem_singleton.mp ho]
        exact ⟨r, rfl, hs⟩
    · intro hoff
      rw [hi] at hoff
      cases hoff
    · intro _ hnil
      simp at hnil
    · intro t s ht
      obtain ⟨o, ho, hb⟩ := h.busy t s ht
      exact ⟨o, List.mem_append_left _ ho, hb⟩

theorem inv_socket {sock : Nat} {mem : Mem} (h : g.Inv) (hc : g.Orderly (.socket t sock mem))
    (hs : g.socket t sock mem = some g') : g'.Inv := by
  obtain ⟨h, hp⟩ := h
  obtain ⟨-, hroom, hmem⟩ := hc
  simp only [socket] at hs
  split at hs
  case h_2 => cases hs
  case h_1 =>
    cases hs
    rcases Bool.eq_false_or_eq_true g.initialized with hi | hi
    · rw [if_pos hi]
      rcases insert_spec h hi (hroom hi) sock mem with ⟨-, he⟩ | ⟨hst, hne⟩
      · rw [he]
        exact ⟨h, hp⟩
      · exact ⟨hst, fun _ hnil => absurd hnil hne⟩
    · have hoff : ¬ g.initialized = true := by simp [hi]
      rw [if_neg hoff]
      have hinit := stable_init h hi
      rcases insert_spec hinit rfl (.inl rfl) sock mem with ⟨hn, he⟩ | ⟨hst, hne⟩
      · rw [he]
        refine ⟨hinit, fun _ _ hcl => ?_⟩
        have hsome := hmem hi hcl
        rw [hn] at hsome
        cases hsome
      · exact ⟨hst, fun _ hnil => absurd hnil hne⟩

theorem open_unique (h : g.Stable) {o o' : Open} (ho : o ∈ g.opens) (ho' : o' ∈ g.opens)
    (hi : o.idx = o'.idx) : o = o' := List.inj_on_of_nodup_map h.distinct ho ho' hi

theorem filter_idx {s : Int} {q : Open} :
    q ∈ g.opens.filter (fun o => o.idx ≠ s) ↔ q ∈ g.opens ∧ q.idx ≠ s := by
  simp [List.mem_filter]

theorem sole_open (h : g.Stable) {o : Open} (ho : o ∈ g.opens)
    (hnil : g.opens.filter (fun q => q.idx ≠ o.idx) = []) : g.opens.length = 1 := by
  have hall : ∀ q ∈ g.opens, q = o := by
    intro q hq
    by_contra hne
    have hidx : q.idx ≠ o.idx := fun hi => hne (open_unique h hq ho hi)
    have hmem := filter_idx.mpr ⟨hq, hidx⟩
    rw [hnil] at hmem
    cases hmem
  have hnodup := h.distinct.of_map
  rw [List.eq_replicate_of_mem hall, List.nodup_replicate] at hnodup
  have hpos := List.length_pos_of_mem ho
  omega

theorem stable_term (h : g.Stable) (ho : g.opens = []) :
    g.term.Stable ∧ g.term.initialized = false := by
  simp only [term]
  split
  case isFalse hi => exact ⟨h, by simpa using hi⟩
  case isTrue hi =>
    have hsize := (h.formed hi).size_zero.mpr (h.bare hi ho)
    have hterm : g.socks.term = .ok () := by
      rw [Parr.term, hsize]
      rfl
    simp only [hterm]
    refine ⟨⟨h.sane, h.distinct, h.slots, (by simp), (by simp), ?_, (by simp), h.busy, h.alone⟩, trivial⟩
    exact fun _ => ⟨ho, fun _ _ => rfl⟩

section
variable [DecidableEq τ]

theorem goto_self {pc : GlobalPc} : (g.goto t pc).pcs t = pc := Function.update_self ..

theorem goto_other {t' : τ} {pc : GlobalPc} (h : t' ≠ t) : (g.goto t pc).pcs t' = g.pcs t' :=
  Function.update_of_ne h ..

theorem goto_of_ne {t' : τ} {pc pc' : GlobalPc} (hpc : (g.goto t pc).pcs t' = pc')
    (hne : pc ≠ pc') : t' ≠ t ∧ g.pcs t' = pc' := by
  rcases eq_or_ne t' t with rfl | ht
  · exact absurd (goto_self.symm.trans hpc) hne
  · exact ⟨ht, (goto_other ht).symm.trans hpc⟩

theorem mark_idx (s : Int) (o : Open) : (o.mark s).idx = o.idx := by
  simp only [Open.mark]
  split <;> rfl

theorem mark_sock (s : Int) (o : Open) : (o.mark s).sock = o.sock := by
  simp only [Open.mark]
  split <;> rfl

theorem mark_closing {s : Int} {o : Open} (h : o.closing = true ∨ o.idx = s) :
    (o.mark s).closing = true := by
  simp only [Open.mark]
  split
  · rfl
  · exact h.resolve_right ‹_›

theorem goto_closing {t' : τ} {s s' : Int} (h : (g.goto t (.closing s)).pcs t' = .closing s') :
    t' = t ∧ s = s' ∨ g.pcs t' = .closing s' := by
  rcases eq_or_ne t' t with rfl | hne
  · exact .inl ⟨rfl, GlobalPc.closing.inj (goto_self.symm.trans h)⟩
  · exact .inr ((goto_other hne).symm.trans h)

theorem stable_mark {s : Int} {o : Open} (h : g.Stable) (ho : o ∈ g.opens) (hos : o.idx = s)
    (hfree : o.closing = false) :
    { g.goto t (.closing s) with opens := g.opens.map (Open.mark s) }.Stable := by
  have hi := h.initialized (List.ne_nil_of_mem ho)
  have hnone : ∀ t', g.pcs t' ≠ .closing s := by
    intro t' ht'
    obtain ⟨o', ho', hos', hb⟩ := h.busy t' s ht'
    rw [open_unique h ho ho' (hos.trans hos'.symm), hb] at hfree
    cases hfree
  refine ⟨h.sane, ?_, ?_, h.formed, h.on, ?_, ?_, ?_, ?_⟩
  · rw [List.map_map]
    have hmark : Open.idx ∘ Open.mark s = Open.idx := funext (mark_idx s)
    rw [hmark]
    exact h.distinct
  · intro o' ho'
    obtain ⟨q, hq, rfl⟩ := List.mem_map.mp ho'
    rw [mark_idx, mark_sock]
    exact h.slots q hq
  · intro hoff
    exact absurd (hi.symm.trans hoff) nofun
  · intro _ hnil
    rw [List.map_eq_nil_iff.mp hnil] at ho
    cases ho
  · intro t' s' ht'
    rcases goto_closing ht' with ⟨-, rfl⟩ | ht'
    · exact ⟨o.mark s, List.mem_map_of_mem ho, (mark_idx s o).trans hos, mark_closing (.inr hos)⟩
    · obtain ⟨q, hq, hqs, hb⟩ := h.busy t' s' ht'
      exact ⟨q.mark s, List.mem_map_of_mem hq, (mark_idx s q).trans hqs, mark_closing (.inl hb)⟩
  · intro t₁ t₂ s' h₁ h₂
    rcases goto_closing h₁ with ⟨ht₁, rfl⟩ | hp₁
    · rcases goto_closing h₂ with ⟨ht₂, -⟩ | hp₂
      · exact ht₁.trans ht₂.symm
      · exact absurd hp₂ (hnone t₂)
    · rcases goto_closing h₂ with ⟨-, rfl⟩ | hp₂
      · exact absurd hp₁ (hnone t₁)
      · exact h.alone t₁ t₂ s' hp₁ hp₂

theorem inv_close {s : Int} (h : g.Inv) (hs : g.close t s = some g') : g'.Inv := by
  obtain ⟨h, -⟩ := h
  simp only [close] at hs
  split at hs
  case h_2 => cases hs
  case h_1 =>
    split at hs
    case isFalse => cases hs
    case isTrue hopen =>
      obtain ⟨o, ho, hos, hfree⟩ := hopen
      rw [if_pos (h.initialized (List.ne_nil_of_mem ho))] at hs
      cases hs
      refine ⟨stable_mark h ho hos hfree, fun _ hnil => ?_⟩
      rw [List.map_eq_nil_iff.mp hnil] at ho
      cases ho

theorem clear_spec {mem : Nat → Mem} {n : Nat} {o : Open} (h : g.Stable) (ho : o ∈ g.opens)
    (hn : o.idx = n) (hpc : g.pcs t = .closing n) (hc : g.Orderly (.shut t mem)) :
    ∃ (socks : Parr) (term : Bool), g.clear t n mem = { g.goto t (.leaving term) with
        socks := socks
        opens := g.opens.filter fun q => q.idx ≠ (n : Int)
        closed := true } ∧
      Formed 10 socks ∧ socks.view = SlotTable.drop g.socks.view n ∧
      (g.opens.filter (fun q => q.idx ≠ (n : Int)) = [] →
        term = true ∧ socks.view = fun _ => none) := by
  obtain ⟨hmem, hc⟩ := hc
  obtain ⟨hkeep, hlast⟩ := hc n (by rw [hpc]; rfl)
  obtain ⟨m, hm, hv⟩ := h.slots o ho
  obtain rfl : m = n := by omega
  have hi := h.initialized (List.ne_nil_of_mem ho)
  have hkeep : top g.socks.last.toNat g.socks.increment.toNat = 0 ∨
      ∃ j, j ≠ m ∧ top g.socks.last.toNat g.socks.increment.toNat ≤ j ∧ g.socks.view j ≠ none :=
    hkeep.imp id fun ⟨j, _, hjm, htop, hj⟩ => ⟨j, fun he => hjm (he ▸ rfl), htop, hj⟩
  obtain ⟨socks, he, hf, hview⟩ := (h.formed hi).clear (by simp [hv]) hmem hkeep
  have hbare : g.opens.filter (fun q => q.idx ≠ (m : Int)) = [] → socks.view = fun _ => none := by
    intro hnil
    rw [hview]
    funext j
    rcases eq_or_ne j m with rfl | hjm
    · exact Function.update_self ..
    · rw [SlotTable.drop, Function.update_of_ne hjm]
      rcases Nat.lt_or_ge j g.socks.last.toNat with hlt | hge
      · exact hlast (sole_open h ho (hn ▸ hnil)) j hlt (by omega)
      · rw [Option.eq_none_iff_forall_ne_some]
        intro p hp
        have hlt := ((h.formed hi).load_view hp).2
        omega
  refine ⟨socks, decide ((SlotTable.card socks.view : Int) = 0), ?_, hf, hview, fun hnil => ⟨?_, hbare hnil⟩⟩
  · simp only [clear, he, hf.size_eq, ne_eq, not_true, if_false]
  · have hz := hf.size_zero.mpr (hbare hnil)
    rw [hf.size_eq, Except.ok.injEq] at hz
    exact decide_eq_true hz

theorem inv_shut {mem : Nat → Mem} (h : g.Inv) (hc : g.Orderly (.shut t mem))
    (hs : g.shut t mem = some g') : g'.Inv := by
  obtain ⟨h, -⟩ := h
  simp only [shut] at hs
  split at hs
  case h_2 => cases hs
  case h_1 s hpc =>
    obtain ⟨o, ho, hos, -⟩ := h.busy t s hpc
    obtain ⟨n, hn, hv⟩ := h.slots o ho
    obtain rfl : s = n := hos.symm.trans hn
    have hi := h.initialized (List.ne_nil_of_mem ho)
    obtain ⟨hload, hlt⟩ := (h.formed hi).load_view hv
    have hin : 0 ≤ (n : Int) ∧ (n : Int) < g.socks.last := ⟨by omega, hlt⟩
    have hne : Ptr.obj o.sock ≠ .empty := nofun
    obtain ⟨socks, term, he, hf, hview, hbare⟩ := clear_spec h ho hn hpc hc
    rw [if_pos hin, hload] at hs
    simp only [if_pos hne, he, Option.some.injEq] at hs
    subst hs
    have hold : ∀ t' s', (g.goto t (.leaving term)).pcs t' = .closing s' →
        t' ≠ t ∧ g.pcs t' = .closing s' := fun t' s' ht' => goto_of_ne ht' nofun
    refine ⟨⟨h.sane, ?_, ?_, fun _ => hf, h.on, ?_, fun _ hnil => (hbare hnil).2, ?_, ?_⟩, ?_⟩
    · exact h.distinct.sublist (List.filter_sublist.map _)
    · intro q hq
      obtain ⟨hq, hqn⟩ := filter_idx.mp hq
      obtain ⟨m, hm, hqv⟩ := h.slots q hq
      refine ⟨m, hm, ?_⟩
      have hmn : m ≠ n := by omega
      change socks.view m = _
      rw [hview, SlotTable.drop, Function.update_of_ne hmn]
      exact hqv
    · intro hoff
      change g.initialized = false at hoff
      rw [hi] at hoff
      cases hoff
    · intro t' s' ht'
      obtain ⟨hne, hpc'⟩ := hold t' s' ht'
      obtain ⟨q, hq, hqs, hb⟩ := h.busy t' s' hpc'
      refine ⟨q, filter_idx.mpr ⟨hq, fun hqn => hne ?_⟩, hqs, hb⟩
      rw [← hqs, hqn] at hpc'
      exact h.alone t' t n hpc' hpc
    · intro t₁ t₂ s' h₁ h₂
      exact h.alone t₁ t₂ s' (hold t₁ s' h₁).2 (hold t₂ s' h₂).2
    · intro _ hnil _
      refine ⟨t, ?_⟩
      rw [← (hbare hnil).1]
      exact goto_self

theorem stable_goto {pc : GlobalPc} (h : g.Stable) (hpc : ∀ s, pc ≠ .closing s) :
    (g.goto t pc).Stable where
  sane := h.sane
  distinct := h.distinct
  slots := h.slots
  formed := h.formed
  on := h.on
  off := h.off
  bare := h.bare
  busy t' s ht' := h.busy t' s (goto_of_ne ht' (hpc s)).2
  alone t₁ t₂ s h₁ h₂ := h.alone t₁ t₂ s (goto_of_ne h₁ (hpc s)).2 (goto_of_ne h₂ (hpc s)).2

theorem inv_leave (h : g.Inv) (hc : g.Orderly (.leave t)) (hs : g.leave t = some g') :
    g'.Inv := by
  obtain ⟨h, hp⟩ := h
  simp only [leave] at hs
  split at hs
  case h_1 hpc =>
    cases hs
    obtain ⟨hst, hoff⟩ := stable_term h (hc.2 hpc)
    refine ⟨stable_goto hst nofun, fun hi => ?_⟩
    change g.term.initialized = true at hi
    rw [hoff] at hi
    cases hi
  case h_2 hpc =>
    cases hs
    refine ⟨stable_goto h nofun, fun hi ho hcl => ?_⟩
    obtain ⟨t', ht'⟩ := hp hi ho hcl
    have hne : t' ≠ t := by
      rintro rfl
      rw [hpc] at ht'
      cases ht'
    exact ⟨t', (goto_other hne).trans ht'⟩
  case h_3 => cases hs

theorem inv_step {l : GlobalLabel τ} (h : g.Inv) (hc : g.Orderly l) (hs : g.step l = some g') :
    g'.Inv := by
  have hf : ¬ g.fault = true := by simp [h.1.sane]
  simp only [step, if_neg hf] at hs
  cases l with
  | socket t sock mem => exact inv_socket h hc hs
  | close t s => exact inv_close h hs
  | shut t mem => exact inv_shut h hc hs
  | leave t => exact inv_leave h hc hs

theorem runtime_lifetime {tr : List (Global τ × GlobalLabel τ)} (hr : Run step start tr g)
    (hc : Steps Orderly tr) : Visits Served tr g :=
  visits_mono (fun _ h => Inv.served h)
    (hr.visits inv_start (fun _ _ _ h hc hs => inv_step h hc hs) hc)

end

instance (g : Global τ) : (l : GlobalLabel τ) → Decidable (g.Timely l)
  | .socket .. => inferInstanceAs (Decidable (_ ∧ _))
  | .close .. => isTrue trivial
  | .shut .. => inferInstanceAs (Decidable (∀ s ∈ GlobalPc.target _, _ ∧ _))
  | .leave _ => inferInstanceAs (Decidable (_ → _))

def blank : Mem := some fun _ => .null

def alternating : List (GlobalLabel Bool) :=
  [.socket true 1 blank, .socket false 2 blank, .close true 0, .shut true fun _ => blank,
    .leave true, .close false 1, .shut false fun _ => blank, .leave false, .socket true 3 blank]

def overtaken : List (GlobalLabel Bool) :=
  [.socket true 1 blank, .close true 0, .shut true fun _ => blank, .socket false 2 blank,
    .leave true]

theorem granted_alternating : Steps (fun _ l => Granted l) (trace step start alternating) := by
  refine steps_trace fun l hl _ => ?_
  cases l with
  | shut t mem =>
    simp only [alternating, List.mem_cons, GlobalLabel.shut.injEq, reduceCtorEq, false_or,
      List.not_mem_nil, or_false] at hl
    rcases hl with ⟨-, rfl⟩ | ⟨-, rfl⟩ <;> exact fun _ => rfl
  | _ => trivial

theorem runtime_lifetime_alternating : Visits Served (trace step start alternating)
    (final step start alternating) :=
  runtime_lifetime (run_final rfl) (steps_and granted_alternating (by decide))

theorem window_socket_asserts : ∃ g, Run step start (trace step start overtaken) g ∧
    g.opens = [⟨0, 2, false⟩] ∧ (∀ i, g.threads i = .joined) ∧ g.fault = true ∧ ¬ g.Served :=
  ⟨_, run_final rfl, rfl, fun _ => rfl, rfl, fun h => nomatch h.sane⟩

end Fsock.Global
