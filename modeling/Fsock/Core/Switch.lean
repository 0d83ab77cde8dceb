import Mathlib.Data.List.Basic

namespace Fsock

@[ext] structure Switch where
  full : Bool
  on : Bool
  rio : Bool
  run : List Bool
  batch : List Bool
  jobs : List Bool
  visit : Bool
  cut : Bool

namespace Switch

def shared (x : Switch) : List Bool := if x.cut then x.jobs.erase (!x.on) else x.jobs

def pending (x : Switch) : List Bool := x.run ++ x.batch ++ x.shared

structure Lands (x : Switch) : Prop where
  last : ∀ b, x.pending.getLast? = some b → b = x.on
  closed : x.pending = [] → x.on = false → x.rio = false
  opened : x.pending = [] → x.full = true → x.on = true → x.rio = true

structure Tracks (x : Switch) : Prop where
  batch : x.batch.length ≤ 1
  shared : x.shared.length ≤ 1
  lands : x.visit = false → x.Lands

variable {x : Switch} {b v : Bool} {rest : List Bool}

theorem Tracks.congr {y : Switch} (h : x.Tracks) (hfull : y.full = x.full) (hon : y.on = x.on)
    (hrio : y.rio = x.rio) (hrun : y.run = x.run) (hbatch : y.batch = x.batch)
    (hjobs : y.jobs = x.jobs) (hvisit : y.visit = x.visit) (hcut : y.cut = x.cut) : y.Tracks := by
  obtain rfl : y = x := Switch.ext hfull hon hrio hrun hbatch hjobs hvisit hcut
  exact h

theorem lands_of_last (h : x.pending.getLast? = some x.on) : x.Lands := by
  have hne : x.pending ≠ [] := by
    intro hnil
    rw [hnil] at h
    cases h
  exact ⟨fun b hb => Option.some.inj (hb.symm.trans h), fun hnil => absurd hnil hne,
    fun hnil => absurd hnil hne⟩

theorem lands_congr {y : Switch} (h : x.Lands) (hp : y.pending = x.pending) (hon : y.on = x.on)
    (hio : y.rio = x.rio) (hf : y.full = x.full) : y.Lands := by
  refine ⟨?_, ?_, ?_⟩
  · rw [hp, hon]
    exact h.last
  · rw [hp, hon, hio]
    exact h.closed
  · rw [hp, hon, hio, hf]
    exact h.opened

theorem shared_of_uncut (hc : x.cut = false) : x.shared = x.jobs := by
  rw [shared, if_neg (by simp [hc])]

theorem shared_of_cut (hc : x.cut = true) : x.shared = x.jobs.erase (!x.on) := if_pos hc

theorem eq_singleton {xs : List Bool} (h : xs.length ≤ 1) (hb : b ∈ xs) : xs = [b] := by
  rcases xs with _ | ⟨a, _ | ⟨c, xs⟩⟩
  · cases hb
  · rw [List.mem_singleton.mp hb]
  · simp at h

theorem erase_not_of_notMem {xs : List Bool} (h : xs.length ≤ 1) (hb : b ∉ xs) :
    xs.erase (!b) = [] := by
  rcases xs with _ | ⟨a, _ | ⟨c, xs⟩⟩
  · rfl
  · cases a <;> cases b <;> simp at hb ⊢
  · simp at h

theorem shared_nil (hj : x.jobs = []) : x.shared = [] := by
  rw [shared, hj]
  split <;> rfl

theorem Tracks.blank (hb : x.batch = []) (hj : x.jobs = []) (hr : x.run = []) (hio : x.rio = false)
    (hf : x.full = false) : x.Tracks := by
  refine ⟨by simp [hb], by simp [shared_nil hj], fun _ => ⟨?_, fun _ _ => hio, fun _ hfull => ?_⟩⟩
  · simp [pending, hb, shared_nil hj, hr]
  · rw [hf] at hfull
    cases hfull

theorem Tracks.agree (hr : x.run = []) (hb : x.batch = []) (hj : x.jobs = [])
    (hon : x.rio = x.on) : x.Tracks := by
  have hp : x.pending = [] := by rw [pending, hr, hb, shared_nil hj, List.append_nil, List.append_nil]
  refine ⟨by simp [hb], by simp [shared_nil hj], fun _ => ⟨?_, fun _ ho => hon.trans ho,
    fun _ _ ho => hon.trans ho⟩⟩
  rw [hp]
  nofun

theorem Tracks.weaken (h : x.Tracks) (hv : v = true → x.full = true) :
    Tracks { x with full := v } :=
  ⟨h.batch, h.shared, fun hvisit => ⟨(h.lands hvisit).last, (h.lands hvisit).closed,
    fun hn hf => (h.lands hvisit).opened hn (hv hf)⟩⟩

theorem Tracks.room (h : x.Tracks) (hc : x.cut = false) : x.jobs.length ≤ 1 := by
  rw [← shared_of_uncut hc]
  exact h.shared

theorem Tracks.flip (h : x.Tracks) (hc : x.cut = false) :
    Tracks { x with on := b, visit := true } := by
  have hs : Switch.shared { x with on := b, visit := true } = x.jobs := shared_of_uncut hc
  exact ⟨h.batch, by rw [hs]; exact h.room hc, nofun⟩

theorem Tracks.push (h : x.Tracks) (hc : x.cut = false) (hj : x.on ∉ x.jobs) :
    Tracks { x with jobs := x.jobs ++ [x.on], visit := v, cut := true } := by
  have hs : Switch.shared { x with jobs := x.jobs ++ [x.on], visit := v, cut := true } = [x.on] := by
    rw [shared_of_cut rfl]
    change (x.jobs ++ [x.on]).erase (!x.on) = [x.on]
    have hne : (!x.on) ∉ [x.on] := by simp
    rcases em ((!x.on) ∈ x.jobs) with hm | hm
    · rw [List.erase_append_left _ hm, erase_not_of_notMem (h.room hc) hj]
      rfl
    · have hn : x.jobs = [] := by
        rw [← List.erase_of_not_mem hm]
        exact erase_not_of_notMem (h.room hc) hj
      rw [hn]
      exact List.erase_of_not_mem hne
  refine ⟨h.batch, by simp [hs], fun _ => lands_of_last ?_⟩
  rw [pending, hs, List.getLast?_append_of_ne_nil _ (by simp)]
  rfl

theorem Tracks.skip (h : x.Tracks) (hc : x.cut = false) (hd : x.batch.Disjoint x.jobs)
    (hq : x.on ∈ x.batch ∨ x.on ∈ x.jobs) : Tracks { x with visit := v, cut := true } := by
  rcases hq with hq | hq
  · have hs : Switch.shared { x with visit := v, cut := true } = [] :=
      (shared_of_cut rfl).trans (erase_not_of_notMem (h.room hc) (hd hq))
    refine ⟨h.batch, by simp [hs], fun _ => lands_of_last ?_⟩
    rw [pending, hs, eq_singleton h.batch hq, List.append_nil, List.getLast?_append]
    rfl
  · have hs : Switch.shared { x with visit := v, cut := true } = [x.on] := by
      rw [shared_of_cut rfl]
      change x.jobs.erase (!x.on) = [x.on]
      rw [eq_singleton (h.room hc) hq]
      exact List.erase_of_not_mem (by simp)
    refine ⟨h.batch, by simp [hs], fun _ => lands_of_last ?_⟩
    rw [pending, hs, List.getLast?_append_of_ne_nil _ (by simp)]
    rfl

theorem Tracks.remove (h : x.Tracks) (hc : x.cut = true) :
    Tracks { x with jobs := x.jobs.erase (!x.on), cut := false } := by
  have hs : Switch.shared { x with jobs := x.jobs.erase (!x.on), cut := false } = x.shared :=
    (shared_of_uncut rfl).trans (shared_of_cut hc).symm
  refine ⟨h.batch, by rw [hs]; exact h.shared, fun hv => lands_congr (h.lands hv) ?_ rfl rfl rfl⟩
  rw [pending, pending, hs]

theorem Tracks.keep (h : x.Tracks) (hc : x.cut = true) (hj : (!x.on) ∉ x.jobs) :
    Tracks { x with cut := false } := by
  have hr := h.remove hc
  rwa [List.erase_of_not_mem hj] at hr

theorem Tracks.copy (h : x.Tracks) (hc : x.cut = false) (hb : x.batch = []) :
    Tracks { x with batch := x.jobs, jobs := [] } := by
  have hs : Switch.shared { x with batch := x.jobs, jobs := [] } = [] := shared_of_uncut hc
  refine ⟨h.room hc, by simp [hs], fun hv => lands_congr (h.lands hv) ?_ rfl rfl rfl⟩
  simp [pending, hs, shared_of_uncut hc, hb]

theorem Tracks.pop (h : x.Tracks) {run batch : List Bool} (hp : run ++ batch = x.run ++ x.batch)
    (hb : batch.length ≤ x.batch.length) : Tracks { x with run := run, batch := batch } := by
  refine ⟨Nat.le_trans hb h.batch, h.shared, fun hv => lands_congr (h.lands hv) ?_ rfl rfl rfl⟩
  rw [pending, pending, hp]
  rfl

theorem Tracks.run (h : x.Tracks) (hr : x.run = [b]) : Tracks { x with rio := b, run := [] } := by
  have hp : x.pending = b :: Switch.pending { x with rio := b, run := [] } := by
    rw [pending, hr]
    rfl
  refine ⟨h.batch, h.shared, fun hv => ?_⟩
  have hlast := (h.lands hv).last
  refine ⟨fun a ha => hlast a ?_, fun hn hon => ?_, fun hn _ hon => ?_⟩
  · rw [hp, List.getLast?_cons, ha]
    rfl
  · rw [hp, hn] at hlast
    exact (hlast b rfl).trans hon
  · rw [hp, hn] at hlast
    exact (hlast b rfl).trans hon

theorem Tracks.connect (h : x.Tracks)
    (hq : x.on = true ∨ x.visit = true ∨ false ∈ x.batch ∨ false ∈ x.jobs) :
    Tracks { x with rio := true } := by
  refine ⟨h.batch, h.shared, fun hv => ⟨(h.lands hv).last, fun hn hon => ?_, fun _ _ _ => rfl⟩⟩
  change x.pending = [] at hn
  simp only [pending, List.append_eq_nil_iff] at hn
  obtain ⟨⟨-, hb⟩, hs⟩ := hn
  change x.on = false at hon
  change x.visit = false at hv
  have hj : false ∉ x.jobs := by
    intro hm
    simp only [Switch.shared, hon] at hs
    split at hs
    · have hkeep := (List.mem_erase_of_ne (b := true) Bool.false_ne_true).mpr hm
      simp [show x.jobs.erase true = [] from hs] at hkeep
    · simp [hs] at hm
  simp [hon, hv, hb, hj] at hq

theorem Tracks.hangup (h : x.Tracks) : Tracks { x with rio := false, full := false } :=
  ⟨h.batch, h.shared, fun hv => ⟨(h.lands hv).last, fun _ _ => rfl, nofun⟩⟩

end Switch

end Fsock
