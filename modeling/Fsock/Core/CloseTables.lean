import Fsock.Utils.ParrDrain
import Fsock.Core.Roster

namespace Fsock

open Transition

namespace Parr

def Lists (arr : Parr) (n : Nat) : Prop := Formed 10 arr ∧ Filled 10 arr (List.range n)

theorem lists_init : Lists (init 10) 0 := ⟨.fresh, .fresh⟩

theorem Lists.insert {arr arr' : Parr} {n : Nat} {r : Int} {junk : Nat → Ptr} (h : Lists arr n)
    (hs : arr.insert (.obj n) (some junk) = .ok (arr', r)) : Lists arr' (n + 1) := by
  obtain ⟨hf, hl⟩ := h
  have hnat : Ptr.obj n ≠ .empty := nofun
  rcases hf.insert (by decide) (room_filled hl) hnat (some junk) with ⟨hm, -⟩ | ⟨arr₁, r₁, h₁, hf₁, -⟩
  · cases hm
  · obtain ⟨arr₂, h₂, hl₂⟩ := insert_filled (by decide) hl n junk
    rw [hs, Except.ok.injEq, Prod.mk.injEq] at h₁ h₂
    obtain ⟨rfl, -⟩ := h₁
    obtain ⟨rfl, -⟩ := h₂
    exact ⟨hf₁, by rwa [List.range_succ]⟩

end Parr

namespace Workers

variable {κ β τ : Type}

structure Kept (s : Workers κ β τ) (t : Tables β) : Prop where
  conns : t.conns.Lists s.conns.length
  binds : t.binds.Lists s.binds.length

end Workers

namespace Site

variable {κ β τ : Type} [DecidableEq κ] [DecidableEq β] [DecidableEq τ] {s s' : Site κ β τ}
  {l : SiteLabel κ β τ}

def Stocked (s : Site κ β τ) : Prop :=
  ∀ b, (s.tables.bnds b).Lists (s.sys.listeners b).conns.length

structure Built (s : Site κ β τ) : Prop where
  regular : s.sys.Regular
  attached : s.sys.Attached
  kept : s.sys.Kept s.tables

omit [DecidableEq τ] in
theorem built_init (rcvhwm : Int) : (init rcvhwm : Site κ β τ).Built where
  regular := Workers.regular_init rcvhwm
  attached := Workers.attached_init rcvhwm
  kept := ⟨Parr.lists_init, Parr.lists_init⟩

omit [DecidableEq κ] [DecidableEq τ] in
theorem Enrols.kept (he : Enrols s s') (h : s.sys.Kept s.tables) : s'.sys.Kept s'.tables := by
  cases he with
  | still hl ht =>
    rw [ht]
    exact ⟨hl.conns ▸ h.conns, hl.binds ▸ h.binds⟩
  | bind hb hi hbinds hconns hinner he ht =>
    rw [ht]
    refine ⟨hconns ▸ h.conns, ?_⟩
    rw [hbinds, List.length_append]
    exact h.binds.insert hi
  | attach hc hi hbinds hconns hinner he ht =>
    rw [ht]
    exact ⟨hconns ▸ h.conns, hbinds ▸ h.binds⟩
  | publish hc hi hbinds hconns hinner he ht =>
    rw [ht]
    refine ⟨?_, hbinds ▸ h.binds⟩
    rw [hconns, List.length_append]
    exact h.conns.insert hi

omit [DecidableEq κ] [DecidableEq τ] in
theorem Enrols.stocked (he : Enrols s s') (h : s.Stocked) : s'.Stocked := by
  intro d
  cases he with
  | still hl ht =>
    rw [ht, hl.inner]
    exact h d
  | @bind b _ _ _ _ hb hi hbinds hconns hinner he ht =>
    rw [ht, hinner]
    rcases eq_or_ne d b with rfl | hdb
    · simpa [Tables.set] using Parr.lists_init
    · simpa [Tables.set, hdb] using h d
  | @attach c b _ _ _ hc hi hbinds hconns hinner he ht =>
    rw [ht, hinner]
    rcases eq_or_ne d b with rfl | hdb
    · simpa [Tables.set, Listener.attach] using (h d).insert hi
    · simpa [Tables.set, hdb] using h d
  | publish hc hi hbinds hconns hinner he ht =>
    rw [ht, hinner]
    exact h d

theorem built_step (h : s.Built) (hs : s.step l = some s') : s'.Built := by
  obtain ⟨hj, hsys, -⟩ := step_sys hs
  obtain ⟨-, he⟩ := Workers.effect_of_step hsys
  exact ⟨he.regular h.regular, Workers.attached_step h.regular h.attached he hj,
    (enrols_step h.regular hs).kept h.kept⟩

theorem built_run (rcvhwm : Int) {tr : List (Site κ β τ × SiteLabel κ β τ)}
    (hr : Run step (init rcvhwm) tr s) : s.Built :=
  hr.invariant (C := fun _ _ => True) (built_init rcvhwm) (fun _ _ _ h _ hs => built_step h hs)
    fun _ _ => trivial

end Site

end Fsock
