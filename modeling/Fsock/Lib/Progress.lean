import Mathlib.Algebra.Order.BigOperators.Group.Finset
import Fsock.Lib.Run

namespace Transition

variable {σ ι : Type} {step : σ → ι → Option σ} {I : σ → Prop} {C : σ → ι → Prop} {μ : σ → Nat}
  {Done : σ → Prop}

structure Measured (step : σ → ι → Option σ) (I : σ → Prop) (C : σ → ι → Prop) (μ : σ → Nat) :
    Prop where
  keeps : ∀ s l s', I s → C s l → step s l = some s' → I s'
  lowers : ∀ s l s', I s → C s l → step s l = some s' → μ s' < μ s

def Stuck (step : σ → ι → Option σ) (C : σ → ι → Prop) (s : σ) : Prop :=
  ∀ l, C s l → step s l = none

theorem Measured.mono {D : σ → ι → Prop} (h : Measured step I C μ) (hd : ∀ s l, D s l → C s l) :
    Measured step I D μ where
  keeps s l s' hs hl := h.keeps s l s' hs (hd s l hl)
  lowers s l s' hs hl := h.lowers s l s' hs (hd s l hl)

theorem Measured.length_le (h : Measured step I C μ) {s₀ s : σ} (h0 : I s₀) {tr : List (σ × ι)}
    (hr : Run step s₀ tr s) (hc : Steps C tr) : tr.length + μ s ≤ μ s₀ := by
  induction hr with
  | nil => simp
  | @snoc tr s l s' hr ht ih =>
    obtain ⟨hc, hl⟩ := steps_snoc.mp hc
    have hlt := h.lowers s l s' (hr.invariant h0 h.keeps hc) hl ht
    have hle := ih hc
    rw [List.length_append, List.length_singleton]
    omega

theorem Measured.ends (h : Measured step I C μ) (hg : ∀ s, I s → Stuck step C s → Done s) {s : σ}
    (hs : I s) : ∃ tr s', Run step s tr s' ∧ Steps C tr ∧ Done s' := by
  by_cases hstuck : Stuck step C s
  · exact ⟨[], s, .nil, fun x hx => by simp at hx, hg s hs hstuck⟩
  · rw [Stuck] at hstuck
    push Not at hstuck
    obtain ⟨l, hl, hne⟩ := hstuck
    obtain ⟨t, ht⟩ := Option.ne_none_iff_exists'.mp hne
    obtain ⟨tr, s', hr, hc, hd⟩ := h.ends hg (h.keeps s l t hs hl ht)
    refine ⟨(s, l) :: tr, s', .cons ht hr, fun x hx => ?_, hd⟩
    rcases List.mem_cons.mp hx with rfl | hx
    · exact hl
    · exact hc x hx
termination_by μ s
decreasing_by exact h.lowers s l t hs hl ht

-- a step at one place: what the total changes by is what that place changes by
theorem sum_local {κ : Type} [Fintype κ] [DecidableEq κ] {f g : κ → Nat} {c : κ}
    (h : ∀ d, d ≠ c → g d = f d) : (∑ d, g d) + f c = (∑ d, f d) + g c := by
  have hrest : ∑ d ∈ Finset.univ.erase c, g d = ∑ d ∈ Finset.univ.erase c, f d :=
    Finset.sum_congr rfl fun d hd => h d (Finset.ne_of_mem_erase hd)
  rw [← Finset.add_sum_erase _ g (Finset.mem_univ c), ← Finset.add_sum_erase _ f (Finset.mem_univ c),
    hrest]
  omega

theorem sum_update {κ α : Type} [Fintype κ] [DecidableEq κ] (g : α → Nat) (f : κ → α) (c : κ)
    (a : α) : (∑ d, g (Function.update f c a d)) + g (f c) = (∑ d, g (f d)) + g a := by
  have hsum := sum_local (f := fun d => g (f d)) (g := fun d => g (Function.update f c a d)) (c := c)
    fun d hd => by rw [Function.update_of_ne hd]
  rwa [Function.update_self] at hsum

end Transition
