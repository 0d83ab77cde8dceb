import Fsock.Lib.Run

namespace Transition

variable {σ ι α κ : Type} {step : σ → ι → Option σ} {spec : α → κ → Option α} {I : σ → Prop}
  {C : σ → ι → Prop} {abs : σ → α} {obs : σ → ι → Option κ}

structure Simulates (step : σ → ι → Option σ) (spec : α → κ → Option α) (I : σ → Prop)
    (C : σ → ι → Prop) (abs : σ → α) (obs : σ → ι → Option κ) : Prop where
  keeps : ∀ s l s', I s → C s l → step s l = some s' → I s'
  silent : ∀ s l s', I s → C s l → step s l = some s' → obs s l = none → abs s' = abs s
  moves : ∀ s l s' k, I s → C s l → step s l = some s' → obs s l = some k →
    spec (abs s) k = some (abs s')

def observed (obs : σ → ι → Option κ) (tr : List (σ × ι)) : List κ :=
  tr.filterMap fun x => obs x.1 x.2

theorem observed_snoc (tr : List (σ × ι)) (s : σ) (l : ι) :
    observed obs (tr ++ [(s, l)]) = observed obs tr ++ (obs s l).toList := by
  rw [observed, List.filterMap_append, observed, List.filterMap_cons, List.filterMap_nil]
  cases obs s l <;> rfl

theorem exec_append (ks ls : List κ) (a : α) :
    exec spec a (ks ++ ls) = (exec spec a ks).bind fun b => exec spec b ls := by
  induction ks generalizing a with
  | nil => rfl
  | cons k ks ih =>
    rw [List.cons_append, exec, exec, Option.bind_assoc]
    exact congrArg _ (funext ih)

theorem Simulates.run (h : Simulates step spec I C abs obs) {s₀ s : σ} (h0 : I s₀)
    {tr : List (σ × ι)} (hr : Run step s₀ tr s) (hc : Steps C tr) :
    exec spec (abs s₀) (observed obs tr) = some (abs s) := by
  induction hr with
  | nil => rfl
  | @snoc tr s l s' hr ht ih =>
    obtain ⟨hc, hl⟩ := steps_snoc.mp hc
    have hi := hr.invariant h0 h.keeps hc
    rw [observed_snoc, exec_append, ih hc, Option.bind_some]
    cases ho : obs s l with
    | none => exact congrArg some (h.silent s l s' hi hl ht ho).symm
    | some k =>
      rw [Option.toList_some, exec, h.moves s l s' k hi hl ht ho]
      rfl

end Transition
