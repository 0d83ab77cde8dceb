import Mathlib.Data.List.Basic

namespace Transition

variable {σ ι : Type}

inductive Run (step : σ → ι → Option σ) (s₀ : σ) : List (σ × ι) → σ → Prop
  | nil : Run step s₀ [] s₀
  | snoc {tr s l s'} : Run step s₀ tr s → step s l = some s' →
      Run step s₀ (tr ++ [(s, l)]) s'

def Steps (cond : σ → ι → Prop) (tr : List (σ × ι)) : Prop := ∀ x ∈ tr, cond x.1 x.2

def Visits (P : σ → Prop) (tr : List (σ × ι)) (s : σ) : Prop := (∀ x ∈ tr, P x.1) ∧ P s

instance (cond : σ → ι → Prop) [∀ s l, Decidable (cond s l)] (tr : List (σ × ι)) :
    Decidable (Steps cond tr) := inferInstanceAs (Decidable (∀ x ∈ tr, cond x.1 x.2))

theorem steps_snoc {cond : σ → ι → Prop} {tr : List (σ × ι)} {s : σ} {l : ι} :
    Steps cond (tr ++ [(s, l)]) ↔ Steps cond tr ∧ cond s l := by
  simp [Steps, or_imp, forall_and]

theorem visits_snoc {P : σ → Prop} {tr : List (σ × ι)} {s s' : σ} {l : ι} :
    Visits P (tr ++ [(s, l)]) s' ↔ Visits P tr s ∧ P s' := by
  simp [Visits, or_imp, forall_and]

theorem visits_mono {P Q : σ → Prop} (h : ∀ s, P s → Q s) {tr : List (σ × ι)} {s : σ}
    (hv : Visits P tr s) : Visits Q tr s :=
  ⟨fun x hx => h _ (hv.1 x hx), h _ hv.2⟩

theorem steps_and {c d : σ → ι → Prop} {tr : List (σ × ι)} (hc : Steps c tr) (hd : Steps d tr) :
    Steps (fun s l => c s l ∧ d s l) tr := fun x hx => ⟨hc x hx, hd x hx⟩

section
variable {step : σ → ι → Option σ} {s₀ : σ} {I P : σ → Prop} {C : σ → ι → Prop}

theorem Run.visits (h0 : I s₀)
    (hs : ∀ s l s', I s → C s l → step s l = some s' → I s')
    {tr : List (σ × ι)} {s : σ} (h : Run step s₀ tr s) (hc : Steps C tr) :
    Visits I tr s := by
  induction h with
  | nil => exact ⟨by simp, h0⟩
  | snoc _ ht ih =>
    obtain ⟨hc, hl⟩ := steps_snoc.mp hc
    have hv := ih hc
    exact visits_snoc.mpr ⟨hv, hs _ _ _ hv.2 hl ht⟩

theorem Run.invariant (h0 : I s₀)
    (hs : ∀ s l s', I s → C s l → step s l = some s' → I s')
    {tr : List (σ × ι)} {s : σ} (h : Run step s₀ tr s) (hc : Steps C tr) : I s :=
  (h.visits h0 hs hc).2

theorem Run.steps {D : σ → ι → Prop} (hd : ∀ s l s', I s → step s l = some s' → D s l)
    (h0 : I s₀) (hs : ∀ s l s', I s → C s l → step s l = some s' → I s')
    {tr : List (σ × ι)} {s : σ} (h : Run step s₀ tr s) (hc : Steps C tr) : Steps D tr := by
  induction h with
  | nil => exact fun x hx => by simp at hx
  | snoc hr ht ih =>
    obtain ⟨hc, hl⟩ := steps_snoc.mp hc
    exact steps_snoc.mpr ⟨ih hc, hd _ _ _ (hr.invariant h0 hs hc) ht⟩

theorem Run.exact {A : σ → ι → Prop} (h0 : I s₀) (hp : ∀ s, I s → P s)
    (hs : ∀ s l s', I s → A s l → C s l → step s l = some s' → I s')
    (hb : ∀ s l s', I s → A s l → ¬ C s l → step s l = some s' → ¬ P s')
    {tr : List (σ × ι)} {s : σ} (h : Run step s₀ tr s) (ha : Steps A tr) :
    Steps C tr ↔ Visits P tr s := by
  have hs' : ∀ s l s', I s → A s l ∧ C s l → step s l = some s' → I s' :=
    fun s l s' hi hc => hs s l s' hi hc.1 hc.2
  constructor
  · intro hc
    exact visits_mono hp (h.visits h0 hs' (steps_and ha hc))
  · intro hv
    induction h with
    | nil => exact fun x hx => by simp at hx
    | @snoc tr s l s' hr ht ih =>
      obtain ⟨ha, hl⟩ := steps_snoc.mp ha
      obtain ⟨hv, hs1⟩ := visits_snoc.mp hv
      have hc := ih ha hv
      refine steps_snoc.mpr ⟨hc, ?_⟩
      by_contra hn
      exact hb s l s' (hr.invariant h0 hs' (steps_and ha hc)) hl hn ht hs1

theorem Run.enabled {tr : List (σ × ι)} {s : σ} (h : Run step s₀ tr s) :
    ∀ x ∈ tr, ∃ t, step x.1 x.2 = some t := by
  induction h with
  | nil => exact fun x hx => by simp at hx
  | snoc _ ht ih =>
    intro x hx
    rcases List.mem_append.mp hx with hx | hx
    · exact ih x hx
    · rw [List.mem_singleton.mp hx]
      exact ⟨_, ht⟩

theorem Run.since {K A : ι → Prop} {D : σ → Prop} (he : ∀ s l s', I s → K l → step s l = some s' → D s')
    (hs : ∀ s l s', D s → A l → step s l = some s' → D s') {tr : List (σ × ι)} {s : σ}
    (h : Run step s₀ tr s) (hi : ∀ x ∈ tr, I x.1)
    (ha : tr.Pairwise fun x y => K x.2 → A y.2) :
    tr.Pairwise (fun x y => K x.2 → D y.1) ∧ ∀ x ∈ tr, K x.2 → D s := by
  induction h with
  | nil => exact ⟨.nil, fun x hx => by simp at hx⟩
  | @snoc tr s l s' _ ht ih =>
    obtain ⟨ha, -, hl⟩ := List.pairwise_append.mp ha
    obtain ⟨hp, hd⟩ := ih (fun x hx => hi x (by simp [hx])) ha
    refine ⟨List.pairwise_append.mpr ⟨hp, List.pairwise_singleton _ _, ?_⟩, ?_⟩
    · intro x hx y hy
      rw [List.mem_singleton.mp hy]
      exact hd x hx
    · intro x hx hk
      rcases List.mem_append.mp hx with hx | hx
      · exact hs s l s' (hd x hx hk) (hl x hx (s, l) (by simp) hk) ht
      · obtain rfl := List.mem_singleton.mp hx
        exact he s l s' (hi (s, l) (by simp)) hk ht

end

def exec (step : σ → ι → Option σ) : σ → List ι → Option σ
  | s, [] => some s
  | s, l :: ls => (step s l).bind fun t => exec step t ls

def trace (step : σ → ι → Option σ) : σ → List ι → List (σ × ι)
  | _, [] => []
  | s, l :: ls => (s, l) :: match step s l with
      | none => []
      | some t => trace step t ls

theorem Run.cons {step : σ → ι → Option σ} {s t u : σ} {l : ι} {tr : List (σ × ι)}
    (h : step s l = some t) (hr : Run step t tr u) : Run step s ((s, l) :: tr) u := by
  induction hr with
  | nil => simpa using Run.snoc .nil h
  | snoc _ ht ih => simpa using Run.snoc ih ht

theorem Run.trans {step : σ → ι → Option σ} {s t u : σ} {tr tr' : List (σ × ι)}
    (h : Run step s tr t) (hr : Run step t tr' u) : Run step s (tr ++ tr') u := by
  induction hr with
  | nil => simpa using h
  | snoc _ ht ih => simpa [List.append_assoc] using Run.snoc ih ht

theorem run_exec {step : σ → ι → Option σ} {ls : List ι} {s u : σ}
    (h : exec step s ls = some u) : Run step s (trace step s ls) u := by
  induction ls generalizing s with
  | nil => simp only [exec, Option.some.injEq] at h; subst h; exact .nil
  | cons l ls ih =>
    simp only [exec, Option.bind_eq_some_iff] at h
    obtain ⟨t, ht, hu⟩ := h
    simp only [trace, ht]
    exact .cons ht (ih hu)

def final (step : σ → ι → Option σ) (s : σ) (ls : List ι) : σ := (exec step s ls).getD s

theorem run_final {step : σ → ι → Option σ} {s : σ} {k : List ι}
    (h : (exec step s k).isSome = true) : Run step s (trace step s k) (final step s k) := by
  obtain ⟨t, ht⟩ := Option.isSome_iff_exists.mp h
  rw [final, ht]
  exact run_exec ht

theorem steps_trace {step : σ → ι → Option σ} {adm : σ → ι → Prop} {ls : List ι} {s : σ}
    (h : ∀ l ∈ ls, ∀ t, adm t l) : Steps adm (trace step s ls) := by
  induction ls generalizing s with
  | nil => exact fun x hx => by simp [trace] at hx
  | cons l ls ih =>
    intro x hx
    simp only [trace, List.mem_cons] at hx
    rcases hx with rfl | hx
    · exact h l (by simp) s
    · cases ht : step s l with
      | none => simp [ht] at hx
      | some t =>
        simp only [ht] at hx
        exact ih (fun k hk => h k (by simp [hk])) x hx

end Transition
