import Fsock.Utils.Queue

namespace Fsock

namespace Queue

variable {α κ : Type}

structure Family (next : α → Link α) (queue : κ → Queue α) (loc : κ → List α) : Prop where
  lists : ∀ k, Lists next (queue k) (loc k)
  distinct : ∀ k l, k ≠ l → (loc k).Disjoint (loc l)
  marked : ∀ a, next a ≠ .notInQueue → ∃ k, a ∈ loc k

theorem family_init : Family (fun _ : α => .notInQueue) (fun _ : κ => init) fun _ => [] where
  lists _ := lists_init
  distinct := by simp
  marked _ h := absurd rfl h

variable {next alt : α → Link α} {queue : κ → Queue α} {loc : κ → List α} {a : α} {k l : κ}

namespace Family

theorem queued_iff (h : Family next queue loc) : next a ≠ .notInQueue ↔ ∃ k, a ∈ loc k :=
  ⟨h.marked a, fun ⟨k, hk⟩ => (h.lists k).queued hk⟩

theorem absent (h : Family next queue loc) (hn : next a = .notInQueue) (k : κ) : a ∉ loc k :=
  fun hm => h.queued_iff.mpr ⟨k, hm⟩ hn

theorem same_place (h : Family next queue loc) (hk : a ∈ loc k) (hl : a ∈ loc l) : k = l := by
  by_contra hne
  exact h.distinct k l hne hk hl

variable [DecidableEq κ]

theorem change (h : Family next queue loc) {q : Queue α} {xs : List α} (hx : Lists alt q xs)
    (ho : ∀ l, l ≠ k → ∀ b ∈ loc l, alt b = next b) (hd : ∀ l, l ≠ k → xs.Disjoint (loc l))
    (hm : ∀ b, alt b ≠ .notInQueue → b ∈ xs ∨ ∃ l, l ≠ k ∧ b ∈ loc l) :
    Family alt (Function.update queue k q) (Function.update loc k xs) := by
  refine ⟨fun l => ?_, fun l m hlm => ?_, fun b hb => ?_⟩
  · rcases eq_or_ne l k with rfl | hl
    · simpa using hx
    · simpa [hl] using (h.lists l).congr (ho l hl)
  · rcases eq_or_ne l k with rfl | hl
    · simpa [hlm.symm] using hd m hlm.symm
    · rcases eq_or_ne m k with rfl | hmk
      · simpa [hl] using (hd l hl).symm
      · simpa [hl, hmk] using h.distinct l m hlm
  · rcases hm b hb with hx | ⟨l, hl, hb⟩
    · exact ⟨k, by simpa using hx⟩
    · exact ⟨l, by simpa [hl] using hb⟩

variable [DecidableEq α]

theorem push (h : Family next queue loc) (hn : next a = .notInQueue) (k : κ) :
    ∃ next' q', (queue k).push next a = some (next', q') ∧
      Family next' (Function.update queue k q') (Function.update loc k (loc k ++ [a])) := by
  obtain ⟨next', q', hp, hl, ho⟩ := push_lists (h.lists k) hn
  have hother : ∀ l, l ≠ k → ∀ b ∈ loc l, next' b = next b := by
    intro l hlk b hb
    refine ho b (fun hbk => h.distinct l k hlk hb hbk) ?_
    rintro rfl
    exact h.absent hn l hb
  refine ⟨next', q', hp, h.change hl hother ?_ ?_⟩
  · intro l hlk
    simpa [List.disjoint_append_left, h.absent hn l] using h.distinct k l hlk.symm
  · intro b hb
    by_cases hbk : b ∈ loc k ++ [a]
    · exact .inl hbk
    · have hsame : next' b = next b := ho b (fun hm => hbk (by simp [hm])) fun he => hbk (by simp [he])
      obtain ⟨l, hbl⟩ := h.marked b (hsame ▸ hb)
      refine .inr ⟨l, ?_, hbl⟩
      rintro rfl
      exact hbk (by simp [hbl])

theorem pop (h : Family next queue loc) {xs : List α} (hx : loc k = a :: xs) :
    ∃ q', (queue k).pop next = (Function.update next a .notInQueue, q', some a) ∧
      Family (Function.update next a .notInQueue) (Function.update queue k q')
        (Function.update loc k xs) := by
  obtain ⟨q', hp, hl⟩ := pop_lists (hx ▸ h.lists k)
  have ha : a ∈ loc k := by simp [hx]
  have hne : ∀ l, l ≠ k → ∀ b ∈ loc l, b ≠ a := by
    rintro l hlk b hb rfl
    exact hlk (h.same_place hb ha)
  refine ⟨q', hp, h.change hl (fun l hlk b hb => Function.update_of_ne (hne l hlk b hb) _ _) ?_ ?_⟩
  · intro l hlk b hb
    exact h.distinct k l hlk.symm (by simp [hx, hb])
  · intro b hb
    have hba : b ≠ a := by
      rintro rfl
      exact hb (Function.update_self ..)
    rw [Function.update_of_ne hba] at hb
    obtain ⟨l, hbl⟩ := h.marked b hb
    rcases eq_or_ne l k with rfl | hlk
    · exact .inl (by simpa [hx, hba] using hbl)
    · exact .inr ⟨l, hlk, hbl⟩

theorem remove (h : Family next queue loc) (a : α) (k : κ) {fuel : Nat}
    (hf : (loc k).length < fuel) :
    ∃ next' q', (queue k).remove next a fuel = some (next', q') ∧
      Family next' (Function.update queue k q') (Function.update loc k ((loc k).erase a)) ∧
      (next a ≠ next' a ↔ a ∈ loc k) := by
  obtain ⟨next', q', hr, hl, hn, ho⟩ := remove_lists (h.lists k) (a := a) hf
  have hother : ∀ l, l ≠ k → ∀ b ∈ loc l, next' b = next b := fun l hlk b hb =>
    ho b fun hbk => h.distinct l k hlk hb hbk
  refine ⟨next', q', hr, h.change hl hother ?_ ?_, ?_⟩
  · intro l hlk b hb
    exact h.distinct k l hlk.symm (List.mem_of_mem_erase hb)
  · intro b hb
    by_cases hbk : b ∈ loc k
    · rcases eq_or_ne b a with rfl | hba
      · exact absurd (hn hbk) hb
      · exact .inl ((List.mem_erase_of_ne hba).mpr hbk)
    · rw [ho b hbk] at hb
      obtain ⟨l, hbl⟩ := h.marked b hb
      refine .inr ⟨l, ?_, hbl⟩
      rintro rfl
      exact hbk hbl
  · constructor
    · intro hne
      by_contra ha
      exact hne (ho a ha).symm
    · intro ha
      rw [hn ha]
      exact (h.lists k).queued ha

omit [DecidableEq α] in
theorem move (h : Family next queue loc) (hkl : k ≠ l) (he : loc l = []) :
    Family next (Function.update (Function.update queue l (queue k)) k .init)
      (Function.update (Function.update loc l (loc k)) k []) := by
  have hfrom : ∀ m b, b ∈ Function.update (Function.update loc l (loc k)) k [] m →
      m ≠ k ∧ (b ∈ loc m ∨ m = l ∧ b ∈ loc k) := by
    intro m b hb
    rcases eq_or_ne m k with rfl | hmk
    · simp at hb
    · rcases eq_or_ne m l with rfl | hml
      · exact ⟨hmk, .inr ⟨rfl, by simpa [hmk] using hb⟩⟩
      · exact ⟨hmk, .inl (by simpa [hmk, hml] using hb)⟩
  refine ⟨fun m => ?_, fun m n hmn b hb hc => ?_, fun b hb => ?_⟩
  · rcases eq_or_ne m k with rfl | hmk
    · simpa using lists_init
    · rcases eq_or_ne m l with rfl | hml
      · simpa [hmk] using h.lists k
      · simpa [hmk, hml] using h.lists m
  · obtain ⟨hmk, hm⟩ := hfrom m b hb
    obtain ⟨hnk, hn⟩ := hfrom n b hc
    rcases hm with hm | ⟨rfl, hm⟩ <;> rcases hn with hn | ⟨rfl, hn⟩
    · exact hmn (h.same_place hm hn)
    · exact hmk (h.same_place hm hn)
    · exact hnk (h.same_place hn hm)
    · exact hmn rfl
  · obtain ⟨m, hbm⟩ := h.marked b hb
    rcases eq_or_ne m k with rfl | hmk
    · exact ⟨l, by simpa [hkl.symm] using hbm⟩
    · rcases eq_or_ne m l with rfl | hml
      · simp [he] at hbm
      · exact ⟨m, by simpa [hmk, hml] using hbm⟩

end Family

end Queue

end Fsock
