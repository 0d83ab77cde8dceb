import Fsock.Core.CloseTables

namespace Fsock

open Parr

theorem Parr.Lists.nil {arr : Parr} (h : arr.Lists 0) : arr = init 10 := by
  rcases drained_filled h.1 h.2 with ⟨-, he⟩ | ⟨b, hd, -⟩
  · exact he
  · exact absurd hd.fits.last_pos (lt_irrefl 0)

theorem Parr.Lists.cons {arr : Parr} {n : Nat} (h : arr.Lists n) (hn : 0 < n) :
    ∃ b, Drained b n 10 0 ∧ arr = table b n 10 :=
  (drained_filled h.1 h.2).resolve_left fun h => hn.ne' h.1

theorem Parr.Lists.stuck {arr : Parr} {n : Nat} (h : arr.Lists n) (hn : 10 < n) : Stuck 10 arr := by
  obtain ⟨b, hd, rfl⟩ := h.cons (by omega)
  have htop : top n 10 ≤ n - 1 := Nat.div_mul_le_self (n - 1) 10
  exact .block (drained_iff.mp hd) hn (j := n - 1) ⟨htop, by omega⟩ (by simp)

namespace Workers

variable {κ β τ : Type} [DecidableEq κ] [DecidableEq β] {s : Workers κ β τ}
  {mem : Slots β → Int → Nat → Mem} {t t' : Tables β} {freed : List (Member κ β)} {b : List Ptr}
  {c : κ} {n i k : Nat} {self parr : Slots β}

def connTurn (s : Workers κ β τ) (mem : Slots β → Int → Nat → Mem) (self parr : Slots β) (i : Int)
    (r : Tables β × List (Member κ β)) : Except Fault (Tables β × List (Member κ β)) :=
  (s.connStep mem self parr i r.1).map fun x => (x.1, r.2 ++ [.conn x.2])

theorem connTurn_eq_ok {d : Int} {r r' : Tables β × List (Member κ β)}
    (h : s.connTurn mem self parr d r = .ok r') : ∃ x, s.connStep mem self parr d r.1 = .ok x ∧
      r' = (x.1, r.2 ++ [.conn x.2]) := by
  rw [connTurn] at h
  cases hx : s.connStep mem self parr d r.1 with
  | error e =>
    rw [hx] at h
    cases h
  | ok x =>
    rw [hx] at h
    exact ⟨x, rfl, (Except.ok.inj h).symm⟩

theorem connLoop_eq {ptr : Ptr × Int} {r : Tables β × List (Member κ β)} :
    s.connLoop mem self parr k ptr r =
      sweep (fun r => r.1.row parr) (s.connTurn mem self parr) k ptr r := by
  induction k generalizing ptr r with
  | zero =>
    obtain ⟨p, j⟩ := ptr
    cases p <;> rfl
  | succ k ih =>
    obtain ⟨p, j⟩ := ptr
    cases p with
    | null => rfl
    | empty | obj =>
      simp only [connLoop, sweep, connTurn]
      cases s.connStep mem self parr j r.1 with
      | error e => rfl
      | ok x =>
        simp only [Except.map, Bind.bind, Except.bind]
        cases (x.1.row parr).next j with
        | error e => rfl
        | ok next => exact ih

theorem bindLoop_eq {ptr : Ptr × Int} {r : Tables β × List (Member κ β)} :
    s.bindLoop mem k ptr r = sweep (fun r => r.1.binds) (s.bindStep mem) k ptr r := by
  induction k generalizing ptr r with
  | zero =>
    obtain ⟨p, j⟩ := ptr
    cases p <;> rfl
  | succ k ih =>
    obtain ⟨p, j⟩ := ptr
    cases p with
    | null => rfl
    | empty | obj =>
      simp only [bindLoop, sweep, Bind.bind, Except.bind]
      cases s.bindStep mem j r with
      | error e => rfl
      | ok x =>
        dsimp only
        cases x.1.binds.next j with
        | error e => rfl
        | ok next => exact ih

theorem connLoop_null {d : Int} {r : Tables β × List (Member κ β)} :
    s.connLoop mem self parr k (.null, d) r = .ok r := by
  cases k <;> rfl

theorem connLoop_step {p : Nat} {ptr : Ptr × Int} (hs : s.connStep mem self parr i t = .ok (t', c))
    (hn : (t'.row parr).next i = .ok ptr) :
    s.connLoop mem self parr (k + 1) (.obj p, i) (t, freed) =
      s.connLoop mem self parr k ptr (t', freed ++ [.conn c]) := by
  simp only [connLoop, hs, hn, Bind.bind, Except.bind]

theorem connLoop_error {p : Nat} {e : Fault} (hs : s.connStep mem self parr i t = .error e) :
    s.connLoop mem self parr (k + 1) (.obj p, i) (t, freed) = .error e := by
  simp only [connLoop, hs, Bind.bind, Except.bind]

theorem connStep_conns (h : Drained b n 10 i) (hi : i < n) (hb : t.conns = table b n 10)
    (hc : s.conns[i]? = some c) (ho : s.incoming c = false) :
    s.connStep mem .conns .conns i t = if s.queued c then .error .assertion
      else (clearSlot mem .conns i t).map fun t => (t, c) := by
  have hload : (t.row .conns).load i = .ok (.obj i) := by
    rw [Tables.row, hb]
    exact h.load hi
  simp only [connStep, hload, connAt, hc, Option.elim_some, unlink, ho, connTerm, Bind.bind,
    Except.bind, Bool.false_eq_true, if_false]
  cases s.queued c with
  | true => rfl
  | false => cases clearSlot mem .conns i t <;> rfl

theorem connStep_queued (h : Drained b n 10 i) (hi : i < n) (hb : t.conns = table b n 10)
    (hc : s.conns[i]? = some c) (ho : s.incoming c = false) (hq : s.queued c = true) :
    s.connStep mem .conns .conns i t = .error .assertion := by
  rw [connStep_conns h hi hb hc ho, if_pos hq]

theorem connStep_clear {arr : Parr} {rc : Int} (h : Drained b n 10 i) (hi : i < n)
    (hb : t.conns = table b n 10) (hc : s.conns[i]? = some c) (ho : s.incoming c = false)
    (hq : s.queued c = false) (ha : (table b n 10).clear i (mem .conns i) = .ok (arr, rc)) :
    s.connStep mem .conns .conns i t = .ok ({ t with conns := arr }, c) := by
  rw [connStep_conns h hi hb hc ho, if_neg (by simp [hq]), clearSlot, Tables.row, hb, ha]
  rfl

variable (mem freed) in
theorem connLoop_turn (hn : n ≤ 10) (h : Drained b n 10 i) (hi : i < n) (hb : t.conns = table b n 10)
    (hc : s.conns[i]? = some c) (ho : s.incoming c = false) (hq : s.queued c = false) :
    ∃ t', t'.binds = t.binds ∧
      ((∃ d, i + 1 < n ∧ Drained d n 10 (i + 1) ∧ t'.conns = table d n 10 ∧
        s.connLoop mem .conns .conns (k + 1) (.obj i, i) (t, freed) =
          s.connLoop mem .conns .conns k (.obj (i + 1), (i + 1 : Nat)) (t', freed ++ [.conn c])) ∨
      i + 1 = n ∧ t'.conns.term = .ok () ∧
        s.connLoop mem .conns .conns (k + 1) (.obj i, i) (t, freed) =
          .ok (t', freed ++ [.conn c])) := by
  obtain ⟨arr, rc, ha, harr⟩ := h.clear hi hn (mem .conns i)
  have hs := connStep_clear h hi hb hc ho hq ha
  refine ⟨{ t with conns := arr }, rfl, ?_⟩
  rcases harr with ⟨d, hd, rfl⟩ | ⟨hlast, rfl⟩
  · rcases Nat.lt_or_ge (i + 1) n with hlt | hge
    · exact .inl ⟨d, hlt, hd, rfl, connLoop_step hs (hd.next hlt)⟩
    · obtain rfl : i + 1 = n := by omega
      obtain ⟨e, he⟩ := hd.next_null rfl
      refine .inr ⟨rfl, hd.term, ?_⟩
      rw [connLoop_step hs he, connLoop_null]
  · have he : (Parr.init 10).next i = .ok (.null, i) := by
      rw [Parr.next, if_neg (by omega)]
      rfl
    refine .inr ⟨hlast, rfl, ?_⟩
    rw [connLoop_step hs he, connLoop_null]

variable (mem freed) in
theorem connLoop_drains (hn : s.conns.length ≤ 10) (ho : ∀ c ∈ s.conns, s.incoming c = false)
    (hk : s.conns.length = i + (k + 1)) (h : Drained b s.conns.length 10 i)
    (hb : t.conns = table b s.conns.length 10) :
    (∃ t', s.connLoop mem .conns .conns (k + 1) (.obj i, i) (t, freed) =
        .ok (t', freed ++ (s.conns.drop i).map .conn) ∧ t'.binds = t.binds ∧
        t'.conns.term = .ok () ∧ ∀ c ∈ s.conns.drop i, s.queued c = false) ∨
      (∃ c ∈ s.conns.drop i, s.queued c = true) ∧
        s.connLoop mem .conns .conns (k + 1) (.obj i, i) (t, freed) = .error .assertion := by
  induction k generalizing i b t freed with
  | zero =>
    have hi : i < s.conns.length := by omega
    have hdrop : s.conns.drop i = [s.conns[i]] := by
      rw [List.drop_eq_getElem_cons hi, List.drop_eq_nil_of_le (by omega)]
    have hget : s.conns[i]? = some s.conns[i] := List.getElem?_eq_getElem hi
    have hout := ho s.conns[i] (List.getElem_mem hi)
    rw [hdrop]
    cases hq : s.queued s.conns[i] with
    | true =>
      exact .inr ⟨⟨_, List.mem_singleton_self _, hq⟩,
        connLoop_error (connStep_queued h hi hb hget hout hq)⟩
    | false =>
      obtain ⟨t', htb, ⟨d, hlt, -⟩ | ⟨-, ht, hl⟩⟩ :=
        connLoop_turn (k := 0) mem freed hn h hi hb hget hout hq
      · omega
      · exact .inl ⟨t', hl, htb, ht, by simpa using hq⟩
  | succ k ih =>
    have hi : i < s.conns.length := by omega
    have hdrop : s.conns.drop i = s.conns[i] :: s.conns.drop (i + 1) :=
      List.drop_eq_getElem_cons hi
    have hget : s.conns[i]? = some s.conns[i] := List.getElem?_eq_getElem hi
    have hout := ho s.conns[i] (List.getElem_mem hi)
    rw [hdrop]
    cases hq : s.queued s.conns[i] with
    | true =>
      exact .inr ⟨⟨_, List.mem_cons_self, hq⟩,
        connLoop_error (connStep_queued h hi hb hget hout hq)⟩
    | false =>
      obtain ⟨t', htb, ⟨d, hlt, hd, ht, hl⟩ | ⟨hlast, -⟩⟩ :=
        connLoop_turn (k := k + 1) mem freed hn h hi hb hget hout hq
      · rw [hl]
        rcases ih (freed ++ [.conn s.conns[i]]) (by omega) hd ht with
          ⟨t₂, hl₂, hb₂, ht₂, hq₂⟩ | ⟨⟨c, hc, hqc⟩, he⟩
        · refine .inl ⟨t₂, ?_, hb₂.trans htb, ht₂, ?_⟩
          · rw [hl₂, List.append_assoc]
            rfl
          · exact List.forall_mem_cons.mpr ⟨hq, hq₂⟩
        · exact .inr ⟨⟨c, List.mem_cons_of_mem _ hc, hqc⟩, he⟩
      · omega

theorem connLoop_freed {ptr : Ptr × Int} {r r' : Tables β × List (Member κ β)}
    (h : s.connLoop mem self parr k ptr r = .ok r') : r.2 ⊆ r'.2 := by
  rw [connLoop_eq] at h
  refine sweep_keeps (P := fun x => r.2 ⊆ x.2) (fun i x y hx hy => ?_) (List.Subset.refl _) h
  obtain ⟨z, -, rfl⟩ := connTurn_eq_ok hy
  exact List.Subset.trans hx (List.subset_append_left _ _)

theorem connParrTerm_freed {r r' : Tables β × List (Member κ β)}
    (h : s.connParrTerm mem self parr r = .ok r') : r.2 ⊆ r'.2 := by
  obtain ⟨ptr, -, h⟩ := bind_eq_ok h
  exact connLoop_freed h

theorem bindStep_freed {j : Int} {r r' : Tables β × List (Member κ β)}
    (h : s.bindStep mem j r = .ok r') : r.2 ⊆ r'.2 ∧
      ∀ p d, r.1.binds.load j = .ok p → s.bindAt p = .ok d → .bind d ∈ r'.2 := by
  obtain ⟨p, hp, h⟩ := bind_eq_ok h
  obtain ⟨d, hd, h⟩ := bind_eq_ok h
  obtain ⟨r₁, h₁, h⟩ := bind_eq_ok h
  obtain ⟨r₂, h₂, h⟩ := bind_eq_ok h
  obtain ⟨-, -, h⟩ := bind_eq_ok h
  obtain ⟨t, -, h⟩ := bind_eq_ok h
  obtain rfl := Except.ok.inj h
  refine ⟨fun m hm => List.mem_append_left _ (connParrTerm_freed h₂ (connParrTerm_freed h₁ hm)), ?_⟩
  intro p' d' hp' hd'
  rw [hp, Except.ok.injEq] at hp'
  subst hp'
  rw [hd, Except.ok.injEq] at hd'
  subst hd'
  exact List.mem_append_right _ List.mem_cons_self

theorem bindLoop_freed {ptr : Ptr × Int} {r r' : Tables β × List (Member κ β)}
    (h : s.bindLoop mem k ptr r = .ok r') : r.2 ⊆ r'.2 := by
  rw [bindLoop_eq] at h
  exact sweep_keeps (P := fun x => r.2 ⊆ x.2) (fun i x y hx hy => List.Subset.trans hx (bindStep_freed hy).1)
    (List.Subset.refl _) h

theorem sockTerm_binds (hk : s.Kept t) {bnd : β} {bnds : List β} (hb : s.binds = bnd :: bnds)
    (h : s.sockTerm mem t = .ok freed) : .bind bnd ∈ freed := by
  obtain ⟨r₁, h₁, h⟩ := bind_eq_ok h
  obtain ⟨r₂, h₂, h⟩ := bind_eq_ok h
  obtain ⟨-, -, h⟩ := bind_eq_ok h
  obtain ⟨-, -, h⟩ := bind_eq_ok h
  obtain rfl := Except.ok.inj h
  refine connParrTerm_freed h₂ ?_
  obtain ⟨d, hd, ht⟩ := hk.binds.cons (by simp [hb])
  obtain ⟨ptr, hptr, h₁⟩ := bind_eq_ok h₁
  simp only [ht, hd.begin, Except.ok.injEq] at hptr
  subst hptr
  have hlast : t.binds.last.toNat = bnds.length + 1 := by
    rw [ht, hb]
    rfl
  simp only [hlast] at h₁
  obtain ⟨r, hr, h₁⟩ := bind_eq_ok h₁
  obtain ⟨next, -, h₁⟩ := bind_eq_ok h₁
  refine bindLoop_freed h₁ ((bindStep_freed hr).2 (.obj 0) bnd ?_ ?_)
  · simp only [ht]
    exact hd.load (by simp [hb])
  · rw [bindAt, hb]
    rfl

theorem bindParrTerm_nil (hk : s.Kept t) (hb : s.binds = []) :
    s.bindParrTerm mem (t, freed) = .ok (t, freed) := by
  have hnil : t.binds = Parr.init 10 := Lists.nil (by simpa [hb] using hk.binds)
  simp only [bindParrTerm, hnil]
  rfl

theorem connParrTerm_nil (h : t.conns = Parr.init 10) :
    s.connParrTerm mem .conns .conns (t, freed) = .ok (t, freed) := by
  simp only [connParrTerm, Tables.row, h]
  rfl

variable (s mem freed) in
theorem connParrTerm_conns (h : Drained b n 10 0) (hb : t.conns = table b n 10) :
    s.connParrTerm mem .conns .conns (t, freed) =
      s.connLoop mem .conns .conns n (.obj 0, 0) (t, freed) := by
  simp only [connParrTerm, Tables.row, hb, h.begin]
  rfl

variable (mem) in
theorem sockTerm_drains (hk : s.Kept t) (hb : s.binds = []) (hn : s.conns.length ≤ 10)
    (ho : ∀ c ∈ s.conns, s.incoming c = false) :
    s.sockTerm mem t = .ok (s.conns.map .conn) ∧ (∀ c ∈ s.conns, s.queued c = false) ∨
      (∃ c ∈ s.conns, s.queued c = true) ∧ s.sockTerm mem t = .error .assertion := by
  have hnil : t.binds = Parr.init 10 := Lists.nil (by simpa [hb] using hk.binds)
  have hbinds : t.binds.term = .ok () := by
    rw [hnil]
    rfl
  have hlen := hk.conns
  cases hc : s.conns with
  | nil =>
    rw [hc] at hlen
    have hempty : t.conns = Parr.init 10 := Lists.nil hlen
    refine .inl ⟨?_, by simp⟩
    simp only [sockTerm, bindParrTerm_nil hk hb, connParrTerm_nil hempty, Bind.bind, Except.bind,
      hbinds, hempty]
    rfl
  | cons c cs =>
    obtain ⟨b, hd, ht⟩ := hlen.cons (by simp [hc])
    have hsize : s.conns.length = 0 + (cs.length + 1) := by simp [hc]
    have hterm := connParrTerm_conns s mem [] hd ht
    rw [show s.conns.length = cs.length + 1 by simp [hc]] at hterm
    rcases connLoop_drains mem [] hn ho hsize hd ht with
      ⟨t', hl, htb, htc, hq⟩ | ⟨hq, he⟩
    · refine .inl ⟨?_, by simpa [hc] using hq⟩
      simp only [Nat.cast_zero] at hl
      simp only [sockTerm, bindParrTerm_nil hk hb, hterm, hl, Bind.bind, Except.bind, htb, hbinds, htc]
      simp [hc, pure, Except.pure]
    · refine .inr ⟨by simpa [hc] using hq, ?_⟩
      simp only [Nat.cast_zero] at he
      simp only [sockTerm, bindParrTerm_nil hk hb, hterm, he, Bind.bind, Except.bind]

section

variable {P : Tables β → Prop} {r r' : Tables β × List (Member κ β)}
  (hP : ∀ k i t t', P t → clearSlot mem k i t = .ok t' → P t')

include hP

theorem connStep_keeps {j : Int} (h : s.connStep mem self parr j t = .ok (t', c)) (ht : P t) :
    P t' := by
  obtain ⟨ptr, -, h⟩ := bind_eq_ok h
  obtain ⟨conn, -, h⟩ := bind_eq_ok h
  obtain ⟨t₁, h₁, h⟩ := bind_eq_ok h
  obtain ⟨-, -, h⟩ := bind_eq_ok h
  obtain ⟨t₂, h₂, h⟩ := bind_eq_ok h
  obtain ⟨rfl, -⟩ := Prod.mk.inj (Except.ok.inj h)
  refine hP _ _ _ _ ?_ h₂
  rw [unlink] at h₁
  split at h₁
  case isTrue => exact hP _ _ _ _ ht h₁
  case isFalse => exact (Except.ok.inj h₁) ▸ ht

theorem connParrTerm_keeps (h : s.connParrTerm mem self parr r = .ok r') (hr : P r.1) :
    P r'.1 := by
  obtain ⟨ptr, -, h⟩ := bind_eq_ok h
  rw [connLoop_eq] at h
  refine sweep_keeps (P := fun x => P x.1) (fun i x y hx hy => ?_) hr h
  obtain ⟨z, hz, rfl⟩ := connTurn_eq_ok hy
  exact connStep_keeps hP hz hx

theorem bindParrTerm_keeps (h : s.bindParrTerm mem r = .ok r') (hr : P r.1) : P r'.1 := by
  obtain ⟨ptr, -, h⟩ := bind_eq_ok h
  rw [bindLoop_eq] at h
  refine sweep_keeps (P := fun x => P x.1) (fun i x y hx hy => ?_) hr h
  obtain ⟨p, -, hy⟩ := bind_eq_ok hy
  obtain ⟨d, -, hy⟩ := bind_eq_ok hy
  obtain ⟨r₁, h₁, hy⟩ := bind_eq_ok hy
  obtain ⟨r₂, h₂, hy⟩ := bind_eq_ok hy
  obtain ⟨-, -, hy⟩ := bind_eq_ok hy
  obtain ⟨t, ht, hy⟩ := bind_eq_ok hy
  obtain rfl := Except.ok.inj hy
  exact hP _ _ _ _ (connParrTerm_keeps hP h₂ (connParrTerm_keeps hP h₁ hx)) ht

end

theorem clearSlot_stuck {j k : Slots β} {i : Int} (hm : ∀ k i n, (mem k i n).isSome = true)
    (h : Stuck 10 (t.row j)) (hc : clearSlot mem k i t = .ok t') : Stuck 10 (t'.row j) := by
  rw [clearSlot] at hc
  cases ha : (t.row k).clear i (mem k i) with
  | error e =>
    rw [ha] at hc
    cases hc
  | ok x =>
    obtain ⟨arr, rc⟩ := x
    rw [ha] at hc
    obtain rfl := Except.ok.inj hc
    rcases eq_or_ne j k with rfl | hjk
    · rw [Tables.row_set_self]
      exact h.clear (hm j i) ha
    · rwa [Tables.row_set_of_ne _ _ hjk]

theorem sockTerm_room (hk : s.Kept t) (hm : ∀ k i n, (mem k i n).isSome = true)
    (h : s.sockTerm mem t = .ok freed) : s.binds.length ≤ 10 ∧ s.conns.length ≤ 10 := by
  obtain ⟨r₁, h₁, h⟩ := bind_eq_ok h
  obtain ⟨r₂, h₂, h⟩ := bind_eq_ok h
  obtain ⟨⟨⟩, hb, h⟩ := bind_eq_ok h
  obtain ⟨⟨⟩, hc, -⟩ := bind_eq_ok h
  have hstays : ∀ j, Stuck 10 (t.row j) → Stuck 10 (r₂.1.row j) := fun j hj =>
    connParrTerm_keeps (P := fun t => Stuck 10 (t.row j)) (fun _ _ _ _ => clearSlot_stuck hm) h₂
      (bindParrTerm_keeps (fun _ _ _ _ => clearSlot_stuck hm) h₁ hj)
  constructor
  · by_contra hn
    exact (hstays .binds (hk.binds.stuck (by omega))).term hb
  · by_contra hn
    exact (hstays .conns (hk.conns.stuck (by omega))).term hc

end Workers

end Fsock
