import Fsock.Core.Teardown

namespace Fsock

open Parr

namespace Workers

variable {κ β τ : Type}

def roster (s : Workers κ β τ) : Slots β → List (Member κ β)
  | .binds => s.binds.map .bind
  | .conns => s.conns.map .conn
  | .bnd b => (s.listeners b).conns.map .conn

def members (s : Workers κ β τ) : List (Member κ β) := s.roster .binds ++ s.roster .conns

section

variable {s : Workers κ β τ} {b : β} {c : κ} {i : Nat}

theorem conns_slot (h : s.conns[i]? = some c) : (s.roster .conns)[i]? = some (.conn c) := by
  simp [roster, h]

theorem inner_slot (h : (s.listeners b).conns[i]? = some c) :
    (s.roster (.bnd b))[i]? = some (.conn c) := by
  simp [roster, h]

theorem conn_not_bind (s : Workers κ β τ) (c : κ) : .conn c ∉ s.roster .binds := by
  simp [roster]

theorem mem_inner {d : β} : .conn c ∈ s.roster (.bnd d) ↔ c ∈ (s.listeners d).conns := by
  simp [roster]

end

variable [DecidableEq κ] [DecidableEq β]

def live (s : Workers κ β τ) (freed : List (Member κ β)) (k : Slots β) (j : Nat) : Bool :=
  (s.roster k)[j]?.any fun m => decide (m ∉ freed)

structure Rooted (s : Workers κ β τ) : Prop where
  nodup : ∀ k, (s.roster k).Nodup
  inner : ∀ b, ∀ c ∈ (s.listeners b).conns, b ∈ s.binds ∧ c ∈ s.conns ∧ s.incoming c = true
  owned : ∀ c ∈ s.conns, s.incoming c = true → ∃ b, c ∈ (s.listeners b).conns
  apart : ∀ b d c, c ∈ (s.listeners b).conns → c ∈ (s.listeners d).conns → b = d
  slot : ∀ c ∈ s.conns, s.incoming c = true →
    ∃ p : Nat, (s.peers c).idx = p ∧ s.conns[p]? = some c

structure Sweep (s : Workers κ β τ) (r : Tables β × List (Member κ β)) : Prop where
  rows : ∀ k, Part 10 (s.roster k).length (s.live r.2 k) (r.1.row k)
  once : r.2.Nodup

variable {s : Workers κ β τ} {mem : Slots β → Int → Nat → Mem} {t t' : Tables β}
  {freed more : List (Member κ β)} {r : Tables β × List (Member κ β)} {self k : Slots β}
  {m : Member κ β} {b : β} {c : κ} {i j : Nat}

theorem live_eq_true : s.live freed k j = true ↔ ∃ m, (s.roster k)[j]? = some m ∧ m ∉ freed := by
  simp [live, Option.any_eq_true]

theorem live_eq_false : s.live freed k j = false ↔ ∀ m, (s.roster k)[j]? = some m → m ∈ freed := by
  simp [live, Option.any_eq_false]

theorem live_mono (hf : freed ⊆ more) (h : s.live freed k j = false) : s.live more k j = false :=
  live_eq_false.mpr fun m hm => hf (live_eq_false.mp h m hm)

theorem freed_of_dead (h : ∀ j < (s.roster k).length, s.live freed k j = false) :
    s.roster k ⊆ freed := by
  intro m hm
  obtain ⟨j, hj, rfl⟩ := List.getElem_of_mem hm
  exact live_eq_false.mp (h j hj) _ (List.getElem?_eq_getElem hj)

theorem dead_of_freed (h : s.roster k ⊆ freed) (j : Nat) : s.live freed k j = false :=
  live_eq_false.mpr fun _ hm => h (List.mem_of_getElem? hm)

theorem live_self (hn : (s.roster k).Nodup) (hi : (s.roster k)[i]? = some m) :
    s.live (freed ++ [m]) k = Function.update (s.live freed k) i false := by
  funext j
  rcases eq_or_ne j i with rfl | hji
  · rw [Function.update_self]
    refine live_eq_false.mpr fun d hd => ?_
    rw [hi, Option.some.injEq] at hd
    simp [hd]
  · rw [Function.update_of_ne hji, live, live]
    cases hj : (s.roster k)[j]? with
    | none => rfl
    | some d =>
      have hdm : d ≠ m := by
        rintro rfl
        exact hji ((List.getElem?_inj (List.getElem?_eq_some_iff.mp hj).1 hn).mp (hj.trans hi.symm))
      simp [hdm]

theorem live_other (hm : m ∉ s.roster k) : s.live (freed ++ [m]) k = s.live freed k := by
  funext j
  rw [live, live]
  cases hj : (s.roster k)[j]? with
  | none => rfl
  | some d =>
    have hdm : d ≠ m := by
      rintro rfl
      exact hm (List.mem_of_getElem? hj)
    simp [hdm]

variable (mem) in
theorem Sweep.clear {u : Tables β} (h : s.Sweep (t, freed)) (hl : (s.roster k).length ≤ 10)
    (hi : (s.roster k)[i]? = some m) (hf : m ∉ freed) (ht : u.row k = t.row k) :
    ∃ arr, clearSlot mem k i u = .ok (u.set k arr) ∧
      Part 10 (s.roster k).length (Function.update (s.live freed k) i false) arr := by
  have hlive : s.live freed k i = true := live_eq_true.mpr ⟨m, hi, hf⟩
  obtain ⟨arr, rc, hc, hp⟩ := (h.rows k).clear hl (List.getElem?_eq_some_iff.mp hi).1 hlive (mem k i)
  refine ⟨arr, ?_, hp⟩
  have hc : (t.row k).clear i (mem k i) = .ok (arr, rc) := hc
  rw [clearSlot, ht, hc]
  rfl

theorem Sweep.free (h : s.Sweep (t, freed)) (hs : s.Rooted) (hf : m ∉ freed)
    (hr : ∀ k, m ∉ s.roster k ∧ t'.row k = t.row k ∨ ∃ i, (s.roster k)[i]? = some m ∧
      Part 10 (s.roster k).length (Function.update (s.live freed k) i false) (t'.row k)) :
    s.Sweep (t', freed ++ [m]) := by
  refine ⟨fun k => ?_, nodup_snoc h.once hf⟩
  rcases hr k with ⟨hm, ht⟩ | ⟨i, hi, hp⟩
  · rw [live_other hm, ht]
    exact h.rows k
  · rwa [live_self (hs.nodup k) hi]

theorem Sweep.connStep_inner (h : s.Sweep (t, freed)) (hs : s.Rooted)
    (hl : ∀ k, (s.roster k).length ≤ 10) (hi : (s.listeners b).conns[i]? = some c)
    (hf : .conn c ∉ freed) (hq : s.queued c = false) :
    ∃ t', s.connStep mem .conns (.bnd b) i t = .ok (t', c) ∧ s.Sweep (t', freed ++ [.conn c]) := by
  have hmem := List.mem_of_getElem? hi
  obtain ⟨-, hc, hin⟩ := hs.inner b c hmem
  obtain ⟨p, hidx, hp⟩ := hs.slot c hc hin
  obtain ⟨root, hroot, hpart⟩ := h.clear mem (u := t) (hl _) (conns_slot hp) hf rfl
  obtain ⟨arr, harr, hpart'⟩ := h.clear mem (u := t.set .conns root) (hl _)
    (inner_slot hi) hf (Tables.row_set_of_ne _ _ (by simp))
  have hload : (t.row (.bnd b)).load i = .ok (.obj i) :=
    (h.rows (.bnd b)).load (List.getElem?_eq_some_iff.mp (inner_slot hi)).1
      (live_eq_true.mpr ⟨_, inner_slot hi, hf⟩)
  refine ⟨(t.set .conns root).set (.bnd b) arr, ?_, h.free hs hf fun k => ?_⟩
  · simp only [connStep, hload, connAt, hi, Option.elim_some, unlink, hin, if_true, hidx, hroot,
      connTerm, hq, harr, Bind.bind, Except.bind, Bool.false_eq_true, if_false]
    rfl
  · cases k with
    | binds => exact .inl ⟨conn_not_bind s c, rfl⟩
    | conns => exact .inr ⟨p, conns_slot hp, hpart⟩
    | bnd d =>
      rcases eq_or_ne d b with rfl | hdb
      · refine .inr ⟨i, inner_slot hi, ?_⟩
        rwa [Tables.row_set_self]
      · refine .inl ⟨fun hd => hdb (hs.apart d b c (mem_inner.mp hd) hmem), ?_⟩
        rw [Tables.row_set_of_ne _ _ (by simpa using hdb)]
        rfl

theorem Sweep.connStep_outer (h : s.Sweep (t, freed)) (hs : s.Rooted)
    (hl : ∀ k, (s.roster k).length ≤ 10) (hi : s.conns[i]? = some c) (ho : s.incoming c = false)
    (hf : .conn c ∉ freed) (hq : s.queued c = false) :
    ∃ t', s.connStep mem .conns .conns i t = .ok (t', c) ∧ s.Sweep (t', freed ++ [.conn c]) := by
  obtain ⟨arr, harr, hpart⟩ := h.clear mem (u := t) (hl _) (conns_slot hi) hf rfl
  have hload : (t.row .conns).load i = .ok (.obj i) :=
    (h.rows .conns).load (List.getElem?_eq_some_iff.mp (conns_slot hi)).1
      (live_eq_true.mpr ⟨_, conns_slot hi, hf⟩)
  refine ⟨t.set .conns arr, ?_, h.free hs hf fun k => ?_⟩
  · simp only [connStep, hload, connAt, hi, Option.elim_some, unlink, ho, connTerm, hq, harr,
      Bind.bind, Except.bind, Bool.false_eq_true, if_false]
    rfl
  · cases k with
    | binds => exact .inl ⟨conn_not_bind s c, rfl⟩
    | conns => exact .inr ⟨i, conns_slot hi, hpart⟩
    | bnd d =>
      refine .inl ⟨fun hd => ?_, rfl⟩
      rw [(hs.inner d c (mem_inner.mp hd)).2.2] at ho
      cases ho

def Swept (s : Workers κ β τ) (r : Tables β × List (Member κ β)) (ms : List (Member κ β))
    (x : Tables β × List (Member κ β)) : Prop := s.Sweep x ∧ r.2 ⊆ x.2 ∧ x.2 ⊆ r.2 ++ ms

theorem Swept.turn {x : Tables β × List (Member κ β)} (h : s.Swept r (s.roster k) x)
    (hi : (s.roster k)[i]? = some (.conn c)) (hs : s.connStep mem self k i x.1 = .ok (t', c))
    (hx : s.Sweep (t', x.2 ++ [.conn c])) :
    ∃ y, s.connTurn mem self k i x = .ok y ∧ s.Swept r (s.roster k) y ∧
      s.live y.2 k i = false ∧ ∀ j, s.live x.2 k j = false → s.live y.2 k j = false := by
  obtain ⟨-, hold, hnew⟩ := h
  have hmore : x.2 ⊆ x.2 ++ [.conn c] := List.subset_append_left _ _
  refine ⟨(t', x.2 ++ [.conn c]), ?_, ⟨hx, List.Subset.trans hold hmore, ?_⟩, ?_,
    fun j hj => live_mono hmore hj⟩
  · rw [connTurn, hs]
    rfl
  · refine List.append_subset.mpr ⟨hnew, ?_⟩
    simpa using .inr (List.mem_of_getElem? hi)
  · refine live_eq_false.mpr fun d hd => ?_
    rw [hi, Option.some.injEq] at hd
    simp [← hd]

theorem Sweep.drains (h : s.Sweep r) (hk : ∀ m ∈ s.roster k, ∃ c, m = .conn c)
    (hstep : ∀ t more (i : Nat) c, s.Sweep (t, more) → r.2 ⊆ more →
      (s.roster k)[i]? = some (.conn c) → .conn c ∉ more →
      ∃ t', s.connStep mem self k i t = .ok (t', c) ∧ s.Sweep (t', more ++ [.conn c])) :
    ∃ r', s.connParrTerm mem self k r = .ok r' ∧ s.Sweep r' ∧
      ∀ m, m ∈ r'.2 ↔ m ∈ r.2 ∨ m ∈ s.roster k := by
  have hrun : ∃ ptr r', (r.1.row k).begin = .ok ptr ∧
      sweep (fun x => x.1.row k) (s.connTurn mem self k) (r.1.row k).last.toNat ptr r = .ok r' ∧
      s.Swept r (s.roster k) r' ∧ ∀ j < (s.roster k).length, s.live r'.2 k j = false := by
    refine sweep_begin (I := 10) (P := s.Swept r (s.roster k))
      (f := fun x => s.live x.2 k) (fun x hx => hx.1.rows k)
      (fun x i hx hi hf => ?_) ⟨h, List.Subset.refl _, List.subset_append_left _ _⟩
    obtain ⟨m, hm, hfree⟩ := live_eq_true.mp hf
    obtain ⟨c, rfl⟩ := hk m (List.mem_of_getElem? hm)
    obtain ⟨t', ht, hx'⟩ := hstep x.1 x.2 i c hx.1 hx.2.1 hm hfree
    exact hx.turn hm ht hx'
  obtain ⟨ptr, r', hb, hs, ⟨hsweep, hold, hnew⟩, hdead⟩ := hrun
  refine ⟨r', ?_, hsweep, fun m => ⟨fun hm => List.mem_append.mp (hnew hm), fun hm => ?_⟩⟩
  · rw [connParrTerm, hb, ← hs, ← connLoop_eq]
    rfl
  · exact hm.elim (fun hm => hold hm) fun hm => freed_of_dead hdead hm

section

variable (mem)

theorem Sweep.drained (self : Slots β) (h : s.Sweep r) (hd : s.roster k ⊆ r.2) :
    s.connParrTerm mem self k r = .ok r ∧ (r.1.row k).term = .ok () := by
  obtain ⟨d, hb⟩ := (h.rows k).begin
  rw [nextLive_eq_none.mpr fun j _ _ => dead_of_freed hd j] at hb
  refine ⟨?_, (h.rows k).term fun j _ => dead_of_freed hd j⟩
  rw [connParrTerm, hb]
  exact connLoop_null

structure Pruned (s : Workers κ β τ) (x : Tables β × List (Member κ β)) : Prop where
  sweep : s.Sweep x
  binds : ∀ b, .bind b ∈ x.2 → b ∈ s.binds ∧ s.roster (.bnd b) ⊆ x.2
  conns : ∀ c, .conn c ∈ x.2 → ∃ b, c ∈ (s.listeners b).conns

theorem Sweep.bnd_drains (h : s.Sweep r) (hs : s.Rooted) (hl : ∀ k, (s.roster k).length ≤ 10)
    (hq : ∀ c ∈ s.conns, s.queued c = false) (b : β) :
    ∃ r', s.connParrTerm mem .conns (.bnd b) r = .ok r' ∧ s.Sweep r' ∧
      ∀ m, m ∈ r'.2 ↔ m ∈ r.2 ∨ m ∈ s.roster (.bnd b) := by
  refine h.drains (fun m hm => ?_) fun t more i c hsweep _ hi hf => ?_
  · obtain ⟨c, -, rfl⟩ := List.mem_map.mp hm
    exact ⟨c, rfl⟩
  · have hi : (s.listeners b).conns[i]? = some c := by simpa [roster] using hi
    obtain ⟨-, hc, -⟩ := hs.inner b c (List.mem_of_getElem? hi)
    exact hsweep.connStep_inner hs hl hi hf (hq c hc)

theorem Pruned.bindStep {x : Tables β × List (Member κ β)} (h : s.Pruned x) (hs : s.Rooted)
    (hl : ∀ k, (s.roster k).length ≤ 10) (hq : ∀ c ∈ s.conns, s.queued c = false)
    (hi : s.binds[i]? = some b) (hf : .bind b ∉ x.2) :
    ∃ y, s.bindStep mem i x = .ok y ∧ s.Pruned y ∧ x.2 ⊆ y.2 ∧ .bind b ∈ y.2 := by
  have hslot : (s.roster .binds)[i]? = some (.bind b) := by simp [roster, hi]
  have hload : (x.1.row .binds).load i = .ok (.obj i) :=
    (h.sweep.rows .binds).load (List.getElem?_eq_some_iff.mp hslot).1
      (live_eq_true.mpr ⟨_, hslot, hf⟩)
  obtain ⟨r, hr, hsweep, hmem⟩ := h.sweep.bnd_drains mem hs hl hq b
  have hold : x.2 ⊆ r.2 := fun m hm => (hmem m).mpr (.inl hm)
  have hinner : s.roster (.bnd b) ⊆ r.2 := fun m hm => (hmem m).mpr (.inr hm)
  obtain ⟨hown, hterm⟩ := hsweep.drained mem (.bnd b) hinner
  have hfree : .bind b ∉ r.2 := by
    rw [hmem]
    simp [hf, roster]
  obtain ⟨arr, harr, hpart⟩ := hsweep.clear mem (u := r.1) (hl _) hslot hfree rfl
  have hmore : r.2 ⊆ r.2 ++ [.bind b] := List.subset_append_left _ _
  refine ⟨(r.1.set .binds arr, r.2 ++ [.bind b]), ?_, ⟨?_, fun d hd => ?_, fun c hc => ?_⟩,
    List.Subset.trans hold hmore, List.mem_append_right _ List.mem_cons_self⟩
  · have hload : x.1.binds.load i = .ok (.obj i) := hload
    have hterm : (r.1.bnds b).term = .ok () := hterm
    simp only [Workers.bindStep, hload, bindAt, hi, Option.elim_some, hr, hown, hterm, harr,
      Bind.bind, Except.bind]
    rfl
  · refine hsweep.free hs hfree fun k => ?_
    cases k with
    | binds => exact .inr ⟨i, hslot, hpart⟩
    | conns => exact .inl ⟨by simp [roster], rfl⟩
    | bnd d => exact .inl ⟨by simp [roster], rfl⟩
  · rcases List.mem_append.mp hd with hd | hd
    · rcases (hmem _).mp hd with hd | hd
      · obtain ⟨hb, hsub⟩ := h.binds d hd
        exact ⟨hb, List.Subset.trans hsub (List.Subset.trans hold hmore)⟩
      · simp [roster] at hd
    · obtain rfl : d = b := by simpa using hd
      exact ⟨List.mem_of_getElem? hi, List.Subset.trans hinner hmore⟩
  · have hc : .conn c ∈ r.2 := by simpa using hc
    rcases (hmem _).mp hc with hc | hc
    · exact h.conns c hc
    · exact ⟨b, mem_inner.mp hc⟩

theorem Sweep.binds_drain (h : s.Sweep (t, [])) (hs : s.Rooted)
    (hl : ∀ k, (s.roster k).length ≤ 10) (hq : ∀ c ∈ s.conns, s.queued c = false) :
    ∃ r', s.bindParrTerm mem (t, []) = .ok r' ∧ s.Pruned r' ∧ s.roster .binds ⊆ r'.2 := by
  have hrun : ∃ ptr r', (t.row .binds).begin = .ok ptr ∧
      sweep (fun x => x.1.binds) (s.bindStep mem) t.binds.last.toNat ptr (t, []) = .ok r' ∧
      s.Pruned r' ∧ ∀ j < (s.roster .binds).length, s.live r'.2 .binds j = false := by
    refine sweep_begin (I := 10) (P := s.Pruned) (f := fun x => s.live x.2 .binds)
      (fun x hx => hx.sweep.rows .binds) (fun x i hx hi hf => ?_) ⟨h, nofun, nofun⟩
    obtain ⟨m, hm, hfree⟩ := live_eq_true.mp hf
    obtain ⟨b, hb, rfl⟩ : ∃ b, s.binds[i]? = some b ∧ .bind b = m := by simpa [roster] using hm
    obtain ⟨y, hy, hpruned, hold, hnew⟩ := hx.bindStep mem hs hl hq hb hfree
    refine ⟨y, hy, hpruned, live_eq_false.mpr fun d hd => ?_, fun j hj => live_mono hold hj⟩
    rw [hm, Option.some.injEq] at hd
    exact hd ▸ hnew
  obtain ⟨ptr, r', hb, hsweep, hpruned, hdead⟩ := hrun
  refine ⟨r', ?_, hpruned, freed_of_dead hdead⟩
  have hb : t.binds.begin = .ok ptr := hb
  rw [bindParrTerm, hb, ← hsweep, ← bindLoop_eq]
  rfl

omit mem in
theorem Pruned.conn_mem (h : s.Pruned r) (hb : s.roster .binds ⊆ r.2) (hs : s.Rooted)
    (hc : c ∈ s.conns) : .conn c ∈ r.2 ↔ s.incoming c = true := by
  constructor
  · intro hm
    obtain ⟨b, hcb⟩ := h.conns c hm
    exact (hs.inner b c hcb).2.2
  · intro hin
    obtain ⟨b, hcb⟩ := hs.owned c hc hin
    have hbind : .bind b ∈ r.2 := hb (List.mem_map_of_mem (hs.inner b c hcb).1)
    exact (h.binds b hbind).2 (mem_inner.mpr hcb)

theorem Pruned.conns_drain (h : s.Pruned r) (hb : s.roster .binds ⊆ r.2) (hs : s.Rooted)
    (hl : ∀ k, (s.roster k).length ≤ 10) (hq : ∀ c ∈ s.conns, s.queued c = false) :
    ∃ r', s.connParrTerm mem .conns .conns r = .ok r' ∧ s.Sweep r' ∧
      ∀ m, m ∈ r'.2 ↔ m ∈ r.2 ∨ m ∈ s.roster .conns := by
  refine h.sweep.drains (fun m hm => ?_) fun t more i c hsweep hmore hi hf => ?_
  · obtain ⟨c, -, rfl⟩ := List.mem_map.mp hm
    exact ⟨c, rfl⟩
  · have hi : s.conns[i]? = some c := by simpa [roster] using hi
    have hc := List.mem_of_getElem? hi
    refine hsweep.connStep_outer hs hl hi ?_ hf (hq c hc)
    rw [← Bool.not_eq_true]
    exact fun hin => hf (hmore ((h.conn_mem hb hs hc).mpr hin))

theorem Rooted.sockTerm (hs : s.Rooted) (hl : ∀ k, (s.roster k).length ≤ 10)
    (hq : ∀ c ∈ s.conns, s.queued c = false) (h : s.Sweep (t, [])) :
    ∃ r r', s.bindParrTerm mem (t, []) = .ok r ∧ s.connParrTerm mem .conns .conns r = .ok r' ∧
      s.sockTerm mem t = .ok r'.2 ∧ s.Pruned r ∧ s.roster .binds ⊆ r.2 ∧ s.Sweep r' ∧
      ∀ m, m ∈ r'.2 ↔ m ∈ s.members := by
  obtain ⟨r, hr, hpruned, hbinds⟩ := h.binds_drain mem hs hl hq
  obtain ⟨r', hr', hsweep, hmem⟩ := hpruned.conns_drain mem hbinds hs hl hq
  have hb : s.roster .binds ⊆ r'.2 := fun m hm => (hmem m).mpr (.inl (hbinds hm))
  have hc : s.roster .conns ⊆ r'.2 := fun m hm => (hmem m).mpr (.inr hm)
  refine ⟨r, r', hr, hr', ?_, hpruned, hbinds, hsweep, fun m => ?_⟩
  · have hbt : r'.1.binds.term = .ok () := (hsweep.rows .binds).term fun j _ => dead_of_freed hb j
    have hct : r'.1.conns.term = .ok () := (hsweep.rows .conns).term fun j _ => dead_of_freed hc j
    simp only [Workers.sockTerm, hr, hr', hbt, hct, Bind.bind, Except.bind]
    rfl
  · rw [hmem, members, List.mem_append]
    constructor
    · rintro (hm | hm)
      · cases m with
        | bind b => exact .inl (List.mem_map_of_mem (hpruned.binds b hm).1)
        | conn c =>
          obtain ⟨b, hcb⟩ := hpruned.conns c hm
          exact .inr (List.mem_map_of_mem (hs.inner b c hcb).2.1)
      · exact .inr hm
    · rintro (hm | hm)
      · exact .inl (hbinds hm)
      · exact .inr hm

end

end Workers

end Fsock
