import Fsock.Lib.Run
import Fsock.Utils.ParrFill
import Fsock.Core.Attach

namespace Fsock

open Transition

namespace Parr

def Placed (arr arr' : Parr) (a : Nat) (i : Int) : Prop :=
  ∃ n : Nat, i = n ∧ arr.view n = none ∧ arr'.view = Function.update arr.view n (some (.obj a))

variable {I : Nat} {arr arr' : Parr} {ns : List Nat} {a : Nat} {mem : Mem}

theorem view_filled (h : Filled I arr ns) (j : Nat) : arr.view j = ns[j]?.map .obj := by
  cases h with
  | fresh => simp
  | @block b _ hn hb ht =>
    rw [view, used_table, ht, SlotTable.ofList, List.getElem?_map, List.getElem?_map]
    cases ns[j]? <;> rfl

theorem used_filled (h : Filled I arr ns) : arr.used = ns.map .obj := by
  cases h with
  | fresh => rfl
  | block hn hb ht => exact ht

theorem lt_last_of_view {j : Nat} {p : Ptr} (h : Filled I arr ns) (hv : arr.view j = some p) :
    (j : Int) < arr.last := by
  rw [view_filled h, Option.map_eq_some_iff] at hv
  obtain ⟨a, ha, -⟩ := hv
  rw [last_filled h]
  exact Int.ofNat_lt.mpr (List.getElem?_eq_some_iff.mp ha).1

theorem placed_filled (h : Filled I arr ns) (h' : Filled I arr' (ns ++ [a])) :
    Placed arr arr' a ns.length := by
  refine ⟨ns.length, rfl, by simp [view_filled h], funext fun j => ?_⟩
  rw [view_filled h']
  rcases Nat.lt_trichotomy j ns.length with hj | rfl | hj
  · rw [Function.update_of_ne hj.ne, view_filled h, List.getElem?_append_left hj]
  · rw [Function.update_self, List.getElem?_append_right (le_refl _), Nat.sub_self]
    rfl
  · rw [Function.update_of_ne hj.ne', view_filled h, List.getElem?_eq_none hj.le,
      List.getElem?_eq_none (by simpa using hj)]

theorem insert_settled (h : ¬ arr.growing) (p : Ptr) (mem mem' : Mem) :
    arr.insert p mem = arr.insert p mem' := by
  rw [insert, insert, if_neg h, if_neg h]

theorem room_of_filled (h : Filled I arr ns) : 0 ≤ arr.last ∧
    (arr.capacity = 0 ∨ arr.last < arr.capacity) := by
  cases h with
  | fresh => exact ⟨le_refl _, .inl rfl⟩
  | block hn hb => exact ⟨Int.natCast_nonneg _, .inr (Int.ofNat_lt.mpr hb)⟩

theorem insert_cases (hI : 1 < I) (h : Filled I arr ns) (a : Nat) (mem : Mem) :
    ¬ (arr.growing → mem.isSome = true) ∧ arr.insert (.obj a) mem = .ok (arr, -1) ∨
      (arr.growing → mem.isSome = true) ∧ ∃ arr', arr.insert (.obj a) mem = .ok (arr', ns.length) ∧
        Filled I arr' (ns ++ [a]) := by
  obtain ⟨arr', hi, hf⟩ := insert_filled hI h a fun _ => .empty
  cases mem with
  | some junk =>
    obtain ⟨arr₁, hi₁, hf₁⟩ := insert_filled hI h a junk
    exact .inr ⟨fun _ => rfl, arr₁, hi₁, hf₁⟩
  | none =>
    rcases Decidable.em arr.growing with hg | hg
    · refine .inl ⟨fun hm => ?_, ?_⟩
      · cases hm hg
      · rw [insert, if_neg (not_not.mpr (room_of_filled h)), if_pos hg, realloc]
    · exact .inr ⟨fun hm => absurd hm hg, arr', (insert_settled hg ..).trans hi, hf⟩

end Parr

def Sock.slot (s : Sock) : Slots Nat → Int
  | .bnd _ => s.idxlocal
  | _ => s.idx

namespace Tree

structure Complete (t t' : Tree) (l : Attaching) (a : Nat) (s : Sock) (w : Thr) : Prop where
  fresh : t.socks a = none
  socks : t'.socks = Function.update t.socks a (some s)
  kind : s.kind = l.kind
  owner : s.owner = some t.addr
  thr : s.thr = some w
  fd : s.fd = l.draw.fd ∧ 0 ≤ s.fd
  fds : t'.fds = t.fds ++ [s.fd]
  efds : t'.efds = t.efds + 1
  jobs : t'.jobs = Function.update t.jobs w (t.jobs w ++ [l.job a])
  placed : ∀ k ∈ l.slots, Parr.Placed (t.tables.row k) (t'.tables.row k) a (s.slot k)
  others : ∀ k ∉ l.slots, k ≠ .bnd a → t'.tables.row k = t.tables.row k
  own : t'.tables.row (.bnd a) = .init 10

structure Untouched (t t' : Tree) : Prop where
  views : ∀ k, (∀ a, k = .bnd a → (t.socks a).isSome = true) →
    (t'.tables.row k).view = (t.tables.row k).view
  socks : t'.socks = t.socks
  fds : t'.fds = t.fds
  efds : t'.efds = t.efds
  jobs : t'.jobs = t.jobs

def AllOrNothing (t : Tree) (l : Attaching) : Prop :=
  ∃ t' r, t.attempt l = .ok (t', r) ∧ ((∃ a s w, t.Complete t' l a s w) ∨ t.Untouched t')

def Covers (mem : Mem) (arr : Parr) : Prop := arr.growing → mem.isSome = true

def Clean (t : Tree) : Attaching → Prop
  | .bind o => o.sock = none ∨ 0 ≤ o.fd ∧ Covers o.outer t.tables.binds
  | .connect o => o.sock = none ∨ 0 ≤ o.fd ∧ Covers o.outer t.tables.conns
  | .accept b o => o.fd < 0 ∨ o.sock.isSome = true ∧ Covers o.inner (t.tables.bnds b) ∧
      Covers o.outer t.tables.conns

instance (mem : Mem) (arr : Parr) : Decidable (Covers mem arr) :=
  inferInstanceAs (Decidable (arr.growing → mem.isSome = true))

instance (t : Tree) : (l : Attaching) → Decidable (t.Clean l)
  | .bind o => inferInstanceAs (Decidable (o.sock = none ∨ 0 ≤ o.fd ∧ Covers o.outer t.tables.binds))
  | .connect o => inferInstanceAs (Decidable (o.sock = none ∨ 0 ≤ o.fd ∧ Covers o.outer t.tables.conns))
  | .accept b o => inferInstanceAs (Decidable (o.fd < 0 ∨ o.sock.isSome = true ∧
      Covers o.inner (t.tables.bnds b) ∧ Covers o.outer t.tables.conns))

structure Grown (t : Tree) : Prop where
  rows : ∀ k, ∃ ns, Parr.Filled 10 (t.tables.row k) ns
  bound : ∀ b, .obj b ∈ t.tables.binds.used → (t.socks b).isSome = true

structure Torn (t t' : Tree) (l : Attaching) : Prop where
  leaks : t'.fds ≠ t.fds ∨ t'.efds ≠ t.efds
  stillborn : ∀ a s, t.socks a = none → t'.socks a = some s → s.fd < 0
  fds : ∀ d ∈ t'.fds, d ∈ t.fds ∨ 0 ≤ d ∧ d = l.draw.fd
  socks : ∀ b s, t.socks b = some s → t'.socks b = some s
  binds : t'.tables.binds = t.tables.binds
  conns : t'.tables.conns = t.tables.conns

variable {t t' : Tree} {l : Attaching} {o : Draw} {a b : Nat} {k : Slots Nat} {ns : List Nat}
  {s : Sock} {w : Thr} {r : Int}

theorem Torn.not_whole (h : t.Torn t' l) (ha : t.attempt l = .ok (t', r)) : ¬ t.AllOrNothing l := by
  rintro ⟨t₁, r₁, ha₁, ht⟩
  rw [ha, Except.ok.injEq, Prod.mk.injEq] at ha₁
  obtain ⟨rfl, -⟩ := ha₁
  rcases ht with ⟨a, s, w, hc⟩ | hu
  · have hs : t'.socks a = some s := by rw [hc.socks, Function.update_self]
    exact absurd hc.fd.2 (not_le.mpr (h.stillborn a s hc.fresh hs))
  · exact h.leaks.elim (fun hf => hf hu.fds) fun he => he hu.efds

theorem untouched_refl (t : Tree) : t.Untouched t := ⟨fun _ _ => rfl, rfl, rfl, rfl, rfl⟩

theorem parrInsert_cases (h : Parr.Filled 10 (t.tables.row k) ns) (a : Nat) (mem : Mem) :
    ¬ Covers mem (t.tables.row k) ∧ t.parrInsert k a mem = .ok (t, -1) ∨
    Covers mem (t.tables.row k) ∧ ∃ arr, Parr.Filled 10 arr (ns ++ [a]) ∧
      t.parrInsert k a mem = .ok ({ t with tables := t.tables.set k arr }, ns.length) := by
  rcases Parr.insert_cases (by decide) h a mem with ⟨hm, hi⟩ | ⟨hm, arr, hi, hf⟩
  · refine .inl ⟨hm, ?_⟩
    rw [parrInsert, hi]
    simp [Except.map]
  · refine .inr ⟨hm, arr, hf, ?_⟩
    rw [parrInsert, hi]
    rfl

theorem sockInit_row (hk : k ≠ .bnd a) : (t.sockInit a s).tables.row k = t.tables.row k :=
  Tables.row_set_of_ne _ _ hk

theorem Grown.members (h : t.Grown) (hk : Parr.Filled 10 t.tables.binds ns) (hb : b ∈ ns) :
    (t.socks b).isSome = true := by
  refine h.bound b ?_
  rw [Parr.used_filled hk]
  exact List.mem_map_of_mem hb

theorem Grown.frame (h : t.Grown) (ht : t'.tables = t.tables)
    (hs : ∀ b, (t.socks b).isSome = true → (t'.socks b).isSome = true) : t'.Grown where
  rows k := by rw [ht]; exact h.rows k
  bound b hb := hs b (h.bound b (ht ▸ hb))

theorem isSome_write (hb : (t.socks b).isSome = true) :
    ((t.write a s).socks b).isSome = true := by
  rcases eq_or_ne b a with rfl | hba
  · simp [write]
  · simpa [write, hba] using hb

theorem Grown.free (h : t.Grown) (ha : .obj a ∉ t.tables.binds.used) : (t.free a).Grown where
  rows := h.rows
  bound b hb := by
    have hba : b ≠ a := by
      rintro rfl
      exact ha hb
    simpa [Tree.free, hba] using h.bound b hb

theorem Grown.sockInit (h : t.Grown) : (t.sockInit a s).Grown where
  rows k := by
    rcases eq_or_ne k (.bnd a) with rfl | hk
    · exact ⟨[], by rw [Tree.sockInit, Tables.row_set_self]; exact .fresh⟩
    · rw [sockInit_row hk]
      exact h.rows k
  bound b hb := by
    rcases eq_or_ne b a with rfl | hba
    · simp [Tree.sockInit, write]
    · simpa [Tree.sockInit, write, hba] using h.bound b hb

theorem Grown.set {arr : Parr} (h : t.Grown) (hk : Parr.Filled 10 arr ns)
    (hb : k = .binds → ∀ b ∈ ns, (t.socks b).isSome = true) :
    Grown { t with tables := t.tables.set k arr } where
  rows j := by
    rcases eq_or_ne j k with rfl | hj
    · exact ⟨ns, by rw [Tables.row_set_self]; exact hk⟩
    · rw [Tables.row_set_of_ne _ _ hj]
      exact h.rows j
  bound b hm := by
    rcases eq_or_ne k .binds with rfl | hj
    · have hu : Ptr.obj b ∈ arr.used := hm
      rw [Parr.used_filled hk] at hu
      exact hb rfl b (by simpa using hu)
    · have hrow : (t.tables.set k arr).binds = t.tables.binds :=
        Tables.row_set_of_ne (j := .binds) t.tables arr hj.symm
      rw [hrow] at hm
      exact h.bound b hm

structure Idle (l : Attaching) : Prop where
  inits : l.inits = false
  asks : l.asks = true → l.kind = .incoming ∧ l.draw.fd < 0

inductive Verdict (t : Tree) (l : Attaching) (clean : Prop) : Except Fault (Tree × Int) → Prop
  | still {r : Int} (hc : clean) (hi : Idle l) : Verdict t l clean (.ok (t, r))
  | whole {t' : Tree} {r : Int} {a : Nat} {s : Sock} {w : Thr} (hc : clean)
      (hw : t.Complete t' l a s w) (hg : t'.Grown) (ha : l.draw.sock = some a) :
      Verdict t l clean (.ok (t', r))
  | torn {t' : Tree} {r : Int} (hc : ¬ clean) (ht : t.Torn t' l) (hg : t'.Grown) :
      Verdict t l clean (.ok (t', r))
  | aborts (hc : ¬ clean) : Verdict t l clean (.error .assertion)

theorem update_kept {socks : Nat → Option Sock} {x : Option Sock} (ha : socks a = none)
    (hb : socks b = some s) : Function.update socks a x b = some s := by
  have hba : b ≠ a := by
    rintro rfl
    rw [ha] at hb
    cases hb
  rw [Function.update_of_ne hba, hb]

theorem eq_of_update {socks : Nat → Option Sock} {x : Sock} (hb : socks b = none)
    (hx : Function.update socks a (some s) b = some x) : b = a ∧ x = s := by
  rcases eq_or_ne b a with rfl | hne
  · rw [Function.update_self, Option.some.injEq] at hx
    exact ⟨rfl, hx.symm⟩
  · rw [Function.update_of_ne hne, hb] at hx
    cases hx

structure Half (t u : Tree) (a : Nat) (s : Sock) (ds : List Int) (pos : Slots Nat → Option Int) :
    Prop where
  fresh : t.socks a = none
  addr : u.addr = t.addr
  socks : u.socks = Function.update t.socks a (some s)
  fds : u.fds = t.fds ++ ds
  efds : u.efds = t.efds + 1
  jobs : u.jobs = t.jobs
  placed : ∀ k i, pos k = some i → Parr.Placed (t.tables.row k) (u.tables.row k) a i
  others : ∀ k, pos k = none → k ≠ .bnd a → u.tables.row k = t.tables.row k
  own : u.tables.row (.bnd a) = .init 10
  grown : u.Grown

variable {u : Tree} {ds : List Int} {pos : Slots Nat → Option Int}

theorem half_start (h : t.Grown) (ha : t.socks a = none) (hu : u.tables = t.tables)
    (hs : u.socks = t.socks) (hd : u.addr = t.addr) (hf : u.fds = t.fds ++ ds)
    (he : u.efds = t.efds) (hj : u.jobs = t.jobs) (s : Sock) :
    t.Half (u.sockInit a s) a s ds fun _ => none where
  fresh := ha
  addr := hd
  socks := by rw [← hs]; rfl
  fds := hf
  efds := by rw [← he]; rfl
  jobs := hj
  placed _ _ := nofun
  others k _ hk := by
    rw [← hu]
    exact Tables.row_set_of_ne _ _ hk
  own := by rw [Tree.sockInit, Tables.row_set_self]
  grown := (h.frame hu fun _ hb => by rwa [hs]).sockInit

theorem Half.opened (h : t.Half u a s [] pos) (fd : Int) :
    t.Half (u.opened fd) a s [fd] pos where
  fresh := h.fresh
  addr := h.addr
  socks := h.socks
  fds := by
    rw [Tree.opened, h.fds, List.append_nil]
  efds := h.efds
  jobs := h.jobs
  placed := h.placed
  others := h.others
  own := h.own
  grown := h.grown.frame rfl fun _ hb => hb

theorem Half.torn (h : t.Half u a s ds pos) (hs : s.fd < 0)
    (hp : pos .binds = none ∧ pos .conns = none) (hd : ∀ d ∈ ds, 0 ≤ d ∧ d = l.draw.fd) :
    t.Torn u l where
  leaks := .inr (by rw [h.efds]; exact Nat.succ_ne_self _)
  stillborn b x hb hx := by
    rw [h.socks] at hx
    rwa [(eq_of_update hb hx).2]
  fds d hm := by
    rw [h.fds] at hm
    exact (List.mem_append.mp hm).imp_right (hd d)
  socks b x hx := by
    rw [h.socks]
    exact update_kept h.fresh hx
  binds := h.others .binds hp.1 (by simp)
  conns := h.others .conns hp.2 (by simp)

theorem Half.freed (h : t.Half u a s ds pos) (hg : t.Grown) (hs : s.fd < 0)
    (hp : pos .binds = none ∧ pos .conns = none) (hd : ∀ d ∈ ds, 0 ≤ d ∧ d = l.draw.fd) :
    t.Torn (u.free a) l ∧ (u.free a).Grown := by
  have ht := h.torn hs hp hd
  refine ⟨⟨ht.leaks, fun b x hb hx => ?_, ht.fds, fun b x hx => ?_, ht.binds, ht.conns⟩,
    h.grown.free fun hm => ?_⟩
  · rcases eq_or_ne b a with rfl | hba
    · simp [free] at hx
    · simp [free, h.socks, hba, hb] at hx
  · rw [free, h.socks, Function.update_idem]
    exact update_kept h.fresh hx
  · have hrow : u.tables.binds = t.tables.binds := ht.binds
    have hs := hg.bound a (hrow ▸ hm)
    simp [h.fresh] at hs

theorem Half.insert (h : t.Half u a s ds pos) (hg : t.Grown) (hk : k ≠ .bnd a) (hp : pos k = none)
    (mem : Mem) : ¬ Covers mem (t.tables.row k) ∧ u.parrInsert k a mem = .ok (u, -1) ∨
      Covers mem (t.tables.row k) ∧ ∃ (v : Tree) (n : Nat), u.parrInsert k a mem = .ok (v, n) ∧
        t.Half v a s ds (Function.update pos k (some n)) := by
  obtain ⟨ns, hns⟩ := hg.rows k
  have hrow := h.others k hp hk
  rcases parrInsert_cases (hrow.symm ▸ hns) a mem with ⟨hm, hi⟩ | ⟨hm, arr, harr, hi⟩
  · exact .inl ⟨hrow ▸ hm, hi⟩
  · refine .inr ⟨hrow ▸ hm, _, ns.length, hi, ?_⟩
    constructor
    · exact h.fresh
    · exact h.addr
    · exact h.socks
    · exact h.fds
    · exact h.efds
    · exact h.jobs
    · intro j i hj
      rcases eq_or_ne j k with rfl | hjk
      · rw [Function.update_self, Option.some.injEq] at hj
        rw [← hj, Tables.row_set_self]
        exact Parr.placed_filled hns harr
      · rw [Function.update_of_ne hjk] at hj
        rw [Tables.row_set_of_ne _ _ hjk]
        exact h.placed j i hj
    · intro j hj hja
      have hjk : j ≠ k := by
        rintro rfl
        simp at hj
      rw [Function.update_of_ne hjk] at hj
      rw [Tables.row_set_of_ne _ _ hjk]
      exact h.others j hj hja
    · rw [Tables.row_set_of_ne _ _ hk.symm]
      exact h.own
    · refine h.grown.set harr ?_
      rintro rfl b hb
      rcases List.mem_append.mp hb with hb | hb
      · have hbinds : Parr.Filled 10 u.tables.binds ns := by
          rw [← Tables.row, hrow]
          exact hns
        exact h.grown.members hbinds hb
      · obtain rfl := List.mem_singleton.mp hb
        rw [h.socks, Function.update_self]
        rfl

theorem Half.complete {x : Sock} (h : t.Half u a s [l.draw.fd] pos) (hf : 0 ≤ l.draw.fd)
    (hk : x.kind = l.kind) (ho : x.owner = some t.addr) (hw : x.thr = some w) (hx : x.fd = l.draw.fd)
    (hp : ∀ k ∈ l.slots, pos k = some (x.slot k)) (hn : ∀ k ∉ l.slots, pos k = none) (v : Tree)
    (hv : v.tables = u.tables ∧ v.socks = u.socks ∧ v.fds = u.fds ∧ v.efds = u.efds ∧
      v.jobs = u.jobs) :
    t.Complete ((v.write a x).schedule w (l.job a)) l a x w ∧
      ((v.write a x).schedule w (l.job a)).Grown := by
  obtain ⟨htab, hsocks, hfds, hefds, hjobs⟩ := hv
  refine ⟨?_, h.grown.frame htab fun b hb => isSome_write (hsocks ▸ hb)⟩
  constructor
  · exact h.fresh
  · change Function.update v.socks a (some x) = _
    rw [hsocks, h.socks, Function.update_idem]
  · exact hk
  · exact ho
  · exact hw
  · exact ⟨hx, hx ▸ hf⟩
  · rw [hx, ← h.fds]
    exact hfds
  · rw [← h.efds]
    exact hefds
  · change Function.update v.jobs w (v.jobs w ++ [l.job a]) = _
    rw [hjobs, h.jobs]
  · exact fun k hkl => htab ▸ h.placed k _ (hp k hkl)
  · exact fun k hkl hka => htab ▸ h.others k (hn k hkl) hka
  · exact htab ▸ h.own

theorem enter_spec (h : t.Grown) (hl : l.slots = [k]) (hk : ∀ b, k ≠ .bnd b)
    (hf : t.Fresh l.draw) (hi : l.draw.sock = none → Idle l) : Verdict t l
      (l.draw.sock = none ∨ 0 ≤ l.draw.fd ∧ Covers l.draw.outer (t.tables.row k))
      (t.enter l.kind k l.job l.draw) := by
  cases ho : l.draw.sock with
  | none =>
    simp only [enter, ho]
    exact .still (.inl trivial) (hi ho)
  | some a =>
    have hnew := (hf.sock a ho).2
    simp only [enter, ho, chooseThr]
    generalize hs : ({ Sock.init l.kind with owner := some t.addr, thr := some t.thrLastIdx } : Sock) = s
    have hfd : s.fd < 0 := hs ▸ Int.negSucc_lt_zero 0
    have hhalf := half_start (u := { t with thrLastIdx := t.thrLastIdx + 1 }) h hnew rfl rfl rfl
      (List.append_nil _).symm rfl rfl s
    rcases Int.lt_or_le l.draw.fd 0 with hneg | hpos
    · rw [if_pos hneg]
      exact .torn (by simp [hneg]) (hhalf.torn hfd ⟨rfl, rfl⟩ (by simp)) hhalf.grown
    · rw [if_neg (by omega)]
      rcases (hhalf.opened l.draw.fd).insert h (hk a) rfl l.draw.outer with
        ⟨hm, hi⟩ | ⟨hm, v, n, hi, hv⟩
      · simp only [hi, Bind.bind, Except.bind]
        exact .aborts (by simp [hm])
      · simp only [hi, Bind.bind, Except.bind]
        rw [if_neg (by omega)]
        have hslot : ∀ x : Sock, x.slot k = x.idx := fun x => by
          cases k with
          | bnd b => exact absurd rfl (hk b)
          | _ => rfl
        subst hs
        have hin : ∀ j ∈ l.slots, Function.update (fun _ => none) k (some (n : Int)) j =
            some ((Sock.mk l.kind (some t.addr) (some t.thrLastIdx) l.draw.fd n (-1)).slot j) := by
          intro j hj
          obtain rfl : j = k := by simpa [hl] using hj
          rw [Function.update_self, hslot]
        have hout : ∀ j ∉ l.slots, Function.update (fun _ => none) k (some (n : Int)) j = none := by
          intro j hj
          have hjk : j ≠ k := by simpa [hl] using hj
          rw [Function.update_of_ne hjk]
        obtain ⟨hw, hg⟩ := hv.complete (w := t.thrLastIdx) hpos rfl rfl rfl rfl hin hout v
          ⟨rfl, rfl, rfl, rfl, rfl⟩
        exact .whole (.inr ⟨hpos, hm⟩) hw hg ho

theorem accept_spec (h : t.Grown) (hf : t.Fresh o) (hb : .obj b ∈ t.tables.binds.used) :
    Verdict t (.accept b o) (t.Clean (.accept b o)) (t.accept b o) := by
  have hbound := h.bound b hb
  rcases Int.lt_or_le o.fd 0 with hfd | hfd
  · rw [accept, if_pos hfd]
    exact .still (.inl hfd) ⟨by simp [Attaching.inits, hfd], fun _ => ⟨rfl, hfd⟩⟩
  rw [accept, if_neg (by omega)]
  cases ho : o.sock with
  | none =>
    have hd : ∀ d ∈ (t.opened o.fd).fds, d ∈ t.fds ∨ 0 ≤ d ∧ d = o.fd := fun d hm =>
      (List.mem_append.mp hm).imp_right fun he => by simp_all
    refine .torn (by simp [Clean, ho, hfd]) ⟨.inl (by simp [opened]), fun a s hn hs => ?_, hd,
      fun _ _ hs => hs, rfl, rfl⟩ (Grown.frame h rfl fun _ hs => hs)
    rw [opened, hn] at hs
    cases hs
  | some a =>
    have hnew := (hf.sock a ho).2
    have hba : Slots.bnd b ≠ .bnd a := by
      rintro ⟨⟩
      simp [hnew] at hbound
    dsimp only
    generalize hs : ({ Sock.init .incoming with owner := some t.addr } : Sock) = s
    have hneg : s.fd < 0 := hs ▸ Int.negSucc_lt_zero 0
    have hhalf := half_start (u := t.opened o.fd) h hnew rfl rfl rfl rfl rfl rfl s
    have hrest : ¬ o.fd < 0 := by omega
    have hd : ∀ d ∈ [o.fd], 0 ≤ d ∧ d = (Attaching.accept b o).draw.fd := by
      simpa [Attaching.draw] using hfd
    rcases hhalf.insert h hba rfl o.inner with ⟨hm, hi⟩ | ⟨hm, v, n, hi, hv⟩
    · obtain ⟨ht, hg⟩ := hhalf.freed (l := .accept b o) h hneg ⟨rfl, rfl⟩ hd
      simp only [hi, Bind.bind, Except.bind]
      exact .torn (fun hc => hm (hc.resolve_left hrest).2.1) ht hg
    · simp only [hi, Bind.bind, Except.bind]
      rw [if_neg (by omega)]
      rcases hv.insert h (k := .conns) (by simp) rfl o.outer with ⟨hm', hi'⟩ | ⟨hm', x, m, hi', hx⟩
      · simp only [hi']
        have hp : Function.update (fun _ => none) (.bnd b) (some (n : Int)) Slots.binds = none ∧
            Function.update (fun _ => none) (.bnd b) (some (n : Int)) Slots.conns = none := by simp
        exact .torn (fun hc => hm' (hc.resolve_left hrest).2.2) (hv.torn hneg hp hd) hv.grown
      · simp only [hi']
        rw [if_neg (by omega)]
        have hin : ∀ j ∈ [Slots.bnd b, .conns], Function.update (Function.update (fun _ => none)
            (.bnd b) (some (n : Int))) .conns (some (m : Int)) j = some
              ((Sock.mk .incoming (some t.addr) (some x.thrLastIdx) o.fd m n).slot j) := by
          simp [Sock.slot]
        have hout : ∀ j ∉ [Slots.bnd b, .conns], Function.update (Function.update (fun _ => none)
            (.bnd b) (some (n : Int))) .conns (some (m : Int)) j = none := by
          intro j hj
          obtain ⟨hjb, hjc⟩ : j ≠ .bnd b ∧ j ≠ .conns := by simpa using hj
          rw [Function.update_of_ne hjc, Function.update_of_ne hjb]
        subst hs
        obtain ⟨hw, hg⟩ := hx.complete (l := .accept b o) (w := x.thrLastIdx) hfd rfl rfl rfl rfl
          hin hout { x with thrLastIdx := x.thrLastIdx + 1 } ⟨rfl, rfl, rfl, rfl, rfl⟩
        exact .whole (.inr ⟨by rw [ho]; rfl, hm, hm'⟩) hw hg ho

theorem attempt_spec (h : t.Grown) (ho : t.Offers l) : Verdict t l (t.Clean l) (t.attempt l) := by
  cases l with
  | bind o =>
    refine enter_spec (l := .bind o) h rfl (by simp) ho.fresh fun (hs : o.sock = none) => ?_
    exact ⟨by simp [Attaching.inits, hs], by simp [Attaching.asks, hs]⟩
  | connect o =>
    refine enter_spec (l := .connect o) h rfl (by simp) ho.fresh fun (hs : o.sock = none) => ?_
    exact ⟨by simp [Attaching.inits, hs], by simp [Attaching.asks, hs]⟩
  | accept b o => exact accept_spec h ho.fresh ho.bound

theorem whole_iff (h : t.Grown) (ho : t.Offers l) : t.AllOrNothing l ↔ t.Clean l := by
  have hv := attempt_spec h ho
  generalize hx : t.attempt l = x at hv
  cases hv with
  | still hc => exact iff_of_true ⟨_, _, hx, .inr (untouched_refl t)⟩ hc
  | whole hc hw => exact iff_of_true ⟨_, _, hx, .inl ⟨_, _, _, hw⟩⟩ hc
  | torn hc ht => exact iff_of_false (ht.not_whole hx) hc
  | aborts hc =>
    refine iff_of_false ?_ hc
    rintro ⟨t', r, ht, -⟩
    rw [hx] at ht
    cases ht

structure Sealed (t : Tree) : Prop where
  inner : ∀ b (n : Nat) c, (t.tables.bnds b).view n = some (.obj c) → ∃ s, t.socks c = some s ∧
    s.kind = .incoming ∧ s.idxlocal = n ∧ 0 ≤ s.idx ∧ s.idx < t.tables.conns.last ∧
      t.tables.conns.view s.idx.toNat = some (.obj c)
  outer : ∀ (n : Nat) c, t.tables.conns.view n = some (.obj c) → ∃ s, t.socks c = some s ∧ s.idx = n

theorem grown_init (addr : Nat) : (init addr).Grown where
  rows k := ⟨[], by cases k <;> exact .fresh⟩
  bound b hb := by
    have hb : Ptr.obj b ∈ ([] : List Ptr) := hb
    cases hb

theorem sealed_init (addr : Nat) : (init addr).Sealed where
  inner b n c hv := by simp [init, Tables.init] at hv
  outer n c hv := by simp [init, Tables.init] at hv

theorem Complete.kept {n : Nat} {p : Ptr} (h : t.Complete t' l a s w) (hk : k ≠ .bnd a)
    (hv : (t.tables.row k).view n = some p) : (t'.tables.row k).view n = some p := by
  by_cases hm : k ∈ l.slots
  · obtain ⟨m, -, hnone, hview⟩ := h.placed k hm
    have hnm : n ≠ m := by
      rintro rfl
      rw [hv] at hnone
      cases hnone
    rw [hview, Function.update_of_ne hnm, hv]
  · rw [h.others k hm hk, hv]

theorem Complete.entry {n c : Nat} (h : t.Complete t' l a s w)
    (hv : (t'.tables.row k).view n = some (.obj c)) : c = a ∧ k ∈ l.slots ∧ s.slot k = n ∨
      k ≠ .bnd a ∧ (t.tables.row k).view n = some (.obj c) := by
  by_cases hk : k = .bnd a
  · rw [hk, h.own] at hv
    simp at hv
  · by_cases hm : k ∈ l.slots
    · obtain ⟨m, hs, -, hview⟩ := h.placed k hm
      rw [hview] at hv
      rcases eq_or_ne n m with rfl | hnm
      · rw [Function.update_self, Option.some.injEq, Ptr.obj.injEq] at hv
        exact .inl ⟨hv.symm, hm, hs⟩
      · rw [Function.update_of_ne hnm] at hv
        exact .inr ⟨hk, hv⟩
    · rw [h.others k hm hk] at hv
      exact .inr ⟨hk, hv⟩

theorem Complete.sock {c : Nat} {x : Sock} (h : t.Complete t' l a s w)
    (hx : t.socks c = some x) : t'.socks c = some x := by
  have hca : c ≠ a := by
    rintro rfl
    rw [h.fresh] at hx
    cases hx
  rw [h.socks, Function.update_of_ne hca, hx]

theorem Sealed.complete (h : t.Sealed) (hw : t.Complete t' l a s w) (hg : t'.Grown) : t'.Sealed := by
  obtain ⟨ns, hns⟩ := hg.rows .conns
  have hs : t'.socks a = some s := by rw [hw.socks, Function.update_self]
  refine ⟨fun b n c hv => ?_, fun n c hv => ?_⟩
  · rcases hw.entry (k := .bnd b) hv with ⟨rfl, hm, hn⟩ | ⟨-, hv⟩
    · cases l with
      | accept d o =>
        obtain ⟨m, hidx, -, hview⟩ := hw.placed .conns (by simp [Attaching.slots])
        have hm : t'.tables.conns.view m = some (.obj c) := by
          rw [← Tables.row, hview, Function.update_self]
        have hidx : s.idx = m := hidx
        exact ⟨s, hs, hw.kind, hn, by omega, hidx ▸ Parr.lt_last_of_view hns hm, by rwa [hidx]⟩
      | _ => simp [Attaching.slots] at hm
    · obtain ⟨x, hx, hkind, hlocal, hpos, -, hroot⟩ := h.inner b n c hv
      have hroot := hw.kept (k := .conns) (by simp) hroot
      have hlt := Parr.lt_last_of_view hns hroot
      rw [Int.toNat_of_nonneg hpos] at hlt
      exact ⟨x, hw.sock hx, hkind, hlocal, hpos, hlt, hroot⟩
  · rcases hw.entry (k := .conns) hv with ⟨rfl, -, hn⟩ | ⟨-, hv⟩
    · exact ⟨s, hs, hn⟩
    · obtain ⟨x, hx, hidx⟩ := h.outer n c hv
      exact ⟨x, hw.sock hx, hidx⟩

theorem grown_step (h : t.Grown) (ho : t.Offers l) (hs : t.step l = some t') :
    t'.Grown ∧ (t.Clean l → t.Sealed → t'.Sealed) := by
  have hv := attempt_spec h ho
  rw [step] at hs
  generalize t.attempt l = x at hv hs
  cases hv with
  | still hc =>
    cases hs
    exact ⟨h, fun _ hp => hp⟩
  | whole hc hw hg =>
    cases hs
    exact ⟨hg, fun _ hp => hp.complete hw hg⟩
  | torn hc ht hg =>
    cases hs
    exact ⟨hg, fun hn => absurd hn hc⟩
  | aborts hc => cases hs

theorem attach_all_or_nothing (addr : Nat) {tr : List (Tree × Attaching)}
    (hr : Run step (init addr) tr t) (ho : Steps Offers tr) :
    (∀ l, t.Offers l → (t.AllOrNothing l ↔ t.Clean l)) ∧ (Steps Clean tr → t.Sealed) := by
  have hg : t.Grown := hr.invariant (grown_init addr) (fun _ _ _ h ho hs => (grown_step h ho hs).1) ho
  refine ⟨fun l hl => whole_iff hg hl, fun hc => ?_⟩
  exact (hr.invariant (I := fun t => t.Grown ∧ t.Sealed) ⟨grown_init addr, sealed_init addr⟩
    (fun _ _ _ h ho hs => ⟨(grown_step h.1 ho.1 hs).1, (grown_step h.1 ho.1 hs).2 ho.2 h.2⟩)
    (steps_and ho hc)).2

def grant : Mem := some fun _ => .obj 99

def planted : List Attaching := [.bind ⟨some 1, 5, none, grant⟩]

def grafted : List Attaching :=
  [.bind ⟨some 1, 5, none, grant⟩, .bind ⟨none, -1, none, none⟩,
    .accept 1 ⟨some 2, 6, grant, grant⟩, .connect ⟨some 3, 7, none, none⟩,
    .accept 1 ⟨none, -1, none, none⟩]

theorem attach_all_or_nothing_grafted : (final step (init 0) grafted).Sealed ∧
    (final step (init 0) grafted).AllOrNothing (.connect ⟨some 4, 8, none, none⟩) ∧
    ¬ (final step (init 0) grafted).AllOrNothing (.accept 1 ⟨none, 8, none, none⟩) := by
  obtain ⟨hwhole, hsealed⟩ := attach_all_or_nothing 0 (run_final (k := grafted) rfl) (by decide)
  refine ⟨hsealed (by decide), (hwhole _ (by decide)).mpr (by decide), ?_⟩
  rw [hwhole _ (by decide)]
  decide

theorem half_attached : ∃ t t' : Tree, ∃ s, (∃ tr, Run step (init 0) tr t ∧ Steps Offers tr) ∧
    t.Offers (.accept 1 ⟨some 2, 6, grant, none⟩) ∧
    t.accept 1 ⟨some 2, 6, grant, none⟩ = .ok (t', 0) ∧
    ¬ t.AllOrNothing (.accept 1 ⟨some 2, 6, grant, none⟩) ∧ t'.fds = [5, 6] ∧
    t'.tables.conns = .init 10 ∧ (t'.tables.bnds 1).load 0 = .ok (.obj 2) ∧
    t'.socks 2 = some s ∧ s.kind = .incoming ∧ s.idx = -1 ∧
    ∀ mem, t'.tables.conns.clear s.idx mem = .error .assertion := by
  have hr : Run step (init 0) _ (final step (init 0) planted) := run_final (k := planted) rfl
  have ho : Steps Offers (trace step (init 0) planted) := by decide
  have hl : (final step (init 0) planted).Offers (.accept 1 ⟨some 2, 6, grant, none⟩) := by decide
  refine ⟨_, _, _, ⟨_, hr, ho⟩, hl, rfl, ?_, rfl, rfl, rfl, rfl, rfl, rfl, fun mem => rfl⟩
  have hg : (final step (init 0) planted).Grown :=
    hr.invariant (grown_init 0) (fun _ _ _ h ho hs => (grown_step h ho hs).1) ho
  rw [whole_iff hg hl]
  decide

end Tree

end Fsock
