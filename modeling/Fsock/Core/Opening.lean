import Fsock.Core.AttachWhole
import Fsock.Utils.EfdInit

namespace Fsock

open Transition Syscalls

namespace Tree

variable {t t' : Tree} {l : Attaching} {a b c : Nat} {s : Sock} {w : Thr}

def Unused (t : Tree) (o : Draw) : Prop := ∀ a, o.sock = some a → a ≠ t.addr ∧ t.socks a = none

instance (t : Tree) (o : Draw) : Decidable (t.Unused o) :=
  decidable_of_iff ((o.sock.all fun a => a ≠ t.addr ∧ t.socks a = none) = true)
    ⟨fun hs a ha => by simpa using (Option.all_eq_true _ _).mp hs a ha,
      fun h => (Option.all_eq_true _ _).mpr fun a ha => by simpa using h a ha⟩

def Member (t : Tree) (a : Nat) : Prop :=
  .obj a ∈ t.tables.binds.used ∨ .obj a ∈ t.tables.conns.used

theorem mem_used {arr : Parr} {ns : List Nat} {p : Ptr} (h : Parr.Filled 10 arr ns) :
    p ∈ arr.used ↔ ∃ n, arr.view n = some p := by
  rw [Parr.used_filled h]
  simp only [Parr.view_filled h, List.mem_iff_getElem?, List.getElem?_map]

theorem Complete.entries {k : Slots Nat} (h : t.Complete t' l a s w) (hg : t.Grown) (hg' : t'.Grown)
    (hk : ∀ b, k ≠ .bnd b) :
    .obj c ∈ (t'.tables.row k).used ↔ .obj c ∈ (t.tables.row k).used ∨ c = a ∧ k ∈ l.slots := by
  obtain ⟨ns, hns⟩ := hg.rows k
  obtain ⟨ms, hms⟩ := hg'.rows k
  rw [mem_used hns, mem_used hms]
  constructor
  · rintro ⟨n, hn⟩
    rcases h.entry hn with ⟨rfl, hm, -⟩ | ⟨-, hold⟩
    · exact .inr ⟨rfl, hm⟩
    · exact .inl ⟨n, hold⟩
  · rintro (⟨n, hn⟩ | ⟨rfl, hm⟩)
    · exact ⟨n, h.kept (hk a) hn⟩
    · obtain ⟨n, -, -, hview⟩ := h.placed k hm
      exact ⟨n, by rw [hview, Function.update_self]⟩

theorem Complete.member (h : t.Complete t' l a s w) (hg : t.Grown) (hg' : t'.Grown) :
    t'.Member c ↔ t.Member c ∨ c = a := by
  have hb := h.entries (c := c) (k := .binds) hg hg' (by simp)
  have hc := h.entries (c := c) (k := .conns) hg hg' (by simp)
  simp only [Tables.row] at hb hc
  rw [Member, Member, hb, hc]
  cases l <;> simp [Attaching.slots] <;> tauto

theorem Torn.member (h : t.Torn t' l) : t'.Member c ↔ t.Member c := by
  rw [Member, Member, h.binds, h.conns]

theorem attempt_idle (h : l.asks = false) : t.attempt l = .ok (t, -1) := by
  cases l with
  | bind o =>
    have ho : o.sock = none := by simpa [Attaching.asks] using h
    rw [attempt, bind, enter, ho]
  | connect o =>
    have ho : o.sock = none := by simpa [Attaching.asks] using h
    rw [attempt, connect, enter, ho]
  | accept b o => simp [Attaching.asks] at h

end Tree

structure Opening where
  attach : Attaching
  addr : Option String
  port : Int
  trace : Anet.Trace

structure Host where
  tree : Tree
  kernel : Anet.Kernel
  efds : Nat → List Int

open Anet (Libc Kernel Files Infos EfdKind Gains world served ANET_ERR)

namespace Opening

variable (v : EfdKind) (l : Opening)

def loses : Bool := decide (l.attach.kind = .bind) && Anet.reuseDenied l.trace

-- what a call that does not complete leaves open
def leaks (t : Tree) : Nat :=
  if t.Clean l.attach then 0
  else (if 0 ≤ l.attach.draw.fd then 1 else 0) +
    (if l.attach.inits ∧ Anet.exhausted l.trace = false then v.width else 0) +
    if l.loses then 1 else 0

end Opening

namespace Host

variable (v : EfdKind) (L : Libc)

def enter (dial : Anet.Code Int) : Anet.Code (Option (Int × Option (List Int))) := do
  match ← Anet.nnEfdInit v with
  | none => return none
  | some efd =>
    let fd ← dial
    return some (fd, some efd)

def code (t : Tree) (l : Opening) : Anet.Code (Option (Int × Option (List Int))) :=
  match l.attach with
  | .bind _ => enter v (Anet.anetTcpServer L l.port l.addr 1024)
  | .connect _ => enter v (Anet.anetTcpNonBlockConnect L l.addr l.port)
  | .accept b o =>
    match t.socks b with
    | none => return none
    | some bnd => do
      match ← Anet.anetTcpAccept L bnd.fd l.trace.length with
      | none => return none
      | some fd =>
        if fd < 0 ∨ o.sock = none then return some (fd, none)
        else
          match ← Anet.nnEfdInit v with
          | none => return none
          | some efd => return some (fd, some efd)

def run (h : Host) (l : Opening) : Option (Option (Int × Option (List Int)) × Kernel) :=
  if l.attach.asks then (code v L h.tree l).exec world h.kernel l.trace
  else if l.trace.isEmpty then some (some (l.attach.draw.fd, none), h.kernel)
  else none

def store (h : Host) (l : Attaching) (efd : Option (List Int)) : Nat → List Int :=
  match l.draw.sock, efd with
  | some a, some efd => Function.update h.efds a efd
  | _, _ => h.efds

def step (h : Host) (l : Opening) : Option Host :=
  match h.run v L l with
  | some (some (fd, efd), k) =>
    if fd = l.attach.draw.fd then
      (h.tree.step l.attach).map fun t => ⟨t, k, h.store l.attach efd⟩
    else none
  | _ => none

structure Offers (h : Host) (l : Opening) : Prop where
  unused : h.tree.Unused l.attach.draw
  bound : h.tree.Bound l.attach

instance (h : Host) (l : Opening) : Decidable (h.Offers l) :=
  decidable_of_iff (h.tree.Unused l.attach.draw ∧ h.tree.Bound l.attach)
    ⟨fun ⟨hu, hb⟩ => ⟨hu, hb⟩, fun h => ⟨h.unused, h.bound⟩⟩

def Owns (h : Host) (d : Int) : Prop :=
  ∃ a s, h.tree.Member a ∧ h.tree.socks a = some s ∧ (d = s.fd ∨ d ∈ h.efds a)

structure Accounts (k : Kernel) (h : Host) (held leaked : List Int) : Prop where
  infos : h.kernel.infos = k.infos
  gains : Gains k.files (held ++ leaked) h.kernel.files
  held : ∀ d, d ∈ held ↔ h.Owns d

def Serving (h : Host) : Prop := ∀ b, .obj b ∈ h.tree.tables.binds.used →
  ∃ s addr, h.tree.socks b = some s ∧ h.kernel.files s.fd = some (served Anet.AF_INET 1024 addr)

structure Inv (k : Kernel) (h : Host) (held leaked : List Int) : Prop where
  grown : h.tree.Grown
  serving : h.Serving
  present : ∀ a, h.tree.Member a → (h.tree.socks a).isSome = true
  taken : ∀ d ∈ h.tree.fds, d ∈ held ++ leaked
  accounts : Accounts k h held leaked

def got (fd : Int) : List Int := if 0 ≤ fd then [fd] else []

structure Dials (F : Files) (I : Infos) (kind : Kind) (fd : Int) (tr : Anet.Trace) (k : Kernel)
    (lost : List Int) : Prop where
  infos : k.infos = I
  gains : Gains F (got fd ++ lost) k.files
  drops : lost.length = if decide (kind = .bind) && Anet.reuseDenied tr then 1 else 0
  kept : 0 ≤ fd → lost = []
  serves : kind = .bind → 0 ≤ fd → ∃ addr, k.files fd = some (served Anet.AF_INET 1024 addr)

structure Answers (v : EfdKind) (F : Files) (I : Infos) (l : Attaching) (fd : Int)
    (efd : Option (List Int)) (tr : Anet.Trace) (k : Kernel) (lost : List Int) : Prop where
  infos : k.infos = I
  gains : Gains F (got fd ++ efd.getD [] ++ lost) k.files
  width : ∀ ds, efd = some ds → ds.length = if Anet.exhausted tr = false then v.width else 0
  inits : fd = l.draw.fd → efd.isSome = l.inits
  drops : lost.length = if decide (l.kind = .bind) && Anet.reuseDenied tr then 1 else 0
  kept : 0 ≤ fd → lost = []
  serves : l.kind = .bind → 0 ≤ fd → ∃ addr, k.files fd = some (served Anet.AF_INET 1024 addr)

variable {v L} {h h' : Host} {l : Attaching} {k k' : Kernel} {F G H : Files} {I : Infos} {fd : Int}
  {held leaked lost : List Int} {tr us : Anet.Trace}

theorem got_nonneg (h : 0 ≤ fd) : got fd = [fd] := if_pos h

theorem dials_bind {bindaddr : Option String} {port : Int}
    (h : Anet.Listens F I Anet.AF_INET 1024 bindaddr port fd tr k) :
    ∃ lost, Dials F I .bind fd tr k lost := by
  have hneg : ¬ (0 : Int) ≤ ANET_ERR := by decide
  cases h with
  | err hk _ hd =>
    refine ⟨[], hk.infos, ?_, by simp [hd], fun _ => rfl, fun _ h0 => absurd h0 hneg⟩
    rw [hk.files]
    exact .refl F
  | @lost s _ _ _ h0 hn hk _ hd =>
    refine ⟨[s], hk.infos, ?_, by simp [hd], fun h0 => absurd h0 hneg, fun _ h0 => absurd h0 hneg⟩
    rw [hk.files]
    exact .one h0 hn
  | ok h0 hn hk _ hd =>
    refine ⟨[], hk.infos, ?_, by simp [hd], fun _ => rfl, fun _ _ => ⟨_, by
      rw [hk.files, Anet.plus_self]⟩⟩
    rw [hk.files, got_nonneg h0]
    exact .one h0 hn

theorem dials_connect {b : Bool} {flags : Nat} {addr : Option String} {port : Int}
    (h : Anet.Connects F I b flags addr port fd tr k) : Dials F I .outgoing fd tr k [] := by
  cases h with
  | err hk _ =>
    refine ⟨hk.infos, ?_, rfl, fun _ => rfl, nofun⟩
    rw [hk.files]
    exact .refl F
  | ok hd _ =>
    obtain ⟨h0, hn, _, _, _, _, hk, _⟩ := hd
    refine ⟨hk.infos, ?_, rfl, fun _ => rfl, nofun⟩
    rw [hk.files, got_nonneg h0]
    exact .one h0 hn

theorem dials_accept {f : Anet.File} (h : Anet.Accepts F I f (some fd) k) :
    Dials F I .incoming fd tr k [] := by
  cases h with
  | err hk =>
    refine ⟨hk.infos, ?_, rfl, fun _ => rfl, nofun⟩
    rw [hk.files]
    exact .refl F
  | ok h0 hn hk =>
    refine ⟨hk.infos, ?_, rfl, fun _ => rfl, nofun⟩
    rw [hk.files, got_nonneg h0]
    exact .one h0 hn

theorem enter_spec {dial : Anet.Code Int} (hl : l.kind ≠ .incoming) (hs : l.draw.sock.isSome = true)
    (hk : k.Has F I) (hp : dial.Asks Anet.Plain)
    (hd : ∀ G k, k.Has G I → dial.wp world (fun fd tr k' => ∃ lost, Dials G I l.kind fd tr k' lost) k) :
    (enter v dial).wp world (fun r tr k' => ∀ fd efd, r = some (fd, efd) →
      ∃ lost, Answers v F I l fd efd tr k' lost) k := by
  apply (Anet.nnEfdInit_spec hk).seq
  intro r tr k₁ hm
  cases r with
  | none => exact fun _ _ => nofun
  | some efd =>
    obtain ⟨G, hk, hg, hw, hr⟩ := hm.opened
    apply ((hd G k₁ hk).asked hp).seq
    rintro fd us k' ⟨⟨lost, hd⟩, hu⟩ _ _ ⟨rfl, rfl⟩
    rw [List.append_nil]
    have hx := Anet.exhausted_plain hu
    refine ⟨lost, hd.infos, (hg.append hd.gains).perm ?_, ?_, ?_, ?_, hd.kept, hd.serves⟩
    · rw [← List.append_assoc]
      exact List.perm_append_comm.append_right lost
    · rintro _ ⟨rfl⟩
      rw [hw]
      simp [hx]
    · rintro -
      cases l with
      | accept b o => exact absurd rfl hl
      | bind o => exact hs.symm
      | connect o => exact hs.symm
    · rw [hd.drops]
      simp [hr]

theorem accept_spec {o : Draw} {b n : Nat} {s : Int} {f : Anet.File} (hk : k.Has F I)
    (hs : F s = some f) : (do
      match ← Anet.anetTcpAccept L s n with
      | none => return none
      | some fd =>
        if fd < 0 ∨ o.sock = none then return some (fd, none)
        else
          match ← Anet.nnEfdInit v with
          | none => return none
          | some efd => return some (fd, some efd) :
        Anet.Code (Option (Int × Option (List Int)))).wp world (fun r tr k' => ∀ fd efd,
      r = some (fd, efd) → ∃ lost, Answers v F I (.accept b o) fd efd tr k' lost) k := by
  apply ((Anet.anetTcpAccept_spec hk hs n).asked (Anet.anetTcpAccept_asks s n)).seq
  rintro r tr k₁ ⟨hacc, hu⟩
  have hx := Anet.exhausted_plain hu
  cases r with
  | none => exact fun _ _ => nofun
  | some fd =>
    have hd : Dials F I .incoming fd tr k₁ [] := dials_accept hacc
    have hg := hd.gains
    rw [List.append_nil] at hg
    change (if fd < 0 ∨ o.sock = none then _ else _ :
      Anet.Code (Option (Int × Option (List Int)))).wp _ _ _
    by_cases hskip : fd < 0 ∨ o.sock = none
    · rw [if_pos hskip]
      rintro _ _ ⟨rfl, rfl⟩
      refine ⟨[], hd.infos, by simpa using hg, nofun, fun hfd => ?_, rfl, fun _ => rfl, nofun⟩
      obtain rfl : fd = o.fd := hfd
      rcases hskip with hneg | hnone
      · simp [Attaching.inits, hneg]
      · simp [Attaching.inits, hnone]
    · rw [if_neg hskip]
      push Not at hskip
      apply (Anet.nnEfdInit_spec (F := k₁.files) ⟨rfl, hd.infos⟩).seq
      intro r us k' hm
      cases r with
      | none => exact fun _ _ => nofun
      | some efd =>
        obtain ⟨G, hk, hg', hw, hr⟩ := hm.opened
        rintro _ _ ⟨rfl, rfl⟩
        refine ⟨[], hk.infos, ?_, ?_, fun hfd => ?_, rfl, fun _ => rfl, nofun⟩
        · rw [List.append_nil, hk.files]
          exact hg.append hg'
        · rintro _ ⟨rfl⟩
          rw [hw]
          simp [hx]
        · obtain rfl : fd = o.fd := hfd
          simp [Attaching.inits, hskip.1, Option.isSome_iff_ne_none.mpr hskip.2]

theorem code_spec {l : Opening} (hs : h.Serving) (hb : h.tree.Bound l.attach)
    (ha : l.attach.asks = true) :
    (code v L h.tree l).wp world (fun r tr k' => ∀ fd efd, r = some (fd, efd) → ∃ lost,
      Answers v h.kernel.files h.kernel.infos l.attach fd efd tr k' lost) h.kernel := by
  obtain ⟨attach, addr, port, events⟩ := l
  cases attach with
  | bind o =>
    refine enter_spec (l := .bind o) (by simp [Attaching.kind]) ha ⟨rfl, rfl⟩
      (Anet.anetTcpServer_asks addr port) fun G k hk => ?_
    exact (Anet.anetTcpServer_spec hk addr port).mono fun _ _ _ => dials_bind
  | connect o =>
    refine enter_spec (l := .connect o) (by simp [Attaching.kind]) ha ⟨rfl, rfl⟩
      (Anet.anetTcpGenericConnect_asks addr port) fun G k hk => ?_
    exact (Anet.anetTcpGenericConnect_spec hk addr port).mono fun _ _ _ hc =>
      ⟨[], dials_connect hc.1⟩
  | accept b o =>
    obtain ⟨s, a, hsock, hfile⟩ := hs b hb
    simp only [code, hsock]
    exact accept_spec ⟨rfl, rfl⟩ hfile

theorem store_kept {efd : Option (List Int)} {a : Nat} {s : Sock} (hu : h.tree.Unused l.draw)
    (hs : h.tree.socks a = some s) : h.store l efd a = h.efds a := by
  cases hb : l.draw.sock with
  | none => simp only [store, hb]
  | some b =>
    cases efd with
    | none => simp only [store, hb]
    | some ds =>
      have hab : a ≠ b := by
        rintro rfl
        rw [(hu a hb).2] at hs
        cases hs
      simp only [store, hb, Function.update_of_ne hab]

theorem Inv.owns_kept {t : Tree} {efd : Option (List Int)} {d : Int} (hi : Inv k h held leaked)
    (hu : h.tree.Unused l.draw) (hm : ∀ a, t.Member a ↔ h.tree.Member a)
    (hs : ∀ a s, h.tree.socks a = some s → t.socks a = some s) :
    Owns ⟨t, k', h.store l efd⟩ d ↔ h.Owns d := by
  constructor
  · rintro ⟨a, s, ha, hsock, hd⟩
    have ha := (hm a).mp ha
    obtain ⟨x, hx⟩ := Option.isSome_iff_exists.mp (hi.present a ha)
    obtain rfl : x = s := Option.some.inj ((hs a x hx).symm.trans hsock)
    exact ⟨a, x, ha, hx, by rwa [← store_kept hu hx]⟩
  · rintro ⟨a, s, ha, hsock, hd⟩
    refine ⟨a, s, (hm a).mpr ha, hs a s hsock, ?_⟩
    change d = s.fd ∨ d ∈ h.store l efd a
    rwa [store_kept hu hsock]

theorem Inv.still (hi : Inv k h held leaked) (hu : h.tree.Unused l.draw)
    (hk : k'.infos = h.kernel.infos) (hg : Gains h.kernel.files [] k'.files) :
    Inv k ⟨h.tree, k', h.store l none⟩ held leaked where
  grown := hi.grown
  serving b hb := by
    obtain ⟨s, addr, hsock, hfile⟩ := hi.serving b hb
    exact ⟨s, addr, hsock, hg.kept _ _ hfile⟩
  present := hi.present
  taken := hi.taken
  accounts :=
    { infos := hk.trans hi.accounts.infos
      gains := by simpa using hi.accounts.gains.append hg
      held := fun d => (hi.accounts.held d).trans
        (hi.owns_kept hu (fun _ => Iff.rfl) fun _ _ hs => hs).symm }

variable {t : Tree} {efd : Option (List Int)}

theorem Inv.torn (hi : Inv k h held leaked) (hu : h.tree.Unused l.draw) (ht : h.tree.Torn t l)
    (hg : t.Grown) (ha : Answers v h.kernel.files h.kernel.infos l l.draw.fd efd tr k' lost) :
    Inv k ⟨t, k', h.store l efd⟩ held (leaked ++ (got l.draw.fd ++ efd.getD [] ++ lost)) where
  grown := hg
  serving b hb := by
    obtain ⟨s, addr, hsock, hfile⟩ := hi.serving b (ht.binds ▸ hb)
    exact ⟨s, addr, ht.socks b s hsock, ha.gains.kept _ _ hfile⟩
  present a hm := by
    obtain ⟨s, hs⟩ := Option.isSome_iff_exists.mp (hi.present a (ht.member.mp hm))
    exact Option.isSome_iff_exists.mpr ⟨s, ht.socks a s hs⟩
  taken d hd := by
    rw [← List.append_assoc]
    rcases ht.fds d hd with hd | ⟨h0, rfl⟩
    · exact List.mem_append_left _ (hi.taken d hd)
    · simp [got_nonneg h0]
  accounts :=
    { infos := ha.infos.trans hi.accounts.infos
      gains := by
        rw [← List.append_assoc]
        exact hi.accounts.gains.append ha.gains
      held := fun d => (hi.accounts.held d).trans
        (hi.owns_kept hu (fun _ => ht.member) ht.socks).symm }

theorem Inv.owns_whole {a : Nat} {s : Sock} {w : Thr} {ds : List Int} {d : Int}
    (hi : Inv k h held leaked) (hw : h.tree.Complete t l a s w) (hg : t.Grown)
    (hs : l.draw.sock = some a) : Owns ⟨t, k', h.store l (some ds)⟩ d ↔
      h.Owns d ∨ d ∈ l.draw.fd :: ds := by
  have hstore : h.store l (some ds) = Function.update h.efds a ds := by simp only [store, hs]
  have hm : ∀ c, t.Member c ↔ h.tree.Member c ∨ c = a := fun c => hw.member hi.grown hg
  have hne : ∀ c, h.tree.Member c → c ≠ a := by
    rintro c hc rfl
    simpa [hw.fresh] using hi.present c hc
  rw [List.mem_cons, ← hw.fd.1]
  constructor
  · rintro ⟨c, x, hc, hx, hd⟩
    change d = x.fd ∨ d ∈ h.store l (some ds) c at hd
    change t.socks c = some x at hx
    rw [hw.socks] at hx
    rw [hstore] at hd
    rcases (hm c).mp hc with hc | rfl
    · rw [Function.update_of_ne (hne c hc)] at hx hd
      exact .inl ⟨c, x, hc, hx, hd⟩
    · rw [Function.update_self] at hx hd
      obtain rfl := Option.some.inj hx
      exact .inr hd
  · rintro (⟨c, x, hc, hx, hd⟩ | hd)
    · refine ⟨c, x, (hm c).mpr (.inl hc), hw.sock hx, ?_⟩
      change d = x.fd ∨ d ∈ h.store l (some ds) c
      rwa [hstore, Function.update_of_ne (hne c hc)]
    · refine ⟨a, s, (hm a).mpr (.inr rfl), by rw [hw.socks, Function.update_self], ?_⟩
      change d = s.fd ∨ d ∈ h.store l (some ds) a
      rwa [hstore, Function.update_self]

theorem Inv.whole {a : Nat} {s : Sock} {w : Thr} {ds : List Int} (hi : Inv k h held leaked)
    (hw : h.tree.Complete t l a s w) (hg : t.Grown) (hs : l.draw.sock = some a)
    (ha : Answers v h.kernel.files h.kernel.infos l l.draw.fd (some ds) tr k' lost) :
    Inv k ⟨t, k', h.store l (some ds)⟩ (held ++ l.draw.fd :: ds) leaked where
  grown := hg
  serving b hb := by
    have hb := (hw.entries (k := .binds) hi.grown hg (by simp)).mp hb
    rcases hb with hb | ⟨rfl, hk⟩
    · obtain ⟨s, addr, hsock, hfile⟩ := hi.serving b hb
      exact ⟨s, addr, hw.sock hsock, ha.gains.kept _ _ hfile⟩
    · have hkind : l.kind = .bind := by
        cases l <;> simp_all [Attaching.slots, Attaching.kind]
      obtain ⟨addr, hfile⟩ := ha.serves hkind (hw.fd.1 ▸ hw.fd.2)
      exact ⟨s, addr, by rw [hw.socks, Function.update_self], by rwa [hw.fd.1]⟩
  present c hc := by
    rcases (hw.member hi.grown hg).mp hc with hc | rfl
    · obtain ⟨x, hx⟩ := Option.isSome_iff_exists.mp (hi.present c hc)
      exact Option.isSome_iff_exists.mpr ⟨x, hw.sock hx⟩
    · exact Option.isSome_iff_exists.mpr ⟨s, by rw [hw.socks, Function.update_self]⟩
  taken d hd := by
    change d ∈ t.fds at hd
    rw [hw.fds, hw.fd.1, List.mem_append, List.mem_singleton] at hd
    rcases hd with hd | rfl
    · rcases List.mem_append.mp (hi.taken d hd) with hd | hd <;> simp [hd]
    · simp
  accounts :=
    { infos := ha.infos.trans hi.accounts.infos
      gains := by
        have h0 : 0 ≤ l.draw.fd := hw.fd.1 ▸ hw.fd.2
        have hgains := hi.accounts.gains.append ha.gains
        rw [ha.kept h0, got_nonneg h0, List.append_nil] at hgains
        refine hgains.perm ?_
        rw [List.append_assoc, List.append_assoc]
        exact List.Perm.append_left _ List.perm_append_comm
      held := fun d => by
        rw [List.mem_append, hi.accounts.held, hi.owns_whole hw hg hs] }

theorem length_got : (got fd).length = if 0 ≤ fd then 1 else 0 := by
  rw [got]
  split <;> rfl

theorem inits_of_sock {a : Nat} (h0 : 0 ≤ l.draw.fd) (hs : l.draw.sock = some a) :
    l.inits = true := by
  cases l <;> simp_all [Attaching.inits, Attaching.draw]

theorem clean_of_silent (t : Tree) (h : l.asks = false) : t.Clean l := by
  cases l <;> simp_all [Attaching.asks, Tree.Clean]

theorem Answers.length {l : Opening} {t : Tree}
    (ha : Answers v F I l.attach l.attach.draw.fd efd l.trace k' lost) (hc : ¬ t.Clean l.attach) :
    (got l.attach.draw.fd ++ efd.getD [] ++ lost).length = l.leaks v t := by
  have hefd : (efd.getD []).length =
      if l.attach.inits = true ∧ Anet.exhausted l.trace = false then v.width else 0 := by
    rw [← ha.inits rfl]
    cases efd with
    | none => simp
    | some ds => simp [ha.width ds rfl]
  rw [List.length_append, List.length_append, length_got, hefd, ha.drops, Opening.leaks, if_neg hc,
    Opening.loses]

theorem Inv.fresh (hi : Inv k h held leaked)
    (ha : Answers v h.kernel.files I l l.draw.fd efd tr k' lost) : l.draw.fd ∉ h.tree.fds := by
  intro hm
  have hmem := hi.taken _ hm
  have h0 := (hi.accounts.gains.apart _ hmem).1
  have hopen := (hi.accounts.gains.files l.draw.fd).mpr (.inr hmem)
  have hnew := ha.gains.apart l.draw.fd (by simp [got_nonneg h0])
  simp [hnew.2] at hopen

theorem step_cases {l : Opening} (hs : h.step v L l = some h') : ∃ efd k' t,
    h.run v L l = some (some (l.attach.draw.fd, efd), k') ∧ h.tree.step l.attach = some t ∧
      h' = ⟨t, k', h.store l.attach efd⟩ := by
  rw [step] at hs
  split at hs
  · rename_i fd efd k' hrun
    split at hs
    · rename_i hfd
      obtain ⟨t, ht, rfl⟩ := Option.map_eq_some_iff.mp hs
      exact ⟨efd, k', t, hfd ▸ hrun, ht, rfl⟩
    · cases hs
  · cases hs

theorem step_spec {l : Opening} (hi : Inv k h held leaked) (ho : h.Offers l)
    (hs : h.step v L l = some h') : world.Obeys h.kernel l.trace ∧ ∃ held' leaked',
      Inv k h' held' leaked' ∧ leaked'.length = leaked.length + l.leaks v h.tree := by
  obtain ⟨efd, k', t, hrun, ht, rfl⟩ := step_cases hs
  have hclean : h.tree.Clean l.attach → l.leaks v h.tree = 0 := fun hc => by
    rw [Opening.leaks, if_pos hc]
  rw [run] at hrun
  cases hasks : l.attach.asks with
  | false =>
    rw [hasks, if_neg Bool.false_ne_true] at hrun
    rw [Tree.step, Tree.attempt_idle hasks] at ht
    cases ht
    split at hrun
    · rename_i htr
      cases hrun
      rw [List.isEmpty_iff] at htr
      refine ⟨by rw [htr]; trivial, held, leaked, hi.still ho.unused rfl (.refl _), ?_⟩
      rw [hclean (clean_of_silent h.tree hasks), Nat.add_zero]
    · cases hrun
  | true =>
    rw [if_pos hasks] at hrun
    obtain ⟨hobeys, hans⟩ := (code_spec hi.serving ho.bound hasks).exec hrun
    obtain ⟨lost, ha⟩ := hans _ _ rfl
    refine ⟨hobeys, ?_⟩
    have hv := Tree.attempt_spec hi.grown ⟨⟨ho.unused, hi.fresh ha⟩, ho.bound⟩
    rw [Tree.step] at ht
    generalize h.tree.attempt l.attach = x at hv ht
    cases hv with
    | still hc hidle =>
      cases ht
      obtain ⟨hkind, hneg⟩ := hidle.asks hasks
      have hefd : efd = none := by simpa [hidle.inits] using ha.inits rfl
      have hlost : lost = [] := by simpa [hkind] using ha.drops
      have hg := ha.gains
      rw [got, if_neg (by omega), hefd, hlost] at hg
      subst hefd
      refine ⟨held, leaked, hi.still ho.unused ha.infos hg, ?_⟩
      rw [hclean hc, Nat.add_zero]
    | whole hc hw hg hsock =>
      cases ht
      have hinit := ha.inits rfl
      rw [inits_of_sock (hw.fd.1 ▸ hw.fd.2) hsock] at hinit
      obtain ⟨ds, rfl⟩ := Option.isSome_iff_exists.mp hinit
      refine ⟨_, leaked, hi.whole hw hg hsock ha, ?_⟩
      rw [hclean hc, Nat.add_zero]
    | torn hc htorn hg =>
      cases ht
      refine ⟨held, _, hi.torn ho.unused htorn hg ha, ?_⟩
      rw [List.length_append, ha.length hc]
    | aborts hc => cases ht

theorem inv_init (addr : Nat) (k : Kernel) : Inv k ⟨.init addr, k, fun _ => []⟩ [] [] := by
  have hnone : ∀ a, ¬ (Tree.init addr).Member a := by
    rintro a (ha | ha)
    · have ha : Ptr.obj a ∈ ([] : List Ptr) := ha
      cases ha
    · have ha : Ptr.obj a ∈ ([] : List Ptr) := ha
      cases ha
  refine ⟨Tree.grown_init addr, fun b hb => absurd (.inl hb) (hnone b), fun a ha => ?_,
    fun d hd => hd, rfl, .refl _, fun d => ⟨fun hd => absurd hd List.not_mem_nil, ?_⟩⟩
  · exact absurd ha (hnone a)
  · rintro ⟨a, _, ha, -⟩
    exact absurd ha (hnone a)

theorem inv_run {addr : Nat} {tr : List (Host × Opening)}
    (hr : Run (step v L) ⟨.init addr, k, fun _ => []⟩ tr h) (ho : Steps Offers tr) :
    (∀ x ∈ tr, world.Obeys x.1.kernel x.2.trace) ∧ ∃ held leaked, Inv k h held leaked ∧
      leaked.length = (tr.map fun x => x.2.leaks v x.1.tree).sum := by
  induction hr with
  | nil => exact ⟨fun x hx => by simp at hx, [], [], inv_init addr k, rfl⟩
  | @snoc tr h l h' hr hs ih =>
    obtain ⟨ho, hl⟩ := steps_snoc.mp ho
    obtain ⟨hobeys, held, leaked, hi, hlen⟩ := ih ho
    obtain ⟨hobey, held', leaked', hi', hlen'⟩ := step_spec hi hl hs
    refine ⟨fun x hx => ?_, held', leaked', hi', ?_⟩
    · rcases List.mem_append.mp hx with hx | hx
      · exact hobeys x hx
      · rw [List.mem_singleton.mp hx]
        exact hobey
    · rw [hlen', hlen, List.map_append, List.sum_append, List.map_singleton, List.sum_singleton]

theorem descriptors_accounted {addr : Nat} {tr : List (Host × Opening)}
    (hr : Run (step v L) ⟨.init addr, k, fun _ => []⟩ tr h) (ho : Steps Offers tr) :
    (∀ x ∈ tr, world.Obeys x.1.kernel x.2.trace) ∧ h.Serving ∧ ∃ held leaked,
      Accounts k h held leaked ∧ leaked.length = (tr.map fun x => x.2.leaks v x.1.tree).sum := by
  obtain ⟨hobeys, held, leaked, hi, hlen⟩ := inv_run hr ho
  exact ⟨hobeys, hi.serving, held, leaked, hi.accounts, hlen⟩

def raises (d : Int) : Anet.Trace :=
  [⟨.eventfd, .ok d⟩, ⟨.getfl d, .ok Anet.O_RDWR⟩,
    ⟨.setfl d (Anet.O_RDWR ||| Anet.O_NONBLOCK), .ok ()⟩]

def listens (s : Int) : Anet.Trace :=
  [⟨.getaddrinfo none (some "80") (Anet.serverHints Anet.AF_INET), .ok ⟨0, [Anet.node 1]⟩⟩,
    ⟨.socket Anet.AF_INET Anet.SOCK_STREAM 6, .ok s⟩, ⟨.setsockopt s .reuseAddr, .ok ()⟩,
    ⟨.bind s [1], .ok ()⟩, ⟨.listen s 1024, .ok ()⟩, ⟨.freeaddrinfo 0, ()⟩]

def interrupted : Anet.Trace := [⟨.accept 5, .error Anet.EINTR⟩, ⟨.accept 5, .ok (6, [9])⟩]

def opened : List Opening :=
  [⟨.bind ⟨some 1, 5, none, Tree.grant⟩, none, 80, raises 10 ++ listens 5⟩,
    ⟨.accept 1 ⟨some 2, 6, Tree.grant, Tree.grant⟩, none, 0, interrupted ++ raises 11⟩,
    ⟨.connect ⟨some 3, 3, none, none⟩, some "host", 80, raises 12 ++ Anet.redialed⟩,
    ⟨.bind ⟨some 4, -1, none, none⟩, none, 80, raises 13 ++ Anet.unshared 8⟩,
    ⟨.accept 1 ⟨none, 7, none, none⟩, none, 0, [⟨.accept 5, .ok (7, [9])⟩]⟩]

def started : Host := ⟨.init 0, Anet.bare, fun _ => []⟩

-- descriptors 8 and 13 of the failed bind and 7 of the connection without memory
theorem descriptors_accounted_opened : ∃ h, Run (step .eventfd Anet.libc) started
    (trace (step .eventfd Anet.libc) started opened) h ∧ h.Serving ∧ ∃ held leaked,
      Accounts Anet.bare h held leaked ∧ leaked.length = 3 := by
  have hr : Run (step .eventfd Anet.libc) started _ _ := run_final (k := opened) rfl
  obtain ⟨-, hserve, held, leaked, ha, hlen⟩ := descriptors_accounted hr (by decide)
  exact ⟨_, hr, hserve, held, leaked, ha, hlen⟩

end Host

end Fsock
