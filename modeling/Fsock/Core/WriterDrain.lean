import Fsock.Lib.Progress
import Fsock.Core.ChannelOrder
import Fsock.Core.SendIdle

namespace Fsock

open Transition

variable {ρ : Type} {F : Framer ρ}

namespace Framer

def Partial (F : Framer ρ) (h : Items) (ol : OutList ρ) : Prop :=
  ∀ a, ol.list.first = some a → F.progress ol < (h.bytes a).length

def Offers (F : Framer ρ) : Prop := ∀ h ol n xs, Holds h ol.list xs → F.Partial h ol → xs ≠ [] →
  0 < n → (F.getIovs h ol n).flatten ≠ []

variable {h h' : Items} {ol : OutList ρ} {xs : List Addr} {n : Nat}

theorem partial_init (hF : F.Lawful) : F.Partial h F.init := by
  intro a ha
  rw [hF.init_first] at ha
  cases ha

theorem Partial.congr (hp : F.Partial h ol) (hh : Holds h ol.list xs)
    (hc : ∀ a ∈ xs, h' a = h a) : F.Partial h' ol := by
  intro a ha
  cases xs with
  | nil =>
    rw [hh.first_none.mpr rfl] at ha
    cases ha
  | cons b xs =>
    obtain rfl : b = a := Option.some_inj.mp (hh.forward.1.symm.trans ha)
    rw [Items.bytes, Items.frame, hc b (by simp)]
    exact hp b ha

theorem Partial.insert (hF : F.Lawful) (hp : F.Partial h ol) (hk : F.Keeps h ol xs) {li : Addr}
    {i : Item} (hn : (h li).isSome = false) {g : Items} (hg : g = Function.update h li (some i)) :
    F.Partial (F.insert g ol li).1 (F.insert g ol li).2 := by
  have hli : li ∉ xs := fun hm => by simp [hk.holds.alive li hm] at hn
  have hother : ∀ a ∈ xs, g a = h a := by
    intro a ha
    have hne : a ≠ li := fun he => hli (he ▸ ha)
    rw [hg, Function.update_of_ne hne]
  have hh := (hk.congr hother).holds
  have hsome : (g li).isSome := by simp [hg]
  have hholds := hF.insert_holds g ol li xs hh hsome hli
  have hbytes : ∀ a, (F.insert g ol li).1.bytes a = g.bytes a := by
    intro a
    rw [Items.bytes, hF.insert_frame g ol li xs hh hsome hli, Items.bytes]
  intro a ha
  rw [hF.insert_progress g ol li xs hh hsome hli, hbytes]
  cases xs with
  | nil =>
    obtain rfl : li = a := Option.some_inj.mp (hholds.forward.1.symm.trans ha)
    have hpos : 0 < (g.bytes li).length := by
      rw [hg, bytes_update]
      exact List.length_pos_iff.mpr i.frame.nonempty
    exact hk.progress.trans_lt hpos
  | cons b xs =>
    obtain rfl : b = a := Option.some_inj.mp (hholds.forward.1.symm.trans ha)
    exact hp.congr hk.holds hother b hh.forward.1

theorem Partial.written (hF : F.Lawful) (hk : F.Keeps h ol xs)
    (hn : n ≤ (F.unsent h ol xs).length) : F.Partial (F.written h ol n).1 (F.written h ol n).2.1 := by
  have hb : F.progress ol + n ≤ (h.wire xs).length := by
    have hle := hk.progress
    rw [unsent, List.length_drop] at hn
    omega
  obtain ⟨k, -, -, hh, hsum, hlt, hframe, -⟩ := hF.written_spec h ol n xs hk.holds hb
  intro a ha
  cases hd : xs.drop k with
  | nil =>
    rw [hd] at hh
    rw [hh.first_none.mpr rfl] at ha
    cases ha
  | cons b zs =>
    rw [hd] at hh hframe
    obtain rfl : b = a := Option.some_inj.mp (hh.forward.1.symm.trans ha)
    have hkl : k < xs.length := by
      by_contra hge
      rw [List.drop_eq_nil_iff.mpr (not_lt.mp hge)] at hd
      cases hd
    have hget : xs[k]? = some b := by rw [← List.head?_drop, hd, List.head?_cons]
    have htake : (h.wire (xs.take (k + 1))).length =
        (h.wire (xs.take k)).length + (h.bytes b).length := by
      rw [List.take_add_one, hget, wire_append, List.length_append]
      simp [Items.wire]
    have hm := hlt hkl
    rw [Items.bytes, hframe b (by simp), ← Items.bytes]
    omega

end Framer

theorem listFramer_offers : listFramer.Offers := by
  intro h ol n xs hh hp hne hn
  cases xs with
  | nil => exact absurd rfl hne
  | cons a xs =>
    have hfirst : ol.list.first = some a := hh.forward.1
    obtain ⟨n, rfl⟩ := Nat.exists_eq_succ_of_ne_zero hn.ne'
    have hlt : ol.rest < (h.bytes a).length := hp a hfirst
    have hlen : 0 < ((listFramer.getIovs h ol (n + 1)).flatten).length := by
      simp only [listFramer, ListFramer.getIovs, hfirst, ListFramer.walk, ListFramer.skip,
        List.flatten_cons, List.length_append, List.length_drop]
      omega
    exact List.length_pos_iff.mp hlen

namespace Conn

variable {c c' : Conn ρ} {xs ys : List Addr} {l : ConnLabel}

structure Partial (F : Framer ρ) (c : Conn ρ) : Prop where
  out : F.Partial c.items c.ol
  held : ∀ ol, c.pc.held = some ol → F.Partial c.items ol

theorem partial_init (hF : F.Lawful) : (Conn.init F).Partial F where
  out := Framer.partial_init hF
  held _ ho := by cases ho

theorem Partial.still (h : c.Partial F) (hi : c'.items = c.items) (ho : c'.ol = c.ol)
    (hp : c'.pc.held = c.pc.held) : c'.Partial F where
  out := by rw [hi, ho]; exact h.out
  held := by rw [hi, hp]; exact h.held

theorem partial_step (hF : F.Lawful) (hl : c.Linked F xs ys) (h : c.Partial F) (hn : NoError l)
    (hc : c.Calm l) (hs : c.step F l = some c') : c'.Partial F := by
  cases effect_of_step hs with
  | @insert li fr c' hi =>
    obtain ⟨hit, hol⟩ := Prod.mk.inj hi.lists
    obtain ⟨-, -, hother⟩ := hl.out.insert hF hi.fresh (i := ⟨none, none, fr⟩) rfl
    have hys : ∀ a ∈ ys, c'.items a = c.items a := by
      intro a hm
      have hne : a ≠ li := by
        rintro rfl
        simpa [hl.alive a hm] using hi.fresh
      rw [hit]
      exact hother a (fun hx => hl.disjoint hx hm) hne
    constructor
    · rw [hit, hol]
      exact h.out.insert hF hl.out hi.fresh rfl
    · intro ol ho
      rw [hi.pc] at ho
      exact (h.held ol ho).congr (hl.held ol ho).1.holds hys
  | startWrite | zombie | skip => exact h.still rfl rfl rfl
  | steal hp he =>
    refine ⟨Framer.partial_init hF, fun ol ho => ?_⟩
    cases ho
    exact h.out
  | @wrote removed n ol hp hpos hle =>
    obtain ⟨hheld, -⟩ := hl.held ol (by rw [hp]; rfl)
    obtain ⟨rest, hpre⟩ := hF.getIovs_prefix c.items ol 128 ys hheld.holds
    have hlen : n ≤ (F.unsent c.items ol ys).length := by
      rw [Framer.unsent, ← hpre, List.length_append]
      omega
    obtain ⟨-, -, -, -, -, hother⟩ := hheld.written hF hlen
    refine ⟨h.out.congr hl.out.holds fun a ha => hother a fun hy => hl.disjoint ha hy, ?_⟩
    intro ol' ho
    rw [WritePc.held_remain] at ho
    split at ho <;> cases ho
    exact Framer.Partial.written hF hheld hlen
  | failed => exact absurd rfl hn
  | @merge removed ol hp =>
    have hglue : glue c.items ol.list c.ol.list = c.items := if_pos (hc rfl)
    refine ⟨?_, by simp⟩
    rw [hglue]
    exact h.held ol (by rw [hp]; rfl)
  | @settle _ _ wake hp => exact h.still rfl rfl (by cases wake <;> simp [hp])
  | enter hp | sent hp | bare hp | wouldBlock hp | broadcast hp | stopWatcher hp | clearWriting hp =>
    exact h.still rfl rfl (by simp [hp])

structure Writes (F : Framer ρ) (c : Conn ρ) : Prop where
  linked : ∃ xs ys, c.Linked F xs ys
  whole : c.Partial F
  phase : c.Phase
  alive : c.zombie = false

theorem writes_init (hF : F.Lawful) : (Conn.init F).Writes F :=
  ⟨⟨[], [], linked_init hF⟩, partial_init hF, phase_init hF.init_first, rfl⟩

theorem Writes.step (hF : F.Lawful) (h : c.Writes F) (hl : Healthy l) (ht : c.Timely l)
    (hc : c.Calm l) (hs : c.step F l = some c') : c'.Writes F := by
  obtain ⟨xs, ys, hlink⟩ := h.linked
  obtain ⟨xs', ys', hlink', -⟩ := follows_step hF hlink hl.1 hc hs
  exact ⟨⟨xs', ys', hlink'⟩, partial_step hF hlink h.whole hl.1 hc hs, phase_step h.phase hl ht hs,
    (zombie_step hl.2 hs).trans h.alive⟩

def Works (c : Conn ρ) : ConnLabel → Prop
  | .insert _ _ => False
  | .zombie => False
  | .writev .wouldBlock => False
  | .writev .failed => False
  | .merge => c.ol.list.empty = true
  | _ => True

structure Drained (c : Conn ρ) : Prop where
  pc : c.pc = .idle
  wio : c.wio = false
  writing : c.writing = false
  queued : c.queued = false
  empty : c.ol.list.empty = true
  kernel : c.kernel = c.wanted

def toil (c : Conn ρ) : Nat :=
  match c.pc with
  | .idle => if c.queued then 10 else if c.wio then 9 else 0
  | .merge _ _ => 10
  | .top _ => 8
  | .inner _ _ => 7
  | .settle _ _ => 5
  | .broadcast _ => 4
  | .stop => 3
  | .clear => 2

def backlog (c : Conn ρ) : Nat := 2 * (c.wanted.length - c.kernel.length) + c.toil

structure Draining (F : Framer ρ) (c : Conn ρ) : Prop where
  linked : ∃ xs ys, c.Linked F xs ys
  whole : c.Partial F
  phase : c.Phase
  alive : c.zombie = false
  merging : ∀ r ol, c.pc = .merge r ol → c.ol.list.empty = true

theorem toil_le (c : Conn ρ) : c.toil ≤ 10 := by
  unfold toil
  split <;> first | omega | (split <;> first | omega | (split <;> omega))

theorem toil_remain (c : Conn ρ) (r : Nat) (ol : OutList ρ) (items : Items) (k : List UInt8) :
    toil { c with items := items, kernel := k, pc := remain r ol } ≤ 8 := by
  simp only [remain]
  split <;> simp [toil]

theorem works_healthy (h : c.Works l) : Healthy l ∧ c.Timely l ∧ c.Calm l := by
  cases l with
  | insert => exact h.elim
  | zombie => exact h.elim
  | merge => exact ⟨⟨nofun, nofun⟩, nofun, fun _ => h⟩
  | writev nw =>
    cases nw with
    | wrote n => exact ⟨⟨nofun, nofun⟩, nofun, nofun⟩
    | wouldBlock => exact h.elim
    | failed => exact h.elim
  | _ => exact ⟨⟨nofun, nofun⟩, nofun, nofun⟩

theorem Draining.step (hF : F.Lawful) (h : c.Draining F) (hw : c.Works l)
    (hs : c.step F l = some c') : c'.Draining F := by
  obtain ⟨hl, ht, hc⟩ := works_healthy hw
  have h' := Writes.step hF ⟨h.linked, h.whole, h.phase, h.alive⟩ hl ht hc hs
  refine ⟨h'.linked, h'.whole, h'.phase, h'.alive, fun r ol hp => ?_⟩
  cases effect_of_step hs with
  | insert | zombie | wouldBlock | failed => exact hw.elim
  | startWrite hi | skip hi => rw [hi] at hp; cases hp
  | @wrote removed n ol hi =>
    simp only [remain] at hp
    split at hp <;> cases hp
  | @merge removed ol hi =>
    simp only [resume] at hp
    split at hp <;> cases hp
  | @settle _ mustStop wake =>
    cases wake <;> cases mustStop <;> cases hp
  | @broadcast mustStop => cases mustStop <;> cases hp
  | enter | sent | bare | steal | stopWatcher | clearWriting => cases hp

theorem held_room (hF : F.Lawful) (h : c.Linked F xs ys) {removed n : Nat} {ol : OutList ρ}
    (hp : c.pc = .inner removed ol) (hle : n ≤ (F.getIovs c.items ol 128).flatten.length) :
    c.kernel.length + n ≤ c.wanted.length := by
  obtain ⟨hheld, -⟩ := h.held ol (by rw [hp]; rfl)
  obtain ⟨rest, hpre⟩ := hF.getIovs_prefix c.items ol 128 ys hheld.holds
  have horder := congrArg List.length h.order
  have hu := congrArg List.length hpre
  simp only [heldBytes, hp, WritePc.held, Option.elim, List.length_append, Framer.unsent]
    at horder hu
  omega

theorem Draining.lowers (hF : F.Lawful) (h : c.Draining F) (hw : c.Works l)
    (hs : c.step F l = some c') : c'.backlog < c.backlog := by
  have hph := h.phase
  have hsame : ∀ {d : Conn ρ}, d.wanted = c.wanted → d.kernel = c.kernel → d.toil < c.toil →
      d.backlog < c.backlog := by
    intro d hwant hk hlt
    simp only [backlog, hwant, hk]
    omega
  cases effect_of_step hs with
  | insert | zombie | wouldBlock | failed => exact hw.elim
  | skip _ _ hz =>
    rw [h.alive] at hz
    cases hz
  | startWrite hp hq => exact hsame rfl rfl (by simp [toil, hp, hq])
  | enter hp hi =>
    have hq : c.queued = false := by
      cases hph with
      | watching _ hq => exact hq
      | _ => simp_all
    exact hsame rfl rfl (by simp [toil, hp, hi, hq])
  | sent hp | bare hp | steal hp | stopWatcher hp => exact hsame rfl rfl (by simp [toil, hp])
  | @wrote removed n ol hp hn hle =>
    obtain ⟨xs, ys, hl⟩ := h.linked
    have hlen := held_room hF hl hp hle
    have hrest := c.toil_remain (removed + (F.written c.items ol n).2.2)
      (F.written c.items ol n).2.1 (F.written c.items ol n).1
      (c.kernel ++ (F.getIovs c.items ol 128).flatten.take n)
    have htoil : c.toil = 7 := by rw [toil, hp]
    have hk : (c.kernel ++ (F.getIovs c.items ol 128).flatten.take n).length =
        c.kernel.length + n := by
      rw [List.length_append, List.length_take, Nat.min_eq_left hle]
    change 2 * (c.wanted.length - _) + _ < _
    rw [hk, backlog, htoil]
    omega
  | @merge removed ol hp =>
    have hi : c.wio = true ∧ c.queued = false := by
      cases hph with
      | watching _ hq hi => exact ⟨hi, hq⟩
      | _ => simp_all
    exact hsame rfl rfl (by by_cases hz : removed = 0 <;> simp [toil, hp, resume, hz, hi])
  | @settle removed mustStop wake hp =>
    obtain rfl := hph.stops (by rw [hp]; rfl) (by simp [hp]) (by simp [hp])
    exact hsame rfl rfl (by cases wake <;> simp [toil, hp, leave])
  | @broadcast mustStop hp =>
    obtain rfl := hph.stops (by rw [hp]; rfl) (by simp [hp]) (by simp [hp])
    exact hsame rfl rfl (by simp [toil, hp, leave])
  | clearWriting hp =>
    have hi : c.wio = false ∧ c.queued = false := by
      cases hph with
      | closing _ hq hi => exact ⟨hi, hq⟩
      | watching _ _ _ hr => rw [hp] at hr; cases hr
      | _ => simp_all
    exact hsame rfl rfl (by simp [toil, hp, hi])

theorem Draining.stuck (ho : F.Offers) (h : c.Draining F)
    (hs : Stuck (Conn.step F) Works c) : c.Drained := by
  obtain ⟨xs, ys, hl⟩ := h.linked
  cases h.phase with
  | asleep hw hq hi hp he =>
    exact ⟨hp, hi, hw, hq, he, hl.emptied (by rw [hp]; rfl) he⟩
  | scheduled _ hq _ hp => simpa [Conn.step, startWrite, hp, hq] using hs .startWrite trivial
  | closing _ _ _ hp => simpa [Conn.step, clearWriting, hp] using hs .clearWriting trivial
  | watching hw hq hi hr hf =>
    cases hp : c.pc with
    | idle => simpa [Conn.step, ready, hp, hi, h.alive] using hs .ready trivial
    | top removed =>
      have hnone := hs .steal trivial
      simp only [Conn.step, steal, hp] at hnone
      split at hnone
      · split at hnone <;> cases hnone
      · cases hnone
    | inner removed ol =>
      obtain ⟨hheld, hne⟩ := hl.held ol (by rw [hp]; rfl)
      have hpart := h.whole.held ol (by rw [hp]; rfl)
      have hpos := List.length_pos_iff.mpr (ho c.items ol 128 ys hheld.holds hpart hne (by decide))
      have hnone := hs (.writev (.wrote 1)) trivial
      simp only [Conn.step, writev, hp] at hnone
      rw [if_pos ⟨Nat.one_pos, hpos⟩] at hnone
      cases hnone
    | merge removed ol =>
      simpa [Conn.step, merge, hp] using hs .merge (h.merging removed ol hp)
    | settle removed mustStop => simpa [Conn.step, settle, hp] using hs (.settle false) trivial
    | broadcast mustStop => simpa [Conn.step, broadcast, hp] using hs .broadcast trivial
    | stop => simpa [Conn.step, stopWatcher, hp] using hs .stopWatcher trivial
    | clear => rw [hp] at hr; cases hr

theorem measured (hF : F.Lawful) : Measured (Conn.step F) (Draining F) Works backlog where
  keeps _ _ _ h hw hs := h.step hF hw hs
  lowers _ _ _ h hw hs := h.lowers hF hw hs

theorem draining_run (hF : F.Lawful) {tr : List (Conn ρ × ConnLabel)}
    (hr : Run (Conn.step F) (Conn.init F) tr c) (hl : Steps (fun _ l => Healthy l) tr)
    (ht : Steps Timely tr) (hc : Steps Calm tr)
    (hm : ∀ r ol, c.pc = .merge r ol → c.ol.list.empty = true) : c.Draining F := by
  have h := hr.invariant (writes_init hF)
    (fun _ _ _ h hl hs => h.step hF hl.1 hl.2.1 hl.2.2 hs) (steps_and hl (steps_and ht hc))
  exact ⟨h.linked, h.whole, h.phase, h.alive, hm⟩

theorem writer_drains (hF : F.Lawful) (ho : F.Offers) {tr : List (Conn ρ × ConnLabel)}
    (hr : Run (Conn.step F) (Conn.init F) tr c) (hl : Steps (fun _ l => Healthy l) tr)
    (ht : Steps Timely tr) (hc : Steps Calm tr)
    (hm : ∀ r ol, c.pc = .merge r ol → c.ol.list.empty = true) :
    (∃ more d, Run (Conn.step F) c more d ∧ Steps Works more ∧ d.Drained) ∧
      ∀ more d, Run (Conn.step F) c more d → Steps Works more →
        more.length ≤ 2 * (c.wanted.length - c.kernel.length) + 10 ∧
          (Stuck (Conn.step F) Works d → d.Drained) := by
  have h := draining_run hF hr hl ht hc hm
  refine ⟨(measured hF).ends (fun _ hd => hd.stuck ho) h, fun more d hd hw => ⟨?_, ?_⟩⟩
  · have hle := (measured hF).length_le h hd hw
    have htoil := c.toil_le
    simp only [backlog] at hle
    omega
  · exact (hd.invariant h (fun _ _ _ h hw hs => h.step hF hw hs) hw).stuck ho

def laden : List ConnLabel :=
  [.insert 1 (letter 65), .startWrite, .ready, .steal, .insert 2 (letter 66)]

theorem writer_drains_laden :
    (∃ more d, Run (Conn.step listFramer)
        (final (Conn.step listFramer) (Conn.init listFramer) laden) more d ∧
      Steps Works more ∧ d.Drained) ∧
      ∀ more d, Run (Conn.step listFramer)
          (final (Conn.step listFramer) (Conn.init listFramer) laden) more d → Steps Works more →
        more.length ≤ 14 ∧ (Stuck (Conn.step listFramer) Works d → d.Drained) :=
  writer_drains listFramer_lawful listFramer_offers (run_final (k := laden) rfl) (by decide)
    (by decide) (by decide) fun _ _ hp => by cases hp

end Conn

end Fsock
