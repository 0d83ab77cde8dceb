import Fsock.Core.WriterStep

namespace Fsock

open Segment

variable {ρ : Type} {F : Framer ρ}

namespace WritePc

def held : WritePc ρ → Option (OutList ρ)
  | .inner _ ol => some ol
  | .merge _ ol => some ol
  | _ => none

def removed : WritePc ρ → Nat
  | .top removed => removed
  | .inner removed _ => removed
  | .merge removed _ => removed
  | .settle removed _ => removed
  | _ => 0

@[simp] theorem held_bare : (idle : WritePc ρ).held = none ∧ (stop : WritePc ρ).held = none ∧
    (clear : WritePc ρ).held = none ∧ (∀ r, (top r : WritePc ρ).held = none) ∧
    (∀ r m, (settle r m : WritePc ρ).held = none) ∧ ∀ m, (broadcast m : WritePc ρ).held = none :=
  ⟨rfl, rfl, rfl, fun _ => rfl, fun _ _ => rfl, fun _ => rfl⟩

@[simp] theorem held_some (r : Nat) (ol : OutList ρ) :
    (inner r ol).held = some ol ∧ (merge r ol).held = some ol := ⟨rfl, rfl⟩

@[simp] theorem removed_zero : (idle : WritePc ρ).removed = 0 ∧ (stop : WritePc ρ).removed = 0 ∧
    (clear : WritePc ρ).removed = 0 ∧ ∀ m, (broadcast m : WritePc ρ).removed = 0 :=
  ⟨rfl, rfl, rfl, fun _ => rfl⟩

@[simp] theorem removed_self (r : Nat) : (top r : WritePc ρ).removed = r ∧
    (∀ ol : OutList ρ, (inner r ol).removed = r) ∧
    (∀ ol : OutList ρ, (merge r ol).removed = r) ∧
    ∀ m, (settle r m : WritePc ρ).removed = r :=
  ⟨rfl, fun _ => rfl, fun _ => rfl, fun _ => rfl⟩

@[simp] theorem held_leave (mustStop : Bool) : (Conn.leave mustStop : WritePc ρ).held = none := by
  cases mustStop <;> rfl

@[simp] theorem removed_leave (mustStop : Bool) : (Conn.leave mustStop : WritePc ρ).removed = 0 := by
  cases mustStop <;> rfl

@[simp] theorem held_resume (removed : Nat) : (Conn.resume removed : WritePc ρ).held = none := by
  simp only [Conn.resume]
  split <;> rfl

@[simp] theorem removed_resume (removed : Nat) :
    (Conn.resume removed : WritePc ρ).removed = removed := by
  simp only [Conn.resume]
  split
  · rename_i h
    exact h.symm
  · rfl

theorem held_remain (removed : Nat) (ol : OutList ρ) :
    (Conn.remain removed ol).held = if ol.list.empty then none else some ol := by
  simp only [Conn.remain]
  split <;> rfl

@[simp] theorem removed_remain (removed : Nat) (ol : OutList ρ) :
    (Conn.remain removed ol).removed = removed := by
  simp only [Conn.remain]
  split <;> rfl

end WritePc

def Framer.unsent (F : Framer ρ) (h : Items) (ol : OutList ρ) (xs : List Addr) : List UInt8 :=
  (h.wire xs).drop (F.progress ol)

structure Framer.Keeps (F : Framer ρ) (h : Items) (ol : OutList ρ) (xs : List Addr) : Prop where
  holds : Holds h ol.list xs
  progress : F.progress ol ≤ (h.wire xs).length

namespace Conn

def heldBytes (F : Framer ρ) (c : Conn ρ) (ys : List Addr) : List UInt8 :=
  c.pc.held.elim [] fun ol => F.unsent c.items ol ys

def wanted (c : Conn ρ) : List UInt8 := c.accepted.flatMap Frame.bytes

def Ordered (F : Framer ρ) (c : Conn ρ) : Prop := ∃ xs ys,
  Seg some c.items.next c.ol.list.first xs none ∧
  (∀ ol, c.pc.held = some ol → Seg some c.items.next ol.list.first ys none) ∧
  c.kernel ++ c.heldBytes F ys ++ F.unsent c.items c.ol xs = c.wanted ∧
  c.ol.list.last = xs.getLast?

structure Linked (F : Framer ρ) (c : Conn ρ) (xs ys : List Addr) : Prop where
  out : F.Keeps c.items c.ol xs
  held : ∀ ol, c.pc.held = some ol → F.Keeps c.items ol ys ∧ ys ≠ []
  bare : c.pc.held = none → ys = []
  disjoint : xs.Disjoint ys
  order : c.kernel ++ c.heldBytes F ys ++ F.unsent c.items c.ol xs = c.wanted

abbrev NoError (l : ConnLabel) : Prop := l ≠ .writev .failed

abbrev Calm (c : Conn ρ) (l : ConnLabel) : Prop := l = .merge → c.ol.list.empty = true

def load (c : Conn ρ) (xs ys : List Addr) : Nat := xs.length + ys.length + c.pc.removed

def gain : ConnLabel → Nat
  | .insert _ _ => 1
  | _ => 0

def loss (c : Conn ρ) : ConnLabel → Nat
  | .settle _ => c.pc.removed
  | _ => 0

theorem Linked.ordered {c : Conn ρ} {xs ys : List Addr} (h : c.Linked F xs ys) : c.Ordered F :=
  ⟨xs, ys, h.out.holds.forward, fun ol ho => (h.held ol ho).1.holds.forward, h.order,
    h.out.holds.last⟩

end Conn

namespace Framer

variable {h h' : Items} {ol : OutList ρ} {xs ys : List Addr}

theorem init_list (hF : F.Lawful) : F.init.list = ⟨none, none⟩ := by
  have hfirst := hF.init_first
  have hlast := hF.init_last
  cases hl : F.init.list with
  | mk first last =>
    rw [hl] at hfirst hlast
    rw [show first = none from hfirst, show last = none from hlast]

theorem keeps_init (hF : F.Lawful) : F.Keeps h F.init [] where
  holds := init_list hF ▸ holds_nil
  progress := by rw [hF.init_progress]; exact Nat.zero_le _

theorem Keeps.congr (hk : F.Keeps h ol xs) (hc : ∀ a ∈ xs, h' a = h a) : F.Keeps h' ol xs where
  holds := hk.holds.congr hc
  progress := by rw [wire_of_eq hc]; exact hk.progress

theorem unsent_congr (hc : ∀ a ∈ xs, h' a = h a) : F.unsent h' ol xs = F.unsent h ol xs := by
  rw [unsent, unsent, wire_of_eq hc]

theorem unsent_nil : F.unsent h ol [] = [] := List.drop_nil

theorem Keeps.insert (hF : F.Lawful) {li : Addr} {i : Item} (hk : F.Keeps h ol xs)
    (hn : (h li).isSome = false) {g : Items} (hg : g = Function.update h li (some i)) :
    F.Keeps (F.insert g ol li).1 (F.insert g ol li).2 (xs ++ [li]) ∧
      F.unsent (F.insert g ol li).1 (F.insert g ol li).2 (xs ++ [li])
        = F.unsent h ol xs ++ i.frame.bytes ∧
      ∀ c, c ∉ xs → c ≠ li → (F.insert g ol li).1 c = h c := by
  have hli : li ∉ xs := fun hm => by simp [hk.holds.alive li hm] at hn
  have hother : ∀ a ∈ xs, g a = h a := by
    intro a ha
    have hne : a ≠ li := fun he => hli (he ▸ ha)
    rw [hg, Function.update_of_ne hne]
  have hh := (hk.congr hother).holds
  have hsome : (g li).isSome := by simp [hg]
  have hprog := hF.insert_progress g ol li xs hh hsome hli
  have hwire : (F.insert g ol li).1.wire (xs ++ [li]) = h.wire xs ++ i.frame.bytes := by
    have hframe := hF.insert_frame g ol li xs hh hsome hli
    have hone : g.wire [li] = i.frame.bytes := by simp [Items.wire, hg, bytes_update]
    rw [wire_congr fun a _ => congrFun hframe a, wire_append, wire_of_eq hother, hone]
  have hle := hk.progress
  refine ⟨⟨hF.insert_holds g ol li xs hh hsome hli, ?_⟩, ?_, ?_⟩
  · rw [hwire, hprog, List.length_append]
    omega
  · rw [unsent, hwire, hprog, List.drop_append_of_le_length hle, unsent]
  · intro c hc hcl
    rw [hF.insert_other g ol li xs hh hsome hli c hc hcl, hg, Function.update_of_ne hcl]

theorem Keeps.written (hF : F.Lawful) {n : Nat} (hk : F.Keeps h ol xs)
    (hn : n ≤ (F.unsent h ol xs).length) :
    ∃ k ≤ xs.length, (F.written h ol n).2.2 = k ∧
      F.Keeps (F.written h ol n).1 (F.written h ol n).2.1 (xs.drop k) ∧
      F.unsent (F.written h ol n).1 (F.written h ol n).2.1 (xs.drop k)
        = (F.unsent h ol xs).drop n ∧
      ∀ c, c ∉ xs → (F.written h ol n).1 c = h c := by
  have hle := hk.progress
  have hb : F.progress ol + n ≤ (h.wire xs).length := by
    rw [unsent, List.length_drop] at hn
    omega
  obtain ⟨k, hkl, hr, hh, hsum, -, hframe, hother⟩ := hF.written_spec h ol n xs hk.holds hb
  have hwire : (F.written h ol n).1.wire (xs.drop k) = h.wire (xs.drop k) := wire_congr hframe
  have hsplit : h.wire (xs.take k) ++ h.wire (xs.drop k) = h.wire xs := by
    rw [← wire_append, List.take_append_drop]
  have hlen := congrArg List.length hsplit
  rw [List.length_append] at hlen
  refine ⟨k, hkl, hr, ⟨hh, ?_⟩, ?_, hother⟩
  · rw [hwire]
    omega
  · calc F.unsent (F.written h ol n).1 (F.written h ol n).2.1 (xs.drop k)
        = (h.wire (xs.drop k)).drop (F.progress (F.written h ol n).2.1) := by rw [unsent, hwire]
      _ = (h.wire (xs.take k) ++ h.wire (xs.drop k)).drop
            ((h.wire (xs.take k)).length + F.progress (F.written h ol n).2.1) := by
          rw [List.drop_length_add_append]
      _ = (F.unsent h ol xs).drop n := by rw [hsplit, hsum, unsent, List.drop_drop]

end Framer

namespace Conn

variable {c c' : Conn ρ} {xs ys : List Addr} {l : ConnLabel}

def Follows (F : Framer ρ) (c c' : Conn ρ) (xs ys : List Addr) (l : ConnLabel) : Prop :=
  ∃ xs' ys', c'.Linked F xs' ys' ∧ c'.load xs' ys' + c.loss l = c.load xs ys + gain l ∧
    xs'.length + ys'.length ≤ xs.length + ys.length + gain l

theorem linked_init (hF : F.Lawful) : (Conn.init F).Linked F [] [] where
  out := Framer.keeps_init hF
  held _ ho := by cases ho
  bare _ := rfl
  disjoint := by simp
  order := by rw [Framer.unsent_nil]; rfl

theorem Linked.congr (h : c.Linked F xs ys) (hi : c'.items = c.items) (ho : c'.ol = c.ol)
    (hp : c'.pc.held = c.pc.held) (hk : c'.kernel = c.kernel) (ha : c'.accepted = c.accepted) :
    c'.Linked F xs ys where
  out := by rw [hi, ho]; exact h.out
  held := by rw [hi, hp]; exact h.held
  bare := by rw [hp]; exact h.bare
  disjoint := h.disjoint
  order := by
    have hw : c'.wanted = c.wanted := by rw [wanted, wanted, ha]
    have hb : c'.heldBytes F ys = c.heldBytes F ys := by rw [heldBytes, heldBytes, hp, hi]
    rw [hw, hb, hk, hi, ho]
    exact h.order

theorem Linked.alive (h : c.Linked F xs ys) : ∀ a ∈ ys, (c.items a).isSome := by
  cases hp : c.pc.held with
  | none => simp [h.bare hp]
  | some ol => exact (h.held ol hp).1.holds.alive

theorem heldBytes_congr (hi : ∀ a ∈ ys, c'.items a = c.items a) (hp : c'.pc.held = c.pc.held) :
    c'.heldBytes F ys = c.heldBytes F ys := by
  rw [heldBytes, heldBytes, hp]
  cases c.pc.held with
  | none => rfl
  | some ol => exact Framer.unsent_congr hi

theorem follows_insert (hF : F.Lawful) (h : c.Linked F xs ys) {li : Addr} {fr : Frame}
    (hins : Inserts F c li fr c') : c.Follows F c' xs ys (.insert li fr) := by
  have hn := hins.fresh
  obtain ⟨hi, ho⟩ := Prod.mk.inj hins.lists
  obtain ⟨hkeep, hunsent, hother⟩ := h.out.insert hF hn rfl
  have hheld : c'.pc.held = c.pc.held := by rw [hins.pc]
  have hys : ∀ a ∈ ys, c'.items a = c.items a := by
    intro a hm
    have hne : a ≠ li := by
      rintro rfl
      simp [h.alive a hm] at hn
    rw [hi]
    exact hother a (fun hx => h.disjoint hx hm) hne
  have hli : li ∉ ys := fun hm => by simp [h.alive li hm] at hn
  refine ⟨xs ++ [li], ys, ?_, by simp [load, loss, gain, hins.pc]; omega, by simp [gain]; omega⟩
  constructor
  · rw [hi, ho]
    exact hkeep
  · intro ol hol
    rw [hheld] at hol
    exact ⟨(h.held ol hol).1.congr hys, (h.held ol hol).2⟩
  · rw [hheld]
    exact h.bare
  · simpa [List.disjoint_append_left, hli] using h.disjoint
  · calc c'.kernel ++ c'.heldBytes F ys ++ F.unsent c'.items c'.ol (xs ++ [li])
        = c.kernel ++ c.heldBytes F ys ++ (F.unsent c.items c.ol xs ++ fr.bytes) := by
          rw [heldBytes_congr hys hheld, hins.kernel, hi, ho, hunsent]
      _ = c.wanted ++ fr.bytes := by rw [← List.append_assoc, h.order]
      _ = c'.wanted := by simp [wanted, hins.accepted]

theorem follows_steal (hF : F.Lawful) (h : c.Linked F xs ys) {removed : Nat}
    (hp : c.pc = .top removed) (he : c.ol.list.empty = false) :
    c.Follows F { c with ol := F.init, pc := .inner removed c.ol } xs ys .steal := by
  obtain rfl : ys = [] := h.bare (by rw [hp]; rfl)
  refine ⟨[], xs, ?_, by simp [load, loss, gain, hp], by simp [gain]⟩
  have horder := h.order
  constructor
  · exact Framer.keeps_init hF
  · intro ol hol
    cases hol
    exact ⟨h.out, fun hn => by simp [h.out.holds.empty_eq.mpr hn] at he⟩
  · intro hn
    cases hn
  · simp
  · simp only [heldBytes, hp, WritePc.held, Option.elim, List.append_nil] at horder
    simpa [heldBytes, WritePc.held, Framer.unsent_nil, wanted] using horder

theorem wrote_eq {n : Nat} (hs : c.writev F (.wrote n) = some c') :
    ∃ removed ol, c.pc = .inner removed ol ∧ n ≤ (F.getIovs c.items ol 128).flatten.length ∧
      c'.kernel = c.kernel ++ (F.getIovs c.items ol 128).flatten.take n ∧
      c'.items = (F.written c.items ol n).1 ∧ c'.ol = c.ol ∧ c'.accepted = c.accepted ∧
      c'.pc = remain (removed + (F.written c.items ol n).2.2) (F.written c.items ol n).2.1 := by
  cases effect_writev hs with
  | wrote hp _ hle => exact ⟨_, _, hp, hle, rfl, rfl, rfl, rfl, rfl⟩

theorem follows_wrote (hF : F.Lawful) (h : c.Linked F xs ys) {n : Nat}
    (hs : c.writev F (.wrote n) = some c') : c.Follows F c' xs ys (.writev (.wrote n)) := by
  obtain ⟨removed, ol, hpc, hle, hk, hi, ho, ha, hp⟩ := wrote_eq hs
  obtain ⟨hheld, hne⟩ := h.held ol (by rw [hpc]; rfl)
  obtain ⟨rest, hpre⟩ := hF.getIovs_prefix c.items ol 128 ys hheld.holds
  have hlen : n ≤ (F.unsent c.items ol ys).length := by
    rw [Framer.unsent, ← hpre, List.length_append]
    omega
  have htake : (F.getIovs c.items ol 128).flatten.take n = (F.unsent c.items ol ys).take n := by
    rw [Framer.unsent, ← hpre, List.take_append_of_le_length hle]
  obtain ⟨k, hkl, hrk, hkeep, hunsent, hother⟩ := hheld.written hF hlen
  have hxs : ∀ a ∈ xs, c'.items a = c.items a := by
    intro a hx
    rw [hi]
    exact hother a fun hy => h.disjoint hx hy
  have hheld' := WritePc.held_remain (removed + (F.written c.items ol n).2.2) (F.written c.items ol n).2.1
  rw [← hp] at hheld'
  rw [← hi] at hkeep hunsent
  have hempty := hkeep.holds.empty_eq
  have hbytes : c'.heldBytes F (ys.drop k) = (F.unsent c.items ol ys).drop n := by
    rw [heldBytes, hheld', ← hunsent]
    split
    · rename_i he
      rw [hempty.mp he, Framer.unsent_nil]
      rfl
    · rfl
  refine ⟨xs, ys.drop k, ?_, ?_, by simp [gain]⟩
  · constructor
    · rw [ho]
      exact h.out.congr hxs
    · intro ol' hol
      rw [hheld'] at hol
      split at hol
      · cases hol
      · rename_i he
        cases hol
        exact ⟨hkeep, fun hd => he (hempty.mpr hd)⟩
    · intro hol
      rw [hheld'] at hol
      split at hol
      · rename_i he
        exact hempty.mp he
      · cases hol
    · exact fun a hx hd => h.disjoint hx (List.mem_of_mem_drop hd)
    · have horder := h.order
      simp only [heldBytes, hpc, WritePc.held, Option.elim] at horder
      rw [hbytes, hk, htake, ho, Framer.unsent_congr hxs, List.append_assoc c.kernel,
        List.take_append_drop, horder, wanted, wanted, ha]
  · rw [load, hp, WritePc.removed_remain, hrk, load, hpc, List.length_drop]
    simp only [loss, gain, WritePc.removed]
    omega

theorem follows_merge (h : c.Linked F xs ys) (hc : c.Calm .merge) {removed : Nat}
    {ol : OutList ρ} (hp : c.pc = .merge removed ol) : c.Follows F { c with
      items := glue c.items ol.list c.ol.list
      ol := ol
      pc := resume removed } xs ys .merge := by
  obtain rfl : xs = [] := h.out.holds.empty_eq.mp (hc rfl)
  have horder := h.order
  simp only [heldBytes, hp, WritePc.held, Option.elim, Framer.unsent_nil, List.append_nil]
    at horder
  have hglue : glue c.items ol.list c.ol.list = c.items := if_pos (hc rfl)
  refine ⟨ys, [], ?_, by simp [load, loss, gain, hp], by simp [gain]⟩
  constructor
  · rw [hglue]
    exact (h.held ol (by rw [hp]; rfl)).1
  · simp
  · simp
  · simp
  · rw [hglue]
    simpa [heldBytes, wanted] using horder

theorem follows_still (h : c.Linked F xs ys) (hi : c'.items = c.items) (ho : c'.ol = c.ol)
    (hk : c'.kernel = c.kernel) (ha : c'.accepted = c.accepted) (hp : c'.pc.held = c.pc.held)
    (hl : c'.pc.removed + c.loss l = c.pc.removed + gain l) : c.Follows F c' xs ys l :=
  ⟨xs, ys, h.congr hi ho hp hk ha, by simp only [load]; omega, Nat.le_add_right ..⟩

theorem follows_step (hF : F.Lawful) (h : c.Linked F xs ys) (hn : NoError l) (hc : c.Calm l)
    (hs : c.step F l = some c') : c.Follows F c' xs ys l := by
  cases effect_of_step hs with
  | insert hi => exact follows_insert hF h hi
  | startWrite | zombie | skip => exact follows_still h rfl rfl rfl rfl rfl rfl
  | steal hp he => exact follows_steal hF h hp he
  | wrote => exact follows_wrote hF h hs
  | failed => exact absurd rfl hn
  | merge hp => exact follows_merge h hc hp
  | @settle _ _ wake hp =>
    refine follows_still h rfl rfl rfl rfl ?_ ?_
    · cases wake <;> simp [hp]
    · cases wake <;> simp [hp, loss, gain]
  | enter hp | sent hp | bare hp | wouldBlock hp | broadcast hp | stopWatcher hp | clearWriting hp =>
    exact follows_still h rfl rfl rfl rfl (by simp [hp]) (by simp [hp, loss, gain])

theorem glue_seg {h : Items} {ol list : FrmList} (hx : Holds h list xs) (hy : Holds h ol ys)
    (hd : xs.Disjoint ys) (hxs : xs ≠ []) (hys : ys ≠ []) :
    Seg some (glue h ol list).next ol.first (ys ++ xs) none := by
  rcases List.eq_nil_or_concat ys with rfl | ⟨zs, t, rfl⟩
  · exact absurd rfl hys
  · have hempty : list.empty = false := by
      rw [Bool.eq_false_iff, ne_eq, hx.empty_eq]
      exact hxs
    have hlast : ol.last = some t := by simpa using hy.last
    have ht : t ∉ xs := fun hm => hd hm (by simp)
    have hnext : (glue h ol list).next = Function.update h.next t list.first := by
      have halive := hy.alive t (by simp)
      cases hfirst : list.first with
      | none => simp [FrmList.empty, hfirst] at hempty
      | some x => simp [glue, hempty, hlast, hfirst, Items.next_setNext _ halive]
    rw [hnext, seg_append]
    rw [List.concat_eq_append] at hy ⊢
    exact ⟨list.first, seg_link hy.nodup hy.forward, (seg_update ht).mpr hx.forward⟩

theorem glue_strays {h : Items} {ol list : FrmList} (hx : Holds h list xs) (hy : Holds h ol ys)
    (hd : xs.Disjoint ys) (hxs : xs ≠ []) (hys : ys ≠ []) {zs : List Addr}
    (hz : Seg some (glue h ol list).next ol.first zs none) : ol.last ≠ zs.getLast? := by
  obtain rfl := seg_unique (Option.some_injective _) (by simp) hz (glue_seg hx hy hd hxs hys)
  intro hlast
  obtain ⟨t, ht⟩ := Option.ne_none_iff_exists'.mp (mt List.getLast?_eq_none_iff.mp hys)
  have hmem : t ∈ xs := by
    have hl : (ys ++ xs).getLast? = some t := by rw [← hlast, hy.last, ht]
    obtain ⟨u, hu⟩ := Option.ne_none_iff_exists'.mp (mt List.getLast?_eq_none_iff.mp hxs)
    rw [List.getLast?_append, hu, Option.some_or] at hl
    exact Option.some_inj.mp hl ▸ List.mem_of_getLast? hu
  exact hd hmem (List.mem_of_getLast? ht)

theorem merge_strays (h : c.Linked F xs ys) (hc : ¬ c.Calm .merge) (hs : c.merge = some c') :
    ¬ c'.Ordered F := by
  cases (show Effect F c .merge c' from effect_of_step hs) with
  | @merge removed ol hp =>
    obtain ⟨hy, hys⟩ := h.held ol (by simp [hp])
    have hxs : xs ≠ [] := fun he => hc fun _ => h.out.holds.empty_eq.mpr he
    rintro ⟨zs, ws, hz, -, -, hlast⟩
    exact glue_strays h.out.holds hy.holds h.disjoint hxs hys hz hlast

end Conn

end Fsock
