import Fsock.Core.ListFramer

namespace Fsock

open Segment

structure Chain (h : Items) (p : Option Addr) (xs : List Addr) : Prop where
  nodup : xs.Nodup
  alive : ∀ a ∈ xs, (h a).isSome
  forward : Seg some h.next p xs none

structure Framer.Walks {ρ : Type} (F : Framer ρ) : Prop where
  init_first : F.init.list.first = none
  init_last : F.init.list.last = none
  init_progress : F.progress F.init = 0
  insert_chain : ∀ h l a pre post, Chain h l.list.first (pre ++ post) →
    l.list.last = pre.getLast? → (pre = [] → post = []) → (h a).isSome → a ∉ pre ++ post →
      Chain (F.insert h l a).1 (F.insert h l a).2.list.first (pre ++ [a]) ∧
      (F.insert h l a).2.list.last = some a ∧ F.progress (F.insert h l a).2 = F.progress l ∧
      (F.insert h l a).1.frame = h.frame ∧ ∀ c, c ∉ pre → c ≠ a → (F.insert h l a).1 c = h c
  getIovs_prefix : ∀ h l n xs, Chain h l.list.first xs →
    (F.getIovs h l n).flatten <+: (h.wire xs).drop (F.progress l)
  written_chain : ∀ h l n xs, Chain h l.list.first xs → F.progress l + n ≤ (h.wire xs).length →
    ∃ k ≤ xs.length, (F.written h l n).2.2 = k ∧
      Chain (F.written h l n).1 (F.written h l n).2.1.list.first (xs.drop k) ∧
      (h.wire (xs.take k)).length + F.progress (F.written h l n).2.1 = F.progress l + n ∧
      (k < xs.length → F.progress l + n < (h.wire (xs.take (k + 1))).length) ∧
      (k = 0 → xs ≠ [] → (F.written h l n).2.1.list.last = l.list.last) ∧
      (∀ c ∈ xs.drop k, (F.written h l n).1.frame c = h.frame c) ∧
      ∀ c, c ∉ xs → (F.written h l n).1 c = h c

structure Framer.Spans {ρ : Type} (F : Framer ρ) (h : Items) (ol : OutList ρ)
    (xs : List Addr) : Prop where
  chain : Chain h ol.list.first xs
  progress : F.progress ol ≤ (h.wire (xs.take 1)).length

def Anchored (l : FrmList) (xs : List Addr) : Prop :=
  ∃ pre post, xs = pre ++ post ∧ l.last = pre.getLast? ∧ (pre = [] → post = [])

def Framer.backlog {ρ : Type} (F : Framer ρ) (h : Items) (ol : OutList ρ) (xs : List Addr) : Nat :=
  (h.wire xs).length - F.progress ol

section

variable {h h' : Items} {p : Option Addr} {xs ys : List Addr} {a : Addr}

theorem chain_nil : Chain h none [] := ⟨.nil, by simp, rfl⟩

theorem Chain.congr (hc : Chain h p xs) (hs : ∀ a ∈ xs, h' a = h a) : Chain h' p xs where
  nodup := hc.nodup
  alive := fun a ha => hs a ha ▸ hc.alive a ha
  forward := (seg_congr fun a ha => by rw [Items.next, Items.next, hs a ha]).mpr hc.forward

theorem Chain.empty_iff (hc : Chain h p xs) : p = none ↔ xs = [] := by
  cases xs with
  | nil => simpa using hc.forward
  | cons a xs => simp [hc.forward.1]

theorem Chain.setPrev (hc : Chain h p xs) (a : Addr) (q : Option Addr) :
    Chain (h.setPrev a q) p xs where
  nodup := hc.nodup
  alive := by simpa using hc.alive
  forward := by rw [Items.next_setPrev]; exact hc.forward

theorem Chain.drop (hc : Chain h p (ys ++ xs)) : ∃ q, Chain h q xs := by
  obtain ⟨q, -, hq⟩ := seg_append.mp hc.forward
  exact ⟨q, (List.nodup_append.mp hc.nodup).2.1, fun b hb => hc.alive b (by simp [hb]), hq⟩

theorem Chain.relink {t : Addr} {q : Option Addr} {zs : List Addr}
    (hc : Chain h p (ys ++ [t] ++ xs)) (hq : Chain h q zs)
    (hd : (ys ++ [t]).Disjoint zs) : Chain (h.setNext t q) p (ys ++ [t] ++ zs) := by
  obtain ⟨hn, -, -⟩ := List.nodup_append.mp hc.nodup
  have ht : (h t).isSome := hc.alive t (by simp)
  obtain ⟨r, hseg, -⟩ := seg_append.mp hc.forward
  constructor
  · exact List.nodup_append.mpr ⟨hn, hq.nodup, fun a ha b hb he => hd ha (he ▸ hb)⟩
  · intro b hb
    rw [Items.isSome_setNext]
    rcases List.mem_append.mp hb with hb | hb
    · exact hc.alive b (List.mem_append_left _ hb)
    · exact hq.alive b hb
  · rw [Items.next_setNext _ ht, seg_append]
    exact ⟨q, seg_link hn hseg, (seg_update fun hm => hd (by simp) hm).mpr hq.forward⟩

end

namespace Framer

variable {ρ : Type} {F : Framer ρ} {h h' : Items} {ol : OutList ρ} {xs : List Addr}

theorem wire_take_le (h : Items) (k : Nat) : (h.wire (xs.take k)).length ≤ (h.wire xs).length := by
  conv_rhs => rw [← List.take_append_drop k xs, wire_append, List.length_append]
  exact Nat.le_add_right ..

theorem wire_split (h : Items) (xs : List Addr) (k : Nat) :
    (h.wire (xs.take k)).length + (h.wire (xs.drop k)).length = (h.wire xs).length := by
  rw [← List.length_append, ← wire_append, List.take_append_drop]

theorem Spans.le (hs : F.Spans h ol xs) : F.progress ol ≤ (h.wire xs).length :=
  hs.progress.trans (wire_take_le h 1)

theorem spans_init (hF : F.Walks) : F.Spans h F.init [] where
  chain := hF.init_first ▸ chain_nil
  progress := by rw [hF.init_progress]; exact Nat.zero_le _

theorem anchored_init (hF : F.Walks) : Anchored F.init.list [] :=
  ⟨[], [], rfl, hF.init_last, fun _ => rfl⟩

theorem Spans.congr (hs : F.Spans h ol xs) (hc : ∀ a ∈ xs, h' a = h a) : F.Spans h' ol xs where
  chain := hs.chain.congr hc
  progress := by
    rw [wire_of_eq fun a ha => hc a (List.mem_of_mem_take ha)]
    exact hs.progress

theorem backlog_congr (hc : ∀ a ∈ xs, h' a = h a) : F.backlog h' ol xs = F.backlog h ol xs := by
  rw [backlog, backlog, wire_of_eq hc]

theorem backlog_nil : F.backlog h ol [] = 0 := Nat.zero_sub _

theorem Spans.empty_eq (hs : F.Spans h ol xs) : ol.list.empty = true ↔ xs = [] := by
  rw [FrmList.empty, Option.isNone_iff_eq_none, hs.chain.empty_iff]

theorem Spans.insert (hF : F.Walks) {li : Addr} {i : Item} (hs : F.Spans h ol xs)
    (ha : Anchored ol.list xs) (hn : (h li).isSome = false) {g : Items}
    (hg : g = Function.update h li (some i)) :
    ∃ zs, F.Spans (F.insert g ol li).1 (F.insert g ol li).2 zs ∧
      Anchored (F.insert g ol li).2.list zs ∧ zs ≠ [] ∧ (∀ b ∈ zs, b ∈ xs ∨ b = li) ∧
      F.progress (F.insert g ol li).2 = F.progress ol ∧
      F.backlog (F.insert g ol li).1 (F.insert g ol li).2 zs
        ≤ F.backlog h ol xs + i.frame.bytes.length ∧
      ∀ b, b ∉ xs → b ≠ li → (F.insert g ol li).1 b = h b := by
  obtain ⟨pre, post, rfl, hlast, hempty⟩ := ha
  have hli : li ∉ pre ++ post := fun hm => by simp [hs.chain.alive li hm] at hn
  have hother : ∀ a ∈ pre ++ post, g a = h a := by
    intro a ha
    have hne : a ≠ li := fun he => hli (he ▸ ha)
    rw [hg, Function.update_of_ne hne]
  have hsome : (g li).isSome := by simp [hg]
  obtain ⟨hchain, hl, hprog, hframe, hout⟩ :=
    hF.insert_chain g ol li pre post (hs.congr hother).chain hlast hempty hsome hli
  have hpre : ∀ a ∈ pre, g a = h a := fun a ha => hother a (List.mem_append_left _ ha)
  have hwire : ∀ zs, (F.insert g ol li).1.wire zs = g.wire zs := fun zs =>
    wire_congr fun a _ => congrFun hframe a
  have hone : (g.wire [li]).length = i.frame.bytes.length := by
    simp [Items.wire, hg, bytes_update]
  refine ⟨pre ++ [li], ⟨hchain, ?_⟩, ⟨pre ++ [li], [], by simp, by simpa using hl, by simp⟩,
    by simp, ?_, hprog, ?_, ?_⟩
  · rw [hwire, hprog]
    cases pre with
    | nil =>
      obtain rfl := hempty rfl
      have hp := hs.progress
      simp only [List.append_nil, List.take_nil, Items.wire, List.flatMap_nil, List.length_nil] at hp
      omega
    | cons a pre =>
      have hp := hs.progress
      have hw : g.wire [a] = h.wire [a] := wire_of_eq fun b hb => hpre b (by simp_all)
      simp only [List.cons_append, List.take_succ_cons, List.take_zero] at hp ⊢
      rw [hw]
      exact hp
  · intro b hb
    rcases List.mem_append.mp hb with hb | hb
    · exact .inl (List.mem_append_left _ hb)
    · exact .inr (List.mem_singleton.mp hb)
  · have hle : h.wire (pre ++ post) = h.wire pre ++ h.wire post := wire_append
    rw [backlog, backlog, hwire, hprog, wire_append, wire_of_eq hpre, hle, List.length_append,
      List.length_append, hone]
    omega
  · intro b hb hne
    rw [hout b (fun hm => hb (List.mem_append_left _ hm)) hne, hg, Function.update_of_ne hne]

theorem Spans.written (hF : F.Walks) {n : Nat} (hs : F.Spans h ol xs)
    (hn : n ≤ F.backlog h ol xs) :
    ∃ k ≤ xs.length, (F.written h ol n).2.2 = k ∧
      F.Spans (F.written h ol n).1 (F.written h ol n).2.1 (xs.drop k) ∧
      F.backlog (F.written h ol n).1 (F.written h ol n).2.1 (xs.drop k) + n = F.backlog h ol xs ∧
      (k = 0 → xs ≠ [] → (F.written h ol n).2.1.list.last = ol.list.last) ∧
      ∀ c, c ∉ xs → (F.written h ol n).1 c = h c := by
  have hle := hs.le
  have hb : F.progress ol + n ≤ (h.wire xs).length := by
    rw [backlog] at hn
    omega
  obtain ⟨k, hkl, hr, hc, hsum, hmax, hlast, hframe, hother⟩ :=
    hF.written_chain h ol n xs hs.chain hb
  have hsplit := wire_split h xs k
  have hwire : ∀ j, (F.written h ol n).1.wire ((xs.drop k).take j) = h.wire ((xs.drop k).take j) :=
    fun j => wire_congr fun a ha => hframe a (List.mem_of_mem_take ha)
  refine ⟨k, hkl, hr, ⟨hc, ?_⟩, ?_, hlast, hother⟩
  · rw [hwire]
    rcases Nat.lt_or_ge k xs.length with hlt | hge
    · have hm := hmax hlt
      rw [List.take_add, wire_append, List.length_append] at hm
      omega
    · have hz : h.wire (xs.drop k) = [] := by rw [List.drop_of_length_le hge]; rfl
      rw [hz, List.length_nil] at hsplit
      omega
  · have hd := hwire (xs.drop k).length
    rw [List.take_length] at hd
    rw [backlog, backlog, hd]
    omega

end Framer

namespace ListFramer

variable {h : Items} {l : OutList Nat} {a : Addr} {pre post xs : List Addr}

theorem insert_chain (hc : Chain h l.list.first (pre ++ post)) (hl : l.list.last = pre.getLast?)
    (hw : pre = [] → post = []) (ha : (h a).isSome) (hn : a ∉ pre ++ post) :
    Chain (insert h l a).1 (insert h l a).2.list.first (pre ++ [a]) ∧
      (insert h l a).2.list.last = some a ∧ ∀ c, c ∉ pre → c ≠ a → (insert h l a).1 c = h c := by
  have hone : Chain (h.setNext a none) (some a) [a] :=
    ⟨by simp, by simpa using ha, by simp [Items.next_setNext _ ha]⟩
  rcases List.eq_nil_or_concat pre with rfl | ⟨zs, t, rfl⟩
  · have hlast : l.list.last = none := hl
    rw [insert, hlast]
    refine ⟨hone.setPrev a none, rfl, fun c _ hne => ?_⟩
    exact (Items.setPrev_of_ne _ hne).trans (Items.setNext_of_ne _ hne)
  · rw [List.concat_eq_append] at hc hl hn ⊢
    have hlast : l.list.last = some t := by simpa using hl
    have hout : ∀ b ∈ zs ++ [t] ++ post, h.setNext a none b = h b := fun b hb =>
      Items.setNext_of_ne _ fun he => hn (he ▸ hb)
    have hd : (zs ++ [t]).Disjoint [a] := by
      simpa [List.disjoint_singleton] using fun hm => hn (List.mem_append_left _ hm)
    rw [insert, hlast]
    refine ⟨((hc.congr hout).setPrev a _).relink (hone.setPrev a _) hd, rfl, fun c hc hne => ?_⟩
    have hct : c ≠ t := by
      rintro rfl
      exact hc (by simp)
    exact (Items.setNext_of_ne _ hct).trans
      ((Items.setPrev_of_ne _ hne).trans (Items.setNext_of_ne _ hne))

theorem written_chain {n : Nat} (hc : Chain h l.list.first xs)
    (hn : l.rest + n ≤ (h.wire xs).length) :
    ∃ k ≤ xs.length, (written h l n).2.2 = k ∧
      Chain (written h l n).1 (written h l n).2.1.list.first (xs.drop k) ∧
      (h.wire (xs.take k)).length + (written h l n).2.1.rest = l.rest + n ∧
      (k < xs.length → l.rest + n < (h.wire (xs.take (k + 1))).length) ∧
      (k = 0 → xs ≠ [] → (written h l n).2.1.list.last = l.list.last) ∧
      (∀ c ∈ xs.drop k, (written h l n).1.frame c = h.frame c) ∧
      ∀ c, c ∉ xs → (written h l n).1 c = h c := by
  obtain ⟨g, r, k, hk, heq, hsum, hmax, hkeep, hout⟩ :=
    release_spec hc.forward hc.nodup hc.alive (Nat.lt_succ_self _) hn
  have hsplit := List.take_append_drop k xs
  refine ⟨k, hk, ?_⟩
  cases hd : xs.drop k with
  | nil =>
    rw [hd] at heq
    rw [written, heq]
    refine ⟨rfl, chain_nil, hsum, hmax, ?_, by simp, hout⟩
    rintro rfl hne
    exact absurd hd hne
  | cons a ys =>
    rw [hd] at heq hkeep hsplit
    rw [written, heq]
    rw [← hsplit] at hc
    obtain ⟨q, hq⟩ := hc.drop
    obtain rfl : q = some a := hq.forward.1
    simp only [List.head?_cons]
    refine ⟨trivial, (hq.congr hkeep).setPrev a none, hsum, hmax, fun _ _ => trivial, ?_, ?_⟩
    · intro c hc
      rw [Items.frame_setPrev, Items.frame, Items.frame, hkeep c hc]
    · intro c hm
      have hne : c ≠ a := by
        rintro rfl
        exact hm (hsplit ▸ by simp)
      rw [Items.setPrev_of_ne _ hne, hout c hm]

end ListFramer

theorem listFramer_walks : listFramer.Walks where
  init_first := rfl
  init_last := rfl
  init_progress := rfl
  insert_chain h l a pre post hc hl hw ha hn := by
    obtain ⟨hchain, hlast, hout⟩ := ListFramer.insert_chain hc hl hw ha hn
    exact ⟨hchain, hlast, ListFramer.insert_rest, ListFramer.insert_frame, hout⟩
  getIovs_prefix _ l n _ hc := by
    have hp := (ListFramer.walk_prefix hc.forward n).drop l.rest
    rwa [← ListFramer.skip_flatten] at hp
  written_chain _ _ _ _ hc hn := ListFramer.written_chain hc hn

end Fsock
