import Fsock.Lib.Run
import Fsock.Core.ListFramer
import Fsock.Core.Recv

namespace Fsock

open Transition Segment Queue

section
variable {next : Addr → Link Addr} {frames : Addr → Option Frame} {q r : Queue Addr}
  {xs ys : List Addr} {a : Addr} {fr : Frame}

theorem queueEvent_lists {next' : Addr → Link Addr} {frames' : Addr → Option Frame}
    (h : Lists next q xs) (halive : ∀ b ∈ xs, (frames b).isSome)
    (hs : queueEvent next frames q a fr = some (next', frames', r)) :
    frames a = none ∧ Lists next' r (xs ++ [a]) ∧ frames' = Function.update frames a (some fr) ∧
      ∀ b, b ∉ xs → b ≠ a → next' b = next b := by
  simp only [queueEvent] at hs
  split at hs
  case isTrue => cases hs
  case isFalse hn =>
    have hfresh : frames a = none := by simpa using hn
    have hax : a ∉ xs := fun hm => by simpa [hfresh] using halive a hm
    have hother : ∀ b, b ≠ a → Function.update next a .notInQueue b = next b := fun b hb =>
      Function.update_of_ne hb _ _
    have hlists : Lists (Function.update next a .notInQueue) q xs :=
      h.congr fun b hb => hother b fun he => hax (he ▸ hb)
    obtain ⟨next', q', hp, hq, hb⟩ := push_lists hlists (Function.update_self ..)
    simp only [hp, Option.map_some, Option.some.injEq, Prod.mk.injEq] at hs
    obtain ⟨rfl, rfl, rfl⟩ := hs
    exact ⟨hfresh, hq, rfl, fun b hbx hba => (hb b hbx hba).trans (hother b hba)⟩

theorem splice_lists (hx : Lists next q xs) (hy : Lists next r ys) (hd : xs.Disjoint ys)
    (hne : ys ≠ []) : Lists (splice next q r).1 (splice next q r).2 (xs ++ ys) ∧
      ∀ b, b ∉ xs → (splice next q r).1 b = next b := by
  rcases List.eq_nil_or_concat xs with rfl | ⟨zs, t, rfl⟩
  · have hhead : q.head = .null := hx.forward
    have htail : q.tail = .null := hx.tail
    have hs : splice next q r = (next, r) := by rw [splice, htail, hhead]
    rw [hs]
    exact ⟨hy, fun _ _ => rfl⟩
  · rw [List.concat_eq_append] at hx hd ⊢
    have htail : q.tail = .item t := by rw [hx.tail, ending_snoc]
    have ht : t ∉ ys := fun hm => hd (by simp) hm
    simp only [splice, htail]
    refine ⟨⟨?_, ?_, ?_⟩, ?_⟩
    · exact List.nodup_append.mpr ⟨hx.nodup, hy.nodup, fun b hb c hc he => hd hb (he ▸ hc)⟩
    · exact seg_append.mpr ⟨r.head, seg_link hx.nodup hx.forward, (seg_update ht).mpr hy.forward⟩
    · rw [hy.tail, ending, ending, List.getLast?_append]
      cases hl : ys.getLast? with
      | none => exact absurd (List.getLast?_eq_none_iff.mp hl) hne
      | some => rfl
    · intro b hb
      have hbt : b ≠ t := fun he => hb (by simp [he])
      exact Function.update_of_ne hbt _ _

end

namespace RecvPc

def garbage : RecvPc → Int
  | .idle => 0
  | .parsing garbage _ _ _ => garbage

def Keeps (next : Addr → Link Addr) (frames : Addr → Option Frame) : RecvPc → List Addr → Prop
  | .idle, ys => ys = []
  | .parsing garbage queue cnt batch, ys =>
    Lists next queue ys ∧ ys.map frames = batch.map some ∧ cnt = garbage + ys.length

variable {next alt : Addr → Link Addr} {frames other : Addr → Option Frame} {pc : RecvPc}
  {ys : List Addr}

theorem Keeps.congr (h : pc.Keeps next frames ys)
    (hc : ∀ b ∈ ys, alt b = next b ∧ other b = frames b) : pc.Keeps alt other ys := by
  cases pc with
  | idle => exact h
  | parsing garbage queue cnt batch =>
    obtain ⟨hl, hf, hn⟩ := h
    refine ⟨hl.congr fun b hb => (hc b hb).1, ?_, hn⟩
    rw [← hf]
    exact List.map_congr_left fun b hb => (hc b hb).2

theorem Keeps.alive (h : pc.Keeps next frames ys) : ∀ b ∈ ys, (frames b).isSome := by
  cases pc with
  | idle =>
    obtain rfl : ys = [] := h
    simp
  | parsing garbage queue cnt batch =>
    intro b hb
    have hm : frames b ∈ batch.map some := h.2.1 ▸ List.mem_map_of_mem hb
    obtain ⟨fr, -, hfr⟩ := List.mem_map.mp hm
    rw [← hfr]
    rfl

theorem Keeps.queued (h : pc.Keeps next frames ys) : ∀ b ∈ ys, next b ≠ .notInQueue := by
  cases pc with
  | idle =>
    obtain rfl : ys = [] := h
    simp
  | parsing garbage queue cnt batch => exact fun b hb => h.1.queued hb

end RecvPc

namespace Recv

variable {κ τ : Type} {s s' : Recv κ τ} {l : RecvLabel κ τ}

structure Holding (s : Recv κ τ) (xs : List Addr) : Prop where
  events : Lists s.next s.owner.events xs
  items : s.returned.map some ++ xs.map s.frames = s.delivered.map some
  size : s.owner.rcvqsz = xs.length

def Exact (s : Recv κ τ) : Prop := ∃ xs, s.Holding xs

def Zeroed (s : Recv κ τ) (l : RecvLabel κ τ) : Prop :=
  ∀ c, l = .deliver c → (s.handlers c).garbage = 0

structure Apart (s : Recv κ τ) (xs : List Addr) (loc : κ → List Addr) : Prop where
  holding : s.Holding xs
  keeps : ∀ c, (s.handlers c).Keeps s.next s.frames (loc c)
  shared : ∀ c, xs.Disjoint (loc c)
  distinct : ∀ c d, c ≠ d → (loc c).Disjoint (loc d)

theorem Holding.alive {xs : List Addr} (h : s.Holding xs) : ∀ b ∈ xs, (s.frames b).isSome := by
  intro b hb
  have hm : s.frames b ∈ s.delivered.map some := by
    rw [← h.items]
    exact List.mem_append_right _ (List.mem_map_of_mem hb)
  obtain ⟨fr, -, hfr⟩ := List.mem_map.mp hm
  rw [← hfr]
  rfl

theorem Apart.same {xs : List Addr} {loc : κ → List Addr} (h : s.Apart xs loc)
    (hn : s'.next = s.next) (hf : s'.frames = s.frames)
    (he : s'.owner.events = s.owner.events) (hq : s'.owner.rcvqsz = s.owner.rcvqsz)
    (hh : s'.handlers = s.handlers) (hd : s'.delivered = s.delivered)
    (hr : s'.returned = s.returned) : s'.Apart xs loc where
  holding := by
    constructor
    · rw [hn, he]
      exact h.holding.events
    · rw [hf, hd, hr]
      exact h.holding.items
    · rw [hq]
      exact h.holding.size
  keeps := by
    rw [hn, hf, hh]
    exact h.keeps
  shared := h.shared
  distinct := h.distinct

theorem apart_init (rcvhwm : Int) : (init rcvhwm : Recv κ τ).Apart [] fun _ => [] where
  holding := ⟨lists_init, rfl, rfl⟩
  keeps _ := rfl
  shared := by simp
  distinct := by simp

section
variable [DecidableEq κ]

theorem Apart.change {xs xs' l : List Addr} {loc : κ → List Addr} (h : s.Apart xs loc) {c : κ}
    {pc : RecvPc} (hh : s'.handlers = Function.update s.handlers c pc) (hx : s'.Holding xs')
    (hk : pc.Keeps s'.next s'.frames l)
    (hf : ∀ d, d ≠ c → ∀ b ∈ loc d, s'.next b = s.next b ∧ s'.frames b = s.frames b)
    (hxy : xs'.Disjoint l) (hxd : ∀ d, d ≠ c → xs'.Disjoint (loc d))
    (hyd : ∀ d, d ≠ c → l.Disjoint (loc d)) : s'.Apart xs' (Function.update loc c l) := by
  refine ⟨hx, fun d => ?_, fun d => ?_, fun d e hde => ?_⟩
  · rw [hh]
    rcases eq_or_ne d c with rfl | hd
    · simpa using hk
    · simpa [hd] using (h.keeps d).congr (hf d hd)
  · rcases eq_or_ne d c with rfl | hd
    · simpa using hxy
    · simpa [hd] using hxd d hd
  · rcases eq_or_ne d c with rfl | hd
    · simpa [hde.symm] using hyd e hde.symm
    · rcases eq_or_ne e c with rfl | he
      · simpa [hd] using (hyd d hd).symm
      · simpa [hd, he] using h.distinct d e hde

theorem apart_read {xs : List Addr} {loc : κ → List Addr} (h : s.Apart xs loc) {c : κ} {cnt : Int}
    (hs : s.read c cnt = some s') : ∃ loc', s'.Apart xs loc' := by
  simp only [read] at hs
  split at hs
  case h_2 => cases hs
  case h_1 hp =>
    cases hs
    exact ⟨_, h.change (l := []) rfl ⟨h.holding.events, h.holding.items, h.holding.size⟩
      ⟨lists_init, rfl, by simp⟩ (fun _ _ _ _ => ⟨rfl, rfl⟩) (by simp) (fun d _ => h.shared d)
      (by simp)⟩

theorem apart_event {xs : List Addr} {loc : κ → List Addr} (h : s.Apart xs loc) {c : κ} {a : Addr}
    {fr : Frame} (hs : s.event c a fr = some s') : ∃ loc', s'.Apart xs loc' := by
  simp only [event] at hs
  split at hs
  case h_2 => cases hs
  case h_1 garbage queue cnt batch hp =>
    obtain ⟨⟨next', frames', queue'⟩, hq, rfl⟩ := Option.map_eq_some_iff.mp hs
    have hk := h.keeps c
    have halive := hk.alive
    rw [hp] at hk
    obtain ⟨hl, hf, hn⟩ := hk
    obtain ⟨hfresh, hl', rfl, hother⟩ := queueEvent_lists hl halive hq
    have hne : ∀ b, (s.frames b).isSome → b ≠ a := by
      rintro b hb rfl
      simp [hfresh] at hb
    have hsame : ∀ b, b ∉ loc c → (s.frames b).isSome →
        next' b = s.next b ∧ Function.update s.frames a (some fr) b = s.frames b := fun b hb hs =>
      ⟨hother b hb (hne b hs), Function.update_of_ne (hne b hs) _ _⟩
    have hxs : ∀ b ∈ xs, next' b = s.next b ∧
        Function.update s.frames a (some fr) b = s.frames b := fun b hb =>
      hsame b (h.shared c hb) (h.holding.alive b hb)
    refine ⟨_, h.change (l := loc c ++ [a]) rfl ⟨?_, ?_, h.holding.size⟩ ⟨hl', ?_, ?_⟩ ?_ ?_
      (fun d _ => h.shared d) ?_⟩
    · exact h.holding.events.congr fun b hb => (hxs b hb).1
    · exact (congrArg (s.returned.map some ++ ·)
        (List.map_congr_left fun b hb => (hxs b hb).2)).trans h.holding.items
    · rw [List.map_append, List.map_append, ← hf,
        List.map_congr_left fun b hb => Function.update_of_ne (hne b (halive b hb)) _ _]
      simp
    · rw [hn, List.length_append]
      simp
      omega
    · exact fun d hd b hb => hsame b (fun hc => h.distinct d c hd hb hc) ((h.keeps d).alive b hb)
    · have hax : a ∉ xs := fun hm => hne a (h.holding.alive a hm) rfl
      simpa [List.disjoint_append_right, hax] using h.shared c
    · intro d hd
      have had : a ∉ loc d := fun hm => hne a ((h.keeps d).alive a hm) rfl
      simpa [List.disjoint_append_left, had] using h.distinct c d hd.symm

omit [DecidableEq κ] in
theorem append_lists {xs ys : List Addr} {queue : Queue Addr}
    (hx : Lists s.next s.owner.events xs) (hy : Lists s.next queue ys) (hd : xs.Disjoint ys) :
    Lists (s.append queue ys.length).next (s.append queue ys.length).owner.events (xs ++ ys) ∧
      ∀ b, b ∉ xs → (s.append queue ys.length).next b = s.next b := by
  unfold append
  dsimp only
  split
  case isTrue hpos =>
    have hne : ys ≠ [] := by
      rintro rfl
      simp at hpos
    simpa using splice_lists hx hy hd hne
  case isFalse hpos =>
    obtain rfl : ys = [] := by
      cases ys with
      | nil => rfl
      | cons => simp at hpos
    simpa using hx

omit [DecidableEq κ] in
theorem append_same (s : Recv κ τ) (queue : Queue Addr) (cnt : Int) :
    (s.append queue cnt).owner.rcvqsz = s.owner.rcvqsz + cnt ∧
      (s.append queue cnt).frames = s.frames ∧ (s.append queue cnt).handlers = s.handlers ∧
      (s.append queue cnt).consumers = s.consumers ∧
      (s.append queue cnt).delivered = s.delivered ∧
      (s.append queue cnt).returned = s.returned ∧ (s.append queue cnt).fault = s.fault := by
  unfold append
  dsimp only
  split
  · exact ⟨by simp, rfl, rfl, rfl, rfl, rfl, rfl⟩
  · exact ⟨rfl, rfl, rfl, rfl, rfl, rfl, rfl⟩

theorem deliver_spec {c : κ} (hs : s.deliver c = some s') :
    ∃ garbage queue cnt batch, s.handlers c = .parsing garbage queue cnt batch ∧
      s' = { (s.append queue cnt).handle c .idle with
        owner := (s.append queue cnt).owner.pause
        delivered := (s.append queue cnt).delivered ++ batch } := by
  simp only [deliver] at hs
  split at hs
  case h_2 => cases hs
  case h_1 garbage queue cnt batch hp =>
    cases hs
    exact ⟨garbage, queue, cnt, batch, hp, rfl⟩

theorem apart_deliver {xs : List Addr} {loc : κ → List Addr} (h : s.Apart xs loc) {c : κ}
    (hz : (s.handlers c).garbage = 0) (hs : s.deliver c = some s') :
    s'.Apart (xs ++ loc c) (Function.update loc c []) := by
  obtain ⟨garbage, queue, cnt, batch, hp, rfl⟩ := deliver_spec hs
  have hk := h.keeps c
  rw [hp] at hk hz
  obtain rfl : garbage = 0 := hz
  obtain ⟨hl, hf, hn⟩ := hk
  obtain rfl : cnt = (loc c).length := by omega
  obtain ⟨hq, hfr, hh, -, hd, hr, -⟩ := s.append_same queue (loc c).length
  obtain ⟨hlists, hother⟩ := append_lists h.holding.events hl (h.shared c)
  have hidle : RecvPc.idle.Keeps (s.append queue (loc c).length).next
      (s.append queue (loc c).length).frames [] := rfl
  refine h.change ?_ ⟨?_, ?_, ?_⟩ hidle ?_ (by simp) ?_ (by simp)
  · simp only [handle, hh]
  · rw [Owner.events_pause]
    exact hlists
  · simp [handle, hfr, hd, hr, hf, ← h.holding.items]
  · simp [hq, h.holding.size]
  · intro d hdc b hb
    refine ⟨hother b fun hx => h.shared d hx hb, ?_⟩
    simp [handle, hfr]
  · intro d hdc
    exact List.disjoint_append_left.mpr ⟨h.shared d, h.distinct c d hdc.symm⟩

end

section
variable [DecidableEq τ]

theorem take_spec {a : Addr} {xs : List Addr} (h : Lists s.next s.owner.events (a :: xs)) (t : τ) :
    ∃ events, Lists (Function.update s.next a .notInQueue) events xs ∧
      s.take t = { s.goto t .idle with
        next := Function.update s.next a .notInQueue
        owner := { s.owner with events := events, rcvqsz := s.owner.rcvqsz - 1 }.resume
        returned := s.returned ++ (s.frames a).toList } := by
  obtain ⟨events, hp, hl⟩ := pop_lists h
  exact ⟨events, hl, by rw [take, hp]⟩

theorem apart_take {a : Addr} {xs : List Addr} {loc : κ → List Addr} (h : s.Apart (a :: xs) loc)
    (t : τ) : (s.take t).Apart xs loc := by
  obtain ⟨events, hl, ht⟩ := take_spec h.holding.events t
  obtain ⟨fr, hfr⟩ := Option.isSome_iff_exists.mp (h.holding.alive a (by simp))
  rw [ht]
  constructor
  · constructor
    · simpa using hl
    · simpa [goto, hfr] using h.holding.items
    · simp [h.holding.size]
  · intro c
    refine (h.keeps c).congr fun b hb => ⟨Function.update_of_ne ?_ _ _, rfl⟩
    rintro rfl
    exact h.shared c (by simp) hb
  · exact fun c b hb => h.shared c (by simp [hb])
  · exact h.distinct

theorem apart_get {xs : List Addr} {loc : κ → List Addr} (h : s.Apart xs loc) {t : τ}
    {donwait : Bool} (hs : s.get t donwait = some s') : ∃ xs', s'.Apart xs' loc := by
  simp only [get] at hs
  split at hs
  case h_2 => cases hs
  case h_1 =>
    split at hs
    case isTrue =>
      split at hs <;> cases hs
      · exact ⟨xs, h⟩
      · exact ⟨xs, h.same rfl rfl rfl rfl rfl rfl rfl⟩
    case isFalse he =>
      cases hs
      cases xs with
      | nil => exact absurd (h.holding.events.empty_eq.mpr rfl) he
      | cons a xs => exact ⟨xs, apart_take h t⟩

theorem apart_relock {xs : List Addr} {loc : κ → List Addr} (h : s.Apart xs loc) {t : τ}
    (hs : s.relock t = some s') : ∃ xs', s'.Apart xs' loc := by
  simp only [relock] at hs
  split at hs
  case h_2 => cases hs
  case h_1 =>
    split at hs
    case isTrue =>
      cases hs
      exact ⟨xs, h.same rfl rfl rfl rfl rfl rfl rfl⟩
    case isFalse he =>
      cases hs
      cases xs with
      | nil => exact absurd (h.holding.events.empty_eq.mpr rfl) he
      | cons a xs => exact ⟨xs, apart_take h t⟩

end

theorem apart_destroy {xs : List Addr} {loc : κ → List Addr} (h : s.Apart xs loc) {a : Addr}
    (hs : s.destroy a = some s') : s'.Apart xs loc := by
  simp only [destroy] at hs
  split at hs
  case isFalse => cases hs
  case isTrue hn =>
    cases hs
    have hne : ∀ b, s.next b ≠ .notInQueue → Function.update s.frames a none b = s.frames b := by
      intro b hb
      have hba : b ≠ a := by
        rintro rfl
        exact hb hn
      exact Function.update_of_ne hba _ _
    have hxs : xs.map (Function.update s.frames a none) = xs.map s.frames :=
      List.map_congr_left fun b hb => hne b (h.holding.events.queued hb)
    refine ⟨⟨h.holding.events, ?_, h.holding.size⟩, ?_, h.shared, h.distinct⟩
    · exact (congrArg (s.returned.map some ++ ·) hxs).trans h.holding.items
    · exact fun c => (h.keeps c).congr fun b hb => ⟨rfl, hne b ((h.keeps c).queued b hb)⟩

variable [DecidableEq κ]

theorem deliver_miscounts {xs : List Addr} {loc : κ → List Addr} (h : s.Apart xs loc) {c : κ}
    (hz : (s.handlers c).garbage ≠ 0) (hs : s.deliver c = some s') : ¬ s'.Exact := by
  obtain ⟨garbage, queue, cnt, batch, hp, rfl⟩ := deliver_spec hs
  have hk := h.keeps c
  rw [hp] at hk hz
  obtain ⟨-, hf, hn⟩ := hk
  obtain ⟨hq, hfr, -, -, hd, hr, -⟩ := s.append_same queue cnt
  rintro ⟨zs, -, hitems, hsize⟩
  have hbefore := congrArg List.length h.holding.items
  have hafter := congrArg List.length hitems
  have hbatch := congrArg List.length hf
  have hcount := h.holding.size
  simp only [handle, hd, hr, List.length_append, List.length_map] at hbefore hafter hbatch
  rw [Owner.rcvqsz_pause, hq] at hsize
  have hgarbage : garbage = 0 := by omega
  exact hz hgarbage

variable [DecidableEq τ]

theorem apart_step {xs : List Addr} {loc : κ → List Addr} (h : s.Apart xs loc) (hz : s.Zeroed l)
    (hs : s.step l = some s') : ∃ xs' loc', s'.Apart xs' loc' := by
  simp only [step] at hs
  split at hs
  case isTrue => cases hs
  case isFalse =>
    cases l with
    | read c cnt => exact ⟨xs, apart_read h hs⟩
    | event c a fr => exact ⟨xs, apart_event h hs⟩
    | deliver c => exact ⟨_, _, apart_deliver h (hz c rfl) hs⟩
    | get t donwait =>
      obtain ⟨xs', h'⟩ := apart_get h hs
      exact ⟨xs', loc, h'⟩
    | efdReady t =>
      simp only [efdReady] at hs
      split at hs
      · split at hs <;> cases hs
        exact ⟨xs, loc, h.same rfl rfl rfl rfl rfl rfl rfl⟩
      · cases hs
    | timeout t =>
      simp only [timeout] at hs
      split at hs
      · split at hs <;> cases hs
        exact ⟨xs, loc, h.same rfl rfl rfl rfl rfl rfl rfl⟩
      · cases hs
    | unsignal t =>
      simp only [unsignal] at hs
      split at hs <;> cases hs
      exact ⟨xs, loc, h.same rfl rfl rfl rfl rfl rfl rfl⟩
    | relock t =>
      obtain ⟨xs', h'⟩ := apart_relock h hs
      exact ⟨xs', loc, h'⟩
    | destroy a => exact ⟨xs, loc, apart_destroy h hs⟩

theorem batches_exact (rcvhwm : Int) {tr : List (Recv κ τ × RecvLabel κ τ)}
    (hr : Run step (init rcvhwm) tr s) : Steps Zeroed tr ↔ Visits Exact tr s := by
  refine Run.exact (I := fun s : Recv κ τ => ∃ xs loc, s.Apart xs loc) (A := fun _ _ => True)
    ⟨[], _, apart_init rcvhwm⟩ ?_ ?_ ?_ hr fun _ _ => trivial
  · rintro s ⟨xs, loc, h⟩
    exact ⟨xs, h.holding⟩
  · rintro s l s' ⟨xs, loc, h⟩ - hz hs
    exact apart_step h hz hs
  · rintro s l s' ⟨xs, loc, h⟩ - hz hs he
    refine hz ?_
    rintro c rfl
    by_contra hg
    refine deliver_miscounts h hg ?_ he
    simp only [step] at hs
    split at hs
    · cases hs
    · exact hs

instance [Fintype κ] (s : Recv κ τ) (l : RecvLabel κ τ) : Decidable (s.Zeroed l) :=
  inferInstanceAs (Decidable (∀ c, l = .deliver c → (s.handlers c).garbage = 0))

def served : List (RecvLabel Bool Unit) :=
  [.read true 0, .event true 1 (letter 65), .read false 0, .event true 2 (letter 66),
    .event false 3 (letter 67), .deliver false, .get () false, .deliver true, .read false 0,
    .deliver false, .destroy 3, .get () true]

def miscounted : List (RecvLabel Unit Unit) :=
  [.read () 5, .event () 1 (letter 65), .deliver ()]

theorem batches_exact_served : Visits Exact (trace step (init 1000) served)
    (final step (init 1000) served) :=
  (batches_exact 1000 (run_final rfl)).mp (by decide)

theorem garbage_miscounts : ∃ s, Run step (init 1000) (trace step (init 1000) miscounted) s ∧
    s.delivered.length = 1 ∧ s.returned = [] ∧ s.owner.rcvqsz = 6 ∧ ¬ s.Exact := by
  refine ⟨_, run_final rfl, rfl, rfl, rfl, ?_⟩
  rintro ⟨xs, -, hitems, hsize⟩
  have hlen := congrArg List.length hitems
  rw [List.length_append, List.length_map, List.length_map, List.length_map] at hlen
  have hone : 0 + xs.length = 1 := hlen
  have hsix : (6 : Int) = xs.length := hsize
  omega

end Recv

end Fsock
