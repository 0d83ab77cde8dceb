import Fsock.Lib.Run
import Fsock.Core.Duplex
import Fsock.Core.WriterStep
import Fsock.Core.ListFramer

namespace Fsock

open Transition

def Nread.returned : Nread → List Int
  | .bytes n => [(n : Int)]
  | _ => []

def ReadPc.pending : ReadPc → List Int
  | .parse nread => [nread]
  | _ => []

def ConnLabel.hands : ConnLabel → Bool
  | .writev _ => true
  | _ => false

namespace DuplexLabel

def returned : DuplexLabel → List Int
  | .read nread => nread.returned
  | _ => []

def Fatal (l : DuplexLabel) : Prop :=
  l = .read .failed ∨ l = .conn (.writev .failed) ∨ l = .parse false

def hands : DuplexLabel → Bool
  | .parse _ => true
  | .conn l => l.hands
  | _ => false

instance (l : DuplexLabel) : Decidable l.Fatal := inferInstanceAs (Decidable (_ ∨ _ ∨ _))

abbrev NoError (l : DuplexLabel) : Prop := l ≠ .read .failed ∧ l ≠ .conn (.writev .failed)

theorem Fatal.parse {l : DuplexLabel} (h : l.Fatal) (hn : l.NoError) : l = .parse false :=
  (h.resolve_left hn.1).resolve_left hn.2

end DuplexLabel

namespace Duplex

variable {ρ : Type} {F : Framer ρ} {s s' : Duplex ρ} {l : DuplexLabel}

structure Ended (tr : List (Duplex ρ × DuplexLabel)) (s : Duplex ρ) : Prop where
  lengths : ∀ n ∈ s.parsed, 1 ≤ n ∧ n ≤ 1400
  returned : s.parsed ++ s.pc.pending = tr.flatMap fun x => x.2.returned
  marked : ∀ x ∈ tr, x.2.Fatal → s.inLoop = true → s.conn.zombie = true
  quiet : tr.Pairwise fun x y => x.2.Fatal → y.2.hands = false

def Apart (s : Duplex ρ) : Prop := s.pc = .idle ∨ s.conn.pc = .idle

inductive Halting (s : Duplex ρ) : Prop
  | stop (hp : s.pc = .stop)
  | mark (hp : s.pc = .mark) (hr : s.rio = false)
  | halted (hp : s.pc = .idle) (hr : s.rio = false) (hz : s.conn.zombie = true)

structure Down (s : Duplex ρ) : Prop where
  writer : s.conn.pc = .idle
  reader : s.Halting

theorem inLoop_iff : s.inLoop = true ↔ s.pc = .idle ∧ s.conn.pc = .idle := by
  unfold inLoop
  split <;> simp_all

section
variable {c c' : Conn ρ} {k : ConnLabel}

theorem step_idle (hp : c.pc = .idle) (h : c.step F k = some c') :
    k.hands = false ∧ (c'.pc = .idle ∨ k = .ready ∧ c.zombie = false) := by
  cases Conn.effect_of_step h with
  | insert hi => exact ⟨rfl, .inl (hi.pc.trans hp)⟩
  | zombie | startWrite | skip => exact ⟨rfl, .inl hp⟩
  | enter _ _ hz => exact ⟨rfl, .inr ⟨rfl, hz⟩⟩
  | sent hq | bare hq | steal hq | wrote hq | wouldBlock hq | failed hq | merge hq | settle hq
  | broadcast hq | stopWatcher hq | clearWriting hq => cases hq.symm.trans hp

theorem write_step (h : s.write F k = some s') :
    s.conn.step F k = some s'.conn ∧ s' = { s with conn := s'.conn } ∧ k ≠ .zombie ∧
      (k = .ready → s.inLoop = true) := by
  unfold write at h
  split at h
  · cases h
  · split at h
    · obtain ⟨c, hc, rfl⟩ := Option.map_eq_some_iff.mp h
      exact ⟨hc, rfl, by simp, by simp⟩
    · cases h
  · split at h
    case isTrue hl =>
      obtain ⟨c, hc, rfl⟩ := Option.map_eq_some_iff.mp h
      exact ⟨hc, rfl, by simp, fun _ => hl⟩
    · cases h
  · obtain ⟨c, hc, rfl⟩ := Option.map_eq_some_iff.mp h
    exact ⟨hc, rfl, by assumption, fun hk => absurd hk (by assumption)⟩

end

theorem watch_step {b : Bool} (h : s.watch b = some s') :
    s.inLoop = true ∧ s' = { s with rio := b } := by
  unfold watch at h
  split at h
  case isTrue hl => exact ⟨hl, by cases h; rfl⟩
  case isFalse => cases h

theorem read_step {nread : Nread} (h : s.read nread = some s') :
    s.inLoop = true ∧ s.rio = true ∧ ∃ pc, s' = { s with pc := pc } ∧
      (nread ≠ .failed → pc.pending = nread.returned ∧ ∀ n ∈ pc.pending, 1 ≤ n ∧ n ≤ 1400) := by
  unfold read at h
  split at h
  case isFalse => cases h
  case isTrue hl =>
    refine ⟨hl.1, hl.2, ?_⟩
    cases nread with
    | bytes n =>
      simp only at h
      split at h
      case isFalse => cases h
      case isTrue hn =>
        cases h
        refine ⟨.parse n, rfl, fun _ => ⟨rfl, fun m hm => ?_⟩⟩
        obtain rfl := List.mem_singleton.mp hm
        omega
    | eof =>
      cases h
      exact ⟨.stop, rfl, fun _ => ⟨rfl, by simp [ReadPc.pending]⟩⟩
    | wouldBlock =>
      cases h
      have hp := (inLoop_iff.mp hl.1).1
      refine ⟨.idle, ?_, fun _ => ⟨rfl, by simp [ReadPc.pending]⟩⟩
      rw [← hp]
    | failed =>
      cases h
      exact ⟨.parse (-1), rfl, fun hf => absurd rfl hf⟩

theorem parse_step {ok : Bool} (h : s.parse ok = some s') :
    ∃ nread, s.pc = .parse nread ∧ s'.parsed = s.parsed ++ [nread] ∧
      s'.pc = (if ok then .idle else .stop) ∧ s'.conn = s.conn := by
  unfold parse at h
  split at h
  · cases h
    exact ⟨_, by assumption, rfl, rfl, rfl⟩
  · cases h

theorem stopWatchers_step (h : s.stopWatchers = some s') :
    s.pc = .stop ∧ s' = { s with conn := { s.conn with wio := false }, rio := false, pc := .mark } := by
  unfold stopWatchers at h
  split at h
  · cases h
    exact ⟨by assumption, rfl⟩
  · cases h

theorem mark_step (h : s.mark = some s') :
    s.pc = .mark ∧ s' = { s with conn := { s.conn with zombie := true }, pc := .idle } := by
  unfold mark at h
  split at h
  · cases h
    exact ⟨by assumption, rfl⟩
  · cases h

theorem apart_init : (init F).Apart := .inl rfl

theorem apart_step (h : s.Apart) (hs : s.step F l = some s') : s'.Apart := by
  cases l with
  | conn k =>
    obtain ⟨hc, he, -, hr⟩ := write_step hs
    rcases h with h | h
    · rw [he]
      exact .inl h
    · rcases (step_idle h hc).2 with hp | ⟨rfl, -⟩
      · exact .inr hp
      · rw [he]
        exact .inl (inLoop_iff.mp (hr rfl)).1
  | startRead | stopRead =>
    obtain ⟨-, rfl⟩ := watch_step hs
    exact h
  | read nread =>
    obtain ⟨hl, -, pc, rfl, -⟩ := read_step hs
    exact .inr (inLoop_iff.mp hl).2
  | parse ok =>
    obtain ⟨n, hp, -, -, hc⟩ := parse_step hs
    rcases h with h | h
    · rw [h] at hp
      cases hp
    · exact .inr (hc ▸ h)
  | stopWatchers =>
    obtain ⟨hp, rfl⟩ := stopWatchers_step hs
    exact h.imp (fun h => by rw [h] at hp; cases hp) id
  | mark =>
    obtain ⟨hp, rfl⟩ := mark_step hs
    exact .inl rfl

theorem down_parse (h : s.Apart) (hs : s.step F (.parse false) = some s') : s'.Down := by
  obtain ⟨n, hp, -, hq, hc⟩ := parse_step hs
  rcases h with h | h
  · rw [h] at hp
    cases hp
  · exact ⟨hc ▸ h, .stop hq⟩

theorem down_step (h : s.Down) (ha : l ≠ .startRead) (hs : s.step F l = some s') :
    s'.Down ∧ l.hands = false := by
  obtain ⟨hw, hr⟩ := h
  cases l with
  | conn k =>
    obtain ⟨hc, he, hk, hl⟩ := write_step hs
    obtain ⟨hh, hi⟩ := step_idle hw hc
    have hz := Conn.zombie_step hk hc
    refine ⟨?_, hh⟩
    rw [he]
    cases hr with
    | stop hp | mark hp =>
      refine ⟨hi.resolve_right fun h => ?_, ?_⟩
      · have := (inLoop_iff.mp (hl h.1)).1
        rw [hp] at this
        cases this
      · first
        | exact .stop hp
        | exact .mark hp ‹_›
    | halted hp hr hd =>
      exact ⟨hi.resolve_right fun h => by simp [hd] at h, .halted hp hr (hz.trans hd)⟩
  | startRead => exact absurd rfl ha
  | stopRead =>
    obtain ⟨hl, rfl⟩ := watch_step hs
    refine ⟨⟨hw, ?_⟩, rfl⟩
    cases hr with
    | stop hp => exact .stop hp
    | mark hp => exact .mark hp rfl
    | halted hp _ hd => exact .halted hp rfl hd
  | read nread =>
    obtain ⟨hl, ho, -⟩ := read_step hs
    have hp := (inLoop_iff.mp hl).1
    cases hr with
    | stop hq | mark hq =>
      rw [hp] at hq
      cases hq
    | halted _ hr => simp [hr] at ho
  | parse ok =>
    obtain ⟨n, hp, -⟩ := parse_step hs
    cases hr with
    | stop hq | mark hq | halted hq =>
      rw [hp] at hq
      cases hq
  | stopWatchers =>
    obtain ⟨-, rfl⟩ := stopWatchers_step hs
    exact ⟨⟨hw, .mark rfl rfl⟩, rfl⟩
  | mark =>
    obtain ⟨hp, rfl⟩ := mark_step hs
    refine ⟨⟨hw, ?_⟩, rfl⟩
    cases hr with
    | mark _ ho => exact .halted rfl ho rfl
    | stop hq | halted hq =>
      rw [hp] at hq
      cases hq

structure Fed (tr : List (Duplex ρ × DuplexLabel)) (s : Duplex ρ) : Prop where
  lengths : ∀ n ∈ s.parsed ++ s.pc.pending, 1 ≤ n ∧ n ≤ 1400
  returned : s.parsed ++ s.pc.pending = tr.flatMap fun x => x.2.returned

theorem Fed.snoc {tr : List (Duplex ρ × DuplexLabel)} (h : Fed tr s)
    (hp : s'.parsed ++ s'.pc.pending = s.parsed ++ s.pc.pending ++ l.returned)
    (hn : ∀ n ∈ l.returned, 1 ≤ n ∧ n ≤ 1400) : Fed (tr ++ [(s, l)]) s' where
  lengths := by
    intro n hm
    rw [hp] at hm
    exact (List.mem_append.mp hm).elim (h.lengths n) (hn n)
  returned := by
    rw [hp, h.returned]
    simp

theorem fed_step {tr : List (Duplex ρ × DuplexLabel)} (h : Fed tr s) (hl : l.NoError)
    (hs : s.step F l = some s') : Fed (tr ++ [(s, l)]) s' := by
  cases l with
  | conn k =>
    obtain ⟨-, he, -⟩ := write_step hs
    exact h.snoc (by rw [he]; simp [DuplexLabel.returned]) (by simp [DuplexLabel.returned])
  | startRead | stopRead =>
    obtain ⟨-, rfl⟩ := watch_step hs
    exact h.snoc (by simp [DuplexLabel.returned]) (by simp [DuplexLabel.returned])
  | read nread =>
    obtain ⟨hi, -, pc, rfl, hb⟩ := read_step hs
    obtain ⟨hr, hn⟩ := hb fun hf => hl.1 (by rw [hf])
    have hp : s.pc.pending = [] := by
      rw [(inLoop_iff.mp hi).1]
      rfl
    refine h.snoc ?_ ?_
    · simp only [DuplexLabel.returned, hr, hp, List.append_nil]
    · simpa only [DuplexLabel.returned, ← hr] using hn
  | parse ok =>
    obtain ⟨n, hp, hq, hi, -⟩ := parse_step hs
    refine h.snoc ?_ (by simp [DuplexLabel.returned])
    cases ok <;> simp [hp, hq, hi, ReadPc.pending, DuplexLabel.returned]
  | stopWatchers =>
    obtain ⟨hp, rfl⟩ := stopWatchers_step hs
    exact h.snoc (by simp [hp, ReadPc.pending, DuplexLabel.returned]) (by simp [DuplexLabel.returned])
  | mark =>
    obtain ⟨hp, rfl⟩ := mark_step hs
    exact h.snoc (by simp [hp, ReadPc.pending, DuplexLabel.returned]) (by simp [DuplexLabel.returned])

theorem fed_run {tr : List (Duplex ρ × DuplexLabel)} (hr : Run (step F) (init F) tr s)
    (hn : Steps (fun _ l => l.NoError) tr) : Fed tr s := by
  induction hr with
  | nil => exact ⟨by simp [init, ReadPc.pending], by simp [init, ReadPc.pending]⟩
  | snoc _ ht ih =>
    obtain ⟨hn, hl⟩ := steps_snoc.mp hn
    exact fed_step (ih hn) hl ht

theorem fatal_ends {tr : List (Duplex ρ × DuplexLabel)} (hr : Run (step F) (init F) tr s)
    (hn : Steps (fun _ l => l.NoError) tr)
    (hz : tr.Pairwise fun x y => x.2 = .parse false → y.2 ≠ .startRead) : Ended tr s := by
  have hf : Fed tr s := fed_run hr hn
  have hv : Visits Apart tr s :=
    hr.visits (C := fun _ _ => True) apart_init (fun _ _ _ h _ hs => apart_step h hs) fun _ _ => trivial
  obtain ⟨hp, hd⟩ := hr.since (K := fun l => l = .parse false)
    (fun _ _ _ ha hk hs => down_parse ha (hk ▸ hs))
    (fun _ _ _ hd ha hs => (down_step hd ha hs).1) hv.1 hz
  refine ⟨fun n hm => hf.lengths n (by simp [hm]), hf.returned, ?_, ?_⟩
  · intro x hx hx' hi
    have hw := (hd x hx (hx'.parse (hn x hx))).reader
    have hq := (inLoop_iff.mp hi).1
    cases hw with
    | halted _ _ hz => exact hz
    | stop hs | mark hs =>
      rw [hq] at hs
      cases hs
  · refine (hp.and hz).imp_of_mem fun {x y} hx hy h hk => ?_
    obtain ⟨t, ht⟩ := hr.enabled y hy
    have hq := DuplexLabel.Fatal.parse hk (hn x hx)
    exact (down_step (h.1 hq) (h.2 hq) ht).2

def torn : List DuplexLabel :=
  [.conn (.insert 1 ⟨[65, 66], by simp⟩), .conn .startWrite, .conn .ready, .conn .steal,
    .conn (.writev (.wrote 1)), .conn (.writev .failed), .conn .stopWatcher, .conn .clearWriting,
    .conn (.insert 2 (letter 67)), .conn .startWrite, .conn .ready, .conn .steal,
    .conn (.writev (.wrote 1))]

def misread : List DuplexLabel := [.read .failed, .parse true]

def rejected : List DuplexLabel :=
  [.read (.bytes 7), .parse true, .conn (.insert 1 (letter 65)), .conn .startWrite, .conn .ready,
    .conn .steal, .conn (.writev (.wrote 1)), .conn .steal, .conn (.settle false),
    .conn .stopWatcher, .conn .clearWriting, .read (.bytes 1400), .conn (.insert 2 (letter 66)),
    .parse false, .stopWatchers, .mark, .stopRead, .conn .startWrite, .conn .ready]

theorem fatal_ends_rejected : Ended
    (trace (step listFramer) (init listFramer) rejected)
    (final (step listFramer) (init listFramer) rejected) :=
  fatal_ends (run_final rfl) (by decide) (by decide)

theorem torn_stream_continues :
    (∃ s, Run (step listFramer) (init listFramer)
        (trace (step listFramer) (init listFramer) torn) s ∧
      s.conn.zombie = false ∧ s.conn.accepted.map Frame.bytes = [[65, 66], [67]] ∧
      s.conn.kernel = [65, 67] ∧
      ¬ Ended (trace (step listFramer) (init listFramer) torn) s) ∧
    ∃ s, Run (step listFramer) (init listFramer)
        (trace (step listFramer) (init listFramer) misread) s ∧
      s.conn.zombie = false ∧ s.parsed = [-1] ∧
      ¬ Ended (trace (step listFramer) (init listFramer) misread) s := by
  refine ⟨⟨_, run_final rfl, rfl, rfl, rfl, fun h => ?_⟩, ⟨_, run_final rfl, rfl, rfl, fun h => ?_⟩⟩
  · exact absurd h.quiet (by decide)
  · exact absurd h.lengths (by decide)

end Duplex

end Fsock
