import Fsock.Core.RecvSteady
import Fsock.Core.WriterDrain

namespace Fsock

open Transition StreamCodec

namespace Channel

variable {κ ρ σ : Type} [DecidableEq κ] {F : Framer ρ} {P : FrameParser σ}
  {valid : Frame → Prop} {rel : σ → List UInt8 → Prop} {s s' : Channel κ Unit ρ σ}
  {l : ChannelLabel κ Unit}

def Flows (valid : Frame → Prop) (s : Channel κ Unit ρ σ) : ChannelLabel κ Unit → Prop
  | .out c l => (Conn.Healthy l ∧ (s.outs c).Timely l ∧ (s.outs c).Calm l) ∧ ∀ fr ∈ l.frame, valid fr
  | .read c _ cnt => s.recv.Tidy (.read c cnt)
  | .deliver c => s.recv.Tidy (.deliver c)
  | .hangup _ => False
  | .nomem _ => False
  | _ => True

structure Flowing (F : Framer ρ) (valid : Frame → Prop) (rel : σ → List UInt8 → Prop)
    (s : Channel κ Unit ρ σ) : Prop where
  joined : ∃ xs ys, s.Joined F valid rel xs ys
  writes : ∀ c, (s.outs c).Writes F
  up : ∀ c, (s.ins c).down = none
  parsed : ∀ c, s.recv.handlers c = .idle → (s.ins c).inFrames = []
  steady : s.recv.Steady

theorem flowing_init (hF : F.Lawful) (hP : P.Tracks Frame.bytes valid rel) {rcvhwm : Int}
    (h : 0 < rcvhwm) : (init F P rcvhwm : Channel κ Unit ρ σ).Flowing F valid rel where
  joined := ⟨_, _, joined_init hP hF rcvhwm⟩
  writes _ := Conn.writes_init hF
  up _ := rfl
  parsed _ _ := rfl
  steady := Recv.steady_init h

theorem Flowing.faultless (h : s.Flowing F valid rel) (hl : s.Flows valid l) :
    s.Faultless valid l := by
  cases l with
  | out c m => exact ⟨hl.1.1.1, hl.1.2.2, hl.2⟩
  | deliver c => exact h.steady.clean c
  | nomem c => exact hl
  | _ => trivial

theorem recv_step (hl : s.Flows valid l) (hs : s.step F P l = some s') :
    s'.recv = s.recv ∨ ∃ m, s.recv.Tidy m ∧ s.recv.step m = some s'.recv := by
  cases l with
  | out c m =>
    obtain ⟨conn, -, rfl⟩ := Option.map_eq_some_iff.mp hs
    exact .inl rfl
  | read c nread cnt =>
    simp only [step, Channel.read] at hs
    split at hs
    · obtain ⟨recv, ht, rfl⟩ := Option.map_eq_some_iff.mp hs
      split
      · exact .inl rfl
      · exact .inr ⟨.read c cnt, hl, ht⟩
    · cases hs
  | hangup c => exact hl.elim
  | event c a =>
    simp only [step, Channel.event] at hs
    split at hs
    · rename_i fr frames hi
      obtain ⟨recv, ht, rfl⟩ := Option.map_eq_some_iff.mp hs
      exact .inr ⟨.event c a fr, trivial, ht⟩
    · cases hs
  | nomem c => exact hl.elim
  | deliver c =>
    simp only [step, Channel.deliver] at hs
    split at hs
    · obtain ⟨recv, ht, rfl⟩ := Option.map_eq_some_iff.mp hs
      exact .inr ⟨.deliver c, hl, ht⟩
    · cases hs
  | consume m =>
    simp only [step] at hs
    split at hs
    · rename_i hm
      obtain ⟨recv, ht, rfl⟩ := Option.map_eq_some_iff.mp hs
      refine .inr ⟨m, ?_, ht⟩
      cases m with
      | read | event | deliver => cases hm
      | _ => trivial
    · cases hs

theorem outs_step (hs : s.step F P l = some s') : s'.outs = s.outs ∨
    ∃ c m conn, l = .out c m ∧ (s.outs c).step F m = some conn ∧
      s'.outs = Function.update s.outs c conn := by
  cases l with
  | out c m =>
    obtain ⟨conn, ht, rfl⟩ := Option.map_eq_some_iff.mp hs
    exact .inr ⟨c, m, conn, rfl, ht, rfl⟩
  | read c nread cnt =>
    simp only [step, Channel.read] at hs
    split at hs
    · obtain ⟨recv, ht, rfl⟩ := Option.map_eq_some_iff.mp hs
      split <;> exact .inl rfl
    · cases hs
  | hangup c =>
    simp only [step, Channel.hangup] at hs
    split at hs <;> cases hs
    exact .inl rfl
  | event c a =>
    simp only [step, Channel.event] at hs
    split at hs
    · obtain ⟨recv, ht, rfl⟩ := Option.map_eq_some_iff.mp hs
      exact .inl rfl
    · cases hs
  | nomem c =>
    simp only [step, Channel.nomem, handOver] at hs
    split at hs
    · obtain ⟨recv, ht, rfl⟩ := Option.map_eq_some_iff.mp hs
      exact .inl rfl
    · cases hs
  | deliver c =>
    simp only [step, Channel.deliver] at hs
    split at hs
    · obtain ⟨recv, ht, rfl⟩ := Option.map_eq_some_iff.mp hs
      exact .inl rfl
    · cases hs
  | consume m =>
    simp only [step] at hs
    split at hs
    · obtain ⟨recv, ht, rfl⟩ := Option.map_eq_some_iff.mp hs
      exact .inl rfl
    · cases hs

structure Untouched (s s' : Channel κ Unit ρ σ) : Prop where
  returned : s'.recv.returned = s.recv.returned
  consumers : s'.recv.consumers = s.recv.consumers

theorem read_change {c : κ} {nread : Nat} {cnt : Int} (hp : (s'.ins c).down ≠ some .parseError)
    (hs : s.read P c nread cnt = some s') :
    (1 ≤ nread ∧ (s.ins c).taken + nread ≤ (s.outs c).kernel.length ∧ s.recv.handlers c = .idle) ∧
      s.Untouched s' ∧ s'.outs = s.outs ∧ s'.log = s.log ∧
      s'.recv.handlers = Function.update s.recv.handlers c (.parsing cnt .init cnt []) ∧
      ∃ parser more, s'.ins = Function.update s.ins c
        ⟨parser, (s.ins c).taken + nread, (s.ins c).inFrames ++ more, (s.ins c).down⟩ := by
  simp only [Channel.read] at hs
  split at hs
  case isFalse => cases hs
  case isTrue hg =>
    obtain ⟨-, hpos, -, hlen⟩ := hg
    obtain ⟨recv, ht, rfl⟩ := Option.map_eq_some_iff.mp hs
    rw [chunk, List.length_take, List.length_drop] at hlen
    simp only [Recv.step, Recv.read] at ht
    split at ht
    · cases ht
    · split at ht
      case h_2 => cases ht
      case h_1 hidle =>
        cases ht
        refine ⟨⟨hpos, by omega, hidle⟩, ?_⟩
        split at hp
        · simp [inlet] at hp
        · rename_i parser frames hf
          exact ⟨⟨rfl, rfl⟩, rfl, rfl, rfl, parser, frames, rfl⟩

theorem event_change {c : κ} {a : Addr} (hs : s.event c a = some s') :
    s.Untouched s' ∧ s'.outs = s.outs ∧ s'.log = s.log ∧ ∃ fr frames garbage queue cnt batch queue',
      (s.ins c).inFrames = fr :: frames ∧
      s.recv.handlers c = .parsing garbage queue cnt batch ∧
      s'.ins = Function.update s.ins c { s.ins c with inFrames := frames } ∧
      s'.recv.handlers = Function.update s.recv.handlers c
        (.parsing garbage queue' (cnt + 1) (batch ++ [fr])) := by
  simp only [Channel.event] at hs
  split at hs
  case h_2 => cases hs
  case h_1 fr frames hi =>
    obtain ⟨recv, ht, rfl⟩ := Option.map_eq_some_iff.mp hs
    simp only [Recv.step, Recv.event] at ht
    split at ht
    · cases ht
    · split at ht
      case h_2 => cases ht
      case h_1 garbage queue cnt batch hp =>
        obtain ⟨x, -, rfl⟩ := Option.map_eq_some_iff.mp ht
        exact ⟨⟨rfl, rfl⟩, rfl, rfl, fr, frames, garbage, queue, cnt, batch, _, hi, hp, rfl, rfl⟩

theorem deliver_change {c : κ} (hs : s.deliver c = some s') :
    s.Untouched s' ∧ s'.outs = s.outs ∧ s'.ins = s.ins ∧ (s.ins c).inFrames = [] ∧
      s'.log = s.log ++ (s.recv.handlers c).batch.map (fun fr => (c, fr)) ∧
      s'.recv.handlers = Function.update s.recv.handlers c .idle ∧ s.recv.handlers c ≠ .idle := by
  simp only [Channel.deliver] at hs
  split at hs
  case h_2 => cases hs
  case h_1 hi =>
    obtain ⟨recv, ht, rfl⟩ := Option.map_eq_some_iff.mp hs
    obtain ⟨hh, -, hr⟩ := Recv.deliver_frame ht
    simp only [Recv.step] at ht
    split at ht
    · cases ht
    · obtain ⟨garbage, queue, cnt, batch, hp, rfl⟩ := Recv.deliver_spec ht
      have hc := (s.recv.append_same queue cnt).2.2.2.1
      exact ⟨⟨hr, hc⟩, rfl, rfl, hi, rfl, hh, by simp [hp]⟩

theorem ins_step (h : s.Flowing F valid rel) (h' : ∃ xs ys, s'.Joined F valid rel xs ys)
    (hl : s.Flows valid l) (hs : s.step F P l = some s') (c : κ) : (s'.ins c).down = none ∧
      (s'.recv.handlers c = .idle → (s'.ins c).inFrames = []) := by
  have hkeep : (s.ins c).down = none ∧ (s.recv.handlers c = .idle → (s.ins c).inFrames = []) :=
    ⟨h.up c, h.parsed c⟩
  cases l with
  | out d m =>
    obtain ⟨conn, -, rfl⟩ := Option.map_eq_some_iff.mp hs
    exact hkeep
  | read d nread cnt =>
    obtain ⟨xs, ys, hj⟩ := h'
    obtain ⟨-, -, -, -, hh, parser, more, hi⟩ := read_change (hj.reads d).parses hs
    rw [hh, hi]
    rcases eq_or_ne c d with rfl | hcd
    · simpa using hkeep.1
    · simpa [hcd] using hkeep
  | hangup d => exact hl.elim
  | event d a =>
    obtain ⟨-, -, -, fr, frames, garbage, queue, cnt, batch, queue', -, -, hi, hh⟩ := event_change hs
    rw [hh, hi]
    rcases eq_or_ne c d with rfl | hcd
    · simpa using hkeep.1
    · simpa [hcd] using hkeep
  | nomem d => exact hl.elim
  | deliver d =>
    obtain ⟨-, -, hi, hempty, -, hh, -⟩ := deliver_change hs
    rw [hi, hh]
    rcases eq_or_ne c d with rfl | hcd
    · exact ⟨hkeep.1, fun _ => hempty⟩
    · simpa [hcd] using hkeep
  | consume m =>
    simp only [step] at hs
    split at hs
    · rename_i hm
      obtain ⟨recv, ht, rfl⟩ := Option.map_eq_some_iff.mp hs
      rw [(Recv.consume_frame hm ht).1]
      exact hkeep
    · cases hs

theorem flowing_step (hF : F.Lawful) (hP : P.Tracks Frame.bytes valid rel)
    (h : s.Flowing F valid rel) (hl : s.Flows valid l) (hs : s.step F P l = some s') :
    s'.Flowing F valid rel := by
  obtain ⟨xs, ys, hj⟩ := h.joined
  have hj' := joined_step hF hP hj (h.faultless hl) hs
  have hins := ins_step h hj' hl hs
  refine ⟨hj', fun c => ?_, fun c => (hins c).1, fun c => (hins c).2, ?_⟩
  · rcases outs_step hs with ho | ⟨d, m, conn, rfl, ht, ho⟩
    · rw [ho]
      exact h.writes c
    · rw [ho]
      rcases eq_or_ne c d with rfl | hcd
      · rw [Function.update_self]
        exact (h.writes c).step hF hl.1.1 hl.1.2.1 hl.1.2.2 ht
      · rw [Function.update_of_ne hcd]
        exact h.writes c
  · rcases recv_step hl hs with hr | ⟨m, ht, hr⟩
    · rw [hr]
      exact h.steady
    · exact Recv.steady_step h.steady ht hr

end Channel

namespace RecvLabel

def Fetches {κ τ : Type} : RecvLabel κ τ → Prop
  | .get _ donwait => donwait = false
  | .efdReady _ => True
  | .unsignal _ => True
  | .relock _ => True
  | _ => False

end RecvLabel

namespace Channel

variable {κ ρ σ : Type} [DecidableEq κ] {F : Framer ρ} {P : FrameParser σ}
  {valid : Frame → Prop} {rel : σ → List UInt8 → Prop} {s s' : Channel κ Unit ρ σ}
  {l : ChannelLabel κ Unit}

structure Draining (F : Framer ρ) (valid : Frame → Prop) (rel : σ → List UInt8 → Prop)
    (s : Channel κ Unit ρ σ) : Prop where
  flowing : s.Flowing F valid rel
  merging : ∀ c r ol, (s.outs c).pc = .merge r ol → (s.outs c).ol.list.empty = true

def Works (s : Channel κ Unit ρ σ) : ChannelLabel κ Unit → Prop
  | .out c l => (s.outs c).Works l
  | .read c _ cnt => s.recv.Tidy (.read c cnt) ∧ s.recv.owner.reading ≠ stopOp
  | .event _ _ => True
  | .deliver c => s.recv.Tidy (.deliver c)
  | .consume l => l.Fetches
  | _ => False

-- a rio watcher whose worker has not run the stop job yet reads during a pause
def Moves (s : Channel κ Unit ρ σ) : ChannelLabel κ Unit → Prop
  | .read c _ cnt => s.recv.Tidy (.read c cnt)
  | l => s.Works l

omit [DecidableEq κ] in
theorem Works.moves (h : s.Works l) : s.Moves l := by
  cases l with
  | read c nread cnt => exact h.1
  | _ => exact h

theorem Draining.writer (h : s.Draining F valid rel) (c : κ) : (s.outs c).Draining F :=
  ⟨(h.flowing.writes c).linked, (h.flowing.writes c).whole, (h.flowing.writes c).phase,
    (h.flowing.writes c).alive, h.merging c⟩

theorem works_frame {conn : Conn ρ} {m : ConnLabel} (h : conn.Works m) : m.frame = none := by
  cases m with
  | insert => exact h.elim
  | _ => rfl

omit [DecidableEq κ] in
theorem Moves.flows (h : s.Moves l) : s.Flows valid l := by
  cases l with
  | out c m => exact ⟨Conn.works_healthy h, by simp [works_frame h]⟩
  | read c nread cnt => exact h
  | deliver c => exact h
  | hangup | nomem => exact h
  | _ => trivial

theorem Draining.step (hF : F.Lawful) (hP : P.Tracks Frame.bytes valid rel)
    (h : s.Draining F valid rel) (hw : s.Moves l) (hs : s.step F P l = some s') :
    s'.Draining F valid rel := by
  refine ⟨flowing_step hF hP h.flowing hw.flows hs, fun c => ?_⟩
  rcases outs_step hs with ho | ⟨d, m, conn, rfl, ht, ho⟩
  · rw [ho]
    exact h.merging c
  · rw [ho]
    rcases eq_or_ne c d with rfl | hcd
    · rw [Function.update_self]
      exact ((h.writer c).step hF hw ht).merging
    · rw [Function.update_of_ne hcd]
      exact h.merging c

end Channel

namespace RecvPc

def busy : RecvPc → Nat
  | .idle => 0
  | .parsing _ _ _ _ => 1

@[simp] theorem busy_idle : idle.busy = 0 := rfl

@[simp] theorem busy_parsing (garbage cnt : Int) (queue : Queue Addr) (fs : List Frame) :
    (parsing garbage queue cnt fs).busy = 1 := rfl

theorem busy_of_ne {pc : RecvPc} (h : pc ≠ .idle) : pc.busy = 1 := by
  cases pc with
  | idle => exact absurd rfl h
  | parsing => rfl

end RecvPc

namespace GetPc

def steps : GetPc → Nat
  | .idle => 4
  | .waiting => 3
  | .ready => 2
  | .relock => 1

end GetPc

namespace Recv

variable {κ : Type} [DecidableEq κ] {s s' : Recv κ Unit} {l : RecvLabel κ Unit}

omit [DecidableEq κ] in
theorem steps_take {a : Addr} {xs : List Addr} (h : s.Holding (a :: xs)) :
    ((s.take ()).consumers ()).steps = 4 ∧
      (s.take ()).returned.length = s.returned.length + 1 := by
  obtain ⟨events, -, ht⟩ := take_spec h.events ()
  obtain ⟨fr, hfr⟩ := Option.isSome_iff_exists.mp (h.alive a (by simp))
  rw [ht]
  exact ⟨by simp [goto, GetPc.steps], by simp [hfr]⟩

theorem fetches_lower (h : s.Steady) (hl : l.Fetches) (hs : s.step l = some s') :
    (s'.consumers ()).steps + 5 * s.returned.length <
      (s.consumers ()).steps + 5 * s'.returned.length := by
  obtain ⟨xs, loc, hapart⟩ := h.apart
  have hheld := hapart.holding
  have htake : s.owner.events.empty = false → ((s.take ()).consumers ()).steps + 5 * s.returned.length
      < 1 + 5 * (s.take ()).returned.length := by
    intro he
    cases xs with
    | nil => simp [hheld.events.empty_eq.mpr rfl] at he
    | cons a xs =>
      obtain ⟨hstep, hret⟩ := steps_take hheld
      omega
  have hgoto : ∀ pc : GetPc, ((s.goto () pc).consumers ()).steps = pc.steps := by
    simp [goto]
  unfold step at hs
  rw [if_neg (by simp [h.sound])] at hs
  cases l with
  | get t donwait =>
    obtain rfl : donwait = false := hl
    simp only [get] at hs
    split at hs
    case h_2 => cases hs
    case h_1 hp =>
      rw [hp]
      split at hs <;> cases hs
      case isTrue =>
        change ((s.goto () .waiting).consumers ()).steps + _ < _
        rw [hgoto]
        exact Nat.add_lt_add_right (by decide) _
      case isFalse he => exact (htake (by simpa using he)).trans (Nat.add_lt_add_right (by decide) _)
  | efdReady t =>
    simp only [efdReady] at hs
    split at hs
    case h_2 => cases hs
    case h_1 hp =>
      split at hs <;> cases hs
      rw [hp]
      change ((s.goto () .ready).consumers ()).steps + _ < _
      rw [hgoto]
      exact Nat.add_lt_add_right (by decide) _
  | unsignal t =>
    simp only [unsignal] at hs
    split at hs <;> cases hs
    rename_i hp
    rw [hp]
    change ((s.goto () .relock).consumers ()).steps + _ < _
    rw [hgoto]
    exact Nat.add_lt_add_right (by decide) _
  | relock t =>
    simp only [relock] at hs
    split at hs
    case h_2 => cases hs
    case h_1 hp =>
      have hsync := h.synced
      rw [hp] at hsync
      cases hsync with
      | relock _ _ he =>
        rw [if_neg (by simp [he])] at hs
        cases hs
        rw [hp]
        exact htake he
  | read | event | deliver | timeout | destroy => exact hl.elim

theorem fetched (h : s.Steady) (hs : ∀ l, l.consumes = true → l.Fetches → s.step l = none) :
    s.consumers () = .waiting ∧ s.owner.events.empty = true := by
  simp only [step, h.sound, Bool.false_eq_true, if_false] at hs
  cases hp : s.consumers () with
  | idle =>
    have hnone := hs (.get () false) rfl rfl
    simp only [get, hp] at hnone
    split at hnone <;> cases hnone
  | waiting =>
    have hnone := hs (.efdReady ()) rfl trivial
    simp only [efdReady, hp] at hnone
    have hefd : ¬ 0 < s.owner.efd := by
      intro hpos
      simp [hpos] at hnone
    refine ⟨rfl, ?_⟩
    cases h.alert hp with
    | signalled hpos => exact absurd hpos hefd
    | armed _ he => exact he
  | ready =>
    have hnone := hs (.unsignal ()) rfl trivial
    simp [unsignal, hp] at hnone
  | relock =>
    have hnone := hs (.relock ()) rfl trivial
    simp only [relock, hp] at hnone
    split at hnone <;> cases hnone

omit [DecidableEq κ] in
theorem reading_of_empty (h : s.Steady) (he : s.owner.events.empty = true) :
    s.owner.reading ≠ stopOp := by
  obtain ⟨xs, loc, hapart⟩ := h.apart
  have hheld := hapart.holding
  obtain rfl := hheld.events.empty_eq.mp he
  have hsize : s.owner.rcvqsz = 0 := hheld.size
  intro hstop
  have hfull := h.paused.held hstop
  have hpos := h.paused.positive
  omega

theorem can_read (h : s.fault = false) {c : κ} (hp : s.handlers c = .idle) (cnt : Int) :
    s.step (.read c cnt) ≠ none := by
  simp [step, h, read, hp]

theorem can_event (h : s.fault = false) {c : κ} {garbage cnt : Int} {queue : Queue Addr}
    {batch : List Frame} (hp : s.handlers c = .parsing garbage queue cnt batch) {a : Addr}
    (ha : s.frames a = none) (fr : Frame) : s.step (.event c a fr) ≠ none := by
  simp [step, h, event, hp, queueEvent, ha, Queue.push]

theorem can_deliver (h : s.fault = false) {c : κ} (hp : s.handlers c ≠ .idle) :
    s.step (.deliver c) ≠ none := by
  cases hc : s.handlers c with
  | idle => exact absurd hc hp
  | parsing => simp [step, h, deliver, hc]

end Recv

namespace Channel

variable {κ ρ σ : Type} [DecidableEq κ] {F : Framer ρ} {P : FrameParser σ}
  {valid : Frame → Prop} {rel : σ → List UInt8 → Prop} {s s' : Channel κ Unit ρ σ}
  {l : ChannelLabel κ Unit} {c : κ}

def owed (s : Channel κ Unit ρ σ) (c : κ) : Nat :=
  (s.outs c).backlog + 4 * ((s.outs c).wanted.length - (s.ins c).taken) +
    8 * ((s.outs c).accepted.length - ((of c s.log).length + (s.recv.handlers c).batch.length)) +
    6 * (s.recv.handlers c).batch.length + (s.recv.handlers c).busy

def load [Fintype κ] (s : Channel κ Unit ρ σ) : Nat :=
  (∑ c, s.owed c) + 5 * (s.log.length - s.recv.returned.length) + (s.recv.consumers ()).steps

theorem Flowing.taken_le (h : s.Flowing F valid rel) (c : κ) :
    (s.outs c).kernel.length ≤ (s.outs c).wanted.length := by
  obtain ⟨xs, ys, hj⟩ := h.joined
  exact (hj.linked c).sent.length_le

theorem Flowing.received_le (h : s.Flowing F valid rel) (c : κ) :
    (of c s.log).length + (s.recv.handlers c).batch.length + (s.ins c).inFrames.length ≤
      (s.outs c).accepted.length := by
  obtain ⟨xs, ys, hj⟩ := h.joined
  have hle := (whole_le Frame.bytes (s.outs c).accepted (s.ins c).taken).length_le
  rw [← (hj.reads c).whole, received, List.length_append, List.length_append] at hle
  exact hle

theorem owed_congr {d : κ} (ho : s'.outs d = s.outs d) (hi : (s'.ins d).taken = (s.ins d).taken)
    (hl : of d s'.log = of d s.log) (hh : s'.recv.handlers d = s.recv.handlers d) :
    s'.owed d = s.owed d := by
  rw [owed, owed, ho, hi, hl, hh]

theorem works_totals {conn conn' : Conn ρ} {m : ConnLabel} (hw : conn.Works m)
    (hs : conn.step F m = some conn') :
    conn'.wanted = conn.wanted ∧ conn'.accepted = conn.accepted := by
  have hkeep : conn'.accepted = conn.accepted := by
    cases Conn.effect_of_step hs with
    | insert | zombie | wouldBlock | failed => exact hw.elim
    | _ => rfl
  exact ⟨by rw [Conn.wanted, Conn.wanted, hkeep], hkeep⟩

def queued (s : Channel κ Unit ρ σ) : Nat := s.log.length - s.recv.returned.length

theorem load_local [Fintype κ] (hc : s'.recv.consumers = s.recv.consumers)
    (ho : ∀ d, d ≠ c → s'.owed d = s.owed d)
    (hlt : s'.owed c + 5 * s'.queued < s.owed c + 5 * s.queued) : s'.load < s.load := by
  have hsum := sum_local ho
  simp only [load, hc]
  simp only [queued] at hlt
  omega

omit [DecidableEq κ] in
theorem Untouched.queued (h : s.Untouched s') (hl : s'.log = s.log) : s'.queued = s.queued := by
  rw [Channel.queued, Channel.queued, h.returned, hl]

theorem lowers_out [Fintype κ] {m : ConnLabel} (hF : F.Lawful) (h : s.Draining F valid rel)
    (hw : (s.outs c).Works m) (hs : s.out F c m = some s') : s'.load < s.load := by
  obtain ⟨conn, ht, rfl⟩ := Option.map_eq_some_iff.mp hs
  have hlt := (h.writer c).lowers hF hw ht
  obtain ⟨hwant, hacc⟩ := works_totals hw ht
  refine load_local rfl (c := c) (fun d hd => ?_) ?_
  · simp [owed, hd]
  · simp only [owed, queued, Function.update_self, hwant, hacc]
    omega

theorem lowers_read [Fintype κ] {nread : Nat} {cnt : Int} (h : s.Draining F valid rel)
    (h' : s'.Flowing F valid rel) (hs : s.read P c nread cnt = some s') : s'.load < s.load := by
  obtain ⟨xs, ys, hj⟩ := h'.joined
  obtain ⟨⟨hpos, hle, hidle⟩, hu, ho, hl, hh, parser, more, hi⟩ := read_change (hj.reads c).parses hs
  have hkernel := h.flowing.taken_le c
  refine load_local hu.consumers (c := c) (fun d hd => ?_) ?_
  · exact owed_congr (by rw [ho]) (by simp [hi, hd]) (by rw [hl]) (by simp [hh, hd])
  · rw [hu.queued hl]
    simp only [owed, ho, hl, hi, hh, hidle, Function.update_self, RecvPc.batch_parsing,
      RecvPc.batch_idle, RecvPc.busy_idle, RecvPc.busy_parsing, List.length_nil]
    omega

theorem lowers_event [Fintype κ] {a : Addr} (h : s.Draining F valid rel)
    (hs : s.event c a = some s') : s'.load < s.load := by
  obtain ⟨hu, ho, hl, fr, frames, garbage, queue, cnt, batch, queue', hin, hp, hi, hh⟩ := event_change hs
  have hroom := h.flowing.received_le c
  rw [hp, hin, RecvPc.batch_parsing, List.length_cons] at hroom
  refine load_local hu.consumers (c := c) (fun d hd => ?_) ?_
  · exact owed_congr (by rw [ho]) (by simp [hi, hd]) (by rw [hl]) (by simp [hh, hd])
  · rw [hu.queued hl]
    simp only [owed, ho, hl, hi, hh, hp, Function.update_self, RecvPc.batch_parsing, RecvPc.busy_parsing,
      List.length_append, List.length_singleton]
    omega

theorem Flowing.returned_le (h : s.Flowing F valid rel) :
    s.recv.returned.length ≤ s.log.length := by
  obtain ⟨xs, ys, hj⟩ := h.joined
  obtain ⟨es, loc, hapart⟩ := hj.apart
  obtain ⟨seen, rest, hs⟩ := served hj.log hapart.holding
  rw [hs.log, hs.returned, List.length_map, List.length_append]
  exact Nat.le_add_right ..

theorem lowers_deliver [Fintype κ] (h : s.Draining F valid rel) (hs : s.deliver c = some s') :
    s'.load < s.load := by
  obtain ⟨hu, ho, hi, -, hl, hh, hne⟩ := deliver_change hs
  have hq := h.flowing.returned_le
  have hbusy := RecvPc.busy_of_ne hne
  refine load_local hu.consumers (c := c) (fun d hd => ?_) ?_
  · exact owed_congr (by rw [ho]) (by rw [hi]) (by simp [hl, of_append, of_batch, hd])
      (by simp [hh, hd])
  · simp only [owed, queued, ho, hi, hl, hh, hu.returned, hbusy, Function.update_self, of_append,
      of_batch, if_true, RecvPc.batch_idle, RecvPc.busy_idle, List.length_append, List.length_map,
      List.length_nil]
    omega

theorem lowers_consume [Fintype κ] {m : RecvLabel κ Unit} (h : s.Draining F valid rel)
    (h' : s'.Flowing F valid rel) (hm : m.Fetches) (hc : m.consumes = true) {recv : Recv κ Unit}
    (ht : s.recv.step m = some recv) (hs : s' = { s with recv := recv }) : s'.load < s.load := by
  have hlt := Recv.fetches_lower h.flowing.steady hm ht
  have hle := h'.returned_le
  obtain ⟨hh, -, -⟩ := Recv.consume_frame hc ht
  subst hs
  have howed : ∀ d, owed { s with recv := recv } d = s.owed d := fun d =>
    owed_congr rfl rfl rfl (congrFun hh d)
  simp only [load, howed]
  change recv.returned.length ≤ s.log.length at hle
  omega

theorem Draining.lowers [Fintype κ] (hF : F.Lawful) (hP : P.Tracks Frame.bytes valid rel)
    (h : s.Draining F valid rel) (hw : s.Moves l) (hs : s.step F P l = some s') :
    s'.load < s.load := by
  have h' := (h.step hF hP hw hs).flowing
  cases l with
  | out c m => exact lowers_out hF h hw hs
  | read c nread cnt => exact lowers_read h h' hs
  | event c a => exact lowers_event h hs
  | deliver c => exact lowers_deliver h hs
  | consume m =>
    simp only [Channel.step] at hs
    split at hs
    · rename_i hc
      obtain ⟨recv, ht, rfl⟩ := Option.map_eq_some_iff.mp hs
      exact lowers_consume h h' hw hc ht rfl
    · cases hs
  | hangup | nomem => exact hw.elim

theorem stuck_recv (hs : Stuck (step F P) Works s) {m : RecvLabel κ Unit} (hc : m.consumes = true)
    (hm : m.Fetches) : s.recv.step m = none := by
  have hnone := hs (.consume m) hm
  simp only [step, hc, if_true] at hnone
  exact Option.map_eq_none_iff.mp hnone

theorem stuck_out (hs : Stuck (step F P) Works s) (c : κ) :
    Stuck (Conn.step F) Conn.Works (s.outs c) :=
  fun m hm => Option.map_eq_none_iff.mp (hs (.out c m) hm)

theorem stuck_idle (h : s.Flowing F valid rel) (hs : Stuck (step F P) Works s)
    (hwait : s.recv.consumers () = .waiting) (c : κ) : s.recv.handlers c = .idle := by
  by_contra hne
  cases hi : (s.ins c).inFrames with
  | nil =>
    have hnone := hs (.deliver c) fun _ => hwait
    simp only [step, Channel.deliver, hi, handOver] at hnone
    exact Recv.can_deliver h.steady.sound hne (Option.map_eq_none_iff.mp hnone)
  | cons fr frames =>
    obtain ⟨n, hn⟩ := h.steady.bounded
    have hnone := hs (.event c n) trivial
    simp only [step, Channel.event, hi] at hnone
    cases hp : s.recv.handlers c with
    | idle => exact hne hp
    | parsing =>
      exact Recv.can_event h.steady.sound hp (hn n (Nat.le_refl n)) fr
        (Option.map_eq_none_iff.mp hnone)

theorem stuck_taken (h : s.Flowing F valid rel) (hs : Stuck (step F P) Works s)
    (he : s.recv.owner.events.empty = true) {c : κ} (hidle : s.recv.handlers c = .idle) :
    (s.ins c).taken = (s.outs c).kernel.length := by
  obtain ⟨xs, ys, hj⟩ := h.joined
  have hle := (hj.reads c).taken
  by_contra hne
  have hlen : (s.chunk c 1).length = 1 := by
    rw [chunk, List.length_take, List.length_drop]
    omega
  have hnone := hs (.read c 1 0) ⟨rfl, Recv.reading_of_empty h.steady he⟩
  simp only [step, Channel.read] at hnone
  rw [if_pos ⟨h.up c, Nat.le_refl 1, by decide, hlen⟩] at hnone
  exact Recv.can_read h.steady.sound hidle 0 (Option.map_eq_none_iff.mp hnone)

theorem Draining.rested (hO : F.Offers) (h : s.Draining F valid rel)
    (hs : Stuck (Channel.step F P) Works s) : s.Rested := by
  obtain ⟨hwait, he⟩ := Recv.fetched h.flowing.steady fun l hc hm => stuck_recv hs hc hm
  have hidle := stuck_idle h.flowing hs hwait
  have hout := fun c => (h.writer c).stuck hO (stuck_out hs c)
  exact {
    held := fun c => by rw [(hout c).pc]; rfl
    sent := fun c => (hout c).empty
    taken := fun c => stuck_taken h.flowing hs he (hidle c)
    parsed := fun c => h.flowing.parsed c (hidle c)
    handled := fun c => by rw [hidle c]; rfl
    events := he }

def Emptied (s t : Channel κ Unit ρ σ) : Prop :=
  ∃ seen, t.recv.returned = seen.map Prod.snd ∧ ∀ c, of c seen = (s.outs c).accepted

theorem accepted_moves (hw : s.Moves l) (hs : s.step F P l = some s') (c : κ) :
    (s'.outs c).accepted = (s.outs c).accepted := by
  rcases outs_step hs with ho | ⟨d, m, conn, rfl, ht, ho⟩
  · rw [ho]
  · rw [ho]
    rcases eq_or_ne c d with rfl | hcd
    · rw [Function.update_self]
      exact (works_totals hw ht).2
    · rw [Function.update_of_ne hcd]

structure Finishing (F : Framer ρ) (valid : Frame → Prop) (rel : σ → List UInt8 → Prop)
    (s t : Channel κ Unit ρ σ) : Prop where
  draining : t.Draining F valid rel
  accepted : ∀ c, (t.outs c).accepted = (s.outs c).accepted

theorem Finishing.step (hF : F.Lawful) (hP : P.Tracks Frame.bytes valid rel)
    {t t' : Channel κ Unit ρ σ} (h : s.Finishing F valid rel t) (hw : t.Moves l)
    (ht : t.step F P l = some t') : s.Finishing F valid rel t' :=
  ⟨h.draining.step hF hP hw ht, fun c => (accepted_moves hw ht c).trans (h.accepted c)⟩

theorem Finishing.emptied (hO : F.Offers) {t : Channel κ Unit ρ σ} (h : s.Finishing F valid rel t)
    (ht : Stuck (Channel.step F P) Works t) : s.Emptied t := by
  obtain ⟨xs, ys, hj⟩ := h.draining.flowing.joined
  obtain ⟨seen, hseen, hof⟩ := hj.complete (h.draining.rested hO ht)
  exact ⟨seen, hseen, fun c => (hof c).trans (h.accepted c)⟩

theorem measured [Fintype κ] (hF : F.Lawful) (hP : P.Tracks Frame.bytes valid rel) :
    Measured (step F P) (s.Finishing F valid rel) Moves load where
  keeps _ _ _ h hw ht := h.step hF hP hw ht
  lowers _ _ _ h hw ht := h.draining.lowers hF hP hw ht

theorem channel_drains [Fintype κ] (hF : F.Lawful) (hO : F.Offers)
    (hP : P.Tracks Frame.bytes valid rel) {rcvhwm : Int} (hw : 0 < rcvhwm)
    {tr : List (Channel κ Unit ρ σ × ChannelLabel κ Unit)}
    (hr : Run (step F P) (init F P rcvhwm) tr s) (hc : Steps (Flows valid) tr)
    (hm : ∀ c r ol, (s.outs c).pc = .merge r ol → (s.outs c).ol.list.empty = true) :
    (∃ more t, Run (step F P) s more t ∧ Steps Works more ∧ s.Emptied t) ∧
      ∀ more t, Run (step F P) s more t → Steps Moves more →
        more.length ≤ s.load ∧ (Stuck (step F P) Works t → s.Emptied t) := by
  have hflow := hr.invariant (flowing_init hF hP hw)
    (fun _ _ _ h hl hs => flowing_step hF hP h hl hs) hc
  have h : s.Finishing F valid rel s := ⟨⟨hflow, hm⟩, fun _ => rfl⟩
  have hmeasured := measured hF hP (s := s)
  have hworks := hmeasured.mono fun _ _ hl => Works.moves hl
  refine ⟨hworks.ends (fun t ht hstuck => ht.emptied hO hstuck) h,
    fun more t ht hmore => ⟨?_, fun hstuck => ?_⟩⟩
  · exact le_of_add_le_left (hmeasured.length_le h ht hmore)
  · exact (ht.invariant h hmeasured.keeps hmore).emptied hO hstuck

instance (valid : Frame → Prop) [DecidablePred valid] (s : Channel κ Unit ρ σ) :
    (l : ChannelLabel κ Unit) → Decidable (s.Flows valid l)
  | .out c l => inferInstanceAs (Decidable ((Conn.Healthy l ∧ (s.outs c).Timely l ∧
      (s.outs c).Calm l) ∧ ∀ fr ∈ l.frame, valid fr))
  | .read _ _ cnt => inferInstanceAs (Decidable (cnt = 0))
  | .deliver _ => inferInstanceAs (Decidable (s.recv.owner.wantEfd = true →
      s.recv.consumers () = .waiting))
  | .hangup _ => isFalse id
  | .nomem _ => isFalse id
  | .event .. => isTrue trivial
  | .consume _ => isTrue trivial

def halfway : List (ChannelLabel Bool Unit) :=
  [.consume (.get () false), .out true (.insert 1 (payload 65)), .out true .startWrite,
    .out true .ready, .out true .steal, .out true (.writev (.wrote 3)), .read true 3 0,
    .out false (.insert 1 (payload 66)), .deliver true, .out true (.insert 2 (payload 67))]

def interrupted : Channel Bool Unit Nat (List UInt8) :=
  final (step listFramer sizedParser) (init listFramer sizedParser 1000) halfway

theorem channel_drains_interrupted :
    (∃ more t, Run (step listFramer sizedParser) interrupted more t ∧ Steps Works more ∧
      interrupted.Emptied t) ∧
      ∀ more t, Run (step listFramer sizedParser) interrupted more t → Steps Moves more →
        more.length ≤ interrupted.load ∧
          (Stuck (step listFramer sizedParser) Works t → interrupted.Emptied t) :=
  channel_drains listFramer_lawful listFramer_offers SizedParser.splits.tracks (by decide)
    (run_final (k := halfway) (by decide +kernel)) (by decide +kernel) fun c _ _ hp => by
      cases c <;> cases hp

end Channel

end Fsock
