import Fsock.Lib.Run
import Fsock.Core.WriterOrder
import Fsock.Core.ListFramer
import Fsock.Core.SizedParser

namespace Fsock

open Transition StreamCodec

def ConnLabel.frame : ConnLabel → Option Frame
  | .insert _ fr => some fr
  | _ => none

namespace Conn

variable {ρ : Type} {F : Framer ρ} {c c' : Conn ρ} {l : ConnLabel} {xs ys : List Addr}

structure Grows (c c' : Conn ρ) : Prop where
  kernel : c.kernel <+: c'.kernel
  accepted : c.accepted <+: c'.accepted

theorem grows_step (hs : c.step F l = some c') : c.Grows c' := by
  have hr : ∀ {d : Conn ρ}, d.kernel = c.kernel → d.accepted = c.accepted → c.Grows d :=
    fun hk ha => ⟨hk ▸ List.prefix_refl _, ha ▸ List.prefix_refl _⟩
  cases effect_of_step hs with
  | insert hi => exact ⟨hi.kernel ▸ List.prefix_refl _, hi.accepted ▸ List.prefix_append ..⟩
  | wrote => exact ⟨List.prefix_append .., List.prefix_refl _⟩
  | _ => exact hr rfl rfl

theorem accepted_step (hs : c.step F l = some c') {fr : Frame} (hf : fr ∈ c'.accepted) :
    fr ∈ c.accepted ∨ fr ∈ l.frame := by
  cases effect_of_step hs with
  | @insert li gr c' hi =>
    rw [hi.accepted, List.mem_append, List.mem_singleton] at hf
    rcases hf with hf | rfl
    · exact .inl hf
    · exact .inr rfl
  | _ => exact .inl hf

theorem Linked.sent (h : c.Linked F xs ys) : c.kernel <+: wire Frame.bytes c.accepted := by
  have ho := h.order
  rw [List.append_assoc] at ho
  exact ⟨_, ho⟩

theorem Linked.emptied (h : c.Linked F xs ys) (hp : c.pc.held = none)
    (he : c.ol.list.empty = true) : c.kernel = wire Frame.bytes c.accepted := by
  have ho := h.order
  obtain rfl := h.out.holds.empty_eq.mp he
  have hk : c.kernel = c.wanted := by simpa [heldBytes, hp, Framer.unsent_nil] using ho
  exact hk

end Conn

namespace RecvPc

@[simp] theorem batch_idle : idle.batch = [] := rfl

@[simp] theorem batch_parsing (garbage cnt : Int) (queue : Queue Addr) (fs : List Frame) :
    (parsing garbage queue cnt fs).batch = fs := rfl

end RecvPc

namespace Recv

variable {κ τ : Type} [DecidableEq κ] [DecidableEq τ] {s s' : Recv κ τ} {l : RecvLabel κ τ} {c : κ}

def takes (s : Recv κ τ) : RecvLabel κ τ → Bool
  | .get _ _ => !s.owner.events.empty
  | .relock _ => !s.owner.events.empty
  | _ => false

theorem consume_frame (hl : l.consumes = true) (hs : s.step l = some s') :
    s'.handlers = s.handlers ∧ s'.delivered = s.delivered ∧
      if s.takes l then ∃ t, s' = s.take t else s'.returned = s.returned := by
  have ht : ∀ t, (s.take t).handlers = s.handlers ∧ (s.take t).delivered = s.delivered := by
    intro t
    rw [take]
    split <;> exact ⟨rfl, rfl⟩
  simp only [step] at hs
  split at hs
  case isTrue => cases hs
  case isFalse =>
    cases l with
    | read | event | deliver => cases hl
    | get t donwait =>
      simp only [get] at hs
      split at hs
      case h_2 => cases hs
      case h_1 =>
        split at hs
        case isTrue he => split at hs <;> cases hs <;> simp [takes, goto, he]
        case isFalse he =>
          cases hs
          exact ⟨(ht t).1, (ht t).2, by simp [takes, he]⟩
    | efdReady t | timeout t =>
      simp only [efdReady, timeout] at hs
      split at hs
      · split at hs <;> cases hs
        exact ⟨rfl, rfl, rfl⟩
      · cases hs
    | unsignal t =>
      simp only [unsignal] at hs
      split at hs <;> cases hs
      exact ⟨rfl, rfl, rfl⟩
    | relock t =>
      simp only [relock] at hs
      split at hs
      case h_2 => cases hs
      case h_1 =>
        split at hs <;> cases hs
        case isTrue he => simp [takes, he]
        case isFalse he => exact ⟨(ht t).1, (ht t).2, by simp [takes, he]⟩
    | destroy a =>
      simp only [destroy] at hs
      split at hs <;> cases hs
      exact ⟨rfl, rfl, rfl⟩

theorem read_frame {cnt : Int} (hs : s.step (.read c cnt) = some s') :
    (s.handlers c).batch = [] ∧
      s'.handlers = Function.update s.handlers c (.parsing cnt .init cnt []) ∧
      s'.delivered = s.delivered ∧ s'.returned = s.returned := by
  simp only [step, read] at hs
  split at hs
  case isTrue => cases hs
  case isFalse =>
    split at hs
    case h_2 => cases hs
    case h_1 hp =>
      cases hs
      exact ⟨by rw [hp]; rfl, rfl, rfl, rfl⟩

theorem event_frame {a : Addr} {fr : Frame} (hs : s.step (.event c a fr) = some s') :
    ∃ pc, s'.handlers = Function.update s.handlers c pc ∧
      pc.batch = (s.handlers c).batch ++ [fr] ∧ s'.delivered = s.delivered ∧
      s'.returned = s.returned := by
  simp only [step, event] at hs
  split at hs
  case isTrue => cases hs
  case isFalse =>
    split at hs
    case h_2 => cases hs
    case h_1 garbage queue cnt batch hp =>
      obtain ⟨x, -, rfl⟩ := Option.map_eq_some_iff.mp hs
      exact ⟨_, rfl, by rw [hp]; rfl, rfl, rfl⟩

theorem deliver_frame (hs : s.step (.deliver c) = some s') :
    s'.handlers = Function.update s.handlers c .idle ∧
      s'.delivered = s.delivered ++ (s.handlers c).batch ∧ s'.returned = s.returned := by
  simp only [step] at hs
  split at hs
  case isTrue => cases hs
  case isFalse =>
    obtain ⟨garbage, queue, cnt, batch, hp, rfl⟩ := deliver_spec hs
    obtain ⟨-, -, hh, -, hd, hr, -⟩ := s.append_same queue cnt
    rw [hp]
    exact ⟨congrArg (Function.update · c _) hh, congrArg (· ++ batch) hd, hr⟩

end Recv

namespace Channel

variable {κ τ ρ σ : Type} [DecidableEq κ] {F : Framer ρ} {P : FrameParser σ}
  {valid : Frame → Prop} {rel : σ → List UInt8 → Prop} {s s' : Channel κ τ ρ σ}
  {l : ChannelLabel κ τ} {xs ys : κ → List Addr}

def of (c : κ) (log : List (κ × Frame)) : List Frame := (log.filter fun x => x.1 = c).map Prod.snd

def received (s : Channel κ τ ρ σ) (c : κ) : List Frame :=
  of c s.log ++ (s.recv.handlers c).batch ++ (s.ins c).inFrames

def Faultless (valid : Frame → Prop) (s : Channel κ τ ρ σ) : ChannelLabel κ τ → Prop
  | .out c l => Conn.NoError l ∧ (s.outs c).Calm l ∧ ∀ fr ∈ l.frame, valid fr
  | .deliver c => (s.recv.handlers c).garbage = 0
  | .nomem _ => False
  | _ => True

structure Served (s : Channel κ τ ρ σ) (seen rest : List (κ × Frame)) (es : List Addr) : Prop where
  log : s.log = seen ++ rest
  returned : s.recv.returned = seen.map Prod.snd
  events : Queue.Lists s.recv.next s.recv.owner.events es
  frames : es.map s.recv.frames = rest.map fun x => some x.2

def Delivers (s : Channel κ τ ρ σ) : Prop :=
  (∀ c, (s.ins c).down ≠ some .parseError) ∧ ∃ seen rest es, s.Served seen rest es ∧
    ∀ c, of c seen ++ of c rest ++ (s.recv.handlers c).batch ++ (s.ins c).inFrames
      <+: (s.outs c).accepted

structure Rested (s : Channel κ τ ρ σ) : Prop where
  held : ∀ c, (s.outs c).pc.held = none
  sent : ∀ c, (s.outs c).ol.list.empty = true
  taken : ∀ c, (s.ins c).taken = (s.outs c).kernel.length
  parsed : ∀ c, (s.ins c).inFrames = []
  handled : ∀ c, (s.recv.handlers c).batch = []
  events : s.recv.owner.events.empty = true

def Complete (s : Channel κ τ ρ σ) : Prop :=
  s.Rested → ∃ seen, s.recv.returned = seen.map Prod.snd ∧ ∀ c, of c seen = (s.outs c).accepted

structure Reads (valid : Frame → Prop) (rel : σ → List UInt8 → Prop) (conn : Conn ρ) (i : Inlet σ)
    (got : List Frame) : Prop where
  sound : ∀ fr ∈ conn.accepted, valid fr
  taken : i.taken ≤ conn.kernel.length
  parser : rel i.parser (conn.kernel.take i.taken)
  whole : got = whole Frame.bytes conn.accepted i.taken
  parses : i.down ≠ some .parseError

structure Joined (F : Framer ρ) (valid : Frame → Prop) (rel : σ → List UInt8 → Prop)
    (s : Channel κ τ ρ σ) (xs ys : κ → List Addr) : Prop where
  linked : ∀ c, (s.outs c).Linked F (xs c) (ys c)
  reads : ∀ c, Reads valid rel (s.outs c) (s.ins c) (s.received c)
  log : s.log.map Prod.snd = s.recv.delivered
  apart : ∃ es loc, s.recv.Apart es loc

theorem of_append (c : κ) (log more : List (κ × Frame)) :
    of c (log ++ more) = of c log ++ of c more := by
  rw [of, List.filter_append, List.map_append, of, of]

theorem of_batch (c d : κ) (batch : List Frame) :
    of d (batch.map fun fr => (c, fr)) = if d = c then batch else [] := by
  rw [of, List.filter_map]
  split
  case isTrue h =>
    subst h
    simp [Function.comp_def]
  case isFalse h =>
    have hn : ¬ c = d := fun he => h he.symm
    simp [Function.comp_def, hn]

theorem Reads.grow {conn conn' : Conn ρ} {i : Inlet σ} {got : List Frame} {zs ws : List Addr}
    (h : Reads valid rel conn i got) (hl : conn.Linked F zs ws) (hg : conn.Grows conn')
    (hv : ∀ fr ∈ conn'.accepted, valid fr) : Reads valid rel conn' i got := by
  obtain ⟨more, hk⟩ := hg.kernel
  obtain ⟨frames, ha⟩ := hg.accepted
  have ht := h.taken
  constructor
  · exact hv
  · exact ht.trans hg.kernel.length_le
  · rw [← hk, List.take_append_of_le_length ht]
    exact h.parser
  · rw [← ha, whole_append (fun fr _ => fr.nonempty) (ht.trans hl.sent.length_le)]
    exact h.whole
  · exact h.parses

theorem joined_init (hP : P.Tracks Frame.bytes valid rel) (hF : F.Lawful) (rcvhwm : Int) :
    (init F P rcvhwm : Channel κ τ ρ σ).Joined F valid rel (fun _ => []) fun _ => [] where
  linked _ := Conn.linked_init hF
  reads _ := ⟨by simp [init, Conn.init], Nat.le_refl _, hP.init, rfl, nofun⟩
  log := rfl
  apart := ⟨_, _, Recv.apart_init rcvhwm⟩

theorem Joined.out (hF : F.Lawful) (h : s.Joined F valid rel xs ys) {c : κ} {m : ConnLabel}
    (hc : s.Faultless valid (.out c m)) (hs : s.out F c m = some s') :
    ∃ xs' ys', s'.Joined F valid rel xs' ys' := by
  obtain ⟨conn, ht, rfl⟩ := Option.map_eq_some_iff.mp hs
  obtain ⟨zs, ws, hl, -⟩ := Conn.follows_step hF (h.linked c) hc.1 hc.2.1 ht
  refine ⟨Function.update xs c zs, Function.update ys c ws, fun d => ?_, fun d => ?_, h.log, h.apart⟩
  · rcases eq_or_ne d c with rfl | hd
    · simpa using hl
    · simpa [hd] using h.linked d
  · rcases eq_or_ne d c with rfl | hd
    · have hv : ∀ fr ∈ conn.accepted, valid fr := by
        intro fr hf
        rcases Conn.accepted_step ht hf with hf | hf
        · exact (h.reads d).sound fr hf
        · exact hc.2.2 fr hf
      have hr := (h.reads d).grow (h.linked d) (Conn.grows_step ht) hv
      simpa [received] using hr
    · simpa [hd, received] using h.reads d

theorem Joined.change (h : s.Joined F valid rel xs ys) {c : κ} (ho : s'.outs = s.outs)
    (hr : Reads valid rel (s.outs c) (s'.ins c) (s'.received c))
    (hd : ∀ d, d ≠ c → s'.ins d = s.ins d ∧ s'.received d = s.received d)
    (hl : s'.log.map Prod.snd = s'.recv.delivered) (ha : ∃ es loc, s'.recv.Apart es loc) :
    s'.Joined F valid rel xs ys where
  linked d := ho ▸ h.linked d
  reads d := by
    rw [ho]
    rcases eq_or_ne d c with rfl | hne
    · exact hr
    · rw [(hd d hne).1, (hd d hne).2]
      exact h.reads d
  log := hl
  apart := ha

section

variable [DecidableEq τ]

theorem read_spec {c : κ} {nread : Nat} {cnt : Int} (hs : s.read P c nread cnt = some s') :
    (s.chunk c nread).length = nread ∧ ∃ recv, s.recv.step (.read c cnt) = some recv ∧
      ∀ parser frames, P.feed (s.ins c).parser (s.chunk c nread) = some (parser, frames) →
        s'.outs = s.outs ∧ s'.recv = recv ∧ s'.log = s.log ∧
        s'.ins = Function.update s.ins c
          ⟨parser, (s.ins c).taken + nread, (s.ins c).inFrames ++ frames, (s.ins c).down⟩ := by
  simp only [Channel.read] at hs
  split at hs
  case isFalse => cases hs
  case isTrue hg =>
    obtain ⟨recv, ht, rfl⟩ := Option.map_eq_some_iff.mp hs
    refine ⟨hg.2.2.2, recv, ht, fun parser frames hf => ?_⟩
    rw [hf]
    exact ⟨rfl, rfl, rfl, rfl⟩

theorem Joined.read (hP : P.Tracks Frame.bytes valid rel) (h : s.Joined F valid rel xs ys) {c : κ}
    {nread : Nat} {cnt : Int} (hs : s.read P c nread cnt = some s') :
    s'.Joined F valid rel xs ys := by
  obtain ⟨hlen, recv, ht, hs'⟩ := read_spec hs
  obtain ⟨hb, hh, hd, -⟩ := Recv.read_frame ht
  have hr := h.reads c
  have hle : (s.ins c).taken + nread ≤ (s.outs c).kernel.length := by
    have htaken := hr.taken
    rw [chunk, List.length_take, List.length_drop] at hlen
    omega
  have hsplit : (s.outs c).kernel.take (s.ins c).taken ++ s.chunk c nread =
      (s.outs c).kernel.take ((s.ins c).taken + nread) := (List.take_add ..).symm
  have hpre : (s.outs c).kernel.take (s.ins c).taken ++ s.chunk c nread <+:
      wire Frame.bytes (s.outs c).accepted := by
    rw [hsplit]
    exact (List.take_prefix ..).trans (h.linked c).sent
  obtain ⟨parser, hf, hrel⟩ := hP.feed _ _ _ _ hr.parser hr.sound hpre
  obtain ⟨more, hm⟩ := whole_mono Frame.bytes (s.outs c).accepted
    (Nat.le_add_right (s.ins c).taken nread)
  rw [hsplit] at hf hrel
  rw [List.length_take, List.length_take, Nat.min_eq_left hle, Nat.min_eq_left hr.taken,
    ← hm, List.drop_left] at hf
  rw [← hr.whole] at hm
  obtain ⟨ho, hrecv, hlog, hi⟩ := hs' parser more hf
  obtain ⟨es, loc, hapart⟩ := h.apart
  have hgot : s'.received c = s.received c ++ more := by
    simp [received, hlog, hi, hrecv, hh, hb]
  refine h.change (c := c) ho ⟨hr.sound, ?_, ?_, ?_, ?_⟩ (fun d hne => ⟨?_, ?_⟩) ?_
    (hrecv ▸ Recv.apart_step hapart (fun _ he => by cases he) ht)
  · simpa [hi] using hle
  · simpa [hi] using hrel
  · simpa [hi, hgot] using hm
  · simpa [hi] using hr.parses
  · simp [hi, hne]
  · simp [received, hi, hlog, hrecv, hne, hh]
  · simpa [hlog, hrecv, hd] using h.log

omit [DecidableEq τ] in
theorem Joined.hangup (h : s.Joined F valid rel xs ys) {c : κ} (hs : s.hangup c = some s') :
    s'.Joined F valid rel xs ys := by
  simp only [Channel.hangup] at hs
  split at hs <;> cases hs
  have hr := h.reads c
  refine h.change (c := c) rfl ⟨hr.sound, ?_, ?_, ?_, ?_⟩ (fun d hne => ⟨?_, ?_⟩) h.log h.apart
  · simpa [inlet] using hr.taken
  · simpa [inlet] using hr.parser
  · simpa [inlet, received] using hr.whole
  · simp [inlet]
  · simp [inlet, hne]
  · simp [inlet, received, hne]

theorem Joined.event (h : s.Joined F valid rel xs ys) {c : κ} {a : Addr}
    (hs : s.event c a = some s') : s'.Joined F valid rel xs ys := by
  simp only [Channel.event] at hs
  split at hs
  case h_2 => cases hs
  case h_1 fr frames hi =>
    obtain ⟨recv, ht, rfl⟩ := Option.map_eq_some_iff.mp hs
    obtain ⟨pc, hh, hb, hd, -⟩ := Recv.event_frame ht
    obtain ⟨es, loc, hapart⟩ := h.apart
    have hr := h.reads c
    refine h.change (c := c) rfl ⟨hr.sound, ?_, ?_, ?_, ?_⟩ (fun d hne => ⟨?_, ?_⟩) ?_
      (Recv.apart_step hapart (fun _ he => by cases he) ht)
    · simpa [inlet] using hr.taken
    · simpa [inlet] using hr.parser
    · simpa [inlet, received, hh, hb, hi] using hr.whole
    · simpa [inlet] using hr.parses
    · simp [inlet, hne]
    · simp [inlet, received, hne, hh]
    · simpa [inlet, hd] using h.log

theorem Joined.deliver (h : s.Joined F valid rel xs ys) {c : κ}
    (hg : (s.recv.handlers c).garbage = 0) (hs : s.deliver c = some s') :
    s'.Joined F valid rel xs ys := by
  simp only [Channel.deliver] at hs
  split at hs
  case h_2 => cases hs
  case h_1 hi =>
    obtain ⟨recv, ht, rfl⟩ := Option.map_eq_some_iff.mp hs
    obtain ⟨hh, hd, -⟩ := Recv.deliver_frame ht
    obtain ⟨es, loc, hapart⟩ := h.apart
    have hr := h.reads c
    refine h.change (c := c) rfl ⟨hr.sound, hr.taken, hr.parser, ?_, hr.parses⟩
      (fun d hne => ⟨rfl, ?_⟩) ?_ (Recv.apart_step hapart (fun d he => by cases he; exact hg) ht)
    · rw [← hr.whole]
      simp [received, of_append, of_batch, hh]
    · simp [received, of_append, of_batch, hh, hne]
    · simp [hd, h.log]

theorem Joined.consume (h : s.Joined F valid rel xs ys) {m : RecvLabel κ τ}
    (hm : m.consumes = true) {recv : Recv κ τ} (ht : s.recv.step m = some recv) :
    Joined F valid rel { s with recv := recv } xs ys where
  linked := h.linked
  reads c := by
    obtain ⟨hh, -, -⟩ := Recv.consume_frame hm ht
    simpa [received, hh] using h.reads c
  log := by rw [(Recv.consume_frame hm ht).2.1, h.log]
  apart := by
    obtain ⟨es, loc, hapart⟩ := h.apart
    refine Recv.apart_step hapart (fun c he => ?_) ht
    subst he
    cases hm

theorem joined_step (hF : F.Lawful) (hP : P.Tracks Frame.bytes valid rel)
    (h : s.Joined F valid rel xs ys) (hc : s.Faultless valid l) (hs : s.step F P l = some s') :
    ∃ xs' ys', s'.Joined F valid rel xs' ys' := by
  cases l with
  | out c m => exact h.out hF hc hs
  | read c nread cnt => exact ⟨xs, ys, h.read hP hs⟩
  | hangup c => exact ⟨xs, ys, h.hangup hs⟩
  | event c a => exact ⟨xs, ys, h.event hs⟩
  | nomem c => exact absurd hc id
  | deliver c => exact ⟨xs, ys, h.deliver hc hs⟩
  | consume m =>
    simp only [step] at hs
    split at hs
    case isFalse => cases hs
    case isTrue hm =>
      obtain ⟨recv, ht, rfl⟩ := Option.map_eq_some_iff.mp hs
      exact ⟨xs, ys, h.consume hm ht⟩

omit [DecidableEq κ] [DecidableEq τ] in
theorem served {es : List Addr} (hl : s.log.map Prod.snd = s.recv.delivered)
    (hx : s.recv.Holding es) : ∃ seen rest, s.Served seen rest es := by
  have hi := hx.items
  rw [← hl] at hi
  have hlen := congrArg List.length hi
  have ht := congrArg (List.take s.recv.returned.length) hi
  have hd := congrArg (List.drop s.recv.returned.length) hi
  simp only [List.length_append, List.length_map] at hlen
  refine ⟨s.log.take s.recv.returned.length, s.log.drop s.recv.returned.length,
    (List.take_append_drop ..).symm, ?_, hx.events, ?_⟩
  · rw [List.take_left' (List.length_map ..), ← List.map_take, ← List.map_take] at ht
    exact List.map_injective_iff.mpr (Option.some_injective _) ht
  · rw [List.drop_left' (List.length_map ..), ← List.map_drop, ← List.map_drop, List.map_map] at hd
    exact hd

omit [DecidableEq τ] in
theorem Joined.delivers (h : s.Joined F valid rel xs ys) : s.Delivers := by
  obtain ⟨es, loc, hapart⟩ := h.apart
  obtain ⟨seen, rest, hs⟩ := served h.log hapart.holding
  refine ⟨fun c => (h.reads c).parses, seen, rest, es, hs, fun c => ?_⟩
  rw [← of_append, ← hs.log]
  have hw := whole_le Frame.bytes (s.outs c).accepted (s.ins c).taken
  rwa [← (h.reads c).whole] at hw

omit [DecidableEq τ] in
theorem Joined.complete (h : s.Joined F valid rel xs ys) : s.Complete := by
  intro hr
  obtain ⟨es, loc, hapart⟩ := h.apart
  obtain ⟨seen, rest, hs⟩ := served h.log hapart.holding
  obtain rfl := hs.events.empty_eq.mp hr.events
  obtain rfl : rest = [] := by simpa using hs.frames.symm
  refine ⟨seen, hs.returned, fun c => ?_⟩
  have hw := (h.reads c).whole
  rw [hr.taken, (h.linked c).emptied (hr.held c) (hr.sent c), whole_all] at hw
  simpa [received, hs.log, hr.handled, hr.parsed] using hw

theorem joined_run (hF : F.Lawful) (hP : P.Tracks Frame.bytes valid rel) (rcvhwm : Int)
    {tr : List (Channel κ τ ρ σ × ChannelLabel κ τ)} (hr : Run (step F P) (init F P rcvhwm) tr s)
    (hc : Steps (Faultless valid) tr) :
    Visits (fun s => ∃ xs ys, s.Joined F valid rel xs ys) tr s := by
  refine hr.visits ⟨_, _, joined_init hP hF rcvhwm⟩ ?_ hc
  rintro s l s' ⟨xs, ys, h⟩ hc hs
  exact joined_step hF hP h hc hs

theorem frames_in_order (hF : F.Lawful) (hP : P.Tracks Frame.bytes valid rel) (rcvhwm : Int)
    {tr : List (Channel κ τ ρ σ × ChannelLabel κ τ)} (hr : Run (step F P) (init F P rcvhwm) tr s)
    (hc : Steps (Faultless valid) tr) : Visits Delivers tr s :=
  visits_mono (fun _ ⟨_, _, h⟩ => h.delivers) (joined_run hF hP rcvhwm hr hc)

theorem frames_all_arrive (hF : F.Lawful) (hP : P.Tracks Frame.bytes valid rel) (rcvhwm : Int)
    {tr : List (Channel κ τ ρ σ × ChannelLabel κ τ)} (hr : Run (step F P) (init F P rcvhwm) tr s)
    (hc : Steps (Faultless valid) tr) : Visits Complete tr s :=
  visits_mono (fun _ ⟨_, _, h⟩ => h.complete) (joined_run hF hP rcvhwm hr hc)

end

instance (valid : Frame → Prop) [DecidablePred valid] (s : Channel κ τ ρ σ) :
    (l : ChannelLabel κ τ) → Decidable (s.Faultless valid l)
  | .out _ l => inferInstanceAs (Decidable (Conn.NoError l ∧ _ ∧ ∀ fr ∈ l.frame, valid fr))
  | .deliver c => inferInstanceAs (Decidable ((s.recv.handlers c).garbage = 0))
  | .nomem _ => isFalse id
  | .read .. => isTrue trivial
  | .hangup _ => isTrue trivial
  | .event .. => isTrue trivial
  | .consume _ => isTrue trivial

def payload (x : UInt8) : Frame := ⟨[0, 0, 0, 1, x], by simp⟩

def transmit (c : Bool) (x : UInt8) (n : Nat) : List (ChannelLabel Bool Unit) :=
  [.out c (.insert 1 (payload x)), .out c .startWrite, .out c .ready, .out c .steal,
    .out c (.writev (.wrote n)), .read c n 0, .deliver c, .out c (.writev (.wrote (5 - n))),
    .out c .steal, .out c (.settle false), .read c (5 - n) 0]

def conversation : List (ChannelLabel Bool Unit) :=
  transmit true 65 3 ++ transmit false 66 1 ++ [.event false 1, .deliver false, .event true 2,
    .consume (.get () false), .deliver true, .consume (.get () true)]

def conversed : Channel Bool Unit Nat (List UInt8) :=
  final (step listFramer sizedParser) (init listFramer sizedParser 1000) conversation

theorem frames_in_order_conversation : Visits Delivers
    (trace (step listFramer sizedParser) (init listFramer sizedParser 1000) conversation)
    conversed :=
  frames_in_order listFramer_lawful SizedParser.splits.tracks 1000
    (run_final (k := conversation) (by decide +kernel)) (by decide +kernel)

theorem rested_conversed : conversed.Rested where
  held c := by cases c <;> rfl
  sent := by decide +kernel
  taken := by decide +kernel
  parsed := by decide +kernel
  handled := by decide +kernel
  events := by decide +kernel

theorem frames_all_arrive_conversation : ∃ seen, conversed.recv.returned = seen.map Prod.snd ∧
    of true seen = [payload 65] ∧ of false seen = [payload 66] := by
  have hv : Visits Complete
      (trace (step listFramer sizedParser) (init listFramer sizedParser 1000) conversation)
      conversed := frames_all_arrive listFramer_lawful SizedParser.splits.tracks 1000
    (run_final (k := conversation) (by decide +kernel)) (by decide +kernel)
  have ha : (conversed.outs true).accepted = [payload 65] ∧
      (conversed.outs false).accepted = [payload 66] := by decide +kernel
  obtain ⟨seen, hs, hc⟩ := hv.2 rested_conversed
  exact ⟨seen, hs, (hc true).trans ha.1, (hc false).trans ha.2⟩

end Channel

end Fsock
