import Fsock.Lib.Simulation
import Fsock.Core.ChannelOrder

namespace Fsock

open Transition StreamCodec

structure Mailbox (κ : Type) where
  transit : κ → List Frame
  queue : List (κ × Frame)
  taken : List (κ × Frame)

inductive Mail (κ : Type) where
  | post (c : κ) (fr : Frame)
  | arrive (c : κ) (n : Nat)
  | take
  deriving DecidableEq

namespace Mail

variable {κ : Type} [DecidableEq κ]

def posts (c : κ) : Mail κ → List Frame
  | .post d fr => if d = c then [fr] else []
  | _ => []

end Mail

namespace Mailbox

variable {κ : Type} [DecidableEq κ]

def empty : Mailbox κ := ⟨fun _ => [], [], []⟩

def step (m : Mailbox κ) : Mail κ → Option (Mailbox κ)
  | .post c fr => some { m with transit := Function.update m.transit c (m.transit c ++ [fr]) }
  | .arrive c n =>
    if n ≤ (m.transit c).length then
      some { m with
        transit := Function.update m.transit c ((m.transit c).drop n)
        queue := m.queue ++ ((m.transit c).take n).map fun fr => (c, fr) }
    else none
  | .take =>
    match m.queue with
    | x :: queue => some { m with queue := queue, taken := m.taken ++ [x] }
    | [] => none

def whole (m : Mailbox κ) (c : κ) : List Frame :=
  Channel.of c m.taken ++ Channel.of c m.queue ++ m.transit c

theorem whole_step {m m' : Mailbox κ} {k : Mail κ} (h : m.step k = some m') (c : κ) :
    m'.whole c = m.whole c ++ k.posts c := by
  cases k with
  | post d fr =>
    cases h
    rcases eq_or_ne d c with rfl | hd
    · simp [whole, Mail.posts]
    · simp [whole, Mail.posts, hd, hd.symm]
  | arrive d n =>
    simp only [step] at h
    split at h <;> cases h
    rw [whole, Channel.of_append, Channel.of_batch]
    rcases eq_or_ne c d with rfl | hd
    · simp [whole, Mail.posts]
    · simp [whole, Mail.posts, hd]
  | take =>
    simp only [step] at h
    split at h <;> cases h
    rename_i x queue hq
    have hx : Channel.of c (x :: queue) = Channel.of c [x] ++ Channel.of c queue :=
      Channel.of_append c [x] queue
    simp [whole, Mail.posts, Channel.of_append, hq, hx]

theorem whole_exec {ks : List (Mail κ)} {m m' : Mailbox κ} (h : exec step m ks = some m') (c : κ) :
    m'.whole c = m.whole c ++ ks.flatMap (Mail.posts c) := by
  induction ks generalizing m with
  | nil =>
    cases h
    simp
  | cons k ks ih =>
    rw [exec] at h
    obtain ⟨n, hn, he⟩ := Option.bind_eq_some_iff.mp h
    rw [ih he, whole_step hn, List.flatMap_cons, List.append_assoc]

end Mailbox

namespace Channel

variable {κ τ ρ σ : Type} [DecidableEq κ] {F : Framer ρ} {P : FrameParser σ}
  {valid : Frame → Prop} {rel : σ → List UInt8 → Prop} {s s' : Channel κ τ ρ σ}
  {l : ChannelLabel κ τ} {xs ys : κ → List Addr}

def mailbox (s : Channel κ τ ρ σ) : Mailbox κ where
  transit c := (s.outs c).accepted.drop (of c s.log).length
  queue := s.log.drop s.recv.returned.length
  taken := s.log.take s.recv.returned.length

def mail (s : Channel κ τ ρ σ) : ChannelLabel κ τ → Option (Mail κ)
  | .out c (.insert _ fr) => some (.post c fr)
  | .deliver c => some (.arrive c (s.recv.handlers c).batch.length)
  | .consume l => if s.recv.takes l then some .take else none
  | _ => none

theorem mailbox_out {c : κ} {m : ConnLabel} (hle : (of c s.log).length ≤ (s.outs c).accepted.length)
    (hs : s.out F c m = some s') :
    (m.frame = none ∧ s'.mailbox = s.mailbox) ∨
      ∃ fr, m.frame = some fr ∧ s.mailbox.step (.post c fr) = some s'.mailbox := by
  obtain ⟨conn, ht, rfl⟩ := Option.map_eq_some_iff.mp hs
  have hq : conn.accepted = (s.outs c).accepted → s.mailbox =
      (mailbox { s with outs := Function.update s.outs c conn } : Mailbox κ) := by
    intro ha
    simp only [mailbox, Mailbox.mk.injEq, and_self, and_true]
    funext d
    rcases eq_or_ne d c with rfl | hd
    · simp [ha]
    · simp [hd]
  cases Conn.effect_of_step ht with
  | @insert li fr conn' hi =>
    refine .inr ⟨fr, rfl, ?_⟩
    simp only [Mailbox.step, mailbox, Option.some.injEq, Mailbox.mk.injEq, and_self, and_true]
    funext d
    rcases eq_or_ne d c with rfl | hd
    · simp [hi.accepted, List.drop_append_of_le_length hle]
    · simp [hd]
  | _ => exact .inl ⟨rfl, (hq rfl).symm⟩

theorem mailbox_take {recv : Recv κ τ} (hr : recv.returned.length = s.recv.returned.length + 1)
    (hl : s.recv.returned.length < s.log.length) :
    s.mailbox.step .take = some (mailbox { s with recv := recv }) := by
  simp only [Mailbox.step, mailbox, List.drop_eq_getElem_cons hl, hr, List.take_add_one,
    List.getElem?_eq_getElem hl, Option.toList_some]

theorem Joined.arrived (h : s.Joined F valid rel xs ys) (c : κ) :
    of c s.log ++ (s.recv.handlers c).batch <+: (s.outs c).accepted := by
  have hw := whole_le Frame.bytes (s.outs c).accepted (s.ins c).taken
  rw [← (h.reads c).whole] at hw
  exact (List.prefix_append ..).trans hw

theorem Joined.behind (h : s.Joined F valid rel xs ys) :
    s.recv.returned.length ≤ s.log.length := by
  obtain ⟨es, loc, ha⟩ := h.apart
  obtain ⟨seen, rest, hs⟩ := served h.log ha.holding
  rw [hs.log, hs.returned, List.length_map, List.length_append]
  exact Nat.le_add_right ..

section

variable [DecidableEq τ]

theorem taken_frame {es : List Addr} {m : RecvLabel κ τ} {recv : Recv κ τ}
    (h : s.recv.Holding es) (hlog : s.log.map Prod.snd = s.recv.delivered)
    (hm : m.consumes = true) (ht : s.recv.step m = some recv) (htake : s.recv.takes m = true) :
    recv.returned.length = s.recv.returned.length + 1 ∧
      s.recv.returned.length < s.log.length := by
  obtain ⟨-, -, htakes⟩ := Recv.consume_frame hm ht
  rw [if_pos htake] at htakes
  obtain ⟨t, rfl⟩ := htakes
  have hlen := congrArg List.length h.items
  rw [List.length_append, List.length_map, List.length_map, List.length_map, ← hlog,
    List.length_map] at hlen
  cases es with
  | nil =>
    have he : s.recv.owner.events.empty = true := h.events.empty_eq.mpr rfl
    cases m <;> simp [Recv.takes, he] at htake
  | cons a xs =>
    obtain ⟨events, -, hs⟩ := Recv.take_spec h.events t
    obtain ⟨fr, hf⟩ := Option.isSome_iff_exists.mp (h.alive a (by simp))
    refine ⟨by simp [hs, hf], ?_⟩
    rw [List.length_cons] at hlen
    omega

theorem mailbox_handOver {c : κ} {recv : Recv κ τ}
    (hp : of c s.log ++ (s.recv.handlers c).batch <+: (s.outs c).accepted)
    (hl : s.recv.returned.length ≤ s.log.length) (ht : s.recv.step (.deliver c) = some recv) :
    s.mailbox.step (.arrive c (s.recv.handlers c).batch.length) = some (mailbox { s with
      recv := recv
      log := s.log ++ (s.recv.handlers c).batch.map fun fr => (c, fr) }) := by
  obtain ⟨-, -, hr⟩ := Recv.deliver_frame ht
  obtain ⟨more, hm⟩ := hp
  have hd : (s.outs c).accepted.drop (of c s.log).length = (s.recv.handlers c).batch ++ more := by
    rw [← hm, List.append_assoc, List.drop_left]
  have hlen : (s.recv.handlers c).batch.length ≤ ((s.recv.handlers c).batch ++ more).length := by
    simp
  simp only [Mailbox.step, mailbox, hd, hlen, if_true, hr, List.take_left, List.drop_left,
    List.drop_append_of_le_length hl, List.take_append_of_le_length hl, Option.some.injEq,
    Mailbox.mk.injEq, and_self, and_true]
  funext d
  rw [of_append, of_batch]
  rcases eq_or_ne d c with rfl | hne
  · simp [← hm]
  · simp [hne]

theorem mailbox_step (h : s.Joined F valid rel xs ys) (hc : s.Faultless valid l)
    (hs : s.step F P l = some s') : (s.mail l = none ∧ s'.mailbox = s.mailbox) ∨
      ∃ k, s.mail l = some k ∧ s.mailbox.step k = some s'.mailbox := by
  cases l with
  | out c m =>
    have hle := ((List.prefix_append ..).trans (h.arrived c)).length_le
    rcases mailbox_out hle hs with ⟨hf, he⟩ | ⟨fr, hf, he⟩
    · refine .inl ⟨?_, he⟩
      cases m <;> first | rfl | cases hf
    · refine .inr ⟨_, ?_, he⟩
      cases m <;> cases hf
      rfl
  | read c nread cnt =>
    refine .inl ⟨rfl, ?_⟩
    simp only [step, Channel.read] at hs
    split at hs
    case isFalse => cases hs
    case isTrue =>
      obtain ⟨recv, ht, rfl⟩ := Option.map_eq_some_iff.mp hs
      obtain ⟨-, -, -, hr⟩ := Recv.read_frame ht
      split
      · rfl
      · simp only [mailbox, inlet, hr]
  | hangup c =>
    refine .inl ⟨rfl, ?_⟩
    simp only [step, Channel.hangup] at hs
    split at hs <;> cases hs
    rfl
  | event c a =>
    refine .inl ⟨rfl, ?_⟩
    simp only [step, Channel.event] at hs
    split at hs
    case h_2 => cases hs
    case h_1 =>
      obtain ⟨recv, ht, rfl⟩ := Option.map_eq_some_iff.mp hs
      obtain ⟨pc, -, -, -, hr⟩ := Recv.event_frame ht
      simp only [mailbox, inlet, hr]
  | nomem c => exact absurd hc id
  | deliver c =>
    simp only [step, Channel.deliver] at hs
    split at hs
    case h_2 => cases hs
    case h_1 =>
      obtain ⟨recv, ht, rfl⟩ := Option.map_eq_some_iff.mp hs
      exact .inr ⟨_, rfl, mailbox_handOver (h.arrived c) h.behind ht⟩
  | consume m =>
    simp only [step] at hs
    split at hs
    case isFalse => cases hs
    case isTrue hm =>
      obtain ⟨recv, ht, rfl⟩ := Option.map_eq_some_iff.mp hs
      obtain ⟨es, loc, ha⟩ := h.apart
      cases htake : s.recv.takes m with
      | true =>
        obtain ⟨hr, hl⟩ := taken_frame ha.holding h.log hm ht htake
        exact .inr ⟨.take, by simp [mail, htake], mailbox_take hr hl⟩
      | false =>
        have hr := (Recv.consume_frame hm ht).2.2
        rw [htake, if_neg Bool.false_ne_true] at hr
        exact .inl ⟨by simp [mail, htake], by simp only [mailbox, hr]⟩

theorem simulates_mailbox (hF : F.Lawful) (hP : P.Tracks Frame.bytes valid rel) :
    Simulates (step F P) Mailbox.step (fun s : Channel κ τ ρ σ => ∃ xs ys, s.Joined F valid rel xs ys)
      (Faultless valid) mailbox mail where
  keeps := by
    rintro s l s' ⟨xs, ys, h⟩ hc hs
    exact joined_step hF hP h hc hs
  silent := by
    rintro s l s' ⟨xs, ys, h⟩ hc hs ho
    rcases mailbox_step h hc hs with ⟨-, he⟩ | ⟨k, hk, -⟩
    · exact he
    · rw [ho] at hk
      cases hk
  moves := by
    rintro s l s' k ⟨xs, ys, h⟩ hc hs ho
    rcases mailbox_step h hc hs with ⟨hn, -⟩ | ⟨k', hk, he⟩
    · rw [ho] at hn
      cases hn
    · rw [ho] at hk
      cases hk
      exact he

theorem refines_mailbox (hF : F.Lawful) (hP : P.Tracks Frame.bytes valid rel) (rcvhwm : Int)
    {tr : List (Channel κ τ ρ σ × ChannelLabel κ τ)} (hr : Run (step F P) (init F P rcvhwm) tr s)
    (hc : Steps (Faultless valid) tr) :
    ∃ m, exec Mailbox.step .empty (observed mail tr) = some m ∧
      s.recv.returned = m.taken.map Prod.snd ∧
      ∀ c, m.whole c = (observed mail tr).flatMap (Mail.posts c) := by
  have hi : ∃ xs ys, (init F P rcvhwm : Channel κ τ ρ σ).Joined F valid rel xs ys :=
    ⟨_, _, joined_init hP hF rcvhwm⟩
  have he : exec Mailbox.step .empty (observed mail tr) = some s.mailbox :=
    (simulates_mailbox hF hP).run hi hr hc
  refine ⟨s.mailbox, he, ?_, Mailbox.whole_exec he⟩
  obtain ⟨xs, ys, h⟩ := (joined_run hF hP rcvhwm hr hc).2
  obtain ⟨es, loc, ha⟩ := h.apart
  obtain ⟨seen, rest, hs⟩ := served h.log ha.holding
  have hlen : s.recv.returned.length = seen.length := by rw [hs.returned, List.length_map]
  rw [mailbox, hlen, hs.log, List.take_left, hs.returned]

end

theorem refines_mailbox_conversation :
    ∃ m, exec Mailbox.step .empty (observed mail (trace (step listFramer sizedParser)
        (init listFramer sizedParser 1000) conversation)) = some m ∧
      conversed.recv.returned = m.taken.map Prod.snd ∧
      ∀ c, m.whole c = (observed mail (trace (step listFramer sizedParser)
        (init listFramer sizedParser 1000) conversation)).flatMap (Mail.posts c) :=
  refines_mailbox listFramer_lawful SizedParser.splits.tracks 1000
    (run_final (k := conversation) (by decide +kernel)) (by decide +kernel)

end Channel

end Fsock
