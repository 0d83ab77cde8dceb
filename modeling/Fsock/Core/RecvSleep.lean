import Fsock.Core.RecvWait

namespace Fsock

open Transition

namespace Owner

inductive Heard (o : Owner) : Prop
  | signalled (h : 0 < o.efd)
  | armed (hw : o.wantEfd = true) (he : o.events.empty = true)

theorem Heard.signals {o : Owner} (h : o.Heard) (hn : o.events.empty = false) : 0 < o.efd := by
  cases h with
  | signalled he => exact he
  | armed hw he => rw [hn] at he; cases he

theorem Heard.pause {o : Owner} (h : o.Heard) : o.pause.Heard := by
  cases h with
  | signalled he => exact .signalled (by rwa [efd_pause])
  | armed hw he => exact .armed (by rwa [wantEfd_pause]) (by rwa [events_pause])

end Owner

namespace Recv

section
variable {κ τ : Type} {s s' : Recv κ τ}

theorem heard_append (h : s.owner.Heard) (queue : Queue Addr) (cnt : Int) :
    (s.append queue cnt).owner.Heard := by
  rcases lt_or_ge 0 cnt with hpos | hle
  · obtain ⟨-, hefd⟩ := s.append_signals queue hpos
    refine .signalled ?_
    rw [hefd]
    cases h with
    | signalled he => split <;> omega
    | armed hw => rw [if_pos hw]; exact Nat.succ_pos _
  · have hsame : s.append queue cnt = { s with
        owner := { s.owner with rcvqsz := s.owner.rcvqsz + cnt } } := if_neg hle.not_gt
    rw [hsame]
    cases h with
    | signalled he => exact .signalled he
    | armed hw he => exact .armed hw he

end

variable {κ : Type} {s s' : Recv κ Unit} {l : RecvLabel κ Unit}

def Alert (s : Recv κ Unit) : Prop := s.consumers () = .waiting → s.owner.Heard

def Woken (s : Recv κ Unit) : Prop :=
  s.consumers () = .waiting → s.owner.events.empty = false → 0 < s.owner.efd

theorem Alert.woken (h : s.Alert) : s.Woken := fun hw hn => (h hw).signals hn

theorem alert_of_ne (h : s.consumers () ≠ .waiting) : s.Alert := fun hw => absurd hw h

theorem goto_ne (s : Recv κ Unit) (pc : GetPc) (hp : pc ≠ .waiting) :
    (s.goto () pc).consumers () ≠ .waiting := by
  simpa [goto] using hp

theorem take_ne (hp : s.consumers () ≠ .waiting) : (s.take ()).consumers () ≠ .waiting := by
  simp only [take]
  split
  · exact s.goto_ne .idle (by simp)
  · exact hp

theorem alert_deliver [DecidableEq κ] (h : s.Alert) {c : κ} (hs : s.deliver c = some s') :
    s'.Alert := by
  obtain ⟨garbage, queue, cnt, batch, -, rfl⟩ := deliver_spec hs
  obtain ⟨-, -, -, hcons, -⟩ := s.append_same queue cnt
  intro hw
  have hw' : s.consumers () = .waiting := by simpa [handle, hcons] using hw
  exact (heard_append (h hw') queue cnt).pause

theorem alert_get (h : s.Alert) {donwait : Bool} (hs : s.get () donwait = some s') : s'.Alert := by
  simp only [get] at hs
  split at hs
  case h_2 => cases hs
  case h_1 hp =>
    split at hs
    case isTrue he =>
      split at hs <;> cases hs
      · exact h
      · exact fun _ => .armed rfl he
    case isFalse =>
      cases hs
      exact alert_of_ne (take_ne (by rw [hp]; decide))

theorem alert_step [DecidableEq κ] (h : s.Alert) (hs : s.step l = some s') : s'.Alert := by
  simp only [step] at hs
  split at hs
  case isTrue => cases hs
  case isFalse =>
    cases l with
    | read c cnt =>
      simp only [read] at hs
      split at hs <;> cases hs
      exact h
    | event c a fr =>
      simp only [event] at hs
      split at hs
      · obtain ⟨r, -, rfl⟩ := Option.map_eq_some_iff.mp hs
        exact h
      · cases hs
    | deliver c => exact alert_deliver h hs
    | get t donwait => exact alert_get h hs
    | efdReady t =>
      simp only [efdReady] at hs
      split at hs
      · split at hs <;> cases hs
        exact alert_of_ne (s.goto_ne _ (by simp))
      · cases hs
    | timeout t =>
      simp only [timeout] at hs
      split at hs
      · split at hs <;> cases hs
        exact alert_of_ne (s.goto_ne _ (by simp))
      · cases hs
    | unsignal t =>
      simp only [unsignal] at hs
      split at hs <;> cases hs
      exact alert_of_ne (s.goto_ne .relock (by simp))
    | relock t =>
      simp only [relock] at hs
      split at hs
      case h_2 => cases hs
      case h_1 hp =>
        split at hs <;> cases hs
        · exact h
        · exact alert_of_ne (take_ne (by rw [hp]; decide))
    | destroy a =>
      simp only [destroy] at hs
      split at hs <;> cases hs
      exact h

theorem never_sleeps_on_events [DecidableEq κ] (rcvhwm : Int)
    {tr : List (Recv κ Unit × RecvLabel κ Unit)} (hr : Run step (init rcvhwm) tr s) :
    Visits Woken tr s :=
  visits_mono (fun _ => Alert.woken) (hr.visits (C := fun _ _ => True) nofun
    (fun _ _ _ h _ hs => alert_step h hs) fun _ _ => trivial)

def slept : List (RecvLabel Unit Unit) :=
  [.get () false, .timeout (), .get () false, .read () 0, .deliver (), .read () 0,
    .event () 1 (letter 65), .deliver (), .read () 0, .event () 2 (letter 66), .deliver ()]

theorem never_sleeps_on_events_slept : Visits Woken (trace step (init 1000) slept)
      (final step (init 1000) slept) ∧
    (final step (init 1000) slept).consumers () = .waiting ∧
    (final step (init 1000) slept).owner.events.empty = false :=
  ⟨never_sleeps_on_events 1000 (run_final rfl), rfl, rfl⟩

end Recv

end Fsock
