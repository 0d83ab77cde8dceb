import Fsock.Utils.Efd
import Fsock.Core.RecvWait
import Mathlib.Algebra.BigOperators.Group.Finset.Basic
import Mathlib.Data.Fintype.BigOperators

namespace Fsock

open Transition Queue

structure EfdRecv (κ τ E : Type) where
  recv : Recv κ τ
  efd : E
  abort : Bool

namespace EfdRecv

variable {κ τ E : Type} [DecidableEq κ] [DecidableEq τ]

def init (I : Efd E) (rcvhwm : Int) : EfdRecv κ τ E where
  recv := .init rcvhwm
  efd := I.init
  abort := false

def deliver (I : Efd E) (s : EfdRecv κ τ E) (c : κ) : Option (EfdRecv κ τ E) :=
  (s.recv.deliver c).map fun recv =>
    -- nn_efd_signal runs exactly where want_efd is cleared
    if s.recv.owner.wantEfd && !recv.owner.wantEfd then
      match I.signal s.efd with
      | some efd => { s with recv := recv, efd := efd }
      | none => { s with abort := true }
    else { s with recv := recv }

def efdReady (I : Efd E) (s : EfdRecv κ τ E) (t : τ) : Option (EfdRecv κ τ E) :=
  match s.recv.consumers t with
  | .waiting => if I.readable s.efd then some { s with recv := s.recv.goto t .ready } else none
  | _ => none

def timeout (I : Efd E) (s : EfdRecv κ τ E) (t : τ) : Option (EfdRecv κ τ E) :=
  match s.recv.consumers t with
  | .waiting => if I.readable s.efd then none else some { s with recv := s.recv.goto t .idle }
  | _ => none

def unsignal (I : Efd E) (s : EfdRecv κ τ E) (t : τ) : Option (EfdRecv κ τ E) :=
  match s.recv.consumers t with
  | .ready =>
    match I.unsignal s.efd with
    | some (efd, true) => some { s with efd := efd }
    | some (efd, false) => some { s with
        recv := { s.recv.goto t .relock with owner := { s.recv.owner with efd := 0 } }
        efd := efd }
    | none => some { s with abort := true }
  | _ => none

def step (I : Efd E) (s : EfdRecv κ τ E) (l : RecvLabel κ τ) : Option (EfdRecv κ τ E) :=
  if s.recv.fault || s.abort then none
  else
    match l with
    | .deliver c => s.deliver I c
    | .efdReady t => s.efdReady I t
    | .timeout t => s.timeout I t
    | .unsignal t => s.unsignal I t
    | l => (s.recv.step l).map fun recv => { s with recv := recv }

end EfdRecv

namespace GetPc

def pending : GetPc → Nat
  | .waiting => 1
  | .ready => 1
  | _ => 0

end GetPc

namespace Recv

variable {κ τ : Type} [DecidableEq κ] [DecidableEq τ] [Fintype τ] {s s' : Recv κ τ}
  {l : RecvLabel κ τ}

def pending (s : Recv κ τ) : Nat := ∑ t, (s.consumers t).pending

def Few (s : Recv κ τ) : Prop :=
  s.owner.efd + (if s.owner.wantEfd then 1 else 0) ≤ 1 + s.pending

omit [DecidableEq κ] in
theorem pending_goto (s : Recv κ τ) (t : τ) (pc : GetPc) :
    (s.goto t pc).pending + (s.consumers t).pending = s.pending + pc.pending := by
  have hu : ∀ u, ((s.goto t pc).consumers u).pending =
      Function.update (fun u => (s.consumers u).pending) t pc.pending u := by
    intro u
    rcases eq_or_ne u t with rfl | hu
    · simp [goto]
    · simp [goto, hu]
  have ht := Finset.add_sum_erase Finset.univ (fun u => (s.consumers u).pending) (Finset.mem_univ t)
  rw [pending, Finset.sum_congr rfl fun u _ => hu u, Finset.sum_update_of_mem (Finset.mem_univ t),
    ← Finset.erase_eq, pending, ← ht]
  omega

omit [DecidableEq κ] [DecidableEq τ] in
theorem pending_le (s : Recv κ τ) : s.pending ≤ Fintype.card τ := by
  have h : ∀ t ∈ Finset.univ, (s.consumers t).pending ≤ 1 := by
    intro t _
    cases s.consumers t <;> simp [GetPc.pending]
  simpa [pending] using Finset.sum_le_card_nsmul _ _ _ h

omit [DecidableEq κ] [DecidableEq τ] in
theorem pending_pos (s : Recv κ τ) (t : τ) : (s.consumers t).pending ≤ s.pending :=
  Finset.single_le_sum (f := fun u => (s.consumers u).pending) (fun _ _ => Nat.zero_le _)
    (Finset.mem_univ t)

omit [DecidableEq κ] [DecidableEq τ] in
theorem Few.bound (h : s.Few) : s.owner.efd ≤ Fintype.card τ + 1 := by
  have hp := s.pending_le
  rw [Few] at h
  omega

omit [DecidableEq κ] [DecidableEq τ] in
theorem Few.same (h : s.Few) (he : s'.owner.efd = s.owner.efd)
    (hw : s'.owner.wantEfd = s.owner.wantEfd) (hp : s'.pending = s.pending) : s'.Few := by
  rw [Few, he, hw, hp]
  exact h

omit [DecidableEq κ] in
theorem few_goto {t : τ} {pc : GetPc} {o : Owner}
    (h : o.efd + (if o.wantEfd then 1 else 0) + (s.consumers t).pending ≤
      1 + s.pending + pc.pending) : Few { s.goto t pc with owner := o } := by
  have hg := s.pending_goto t pc
  change o.efd + (if o.wantEfd then 1 else 0) ≤ 1 + (s.goto t pc).pending
  omega

omit [DecidableEq κ] in
theorem few_take (h : s.Few) {t : τ} (hp : (s.consumers t).pending = 0) : (s.take t).Few := by
  have hg := s.pending_goto t .idle
  rw [hp] at hg
  have hw : ∀ o : Owner, o.resume.wantEfd = o.wantEfd := by
    intro o
    simp only [Owner.resume]
    split <;> rfl
  simp only [take]
  split
  · exact h.same (Owner.efd_resume _) (hw _) hg
  · exact h

omit [DecidableEq τ] in
theorem few_deliver (h : s.Few) {c : κ} (hs : s.deliver c = some s') : s'.Few := by
  obtain ⟨garbage, queue, cnt, batch, -, rfl⟩ := deliver_spec hs
  obtain ⟨-, -, -, hcons, -⟩ := s.append_same queue cnt
  have hp : (s.append queue cnt).pending = s.pending := by rw [pending, hcons, pending]
  have happ : (s.append queue cnt).Few := by
    rcases lt_or_ge 0 cnt with hpos | hle
    · obtain ⟨hw, he⟩ := s.append_signals queue hpos
      rw [Few, hw, he, hp]
      rw [Few] at h
      cases hwant : s.owner.wantEfd <;> simp [hwant] at h ⊢ <;> omega
    · have hsame : s.append queue cnt = { s with
          owner := { s.owner with rcvqsz := s.owner.rcvqsz + cnt } } := if_neg hle.not_gt
      rw [hsame]
      exact h
  exact happ.same (Owner.efd_pause _) (Owner.wantEfd_pause _) rfl

theorem few_step (h : s.Few) (hs : s.step l = some s') : s'.Few := by
  simp only [step] at hs
  split at hs
  case isTrue => cases hs
  case isFalse =>
    cases l with
    | read c cnt =>
      simp only [read] at hs
      split at hs <;> cases hs
      exact h
    | event c a fr =>
      simp only [event] at hs
      split at hs
      · obtain ⟨r, -, rfl⟩ := Option.map_eq_some_iff.mp hs
        exact h
      · cases hs
    | deliver c => exact few_deliver h hs
    | get t donwait =>
      simp only [get] at hs
      split at hs
      case h_2 => cases hs
      case h_1 hp =>
        split at hs
        case isFalse =>
          cases hs
          exact few_take h (by rw [hp]; rfl)
        case isTrue =>
          split at hs <;> cases hs
          · exact h
          · refine few_goto ?_
            rw [Few] at h
            rw [hp, if_pos rfl]
            simp only [GetPc.pending]
            omega
    | efdReady t =>
      simp only [efdReady] at hs
      split at hs
      case h_2 => cases hs
      case h_1 hp =>
        split at hs <;> cases hs
        refine few_goto ?_
        rw [hp]
        exact Nat.add_le_add_right h 1
    | timeout t =>
      simp only [timeout] at hs
      split at hs
      case h_2 => cases hs
      case h_1 hp =>
        have ht := s.pending_pos t
        split at hs <;> cases hs
        rename_i hne
        refine few_goto ?_
        rw [hp] at ht ⊢
        have hw : (if s.owner.wantEfd then 1 else 0) ≤ 1 := by split <;> omega
        simp only [GetPc.pending] at ht ⊢
        omega
    | unsignal t =>
      simp only [unsignal] at hs
      split at hs <;> cases hs
      rename_i hp
      have ht := s.pending_pos t
      refine few_goto ?_
      rw [hp] at ht ⊢
      have hw : (if s.owner.wantEfd then 1 else 0) ≤ 1 := by split <;> omega
      simp only [GetPc.pending] at ht ⊢
      omega
    | relock t =>
      simp only [relock] at hs
      split at hs
      case h_2 => cases hs
      case h_1 hp =>
        split at hs <;> cases hs
        · exact h
        · exact few_take h (by rw [hp]; rfl)
    | destroy a =>
      simp only [destroy] at hs
      split at hs <;> cases hs
      exact h

omit [DecidableEq τ] [Fintype τ] in
theorem deliver_signals {c : κ} (hs : s.deliver c = some s') :
    s'.owner.efd = if s.owner.wantEfd && !s'.owner.wantEfd then s.owner.efd + 1
      else s.owner.efd := by
  obtain ⟨garbage, queue, cnt, batch, -, rfl⟩ := deliver_spec hs
  dsimp only
  rw [Owner.efd_pause, Owner.wantEfd_pause]
  rcases lt_or_ge 0 cnt with hpos | hle
  · obtain ⟨hw, he⟩ := s.append_signals queue hpos
    rw [he, hw]
    simp
  · have hsame : s.append queue cnt = { s with
        owner := { s.owner with rcvqsz := s.owner.rcvqsz + cnt } } := if_neg hle.not_gt
    rw [hsame]
    simp

theorem signals_bounded (rcvhwm : Int) {tr : List (Recv κ τ × RecvLabel κ τ)}
    (hr : Run step (init rcvhwm) tr s) :
    Visits (fun s => s.owner.efd ≤ Fintype.card τ + 1) tr s :=
  visits_mono (fun _ => Few.bound) (hr.visits (I := Few) (C := fun _ _ => True) (Nat.zero_le _)
    (fun _ _ _ h _ hs => few_step h hs) fun _ _ => trivial)

def signalled : List (RecvLabel Unit Unit) :=
  [.get () false, .timeout ()] ++ batch 1 (letter 65) ++ [.get () false, .get () false] ++
    batch 2 (letter 66)

theorem signals_bounded_signalled : Visits (fun s : Recv Unit Unit => s.owner.efd ≤ 2)
      (trace step (init 1000) signalled) (final step (init 1000) signalled) ∧
    (final step (init 1000) signalled).owner.efd = 2 :=
  ⟨signals_bounded 1000 (run_final rfl), rfl⟩

def Armed (s : Recv κ τ) : Prop := ∀ t, s.consumers t = .ready → 0 < s.owner.efd

omit [DecidableEq κ] [Fintype τ] in
theorem armed_goto [Subsingleton τ] {t : τ} {pc : GetPc} {o : Owner} (hp : pc ≠ .ready) :
    Armed { s.goto t pc with owner := o } := by
  intro u hu
  obtain rfl := Subsingleton.elim u t
  exact absurd (by simpa [goto] using hu) hp

omit [DecidableEq κ] [Fintype τ] in
theorem armed_take [Subsingleton τ] (h : s.Armed) (t : τ) : (s.take t).Armed := by
  simp only [take]
  split
  · intro u hu
    obtain rfl := Subsingleton.elim u t
    simp [goto] at hu
  · exact h

omit [Fintype τ] in
theorem armed_step [Subsingleton τ] (h : s.Armed) (hs : s.step l = some s') : s'.Armed := by
  simp only [step] at hs
  split at hs
  case isTrue => cases hs
  case isFalse =>
    cases l with
    | read c cnt =>
      simp only [read] at hs
      split at hs <;> cases hs
      exact h
    | event c a fr =>
      simp only [event] at hs
      split at hs
      · obtain ⟨r, -, rfl⟩ := Option.map_eq_some_iff.mp hs
        exact h
      · cases hs
    | deliver c =>
      have hsig := deliver_signals hs
      obtain ⟨garbage, queue, cnt, batch, -, rfl⟩ := deliver_spec hs
      obtain ⟨-, -, -, hcons, -⟩ := s.append_same queue cnt
      intro t ht
      have ht : s.consumers t = .ready := by simpa [handle, hcons] using ht
      have hpos := h t ht
      rw [hsig]
      split <;> omega
    | get t donwait =>
      simp only [get] at hs
      split at hs
      · split at hs
        · split at hs <;> cases hs
          · exact h
          · exact armed_goto (by simp)
        · cases hs
          exact armed_take h t
      · cases hs
    | efdReady t =>
      simp only [efdReady] at hs
      split at hs
      · split at hs <;> cases hs
        rename_i hpos
        exact fun _ _ => hpos
      · cases hs
    | timeout t =>
      simp only [timeout] at hs
      split at hs
      · split at hs <;> cases hs
        exact armed_goto (by simp)
      · cases hs
    | unsignal t =>
      simp only [unsignal] at hs
      split at hs <;> cases hs
      exact armed_goto (by simp)
    | relock t =>
      simp only [relock] at hs
      split at hs
      · split at hs <;> cases hs
        · exact h
        · exact armed_take h t
      · cases hs
    | destroy a =>
      simp only [destroy] at hs
      split at hs <;> cases hs
      exact h

omit [Fintype τ] in
theorem efd_step (hs : s.step l = some s') (hd : ∀ c, l ≠ .deliver c) (hu : ∀ t, l ≠ .unsignal t) :
    s'.owner.efd = s.owner.efd := by
  have ht : ∀ t, (s.take t).owner.efd = s.owner.efd := by
    intro t
    simp only [take]
    split
    · exact Owner.efd_resume _
    · rfl
  simp only [step] at hs
  split at hs
  case isTrue => cases hs
  case isFalse =>
    cases l with
    | read c cnt =>
      simp only [read] at hs
      split at hs <;> cases hs
      rfl
    | event c a fr =>
      simp only [event] at hs
      split at hs
      · obtain ⟨r, -, rfl⟩ := Option.map_eq_some_iff.mp hs
        rfl
      · cases hs
    | deliver c => exact absurd rfl (hd c)
    | get t donwait =>
      simp only [get] at hs
      split at hs
      · split at hs
        · split at hs <;> cases hs <;> rfl
        · cases hs
          exact ht t
      · cases hs
    | efdReady t | timeout t =>
      simp only [efdReady, timeout] at hs
      split at hs
      · split at hs <;> cases hs
        rfl
      · cases hs
    | unsignal t => exact absurd rfl (hu t)
    | relock t =>
      simp only [relock] at hs
      split at hs
      · split at hs <;> cases hs
        · rfl
        · exact ht t
      · cases hs
    | destroy a =>
      simp only [destroy] at hs
      split at hs <;> cases hs
      rfl

end Recv

namespace EfdRecv

variable {κ τ E : Type} [DecidableEq κ] [DecidableEq τ] [Fintype τ] {I : Efd E} {count : E → Nat}
  {n : Nat} {s s' : EfdRecv κ τ E} {l : RecvLabel κ τ}

structure Wired (count : E → Nat) (s : EfdRecv κ τ E) : Prop where
  count : count s.efd = s.recv.owner.efd
  few : s.recv.Few
  sound : s.abort = false

def Follows (I : Efd E) (count : E → Nat) (s : EfdRecv κ τ E) (l : RecvLabel κ τ) : Prop :=
  (s.step I l).map recv = s.recv.step l ∧ ∀ s', s.step I l = some s' → s'.Wired count

omit [DecidableEq κ] [DecidableEq τ] in
theorem Wired.bound (h : s.Wired count) : count s.efd ≤ Fintype.card τ + 1 := by
  rw [h.count]
  exact h.few.bound

omit [Fintype τ] in
theorem step_live (h : s.abort = false) (hf : s.recv.fault = false) : s.step I l =
    match l with
    | .deliver c => s.deliver I c
    | .efdReady t => s.efdReady I t
    | .timeout t => s.timeout I t
    | .unsignal t => s.unsignal I t
    | l => (s.recv.step l).map fun recv => { s with recv := recv } :=
  if_neg (by simp [h, hf])

theorem follows_of (h : s.Wired count) {o : Option (EfdRecv κ τ E)} (hs : s.step I l = o)
    (hr : o.map recv = s.recv.step l)
    (hw : ∀ s', o = some s' → count s'.efd = s'.recv.owner.efd ∧ s'.abort = false) :
    s.Follows I count l := by
  subst hs
  refine ⟨hr, fun s' hs' => ?_⟩
  obtain ⟨hc, ha⟩ := hw s' hs'
  rw [hs', Option.map_some] at hr
  exact ⟨hc, Recv.few_step h.few hr.symm, ha⟩

theorem follows_deliver (hI : I.Lawful count n) (hn : Fintype.card τ + 1 ≤ n) (h : s.Wired count)
    (hf : s.recv.fault = false) (c : κ) : s.Follows I count (.deliver c) := by
  have hrs : s.recv.step (.deliver c) = s.recv.deliver c := by
    rw [Recv.step, hf]
    rfl
  cases hd : s.recv.deliver c with
  | none =>
    refine follows_of h (o := none) ((step_live h.sound hf).trans ?_) (hrs.trans hd).symm (by simp)
    simp only [deliver, hd, Option.map_none]
  | some recv =>
    have hsig := Recv.deliver_signals hd
    have hlt : s.recv.owner.wantEfd = true → count s.efd < n := by
      intro hw
      have hfew := h.few
      have hp := s.recv.pending_le
      rw [Recv.Few, hw, if_pos rfl, ← h.count] at hfew
      omega
    have ho : ∃ efd, s.step I (.deliver c) = some ⟨recv, efd, false⟩ ∧
        count efd = recv.owner.efd := by
      rw [step_live h.sound hf]
      simp only [deliver, hd, Option.map_some, h.sound]
      split
      case isTrue hw =>
        rw [if_pos hw] at hsig
        obtain ⟨efd, he, hc⟩ := hI.signal s.efd (hlt (Bool.and_eq_true_iff.mp hw).1)
        exact ⟨efd, by rw [he], by rw [hc, h.count, hsig]⟩
      case isFalse hw =>
        rw [if_neg hw] at hsig
        exact ⟨s.efd, rfl, by rw [h.count, hsig]⟩
    obtain ⟨efd, ho, hc⟩ := ho
    exact follows_of h ho (hrs.trans hd).symm fun s' hs' => by cases hs'; exact ⟨hc, rfl⟩

theorem follows_unsignal (hI : I.Lawful count n) (hn : Fintype.card τ + 1 ≤ n) (h : s.Wired count)
    (hf : s.recv.fault = false) {t : τ}
    (hu : s.recv.consumers t = .ready → I.Tolerant count ∨ 0 < s.recv.owner.efd) :
    s.Follows I count (.unsignal t) := by
  have hrs : s.recv.step (.unsignal t) = s.recv.unsignal t := by
    rw [Recv.step, hf]
    rfl
  by_cases hp : s.recv.consumers t = .ready
  case neg =>
    refine follows_of h (o := none) ((step_live h.sound hf).trans ?_) ?_ (by simp)
    · simp only [unsignal]
    · rw [hrs, Recv.unsignal]
      split
      case h_1 hr => exact absurd hr hp
      case h_2 => rfl
  have hread : ∃ efd, I.unsignal s.efd = some (efd, false) ∧ count efd = 0 := by
    rcases Nat.eq_zero_or_pos (count s.efd) with hz | hpos
    · rcases hu hp with hu | hu
      · exact hu s.efd hz
      · rw [← h.count, hz] at hu
        exact absurd hu (Nat.lt_irrefl 0)
    · exact hI.unsignal s.efd hpos (h.bound.trans hn)
  obtain ⟨efd, he, hc⟩ := hread
  refine follows_of h (step_live h.sound hf) ?_ ?_ <;> simp only [unsignal, hp, he]
  · simp [hrs, Recv.unsignal, hp]
  · intro s' hs'
    cases hs'
    exact ⟨hc, h.sound⟩

theorem follows_step (hI : I.Lawful count n) (hn : Fintype.card τ + 1 ≤ n) (h : s.Wired count)
    (hu : ∀ t, l = .unsignal t → s.recv.consumers t = .ready →
      I.Tolerant count ∨ 0 < s.recv.owner.efd) : s.Follows I count l := by
  cases hf : s.recv.fault with
  | true =>
    have hr : s.recv.step l = none := by simp [Recv.step, hf]
    exact follows_of h (o := none) (by simp [step, hf]) hr.symm (by simp)
  | false =>
    have hother : (∀ c, l ≠ .deliver c) → (∀ t, l ≠ .unsignal t) →
        s.step I l = ((s.recv.step l).map fun recv => { s with recv := recv }) →
        s.Follows I count l := by
      intro hd hu hs
      refine follows_of h hs (by simp [Function.comp_def]) fun s' hs' => ?_
      obtain ⟨recv, ht, rfl⟩ := Option.map_eq_some_iff.mp hs'
      exact ⟨h.count.trans (Recv.efd_step ht hd hu).symm, h.sound⟩
    cases l with
    | deliver c => exact follows_deliver hI hn h hf c
    | unsignal t => exact follows_unsignal hI hn h hf (hu t rfl)
    | efdReady t =>
      refine hother (by simp) (by simp) ((step_live h.sound hf).trans ?_)
      simp only [efdReady, Recv.step, hf, hI.readable, h.count, Recv.efdReady]
      cases s.recv.consumers t <;> by_cases hpos : 0 < s.recv.owner.efd <;> simp [hpos]
    | timeout t =>
      refine hother (by simp) (by simp) ((step_live h.sound hf).trans ?_)
      simp only [timeout, Recv.step, hf, hI.readable, h.count, Recv.timeout]
      cases s.recv.consumers t <;> by_cases hpos : 0 < s.recv.owner.efd <;> simp [hpos]
    | read | event | get | relock | destroy =>
      exact hother (by simp) (by simp) (step_live h.sound hf)

omit [DecidableEq κ] [DecidableEq τ] in
theorem wired_init (hI : I.Lawful count n) (rcvhwm : Int) :
    (init I rcvhwm : EfdRecv κ τ E).Wired count where
  count := hI.init
  few := Nat.zero_le _
  sound := rfl

theorem exec_follows (hI : I.Lawful count n) (hn : Fintype.card τ + 1 ≤ n) (h : s.Wired count)
    (hu : I.Tolerant count ∨ Subsingleton τ ∧ s.recv.Armed) (ls : List (RecvLabel κ τ)) :
    (exec (step I) s ls).map recv = exec Recv.step s.recv ls := by
  induction ls generalizing s with
  | nil => rfl
  | cons l ls ih =>
    obtain ⟨hr, hw⟩ := follows_step (l := l) hI hn h fun t _ ht => hu.imp_right fun hu => hu.2 t ht
    rw [exec, exec]
    cases hs : s.step I l with
    | none =>
      rw [hs] at hr
      rw [← hr]
      rfl
    | some s' =>
      rw [hs, Option.map_some] at hr
      rw [← hr]
      have ha : I.Tolerant count ∨ Subsingleton τ ∧ s'.recv.Armed := by
        rcases hu with hu | hu
        · exact .inl hu
        · have hone := hu.1
          exact .inr ⟨hone, Recv.armed_step hu.2 hr.symm⟩
      exact ih (hw s' hs) ha

theorem same_runs (hI : I.Lawful count n) (hn : Fintype.card τ + 1 ≤ n)
    (hu : I.Tolerant count ∨ Subsingleton τ) (rcvhwm : Int) (ls : List (RecvLabel κ τ)) :
    (exec (step I) (init I rcvhwm) ls).map recv = exec Recv.step (.init rcvhwm) ls :=
  exec_follows hI hn (wired_init hI rcvhwm) (hu.imp_right fun hone => ⟨hone, fun _ => nofun⟩) ls

theorem every_efd {capacity : Nat} (ht : Fintype.card τ + 1 < Efd.bufSize)
    (hc : Fintype.card τ + 1 ≤ capacity) (rcvhwm : Int) (ls : List (RecvLabel κ τ)) :
    (exec (step (.pipe capacity)) (init (.pipe capacity) rcvhwm) ls).map recv =
        exec Recv.step (.init rcvhwm) ls ∧
      (exec (step (.socketpair capacity)) (init (.socketpair capacity) rcvhwm) ls).map recv =
        exec Recv.step (.init rcvhwm) ls ∧
      (Subsingleton τ → (exec (step .eventfd) (init .eventfd rcvhwm) ls).map recv =
        exec Recv.step (.init rcvhwm) ls) := by
  have hp := same_runs (κ := κ) (Efd.pipe_lawful hc ht) (Nat.le_refl _) (.inl Efd.pipe_tolerant)
    rcvhwm ls
  have he : Fintype.card τ + 1 ≤ Efd.eventfdMax := ht.le.trans (by decide)
  exact ⟨hp, hp, fun hone =>
    same_runs (Efd.eventfd_lawful he) (Nat.le_refl _) (.inr hone) rcvhwm ls⟩

theorem every_efd_waited :
    (exec (step (.pipe 2)) (init (.pipe 2) 1000) Recv.waited).map recv =
        exec Recv.step (.init 1000) Recv.waited ∧
      (exec (step (.socketpair 2)) (init (.socketpair 2) 1000) Recv.waited).map recv =
        exec Recv.step (.init 1000) Recv.waited ∧
      (Subsingleton Unit → (exec (step .eventfd) (init .eventfd 1000) Recv.waited).map recv =
        exec Recv.step (.init 1000) Recv.waited) :=
  every_efd (by decide) (by decide) 1000 Recv.waited

theorem eventfd_exact (hn : Fintype.card τ + 1 ≤ Efd.eventfdMax) (rcvhwm : Int)
    {s : EfdRecv κ τ Nat} {tr : List (EfdRecv κ τ Nat × RecvLabel κ τ)}
    (hr : Run (step Efd.eventfd) (init Efd.eventfd rcvhwm) tr s) :
    Steps (fun s l => ∀ t, l = .unsignal t → 0 < s.efd) tr ↔
      Visits (fun s => s.abort = false) tr s := by
  have hI : Efd.eventfd.Lawful id (Fintype.card τ + 1) := Efd.eventfd_lawful hn
  refine Run.exact (I := Wired id) (A := fun _ _ => True) (wired_init hI rcvhwm)
    (fun _ h => h.sound) ?_ ?_ hr (fun _ _ => trivial)
  · intro s l s' h _ hc hs
    exact (follows_step hI (Nat.le_refl _) h fun t ht _ => .inr (h.count ▸ hc t ht)).2 s' hs
  · intro s l s' h _ hc hs
    push Not at hc
    obtain ⟨t, rfl, hz⟩ := hc
    have he : Efd.eventfd.unsignal s.efd = none := if_neg hz.not_gt
    simp only [step] at hs
    split at hs
    case isTrue => cases hs
    case isFalse =>
      simp only [unsignal, he] at hs
      split at hs <;> cases hs
      simp

def contended : List (RecvLabel Unit Bool) :=
  [.get true false, .get false false, .read () 0, .event () 1 (letter 65), .deliver (),
    .efdReady true, .efdReady false, .unsignal true, .unsignal false]

theorem eventfd_exact_contended : ¬ Visits (fun s : EfdRecv Unit Bool Nat => s.abort = false)
    (trace (step .eventfd) (init .eventfd 1000) contended)
    (final (step .eventfd) (init .eventfd 1000) contended) := fun h =>
  absurd ((eventfd_exact (by decide) 1000 (run_final (k := contended) rfl)).mpr h) (by decide)

end EfdRecv

end Fsock
