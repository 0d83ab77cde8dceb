import Fsock.Lib.Simulation
import Fsock.Core.Flow
import Fsock.Core.SendCount
import Fsock.Core.RecvCount

namespace Fsock

open Transition

namespace RecvPc

def cnt : RecvPc → Int
  | .idle => 0
  | .parsing _ _ cnt _ => cnt

end RecvPc

namespace Owner

structure Paused (o : Owner) : Prop where
  positive : 0 < o.rcvhwm
  above : o.rcvhwm < o.rcvqsz → o.reading = stopOp
  held : o.reading = stopOp → o.rcvhwm ≤ o.rcvqsz

theorem paused_init {rcvhwm : Int} (h : 0 < rcvhwm) : (init rcvhwm).Paused where
  positive := h
  above hq := absurd hq h.le.not_gt
  held := nofun

theorem Paused.pause {o : Owner} (hp : 0 < o.rcvhwm)
    (hr : o.reading = stopOp → o.rcvhwm ≤ o.rcvqsz) : o.pause.Paused := by
  simp only [Owner.pause]
  split
  case isTrue hc => exact ⟨hp, fun _ => rfl, fun _ => hc.2.le⟩
  case isFalse hc => exact ⟨hp, fun hq => absurd ⟨hp, hq⟩ hc, hr⟩

theorem Paused.resume {o : Owner} (hp : 0 < o.rcvhwm)
    (hr : o.rcvhwm < o.rcvqsz → o.reading = stopOp) : o.resume.Paused := by
  simp only [Owner.resume]
  split
  case isTrue hc =>
    have hstop : (0 : Int) ≠ stopOp := by decide
    exact ⟨hp, fun hq => absurd hc.2.2 hq.le.not_gt, fun hw => absurd hw hstop⟩
  case isFalse hc =>
    refine ⟨hp, hr, fun hw => ?_⟩
    by_contra hlt
    exact hc ⟨hp, hw, not_le.mp hlt⟩

theorem Paused.same {o o' : Owner} (h : o.Paused) (hq : o'.rcvqsz = o.rcvqsz)
    (hm : o'.rcvhwm = o.rcvhwm) (hr : o'.reading = o.reading) : o'.Paused := by
  obtain ⟨hp, ha, hh⟩ := h
  constructor
  · rwa [hm]
  · rwa [hm, hq, hr]
  · rwa [hm, hq, hr]

theorem rcvhwm_signal (o : Owner) : o.signal.rcvhwm = o.rcvhwm := by
  simp only [signal]
  split <;> rfl

theorem reading_signal (o : Owner) : o.signal.reading = o.reading := by
  simp only [signal]
  split <;> rfl

end Owner

namespace Recv

variable {κ τ : Type} {s s' : Recv κ τ} {l : RecvLabel κ τ}

theorem append_flow (s : Recv κ τ) (queue : Queue Addr) (cnt : Int) :
    (s.append queue cnt).owner.rcvhwm = s.owner.rcvhwm ∧
      (s.append queue cnt).owner.reading = s.owner.reading := by
  unfold append
  dsimp only
  split
  · exact ⟨Owner.rcvhwm_signal _, Owner.reading_signal _⟩
  · exact ⟨rfl, rfl⟩

variable [DecidableEq κ]

def Counted (s : Recv κ τ) (l : RecvLabel κ τ) : Prop :=
  ∀ c, l = .deliver c → 0 ≤ (s.handlers c).cnt

theorem paused_deliver (h : s.owner.Paused) {c : κ} (hc : 0 ≤ (s.handlers c).cnt)
    (hs : s.deliver c = some s') : s'.owner.Paused := by
  obtain ⟨garbage, queue, cnt, batch, hp, rfl⟩ := deliver_spec hs
  obtain ⟨hpos, -, hheld⟩ := h
  obtain ⟨hm, hr⟩ := s.append_flow queue cnt
  have hq := (s.append_same queue cnt).1
  rw [hp] at hc
  have hadd : s.owner.rcvqsz ≤ (s.append queue cnt).owner.rcvqsz := by
    rw [hq]
    exact le_add_of_nonneg_right hc
  refine Owner.Paused.pause (hm ▸ hpos) ?_
  rw [hr, hm]
  exact fun hstop => (hheld hstop).trans hadd

variable [DecidableEq τ]

omit [DecidableEq κ] in
theorem paused_take (h : s.owner.Paused) (t : τ) : (s.take t).owner.Paused := by
  simp only [take]
  split
  case h_1 =>
    refine Owner.Paused.resume h.positive fun hq => h.above ?_
    dsimp only at hq
    omega
  case h_2 => exact h

theorem paused_step (h : s.owner.Paused) (hc : s.Counted l) (hs : s.step l = some s') :
    s'.owner.Paused := by
  simp only [step] at hs
  split at hs
  case isTrue => cases hs
  case isFalse =>
    cases l with
    | read c cnt =>
      simp only [read] at hs
      split at hs <;> cases hs
      exact h
    | event c a fr =>
      simp only [event] at hs
      split at hs
      · obtain ⟨r, -, rfl⟩ := Option.map_eq_some_iff.mp hs
        exact h
      · cases hs
    | deliver c => exact paused_deliver h (hc c rfl) hs
    | get t donwait =>
      simp only [get] at hs
      split at hs
      case h_2 => cases hs
      case h_1 =>
        split at hs
        · split at hs <;> cases hs
          · exact h
          · exact h.same rfl rfl rfl
        · cases hs
          exact paused_take h t
    | efdReady t =>
      simp only [efdReady] at hs
      split at hs
      · split at hs <;> cases hs
        exact h
      · cases hs
    | timeout t =>
      simp only [timeout] at hs
      split at hs
      · split at hs <;> cases hs
        exact h
      · cases hs
    | unsignal t =>
      simp only [unsignal] at hs
      split at hs <;> cases hs
      exact h.same rfl rfl rfl
    | relock t =>
      simp only [relock] at hs
      split at hs
      · split at hs <;> cases hs
        · exact h
        · exact paused_take h t
      · cases hs
    | destroy a =>
      simp only [destroy] at hs
      split at hs <;> cases hs
      exact h

end Recv

def fitsInt (n : Int) : Prop := -2 ^ 31 ≤ n ∧ n < 2 ^ 31

theorem ofInt_lt {m n : Int} (hm : fitsInt m) (hn : fitsInt n) :
    Int32.ofInt m < Int32.ofInt n ↔ m < n := by
  rw [Int32.lt_iff_toInt_lt, Int32.toInt_ofInt_of_le hm.1 hm.2,
    Int32.toInt_ofInt_of_le hn.1 hn.2]

theorem ofInt_le {m n : Int} (hm : fitsInt m) (hn : fitsInt n) :
    Int32.ofInt m ≤ Int32.ofInt n ↔ m ≤ n := by
  rw [Int32.le_iff_toInt_le, Int32.toInt_ofInt_of_le hm.1 hm.2,
    Int32.toInt_ofInt_of_le hn.1 hn.2]

theorem ofInt_pos {n : Int} (hn : fitsInt n) : 0 < Int32.ofInt n ↔ 0 < n := by
  rw [Int32.lt_iff_toInt_lt, Int32.toInt_zero, Int32.toInt_ofInt_of_le hn.1 hn.2]

namespace Flow

def of (r : Root) (o : Owner) : Flow where
  sndqsz := .ofInt r.sndqsz
  sndhwm := .ofInt r.sndhwm
  writing := r.writing
  rcvqsz := .ofInt o.rcvqsz
  rcvhwm := .ofInt o.rcvhwm
  reading := o.reading

variable {r : Root} {o o' : Owner}

theorem countSent_of (hm : fitsInt r.sndhwm) (hq : fitsInt (r.sndqsz + 1)) :
    (of r o).countSent = of r.countSent o := by
  have hone : (1 : Int32) = .ofInt 1 := rfl
  have hc := ofInt_le hm hq
  rw [Int32.ofInt_add] at hc
  simp only [countSent, Root.countSent, of, gt_iff_lt, ge_iff_le, ofInt_pos hm, hone, hc]
  split <;> rw [← Int32.ofInt_add]

theorem settle_of (hm : fitsInt r.sndhwm) {removed : Nat} (hq : fitsInt (r.sndqsz - removed)) :
    (of r o).settle (.ofInt removed) = of (r.settle removed).1 o := by
  have hc := ofInt_lt hq hm
  rw [Int32.ofInt_sub] at hc
  simp only [settle, Root.settle, of, gt_iff_lt, ofInt_pos hm, hc]
  split
  · split <;> rw [← Int32.ofInt_sub]
  · rw [← Int32.ofInt_sub]

theorem append_of {cnt : Int} (hq : o'.rcvqsz = o.rcvqsz + cnt) (hm : o'.rcvhwm = o.rcvhwm)
    (hr : o'.reading = o.reading) (hfit : fitsInt o.rcvhwm) (hsum : fitsInt (o.rcvqsz + cnt)) :
    (of r o).append (.ofInt cnt) = of r o'.pause := by
  have hc := ofInt_lt hfit hsum
  rw [Int32.ofInt_add] at hc
  simp only [append, Owner.pause, of, gt_iff_lt, ofInt_pos hfit, hc, hq, hm]
  split
  · rw [← Int32.ofInt_add]
  · rw [← Int32.ofInt_add, hq, hm, hr]

theorem take_of (hm : fitsInt o.rcvhwm) (hq : fitsInt (o.rcvqsz - 1)) :
    (of r o).take = of r { o with rcvqsz := o.rcvqsz - 1 }.resume := by
  have hone : (1 : Int32) = .ofInt 1 := rfl
  have hc := ofInt_lt hq hm
  rw [Int32.ofInt_sub] at hc
  simp only [take, Owner.resume, of, gt_iff_lt, ofInt_pos hm, hone, hc]
  split <;> rw [← Int32.ofInt_sub]

end Flow

namespace Recv

variable {κ τ : Type} {s s' : Recv κ τ} {t : τ}

def popped (s : Recv κ τ) : Option FlowLabel :=
  (s.owner.events.pop s.next).2.2.map fun _ => .pop

theorem popped_empty (h : s.owner.events.empty = true) : s.popped = none := by
  have hq : s.owner.events.head = .null := by simpa [Queue.empty] using h
  rw [popped, Queue.pop, hq]
  rfl

variable [DecidableEq τ]

theorem take_silent (h : s.popped = none) : (s.take t).owner = s.owner := by
  simp only [popped, Option.map_eq_none_iff] at h
  simp only [take]
  split
  case h_1 hp =>
    rw [hp] at h
    cases h
  case h_2 => rfl

theorem take_moves {k : FlowLabel} (h : s.popped = some k) : k = .pop ∧ ∃ events,
    (s.take t).owner =
      { s.owner with events := events, rcvqsz := s.owner.rcvqsz - 1 }.resume := by
  simp only [popped, Option.map_eq_some_iff] at h
  obtain ⟨item, hi, rfl⟩ := h
  refine ⟨rfl, ?_⟩
  simp only [take]
  split
  case h_1 next events item' hp => exact ⟨events, rfl⟩
  case h_2 hn => exact (hn _ _ item (Prod.ext rfl (Prod.ext rfl hi))).elim

theorem get_cases {donwait : Bool} (hs : s.get t donwait = some s') : s' = s.take t ∨
    s.popped = none ∧ ∀ r, Flow.of r s'.owner = Flow.of r s.owner := by
  simp only [get] at hs
  split at hs
  case h_2 => cases hs
  case h_1 =>
    split at hs
    case isTrue he =>
      split at hs <;> cases hs <;> exact .inr ⟨popped_empty he, fun _ => rfl⟩
    case isFalse =>
      cases hs
      exact .inl rfl

theorem relock_cases (hs : s.relock t = some s') : s' = s.take t ∨
    s.popped = none ∧ ∀ r, Flow.of r s'.owner = Flow.of r s.owner := by
  simp only [relock] at hs
  split at hs
  case h_2 => cases hs
  case h_1 =>
    split at hs
    case isTrue he =>
      cases hs
      exact .inr ⟨popped_empty he, fun _ => rfl⟩
    case isFalse =>
      cases hs
      exact .inl rfl

end Recv

def RecvLabel.locks {κ σ : Type} : RecvLabel κ σ → Bool
  | .deliver _ => true
  | .get _ _ => true
  | .relock _ => true
  | _ => false

structure Base (κ τ σ ρ : Type) where
  send : Sys κ τ ρ
  recv : Recv κ σ

inductive BaseLabel (κ τ σ : Type) where
  | send (l : Label κ τ)
  | recv (l : RecvLabel κ σ)
  deriving DecidableEq

namespace Base

variable {κ τ σ ρ : Type} [DecidableEq κ] [DecidableEq τ] [DecidableEq σ] (F : Framer ρ)

def init (sndhwm rcvhwm : Int) : Base κ τ σ ρ where
  send := .init F sndhwm
  recv := .init rcvhwm

def step (s : Base κ τ σ ρ) : BaseLabel κ τ σ → Option (Base κ τ σ ρ)
  | .send l => (s.send.step F l).map fun send => { s with send := send }
  | .recv l =>
    if l.locks = true ∧ s.send.lock ≠ none then none
    else (s.recv.step l).map fun recv => { s with recv := recv }

end Base

theorem Conn.settle_pos {ρ : Type} {F : Framer ρ} {c c' : Conn ρ} {l : ConnLabel}
    (he : Effect F c l c') {removed : Nat} {mustStop : Bool}
    (hp : c'.pc = .settle removed mustStop) : c.pc = .settle removed mustStop ∨ 0 < removed := by
  have hremain : ∀ {r ol}, (remain r ol : WritePc ρ) ≠ .settle removed mustStop := by
    intro r ol
    simp only [remain]
    split <;> simp
  have hresume : ∀ {r}, (resume r : WritePc ρ) ≠ .settle removed mustStop := by
    intro r
    simp only [resume]
    split <;> simp
  have hleave : ∀ {m}, (leave m : WritePc ρ) ≠ .settle removed mustStop := by
    intro m
    simp only [leave]
    split <;> simp
  cases he with
  | insert hi => exact .inl (hi.pc ▸ hp)
  | sent _ _ hr =>
    obtain ⟨rfl, -⟩ := WritePc.settle.inj hp
    exact .inr hr
  | wrote => exact absurd hp hremain
  | merge => exact absurd hp hresume
  | @settle _ m wake =>
    cases wake
    · exact absurd hp hleave
    · cases hp
  | broadcast => exact absurd hp hleave
  | startWrite | zombie | skip => exact .inl hp
  | enter | bare | steal | wouldBlock | failed | stopWatcher | clearWriting => cases hp

namespace Base

variable {κ τ σ ρ : Type}

def flow (s : Base κ τ σ ρ) : Flow := .of s.send.root s.recv.owner

def critical (s : Base κ τ σ ρ) : BaseLabel κ τ σ → Option FlowLabel
  | .send (.account _ _) => some .sent
  | .send (.settle c) =>
    match (s.send.conns c).pc with
    | .settle removed _ => some (.removed (.ofInt removed))
    | _ => none
  | .recv (.deliver c) => some (.batch (.ofInt (s.recv.handlers c).cnt))
  | .recv (.get _ _) => s.recv.popped
  | .recv (.relock _) => s.recv.popped
  | _ => none

structure Small (s : Base κ τ σ ρ) : Prop where
  sndqsz : fitsInt s.send.root.sndqsz
  sndhwm : fitsInt s.send.root.sndhwm
  rcvqsz : fitsInt s.recv.owner.rcvqsz
  rcvhwm : fitsInt s.recv.owner.rcvhwm

def Removes (s : Base κ τ σ ρ) : Prop :=
  ∀ c removed mustStop, (s.send.conns c).pc = .settle removed mustStop → 0 < removed

variable [DecidableEq κ] [DecidableEq τ] [DecidableEq σ] {F : Framer ρ}
  {s s' : Base κ τ σ ρ} {l : BaseLabel κ τ σ}

def Lands (F : Framer ρ) (s : Base κ τ σ ρ) (l : BaseLabel κ τ σ) : Prop :=
  (∀ s', s.step F l = some s' → s'.Small) ∧
    ∀ c removed mustStop, (s.send.conns c).pc = .settle removed mustStop →
      fitsInt (removed : Int)

theorem step_recv {l : RecvLabel κ σ} (hs : s.step F (.recv l) = some s') :
    ∃ recv, s.recv.step l = some recv ∧ s' = { s with recv := recv } := by
  simp only [step] at hs
  split at hs
  · cases hs
  · obtain ⟨recv, hrecv, rfl⟩ := Option.map_eq_some_iff.mp hs
    exact ⟨recv, hrecv, rfl⟩

omit [DecidableEq σ] in
theorem send_still {send : Sys κ τ ρ} {l : Label κ τ} (hs : s.send.step F l = some send)
    (ha : ∀ t rc, l ≠ .account t rc) (hl : ∀ c, l ≠ .settle c) (o : Owner) :
    Flow.of send.root o = Flow.of s.send.root o := by
  cases Sys.effect_of_step hs with
  | account => exact absurd rfl (ha _ _)
  | settle => exact absurd rfl (hl _)
  | _ => rfl

omit [DecidableEq τ] in
theorem recv_still {recv : Recv κ σ} {l : RecvLabel κ σ} (hs : s.recv.step l = some recv)
    (hc : s.critical (.recv l) = none) (r : Root) :
    Flow.of r recv.owner = Flow.of r s.recv.owner := by
  simp only [Recv.step] at hs
  split at hs
  case isTrue => cases hs
  case isFalse =>
    cases l with
    | read c cnt =>
      simp only [Recv.read] at hs
      split at hs <;> cases hs
      rfl
    | event c a fr =>
      simp only [Recv.event] at hs
      split at hs
      · obtain ⟨q, -, rfl⟩ := Option.map_eq_some_iff.mp hs
        rfl
      · cases hs
    | deliver c => cases hc
    | get t donwait =>
      rcases Recv.get_cases hs with rfl | ⟨-, hf⟩
      · rw [Recv.take_silent hc]
      · exact hf r
    | efdReady t =>
      simp only [Recv.efdReady] at hs
      split at hs
      · split at hs <;> cases hs
        rfl
      · cases hs
    | timeout t =>
      simp only [Recv.timeout] at hs
      split at hs
      · split at hs <;> cases hs
        rfl
      · cases hs
    | unsignal t =>
      simp only [Recv.unsignal] at hs
      split at hs <;> cases hs
      rfl
    | relock t =>
      rcases Recv.relock_cases hs with rfl | ⟨-, hf⟩
      · rw [Recv.take_silent hc]
      · exact hf r
    | destroy a =>
      simp only [Recv.destroy] at hs
      split at hs <;> cases hs
      rfl

omit [DecidableEq σ] in
theorem removes_send (h : s.Removes) {send : Sys κ τ ρ} {l : Label κ τ}
    (hs : s.send.step F l = some send) : ({ s with send := send } : Base κ τ σ ρ).Removes := by
  have hupdate : ∀ {d : κ} {conn : Conn ρ} {k : ConnLabel},
      (s.send.conns d).step F k = some conn → ∀ c removed mustStop,
        (Function.update s.send.conns d conn c).pc = .settle removed mustStop → 0 < removed := by
    intro d conn k hc c removed mustStop hp
    rcases eq_or_ne c d with rfl | hcd
    · rw [Function.update_self] at hp
      exact (Conn.settle_pos (Conn.effect_of_step hc) hp).elim (h c removed mustStop) id
    · rw [Function.update_of_ne hcd] at hp
      exact h c removed mustStop hp
  cases Sys.effect_of_step hs with
  | moves | park | account => exact h
  | insert _ hc => exact hupdate hc
  | conn _ hc => exact hupdate hc
  | settle _ hc => exact hupdate hc
  | broadcast hc => exact hupdate hc

theorem removes_step (h : s.Removes) (hs : s.step F l = some s') : s'.Removes := by
  cases l with
  | send l =>
    obtain ⟨send, hsend, rfl⟩ := Option.map_eq_some_iff.mp hs
    exact removes_send h hsend
  | recv l =>
    obtain ⟨recv, -, rfl⟩ := step_recv hs
    exact h

theorem send_moves (h : s.Small) (hr : s.Removes) {l : Label κ τ} (hl : Lands F s (.send l))
    {k : FlowLabel} (hk : s.critical (.send l) = some k) (hs : s.step F (.send l) = some s') :
    s.flow.step k = some s'.flow := by
  have hsmall := (hl.1 s' hs).sndqsz
  obtain ⟨send, hsend, rfl⟩ := Option.map_eq_some_iff.mp hs
  cases l with
  | account t rc =>
    cases hk
    simp only [Sys.step, Sys.account] at hsend
    split at hsend
    case h_2 => cases hsend
    case h_1 =>
      split at hsend <;> cases hsend
      change fitsInt s.send.root.countSent.sndqsz at hsmall
      rw [Root.sndqsz_countSent] at hsmall
      exact congrArg some (Flow.countSent_of h.sndhwm hsmall)
  | settle c =>
    simp only [Sys.step, Sys.settle] at hsend
    split at hsend
    case h_2 => cases hsend
    case h_1 removed mustStop hp =>
      split at hsend
      case isFalse => cases hsend
      case isTrue =>
        obtain ⟨u, hu, rfl⟩ := Option.map_eq_some_iff.mp hsend
        obtain ⟨conn, -, rfl⟩ := Sys.touch_spec hu
        simp only [critical, hp, Option.some.injEq] at hk
        subst hk
        change fitsInt (s.send.root.settle removed).1.sndqsz at hsmall
        rw [Root.sndqsz_settle] at hsmall
        have hpos : Int32.ofInt (removed : Int) > 0 := by
          rw [gt_iff_lt, ofInt_pos (hl.2 c removed mustStop hp)]
          exact Int.natCast_pos.mpr (hr c removed mustStop hp)
        rw [Flow.step, if_pos hpos]
        exact congrArg some (Flow.settle_of h.sndhwm hsmall)
  | _ => cases hk

omit [DecidableEq κ] [DecidableEq τ] in
theorem take_moves {t : σ} {k : FlowLabel} (h : s.Small) (hp : s.recv.popped = some k)
    (hs : fitsInt (s.recv.take t).owner.rcvqsz) :
    s.flow.step k = some (.of s.send.root (s.recv.take t).owner) := by
  obtain ⟨rfl, events, ho⟩ := Recv.take_moves hp
  rw [ho, Owner.rcvqsz_resume] at hs
  rw [ho]
  exact congrArg some (Flow.take_of (o := { s.recv.owner with events := events }) h.rcvhwm hs)

theorem recv_moves (h : s.Small) {l : RecvLabel κ σ} (hl : Lands F s (.recv l))
    {k : FlowLabel} (hk : s.critical (.recv l) = some k) (hs : s.step F (.recv l) = some s') :
    s.flow.step k = some s'.flow := by
  have hsmall := (hl.1 s' hs).rcvqsz
  obtain ⟨recv, hrecv, rfl⟩ := step_recv hs
  simp only [Recv.step] at hrecv
  split at hrecv
  case isTrue => cases hrecv
  case isFalse =>
    cases l with
    | deliver c =>
      obtain ⟨garbage, queue, cnt, batch, hp, rfl⟩ := Recv.deliver_spec hrecv
      cases hk
      obtain ⟨hm, hread⟩ := s.recv.append_flow queue cnt
      have hq := (s.recv.append_same queue cnt).1
      change fitsInt (s.recv.append queue cnt).owner.pause.rcvqsz at hsmall
      rw [Owner.rcvqsz_pause, hq] at hsmall
      rw [hp, Flow.step]
      exact congrArg some (Flow.append_of hq hm hread h.rcvhwm hsmall)
    | get t donwait =>
      rcases Recv.get_cases hrecv with rfl | ⟨hn, -⟩
      · exact take_moves h hk hsmall
      · cases hn.symm.trans hk
    | relock t =>
      rcases Recv.relock_cases hrecv with rfl | ⟨hn, -⟩
      · exact take_moves h hk hsmall
      · cases hn.symm.trans hk
    | _ => cases hk

theorem simulates_flow (F : Framer ρ) : Transition.Simulates (step F) Flow.step
    (fun s : Base κ τ σ ρ => s.Small ∧ s.Removes) (Lands F) flow critical where
  keeps _ _ s' h hl hs := ⟨hl.1 s' hs, removes_step h.2 hs⟩
  silent s l s' h hl hs hk := by
    cases l with
    | send l =>
      obtain ⟨send, hsend, rfl⟩ := Option.map_eq_some_iff.mp hs
      refine send_still hsend ?_ ?_ s.recv.owner
      · rintro t rc rfl
        cases hk
      · rintro c rfl
        simp only [Sys.step, Sys.settle] at hsend
        split at hsend
        case h_2 => cases hsend
        case h_1 removed mustStop hp => simp only [critical, hp, reduceCtorEq] at hk
    | recv l =>
      obtain ⟨recv, hrecv, rfl⟩ := step_recv hs
      exact recv_still hrecv hk s.send.root
  moves s l s' k h hl hs hk := by
    cases l with
    | send l => exact send_moves h.1 h.2 hl hk hs
    | recv l => exact recv_moves h.1 hl hk hs

theorem flow_run {sndhwm rcvhwm : Int} (hsnd : fitsInt sndhwm) (hrcv : fitsInt rcvhwm)
    {tr : List (Base κ τ σ ρ × BaseLabel κ τ σ)}
    (hr : Run (step F) (init F sndhwm rcvhwm) tr s) (hl : Steps (Lands F) tr) :
    exec Flow.step (.init (.ofInt sndhwm) (.ofInt rcvhwm)) (observed critical tr) =
      some s.flow := by
  have hzero : fitsInt 0 := ⟨by decide, by decide⟩
  exact (simulates_flow F).run ⟨⟨hzero, hsnd, hzero, hrcv⟩, nofun⟩ hr hl

end Base

end Fsock
