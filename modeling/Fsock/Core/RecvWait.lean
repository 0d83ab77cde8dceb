import Fsock.Core.RecvCount

namespace Fsock

open Transition Segment Queue

namespace RecvPc

def batch : RecvPc → List Frame
  | .idle => []
  | .parsing _ _ _ batch => batch

end RecvPc

inductive GetPc.Synced : GetPc → Owner → Prop
  | idle {o : Owner} (he : o.efd = 0) : Synced .idle o
  | waiting {o : Owner} (he : o.efd = 0) (hw : o.wantEfd = true) : Synced .waiting o
  | signalled {o : Owner} (he : 0 < o.efd) (hw : o.wantEfd = false)
      (hn : o.events.empty = false) : Synced .waiting o
  | ready {o : Owner} (hw : o.wantEfd = false) (hn : o.events.empty = false) : Synced .ready o
  | relock {o : Owner} (he : o.efd = 0) (hw : o.wantEfd = false)
      (hn : o.events.empty = false) : Synced .relock o

namespace Recv

section
variable {κ τ : Type} {s s' : Recv κ τ}

theorem append_signals (s : Recv κ τ) (queue : Queue Addr) {cnt : Int} (hpos : 0 < cnt) :
    (s.append queue cnt).owner.wantEfd = false ∧ (s.append queue cnt).owner.efd =
      if s.owner.wantEfd then s.owner.efd + 1 else s.owner.efd := by
  unfold append Owner.signal
  dsimp only
  rw [if_pos hpos]
  dsimp only
  split
  case isTrue hw => exact ⟨rfl, rfl⟩
  case isFalse hw => exact ⟨by simpa using hw, rfl⟩

theorem Apart.filled {xs : List Addr} {loc : κ → List Addr} (h : s.Apart xs loc) {c : κ}
    (hb : (s.handlers c).batch ≠ []) : loc c ≠ [] := by
  intro hl
  have hk := h.keeps c
  rw [hl] at hk
  cases hp : s.handlers c with
  | idle => simp [hp, RecvPc.batch] at hb
  | parsing garbage queue cnt batch =>
    rw [hp] at hk hb
    exact hb (List.map_eq_nil_iff.mp hk.2.1.symm)

end

variable {κ : Type} {s s' : Recv κ Unit} {l : RecvLabel κ Unit}

def Whole (s : Recv κ Unit) (l : RecvLabel κ Unit) : Prop :=
  ∀ c, l = .deliver c → (s.handlers c).garbage = 0 ∧ (s.handlers c).batch ≠ []

def Wanted (s : Recv κ Unit) (l : RecvLabel κ Unit) : Prop :=
  ∀ c, l = .deliver c → s.owner.wantEfd = true → s.consumers () = .waiting

structure Ready (s : Recv κ Unit) : Prop where
  apart : ∃ xs loc, s.Apart xs loc
  synced : (s.consumers ()).Synced s.owner
  sound : s.fault = false

theorem ready_init (rcvhwm : Int) : (init rcvhwm : Recv κ Unit).Ready where
  apart := ⟨[], _, apart_init rcvhwm⟩
  synced := .idle rfl
  sound := rfl

theorem goto_synced (s : Recv κ Unit) (pc : GetPc) {o : Owner} (h : pc.Synced o) :
    ((s.goto () pc).consumers ()).Synced o := by
  simpa [goto] using h

theorem deliver_fills {xs : List Addr} {loc : κ → List Addr} [DecidableEq κ]
    (h : s.Apart xs loc) {c : κ} (hg : (s.handlers c).garbage = 0)
    (hb : (s.handlers c).batch ≠ []) (hs : s.deliver c = some s') :
    s'.owner.events.empty = false := by
  have h' := apart_deliver h hg hs
  rw [← Bool.not_eq_true, h'.holding.events.empty_eq, List.append_eq_nil_iff]
  exact fun hn => h.filled hb hn.2

theorem synced_deliver {xs : List Addr} {loc : κ → List Addr} [DecidableEq κ]
    (h : s.Apart xs loc) (hsync : (s.consumers ()).Synced s.owner) {c : κ}
    (hg : (s.handlers c).garbage = 0) (hb : (s.handlers c).batch ≠ [])
    (hw : s.owner.wantEfd = true → s.consumers () = .waiting) (hs : s.deliver c = some s') :
    (s'.consumers ()).Synced s'.owner ∧ s'.fault = s.fault := by
  have hn := deliver_fills h hg hb hs
  have hfill := h.filled hb
  obtain ⟨garbage, queue, cnt, batch, hp, rfl⟩ := deliver_spec hs
  have hk := h.keeps c
  rw [hp] at hk hg
  obtain ⟨-, -, hc⟩ := hk
  obtain rfl : garbage = 0 := hg
  have hpos : 0 < cnt := by
    have hl := List.length_pos_iff.mpr hfill
    omega
  obtain ⟨hwant, hefd⟩ := s.append_signals queue hpos
  obtain ⟨-, -, -, hcons, -, -, hfault⟩ := s.append_same queue cnt
  refine ⟨?_, hfault⟩
  have hcons' : ((s.append queue cnt).handle c .idle).consumers () = s.consumers () := by
    rw [handle, hcons]
  change GetPc.Synced (((s.append queue cnt).handle c .idle).consumers ()) (s.append queue cnt).owner.pause
  change (s.append queue cnt).owner.pause.events.empty = false at hn
  rw [hcons']
  rw [← Owner.efd_pause] at hefd
  rw [← Owner.wantEfd_pause] at hwant
  generalize s.consumers () = pc at *
  cases hsync with
  | idle he =>
    have hoff : s.owner.wantEfd = false := by
      cases ho : s.owner.wantEfd with
      | false => rfl
      | true => cases hw ho
    rw [hoff, if_neg (by decide)] at hefd
    exact .idle (hefd.trans he)
  | waiting he hon =>
    rw [hon, if_pos rfl] at hefd
    exact .signalled (by omega) hwant hn
  | signalled he hoff =>
    rw [hoff, if_neg (by decide)] at hefd
    exact .signalled (by omega) hwant hn
  | ready hoff => exact .ready hwant hn
  | relock he hoff =>
    rw [hoff, if_neg (by decide)] at hefd
    exact .relock (hefd.trans he) hwant hn

theorem synced_take {a : Addr} {xs : List Addr} (h : Lists s.next s.owner.events (a :: xs))
    (he : s.owner.efd = 0) :
    ((s.take ()).consumers ()).Synced (s.take ()).owner ∧ (s.take ()).fault = s.fault := by
  obtain ⟨events, -, ht⟩ := take_spec h ()
  rw [ht]
  exact ⟨goto_synced s .idle (.idle (by simpa using he)), rfl⟩

theorem synced_get {xs : List Addr} (h : Lists s.next s.owner.events xs)
    (hsync : (s.consumers ()).Synced s.owner) {donwait : Bool}
    (hs : s.get () donwait = some s') :
    (s'.consumers ()).Synced s'.owner ∧ s'.fault = s.fault := by
  simp only [get] at hs
  split at hs
  case h_2 => cases hs
  case h_1 hp =>
    have he : s.owner.efd = 0 := by
      rw [hp] at hsync
      cases hsync with
      | idle he => exact he
    split at hs
    case isTrue =>
      split at hs <;> cases hs
      · exact ⟨hsync, rfl⟩
      · exact ⟨goto_synced s .waiting (.waiting he rfl), rfl⟩
    case isFalse hne =>
      cases hs
      cases xs with
      | nil => exact absurd (h.empty_eq.mpr rfl) hne
      | cons a xs => exact synced_take h he

theorem synced_relock {xs : List Addr} (h : Lists s.next s.owner.events xs)
    (hsync : (s.consumers ()).Synced s.owner) (hs : s.relock () = some s') :
    (s'.consumers ()).Synced s'.owner ∧ s'.fault = s.fault := by
  simp only [relock] at hs
  split at hs
  case h_2 => cases hs
  case h_1 hp =>
    rw [hp] at hsync
    cases hsync with
    | relock he hw hn =>
      rw [if_neg (by rw [hn]; decide)] at hs
      cases hs
      cases xs with
      | nil => rw [h.empty_eq.mpr rfl] at hn; cases hn
      | cons a xs => exact synced_take h he

theorem synced_efdReady (hsync : (s.consumers ()).Synced s.owner)
    (hs : s.efdReady () = some s') : (s'.consumers ()).Synced s'.owner ∧ s'.fault = s.fault := by
  simp only [efdReady] at hs
  split at hs
  case h_2 => cases hs
  case h_1 hp =>
    rw [hp] at hsync
    split at hs <;> cases hs
    rename_i hpos
    cases hsync with
    | waiting he => omega
    | signalled _ hw hn => exact ⟨goto_synced s .ready (.ready hw hn), rfl⟩

theorem synced_timeout (hs : s.timeout () = some s') : (s'.consumers ()).Synced s'.owner ∧ s'.fault = s.fault := by
  simp only [timeout] at hs
  split at hs
  case h_2 => cases hs
  case h_1 hp =>
    split at hs <;> cases hs
    rename_i hpos
    have he : s.owner.efd = 0 := by omega
    exact ⟨goto_synced s .idle (.idle he), rfl⟩

theorem synced_unsignal (hsync : (s.consumers ()).Synced s.owner)
    (hs : s.unsignal () = some s') : (s'.consumers ()).Synced s'.owner ∧ s'.fault = s.fault := by
  simp only [unsignal] at hs
  split at hs
  case h_2 => cases hs
  case h_1 hp =>
    rw [hp] at hsync
    cases hs
    cases hsync with
    | ready hw hn => exact ⟨goto_synced s .relock (.relock rfl hw hn), rfl⟩

theorem ready_step [DecidableEq κ] (h : s.Ready) (ha : s.Whole l) (hw : s.Wanted l)
    (hs : s.step l = some s') : s'.Ready := by
  obtain ⟨xs, loc, hapart⟩ := h.apart
  have hsync := h.synced
  have hfault := h.sound
  have hz : s.Zeroed l := fun c hl => (ha c hl).1
  have hkeep : (s'.consumers ()).Synced s'.owner ∧ s'.fault = s.fault := by
    simp only [step] at hs
    rw [if_neg (by rw [hfault]; decide)] at hs
    cases l with
    | read c cnt =>
      simp only [read] at hs
      split at hs <;> cases hs
      exact ⟨hsync, rfl⟩
    | event c a fr =>
      simp only [event] at hs
      split at hs
      · obtain ⟨r, -, rfl⟩ := Option.map_eq_some_iff.mp hs
        exact ⟨hsync, rfl⟩
      · cases hs
    | deliver c =>
      obtain ⟨hg, hb⟩ := ha c rfl
      exact synced_deliver hapart hsync hg hb (hw c rfl) hs
    | get t donwait => exact synced_get hapart.holding.events hsync hs
    | efdReady t => exact synced_efdReady hsync hs
    | timeout t => exact synced_timeout hs
    | unsignal t => exact synced_unsignal hsync hs
    | relock t => exact synced_relock hapart.holding.events hsync hs
    | destroy a =>
      simp only [destroy] at hs
      split at hs <;> cases hs
      exact ⟨hsync, rfl⟩
  exact ⟨apart_step hapart hz hs |>.imp fun _ h => h, hkeep.1, hkeep.2.trans hfault⟩

theorem never_empty_pop [DecidableEq κ] (rcvhwm : Int) {tr : List (Recv κ Unit × RecvLabel κ Unit)}
    (hr : Run step (init rcvhwm) tr s) (ha : Steps Whole tr) (hw : Steps Wanted tr) :
    Visits (fun s => s.fault = false) tr s :=
  visits_mono (fun _ h => h.sound) (hr.visits (ready_init rcvhwm)
    (fun _ _ _ h hc hs => ready_step h hc.1 hc.2 hs) (steps_and ha hw))

instance [Fintype κ] [DecidableEq κ] (s : Recv κ Unit) (l : RecvLabel κ Unit) :
    Decidable (s.Whole l) :=
  inferInstanceAs (Decidable (∀ c, l = .deliver c →
    (s.handlers c).garbage = 0 ∧ (s.handlers c).batch ≠ []))

instance [Fintype κ] [DecidableEq κ] (s : Recv κ Unit) (l : RecvLabel κ Unit) :
    Decidable (s.Wanted l) :=
  inferInstanceAs (Decidable (∀ c, l = .deliver c → s.owner.wantEfd = true →
    s.consumers () = .waiting))

def batch (a : Addr) (fr : Frame) : List (RecvLabel Unit Unit) :=
  [.read () 0, .event () a fr, .deliver ()]

def waited : List (RecvLabel Unit Unit) :=
  [.get () false, .timeout (), .get () false] ++ batch 1 (letter 65) ++ [.efdReady ()] ++
    batch 2 (letter 66) ++ [.unsignal (), .relock (), .get () true, .get () true]

def expired : List (RecvLabel Unit Unit) :=
  [.get () false, .timeout ()] ++ batch 1 (letter 65) ++
    [.get () false, .get () false, .efdReady (), .unsignal (), .relock ()]

theorem never_empty_pop_waited : Visits (fun s : Recv Unit Unit => s.fault = false)
    (trace step (init 1000) waited) (final step (init 1000) waited) :=
  never_empty_pop 1000 (run_final rfl) (by decide) (by decide)

theorem stale_signal_asserts : ∃ s, Run step (init 1000) (trace step (init 1000) expired) s ∧
    Steps Whole (trace step (init 1000) expired) ∧ s.owner.events.empty = true ∧
    s.fault = true :=
  ⟨_, run_final rfl, by decide, rfl, rfl⟩

end Recv

end Fsock
