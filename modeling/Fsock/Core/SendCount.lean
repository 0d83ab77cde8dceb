import Fsock.Lib.Run
import Fsock.Core.ListFramer
import Fsock.Core.WriterOrder
import Fsock.Core.SendStep

namespace Fsock

open Transition Segment

theorem sum_shift {κ : Type} [Fintype κ] [DecidableEq κ] {f g : κ → Int} {c : κ}
    (h : ∀ k, k ≠ c → f k = g k) : ∑ k, f k + g c = ∑ k, g k + f c := by
  have hf := Finset.add_sum_erase Finset.univ f (Finset.mem_univ c)
  have hg := Finset.add_sum_erase Finset.univ g (Finset.mem_univ c)
  have hr : ∑ k ∈ Finset.univ.erase c, f k = ∑ k ∈ Finset.univ.erase c, g k :=
    Finset.sum_congr rfl fun k hk => h k (Finset.ne_of_mem_erase hk)
  omega

namespace Pc

variable {κ : Type}

def receiver : Pc κ → Option κ
  | .insert call => some call.conn
  | _ => none

def owes (pc : Pc κ) : Int := if pc.accounting then 1 else 0

@[simp] theorem owes_account (call : Call κ) : (account call).owes = 1 := rfl

theorem owes_of_not {pc : Pc κ} (h : pc.accounting = false) : pc.owes = 0 := by
  rw [owes, h]
  rfl

end Pc

namespace Root

structure Capped (r : Root) : Prop where
  positive : r.writing = stopOp → 0 < r.sndhwm
  full : r.writing = stopOp → r.sndhwm ≤ r.sndqsz

theorem capped_init (sndhwm : Int) : (init sndhwm).Capped where
  positive h := absurd h (by simp [init])
  full h := absurd h (by simp [init])

theorem sndqsz_countSent (r : Root) : r.countSent.sndqsz = r.sndqsz + 1 := by
  unfold countSent
  dsimp only
  split <;> rfl

theorem sndqsz_settle (r : Root) (removed : Nat) :
    (r.settle removed).1.sndqsz = r.sndqsz - removed := by
  unfold settle
  dsimp only
  split
  · split <;> rfl
  · rfl

theorem Capped.countSent {r : Root} (h : r.Capped) : r.countSent.Capped := by
  unfold Root.countSent
  dsimp only
  split
  case isTrue hc => exact ⟨fun _ => hc.1, fun _ => hc.2.2⟩
  case isFalse => exact ⟨h.positive, fun hw => by have := h.full hw; dsimp only at this ⊢; omega⟩

theorem Capped.settle {r : Root} (h : r.Capped) (removed : Nat) : (r.settle removed).1.Capped := by
  unfold Root.settle
  dsimp only
  split
  case isTrue hc =>
    split <;> exact ⟨fun hw => absurd hw (by simp), fun hw => absurd hw (by simp)⟩
  case isFalse hc =>
    refine ⟨h.positive, fun hw => ?_⟩
    have hpos := h.positive hw
    by_contra hlt
    exact hc ⟨hpos, hw, by dsimp only at hlt; omega⟩

end Root

namespace Sys

variable {κ τ ρ : Type} {F : Framer ρ} {s s' : Sys κ τ ρ} {l : Label κ τ}

def Quiet (s : Sys κ τ ρ) : Prop :=
  (∀ t, ∃ rc, s.pcs t = .done rc) ∧ ∀ c, (s.conns c).pc = .idle

def Careful (s : Sys κ τ ρ) : Label κ τ → Prop
  | .conn c l => Conn.NoError l ∧ (s.conns c).Calm l ∧
      (l = .zombie → (s.conns c).ol.list.empty = true ∧ (s.conns c).pc.held.isNone = true)
  | .insert t _ => ∀ c, (s.pcs t).receiver = some c → (s.conns c).zombie = false
  | _ => True

section
variable [Fintype κ]

def Balanced (s : Sys κ τ ρ) : Prop := ∃ xs : κ → List Addr,
  (∀ c, Seg some (s.conns c).items.next (s.conns c).ol.list.first (xs c) none) ∧
  s.root.sndqsz = ∑ c, if (s.conns c).zombie then 0 else ((xs c).length : Int)

def Drained (s : Sys κ τ ρ) : Prop :=
  ∀ c, (s.conns c).zombie = false → (s.conns c).ol.list.empty = true

def Accounted (s : Sys κ τ ρ) : Prop :=
  s.Quiet → s.Balanced ∧ (s.Drained → s.root.sndqsz = 0 ∧ s.root.writing ≠ stopOp)

structure Carries (F : Framer ρ) (conns : κ → Conn ρ) (xs ys : κ → List Addr) (total : Int) :
    Prop where
  linked : ∀ c, (conns c).Linked F (xs c) (ys c)
  dead : ∀ c, (conns c).zombie = true → xs c = [] ∧ ys c = []
  total : total = ∑ c, ((conns c).load (xs c) (ys c) : Int)

theorem Carries.settled {conns : κ → Conn ρ} {xs ys : κ → List Addr} {m n : Int}
    (h : Carries F conns xs ys m) (he : m = n) : ∃ xs ys, Carries F conns xs ys n :=
  ⟨xs, ys, he ▸ h⟩

theorem Carries.touch [DecidableEq κ] {conns : κ → Conn ρ} {xs ys : κ → List Addr} {total : Int}
    (hF : F.Lawful) (h : Carries F conns xs ys total) {c : κ} {l : ConnLabel} {conn : Conn ρ}
    (hn : Conn.NoError l) (hc : (conns c).Calm l) (hs : (conns c).step F l = some conn)
    (hz : conn.zombie = true → xs c = [] ∧ ys c = [] ∧ Conn.gain l = 0) :
    ∃ xs' ys', Carries F (Function.update conns c conn) xs' ys'
      (total + Conn.gain l - (conns c).loss l) := by
  obtain ⟨xs', ys', hl, hload, hlen⟩ := Conn.follows_step hF (h.linked c) hn hc hs
  refine ⟨Function.update xs c xs', Function.update ys c ys', ?_⟩
  constructor
  · intro k
    rcases eq_or_ne k c with rfl | hne
    · simpa using hl
    · simpa [hne] using h.linked k
  · intro k hk
    rcases eq_or_ne k c with rfl | hne
    · rw [Function.update_self] at hk
      obtain ⟨hx, hy, hg⟩ := hz hk
      rw [hx, hy, hg] at hlen
      have hnil : xs' = [] ∧ ys' = [] := by simpa using hlen
      simpa using hnil
    · simpa [hne] using h.dead k (by simpa [hne] using hk)
  · have hsum := sum_shift (c := c)
      (f := fun k => ((Function.update conns c conn k).load (Function.update xs c xs' k)
        (Function.update ys c ys' k) : Int))
      (g := fun k => ((conns k).load (xs k) (ys k) : Int)) fun k hk => by simp [hk]
    simp only [Function.update_self] at hsum
    have ht := h.total
    omega

end

section
variable [Fintype τ]

def pending (s : Sys κ τ ρ) : Int := ∑ t, (s.pcs t).owes

theorem Quiet.pending_eq (hq : s.Quiet) : s.pending = 0 :=
  Finset.sum_eq_zero fun t _ => by
    obtain ⟨rc, hp⟩ := hq.1 t
    exact Pc.owes_of_not (by rw [hp]; rfl)

theorem pending_goto [DecidableEq τ] (s : Sys κ τ ρ) (t : τ) (pc : Pc κ) :
    (s.goto t pc).pending + (s.pcs t).owes = s.pending + pc.owes := by
  have hsum := sum_shift (c := t) (f := fun u => (Function.update s.pcs t pc u).owes)
    (g := fun u => (s.pcs u).owes) fun u hu => by rw [Function.update_of_ne hu]
  simp only [Function.update_self] at hsum
  exact hsum

end

structure Loaded [Fintype κ] [Fintype τ] (F : Framer ρ) (s : Sys κ τ ρ) : Prop where
  carries : ∃ xs ys, Carries F s.conns xs ys (s.root.sndqsz + s.pending)
  capped : s.root.Capped

section
variable [Fintype κ] [Fintype τ]

theorem Loaded.accounted (h : s.Loaded F) : s.Accounted := by
  intro hq
  obtain ⟨xs, ys, hc⟩ := h.carries
  have htotal : s.root.sndqsz = ∑ c, ((xs c).length : Int) := by
    have ht := hc.total
    rw [hq.pending_eq, add_zero] at ht
    rw [ht]
    refine Finset.sum_congr rfl fun c _ => ?_
    have hy : ys c = [] := (hc.linked c).bare (by rw [hq.2 c]; rfl)
    simp [Conn.load, hq.2 c, hy]
  constructor
  · refine ⟨xs, fun c => (hc.linked c).out.holds.forward, ?_⟩
    rw [htotal]
    refine Finset.sum_congr rfl fun c _ => ?_
    split
    case isTrue hz => rw [(hc.dead c hz).1]; rfl
    case isFalse => rfl
  · intro hd
    have hzero : s.root.sndqsz = 0 := by
      rw [htotal]
      refine Finset.sum_eq_zero fun c _ => ?_
      have hx : xs c = [] := by
        cases hz : (s.conns c).zombie with
        | true => exact (hc.dead c hz).1
        | false => exact (hc.linked c).out.holds.empty_eq.mp (hd c hz)
      rw [hx]
      rfl
    refine ⟨hzero, fun hw => ?_⟩
    have hpos := h.capped.positive hw
    have hfull := h.capped.full hw
    omega

theorem loaded_init (hF : F.Lawful) (sndhwm : Int) : (init F sndhwm : Sys κ τ ρ).Loaded F := by
  refine ⟨⟨fun _ => [], fun _ => [], ⟨fun _ => Conn.linked_init hF, fun _ _ => ⟨rfl, rfl⟩, ?_⟩⟩,
    Root.capped_init sndhwm⟩
  have hp : (init F sndhwm : Sys κ τ ρ).pending = 0 := Finset.sum_eq_zero fun _ _ => rfl
  rw [hp]
  simp [init, Root.init, Conn.init, Conn.load]

variable [DecidableEq κ] [DecidableEq τ]

theorem loaded_effect (hF : F.Lawful) (h : s.Loaded F) (hc : s.Careful l) (he : Effect F s l s') :
    s'.Loaded F := by
  obtain ⟨xs, ys, hca⟩ := h.carries
  cases he with
  | @moves l t pc k hl hs ha ho =>
    have hp := s.pending_goto t pc
    rw [Pc.owes_of_not ha, Pc.owes_of_not ho] at hp
    refine ⟨hca.settled ?_, h.capped⟩
    change _ = s.root.sndqsz + (s.goto t pc).pending
    omega
  | @park t call hp =>
    have hpend := s.pending_goto t (.sleeping call)
    rw [hp, Pc.owes_of_not (by rfl : (Pc.park call).accounting = false),
      Pc.owes_of_not (by rfl : (Pc.sleeping call).accounting = false)] at hpend
    refine ⟨hca.settled ?_, ⟨h.capped.positive, h.capped.full⟩⟩
    change _ = s.root.sndqsz + (s.goto t _).pending
    omega
  | @insert t li call conn hp hs =>
    have hz := hc call.conn (by rw [hp]; rfl)
    obtain ⟨xs', ys', hca'⟩ := hca.touch hF (by simp) (by simp) hs fun hd => by
      rw [Conn.zombie_step (by simp) hs, hz] at hd
      cases hd
    have hpend := s.pending_goto t (.account call)
    rw [Pc.owes_of_not (by rw [hp]; rfl)] at hpend
    refine ⟨hca'.settled ?_, h.capped⟩
    change _ = s.root.sndqsz + (s.goto t _).pending
    simp only [Conn.gain, Conn.loss, Pc.owes_account] at hpend ⊢
    omega
  | @account t rc call hp =>
    have hpend := s.pending_goto t (.finish call rc)
    rw [Pc.owes_of_not (Pc.accounting_finish ..), hp] at hpend
    refine ⟨hca.settled ?_, h.capped.countSent⟩
    change _ = s.root.countSent.sndqsz + (s.goto t _).pending
    rw [Root.sndqsz_countSent]
    simp only [Pc.owes_account] at hpend
    omega
  | @conn c l conn hl hs =>
    obtain ⟨hn, hcalm, hzombie⟩ := hc
    have hgain : Conn.gain l = 0 := by
      cases l <;> first | rfl | cases hl
    have hloss : (s.conns c).loss l = 0 := by
      cases l <;> first | rfl | cases hl
    have hdead : conn.zombie = true → xs c = [] ∧ ys c = [] := by
      intro hd
      rcases eq_or_ne l .zombie with rfl | hne
      · obtain ⟨he, hh⟩ := hzombie rfl
        have hlink := hca.linked c
        exact ⟨hlink.out.holds.empty_eq.mp he, hlink.bare (Option.isNone_iff_eq_none.mp hh)⟩
      · exact hca.dead c (by rw [← Conn.zombie_step hne hs, hd])
    obtain ⟨xs', ys', hca'⟩ := hca.touch hF hn hcalm hs fun hd =>
      ⟨(hdead hd).1, (hdead hd).2, hgain⟩
    refine ⟨hca'.settled ?_, h.capped⟩
    change _ = s.root.sndqsz + s.pending
    omega
  | @settle c removed mustStop conn hp hs =>
    obtain ⟨xs', ys', hca'⟩ := hca.touch hF (by simp) (by simp) hs fun hd => by
      rw [Conn.zombie_step (by simp) hs] at hd
      exact ⟨(hca.dead c hd).1, (hca.dead c hd).2, rfl⟩
    refine ⟨hca'.settled ?_, h.capped.settle removed⟩
    change _ = (s.root.settle removed).1.sndqsz + s.pending
    rw [Root.sndqsz_settle]
    simp only [Conn.gain, Conn.loss, hp, WritePc.removed_self]
    omega
  | @broadcast c conn hs =>
    obtain ⟨xs', ys', hca'⟩ := hca.touch hF (by simp) (by simp) hs fun hd => by
      rw [Conn.zombie_step (by simp) hs] at hd
      exact ⟨(hca.dead c hd).1, (hca.dead c hd).2, rfl⟩
    refine ⟨hca'.settled ?_, h.capped⟩
    have hpend : ∑ t, (s.pcs t).wake.owes = s.pending :=
      Finset.sum_congr rfl fun t _ => by rw [Pc.owes, Pc.owes, Pc.accounting_wake]
    change _ = s.root.sndqsz + ∑ t, (s.pcs t).wake.owes
    rw [hpend]
    simp only [Conn.gain, Conn.loss]
    omega

theorem queue_accounted (hF : F.Lawful) (sndhwm : Int) {tr : List (Sys κ τ ρ × Label κ τ)}
    (hr : Run (step F) (init F sndhwm) tr s) (hc : Steps Careful tr) : Visits Accounted tr s :=
  visits_mono (fun _ => Loaded.accounted)
    (hr.visits (loaded_init hF sndhwm) (fun _ _ _ h hc hs => loaded_effect hF h hc (effect_of_step hs)) hc)

instance (l : Label κ τ) : Decidable (s.Careful l) :=
  match l with
  | .conn c l => inferInstanceAs (Decidable (Conn.NoError l ∧ (s.conns c).Calm l ∧
      (l = .zombie → (s.conns c).ol.list.empty = true ∧ (s.conns c).pc.held.isNone = true)))
  | .insert t _ =>
    inferInstanceAs (Decidable (∀ c, (s.pcs t).receiver = some c → (s.conns c).zombie = false))
  | .send .. => isTrue trivial
  | .sendAll .. => isTrue trivial
  | .target .. => isTrue trivial
  | .run _ => isTrue trivial
  | .park _ => isTrue trivial
  | .wake _ => isTrue trivial
  | .alloc .. => isTrue trivial
  | .account .. => isTrue trivial
  | .settle _ => isTrue trivial
  | .broadcast _ => isTrue trivial

end

def serviced : List (Label Bool Unit) :=
  post () true (letter 65) 1 ++ post () false (letter 66) 1 ++ [.conn true .startWrite,
    .conn true .ready, .conn true .steal, .conn true (.writev (.wrote 1)), .conn true .steal,
    .settle true, .conn true .stopWatcher, .conn true .clearWriting, .conn true .zombie]

def broken : List (Label Bool Unit) :=
  post () true (letter 65) 1 ++ [.conn true .startWrite, .conn true .ready, .conn true .steal,
    .conn true (.writev .failed), .conn true .stopWatcher, .conn true .clearWriting]

theorem queue_accounted_serviced : Visits Accounted
    (trace (step listFramer) (init listFramer hwmDefault) serviced)
    (final (step listFramer) (init listFramer hwmDefault) serviced) :=
  queue_accounted listFramer_lawful hwmDefault (run_final rfl) (by decide)

theorem failed_write_leaks : ∃ s, Run (step listFramer) (init listFramer 1)
      (trace (step listFramer) (init listFramer 1) broken) s ∧
    s.Quiet ∧ s.Drained ∧ s.root.sndqsz = 1 ∧ s.root.writing = stopOp ∧ ¬ s.Accounted := by
  have hq : (final (step listFramer) (init listFramer 1) broken).Quiet :=
    ⟨fun _ => ⟨0, rfl⟩, fun c => by cases c <;> rfl⟩
  have hd : (final (step listFramer) (init listFramer 1) broken).Drained := by
    intro c _
    cases c <;> rfl
  exact ⟨_, run_final rfl, hq, hd, rfl, rfl, fun h => ((h hq).2 hd).2 rfl⟩

end Sys

end Fsock
