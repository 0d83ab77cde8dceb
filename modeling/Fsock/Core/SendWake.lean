import Fsock.Lib.Run
import Fsock.Core.ListFramer
import Fsock.Core.WriterOrder
import Fsock.Core.SendStep

namespace Fsock

open Transition

def WritePc.broadcasting {ρ : Type} : WritePc ρ → Bool
  | .broadcast _ => true
  | _ => false

namespace Root

theorem writing_countSent {r : Root} (h : r.writing = stopOp) : r.countSent.writing = stopOp := by
  unfold countSent
  dsimp only
  split
  · rfl
  · exact h

theorem want_countSent {r : Root} (h : r.wantWcond = true) : r.countSent.wantWcond = true := by
  unfold countSent
  dsimp only
  split <;> exact h

theorem settle_wakes {r : Root} {removed : Nat} (hw : r.wantWcond = true)
    (hs : r.writing = stopOp) : (r.settle removed).2 = true ∨
      (r.settle removed).1.wantWcond = true ∧ (r.settle removed).1.writing = stopOp := by
  unfold settle
  dsimp only
  split
  · exact .inl rfl
  · exact .inr ⟨hw, hs⟩

end Root

namespace Conn

variable {ρ : Type} {F : Framer ρ} {c c' : Conn ρ}

theorem broadcasting_still {l : ConnLabel} (hl : l.shared = false)
    (hb : c.pc.broadcasting = true) (hs : c.step F l = some c') : c'.pc.broadcasting = true := by
  cases effect_of_step hs with
  | insert | settle | broadcast => cases hl
  | zombie => exact hb
  | startWrite hp | skip hp | enter hp | sent hp | bare hp | steal hp | wrote hp | wouldBlock hp
  | failed hp | merge hp | stopWatcher hp | clearWriting hp =>
    rw [hp] at hb
    cases hb

theorem broadcasting_settle {removed : Nat} {mustStop wake : Bool}
    (hp : c.pc = .settle removed mustStop) (hw : wake = true)
    (hs : c.step F (.settle wake) = some c') : c'.pc.broadcasting = true := by
  subst hw
  simp only [step, settle, hp] at hs
  cases hs
  rfl

end Conn

namespace Sys

variable {κ τ ρ : Type} {F : Framer ρ} {s s' : Sys κ τ ρ} {l : Label κ τ}

def Announced (s : Sys κ τ ρ) : Prop := ∃ c, (s.conns c).pc.broadcasting = true

def Woken (s : Sys κ τ ρ) : Prop :=
  ∀ t, (s.pcs t).asleep = true → s.root.writing = stopOp ∨ s.Announced

def Awaited (s : Sys κ τ ρ) (l : Label κ τ) : Prop :=
  ∀ t, l = .park t → s.root.writing = stopOp ∨ s.Announced

def Noted (s : Sys κ τ ρ) : Prop :=
  ∀ t, (s.pcs t).asleep = true →
    s.Announced ∨ s.root.wantWcond = true ∧ s.root.writing = stopOp

theorem Noted.woken (h : s.Noted) : s.Woken := fun t ht =>
  (h t ht).elim .inr fun hn => .inl hn.2

theorem noted_init (sndhwm : Int) : (init F sndhwm : Sys κ τ ρ).Noted := nofun

theorem Announced.update [DecidableEq κ] {c : κ} {conn : Conn ρ} (h : s.Announced)
    (hc : (s.conns c).pc.broadcasting = true → conn.pc.broadcasting = true) :
    ∃ k, (Function.update s.conns c conn k).pc.broadcasting = true := by
  obtain ⟨k, hk⟩ := h
  refine ⟨k, ?_⟩
  rcases eq_or_ne k c with rfl | hne
  · rw [Function.update_self]
    exact hc hk
  · rw [Function.update_of_ne hne]
    exact hk

variable [DecidableEq τ]

theorem asleep_goto {t u : τ} {pc : Pc κ} (hp : pc.asleep = false)
    (hu : ((s.goto t pc).pcs u).asleep = true) : (s.pcs u).asleep = true := by
  rcases eq_or_ne u t with rfl | hne
  · simp [goto, hp] at hu
  · simpa [goto, hne] using hu

variable [DecidableEq κ]

theorem noted_effect (h : s.Noted) (ha : s.Awaited l) (he : Effect F s l s') : s'.Noted := by
  cases he with
  | moves hl hs => exact fun u hu => h u (asleep_goto hs hu)
  | @park t call hp =>
    intro u hu
    rcases ha t rfl with hw | ha
    · exact .inr ⟨rfl, hw⟩
    · exact .inl ha
  | insert hp hc =>
    intro u hu
    rcases h u (asleep_goto rfl hu) with hn | hn
    · exact .inl (hn.update fun hb => by rw [(Conn.insert_spec hc).pc]; exact hb)
    · exact .inr hn
  | account hp =>
    intro u hu
    rcases h u (asleep_goto (Pc.asleep_finish ..) hu) with hn | hn
    · exact .inl hn
    · exact .inr ⟨Root.want_countSent hn.1, Root.writing_countSent hn.2⟩
  | conn hl hc =>
    intro u hu
    rcases h u hu with hn | hn
    · exact .inl (hn.update fun hb => Conn.broadcasting_still hl hb hc)
    · exact .inr hn
  | @settle c removed mustStop conn hp hc =>
    intro u hu
    rcases h u hu with hn | hn
    · exact .inl (hn.update fun hb => by rw [hp] at hb; cases hb)
    · rcases Root.settle_wakes hn.1 hn.2 with hw | hr
      · exact .inl ⟨c, by simpa using Conn.broadcasting_settle hp hw hc⟩
      · exact .inr hr
  | broadcast hc =>
    intro u hu
    rw [Pc.asleep_wake] at hu
    cases hu

theorem park_sleeps {t : τ} (ha : ¬ (s.root.writing = stopOp ∨ s.Announced))
    (hs : s.step F (.park t) = some s') : ¬ s'.Woken := by
  cases effect_of_step hs with
  | moves hl => exact absurd rfl (hl t)
  | park => exact fun h => ha (h t (by simp [goto, Pc.asleep]))

theorem no_lost_wakeup (sndhwm : Int) {tr : List (Sys κ τ ρ × Label κ τ)}
    (hr : Run (step F) (init F sndhwm) tr s) : Steps Awaited tr ↔ Visits Woken tr s := by
  refine Run.exact (I := Noted) (A := fun _ _ => True) (noted_init sndhwm) (fun _ => Noted.woken) ?_ ?_ hr
    fun _ _ => trivial
  · exact fun _ _ _ h _ ha hs => noted_effect h ha (effect_of_step hs)
  · intro s l s' h _ ha hs hw
    refine ha ?_
    rintro t rfl
    by_contra hn
    exact park_sleeps hn hs hw

instance [Fintype κ] (s : Sys κ τ ρ) : Decidable s.Announced :=
  inferInstanceAs (Decidable (∃ c, (s.conns c).pc.broadcasting = true))

instance [Fintype κ] [Fintype τ] (s : Sys κ τ ρ) (l : Label κ τ) : Decidable (s.Awaited l) :=
  inferInstanceAs (Decidable (∀ t, l = .park t → s.root.writing = stopOp ∨ s.Announced))

def contended : List (Label Unit Bool) :=
  post true () (letter 65) 1 ++ approach false () (letter 66)

def drained : List (Label Unit Bool) :=
  [.conn () .startWrite, .conn () .ready, .conn () .steal, .conn () (.writev (.wrote 1)),
    .conn () .steal, .settle ()]

def woken : List (Label Unit Bool) := contended ++ [.park false] ++ drained ++ [.broadcast ()]

def slept : List (Label Unit Bool) := contended ++ drained ++ [.park false]

theorem no_lost_wakeup_woken : Visits Woken (trace (step listFramer) (init listFramer 1) woken)
    (final (step listFramer) (init listFramer 1) woken) :=
  (no_lost_wakeup 1 (run_final rfl)).mp (by decide)

theorem late_park_sleeps : ∃ s, Run (step listFramer) (init listFramer 1)
      (trace (step listFramer) (init listFramer 1) slept) s ∧
    (s.pcs false).asleep = true ∧ s.root.writing = 0 ∧ s.root.sndqsz = 0 ∧ ¬ s.Announced ∧
    ¬ s.Woken := by
  have hn : ¬ (final (step listFramer) (init listFramer 1) slept).Announced := by decide
  refine ⟨_, run_final rfl, rfl, rfl, rfl, hn, fun h => ?_⟩
  rcases h false rfl with hw | ha
  · exact absurd hw (by decide)
  · exact hn ha

end Sys

end Fsock
