import Fsock.Core.Send

namespace Fsock

namespace Pc

variable {κ : Type}

def asleep : Pc κ → Bool
  | .sleeping _ => true
  | _ => false

def accounting : Pc κ → Bool
  | .account _ => true
  | _ => false

@[simp] theorem asleep_finish (call : Call κ) (rc : Int) : (finish call rc).asleep = false := by
  simp only [finish]
  split <;> rfl

@[simp] theorem accounting_finish (call : Call κ) (rc : Int) :
    (finish call rc).accounting = false := by
  simp only [finish]
  split <;> rfl

@[simp] theorem asleep_wake (pc : Pc κ) : pc.wake.asleep = false := by
  cases pc <;> rfl

@[simp] theorem accounting_wake (pc : Pc κ) : pc.wake.accounting = pc.accounting := by
  cases pc <;> rfl

end Pc

namespace Sys

variable {κ τ ρ : Type} [DecidableEq κ] [DecidableEq τ] {F : Framer ρ}

inductive Effect (F : Framer ρ) (s : Sys κ τ ρ) : Label κ τ → Sys κ τ ρ → Prop
  | moves {l : Label κ τ} {t : τ} {pc : Pc κ} {k : Option τ} (hl : ∀ u, l ≠ .park u)
      (hs : pc.asleep = false) (ha : pc.accounting = false)
      (ho : (s.pcs t).accounting = false) : Effect F s l { s.goto t pc with lock := k }
  | park {t : τ} {call : Call κ} (hp : s.pcs t = .park call) :
      Effect F s (.park t) { s.goto t (.sleeping call) with
        root := { s.root with wantWcond := true }
        lock := none }
  | insert {t : τ} {li : Addr} {call : Call κ} {conn : Conn ρ} (hp : s.pcs t = .insert call)
      (hc : (s.conns call.conn).step F (.insert li call.frame) = some conn) :
      Effect F s (.insert t li) { s.goto t (.account call) with
        conns := Function.update s.conns call.conn conn }
  | account {t : τ} {rc : Int} {call : Call κ} (hp : s.pcs t = .account call) :
      Effect F s (.account t rc) { s.goto t (.finish call rc) with root := s.root.countSent }
  | conn {c : κ} {l : ConnLabel} {conn : Conn ρ} (hl : l.shared = false)
      (hc : (s.conns c).step F l = some conn) :
      Effect F s (.conn c l) { s with conns := Function.update s.conns c conn }
  | settle {c : κ} {removed : Nat} {mustStop : Bool} {conn : Conn ρ}
      (hp : (s.conns c).pc = .settle removed mustStop)
      (hc : (s.conns c).step F (.settle (s.root.settle removed).2) = some conn) :
      Effect F s (.settle c) { s with
        root := (s.root.settle removed).1
        conns := Function.update s.conns c conn }
  | broadcast {c : κ} {conn : Conn ρ} (hc : (s.conns c).step F .broadcast = some conn) :
      Effect F s (.broadcast c) { s with
        conns := Function.update s.conns c conn
        pcs := fun t => (s.pcs t).wake }

variable {s s' : Sys κ τ ρ} {l : Label κ τ}

omit [DecidableEq τ] in
theorem touch_spec {c : κ} {l : ConnLabel} (hs : s.touch F c l = some s') :
    ∃ conn, (s.conns c).step F l = some conn ∧
      s' = { s with conns := Function.update s.conns c conn } := by
  obtain ⟨conn, hc, rfl⟩ := Option.map_eq_some_iff.mp hs
  exact ⟨conn, hc, rfl⟩

theorem effect_run {t : τ} (hs : s.run t = some s') : Effect F s (.run t) s' := by
  have hl : ∀ u, Label.run t ≠ (.park u : Label κ τ) := nofun
  simp only [run] at hs
  split at hs
  case h_6 => cases hs
  case h_1 hp =>
    split at hs <;> cases hs
    exact .moves hl rfl rfl (by rw [hp]; rfl)
  case h_2 call hp =>
    split at hs <;> cases hs
    · exact .moves (k := s.lock) hl (by simp) (by simp) (by rw [hp]; rfl)
    · exact .moves (k := s.lock) hl rfl rfl (by rw [hp]; rfl)
  case h_3 call hp =>
    split at hs <;> cases hs
    · exact .moves (k := s.lock) hl (by simp) (by simp) (by rw [hp]; rfl)
    · exact .moves (k := s.lock) hl rfl rfl (by rw [hp]; rfl)
  case h_4 call hp =>
    split at hs <;> cases hs
    · exact .moves (k := s.lock) hl rfl rfl (by rw [hp]; rfl)
    · exact .moves (k := s.lock) hl rfl rfl (by rw [hp]; rfl)
  case h_5 call hp =>
    split at hs <;> cases hs
    exact .moves hl rfl rfl (by rw [hp]; rfl)

theorem effect_of_step (hs : s.step F l = some s') : Effect F s l s' := by
  cases l with
  | run t => exact effect_run hs
  | send t c fr donwait =>
    simp only [step, send] at hs
    split at hs <;> cases hs
    rename_i hp
    exact .moves (k := s.lock) nofun rfl rfl (by rw [hp]; rfl)
  | sendAll t fr donwait stopOnErr =>
    simp only [step, sendAll] at hs
    split at hs <;> cases hs
    rename_i hp
    exact .moves (k := s.lock) nofun rfl rfl (by rw [hp]; rfl)
  | target t c =>
    simp only [step, target] at hs
    split at hs
    case h_3 => cases hs
    case h_1 =>
      rename_i hp
      cases hs
      exact .moves nofun rfl rfl (by rw [hp]; rfl)
    case h_2 =>
      rename_i hp
      split at hs <;> cases hs
      exact .moves (k := s.lock) nofun rfl rfl (by rw [hp]; rfl)
  | park t =>
    simp only [step, park] at hs
    split at hs
    case h_2 => cases hs
    case h_1 call hp =>
      split at hs <;> cases hs
      exact .park hp
  | wake t =>
    simp only [step, wake] at hs
    split at hs <;> cases hs
    rename_i hp
    exact .moves (k := s.lock) nofun rfl rfl (by rw [hp]; rfl)
  | alloc t ok =>
    simp only [step, alloc] at hs
    split at hs <;> cases hs
    rename_i hp
    cases ok
    · exact .moves (k := s.lock) nofun (by simp) (by simp) (by rw [hp]; rfl)
    · exact .moves (k := s.lock) nofun rfl rfl (by rw [hp]; rfl)
  | insert t li =>
    simp only [step, insert] at hs
    split at hs
    case h_2 => cases hs
    case h_1 call hp =>
      obtain ⟨u, hu, rfl⟩ := Option.map_eq_some_iff.mp hs
      obtain ⟨conn, hc, rfl⟩ := touch_spec hu
      exact .insert hp hc
  | account t rc =>
    simp only [step, account] at hs
    split at hs
    case h_2 => cases hs
    case h_1 call hp =>
      split at hs <;> cases hs
      exact .account hp
  | conn c l =>
    simp only [step] at hs
    split at hs
    case isTrue => cases hs
    case isFalse hl =>
      obtain ⟨conn, hc, rfl⟩ := touch_spec hs
      exact .conn (by simpa using hl) hc
  | settle c =>
    simp only [step, settle] at hs
    split at hs
    case h_2 => cases hs
    case h_1 removed mustStop hp =>
      split at hs
      case isFalse => cases hs
      case isTrue =>
        obtain ⟨u, hu, rfl⟩ := Option.map_eq_some_iff.mp hs
        obtain ⟨conn, hc, rfl⟩ := touch_spec hu
        exact .settle hp hc
  | broadcast c =>
    simp only [step, broadcast] at hs
    obtain ⟨u, hu, rfl⟩ := Option.map_eq_some_iff.mp hs
    obtain ⟨conn, hc, rfl⟩ := touch_spec hu
    exact .broadcast hc

def approach (t : τ) (c : κ) (fr : Frame) : List (Label κ τ) :=
  [.send t c fr false, .run t, .run t, .run t]

def post (t : τ) (c : κ) (fr : Frame) (li : Addr) : List (Label κ τ) :=
  approach t c fr ++ [.alloc t true, .insert t li, .account t 0]

end Sys

end Fsock
