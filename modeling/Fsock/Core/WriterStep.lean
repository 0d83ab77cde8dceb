import Fsock.Core.Writer

namespace Fsock

namespace Conn

variable {ρ : Type}

structure Inserts (F : Framer ρ) (c : Conn ρ) (li : Addr) (fr : Frame) (c' : Conn ρ) : Prop where
  fresh : (c.items li).isSome = false
  pc : c'.pc = c.pc
  kernel : c'.kernel = c.kernel
  accepted : c'.accepted = c.accepted ++ [fr]
  zombie : c'.zombie = c.zombie
  wio : c'.wio = c.wio
  writing : c'.writing = true
  queued : c'.queued = (c.queued || !c.writing)
  lists : (c'.items, c'.ol) =
    F.insert (Function.update c.items li (some ⟨none, none, fr⟩)) c.ol li

inductive Effect (F : Framer ρ) (c : Conn ρ) : ConnLabel → Conn ρ → Prop
  | insert {li : Addr} {fr : Frame} {c' : Conn ρ} (hi : Inserts F c li fr c') :
      Effect F c (.insert li fr) c'
  | startWrite (hp : c.pc = .idle) (hq : c.queued = true) :
      Effect F c .startWrite { c with queued := false, wio := true }
  | zombie : Effect F c .zombie c.hangup
  | skip (hp : c.pc = .idle) (hw : c.wio = true) (hz : c.zombie = true) : Effect F c .ready c
  | enter (hp : c.pc = .idle) (hw : c.wio = true) (hz : c.zombie = false) :
      Effect F c .ready { c with pc := .top 0 }
  | sent {removed : Nat} (hp : c.pc = .top removed) (he : c.ol.list.empty = true)
      (hr : 0 < removed) : Effect F c .steal { c with pc := .settle removed true }
  | bare (hp : c.pc = .top 0) (he : c.ol.list.empty = true) :
      Effect F c .steal { c with pc := .stop }
  | steal {removed : Nat} (hp : c.pc = .top removed) (he : c.ol.list.empty = false) :
      Effect F c .steal { c with ol := F.init, pc := .inner removed c.ol }
  | wrote {removed n : Nat} {ol : OutList ρ} (hp : c.pc = .inner removed ol) (hn : 0 < n)
      (hle : n ≤ (F.getIovs c.items ol 128).flatten.length) : Effect F c (.writev (.wrote n))
        { c with
          items := (F.written c.items ol n).1
          kernel := c.kernel ++ (F.getIovs c.items ol 128).flatten.take n
          pc := remain (removed + (F.written c.items ol n).2.2) (F.written c.items ol n).2.1 }
  | wouldBlock {removed : Nat} {ol : OutList ρ} (hp : c.pc = .inner removed ol) :
      Effect F c (.writev .wouldBlock) { c with pc := .merge removed ol }
  | failed {removed : Nat} {ol : OutList ρ} (hp : c.pc = .inner removed ol) :
      Effect F c (.writev .failed) { c with pc := .stop }
  | merge {removed : Nat} {ol : OutList ρ} (hp : c.pc = .merge removed ol) :
      Effect F c .merge { c with
        items := glue c.items ol.list c.ol.list
        ol := ol
        pc := resume removed }
  | settle {removed : Nat} {mustStop wake : Bool} (hp : c.pc = .settle removed mustStop) :
      Effect F c (.settle wake) { c with pc := if wake then .broadcast mustStop else leave mustStop }
  | broadcast {mustStop : Bool} (hp : c.pc = .broadcast mustStop) :
      Effect F c .broadcast { c with pc := leave mustStop }
  | stopWatcher (hp : c.pc = .stop) : Effect F c .stopWatcher { c with wio := false, pc := .clear }
  | clearWriting (hp : c.pc = .clear) :
      Effect F c .clearWriting { c with writing := false, pc := .idle }

variable {F : Framer ρ} {c c' : Conn ρ} {l : ConnLabel}

theorem insert_spec {li : Addr} {fr : Frame} (hs : c.insert F li fr = some c') :
    Inserts F c li fr c' := by
  simp only [insert] at hs
  split at hs
  case isTrue => cases hs
  case isFalse hn =>
    cases hs
    cases hw : c.writing <;> constructor <;> simp_all [schedule]

theorem effect_ready (hs : c.ready = some c') : Effect F c .ready c' := by
  simp only [ready] at hs
  split at hs
  case h_2 => cases hs
  case h_1 hp =>
    split at hs
    case isFalse => cases hs
    case isTrue hw =>
      split at hs <;> cases hs
      case isTrue hz => exact .skip hp hw hz
      case isFalse hz => exact .enter hp hw (by simpa using hz)

theorem effect_steal (hs : c.steal F = some c') : Effect F c .steal c' := by
  simp only [steal] at hs
  split at hs
  case h_2 => cases hs
  case h_1 removed hp =>
    split at hs
    case isFalse he =>
      cases hs
      exact .steal hp (by simpa using he)
    case isTrue he =>
      split at hs <;> cases hs
      case isTrue hr => exact .sent hp he hr
      case isFalse hr =>
        obtain rfl : removed = 0 := by omega
        exact .bare hp he

theorem effect_writev {nw : Sent} (hs : c.writev F nw = some c') : Effect F c (.writev nw) c' := by
  unfold writev at hs
  split at hs
  case h_1 removed ol n hp =>
    dsimp only at hs
    split at hs <;> cases hs
    rename_i hn
    exact .wrote hp hn.1 hn.2
  case h_2 removed ol hp =>
    cases hs
    exact .wouldBlock hp
  case h_3 removed ol hp =>
    cases hs
    exact .failed hp
  case h_4 => cases hs

theorem effect_of_step (hs : c.step F l = some c') : Effect F c l c' := by
  cases l with
  | insert li fr => exact .insert (insert_spec hs)
  | startWrite =>
    simp only [step, startWrite] at hs
    split at hs
    case h_2 => cases hs
    case h_1 hp =>
      split at hs <;> cases hs
      rename_i hq
      exact .startWrite hp hq
  | zombie =>
    cases hs
    exact .zombie
  | ready => exact effect_ready hs
  | steal => exact effect_steal hs
  | writev nw => exact effect_writev hs
  | merge =>
    simp only [step, merge] at hs
    split at hs <;> cases hs
    rename_i hp
    exact .merge hp
  | settle wake =>
    simp only [step, settle] at hs
    split at hs <;> cases hs
    rename_i hp
    exact .settle hp
  | broadcast =>
    simp only [step, broadcast] at hs
    split at hs <;> cases hs
    rename_i hp
    exact .broadcast hp
  | stopWatcher =>
    simp only [step, stopWatcher] at hs
    split at hs <;> cases hs
    rename_i hp
    exact .stopWatcher hp
  | clearWriting =>
    simp only [step, clearWriting] at hs
    split at hs <;> cases hs
    rename_i hp
    exact .clearWriting hp

theorem wrote_frame {n : Nat} (hs : c.writev F (.wrote n) = some c') :
    0 < n ∧ c'.wio = c.wio ∧ c'.zombie = c.zombie := by
  cases effect_writev hs with
  | wrote _ hn => exact ⟨hn, rfl, rfl⟩

theorem zombie_step (hl : l ≠ .zombie) (hs : c.step F l = some c') : c'.zombie = c.zombie := by
  cases effect_of_step hs with
  | insert hi => exact hi.zombie
  | zombie => exact absurd rfl hl
  | _ => rfl

end Conn

end Fsock
