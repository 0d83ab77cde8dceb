import Fsock.Lib.Run
import Fsock.Core.ListFramer
import Fsock.Core.WriterOrder

namespace Fsock

open Transition

variable {ρ : Type} {F : Framer ρ}

namespace WritePc

def finishing : WritePc ρ → Bool
  | .settle _ _ => true
  | .broadcast _ => true
  | .stop => true
  | .clear => true
  | _ => false

def returning : WritePc ρ → Bool
  | .settle _ mustStop => !mustStop
  | .broadcast mustStop => !mustStop
  | .clear => true
  | _ => false

end WritePc

def ConnLabel.inserts : ConnLabel → Bool
  | .insert _ _ => true
  | _ => false

namespace Conn

abbrev Healthy (l : ConnLabel) : Prop := NoError l ∧ l ≠ .zombie

abbrev Timely (c : Conn ρ) (l : ConnLabel) : Prop := l.inserts = true → c.pc.finishing = false

def Attended (c : Conn ρ) : Prop :=
  c.pc = .idle → c.ol.list.empty = false → c.wio = true ∨ c.queued = true

inductive Phase (c : Conn ρ) : Prop
  | asleep (hw : c.writing = false) (hq : c.queued = false) (hi : c.wio = false)
      (hp : c.pc = .idle) (he : c.ol.list.empty = true)
  | scheduled (hw : c.writing = true) (hq : c.queued = true) (hi : c.wio = false)
      (hp : c.pc = .idle)
  | watching (hw : c.writing = true) (hq : c.queued = false) (hi : c.wio = true)
      (hp : c.pc.returning = false) (he : c.pc.finishing = true → c.ol.list.empty = true)
  | closing (hw : c.writing = true) (hq : c.queued = false) (hi : c.wio = false)
      (hp : c.pc = .clear) (he : c.ol.list.empty = true)

variable {c c' : Conn ρ}

theorem Phase.attended (h : c.Phase) : c.Attended := by
  intro hp hne
  cases h with
  | asleep _ _ _ _ he => rw [he] at hne; cases hne
  | scheduled _ hq => exact .inr hq
  | watching _ _ hi => exact .inl hi
  | closing _ _ _ hc => rw [hc] at hp; cases hp

theorem phase_init (hF : F.init.list.first = none) : (Conn.init F).Phase :=
  .asleep rfl rfl rfl rfl (Option.isNone_iff_eq_none.mpr hF)

theorem phase_insert (h : c.Phase) {li : Addr} {fr : Frame} (hp : c.pc.finishing = false)
    (hins : Inserts F c li fr c') : c'.Phase := by
  have hq' := hins.queued
  have hi' := hins.wio
  have hp' := hins.pc
  cases h with
  | asleep hw hq hi hp => exact .scheduled hins.writing (by simp [hq', hw]) (by rw [hi', hi]) (by rw [hp', hp])
  | scheduled hw hq hi hp => exact .scheduled hins.writing (by simp [hq', hq]) (by rw [hi', hi]) (by rw [hp', hp])
  | watching hw hq hi hr =>
    exact .watching hins.writing (by simp [hq', hq, hw]) (by rw [hi', hi]) (by rw [hp', hr])
      fun hf => by rw [hp', hp] at hf; cases hf
  | closing _ _ _ hc => rw [hc] at hp; cases hp

theorem Phase.emptied (h : c.Phase) (hf : c.pc.finishing = true) : c.ol.list.empty = true := by
  cases h with
  | asleep _ _ _ _ he => exact he
  | scheduled _ _ _ hp => rw [hp] at hf; cases hf
  | watching _ _ _ _ he => exact he hf
  | closing _ _ _ _ he => exact he

theorem Phase.moves (h : c.Phase) (hi : c.pc ≠ .idle) (hc : c.pc ≠ .clear)
    (hs : c'.writing = c.writing ∧ c'.queued = c.queued ∧ c'.wio = c.wio)
    (hr : c'.pc.returning = false) (hf : c'.pc.finishing = true → c'.ol.list.empty = true) :
    c'.Phase := by
  obtain ⟨hw', hq', hi'⟩ := hs
  cases h with
  | asleep _ _ _ hp => exact absurd hp hi
  | scheduled _ _ _ hp => exact absurd hp hi
  | watching hw hq hio => exact .watching (by rw [hw', hw]) (by rw [hq', hq]) (by rw [hi', hio]) hr hf
  | closing _ _ _ hp => exact absurd hp hc

theorem Phase.stops (h : c.Phase) {mustStop : Bool} (hp : c.pc.returning = !mustStop)
    (hi : c.pc ≠ .idle) (hc : c.pc ≠ .clear) : mustStop = true := by
  cases h with
  | asleep _ _ _ hp => exact absurd hp hi
  | scheduled _ _ _ hp => exact absurd hp hi
  | watching _ _ _ hr => simpa [hp] using hr
  | closing _ _ _ hp => exact absurd hp hc

theorem phase_leave (h : c.Phase) {mustStop : Bool} (hf : c.pc.finishing = true)
    (hr : c.pc.returning = !mustStop) (hi : c.pc ≠ .idle) (hc : c.pc ≠ .clear) :
    Phase { c with pc := leave mustStop } := by
  obtain rfl := h.stops hr hi hc
  exact h.moves hi hc ⟨rfl, rfl, rfl⟩ rfl fun _ => h.emptied hf

theorem phase_step (h : c.Phase) {l : ConnLabel} (hl : Healthy l) (ht : c.Timely l)
    (hs : c.step F l = some c') : c'.Phase := by
  cases effect_of_step hs with
  | insert hi => exact phase_insert h (ht rfl) hi
  | startWrite hp hq =>
    cases h with
    | scheduled hw => exact .watching hw rfl rfl (by rw [hp]; rfl) (by rw [hp]; nofun)
    | _ => simp_all
  | zombie => exact absurd rfl hl.2
  | skip => exact h
  | enter hp hw =>
    cases h with
    | watching hw hq hi => exact .watching hw hq hi rfl nofun
    | _ => simp_all
  | sent hp he | bare hp he =>
    exact h.moves (by simp [hp]) (by simp [hp]) ⟨rfl, rfl, rfl⟩ rfl fun _ => he
  | steal hp | wouldBlock hp =>
    exact h.moves (by simp [hp]) (by simp [hp]) ⟨rfl, rfl, rfl⟩ rfl nofun
  | wrote hp =>
    refine h.moves (by simp [hp]) (by simp [hp]) ⟨rfl, rfl, rfl⟩ ?_ ?_ <;>
      unfold remain <;> split <;> simp [WritePc.returning, WritePc.finishing]
  | failed => exact absurd rfl hl.1
  | merge hp =>
    refine h.moves (by simp [hp]) (by simp [hp]) ⟨rfl, rfl, rfl⟩ ?_ ?_ <;>
      unfold resume <;> split <;> simp [WritePc.returning, WritePc.finishing]
  | @settle removed mustStop wake hp =>
    have hf : c.pc.finishing = true := by rw [hp]; rfl
    have hr : c.pc.returning = !mustStop := by rw [hp]; rfl
    have hi : c.pc ≠ .idle := by simp [hp]
    have hc : c.pc ≠ .clear := by simp [hp]
    cases wake
    · exact phase_leave h hf hr hi hc
    · obtain rfl := h.stops hr hi hc
      exact h.moves hi hc ⟨rfl, rfl, rfl⟩ rfl fun _ => h.emptied hf
  | broadcast hp =>
    exact phase_leave h (by rw [hp]; rfl) (by rw [hp]; rfl) (by simp [hp]) (by simp [hp])
  | stopWatcher hp =>
    have he := h.emptied (by rw [hp]; rfl)
    cases h with
    | watching hw hq => exact .closing hw hq rfl rfl he
    | _ => simp_all
  | clearWriting hp =>
    cases h with
    | closing _ hq hi _ he => exact .asleep rfl hq hi rfl he
    | watching _ _ _ hr => rw [hp] at hr; cases hr
    | _ => simp_all

theorem no_stranded_frame (hF : F.init.list.first = none) {tr : List (Conn ρ × ConnLabel)}
    {c : Conn ρ} (hr : Run (Conn.step F) (Conn.init F) tr c)
    (hl : Steps (fun _ l => Healthy l) tr) (ht : Steps Timely tr) : Visits Attended tr c :=
  visits_mono (fun _ => Phase.attended)
    (hr.visits (phase_init hF) (fun _ _ _ h hc hs => phase_step h hc.1 hc.2 hs) (steps_and hl ht))

def rested : List ConnLabel :=
  [.insert 1 (letter 65), .startWrite, .ready, .steal, .insert 2 (letter 66), .writev (.wrote 1),
    .steal, .writev (.wrote 1), .steal, .settle false, .stopWatcher, .clearWriting,
    .insert 3 (letter 67)]

def stranded : List ConnLabel :=
  [.insert 1 (letter 65), .startWrite, .ready, .steal, .writev (.wrote 1), .steal,
    .insert 2 (letter 66), .settle false, .stopWatcher, .clearWriting]

theorem no_stranded_frame_rested : Visits Attended
    (trace (Conn.step listFramer) (Conn.init listFramer) rested)
    (final (Conn.step listFramer) (Conn.init listFramer) rested) :=
  no_stranded_frame rfl (run_final rfl) (by decide) (by decide)

theorem late_insert_stranded : ∃ c, Run (Conn.step listFramer) (Conn.init listFramer)
      (trace (Conn.step listFramer) (Conn.init listFramer) stranded) c ∧
    Steps (fun _ l => Healthy l) (trace (Conn.step listFramer) (Conn.init listFramer) stranded) ∧
    c.pc = .idle ∧ c.ol.list.empty = false ∧ c.wio = false ∧ c.queued = false ∧ ¬ c.Attended := by
  refine ⟨_, run_final rfl, by decide, rfl, rfl, rfl, rfl, fun h => ?_⟩
  rcases h rfl rfl with hi | hq
  · exact absurd hi (by decide)
  · exact absurd hq (by decide)

end Conn

end Fsock
