import Fsock.Core.RecvSleep
import Fsock.Core.FlowFlags
import Fsock.Core.ChannelOrder

namespace Fsock

open Transition

namespace Recv

variable {κ : Type} {s s' : Recv κ Unit} {l : RecvLabel κ Unit}

structure Steady (s : Recv κ Unit) : Prop where
  apart : ∃ xs loc, s.Apart xs loc
  synced : (s.consumers ()).Synced s.owner
  sound : s.fault = false
  alert : s.Alert
  paused : s.owner.Paused
  clean : ∀ c, (s.handlers c).garbage = 0
  bounded : ∃ n, ∀ a, n ≤ a → s.frames a = none

def Tidy (s : Recv κ Unit) : RecvLabel κ Unit → Prop
  | .read _ cnt => cnt = 0
  | .deliver _ => s.owner.wantEfd = true → s.consumers () = .waiting
  | _ => True

theorem steady_init {rcvhwm : Int} (h : 0 < rcvhwm) : (init rcvhwm : Recv κ Unit).Steady where
  apart := ⟨[], _, apart_init rcvhwm⟩
  synced := .idle rfl
  sound := rfl
  alert := nofun
  paused := Owner.paused_init h
  clean _ := rfl
  bounded := ⟨0, fun _ _ => rfl⟩

theorem Synced.pause {pc : GetPc} {o : Owner} (h : pc.Synced o) : pc.Synced o.pause := by
  have he := Owner.efd_pause o
  have hw := Owner.wantEfd_pause o
  have hn := Owner.events_pause o
  cases h with
  | idle h => exact .idle (he.trans h)
  | waiting h h' => exact .waiting (he.trans h) (hw.trans h')
  | signalled h h' h'' => exact .signalled (by rwa [he]) (hw.trans h') (by rwa [hn])
  | ready h h' => exact .ready (hw.trans h) (by rwa [hn])
  | relock h h' h'' => exact .relock (he.trans h) (hw.trans h') (by rwa [hn])

theorem cnt_of_keeps {xs : List Addr} {loc : κ → List Addr} (h : s.Apart xs loc) {c : κ}
    (hg : (s.handlers c).garbage = 0) : (s.handlers c).cnt = (s.handlers c).batch.length := by
  have hk := h.keeps c
  cases hp : s.handlers c with
  | idle => rfl
  | parsing garbage queue cnt batch =>
    rw [hp] at hk hg
    obtain ⟨-, hf, hn⟩ := hk
    have hlen := congrArg List.length hf
    rw [List.length_map, List.length_map] at hlen
    obtain rfl : garbage = 0 := hg
    change cnt = batch.length
    omega

theorem take_frames (s : Recv κ Unit) : (s.take ()).frames = s.frames := by
  rw [take]
  split <;> rfl

section
variable [DecidableEq κ]

theorem bare_deliver {xs : List Addr} {loc : κ → List Addr} (h : s.Apart xs loc) {c : κ}
    (hg : (s.handlers c).garbage = 0) (hb : (s.handlers c).batch = []) (hs : s.deliver c = some s') :
    s'.owner = s.owner.pause ∧ s'.consumers = s.consumers ∧ s'.fault = s.fault := by
  have hcnt := cnt_of_keeps h hg
  obtain ⟨garbage, queue, cnt, batch, hp, rfl⟩ := deliver_spec hs
  rw [hp] at hcnt hb
  obtain rfl : batch = [] := hb
  obtain rfl : cnt = 0 := hcnt
  have happend : s.append queue 0 = s := by simp [append]
  rw [happend]
  exact ⟨rfl, rfl, rfl⟩

theorem synced_step (h : s.Steady) (ht : s.Tidy l) (hs : s.step l = some s') :
    (s'.consumers ()).Synced s'.owner ∧ s'.fault = false := by
  obtain ⟨xs, loc, hapart⟩ := h.apart
  by_cases hb : ∃ c, l = .deliver c ∧ (s.handlers c).batch = []
  · obtain ⟨c, rfl, hb⟩ := hb
    rw [step, if_neg (by simp [h.sound])] at hs
    obtain ⟨ho, hc, hf⟩ := bare_deliver hapart (h.clean c) hb hs
    rw [ho, hc, hf]
    exact ⟨Synced.pause h.synced, h.sound⟩
  · have hready := ready_step ⟨h.apart, h.synced, h.sound⟩ (l := l)
      (fun c hl => ⟨h.clean c, fun hn => hb ⟨c, hl, hn⟩⟩) (fun c hl => by subst hl; exact ht) hs
    exact ⟨hready.synced, hready.sound⟩

theorem clean_step (h : ∀ c, (s.handlers c).garbage = 0) (ht : s.Tidy l) (hs : s.step l = some s')
    (c : κ) : (s'.handlers c).garbage = 0 := by
  have hset : ∀ {d : κ} {pc : RecvPc}, pc.garbage = 0 →
      (Function.update s.handlers d pc c).garbage = 0 := by
    intro d pc hpc
    rcases eq_or_ne c d with rfl | hcd
    · rwa [Function.update_self]
    · rw [Function.update_of_ne hcd]
      exact h c
  by_cases hl : l.consumes = true
  · rw [(consume_frame hl hs).1]
    exact h c
  cases l with
  | read d cnt =>
    obtain ⟨-, hh, -⟩ := read_frame hs
    rw [hh]
    exact hset ht
  | event d a fr =>
    simp only [step, event] at hs
    split at hs
    · cases hs
    · split at hs
      · rename_i garbage queue cnt batch hp
        obtain ⟨x, -, rfl⟩ := Option.map_eq_some_iff.mp hs
        have hd := h d
        rw [hp] at hd
        exact hset hd
      · cases hs
  | deliver d =>
    rw [(deliver_frame hs).1]
    exact hset rfl
  | _ => exact absurd rfl hl

theorem frames_step (hs : s.step l = some s') (a : Addr) :
    s'.frames a = none ∨ s'.frames a = s.frames a ∨ ∃ c fr, l = .event c a fr := by
  simp only [step] at hs
  split at hs
  · cases hs
  cases l with
  | read c cnt =>
    simp only [read] at hs
    split at hs <;> cases hs
    exact .inr (.inl rfl)
  | event c b fr =>
    simp only [event, queueEvent] at hs
    split at hs
    · obtain ⟨x, hx, rfl⟩ := Option.map_eq_some_iff.mp hs
      split at hx
      · cases hx
      · obtain ⟨y, -, rfl⟩ := Option.map_eq_some_iff.mp hx
        rcases eq_or_ne a b with rfl | hab
        · exact .inr (.inr ⟨c, fr, rfl⟩)
        · exact .inr (.inl (Function.update_of_ne hab ..))
    · cases hs
  | deliver c =>
    obtain ⟨garbage, queue, cnt, batch, -, rfl⟩ := deliver_spec hs
    exact .inr (.inl (congrFun (s.append_same queue cnt).2.1 a))
  | get t donwait =>
    simp only [get] at hs
    split at hs
    · split at hs
      · split at hs <;> cases hs <;> exact .inr (.inl rfl)
      · cases hs
        exact .inr (.inl (congrFun s.take_frames a))
    · cases hs
  | efdReady t | timeout t =>
    simp only [efdReady, timeout] at hs
    split at hs
    · split at hs <;> cases hs
      exact .inr (.inl rfl)
    · cases hs
  | unsignal t =>
    simp only [unsignal] at hs
    split at hs <;> cases hs
    exact .inr (.inl rfl)
  | relock t =>
    simp only [relock] at hs
    split at hs
    · split at hs <;> cases hs
      · exact .inr (.inl rfl)
      · exact .inr (.inl (congrFun s.take_frames a))
    · cases hs
  | destroy b =>
    simp only [destroy] at hs
    split at hs <;> cases hs
    rcases eq_or_ne a b with rfl | hab
    · exact .inl (Function.update_self ..)
    · exact .inr (.inl (Function.update_of_ne hab ..))

theorem bounded_step (h : ∃ n, ∀ a, n ≤ a → s.frames a = none) (hs : s.step l = some s') :
    ∃ n, ∀ a, n ≤ a → s'.frames a = none := by
  obtain ⟨n, hn⟩ := h
  have hkeep : ∀ a, n ≤ a → (∀ c fr, l ≠ .event c a fr) → s'.frames a = none := by
    intro a ha hl
    rcases frames_step hs a with hf | hf | ⟨c, fr, hf⟩
    · exact hf
    · rw [hf, hn a ha]
    · exact absurd hf (hl c fr)
  cases l with
  | event c b fr =>
    refine ⟨max n (b + 1), fun a ha => hkeep a (le_trans (le_max_left ..) ha) ?_⟩
    rintro _ _ ⟨⟩
    exact absurd (le_trans (le_max_right ..) ha) (Nat.not_succ_le_self _)
  | _ => exact ⟨n, fun a ha => hkeep a ha nofun⟩

theorem steady_step (h : s.Steady) (ht : s.Tidy l) (hs : s.step l = some s') : s'.Steady := by
  obtain ⟨xs, loc, hapart⟩ := h.apart
  obtain ⟨hsync, hsound⟩ := synced_step h ht hs
  refine ⟨apart_step hapart (fun c _ => h.clean c) hs, hsync, hsound, alert_step h.alert hs,
    paused_step h.paused (fun c _ => ?_) hs, clean_step h.clean ht hs, bounded_step h.bounded hs⟩
  rw [cnt_of_keeps hapart (h.clean c)]
  exact Int.natCast_nonneg _

end

end Recv

end Fsock
