import Mathlib.Data.Set.Finite.Basic
import Fsock.Core.WriterDrain
import Fsock.Core.SendWake
import Fsock.Core.SendCount

namespace Fsock

open Transition

namespace WritePc

def merging {ρ : Type} : WritePc ρ → Bool
  | .merge _ _ => true
  | _ => false

end WritePc

theorem ConnLabel.shared_of_inserts {l : ConnLabel} (h : l.inserts = true) : l.shared = true := by
  cases l with
  | insert => rfl
  | _ => cases h

namespace Conn

variable {ρ : Type} {F : Framer ρ} {c c' : Conn ρ} {l : ConnLabel} {xs ys : List Addr}

def Stored (c : Conn ρ) : Prop := {a | (c.items a).isSome}.Finite

theorem stored_init : (Conn.init F).Stored := by
  simp [Stored, Conn.init]

theorem Stored.change (h : c.Stored) (as : List Addr)
    (hc : ∀ a, a ∉ as → c'.items a = c.items a) : c'.Stored := by
  refine (h.union as.toFinset.finite_toSet).subset fun a ha => ?_
  by_cases hm : a ∈ as
  · exact .inr (by simpa using hm)
  · exact .inl (by simpa [hc a hm] using ha)

theorem Stored.fresh (h : c.Stored) : ∃ li, (c.items li).isSome = false := by
  obtain ⟨li, hli⟩ := h.exists_notMem
  exact ⟨li, by simpa using hli⟩

theorem stored_step (hF : F.Lawful) (hl : c.Linked F xs ys) (h : c.Stored) (hc : c.Calm l)
    (hs : c.step F l = some c') : c'.Stored := by
  cases effect_of_step hs with
  | @insert li fr c' hi =>
    obtain ⟨hit, -⟩ := Prod.mk.inj hi.lists
    obtain ⟨-, -, hother⟩ := hl.out.insert hF hi.fresh (i := ⟨none, none, fr⟩) rfl
    refine h.change (li :: xs) fun a ha => ?_
    rw [List.mem_cons, not_or] at ha
    rw [hit]
    exact hother a ha.2 ha.1
  | @wrote removed n ol hp hpos hle =>
    obtain ⟨hheld, -⟩ := hl.held ol (by rw [hp]; rfl)
    obtain ⟨rest, hpre⟩ := hF.getIovs_prefix c.items ol 128 ys hheld.holds
    have hlen : n ≤ (F.unsent c.items ol ys).length := by
      rw [Framer.unsent, ← hpre, List.length_append]
      omega
    obtain ⟨-, -, -, -, -, hother⟩ := hheld.written hF hlen
    exact h.change ys hother
  | @merge removed ol hp =>
    have hglue : glue c.items ol.list c.ol.list = c.items := if_pos (hc rfl)
    exact h.change [] fun a _ => congrFun hglue a
  | _ => exact h

theorem backlog_insert {li : Addr} {fr : Frame} (hs : c.step F (.insert li fr) = some c') :
    c'.backlog ≤ c.backlog + 2 * fr.bytes.length + 10 := by
  have hi := insert_spec hs
  have htoil := c'.toil_le
  have hw : c'.wanted.length = c.wanted.length + fr.bytes.length := by
    simp [wanted, hi.accepted]
  simp only [backlog, hi.kernel, hw]
  omega

theorem Draining.insert (hF : F.Lawful) (h : c.Draining F) {li : Addr} {fr : Frame}
    (hf : c.pc.finishing = false) (hm : c.pc.merging = false)
    (hs : c.step F (.insert li fr) = some c') : c'.Draining F := by
  have hl : Healthy (.insert li fr) := ⟨nofun, nofun⟩
  have h' := Writes.step hF ⟨h.linked, h.whole, h.phase, h.alive⟩ hl (fun _ => hf) nofun hs
  refine ⟨h'.linked, h'.whole, h'.phase, h'.alive, fun r ol hp => ?_⟩
  rw [(insert_spec hs).pc] at hp
  rw [hp] at hm
  cases hm

end Conn

def Call.cost {κ : Type} (call : Call κ) : Nat := 2 * call.frame.bytes.length + 13

namespace Pc

variable {κ : Type}

def weight : Pc κ → Nat
  | .done _ => 0
  | .loop _ _ _ _ => 1
  | .lockAll _ _ _ => 2
  | .account _ => 2
  | .insert call => call.cost
  | .alloc call => call.cost + 1
  | .woken call => call.cost + 2
  | .sleeping call => call.cost + 3
  | .park call => call.cost + 4
  | .waitCheck call => call.cost + 5
  | .donwaitCheck call => call.cost + 6
  | .zombieCheck call => call.cost + 7

def locked : Pc κ → Bool
  | .loop _ _ _ _ => true
  | .zombieCheck call => call.bulk
  | .donwaitCheck call => call.bulk
  | .waitCheck call => call.bulk
  | .park call => call.bulk
  | .alloc call => call.bulk
  | .insert call => call.bulk
  | .account call => call.bulk
  | _ => false

@[simp] theorem locked_wake (pc : Pc κ) : pc.wake.locked = pc.locked := by
  cases pc <;> rfl

theorem locked_finish {call : Call κ} (h : call.bulk = true) (rc : Int) :
    (finish call rc).locked = true := by
  rw [finish, if_pos h]
  rfl

theorem weight_wake (pc : Pc κ) : pc.wake.weight ≤ pc.weight := by
  cases pc <;> simp [wake, weight]

theorem weight_finish {call : Call κ} {n : Nat} (h : 2 ≤ n) (rc : Int) :
    (finish call rc).weight < n := by
  rw [finish]
  split <;> simp only [weight] <;> omega

theorem weight_check (call : Call κ) : 2 ≤ (zombieCheck call).weight ∧
    2 ≤ (donwaitCheck call).weight ∧ 2 ≤ (alloc call).weight ∧ 2 ≤ (account call).weight := by
  simp only [weight, Call.cost]
  omega

end Pc

namespace Label

variable {κ τ : Type}

def turns : Label κ τ → Bool
  | .conn _ _ => false
  | .settle _ => false
  | .broadcast _ => false
  | _ => true

def inserts : Label κ τ → Bool
  | .insert _ _ => true
  | _ => false

end Label

namespace Sys

variable {κ τ ρ : Type} {F : Framer ρ} {s s' : Sys κ τ ρ} {l : Label κ τ}

def Orderly (s : Sys κ τ ρ) : Label κ τ → Prop
  | .conn c l => Conn.Healthy l ∧ (s.conns c).Calm l
  | .insert t _ => ∀ c, (s.pcs t).receiver = some c → (s.conns c).pc.finishing = false
  | .park _ => s.root.writing = stopOp ∨ s.Announced
  | _ => True

def Works (s : Sys κ τ ρ) : Label κ τ → Prop
  | .send _ _ _ _ => False
  | .sendAll _ _ _ _ => False
  | .target _ c => c = none
  | .wake _ => False
  | .conn c l => (s.conns c).Works l
  | _ => True

def InTime (s : Sys κ τ ρ) : Label κ τ → Prop
  | .insert t _ => ∀ c, (s.pcs t).receiver = some c →
      (s.conns c).pc.finishing = false ∧ (s.conns c).pc.merging = false
  | .park _ => s.root.writing = stopOp ∨ s.Announced
  | _ => True

def Owned (s : Sys κ τ ρ) : Prop := ∀ t, s.lock = some t → (s.pcs t).locked = true

structure Rested (s : Sys κ τ ρ) : Prop where
  returned : ∀ t, ∃ rc, s.pcs t = .done rc
  drained : ∀ c, (s.conns c).Drained
  empty : s.root.sndqsz = 0
  writing : s.root.writing ≠ stopOp

structure Turn (s s' : Sys κ τ ρ) (l : Label κ τ) (t : τ) (pc : Pc κ) [DecidableEq τ] : Prop where
  pcs : s'.pcs = Function.update s.pcs t pc
  conns : l.inserts = false → s'.conns = s.conns
  mine : s'.lock = some t → (s.lock = some t → (s.pcs t).locked = true) → pc.locked = true
  other : ∀ u, u ≠ t → s'.lock = some u → s.lock = some u
  lighter : s.Works l → pc.weight < (s.pcs t).weight

variable [DecidableEq τ]

theorem Turn.keeps {t : τ} {pc : Pc κ} (hp : s'.pcs = Function.update s.pcs t pc)
    (hc : l.inserts = false → s'.conns = s.conns)
    (hk : s'.lock = s.lock) (hl : (s.pcs t).locked = true → pc.locked = true)
    (hw : s.Works l → pc.weight < (s.pcs t).weight) : s.Turn s' l t pc where
  pcs := hp
  conns := hc
  mine h hm := hl (hm (hk ▸ h))
  other _ _ h := hk ▸ h
  lighter := hw

theorem Turn.frees {t : τ} {pc : Pc κ} (hp : s'.pcs = Function.update s.pcs t pc)
    (hc : l.inserts = false → s'.conns = s.conns)
    (hk : s'.lock = none) (hw : pc.weight < (s.pcs t).weight) : s.Turn s' l t pc where
  pcs := hp
  conns := hc
  mine h := by rw [hk] at h; cases h
  other _ _ h := by rw [hk] at h; cases h
  lighter _ := hw

theorem Turn.locks {t : τ} {pc : Pc κ} (hp : s'.pcs = Function.update s.pcs t pc)
    (hc : l.inserts = false → s'.conns = s.conns)
    (hk : s'.lock = some t) (hl : pc.locked = true) (hw : pc.weight < (s.pcs t).weight) :
    s.Turn s' l t pc where
  pcs := hp
  conns := hc
  mine _ _ := hl
  other u hu h := by
    rw [hk] at h
    cases h
    exact absurd rfl hu
  lighter _ := hw

theorem turn_run {t : τ} (hs : s.run t = some s') : ∃ pc, s.Turn s' (.run t) t pc := by
  simp only [run] at hs
  split at hs
  case h_6 => cases hs
  case h_1 hp =>
    split at hs <;> cases hs
    exact ⟨_, .locks rfl (fun _ => rfl) rfl rfl (by simp [hp, Pc.weight])⟩
  case h_2 call hp =>
    split at hs <;> cases hs
    · exact ⟨_, .keeps rfl (fun _ => rfl) rfl (by rw [hp]; exact fun h => Pc.locked_finish h _)
        fun _ => hp ▸ Pc.weight_finish (Pc.weight_check call).1 _⟩
    · exact ⟨_, .keeps rfl (fun _ => rfl) rfl (by rw [hp]; exact id) fun _ => by simp [hp, Pc.weight]⟩
  case h_3 call hp =>
    split at hs <;> cases hs
    · exact ⟨_, .keeps rfl (fun _ => rfl) rfl (by rw [hp]; exact fun h => Pc.locked_finish h _)
        fun _ => hp ▸ Pc.weight_finish (Pc.weight_check call).2.1 _⟩
    · exact ⟨_, .keeps rfl (fun _ => rfl) rfl (by rw [hp]; exact id) fun _ => by simp [hp, Pc.weight]⟩
  case h_4 call hp =>
    split at hs <;> cases hs
    · exact ⟨_, .keeps rfl (fun _ => rfl) rfl (by rw [hp]; exact id) fun _ => by simp [hp, Pc.weight]⟩
    · exact ⟨_, .keeps rfl (fun _ => rfl) rfl (by rw [hp]; exact id) fun _ => by simp [hp, Pc.weight]⟩
  case h_5 call hp =>
    split at hs <;> cases hs
    have hlt : (Pc.alloc call).weight < (s.pcs t).weight := by simp [hp, Pc.weight]
    cases hb : call.bulk with
    | true => exact ⟨_, .locks rfl (fun _ => rfl) rfl hb hlt⟩
    | false => exact ⟨_, .frees rfl (fun _ => rfl) rfl hlt⟩

theorem turn_step [DecidableEq κ] (hl : l.turns = true) (hs : s.step F l = some s') :
    ∃ t pc, s.Turn s' l t pc := by
  cases l with
  | run t => exact ⟨t, turn_run hs⟩
  | send t c fr donwait =>
    simp only [step, send] at hs
    split at hs <;> cases hs
    rename_i hp
    exact ⟨t, _, .keeps rfl (fun _ => rfl) rfl (by simp [hp, Pc.locked]) fun h => h.elim⟩
  | sendAll t fr donwait stopOnErr =>
    simp only [step, sendAll] at hs
    split at hs <;> cases hs
    rename_i hp
    exact ⟨t, _, .keeps rfl (fun _ => rfl) rfl (by simp [hp, Pc.locked]) fun h => h.elim⟩
  | target t c =>
    simp only [step, target] at hs
    split at hs
    case h_3 => cases hs
    case h_1 hp =>
      cases hs
      exact ⟨t, _, .frees rfl (fun _ => rfl) rfl (by simp [hp, Pc.weight])⟩
    case h_2 hp =>
      split at hs <;> cases hs
      exact ⟨t, _, .keeps rfl (fun _ => rfl) rfl (fun _ => rfl) fun h => by cases h⟩
  | park t =>
    simp only [step, park] at hs
    split at hs
    case h_2 => cases hs
    case h_1 call hp =>
      split at hs <;> cases hs
      exact ⟨t, _, .frees rfl (fun _ => rfl) rfl (by simp [hp, Pc.weight])⟩
  | wake t =>
    simp only [step, wake] at hs
    split at hs <;> cases hs
    rename_i hp
    exact ⟨t, _, .keeps rfl (fun _ => rfl) rfl (by simp [hp, Pc.locked]) fun h => h.elim⟩
  | alloc t ok =>
    simp only [step, alloc] at hs
    split at hs <;> cases hs
    rename_i call hp
    cases ok with
    | false =>
      exact ⟨t, _, .keeps rfl (fun _ => rfl) rfl (by rw [hp]; exact fun h => Pc.locked_finish h _)
        fun _ => hp ▸ Pc.weight_finish (Pc.weight_check call).2.2.1 _⟩
    | true =>
      exact ⟨t, _, .keeps rfl (fun _ => rfl) rfl (by rw [hp]; exact id) fun _ => by simp [hp, Pc.weight]⟩
  | insert t li =>
    simp only [step, insert] at hs
    split at hs
    case h_2 => cases hs
    case h_1 call hp =>
      obtain ⟨u, hu, rfl⟩ := Option.map_eq_some_iff.mp hs
      obtain ⟨conn, hc, rfl⟩ := touch_spec hu
      exact ⟨t, _, .keeps rfl (by simp [Label.inserts]) rfl (by rw [hp]; exact id) fun _ => by
        rw [hp]; simp only [Pc.weight, Call.cost]; omega⟩
  | account t rc =>
    simp only [step, account] at hs
    split at hs
    case h_2 => cases hs
    case h_1 call hp =>
      split at hs <;> cases hs
      exact ⟨t, _, .keeps rfl (fun _ => rfl) rfl (by rw [hp]; exact fun h => Pc.locked_finish h _)
        fun _ => hp ▸ Pc.weight_finish (Pc.weight_check call).2.2.2 _⟩
  | conn | settle | broadcast => cases hl

theorem still_step [DecidableEq κ] (hl : l.turns = false) (hs : s.step F l = some s') :
    s'.lock = s.lock ∧ ∀ t, s'.pcs t = s.pcs t ∨ s'.pcs t = (s.pcs t).wake := by
  cases l with
  | conn c l =>
    simp only [step] at hs
    split at hs
    case isTrue => cases hs
    case isFalse =>
      obtain ⟨conn, hc, rfl⟩ := touch_spec hs
      exact ⟨rfl, fun _ => .inl rfl⟩
  | settle c =>
    simp only [step, settle] at hs
    split at hs
    case h_2 => cases hs
    case h_1 =>
      split at hs
      case isFalse => cases hs
      case isTrue =>
        obtain ⟨u, hu, rfl⟩ := Option.map_eq_some_iff.mp hs
        obtain ⟨conn, hc, rfl⟩ := touch_spec hu
        exact ⟨rfl, fun _ => .inl rfl⟩
  | broadcast c =>
    simp only [step, broadcast] at hs
    obtain ⟨u, hu, rfl⟩ := Option.map_eq_some_iff.mp hs
    obtain ⟨conn, hc, rfl⟩ := touch_spec hu
    exact ⟨rfl, fun _ => .inr rfl⟩
  | _ => cases hl

theorem owned_step [DecidableEq κ] (h : s.Owned) (hs : s.step F l = some s') : s'.Owned := by
  intro u hu
  cases hl : l.turns with
  | true =>
    obtain ⟨t, pc, ht⟩ := turn_step hl hs
    rcases eq_or_ne u t with rfl | hne
    · rw [ht.pcs, Function.update_self]
      exact ht.mine hu fun hk => h u hk
    · rw [ht.pcs, Function.update_of_ne hne]
      exact h u (ht.other u hne hu)
  | false =>
    obtain ⟨hk, hp⟩ := still_step hl hs
    have hlock := h u (hk ▸ hu)
    rcases hp u with hp | hp <;> rw [hp]
    · exact hlock
    · rwa [Pc.locked_wake]

theorem conn_step [DecidableEq κ] (hs : s.step F l = some s') (c : κ) :
    s'.conns c = s.conns c ∨ ∃ m, (s.conns c).step F m = some (s'.conns c) ∧
      ((l = .conn c m ∧ m.shared = false) ∨
        (∃ t li call, l = .insert t li ∧ s.pcs t = .insert call ∧ call.conn = c ∧
          m = .insert li call.frame) ∨
        (∃ wake, l = .settle c ∧ m = .settle wake) ∨ l = .broadcast c ∧ m = .broadcast) := by
  have hset : ∀ {d : κ} {conn : Conn ρ} {m : ConnLabel}, (s.conns d).step F m = some conn →
      c ≠ d ∨ c = d ∧ (s.conns c).step F m = some (Function.update s.conns d conn c) := by
    intro d conn m hd
    rcases eq_or_ne c d with rfl | hne
    · exact .inr ⟨rfl, by rwa [Function.update_self]⟩
    · exact .inl hne
  cases effect_of_step hs with
  | moves | park | account => exact .inl rfl
  | @insert t li call conn hp hc =>
    rcases hset hc with hne | ⟨rfl, hd⟩
    · exact .inl (Function.update_of_ne hne ..)
    · exact .inr ⟨_, hd, .inr (.inl ⟨t, li, call, rfl, hp, rfl, rfl⟩)⟩
  | @conn d m conn hl hc =>
    rcases hset hc with hne | ⟨rfl, hd⟩
    · exact .inl (Function.update_of_ne hne ..)
    · exact .inr ⟨_, hd, .inl ⟨rfl, hl⟩⟩
  | @settle d removed mustStop conn hp hc =>
    rcases hset hc with hne | ⟨rfl, hd⟩
    · exact .inl (Function.update_of_ne hne ..)
    · exact .inr ⟨_, hd, .inr (.inr (.inl ⟨_, rfl, rfl⟩))⟩
  | @broadcast d conn hc =>
    rcases hset hc with hne | ⟨rfl, hd⟩
    · exact .inl (Function.update_of_ne hne ..)
    · exact .inr ⟨_, hd, .inr (.inr (.inr ⟨rfl, rfl⟩))⟩

theorem Orderly.conn [DecidableEq κ] (ho : s.Orderly l) (hs : s.step F l = some s') (c : κ) :
    s'.conns c = s.conns c ∨ ∃ m, (s.conns c).step F m = some (s'.conns c) ∧ Conn.Healthy m ∧
      (s.conns c).Timely m ∧ (s.conns c).Calm m := by
  refine (conn_step hs c).imp_right ?_
  rintro ⟨m, hm, hl⟩
  refine ⟨m, hm, ?_⟩
  rcases hl with ⟨rfl, hm⟩ | ⟨t, li, call, rfl, hp, rfl, rfl⟩ | ⟨wake, rfl, rfl⟩ | ⟨rfl, rfl⟩
  · refine ⟨ho.1, fun hi => ?_, ho.2⟩
    rw [ConnLabel.shared_of_inserts hi] at hm
    cases hm
  · exact ⟨⟨nofun, nofun⟩, fun _ => ho _ (by rw [hp]; rfl), nofun⟩
  · exact ⟨⟨nofun, nofun⟩, nofun, nofun⟩
  · exact ⟨⟨nofun, nofun⟩, nofun, nofun⟩

structure Going [Fintype κ] [Fintype τ] (F : Framer ρ) (s : Sys κ τ ρ) : Prop where
  loaded : s.Loaded F
  writes : ∀ c, (s.conns c).Writes F
  stored : ∀ c, (s.conns c).Stored
  noted : s.Noted
  owned : s.Owned

section

variable [Fintype κ] [Fintype τ] [DecidableEq κ]

omit [DecidableEq τ] [DecidableEq κ] in
theorem going_init (hF : F.Lawful) (sndhwm : Int) : (init F sndhwm : Sys κ τ ρ).Going F where
  loaded := loaded_init hF sndhwm
  writes _ := Conn.writes_init hF
  stored _ := Conn.stored_init
  noted := noted_init sndhwm
  owned := nofun

omit [Fintype κ] [Fintype τ] [DecidableEq κ] [DecidableEq τ] in
theorem Orderly.careful (ho : s.Orderly l) (hw : ∀ c, (s.conns c).Writes F) : s.Careful l := by
  cases l with
  | conn c m => exact ⟨ho.1.1, ho.2, fun hz => absurd hz ho.1.2⟩
  | insert t li => exact fun c _ => (hw c).alive
  | _ => trivial

omit [Fintype κ] [Fintype τ] [DecidableEq κ] [DecidableEq τ] in
theorem Orderly.awaited (ho : s.Orderly l) : s.Awaited l := by
  rintro t rfl
  exact ho

theorem going_step (hF : F.Lawful) (h : s.Going F) (ho : s.Orderly l)
    (hs : s.step F l = some s') : s'.Going F := by
  have hconn := fun c => ho.conn hs c
  refine ⟨loaded_effect hF h.loaded (ho.careful h.writes) (effect_of_step hs), fun c => ?_,
    fun c => ?_, noted_effect h.noted ho.awaited (effect_of_step hs), owned_step h.owned hs⟩
  · rcases hconn c with hc | ⟨m, hm, hl, ht, hc⟩
    · rw [hc]
      exact h.writes c
    · exact (h.writes c).step hF hl ht hc hm
  · rcases hconn c with hc | ⟨m, hm, hl, ht, hc⟩
    · rw [hc]
      exact h.stored c
    · obtain ⟨xs, ys, hlink⟩ := (h.writes c).linked
      exact Conn.stored_step hF hlink (h.stored c) hc hm

structure Emptying (F : Framer ρ) (s : Sys κ τ ρ) : Prop where
  going : s.Going F
  merging : ∀ c r ol, (s.conns c).pc = .merge r ol → (s.conns c).ol.list.empty = true

omit [DecidableEq τ] [DecidableEq κ] in
theorem Emptying.writer (h : s.Emptying F) (c : κ) : (s.conns c).Draining F :=
  ⟨(h.going.writes c).linked, (h.going.writes c).whole, (h.going.writes c).phase,
    (h.going.writes c).alive, h.merging c⟩

omit [Fintype κ] [Fintype τ] [DecidableEq κ] [DecidableEq τ] in
theorem Works.orderly (hw : s.Works l) (ht : s.InTime l) : s.Orderly l := by
  cases l with
  | conn c m =>
    obtain ⟨hl, -, hc⟩ := Conn.works_healthy hw
    exact ⟨hl, hc⟩
  | insert t li => exact fun c hc => (ht c hc).1
  | park t => exact ht
  | _ => trivial

theorem Emptying.step (hF : F.Lawful) (h : s.Emptying F) (hw : s.Works l) (ht : s.InTime l)
    (hs : s.step F l = some s') : s'.Emptying F := by
  refine ⟨going_step hF h.going (hw.orderly ht) hs, fun c => ?_⟩
  rcases conn_step hs c with hc | ⟨m, hm, hl⟩
  · rw [hc]
    exact h.merging c
  · rcases hl with ⟨rfl, -⟩ | ⟨t, li, call, rfl, hp, rfl, rfl⟩ | ⟨wake, rfl, rfl⟩ | ⟨rfl, rfl⟩
    · exact ((h.writer c).step hF hw hm).merging
    · obtain ⟨hf, hn⟩ := ht _ (by rw [hp]; rfl)
      exact ((h.writer _).insert hF hf hn hm).merging
    · have hl : (s.conns c).Works (.settle wake) := trivial
      exact ((h.writer c).step hF hl hm).merging
    · have hl : (s.conns c).Works .broadcast := trivial
      exact ((h.writer c).step hF hl hm).merging

def load (s : Sys κ τ ρ) : Nat := (∑ c, (s.conns c).backlog) + ∑ t, (s.pcs t).weight

omit [DecidableEq κ] in
theorem load_turn {t : τ} {pc : Pc κ} (ht : s.Turn s' l t pc) (hl : l.inserts = false)
    (hw : s.Works l) : s'.load < s.load := by
  have hlt := ht.lighter hw
  have hsum := sum_local (f := fun u => (s.pcs u).weight) (g := fun u => (s'.pcs u).weight)
    (c := t) fun u hu => by rw [ht.pcs, Function.update_of_ne hu]
  have hself : (s'.pcs t).weight = pc.weight := by rw [ht.pcs, Function.update_self]
  simp only [load, ht.conns hl]
  omega

omit [DecidableEq τ] in
theorem load_conn {c : κ} {conn : Conn ρ} (hc : s'.conns = Function.update s.conns c conn)
    (hlt : conn.backlog < (s.conns c).backlog)
    (hp : ∀ t, (s'.pcs t).weight ≤ (s.pcs t).weight) : s'.load < s.load := by
  have hsum := sum_local (f := fun d => (s.conns d).backlog) (g := fun d => (s'.conns d).backlog)
    (c := c) fun d hd => by rw [hc, Function.update_of_ne hd]
  have hself : (s'.conns c).backlog = conn.backlog := by rw [hc, Function.update_self]
  have hle : ∑ t, (s'.pcs t).weight ≤ ∑ t, (s.pcs t).weight := Finset.sum_le_sum fun t _ => hp t
  simp only [load]
  omega

theorem load_insert {t : τ} {li : Addr} {call : Call κ} {conn : Conn ρ} (hp : s.pcs t = .insert call)
    (hc : (s.conns call.conn).step F (.insert li call.frame) = some conn) :
    load { s.goto t (.account call) with conns := Function.update s.conns call.conn conn } <
      s.load := by
  have hle := Conn.backlog_insert hc
  have hconns := sum_update Conn.backlog s.conns call.conn conn
  have hpcs := sum_update Pc.weight s.pcs t (.account call)
  have hfrom : (Pc.insert call).weight = 2 * call.frame.bytes.length + 13 := rfl
  have hto : (Pc.account call).weight = 2 := rfl
  rw [hp] at hpcs
  simp only [load, goto]
  omega

theorem Emptying.lowers (hF : F.Lawful) (h : s.Emptying F) (hw : s.Works l)
    (hs : s.step F l = some s') : s'.load < s.load := by
  cases l with
  | send | sendAll | wake => exact hw.elim
  | target | run | park | alloc | account =>
    obtain ⟨t, pc, ht⟩ := turn_step rfl hs
    exact load_turn ht rfl hw
  | insert t li =>
    simp only [Sys.step, Sys.insert] at hs
    split at hs
    case h_2 => cases hs
    case h_1 call hp =>
      obtain ⟨u, hu, rfl⟩ := Option.map_eq_some_iff.mp hs
      obtain ⟨conn, hc, rfl⟩ := touch_spec hu
      exact load_insert hp hc
  | conn c m =>
    simp only [Sys.step] at hs
    split at hs
    case isTrue => cases hs
    case isFalse =>
      obtain ⟨conn, hc, rfl⟩ := touch_spec hs
      exact load_conn rfl ((h.writer c).lowers hF hw hc) fun _ => le_rfl
  | settle c =>
    simp only [Sys.step, settle] at hs
    split at hs
    case h_2 => cases hs
    case h_1 removed mustStop hp =>
      split at hs
      case isFalse => cases hs
      case isTrue =>
        obtain ⟨u, hu, rfl⟩ := Option.map_eq_some_iff.mp hs
        obtain ⟨conn, hc, rfl⟩ := touch_spec hu
        have hl : (s.conns c).Works (.settle (s.root.settle removed).2) := trivial
        exact load_conn rfl ((h.writer c).lowers hF hl hc) fun _ => le_rfl
  | broadcast c =>
    simp only [Sys.step, broadcast] at hs
    obtain ⟨u, hu, rfl⟩ := Option.map_eq_some_iff.mp hs
    obtain ⟨conn, hc, rfl⟩ := touch_spec hu
    have hl : (s.conns c).Works .broadcast := trivial
    exact load_conn rfl ((h.writer c).lowers hF hl hc) fun t => (s.pcs t).weight_wake

omit [Fintype κ] [Fintype τ] in
theorem stuck_pc (hf : ∀ c, (s.conns c).Stored) (hs : Stuck (Sys.step F) Works s) {t : τ}
    (hk : s.lock = none ∨ (s.pcs t).locked = true) :
    (∃ rc, s.pcs t = .done rc) ∨ ∃ call, s.pcs t = .sleeping call := by
  have hrun := hs (.run t) trivial
  simp only [Sys.step, run] at hrun
  cases hp : s.pcs t with
  | done rc => exact .inl ⟨rc, rfl⟩
  | sleeping call => exact .inr ⟨call, rfl⟩
  | lockAll | woken =>
    rw [hp] at hk
    have hfree : s.lock = none := hk.resolve_right (by simp [Pc.locked])
    simp [hp, hfree] at hrun
  | loop =>
    have hnone := hs (.target t none) rfl
    simp [Sys.step, target, hp] at hnone
  | zombieCheck | donwaitCheck | waitCheck =>
    simp only [hp] at hrun
    split at hrun <;> cases hrun
  | park call =>
    have hnone := hs (.park t) trivial
    rw [hp] at hk
    have hfree : s.lock = none ∨ call.bulk = true := hk
    simp only [Sys.step, park, hp] at hnone
    rw [if_pos hfree] at hnone
    cases hnone
  | alloc =>
    have hnone := hs (.alloc t true) trivial
    simp [Sys.step, alloc, hp] at hnone
  | insert call =>
    obtain ⟨li, hli⟩ := (hf call.conn).fresh
    have hnone := hs (.insert t li) trivial
    simp only [Sys.step, insert, hp, Option.map_eq_none_iff, touch] at hnone
    simp [Conn.step, Conn.insert, hli] at hnone
  | account call =>
    have hnone := hs (.account t 0) trivial
    rw [hp] at hk
    have hfree : s.lock = none ∨ call.bulk = true := hk
    simp only [Sys.step, account, hp] at hnone
    rw [if_pos hfree] at hnone
    cases hnone

omit [Fintype κ] [Fintype τ] in
theorem stuck_unlocked (hf : ∀ c, (s.conns c).Stored) (ho : s.Owned)
    (hs : Stuck (Sys.step F) Works s) : s.lock = none := by
  by_contra hne
  obtain ⟨t, ht⟩ := Option.ne_none_iff_exists'.mp hne
  have hlock := ho t ht
  rcases stuck_pc hf hs (.inr hlock) with ⟨rc, hp⟩ | ⟨call, hp⟩ <;>
    · rw [hp] at hlock
      cases hlock

omit [Fintype κ] [Fintype τ] in
theorem stuck_conn (hk : s.lock = none) (hs : Stuck (Sys.step F) Works s) (c : κ) :
    Stuck (Conn.step F) Conn.Works (s.conns c) := by
  intro m hm
  cases hl : m.shared with
  | false => simpa [Sys.step, hl, touch] using hs (.conn c m) hm
  | true =>
  cases m with
  | insert => exact hm.elim
  | settle wake =>
    have hnone := hs (.settle c) trivial
    simp only [Sys.step, settle] at hnone
    simp only [Conn.step, Conn.settle]
    split
    case h_2 => rfl
    case h_1 removed mustStop hp =>
      simp [hp, hk, touch, Conn.step, Conn.settle] at hnone
  | broadcast =>
    have hnone := hs (.broadcast c) trivial
    simpa [Sys.step, broadcast, touch] using hnone
  | _ => cases hl

omit [DecidableEq κ] [DecidableEq τ] in
theorem Loaded.emptied (h : s.Loaded F) (hp : ∀ t, (s.pcs t).accounting = false)
    (hd : ∀ c, (s.conns c).Drained) : s.root.sndqsz = 0 ∧ s.root.writing ≠ stopOp := by
  obtain ⟨xs, ys, hc⟩ := h.carries
  have hpend : s.pending = 0 := Finset.sum_eq_zero fun t _ => Pc.owes_of_not (hp t)
  have hload : ∑ c, ((s.conns c).load (xs c) (ys c) : Int) = 0 := by
    refine Finset.sum_eq_zero fun c _ => ?_
    have hx : xs c = [] := (hc.linked c).out.holds.empty_eq.mp (hd c).empty
    have hy : ys c = [] := (hc.linked c).bare (by rw [(hd c).pc]; rfl)
    simp [Conn.load, hx, hy, (hd c).pc]
  have htotal := hc.total
  refine ⟨by omega, fun hw => ?_⟩
  have hpos := h.capped.positive hw
  have hfull := h.capped.full hw
  omega

theorem Emptying.rested (hO : F.Offers) (h : s.Emptying F) (hs : Stuck (Sys.step F) Works s) :
    s.Rested := by
  have hk := stuck_unlocked h.going.stored h.going.owned hs
  have hpc := fun t => stuck_pc h.going.stored hs (t := t) (.inl hk)
  have hd := fun c => (h.writer c).stuck hO (stuck_conn hk hs c)
  obtain ⟨hzero, hopen⟩ := h.going.loaded.emptied
    (fun t => by rcases hpc t with ⟨rc, hp⟩ | ⟨call, hp⟩ <;> rw [hp] <;> rfl) hd
  refine ⟨fun t => (hpc t).resolve_right ?_, hd, hzero, hopen⟩
  rintro ⟨call, hp⟩
  rcases h.going.noted t (by rw [hp]; rfl) with ⟨c, hb⟩ | ⟨-, hw⟩
  · rw [(hd c).pc] at hb
    cases hb
  · exact hopen hw

theorem measured (hF : F.Lawful) : Measured (step F) (Emptying F : Sys κ τ ρ → Prop)
    (fun s l => s.Works l ∧ s.InTime l) load where
  keeps _ _ _ h hw hs := h.step hF hw.1 hw.2 hs
  lowers _ _ _ h hw hs := h.lowers hF hw.1 hs

theorem senders_return (hF : F.Lawful) (hO : F.Offers) (sndhwm : Int)
    {tr : List (Sys κ τ ρ × Label κ τ)} (hr : Run (step F) (init F sndhwm) tr s)
    (hc : Steps Orderly tr)
    (hm : ∀ c r ol, (s.conns c).pc = .merge r ol → (s.conns c).ol.list.empty = true) :
    ∀ more t, Run (step F) s more t → Steps (fun s l => s.Works l ∧ s.InTime l) more →
      more.length ≤ s.load ∧ (Stuck (step F) Works t → t.Rested) := by
  have hgoing := hr.invariant (going_init hF sndhwm) (fun _ _ _ h ho hs => going_step hF h ho hs) hc
  have h : s.Emptying F := ⟨hgoing, hm⟩
  intro more t ht hmore
  refine ⟨le_of_add_le_left ((measured hF).length_le h ht hmore), fun hstuck => ?_⟩
  exact (ht.invariant h (measured hF).keeps hmore).rested hO hstuck

end

instance [Fintype κ] (s : Sys κ τ ρ) (l : Label κ τ) : Decidable (s.Orderly l) :=
  match l with
  | .conn c l => inferInstanceAs (Decidable (Conn.Healthy l ∧ (s.conns c).Calm l))
  | .insert t _ => inferInstanceAs (Decidable (∀ c, (s.pcs t).receiver = some c →
      (s.conns c).pc.finishing = false))
  | .park _ => inferInstanceAs (Decidable (s.root.writing = stopOp ∨ s.Announced))
  | .send .. => isTrue trivial
  | .sendAll .. => isTrue trivial
  | .target .. => isTrue trivial
  | .run _ => isTrue trivial
  | .wake _ => isTrue trivial
  | .alloc .. => isTrue trivial
  | .account .. => isTrue trivial
  | .settle _ => isTrue trivial
  | .broadcast _ => isTrue trivial

def blocked : List (Label Unit Bool) := contended ++ [.park false, .conn () .startWrite]

theorem senders_return_blocked :
    ((final (step listFramer) (init listFramer 1) blocked).pcs false).asleep = true ∧
    ∀ more t, Run (step listFramer) (final (step listFramer) (init listFramer 1) blocked) more t →
      Steps (fun s l => s.Works l ∧ s.InTime l) more →
        more.length ≤ (final (step listFramer) (init listFramer 1) blocked).load ∧
          (Stuck (step listFramer) Works t → t.Rested) :=
  ⟨rfl, senders_return listFramer_lawful listFramer_offers 1 (run_final (k := blocked) rfl)
    (by decide) fun _ _ _ hp => by cases hp⟩

end Sys

end Fsock
