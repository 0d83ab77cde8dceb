import Mathlib.Data.List.Basic

namespace Syscalls

inductive Script {Op : Type} (Re : Op → Type) (α : Type) where
  | done (a : α)
  | call (op : Op) (k : Re op → Script Re α)

abbrev Event {Op : Type} (Re : Op → Type) : Type := (op : Op) × Re op

structure World {Op : Type} (Re : Op → Type) (σ : Type) where
  allowed : σ → Op → Bool
  possible : σ → (op : Op) → Re op → Bool
  after : σ → (op : Op) → Re op → σ

variable {Op σ α β : Type} {Re : Op → Type} {w : World Re σ} {s s' : σ} {a : α}
  {tr : List (Event Re)}

namespace Script

def bind : Script Re α → (α → Script Re β) → Script Re β
  | done a, f => f a
  | call op k, f => call op fun r => (k r).bind f

instance : Monad (Script Re) where
  pure := done
  bind := bind

def ask (op : Op) : Script Re (Re op) := call op done

def wp (w : World Re σ) : Script Re α → (α → List (Event Re) → σ → Prop) → σ → Prop
  | done a, post, s => post a [] s
  | call op k, post, s => w.allowed s op = true ∧ ∀ r, w.possible s op r = true →
      (k r).wp w (fun a tr => post a (⟨op, r⟩ :: tr)) (w.after s op r)

def Asks (P : Op → Prop) : Script Re α → Prop
  | done _ => True
  | call op k => P op ∧ ∀ r, (k r).Asks P

def exec [DecidableEq Op] (w : World Re σ) :
    Script Re α → σ → List (Event Re) → Option (α × σ)
  | done a, s, [] => some (a, s)
  | done _, _, _ :: _ => none
  | call _ _, _, [] => none
  | call op k, s, e :: tr =>
    if h : e.1 = op then
      if w.possible s op (h ▸ e.2) then (k (h ▸ e.2)).exec w (w.after s op (h ▸ e.2)) tr else none
    else none

end Script

def World.Obeys (w : World Re σ) : σ → List (Event Re) → Prop
  | _, [] => True
  | s, e :: tr => w.allowed s e.1 = true ∧ w.Obeys (w.after s e.1 e.2) tr

namespace Script

variable {p : Script Re α} {f : α → Script Re β} {P Q : α → List (Event Re) → σ → Prop}
  {R : β → List (Event Re) → σ → Prop}

@[simp] theorem wp_pure : (pure a : Script Re α).wp w Q s ↔ Q a [] s := Iff.rfl

@[simp] theorem wp_ask {op : Op} {Q : Re op → List (Event Re) → σ → Prop} :
    (ask op).wp w Q s ↔ w.allowed s op = true ∧
      ∀ r, w.possible s op r = true → Q r [⟨op, r⟩] (w.after s op r) := Iff.rfl

theorem wp.mono (h : p.wp w P s) (hpq : ∀ a tr s', P a tr s' → Q a tr s') : p.wp w Q s := by
  induction p generalizing P Q s with
  | done a => exact hpq a [] s h
  | call op k ih =>
    obtain ⟨ha, hk⟩ := h
    exact ⟨ha, fun r hr => ih r (hk r hr) fun a tr => hpq a (⟨op, r⟩ :: tr)⟩

@[simp] theorem wp_bind : (p >>= f).wp w R s ↔
    p.wp w (fun a tr t => (f a).wp w (fun b us => R b (tr ++ us)) t) s := by
  induction p generalizing R s with
  | done a => exact Iff.rfl
  | call op k ih => exact and_congr Iff.rfl (forall₂_congr fun r _ => ih r)

theorem wp.seq (h : p.wp w P s)
    (hf : ∀ a tr t, P a tr t → (f a).wp w (fun b us => R b (tr ++ us)) t) :
    (p >>= f).wp w R s := wp_bind.mpr (h.mono hf)

section

variable {A : Op → Prop}

@[simp] theorem asks_pure : (pure a : Script Re α).Asks A := trivial

@[simp] theorem asks_ask {op : Op} : (ask op : Script Re (Re op)).Asks A ↔ A op :=
  and_iff_left fun _ => trivial

theorem Asks.seq (h : p.Asks A) (hf : ∀ a, (f a).Asks A) : (p >>= f).Asks A := by
  induction p with
  | done a => exact hf a
  | call op k ih => exact ⟨h.1, fun r => ih r (h.2 r)⟩

theorem Asks.mono {B : Op → Prop} (h : p.Asks A) (hab : ∀ op, A op → B op) : p.Asks B := by
  induction p with
  | done a => trivial
  | call op k ih => exact ⟨hab op h.1, fun r => ih r (h.2 r)⟩

theorem wp.asked (h : p.wp w P s) (hp : p.Asks A) :
    p.wp w (fun a tr t => P a tr t ∧ ∀ e ∈ tr, A e.1) s := by
  induction p generalizing P s with
  | done a => exact ⟨h, by simp⟩
  | call op k ih =>
    obtain ⟨hall, hk⟩ := h
    refine ⟨hall, fun r hr => (ih r (hk r hr) (hp.2 r)).mono ?_⟩
    rintro b tr t ⟨hb, htr⟩
    exact ⟨hb, by simpa using ⟨hp.1, htr⟩⟩

end

theorem wp.exec [DecidableEq Op] (h : p.wp w Q s) (he : p.exec w s tr = some (a, s')) :
    w.Obeys s tr ∧ Q a tr s' := by
  induction p generalizing Q s tr with
  | done b =>
    cases tr with
    | nil =>
      obtain ⟨rfl, rfl⟩ : b = a ∧ s = s' := by simpa [Script.exec] using he
      exact ⟨trivial, h⟩
    | cons e tr => simp [Script.exec] at he
  | call op k ih =>
    cases tr with
    | nil => simp [Script.exec] at he
    | cons e tr =>
      obtain ⟨op', r⟩ := e
      simp only [Script.exec] at he
      split at he
      · rename_i heq
        subst heq
        split at he
        · rename_i hr
          obtain ⟨hall, hk⟩ := h
          obtain ⟨hob, hq⟩ := ih r (hk r hr) he
          exact ⟨⟨hall, hob⟩, hq⟩
        · cases he
      · cases he

end Script

end Syscalls
