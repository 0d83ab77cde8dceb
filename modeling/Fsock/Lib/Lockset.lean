import Fsock.Lib.LockOrder
import Mathlib.Data.Set.Basic

namespace Lockset

open LockOrder

inductive Access (F : Type) where
  | reads (f : F)
  | writes (f : F)

inductive Act (M F : Type) where
  | lock (m : M)
  | unlock (m : M)
  | wait (m : M)
  | access (a : Access F)

inductive Prog (M F : Type) : Type 1
  | skip
  | lock (m : M)
  | unlock (m : M)
  | wait (m : M)
  | touch (s : Set (Access F)) (p : Prog M F)
  | seq (p q : Prog M F)
  | alt (p q : Prog M F)
  | any {ι : Type} (f : ι → Prog M F)
  | loop (p : Prog M F)
  | brk
  | ret
  | call (p : Prog M F)

inductive Outcome where
  | normal
  | brk
  | ret
  deriving DecidableEq

structure Thr (M F : Type) where
  todo : List (Act M F)
  held : List M

section

variable {M F T : Type}

namespace Access

def field : Access F → F
  | .reads f => f
  | .writes f => f

def writing : Access F → Bool
  | .reads _ => false
  | .writes _ => true

end Access

namespace Prog

def block : List (Prog M F) → Prog M F
  | [] => .skip
  | p :: ps => .seq p (block ps)

def only (b : Bool) (p : Prog M F) : Prog M F := if b then p else .skip

def erase : Prog M F → Stmt M
  | .skip => .skip
  | .lock m => .lock m
  | .unlock m => .unlock m
  | .wait m => .wait m
  | .touch _ p => p.erase
  | .seq p q => .seq p.erase q.erase
  | .alt p q => .alt p.erase q.erase
  | .any f => .any fun i => (f i).erase
  | .loop p => .loop p.erase
  | .brk => .brk
  | .ret => .ret
  | .call p => .call p.erase

end Prog

inductive Emits : Prog M F → Outcome → List (Act M F) → Prop
  | skip : Emits .skip .normal []
  | lock {m} : Emits (.lock m) .normal [.lock m]
  | unlock {m} : Emits (.unlock m) .normal [.unlock m]
  | wait {m} : Emits (.wait m) .normal [.wait m]
  | touch {s p o k} {as : List (Access F)} : (∀ a ∈ as, a ∈ s) → Emits p o k →
      Emits (.touch s p) o (as.map .access ++ k)
  | seq {p q o k l} : Emits p .normal k → Emits q o l → Emits (.seq p q) o (k ++ l)
  | exit {p q o k} : o ≠ .normal → Emits p o k → Emits (.seq p q) o k
  | left {p q o k} : Emits p o k → Emits (.alt p q) o k
  | right {p q o k} : Emits q o k → Emits (.alt p q) o k
  | any {ι : Type} {f : ι → Prog M F} {o k} (i : ι) : Emits (f i) o k → Emits (.any f) o k
  | done {p} : Emits (.loop p) .normal []
  | next {p o k l} : Emits p .normal k → Emits (.loop p) o l → Emits (.loop p) o (k ++ l)
  | stop {p k} : Emits p .brk k → Emits (.loop p) .normal k
  | leave {p k} : Emits p .ret k → Emits (.loop p) .ret k
  | brk : Emits .brk .brk []
  | ret : Emits .ret .ret []
  | call {p o k} : o ≠ .brk → Emits p o k → Emits (.call p) .normal k

section

variable [DecidableEq M] [DecidableEq T]

namespace Act

def next (held : List M) : Act M F → List M
  | .lock m => m :: held
  | .unlock m => held.erase m
  | .wait m => m :: held.erase m
  | .access _ => held

end Act

inductive Step (runs : T → List (Act M F) → Prop) : (T → Thr M F) → (T → Thr M F) → Prop
  | start {s t k} : (s t).todo = [] → runs t k →
      Step runs s (Function.update s t ⟨k, (s t).held⟩)
  | lock {s t m k} : (s t).todo = .lock m :: k → (∀ u, m ∉ (s u).held) →
      Step runs s (Function.update s t ⟨k, m :: (s t).held⟩)
  | unlock {s t m k} : (s t).todo = .unlock m :: k →
      Step runs s (Function.update s t ⟨k, (s t).held.erase m⟩)
  | sleep {s t m k} : (s t).todo = .wait m :: k →
      Step runs s (Function.update s t ⟨.lock m :: k, (s t).held.erase m⟩)
  | access {s t a k} : (s t).todo = .access a :: k →
      Step runs s (Function.update s t ⟨k, (s t).held⟩)

def Reachable (runs : T → List (Act M F) → Prop) (s : T → Thr M F) : Prop :=
  Relation.ReflTransGen (Step runs) (fun _ => ⟨[], []⟩) s

def Protects (runs : T → List (Act M F) → Prop) (m : M) (f : F) : Prop :=
  ∀ s, Reachable runs s → ∀ t a k, (s t).todo = .access a :: k → a.field = f → m ∈ (s t).held

variable (guard : F → Option M)

def Guards (held : List M) (a : Access F) : Prop := ∀ m ∈ guard a.field, m ∈ held

def Covers : List M → List (Act M F) → Prop
  | _, [] => True
  | held, a :: k => (∀ x, a = .access x → Guards guard held x) ∧ Covers (a.next held) k

def Prog.Covered : Prog M F → List M → Exits M → Prop
  | .skip, held, post => post.normal held
  | .lock m, held, post => post.normal (m :: held)
  | .unlock m, held, post => post.normal (held.erase m)
  | .wait m, held, post => post.normal (m :: held.erase m)
  | .touch s p, held, post => (∀ a ∈ s, Guards guard held a) ∧ p.Covered held post
  | .seq p q, held, post => p.Covered held { post with normal := fun now => q.Covered now post }
  | .alt p q, held, post => p.Covered held post ∧ q.Covered held post
  | .any f, held, post => ∀ i, (f i).Covered held post
  | .loop p, held, post =>
      p.Covered held ⟨(· = held), post.normal, post.ret⟩ ∧ post.normal held
  | .brk, held, post => post.brk held
  | .ret, held, post => post.ret held
  | .call p, held, post => p.Covered held ⟨post.normal, fun _ => False, post.normal⟩

def Outcome.meets (post : Exits M) : Outcome → List M → Prop
  | .normal => post.normal
  | .brk => post.brk
  | .ret => post.ret

structure Thr.Sound (t : Thr M F) : Prop where
  covers : Covers guard t.held t.todo
  released : t.todo.foldl Act.next t.held = []

variable {guard} {held : List M} {k l : List (Act M F)} {p : Prog M F} {o : Outcome}
  {post : Exits M} {s s' : T → Thr M F} {runs : T → List (Act M F) → Prop}

namespace Prog

variable {m : M} {q : Prog M F}

@[simp] theorem covered_skip : (skip : Prog M F).Covered guard held post ↔ post.normal held := Iff.rfl

@[simp] theorem covered_lock : (lock m : Prog M F).Covered guard held post ↔
    post.normal (m :: held) := Iff.rfl

@[simp] theorem covered_unlock : (unlock m : Prog M F).Covered guard held post ↔
    post.normal (held.erase m) := Iff.rfl

@[simp] theorem covered_wait : (wait m : Prog M F).Covered guard held post ↔
    post.normal (m :: held.erase m) := Iff.rfl

@[simp] theorem covered_alt : (alt p q).Covered guard held post ↔
    p.Covered guard held post ∧ q.Covered guard held post := Iff.rfl

@[simp] theorem covered_any {ι : Type} {f : ι → Prog M F} : (any f).Covered guard held post ↔
    ∀ i, (f i).Covered guard held post := Iff.rfl

@[simp] theorem covered_loop : (loop p).Covered guard held post ↔
    p.Covered guard held ⟨(· = held), post.normal, post.ret⟩ ∧ post.normal held := Iff.rfl

@[simp] theorem covered_brk : (brk : Prog M F).Covered guard held post ↔ post.brk held := Iff.rfl

@[simp] theorem covered_ret : (ret : Prog M F).Covered guard held post ↔ post.ret held := Iff.rfl

@[simp] theorem covered_block_nil :
    (block [] : Prog M F).Covered guard held post ↔ post.normal held := Iff.rfl

@[simp] theorem covered_block_cons {ps : List (Prog M F)} :
    (block (p :: ps)).Covered guard held post ↔
      p.Covered guard held { post with normal := fun now => (block ps).Covered guard now post } :=
  Iff.rfl

@[simp] theorem covered_only {b : Bool} : (only b p).Covered guard held post ↔
    if b = true then p.Covered guard held post else post.normal held := by
  cases b <;> rfl

end Prog

theorem covers_append : Covers guard held (k ++ l) ↔
    Covers guard held k ∧ Covers guard (k.foldl Act.next held) l := by
  induction k generalizing held with
  | nil => simp [Covers]
  | cons a k ih => simp only [List.cons_append, Covers, ih, List.foldl_cons, and_assoc]

theorem next_accesses (as : List (Access F)) :
    (as.map Act.access).foldl Act.next held = held := by
  induction as with
  | nil => rfl
  | cons a as ih => exact ih

theorem covers_accesses {as : List (Access F)} (h : ∀ a ∈ as, Guards guard held a) :
    Covers guard held (as.map .access) := by
  induction as with
  | nil => trivial
  | cons a as ih =>
    refine ⟨fun x hx => ?_, ih fun b hb => h b (by simp [hb])⟩
    cases hx
    exact h a (by simp)

theorem Emits.covers (he : Emits p o k) (h : p.Covered guard held post) :
    Covers guard held k ∧ o.meets post (k.foldl Act.next held) := by
  induction he generalizing held post with
  | skip => exact ⟨trivial, h⟩
  | lock => exact ⟨⟨by simp, trivial⟩, h⟩
  | unlock => exact ⟨⟨by simp, trivial⟩, h⟩
  | wait => exact ⟨⟨by simp, trivial⟩, h⟩
  | touch has _ ih =>
    obtain ⟨hs, hp⟩ := h
    rw [covers_append, List.foldl_append, next_accesses]
    exact ⟨⟨covers_accesses fun a ha => hs a (has a ha), (ih hp).1⟩, (ih hp).2⟩
  | seq _ _ ihp ihq =>
    obtain ⟨hk, hq⟩ := ihp h
    rw [covers_append, List.foldl_append]
    exact ⟨⟨hk, (ihq hq).1⟩, (ihq hq).2⟩
  | @exit p q o k ho _ ih =>
    obtain ⟨hk, hq⟩ := ih h
    cases o with
    | normal => exact absurd rfl ho
    | brk => exact ⟨hk, hq⟩
    | ret => exact ⟨hk, hq⟩
  | left _ ih => exact ih h.1
  | right _ ih => exact ih h.2
  | any i _ ih => exact ih (h i)
  | done => exact ⟨trivial, h.2⟩
  | @next p o k l _ _ ihp ihl =>
    obtain ⟨hk, hq⟩ := ihp h.1
    have hq : k.foldl Act.next held = held := hq
    rw [covers_append, List.foldl_append, hq]
    exact ⟨⟨hk, (ihl h).1⟩, (ihl h).2⟩
  | stop _ ih => exact ih h.1
  | leave _ ih =>
    obtain ⟨hk, hq⟩ := ih h.1
    exact ⟨hk, hq⟩
  | brk => exact ⟨trivial, h⟩
  | ret => exact ⟨trivial, h⟩
  | @call p o k ho _ ih =>
    obtain ⟨hk, hq⟩ := ih h
    cases o with
    | brk => exact absurd rfl ho
    | normal => exact ⟨hk, hq⟩
    | ret => exact ⟨hk, hq⟩

theorem Emits.sound (he : Emits p o k) (h : p.Covered guard [] .done) :
    (⟨k, []⟩ : Thr M F).Sound guard := by
  obtain ⟨hc, hm⟩ := he.covers h
  cases o with
  | normal => exact ⟨hc, hm⟩
  | brk => exact hm.elim
  | ret => exact ⟨hc, hm⟩

theorem Thr.Sound.tail {t : Thr M F} (h : t.Sound guard) {a : Act M F} (hd : t.todo = a :: k) :
    (⟨k, a.next t.held⟩ : Thr M F).Sound guard := by
  obtain ⟨hc, hr⟩ := h
  rw [hd] at hc hr
  exact ⟨hc.2, hr⟩

theorem Step.sound (hp : ∀ t k, runs t k → (⟨k, []⟩ : Thr M F).Sound guard) (hs : Step runs s s')
    (h : ∀ t, (s t).Sound guard) : ∀ t, (s' t).Sound guard := by
  have hset : ∀ t x, x.Sound guard → ∀ u, (Function.update s t x u).Sound guard := by
    intro t x hx u
    rw [Function.update_apply]
    split
    · exact hx
    · exact h u
  cases hs with
  | @start t k hd hr =>
    have hnil := (h t).released
    rw [hd] at hnil
    refine hset t _ ?_
    rw [show (s t).held = [] from hnil]
    exact hp t k hr
  | @lock t m k hd _ => exact hset t _ ((h t).tail hd)
  | @unlock t m k hd => exact hset t _ ((h t).tail hd)
  | @sleep t m k hd =>
    have ht := (h t).tail hd
    exact hset t _ ⟨⟨by simp, ht.covers⟩, ht.released⟩
  | @access t a k hd => exact hset t _ ((h t).tail hd)

theorem Reachable.sound (hp : ∀ t k, runs t k → (⟨k, []⟩ : Thr M F).Sound guard)
    (hr : Reachable runs s) : ∀ t, (s t).Sound guard := by
  induction hr with
  | refl => exact fun _ => ⟨trivial, rfl⟩
  | tail _ hs ih => exact hs.sound hp ih

theorem Thr.Sound.holds {t : Thr M F} {a : Access F} {m : M} (h : t.Sound guard)
    (hd : t.todo = .access a :: k) (hm : guard a.field = some m) : m ∈ t.held := by
  have hc := h.covers
  rw [hd] at hc
  exact hc.1 a rfl m hm

def drive : List M → List (Act M F) → Option (List M)
  | held, [] => some held
  | held, .lock m :: k => if m ∈ held then none else drive (m :: held) k
  | held, .unlock m :: k => drive (held.erase m) k
  | _, .wait _ :: _ => none
  | held, .access _ :: k => drive held k

theorem Reachable.drive {t : T} (hr : Reachable runs s) (ht : (s t).todo = k ++ l)
    (hd : drive (s t).held k = some held)
    (hfree : ∀ u, u ≠ t → ∀ m, Act.lock m ∈ k → m ∉ (s u).held) :
    Reachable runs (Function.update s t ⟨l, held⟩) := by
  induction k generalizing s with
  | nil =>
    obtain rfl := Option.some.inj hd
    have he : (⟨l, (s t).held⟩ : Thr M F) = s t := by rw [← List.nil_append l, ← ht]
    rwa [he, Function.update_eq_self]
  | cons a k ih =>
    have hstep : ∀ x : Thr M F, x.todo = k ++ l → Lockset.drive x.held k = some held →
        Step runs s (Function.update s t x) → Reachable runs (Function.update s t ⟨l, held⟩) := by
      intro x hx hd hs
      have hi := ih (s := Function.update s t x) (hr.tail hs) (by simpa using hx) (by simpa using hd)
        fun u hu m hm => by simpa [hu] using hfree u hu m (by simp [hm])
      simpa using hi
    cases a with
    | lock m =>
      simp only [Lockset.drive] at hd
      split at hd
      case isTrue => cases hd
      case isFalse hm =>
        refine hstep ⟨k ++ l, m :: (s t).held⟩ rfl hd (.lock ht fun u => ?_)
        rcases eq_or_ne u t with rfl | hu
        · exact hm
        · exact hfree u hu m (by simp)
    | unlock m => exact hstep ⟨k ++ l, _⟩ rfl hd (.unlock ht)
    | wait m => cases hd
    | access a => exact hstep ⟨k ++ l, _⟩ rfl hd (.access ht)

theorem reaches_access {t : T} {a : Access F} {i : List (Act M F)}
    (ht : runs t (i ++ .access a :: k)) (hi : drive [] i = some held) :
    Reachable runs (Function.update (fun _ : T => ⟨[], []⟩) t ⟨.access a :: k, held⟩) := by
  have h0 : Reachable runs (fun _ : T => (⟨[], []⟩ : Thr M F)) := .refl
  have h1 := h0.tail (.start (t := t) rfl ht)
  have h2 := Reachable.drive (t := t) h1 (k := i) (l := .access a :: k) (by simp) (by simpa using hi)
    (by simp +contextual)
  simpa using h2

theorem Protects.mem {t : T} {a : Access F} {m : M} {i : List (Act M F)}
    (h : Protects runs m a.field) (ht : runs t (i ++ .access a :: k)) (hi : drive [] i = some held) :
    m ∈ held := by
  have hs := reaches_access ht hi
  simpa using h _ hs t a k (by simp) rfl

end

end

end Lockset
