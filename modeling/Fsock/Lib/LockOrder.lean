import Mathlib.Data.List.Basic
import Mathlib.Logic.Function.Basic
import Mathlib.Logic.Relation
import Mathlib.Order.Basic

namespace LockOrder

inductive Stmt (M : Type) : Type 1
  | skip
  | lock (m : M)
  | unlock (m : M)
  | wait (m : M)
  | seq (p q : Stmt M)
  | alt (p q : Stmt M)
  | any {ι : Type} (f : ι → Stmt M)
  | loop (p : Stmt M)
  | brk
  | ret
  | call (p : Stmt M)

inductive Frame (M : Type) : Type 1
  | seq (q : Stmt M)
  | loop (p : Stmt M)
  | call

inductive Code (M : Type) : Type 1
  | run (p : Stmt M) (k : List (Frame M))
  | asleep (m : M) (k : List (Frame M))

structure Thr (M : Type) : Type 1 where
  code : Code M
  held : List M

def Stmt.block {M : Type} : List (Stmt M) → Stmt M
  | [] => .skip
  | p :: ps => .seq p (block ps)

def Stmt.only {M : Type} (b : Bool) (p : Stmt M) : Stmt M := if b then p else .skip

structure Exits (M : Type) where
  normal : List M → Prop
  brk : List M → Prop
  ret : List M → Prop

section

variable {M T R : Type} [DecidableEq M]

inductive Silent : Stmt M → List (Frame M) → Stmt M → List (Frame M) → Prop
  | seq {p q k} : Silent (.seq p q) k p (.seq q :: k)
  | altLeft {p q k} : Silent (.alt p q) k p k
  | altRight {p q k} : Silent (.alt p q) k q k
  | any {ι f k} (i : ι) : Silent (.any f) k (f i) k
  | enter {p k} : Silent (.loop p) k p (.loop p :: k)
  | leave {p k} : Silent (.loop p) k .skip k
  | call {p k} : Silent (.call p) k p (.call :: k)
  | skipSeq {q k} : Silent .skip (.seq q :: k) q k
  | skipLoop {p k} : Silent .skip (.loop p :: k) (.loop p) k
  | skipCall {k} : Silent .skip (.call :: k) .skip k
  | brkSeq {q k} : Silent .brk (.seq q :: k) .brk k
  | brkLoop {p k} : Silent .brk (.loop p :: k) .skip k
  | retSeq {q k} : Silent .ret (.seq q :: k) .ret k
  | retLoop {p k} : Silent .ret (.loop p :: k) .ret k
  | retCall {k} : Silent .ret (.call :: k) .skip k

namespace Thr

def Finished (t : Thr M) : Prop := t.code = .run .skip [] ∨ t.code = .run .ret []

def Wants (t : Thr M) (m : M) : Prop := ∃ k, t.code = .run (.lock m) k ∨ t.code = .asleep m k

def Drops (t : Thr M) (m : M) : Prop := ∃ k, t.code = .run (.unlock m) k ∨ t.code = .run (.wait m) k

def idle : Thr M := ⟨.run .skip [], []⟩

end Thr

def Blocked (s : T → Thr M) (t u : T) : Prop := ∃ m, (s t).Wants m ∧ m ∈ (s u).held

inductive Step [DecidableEq T] (progs : T → Stmt M → Prop) : (T → Thr M) → (T → Thr M) → Prop
  | start {s t p} : (s t).Finished → progs t p →
      Step progs s (Function.update s t ⟨.run p [], (s t).held⟩)
  | silent {s t p k q l} : (s t).code = .run p k → Silent p k q l →
      Step progs s (Function.update s t ⟨.run q l, (s t).held⟩)
  | lock {s t m k} : (s t).code = .run (.lock m) k → (∀ u, m ∉ (s u).held) →
      Step progs s (Function.update s t ⟨.run .skip k, m :: (s t).held⟩)
  | unlock {s t m k} : (s t).code = .run (.unlock m) k →
      Step progs s (Function.update s t ⟨.run .skip k, (s t).held.erase m⟩)
  | sleep {s t m k} : (s t).code = .run (.wait m) k →
      Step progs s (Function.update s t ⟨.asleep m k, (s t).held.erase m⟩)
  | wake {s t m k} : (s t).code = .asleep m k →
      Step progs s (Function.update s t ⟨.run (.lock m) k, (s t).held⟩)

def Reachable [DecidableEq T] (progs : T → Stmt M → Prop) (s : T → Thr M) : Prop :=
  Relation.ReflTransGen (Step progs) (fun _ => Thr.idle) s

variable [Preorder R] (rank : M → R)

def Above (m : M) (held : List M) : Prop := ∀ h ∈ held, rank h < rank m

omit [DecidableEq M] in
theorem above_nil (m : M) : Above rank m [] := by simp [Above]

omit [DecidableEq M] in
theorem above_cons {m h : M} {held : List M} :
    Above rank m (h :: held) ↔ rank h < rank m ∧ Above rank m held := List.forall_mem_cons

def Stmt.Safe : Stmt M → List M → Exits M → Prop
  | .skip, held, post => post.normal held
  | .lock m, held, post => Above rank m held ∧ post.normal (m :: held)
  | .unlock m, held, post => m ∈ held ∧ post.normal (held.erase m)
  | .wait m, held, post =>
      m ∈ held ∧ Above rank m (held.erase m) ∧ post.normal (m :: held.erase m)
  | .seq p q, held, post => p.Safe held { post with normal := fun now => q.Safe now post }
  | .alt p q, held, post => p.Safe held post ∧ q.Safe held post
  | .any f, held, post => ∀ i, (f i).Safe held post
  | .loop p, held, post =>
      p.Safe held ⟨(· = held), post.normal, post.ret⟩ ∧ post.normal held
  | .brk, held, post => post.brk held
  | .ret, held, post => post.ret held
  | .call p, held, post => p.Safe held ⟨post.normal, fun _ => False, post.normal⟩

def Exits.done : Exits M := ⟨(· = []), fun _ => False, (· = [])⟩

def Exits.after : List (Frame M) → Exits M
  | [] => .done
  | .seq q :: k => { after k with normal := fun now => q.Safe rank now (after k) }
  | .loop p :: k =>
      ⟨fun now => (Stmt.loop p).Safe rank now (after k), (after k).normal, (after k).ret⟩
  | .call :: k => ⟨(after k).normal, fun _ => False, (after k).normal⟩

def Thr.Sound (t : Thr M) : Prop :=
  match t.code with
  | .run p k => p.Safe rank t.held (.after rank k)
  | .asleep m k => (Stmt.lock m).Safe rank t.held (.after rank k)

variable {rank}

section

variable {held : List M} {post : Exits M} {m : M} {p q : Stmt M}

@[simp] theorem Stmt.safe_skip : (Stmt.skip : Stmt M).Safe rank held post ↔ post.normal held :=
  Iff.rfl

@[simp] theorem Stmt.safe_lock : (Stmt.lock m).Safe rank held post ↔
    Above rank m held ∧ post.normal (m :: held) := Iff.rfl

@[simp] theorem Stmt.safe_unlock : (Stmt.unlock m).Safe rank held post ↔
    m ∈ held ∧ post.normal (held.erase m) := Iff.rfl

@[simp] theorem Stmt.safe_wait : (Stmt.wait m).Safe rank held post ↔
    m ∈ held ∧ Above rank m (held.erase m) ∧ post.normal (m :: held.erase m) := Iff.rfl

@[simp] theorem Stmt.safe_alt : (Stmt.alt p q).Safe rank held post ↔
    p.Safe rank held post ∧ q.Safe rank held post := Iff.rfl

@[simp] theorem Stmt.safe_any {ι : Type} {f : ι → Stmt M} : (Stmt.any f).Safe rank held post ↔
    ∀ i, (f i).Safe rank held post := Iff.rfl

@[simp] theorem Stmt.safe_loop : (Stmt.loop p).Safe rank held post ↔
    p.Safe rank held ⟨(· = held), post.normal, post.ret⟩ ∧ post.normal held := Iff.rfl

@[simp] theorem Stmt.safe_brk : (Stmt.brk : Stmt M).Safe rank held post ↔ post.brk held := Iff.rfl

@[simp] theorem Stmt.safe_ret : (Stmt.ret : Stmt M).Safe rank held post ↔ post.ret held := Iff.rfl

@[simp] theorem Stmt.safe_call : (Stmt.call p).Safe rank held post ↔
    p.Safe rank held ⟨post.normal, fun _ => False, post.normal⟩ := Iff.rfl

@[simp] theorem Stmt.safe_block_nil :
    (Stmt.block []).Safe rank held post ↔ post.normal held := Iff.rfl

@[simp] theorem Stmt.safe_block_cons {ps : List (Stmt M)} :
    (Stmt.block (p :: ps)).Safe rank held post ↔
      p.Safe rank held { post with normal := fun now => (Stmt.block ps).Safe rank now post } :=
  Iff.rfl

@[simp] theorem Stmt.safe_only {b : Bool} : (Stmt.only b p).Safe rank held post ↔
    if b = true then p.Safe rank held post else post.normal held := by
  cases b <;> rfl

end

theorem Stmt.Safe.mono {p : Stmt M} {held : List M} {post post' : Exits M}
    (h : p.Safe rank held post) (hn : ∀ now, post.normal now → post'.normal now)
    (hb : ∀ now, post.brk now → post'.brk now) (hr : ∀ now, post.ret now → post'.ret now) :
    p.Safe rank held post' := by
  induction p generalizing held post post' with
  | skip => exact hn _ h
  | lock m => exact ⟨h.1, hn _ h.2⟩
  | unlock m => exact ⟨h.1, hn _ h.2⟩
  | wait m => exact ⟨h.1, h.2.1, hn _ h.2.2⟩
  | seq p q ihp ihq => exact ihp h (fun _ hq => ihq hq hn hb hr) hb hr
  | alt p q ihp ihq => exact ⟨ihp h.1 hn hb hr, ihq h.2 hn hb hr⟩
  | any f ih => exact fun i => ih i (h i) hn hb hr
  | loop p ih => exact ⟨ih h.1 (fun _ hk => hk) hn hr, hn _ h.2⟩
  | brk => exact hb _ h
  | ret => exact hr _ h
  | call p ih => exact ih h hn (fun _ hf => hf) hn

theorem Silent.safe {p q : Stmt M} {k l : List (Frame M)} (hs : Silent p k q l) {held : List M}
    (h : p.Safe rank held (.after rank k)) : q.Safe rank held (.after rank l) := by
  cases hs with
  | seq => exact h
  | altLeft => exact h.1
  | altRight => exact h.2
  | any i => exact h i
  | enter =>
    have hl := h
    refine h.1.mono (fun now hnow => ?_) (fun _ hb => hb) (fun _ hr => hr)
    obtain rfl : now = held := hnow
    exact hl
  | leave => exact h.2
  | call => exact h
  | skipSeq => exact h
  | skipLoop => exact h
  | skipCall => exact h
  | brkSeq => exact h
  | brkLoop => exact h
  | retSeq => exact h
  | retLoop => exact h
  | retCall => exact h

theorem Thr.Finished.released {t : Thr M} (hf : t.Finished) (h : t.Sound rank) : t.held = [] := by
  rcases hf with hf | hf <;> rw [Thr.Sound, hf] at h <;> exact h

theorem Thr.Wants.above {t : Thr M} {m : M} (hw : t.Wants m) (h : t.Sound rank) :
    Above rank m t.held := by
  obtain ⟨k, hw | hw⟩ := hw <;> rw [Thr.Sound, hw] at h <;> exact h.1

theorem Thr.Drops.holds {t : Thr M} {m : M} (hd : t.Drops m) (h : t.Sound rank) : m ∈ t.held := by
  obtain ⟨k, hd | hd⟩ := hd <;> rw [Thr.Sound, hd] at h <;> exact h.1

theorem Thr.sound_idle : (Thr.idle : Thr M).Sound rank := rfl

variable {s s' : T → Thr M}

theorem not_reacquire (h : ∀ t, (s t).Sound rank) {t : T} {m : M} (hw : (s t).Wants m) :
    m ∉ (s t).held := by
  intro hm
  exact lt_irrefl _ (hw.above (h t) m hm)

theorem wanted_lt (h : ∀ t, (s t).Sound rank) {t u : T} (hb : Relation.TransGen (Blocked s) t u)
    {m : M} (hw : (s u).Wants m) : ∃ l, (s t).Wants l ∧ rank l < rank m := by
  induction hb generalizing m with
  | single hb =>
    obtain ⟨l, hl, hheld⟩ := hb
    exact ⟨l, hl, hw.above (h _) l hheld⟩
  | tail _ hb ih =>
    obtain ⟨n, hn, hheld⟩ := hb
    obtain ⟨l, hl, hlt⟩ := ih hn
    exact ⟨l, hl, hlt.trans (hw.above (h _) n hheld)⟩

omit [DecidableEq M] in
theorem Thr.Wants.unique {t : Thr M} {l m : M} (hl : t.Wants l) (hm : t.Wants m) : l = m := by
  obtain ⟨k, hk | hk⟩ := hl <;> obtain ⟨j, hj | hj⟩ := hm <;> rw [hk] at hj <;> cases hj <;> rfl

theorem no_cycle (h : ∀ t, (s t).Sound rank) (t : T) :
    ¬ Relation.TransGen (Blocked s) t t := by
  intro hb
  obtain ⟨u, ⟨m, hm, -⟩, -⟩ := Relation.TransGen.head'_iff.mp hb
  obtain ⟨l, hl, hlt⟩ := wanted_lt h hb hm
  rw [hl.unique hm] at hlt
  exact lt_irrefl _ hlt

variable [DecidableEq T] {progs : T → Stmt M → Prop}

theorem Step.sound (hp : ∀ t p, progs t p → p.Safe rank [] .done)
    (hs : Step progs s s') (h : ∀ t, (s t).Sound rank) : ∀ t, (s' t).Sound rank := by
  have hset : ∀ t x, Thr.Sound rank x → ∀ u, (Function.update s t x u).Sound rank := by
    intro t x hx u
    rw [Function.update_apply]
    split
    · exact hx
    · exact h u
  cases hs with
  | @start t p hf hpr =>
    refine hset t _ ?_
    rw [hf.released (h t)]
    exact hp t p hpr
  | @silent t p k q l hc hs =>
    have ht := h t
    rw [Thr.Sound, hc] at ht
    exact hset t _ (hs.safe ht)
  | @lock t m k hc hfree =>
    have ht := h t
    rw [Thr.Sound, hc] at ht
    exact hset t _ ht.2
  | @unlock t m k hc =>
    have ht := h t
    rw [Thr.Sound, hc] at ht
    exact hset t _ ht.2
  | @sleep t m k hc =>
    have ht := h t
    rw [Thr.Sound, hc] at ht
    exact hset t _ ht.2
  | @wake t m k hc =>
    have ht := h t
    rw [Thr.Sound, hc] at ht
    exact hset t _ ht

theorem Reachable.sound (hp : ∀ t p, progs t p → p.Safe rank [] .done)
    (hr : Reachable progs s) : ∀ t, (s t).Sound rank := by
  induction hr with
  | refl => exact fun _ => Thr.sound_idle
  | tail _ hs ih => exact hs.sound hp ih

end

end LockOrder
