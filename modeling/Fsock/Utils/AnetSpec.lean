import Fsock.Utils.Anet

namespace Fsock.Anet

open Syscalls

abbrev Files : Type := Int → Option File

abbrev Infos : Type := Nat → Bool

structure Kernel.Has (k : Kernel) (F : Files) (I : Infos) : Prop where
  files : k.files = F
  infos : k.infos = I

def Files.plus (F : Files) (fd : Int) (f : File) : Files := Function.update F fd (some f)

def reports (e : Event Call.Reply) : Bool :=
  match e.1 with
  | .setError _ => true
  | _ => false

def deniesReuse : Event Call.Reply → Bool
  | ⟨.setsockopt _ .reuseAddr, .error _⟩ => true
  | _ => false

def reported (tr : Trace) : Bool := tr.any reports

def reuseDenied (tr : Trace) : Bool := tr.any deniesReuse

def makesEfd : Call → Bool
  | .eventfd | .pipe | .socketpair => true
  | _ => false

def looksUp : Call → Bool
  | .getaddrinfo _ service _ => service.isSome
  | _ => false

def Local (c : Call) : Prop := looksUp c = false ∧ makesEfd c = false

def Plain (c : Call) : Prop := makesEfd c = false

theorem plain_of_local (c : Call) (h : Local c) : Plain c := h.2

def refusesEfd : Event Call.Reply → Bool
  | ⟨.eventfd, .error _⟩ => true
  | ⟨.pipe, .error _⟩ => true
  | ⟨.socketpair, .error _⟩ => true
  | _ => false

def exhausted (tr : Trace) : Bool := tr.any refusesEfd

variable {L : Libc} {k : Kernel} {F : Files} {I : Infos} {fd : Int} {f : File} {tr us : Trace}
  {e : Event Call.Reply}

@[simp] theorem reported_cons : reported (e :: tr) = (reports e || reported tr) := List.any_cons

@[simp] theorem reuseDenied_cons : reuseDenied (e :: tr) = (deniesReuse e || reuseDenied tr) :=
  List.any_cons

@[simp] theorem reported_append : reported (tr ++ us) = (reported tr || reported us) :=
  List.any_append

@[simp] theorem reuseDenied_append :
    reuseDenied (tr ++ us) = (reuseDenied tr || reuseDenied us) := List.any_append

@[simp] theorem reuseDenied_nil : reuseDenied [] = false := rfl

@[simp] theorem exhausted_cons : exhausted (e :: tr) = (refusesEfd e || exhausted tr) :=
  List.any_cons

@[simp] theorem exhausted_append :
    exhausted (tr ++ us) = (exhausted tr || exhausted us) := List.any_append

theorem exhausted_plain (h : ∀ e ∈ tr, Plain e.1) : exhausted tr = false := by
  rw [exhausted, List.any_eq_false]
  rintro ⟨c, r⟩ he
  have hc : makesEfd c = false := h _ he
  cases c <;> simp_all [makesEfd, refusesEfd]

@[simp] theorem plus_self : F.plus fd f fd = some f := by simp [Files.plus]

@[simp] theorem plus_plus {g : File} : (F.plus fd f).plus fd g = F.plus fd g := by
  simp [Files.plus]

@[simp] theorem plus_minus (h : F fd = none) : Function.update (F.plus fd f) fd none = F := by
  simp [Files.plus, ← h]

namespace Kernel.Has

theorem open_self (h : k.Has (F.plus fd f) I) : (k.files fd).isSome = true := by simp [h.files]

theorem edit (h : k.Has (F.plus fd f) I) (g : File → File) :
    (k.edit fd g).Has (F.plus fd (g f)) I where
  files := by simp [Kernel.edit, h.files, Files.plus]
  infos := h.infos

theorem fails (h : k.Has F I) (e : Errno) : (k.fails e).Has F I := ⟨h.files, h.infos⟩

theorem fresh (h : k.Has F I) : k.fresh fd = true ↔ 0 ≤ fd ∧ F fd = none := by
  simp [Kernel.fresh, h.files]

theorem opens (h : k.Has F I) (fd : Int) (f : File) : (k.opens fd f).Has (F.plus fd f) I :=
  ⟨by rw [Kernel.opens, h.files, Files.plus], h.infos⟩

theorem connect_error (h : k.Has (F.plus fd f) I) (addr : Sockaddr) (e : Errno) :
    (k.after (.connect fd addr) (.error e)).Has
      (F.plus fd (if e = EINPROGRESS then { f with stage := .connecting addr } else f)) I := by
  by_cases he : e = EINPROGRESS
  · simp only [Kernel.after, if_pos he]
    exact (h.edit _).fails e
  · simp only [Kernel.after, if_neg he]
    exact h.fails e

theorem quiet (h : k.Has F I) : Kernel.Has { k with errno := none } F I := ⟨h.files, h.infos⟩

theorem close (h : k.Has (F.plus fd f) I) (hn : F fd = none) (r : Except Errno Unit) :
    (k.after (.close fd) r).Has F I where
  files := by simp [Kernel.after, h.files, hn]
  infos := h.infos

end Kernel.Has

theorem anetSetError_spec (h : k.Has F I) (msg : String) :
    (anetSetError msg).wp world (fun _ tr k' => reported tr = true ∧ reuseDenied tr = false ∧
      k'.Has F I) k :=
  ⟨rfl, fun _ _ => ⟨rfl, rfl, h.files, h.infos⟩⟩

theorem anetSetErrno_spec (h : k.Has F I) (what : String) :
    (anetSetErrno L what).wp world (fun _ tr k' => reported tr = true ∧ reuseDenied tr = false ∧
      k'.Has F I) k :=
  ⟨rfl, fun _ _ => anetSetError_spec h _⟩

inductive Ends (I : Infos) (G E : Files) (denied : Bool) : Int → Trace → Kernel → Prop
  | ok {tr : Trace} {k : Kernel} : k.Has G I → reuseDenied tr = false →
      Ends I G E denied ANET_OK tr k
  | err {tr : Trace} {k : Kernel} : k.Has E I → reported tr = true → reuseDenied tr = denied →
      Ends I G E denied ANET_ERR tr k

variable {G E : Files} {denied : Bool} {r : Int}

theorem Ends.cons (h : Ends I G E denied r tr k) (he : deniesReuse e = false) :
    Ends I G E denied r (e :: tr) k := by
  cases h with
  | ok hk hd => exact .ok hk (by simp [he, hd])
  | err hk hr hd => exact .err hk (by simp [hr]) (by simp [he, hd])

theorem fail_spec (h : k.Has F I) (what : String) :
    (do anetSetErrno L what; return ANET_ERR : Code Int).wp world (Ends I G F false) k := by
  apply (anetSetErrno_spec h what).seq
  rintro _ tr k' ⟨hr, hd, hk⟩
  exact .err hk (by simp [hr]) (by simp [hd])

theorem fail_close_spec (h : k.Has (F.plus fd f) I) (hn : F fd = none) (what : String) :
    (do anetSetErrno L what; let _ ← close fd; return ANET_ERR : Code Int).wp world
      (Ends I G F false) k := by
  apply (anetSetErrno_spec h what).seq
  rintro _ tr k' ⟨hr, hd, hk⟩
  refine ⟨hk.open_self, fun r _ => .err (hk.close hn r) (by simp [hr]) ?_⟩
  rw [reuseDenied_append, hd]
  rfl

def block (nonBlock : Bool) (flags : BitVec 32) : BitVec 32 :=
  if nonBlock then flags ||| O_NONBLOCK else flags &&& ~~~O_NONBLOCK

theorem anetSetBlock_spec (h : k.Has (F.plus fd f) I) (nonBlock : Bool) :
    (anetSetBlock L fd nonBlock).wp world
      (Ends I (F.plus fd { f with flags := block nonBlock f.flags }) (F.plus fd f) false) k := by
  refine ⟨h.open_self, ?_⟩
  rintro (e | flags) hp
  · exact (fail_spec (h.fails e) _).mono fun _ _ _ he => he.cons rfl
  · have hf : f.flags = flags := by simpa [world, Kernel.possible, h.files] using hp
    subst hf
    have hk : (k.after (.getfl fd) (.ok f.flags)).Has (F.plus fd f) I := ⟨h.files, h.infos⟩
    refine ⟨hk.open_self, ?_⟩
    rintro (e | _) _
    · exact (fail_spec (hk.fails e) _).mono fun _ _ _ he => (he.cons rfl).cons rfl
    · exact .ok (hk.edit _) rfl

theorem anetSetReuseAddr_spec (h : k.Has (F.plus fd f) I) :
    (anetSetReuseAddr L fd).wp world
      (Ends I (F.plus fd { f with reuse := true }) (F.plus fd f) true) k := by
  refine ⟨h.open_self, ?_⟩
  rintro (e | _) _
  · apply (anetSetErrno_spec (h.fails e) _).seq
    rintro _ tr k' ⟨hr, hd, hk⟩
    exact .err hk (by simp [hr]) rfl
  · exact .ok (h.edit _) rfl

theorem anetV6Only_spec (h : k.Has (F.plus fd f) I) (hn : F fd = none) :
    (anetV6Only L fd).wp world (Ends I (F.plus fd { f with v6Only := true }) F false) k := by
  refine ⟨h.open_self, ?_⟩
  rintro (e | _) _
  · exact (fail_close_spec (h.fails e) hn _).mono fun _ _ _ he => he.cons rfl
  · exact .ok (h.edit _) rfl

theorem anetListen_spec (h : k.Has (F.plus fd f) I) (hn : F fd = none) (sa : Sockaddr)
    (backlog : Int) :
    (anetListen L fd sa backlog).wp world
      (Ends I (F.plus fd { f with bound := some sa, stage := .listening backlog }) F false) k := by
  refine ⟨h.open_self, ?_⟩
  rintro (e | _) _
  · exact (fail_close_spec (h.fails e) hn _).mono fun _ _ _ he => he.cons rfl
  · have hk := h.edit fun f => { f with bound := some sa }
    refine ⟨hk.open_self, ?_⟩
    rintro (e | _) _
    · exact (fail_close_spec (hk.fails e) hn _).mono fun _ _ _ he => (he.cons rfl).cons rfl
    · exact .ok (hk.edit _) rfl

theorem freeaddrinfo_spec {info : Info} (h : k.Has F (Function.update I info.head true))
    (hn : I info.head = false) :
    (freeaddrinfo info).wp world (fun _ tr k' => k'.Has F I ∧ reuseDenied tr = false) k := by
  refine ⟨by simp [world, Kernel.allowed, h.infos], fun _ _ => ⟨⟨h.files, ?_⟩, rfl⟩⟩
  simp [world, Kernel.after, h.infos, ← hn]

theorem anetSetError_asks (msg : String) : (anetSetError msg).Asks Local :=
  Script.asks_ask.mpr ⟨rfl, rfl⟩

theorem anetSetErrno_asks (what : String) : (anetSetErrno L what).Asks Local :=
  ⟨⟨rfl, rfl⟩, fun _ => anetSetError_asks _⟩

theorem anetSetBlock_asks (nonBlock : Bool) : (anetSetBlock L fd nonBlock).Asks Local := by
  refine ⟨⟨rfl, rfl⟩, ?_⟩
  rintro (e | f)
  · exact (anetSetErrno_asks _).seq fun _ => trivial
  · refine ⟨⟨rfl, rfl⟩, ?_⟩
    rintro (e | _)
    · exact (anetSetErrno_asks _).seq fun _ => trivial
    · trivial

theorem anetSetReuseAddr_asks : (anetSetReuseAddr L fd).Asks Local := by
  refine ⟨⟨rfl, rfl⟩, ?_⟩
  rintro (e | _)
  · exact (anetSetErrno_asks _).seq fun _ => trivial
  · trivial

theorem anetListen_asks (sa : Sockaddr) (backlog : Int) : (anetListen L fd sa backlog).Asks Local := by
  refine ⟨⟨rfl, rfl⟩, ?_⟩
  rintro (e | _)
  · exact (anetSetErrno_asks _).seq fun _ => ⟨⟨rfl, rfl⟩, fun _ => trivial⟩
  · refine ⟨⟨rfl, rfl⟩, ?_⟩
    rintro (e | _)
    · exact (anetSetErrno_asks _).seq fun _ => ⟨⟨rfl, rfl⟩, fun _ => trivial⟩
    · trivial

end Fsock.Anet
