import Mathlib.Data.List.Nodup
import Fsock.Utils.AnetServer

namespace Fsock.Anet

open Syscalls

-- which .inc file efd.c includes
inductive EfdKind where
  | eventfd
  | pipe
  | socketpair
  deriving DecidableEq

def EfdKind.width : EfdKind → Nat
  | .eventfd => 1
  | .pipe => 2
  | .socketpair => 2

-- none: errno_assert fails
def efdRefused (errno : Errno) : Option (List Int) :=
  if errno = EMFILE ∨ errno = ENFILE then some [] else none

def efdNonBlock (fd : Int) (efd : List Int) : Code (Option (List Int)) := do
  let flags ← getfl fd
  match ← setfl fd (flags.toOption.getD 0 ||| O_NONBLOCK) with
  | .error _ => return none
  | .ok _ => return some efd

def nnEfdInit : EfdKind → Code (Option (List Int))
  | .eventfd => do
    match ← sys .eventfd with
    | .error errno => return efdRefused errno
    | .ok efd => efdNonBlock efd [efd]
  | .pipe => do
    match ← sys .pipe with
    | .error errno => return efdRefused errno
    | .ok (r, w) =>
      match ← sys (.setfd r) with
      | .error _ => return none
      | .ok _ =>
        match ← sys (.setfd w) with
        | .error _ => return none
        | .ok _ => efdNonBlock r [r, w]
  | .socketpair => do
    match ← sys .socketpair with
    | .error errno => return efdRefused errno
    | .ok (r, w) => efdNonBlock r [r, w]

structure Gains (F : Files) (new : List Int) (G : Files) : Prop where
  kept : ∀ d f, F d = some f → G d = some f
  files : ∀ d, (G d).isSome = true ↔ (F d).isSome = true ∨ d ∈ new
  apart : ∀ d ∈ new, 0 ≤ d ∧ F d = none
  nodup : new.Nodup

variable {k : Kernel} {F G H : Files} {I : Infos} {fd d r w : Int} {f g : File} {tr us : Trace}
  {new more efd : List Int} {v : EfdKind}

theorem isSome_plus : ((F.plus fd f) d).isSome = true ↔ (F d).isSome = true ∨ d = fd := by
  rcases eq_or_ne d fd with rfl | hne
  · simp
  · simp [Files.plus, hne]

theorem plus_kept (hn : F fd = none) (hd : F d = some f) : F.plus fd g d = some f := by
  have hne : d ≠ fd := by
    rintro rfl
    rw [hn] at hd
    cases hd
  rw [Files.plus, Function.update_of_ne hne, hd]

namespace Gains

theorem refl (F : Files) : Gains F [] F where
  kept _ _ hd := hd
  files d := by simp
  apart d hd := absurd hd List.not_mem_nil
  nodup := .nil

theorem append (h : Gains F new G) (hg : Gains G more H) : Gains F (new ++ more) H where
  kept d f hd := hg.kept d f (h.kept d f hd)
  files d := by rw [hg.files, h.files, List.mem_append, or_assoc]
  apart d hd := by
    rcases List.mem_append.mp hd with hd | hd
    · exact h.apart d hd
    · obtain ⟨h0, hn⟩ := hg.apart d hd
      have hopen : ¬ (G d).isSome = true := by simp [hn]
      rw [h.files] at hopen
      push Not at hopen
      exact ⟨h0, by simpa using hopen.1⟩
  nodup := by
    refine h.nodup.append hg.nodup fun d hd hd' => ?_
    have hopen := (h.files d).mpr (.inr hd)
    simp [(hg.apart d hd').2] at hopen

theorem one (h0 : 0 ≤ fd) (hn : F fd = none) : Gains F [fd] (F.plus fd f) where
  kept d g hd := plus_kept hn hd
  files d := by rw [isSome_plus, List.mem_singleton]
  apart d hd := by
    obtain rfl := List.mem_singleton.mp hd
    exact ⟨h0, hn⟩
  nodup := List.nodup_singleton fd

theorem perm (h : Gains F new G) (hp : new.Perm more) : Gains F more G where
  kept := h.kept
  files d := by rw [h.files, hp.mem_iff]
  apart d hd := h.apart d (hp.mem_iff.mpr hd)
  nodup := hp.nodup_iff.mp h.nodup

theorem edit (h : Gains F new G) (hd : d ∈ new) : Gains F new (G.plus d f) where
  kept e g he := by
    have hne : e ≠ d := by
      rintro rfl
      rw [(h.apart e hd).2] at he
      cases he
    rw [Files.plus, Function.update_of_ne hne, h.kept e g he]
  files e := by
    rw [isSome_plus, h.files]
    refine or_iff_left_of_imp ?_
    rintro rfl
    exact .inr hd
  apart := h.apart
  nodup := h.nodup

end Gains

inductive Made (v : EfdKind) (F : Files) (I : Infos) : Option (List Int) → Trace → Kernel → Prop
  | aborted {tr : Trace} {k : Kernel} : Made v F I none tr k
  | full {tr : Trace} {k : Kernel} : k.Has F I → exhausted tr = true → reuseDenied tr = false →
      Made v F I (some []) tr k
  | made {efd : List Int} {G : Files} {tr : Trace} {k : Kernel} : k.Has G I → Gains F efd G →
      efd.length = v.width → exhausted tr = false → reuseDenied tr = false →
      Made v F I (some efd) tr k

theorem Made.after {x : Option (List Int)} (h : Made v F I x us k) (tr : Trace)
    (ht : exhausted tr = false ∧ reuseDenied tr = false) : Made v F I x (tr ++ us) k := by
  cases h with
  | aborted => exact .aborted
  | full hk hx hr => exact .full hk (by simp [hx]) (by simp [ht.2, hr])
  | made hk hg hw hx hr => exact .made hk hg hw (by simp [ht.1, hx]) (by simp [ht.2, hr])

theorem Made.opened (h : Made v F I (some efd) tr k) : ∃ G, k.Has G I ∧ Gains F efd G ∧
    efd.length = (if exhausted tr = false then v.width else 0) ∧ reuseDenied tr = false := by
  cases h with
  | full hk hx hr => exact ⟨F, hk, .refl F, by simp [hx], hr⟩
  | made hk hg hw hx hr => exact ⟨_, hk, hg, by simp [hx, hw], hr⟩

theorem made_refused (h : k.Has F I) (errno : Errno) (he : exhausted tr = true)
    (hr : reuseDenied tr = false) : Made v F I (efdRefused errno) tr k := by
  rw [efdRefused]
  split
  · exact .full h he hr
  · exact .aborted

theorem efdNonBlock_spec (h : k.Has G I) (hg : Gains F efd G) (hd : fd ∈ efd)
    (hw : efd.length = v.width) : (efdNonBlock fd efd).wp world (Made v F I) k := by
  obtain ⟨f, hf⟩ := Option.isSome_iff_exists.mp ((hg.files fd).mpr (.inr hd))
  have hplus : G = G.plus fd f := by rw [Files.plus, ← hf, Function.update_eq_self]
  rw [hplus] at h
  refine ⟨h.open_self, ?_⟩
  intro flags _
  have hk : (k.after (.getfl fd) flags).Has (G.plus fd f) I := by
    cases flags with
    | error e => exact h.fails e
    | ok flags => exact h.quiet
  refine ⟨hk.open_self, ?_⟩
  rintro (e | _) _
  · exact .aborted
  · exact .made (hk.edit _) (hg.edit hd) hw rfl rfl

theorem Gains.two (hr : 0 ≤ r ∧ F r = none) (hw : 0 ≤ w ∧ F w = none) (hne : r ≠ w) :
    Gains F [r, w] ((F.plus r f).plus w g) := by
  refine (Gains.one hr.1 hr.2).append (.one hw.1 ?_)
  rw [Files.plus, Function.update_of_ne hne.symm, hw.2]

theorem fresh_pair (h : k.Has F I) (hp : (k.fresh r && k.fresh w && decide (r ≠ w)) = true) :
    Gains F [r, w] ((F.plus r f).plus w g) := by
  simp only [Bool.and_eq_true, decide_eq_true_eq] at hp
  obtain ⟨⟨hr, hw⟩, hne⟩ := hp
  exact .two (h.fresh.mp hr) (h.fresh.mp hw) hne

theorem setfd_spec (fd : Int) (h : k.Has G I) (hg : Gains F efd G) (hd : fd ∈ efd) :
    (sys (.setfd fd)).wp world (fun _ tr k' => k'.Has G I ∧ exhausted tr = false ∧
      reuseDenied tr = false) k := by
  have hopen : (k.files fd).isSome = true := by rw [h.files, hg.files]; exact .inr hd
  refine ⟨hopen, ?_⟩
  rintro (e | _) _
  · exact ⟨h.fails e, rfl, rfl⟩
  · exact ⟨h.quiet, rfl, rfl⟩

theorem nnEfdInit_spec (h : k.Has F I) : (nnEfdInit v).wp world (Made v F I) k := by
  cases v with
  | eventfd =>
    refine ⟨rfl, ?_⟩
    rintro (e | efd) hp
    · exact made_refused (h.fails e) e rfl rfl
    · obtain ⟨h0, hn⟩ := h.fresh.mp hp
      have hg : Gains F [efd] (F.plus efd .fresh) := .one h0 hn
      exact (efdNonBlock_spec (v := .eventfd) (h.opens efd .fresh) hg (by simp) rfl).mono
        fun _ _ _ hm => hm.after [_] ⟨rfl, rfl⟩
  | pipe =>
    refine ⟨rfl, ?_⟩
    rintro (e | ⟨r, w⟩) hp
    · exact made_refused (h.fails e) e rfl rfl
    · have hk := (h.opens r (.mode .fresh O_RDONLY)).opens w (.mode .fresh O_WRONLY)
      have hg := fresh_pair (f := .mode .fresh O_RDONLY) (g := .mode .fresh O_WRONLY) h hp
      apply (setfd_spec r hk hg (by simp)).seq
      rintro (e | _) tr k₁ ⟨hk, ht⟩
      · exact .aborted
      · apply (setfd_spec w hk hg (by simp)).seq
        rintro (e | _) us k₂ ⟨hk, hu⟩
        · exact .aborted
        · refine (efdNonBlock_spec (v := .pipe) hk hg (by simp) rfl).mono fun _ vs _ hm => ?_
          exact (hm.after us hu).after (_ :: tr) ht
  | socketpair =>
    refine ⟨rfl, ?_⟩
    rintro (e | ⟨r, w⟩) hp
    · exact made_refused (h.fails e) e rfl rfl
    · exact (efdNonBlock_spec (v := .socketpair) ((h.opens r .fresh).opens w .fresh)
        (fresh_pair h hp) (by simp) rfl).mono fun _ _ _ hm => hm.after [_] ⟨rfl, rfl⟩

end Fsock.Anet
