import Fsock.Utils.AnetConnect

namespace Fsock.Anet

open Syscalls

variable {L : Libc} {k : Kernel} {F : Files} {I : Infos} {fd : Int} {f : File} {tr us : Trace}
  {dest dest' : List Sockaddr} {x : Int × Jump}

def served (af backlog : Int) (addr : Sockaddr) : File where
  flags := O_RDWR
  reuse := true
  v6Only := decide (af = AF_INET6)
  bound := some addr
  stage := .listening backlog

inductive Served (F : Files) (I : Infos) (af backlog : Int) (dest : List Sockaddr) :
    Int × Jump → Trace → Kernel → Prop
  | next {tr : Trace} {k : Kernel} : k.Has F I → reuseDenied tr = false →
      Served F I af backlog dest (ANET_ERR, .next) tr k
  | closed {s : Int} {tr : Trace} {k : Kernel} : k.Has F I → reuseDenied tr = false →
      reported tr = true → Served F I af backlog dest (s, .error) tr k
  | lost {s : Int} {f : File} {tr : Trace} {k : Kernel} : 0 ≤ s → F s = none →
      k.Has (F.plus s f) I → reuseDenied tr = true → reported tr = true →
      Served F I af backlog dest (s, .error) tr k
  | finish {s : Int} {a : Sockaddr} {tr : Trace} {k : Kernel} : 0 ≤ s → F s = none → a ∈ dest →
      k.Has (F.plus s (served af backlog a)) I → reuseDenied tr = false →
      Served F I af backlog dest (s, .finish) tr k

variable {af backlog : Int}

theorem Served.mono (h : Served F I af backlog dest x us k) (hs : ∀ a ∈ dest, a ∈ dest')
    (ht : reuseDenied tr = false) : Served F I af backlog dest' x (tr ++ us) k := by
  cases h with
  | next hk hd => exact .next hk (by simp [ht, hd])
  | closed hk hd hr => exact .closed hk (by simp [ht, hd]) (by simp [hr])
  | lost h0 hn hk hd hr => exact .lost h0 hn hk (by simp [hd]) (by simp [hr])
  | finish h0 hn ha hk hd => exact .finish h0 hn (hs _ ha) hk (by simp [ht, hd])

theorem setFamily_spec (h : k.Has (F.plus fd f) I) (hn : F fd = none) :
    (setFamily L af fd).wp world
      (Ends I (F.plus fd { f with v6Only := decide (af = AF_INET6) || f.v6Only }) F false) k := by
  rw [setFamily]
  by_cases hf : af = AF_INET6
  · rw [if_pos hf]
    simpa [hf] using anetV6Only_spec h hn
  · rw [if_neg hf]
    exact .ok (by simpa [hf] using h) rfl

theorem serveOne_spec (h : k.Has F I) (p : Addrinfo) :
    (serveOne L af backlog p).wp world (Served F I af backlog [p.addr]) k := by
  refine ⟨rfl, ?_⟩
  rintro (e | s) hp
  · exact .next (h.fails e) rfl
  · obtain ⟨h0, hn⟩ : 0 ≤ s ∧ F s = none := h.fresh.mp hp
    have hk : (k.after (.socket p.family p.socktype p.protocol) (.ok s)).Has (F.plus s .fresh) I :=
      h.opens s .fresh
    apply (setFamily_spec hk hn).seq
    rintro _ tr k' (⟨hk, hd⟩ | ⟨hk, hr, hd⟩)
    · apply (anetSetReuseAddr_spec hk).seq
      rintro _ us k' (⟨hk, hd'⟩ | ⟨hk, hr, hd'⟩)
      · apply (anetListen_spec hk hn p.addr backlog).seq
        rintro _ vs k' (⟨hk, hd''⟩ | ⟨hk, hr, hd''⟩)
        · refine .finish h0 hn (List.mem_singleton.mpr rfl) (by simpa [served, File.fresh] using hk) ?_
          simp [hd, hd', hd'', deniesReuse]
        · exact .closed hk (by simp [hd, hd', hd'', deniesReuse]) (by simp [hr])
      · exact .lost h0 hn hk (by simp [hd']) (by simp [hr])
    · exact .closed hk (by simp [hd, deniesReuse]) (by simp [hr])

theorem serveEach_spec (ps : List Addrinfo) (h : k.Has F I) :
    (serveEach L af backlog ps).wp world
      (Served F I af backlog (ps.map Addrinfo.addr)) k := by
  induction ps generalizing k with
  | nil => exact .next h rfl
  | cons p ps ih =>
    apply (serveOne_spec h p).seq
    rintro ⟨s, jump⟩ tr k' ht
    cases ht with
    | next hk hd =>
      exact (ih hk).mono fun x us _ ht => ht.mono (fun a ha => List.mem_cons_of_mem _ ha) hd
    | closed hk hd hr => exact .closed hk (by simpa using hd) (by simpa using hr)
    | lost h0 hn hk hd hr => exact .lost h0 hn hk (by simpa using hd) (by simpa using hr)
    | finish h0 hn ha hk hd => exact .finish h0 hn (by simp_all) hk (by simpa using hd)

def ResolvedPassive (bindaddr : Option String) (port af : Int) (tr : Trace) (a : Sockaddr) : Prop :=
  ∃ info : Info, a ∈ info.nodes.map Addrinfo.addr ∧
    ⟨.getaddrinfo bindaddr (some (portstr port)) (serverHints af), .ok info⟩ ∈ tr

inductive Listens (F : Files) (I : Infos) (af backlog : Int) (bindaddr : Option String) (port : Int) :
    Int → Trace → Kernel → Prop
  | err {tr : Trace} {k : Kernel} : k.Has F I → reported tr = true → reuseDenied tr = false →
      Listens F I af backlog bindaddr port ANET_ERR tr k
  | lost {s : Int} {f : File} {tr : Trace} {k : Kernel} : 0 ≤ s → F s = none →
      k.Has (F.plus s f) I → reported tr = true → reuseDenied tr = true →
      Listens F I af backlog bindaddr port ANET_ERR tr k
  | ok {s : Int} {a : Sockaddr} {tr : Trace} {k : Kernel} : 0 ≤ s → F s = none →
      k.Has (F.plus s (served af backlog a)) I → ResolvedPassive bindaddr port af tr a →
      reuseDenied tr = false → Listens F I af backlog bindaddr port s tr k

theorem noteUnbound_spec (h : k.Has F I) (jump : Jump) :
    (noteUnbound jump).wp world (fun _ tr k' => k'.Has F I ∧ reuseDenied tr = false ∧
      (jump = .next → reported tr = true)) k := by
  rw [noteUnbound]
  by_cases hj : jump = .next
  · rw [if_pos hj]
    exact (anetSetError_spec h _).mono fun _ _ _ hs => ⟨hs.2.2, hs.2.1, fun _ => hs.1⟩
  · rw [if_neg hj]
    exact ⟨h, rfl, fun hj' => absurd hj' hj⟩

theorem anetTcpServer_spec (h : k.Has F I) (bindaddr : Option String) (port : Int) :
    (_anetTcpServer L port bindaddr af backlog).wp world
      (Listens F I af backlog bindaddr port) k := by
  refine ⟨rfl, ?_⟩
  rintro (rv | servinfo) hp
  · apply (anetSetError_spec h.quiet _).seq
    rintro _ tr k' ⟨hr, hd, hk⟩
    exact .err hk (by simp [hr]) (by simp [hd, deniesReuse])
  · have hn : I servinfo.head = false := by simpa [world, Kernel.possible, h.infos] using hp
    have hk : (k.after (.getaddrinfo bindaddr (some (portstr port)) (serverHints af))
        (.ok servinfo)).Has F (Function.update I servinfo.head true) :=
      ⟨h.files, by simp [Kernel.after, h.infos]⟩
    apply (serveEach_spec servinfo.nodes hk).seq
    rintro ⟨s, jump⟩ tr k' ht
    cases ht with
    | next hk hd =>
      apply (noteUnbound_spec hk .next).seq
      rintro _ us k' ⟨hk, hd', hr⟩
      apply (freeaddrinfo_spec hk hn).seq
      rintro _ vs k' ⟨hk, hd''⟩
      exact .err hk (by simp [hr rfl]) (by simp [hd, hd', hd'', deniesReuse])
    | closed hk hd hr =>
      apply (noteUnbound_spec hk .error).seq
      rintro _ us k' ⟨hk, hd', -⟩
      apply (freeaddrinfo_spec hk hn).seq
      rintro _ vs k' ⟨hk, hd''⟩
      exact .err hk (by simp [hr]) (by simp [hd, hd', hd'', deniesReuse])
    | lost h0 hs hk hd hr =>
      apply (noteUnbound_spec hk .error).seq
      rintro _ us k' ⟨hk, -⟩
      apply (freeaddrinfo_spec hk hn).seq
      rintro _ vs k' ⟨hk, -⟩
      exact .lost h0 hs hk (by simp [hr]) (by simp [hd])
    | finish h0 hs ha hk hd =>
      apply (noteUnbound_spec hk .finish).seq
      rintro _ us k' ⟨hk, hd', -⟩
      apply (freeaddrinfo_spec hk hn).seq
      rintro _ vs k' ⟨hk, hd''⟩
      exact .ok h0 hs hk ⟨servinfo, ha, by simp⟩ (by simp [hd, hd', hd'', deniesReuse])

inductive Accepts (F : Files) (I : Infos) (f : File) : Option Int → Kernel → Prop
  | looping {k : Kernel} : k.Has F I → Accepts F I f none k
  | err {k : Kernel} : k.Has F I → Accepts F I f (some ANET_ERR) k
  | ok {fd : Int} {a : Sockaddr} {k : Kernel} : 0 ≤ fd → F fd = none →
      k.Has (F.plus fd (f.accepted a)) I → Accepts F I f (some fd) k

theorem anetTcpAccept_spec (h : k.Has F I) {s : Int} (hs : F s = some f) (n : Nat) :
    (anetTcpAccept L s n).wp world (fun r _ k' => Accepts F I f r k') k := by
  rw [anetTcpAccept]
  induction n generalizing k with
  | zero => exact .looping h
  | succ n ih =>
    refine ⟨by simp [world, Kernel.allowed, h.files, hs], ?_⟩
    rintro (e | ⟨fd, a⟩) hp
    · show (if e = EINTR then _ else _ : Code (Option Int)).wp _ _ _
      by_cases he : e = EINTR
      · rw [if_pos he]
        exact ih (h.fails e)
      · rw [if_neg he]
        apply (anetSetErrno_spec (h.fails e) _).seq
        rintro _ tr k' ⟨-, -, hk⟩
        exact .err hk
    · obtain ⟨h0, hn⟩ : 0 ≤ fd ∧ F fd = none := h.fresh.mp hp
      exact .ok (a := a) h0 hn ⟨by simp [world, Kernel.after, h.files, hs, Files.plus], h.infos⟩

theorem setFamily_asks : (setFamily L af fd).Asks Local := by
  rw [setFamily]
  split
  · refine ⟨⟨rfl, rfl⟩, ?_⟩
    rintro (e | _)
    · exact (anetSetErrno_asks _).seq fun _ => ⟨⟨rfl, rfl⟩, fun _ => trivial⟩
    · trivial
  · trivial

theorem serveOne_asks (p : Addrinfo) : (serveOne L af backlog p).Asks Local := by
  refine ⟨⟨rfl, rfl⟩, ?_⟩
  rintro (e | s)
  · trivial
  · refine setFamily_asks.seq fun _ => ?_
    split
    · trivial
    · refine anetSetReuseAddr_asks.seq fun _ => ?_
      split
      · trivial
      · refine (anetListen_asks _ _).seq fun _ => ?_
        split
        · trivial
        · trivial

theorem serveEach_asks (ps : List Addrinfo) : (serveEach L af backlog ps).Asks Local := by
  induction ps with
  | nil => trivial
  | cons p ps ih =>
    apply (serveOne_asks p).seq
    rintro ⟨s, jump⟩
    show (if jump = .next then _ else _ : Code (Int × Jump)).Asks _
    split
    · exact ih
    · trivial

theorem noteUnbound_asks (jump : Jump) : (noteUnbound jump).Asks Local := by
  rw [noteUnbound]
  split
  · exact anetSetError_asks _
  · trivial

theorem anetTcpServer_asks (bindaddr : Option String) (port : Int) :
    (_anetTcpServer L port bindaddr af backlog).Asks Plain := by
  refine ⟨rfl, ?_⟩
  rintro (rv | servinfo)
  · exact ((anetSetError_asks _).mono plain_of_local).seq fun _ => trivial
  · refine Script.Asks.mono ?_ plain_of_local
    apply (serveEach_asks _).seq
    rintro ⟨s, jump⟩
    exact (noteUnbound_asks _).seq fun _ => ⟨⟨rfl, rfl⟩, fun _ => trivial⟩

theorem anetTcpAccept_asks (s : Int) (n : Nat) : (anetTcpAccept L s n).Asks Plain := by
  rw [anetTcpAccept]
  induction n with
  | zero => trivial
  | succ n ih =>
    refine ⟨rfl, ?_⟩
    rintro (e | ⟨fd, a⟩)
    · show (if e = EINTR then _ else _ : Code (Option Int)).Asks _
      split
      · exact ih
      · exact ((anetSetErrno_asks _).mono plain_of_local).seq fun _ => trivial
    · trivial

theorem Listens.leaks_iff {s : Int} {bindaddr : Option String} {port : Int}
    (h : Listens F I af backlog bindaddr port s tr k) :
    (∃ fd, fd ≠ s ∧ F fd = none ∧ (k.files fd).isSome = true) ↔ reuseDenied tr = true := by
  cases h with
  | err hk _ hd =>
    refine iff_of_false ?_ (by simp [hd])
    rintro ⟨fd, -, hn, hs⟩
    simp [hk.files, hn] at hs
  | @lost s f _ _ h0 hn hk _ hd =>
    refine iff_of_true ⟨s, ?_, hn, hk.open_self⟩ hd
    rintro rfl
    exact absurd h0 (by decide)
  | ok h0 hn hk _ hd =>
    refine iff_of_false ?_ (by simp [hd])
    rintro ⟨fd, hne, hn', hs⟩
    simp [hk.files, Files.plus, hne, hn'] at hs

theorem server_leaks_iff {s : Int} {k' : Kernel} {bindaddr : Option String} {port : Int}
    (h : (_anetTcpServer L port bindaddr af backlog).exec world k tr = some (s, k')) :
    world.Obeys k tr ∧ Listens k.files k.infos af backlog bindaddr port s tr k' ∧
      ((∃ fd, fd ≠ s ∧ k.files fd = none ∧ (k'.files fd).isSome = true) ↔
        reuseDenied tr = true) := by
  obtain ⟨hobeys, hl⟩ := (anetTcpServer_spec ⟨rfl, rfl⟩ bindaddr port).exec h
  exact ⟨hobeys, hl, hl.leaks_iff⟩

def unshared (s : Int) : Trace :=
  [⟨.getaddrinfo none (some "80") (serverHints AF_INET), .ok ⟨0, [node 1]⟩⟩,
    ⟨.socket AF_INET SOCK_STREAM 6, .ok s⟩, ⟨.setsockopt s .reuseAddr, .error 12⟩, ⟨.errno, 12⟩,
    ⟨.setError "setsockopt SO_REUSEADDR: Connection refused", ()⟩, ⟨.freeaddrinfo 0, ()⟩]

theorem server_leaks_iff_unshared : ∃ k', world.Obeys bare (unshared 3) ∧
    Listens bare.files bare.infos AF_INET 1024 none 80 ANET_ERR (unshared 3) k' ∧
    ((∃ fd, fd ≠ ANET_ERR ∧ bare.files fd = none ∧ (k'.files fd).isSome = true) ↔
      reuseDenied (unshared 3) = true) := by
  obtain ⟨k', hk⟩ : ∃ k', (_anetTcpServer libc 80 none AF_INET 1024).exec world bare (unshared 3) =
      some (ANET_ERR, k') := ⟨_, rfl⟩
  exact ⟨k', server_leaks_iff hk⟩

end Fsock.Anet
