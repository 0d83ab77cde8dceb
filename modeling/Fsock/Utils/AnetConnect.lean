import Fsock.Utils.AnetSpec

namespace Fsock.Anet

open Syscalls

variable {L : Libc} {k : Kernel} {F : Files} {I : Infos} {fd : Int} {f : File} {tr us : Trace}

def dialed (flags : Nat) (bound : Option Sockaddr) (stage : Stage) : File where
  flags := if nonblocking flags then block true O_RDWR else O_RDWR
  reuse := true
  v6Only := false
  bound := bound
  stage := stage

variable {source_addr : Option String} {flags : Nat}

theorem bindEach_spec (h : k.Has (F.plus fd f) I) (bs : List Addrinfo) :
    (bindEach fd bs).wp world (fun b _ k' => ∃ bound, k'.Has (F.plus fd { f with bound := bound }) I ∧
      (b = true → bound.isSome = true)) k := by
  induction bs generalizing k with
  | nil => exact ⟨f.bound, h, by simp⟩
  | cons b bs ih =>
    refine ⟨h.open_self, ?_⟩
    rintro (e | _) _
    · exact ih (h.fails e)
    · exact ⟨some b.addr, h.edit _, fun _ => rfl⟩

theorem bindSource_spec (h : k.Has (F.plus fd f) I) (source : String) :
    (bindSource L fd source).wp world (fun b tr k' => ∃ bound,
      k'.Has (F.plus fd { f with bound := bound }) I ∧
      if b then bound.isSome = true else reported tr = true) k := by
  refine ⟨rfl, ?_⟩
  rintro (rv | bservinfo) hp
  · apply (anetSetError_spec h.quiet _).seq
    rintro _ tr k' ⟨hr, -, hk⟩
    exact ⟨f.bound, hk, by simp [hr]⟩
  · have hn : I bservinfo.head = false := by
      simpa [world, Kernel.possible, h.infos] using hp
    have hk : (k.after (.getaddrinfo (some source) none connectHints) (.ok bservinfo)).Has
        (F.plus fd f) (Function.update I bservinfo.head true) := ⟨h.files, by simp [Kernel.after, h.infos]⟩
    apply (bindEach_spec hk _).seq
    rintro b tr k' ⟨bound, hk, hb⟩
    apply (freeaddrinfo_spec hk hn).seq
    rintro _ us k' ⟨hk, -⟩
    cases b with
    | true => exact ⟨bound, hk, hb rfl⟩
    | false =>
      apply (anetSetErrno_spec hk _).seq
      rintro _ vs k' ⟨hr, -, hk⟩
      exact ⟨bound, hk, by simp [hr]⟩

theorem setMode_spec (h : k.Has (F.plus fd { File.fresh with reuse := true }) I) :
    (setMode L flags fd).wp world (fun rc tr k' => ∃ f, k'.Has (F.plus fd f) I ∧
      if rc = ANET_OK then f = dialed flags none .idle else reported tr = true) k := by
  rw [setMode]
  cases hb : nonblocking flags with
  | true =>
    refine (anetSetBlock_spec h true).mono ?_
    rintro _ tr k' (⟨hk, -⟩ | ⟨hk, hr, -⟩)
    · exact ⟨_, hk, by simp [dialed, hb, File.fresh]⟩
    · exact ⟨_, hk, hr⟩
  | false => exact ⟨_, h, by simp [dialed, hb, File.fresh]⟩

theorem prepare_spec (h : k.Has (F.plus fd .fresh) I) :
    (prepare L source_addr flags fd).wp world (fun b tr k' => ∃ f, k'.Has (F.plus fd f) I ∧
      if b then ∃ bound : Option Sockaddr, bound.isSome = source_addr.isSome ∧
        f = dialed flags bound .idle
      else reported tr = true) k := by
  apply (anetSetReuseAddr_spec h).seq
  rintro _ tr k' (⟨hk, -⟩ | ⟨hk, hr, -⟩)
  · apply (setMode_spec hk).seq
    rintro rc us k' ⟨f, hk, hf⟩
    by_cases hrc : rc = ANET_OK
    · rw [if_pos hrc] at hf
      rw [if_neg (not_not_intro hrc)]
      subst hf
      cases source_addr with
      | none => exact ⟨_, hk, none, rfl, rfl⟩
      | some source =>
        refine (bindSource_spec hk source).mono ?_
        rintro b vs k' ⟨bound, hk, hb⟩
        cases b with
        | true => exact ⟨_, hk, bound, hb, rfl⟩
        | false => exact ⟨_, hk, by simpa using Or.inr (Or.inr hb)⟩
    · rw [if_neg hrc] at hf
      rw [if_pos hrc]
      exact ⟨f, hk, by simp [hf]⟩
  · exact ⟨.fresh, hk, by simp [hr]⟩

structure Dialed (F : Files) (I : Infos) (bind : Bool) (flags : Nat) (addrs : List Sockaddr)
    (s : Int) (k : Kernel) : Prop where
  nonneg : 0 ≤ s
  new : F s = none
  held : ∃ addr ∈ addrs, ∃ (bound : Option Sockaddr) (stage : Stage),
    k.Has (F.plus s (dialed flags bound stage)) I ∧ bound.isSome = bind ∧
    (stage = .connected addr ∨ stage = .connecting addr ∧ nonblocking flags = true)

inductive Tried (F : Files) (I : Infos) (bind : Bool) (flags : Nat) (addrs : List Sockaddr) :
    Int × Jump → Trace → Kernel → Prop
  | next {tr : Trace} {k : Kernel} : k.Has F I → Tried F I bind flags addrs (ANET_ERR, .next) tr k
  | error {s : Int} {f : File} {tr : Trace} {k : Kernel} : 0 ≤ s → F s = none →
      k.Has (F.plus s f) I → reported tr = true → Tried F I bind flags addrs (s, .error) tr k
  | finish {s : Int} {tr : Trace} {k : Kernel} : Dialed F I bind flags addrs s k →
      Tried F I bind flags addrs (s, .finish) tr k

variable {dest dest' : List Sockaddr} {b : Bool} {x : Int × Jump}

theorem Dialed.mono {s : Int} (h : Dialed F I b flags dest s k) (hs : ∀ a ∈ dest, a ∈ dest') :
    Dialed F I b flags dest' s k where
  nonneg := h.nonneg
  new := h.new
  held := let ⟨addr, ha, h⟩ := h.held; ⟨addr, hs addr ha, h⟩

theorem Tried.mono (h : Tried F I b flags dest x us k) (hs : ∀ a ∈ dest, a ∈ dest') :
    Tried F I b flags dest' x (tr ++ us) k := by
  cases h with
  | next hk => exact .next hk
  | error h0 hn hk hr => exact .error h0 hn hk (by simp [hr])
  | finish hd => exact .finish (hd.mono hs)

theorem connectOne_spec (h : k.Has F I) (p : Addrinfo) :
    (connectOne L source_addr flags p).wp world
      (Tried F I source_addr.isSome flags [p.addr]) k := by
  refine ⟨rfl, ?_⟩
  rintro (e | s) hp
  · exact .next (h.fails e)
  · obtain ⟨h0, hn⟩ : 0 ≤ s ∧ F s = none := h.fresh.mp hp
    have hk : (k.after (.socket p.family p.socktype p.protocol) (.ok s)).Has (F.plus s .fresh) I :=
      h.opens s .fresh
    apply (prepare_spec hk).seq
    rintro b tr k' ⟨f, hk, hb⟩
    cases b with
    | false => exact .error h0 hn hk (by simp_all)
    | true =>
      obtain ⟨bound, hbound, rfl⟩ := hb
      refine ⟨hk.open_self, ?_⟩
      rintro (e | _) _
      · have hk := hk.connect_error p.addr e
        show (if e = EINPROGRESS ∧ nonblocking flags = true then _ else _ : Code (Int × Jump)).wp _ _ _
        by_cases he : e = EINPROGRESS ∧ nonblocking flags = true
        · rw [if_pos he]
          rw [if_pos he.1] at hk
          exact .finish ⟨h0, hn, p.addr, by simp, bound, _, hk, hbound, .inr ⟨rfl, he.2⟩⟩
        · rw [if_neg he]
          exact ⟨hk.open_self, fun r _ => .next (hk.close hn r)⟩
      · exact .finish ⟨h0, hn, p.addr, by simp, bound, _, hk.edit _, hbound, .inl rfl⟩

theorem connectEach_spec (ps : List Addrinfo) (h : k.Has F I) :
    (connectEach L source_addr flags ps ANET_ERR).wp world
      (Tried F I source_addr.isSome flags (ps.map Addrinfo.addr)) k := by
  induction ps generalizing k with
  | nil => exact .next h
  | cons p ps ih =>
    apply (connectOne_spec h p).seq
    rintro _ tr k' ht
    cases ht with
    | next hk => exact (ih hk).mono fun x us _ ht => ht.mono fun a ha => List.mem_cons_of_mem _ ha
    | error h0 hn hk hr => exact .error h0 hn hk (by simpa using hr)
    | finish hd => exact .finish (hd.mono fun a ha => by simp_all)

def Resolved (addr : Option String) (port : Int) (tr : Trace) (a : Sockaddr) : Prop :=
  ∃ info : Info, a ∈ info.nodes.map Addrinfo.addr ∧
    ⟨.getaddrinfo addr (some (portstr port)) connectHints, .ok info⟩ ∈ tr

inductive Connects (F : Files) (I : Infos) (bind : Bool) (flags : Nat) (addr : Option String) (port : Int) :
    Int → Trace → Kernel → Prop
  | err {tr : Trace} {k : Kernel} : k.Has F I → reported tr = true →
      Connects F I bind flags addr port ANET_ERR tr k
  | ok {s : Int} {dest : List Sockaddr} {tr : Trace} {k : Kernel} : Dialed F I bind flags dest s k →
      (∀ a ∈ dest, Resolved addr port tr a) → Connects F I bind flags addr port s tr k

theorem noteExhausted_spec (h : k.Has F I) (jump : Jump) :
    (noteExhausted L jump).wp world
      (fun _ tr k' => k'.Has F I ∧ (jump = .next → reported tr = true)) k := by
  rw [noteExhausted]
  by_cases hj : jump = .next
  · rw [if_pos hj]
    exact (anetSetErrno_spec h _).mono fun _ _ _ hs => ⟨hs.2.2, fun _ => hs.1⟩
  · rw [if_neg hj]
    exact ⟨h, fun hj' => absurd hj' hj⟩

theorem dropSocket_keeps {s : Int} {jump : Jump} (hj : jump = .finish ∨ s = ANET_ERR) :
    dropSocket s jump = pure s := by
  rw [dropSocket, if_neg (by tauto)]

theorem dropSocket_closes {jump : Jump} (h0 : 0 ≤ fd) (hn : F fd = none)
    (h : k.Has (F.plus fd f) I) (hj : jump ≠ .finish) :
    (dropSocket fd jump).wp world (fun s _ k' => s = ANET_ERR ∧ k'.Has F I) k := by
  have hs : fd ≠ ANET_ERR := by simp only [ANET_ERR]; omega
  rw [dropSocket, if_pos ⟨hj, hs⟩]
  exact ⟨h.open_self, fun r _ => ⟨rfl, h.close hn r⟩⟩

abbrev lookup (addr : Option String) (port : Int) : Call :=
  .getaddrinfo addr (some (portstr port)) connectHints

def lookups (tr : Trace) : Nat := tr.countP fun e => looksUp e.1

def retried (tr : Trace) : Bool := decide (1 < lookups tr)

@[simp] theorem lookups_append : lookups (tr ++ us) = lookups tr + lookups us := List.countP_append

@[simp] theorem lookups_lookup {addr : Option String} {port : Int}
    {r : (lookup addr port).Reply} : lookups (⟨lookup addr port, r⟩ :: tr) = lookups tr + 1 :=
  List.countP_cons_of_pos rfl

theorem lookups_local (h : ∀ e ∈ tr, Local e.1) : lookups tr = 0 := by
  rw [lookups, List.countP_eq_zero]
  intro e he
  simp [(h e he).1]

theorem setMode_asks : (setMode L flags fd).Asks Local := by
  rw [setMode]
  split
  · exact anetSetBlock_asks true
  · trivial

theorem bindEach_asks (bs : List Addrinfo) : (bindEach fd bs).Asks Local := by
  induction bs with
  | nil => trivial
  | cons b bs ih =>
    refine ⟨⟨rfl, rfl⟩, ?_⟩
    rintro (e | _)
    · exact ih
    · trivial

theorem bindSource_asks (source : String) : (bindSource L fd source).Asks Local := by
  refine ⟨⟨rfl, rfl⟩, ?_⟩
  rintro (rv | bservinfo)
  · exact (anetSetError_asks _).seq fun _ => trivial
  · refine (bindEach_asks _).seq fun bound => ⟨⟨rfl, rfl⟩, fun _ => ?_⟩
    cases bound with
    | true => trivial
    | false => exact (anetSetErrno_asks _).seq fun _ => trivial

theorem prepare_asks : (prepare L source_addr flags fd).Asks Local := by
  refine anetSetReuseAddr_asks.seq fun rc => ?_
  split
  · trivial
  · refine setMode_asks.seq fun rc => ?_
    split
    · trivial
    · cases source_addr with
      | none => trivial
      | some source => exact bindSource_asks source

theorem connectOne_asks (p : Addrinfo) : (connectOne L source_addr flags p).Asks Local := by
  refine ⟨⟨rfl, rfl⟩, ?_⟩
  rintro (e | s)
  · trivial
  · refine prepare_asks.seq fun b => ?_
    cases b with
    | false => trivial
    | true =>
      refine ⟨⟨rfl, rfl⟩, ?_⟩
      rintro (e | _)
      · show (if e = EINPROGRESS ∧ nonblocking flags = true then _ else _ :
          Code (Int × Jump)).Asks _
        split
        · trivial
        · exact ⟨⟨rfl, rfl⟩, fun _ => trivial⟩
      · trivial

theorem connectEach_asks (ps : List Addrinfo) (s : Int) :
    (connectEach L source_addr flags ps s).Asks Local := by
  induction ps generalizing s with
  | nil => trivial
  | cons p ps ih =>
    apply (connectOne_asks p).seq
    rintro ⟨s, jump⟩
    show (if jump = .next then _ else _ : Code (Int × Jump)).Asks _
    split
    · exact ih s
    · trivial

theorem noteExhausted_asks (jump : Jump) : (noteExhausted L jump).Asks Local := by
  rw [noteExhausted]
  split
  · exact anetSetErrno_asks _
  · trivial

theorem dropSocket_asks (jump : Jump) : (dropSocket fd jump).Asks Local := by
  rw [dropSocket]
  split
  · exact ⟨⟨rfl, rfl⟩, fun _ => trivial⟩
  · trivial

inductive Once (F : Files) (I : Infos) (bind : Bool) (flags : Nat) (addr : Option String)
    (port : Int) : Option Int → Trace → Kernel → Prop
  | unresolved {rv : Int} {tr : Trace} {k : Kernel} : k.Has F I → reported tr = true →
      lookups tr = 0 → Once F I bind flags addr port none (⟨lookup addr port, .error rv⟩ :: tr) k
  | tried {info : Info} {s : Int} {tr : Trace} {k : Kernel} :
      Connects F I bind flags addr port s (⟨lookup addr port, .ok info⟩ :: tr) k →
      lookups tr = 0 → Once F I bind flags addr port (some s) (⟨lookup addr port, .ok info⟩ :: tr) k

theorem servinfo_asks (servinfo : Info) : (do
    let (s, jump) ← connectEach L source_addr flags servinfo.nodes ANET_ERR
    noteExhausted L jump
    let s ← dropSocket s jump
    freeaddrinfo servinfo
    return some s : Code (Option Int)).Asks Local := by
  apply (connectEach_asks _ _).seq
  rintro ⟨s, jump⟩
  refine (noteExhausted_asks _).seq fun _ => ?_
  exact (dropSocket_asks _).seq fun _ => ⟨⟨rfl, rfl⟩, fun _ => trivial⟩

theorem connectOnce_asks (addr : Option String) (port : Int) :
    (connectOnce L addr port source_addr flags).Asks Plain := by
  refine ⟨rfl, ?_⟩
  rintro (rv | servinfo)
  · exact ((anetSetError_asks _).mono plain_of_local).seq fun _ => trivial
  · exact (servinfo_asks servinfo).mono plain_of_local

theorem anetTcpGenericConnect_asks (addr : Option String) (port : Int) :
    (anetTcpGenericConnect L addr port source_addr flags).Asks Plain := by
  refine (connectOnce_asks addr port).seq fun r => ?_
  cases r with
  | none => trivial
  | some s =>
    show (if s = ANET_ERR ∧ source_addr.isSome = true ∧ bestEffort flags = true then _ else _ :
      Code Int).Asks _
    split
    · exact (connectOnce_asks addr port).seq fun _ => trivial
    · trivial

theorem connectOnce_spec (h : k.Has F I) (addr : Option String) (port : Int) :
    (connectOnce L addr port source_addr flags).wp world
      (Once F I source_addr.isSome flags addr port) k := by
  refine ⟨rfl, ?_⟩
  rintro (rv | servinfo) hp
  · apply ((anetSetError_spec h.quiet _).asked (anetSetError_asks _)).seq
    rintro _ tr k' ⟨⟨hr, -, hk⟩, hl⟩
    show Once _ _ _ _ _ _ _ (_ :: (tr ++ [])) _
    rw [List.append_nil]
    exact .unresolved hk hr (lookups_local hl)
  · have hn : I servinfo.head = false := by simpa [world, Kernel.possible, h.infos] using hp
    have hk : (k.after (lookup addr port) (.ok servinfo)).Has F
        (Function.update I servinfo.head true) := ⟨h.files, by simp [Kernel.after, h.infos]⟩
    refine (Script.wp.asked (P := fun r tr k' => ∃ s, r = some s ∧ Connects F I source_addr.isSome
      flags addr port s (⟨lookup addr port, .ok servinfo⟩ :: tr) k') ?_ (servinfo_asks servinfo)).mono ?_
    · apply (connectEach_spec servinfo.nodes hk).seq
      rintro ⟨s, jump⟩ tr k' ht
      cases ht with
      | next hk =>
        apply (noteExhausted_spec hk .next).seq
        rintro _ us k' ⟨hk, hr⟩
        rw [dropSocket_keeps (.inr rfl)]
        apply (freeaddrinfo_spec hk hn).seq
        rintro _ vs k' ⟨hk, -⟩
        exact ⟨_, rfl, .err hk (by simp [hr rfl])⟩
      | error h0 hs hk hr =>
        apply (noteExhausted_spec hk .error).seq
        rintro _ us k' ⟨hk, -⟩
        apply (dropSocket_closes h0 hs hk (by decide)).seq
        rintro _ vs k' ⟨rfl, hk⟩
        apply (freeaddrinfo_spec hk hn).seq
        rintro _ ws k' ⟨hk, -⟩
        exact ⟨_, rfl, .err hk (by simp [hr])⟩
      | finish hd =>
        obtain ⟨h0, hs, a, ha, bound, stage, hk, hrest⟩ := hd
        apply (noteExhausted_spec hk .finish).seq
        rintro _ us k' ⟨hk, -⟩
        rw [dropSocket_keeps (.inl rfl)]
        apply (freeaddrinfo_spec hk hn).seq
        rintro _ vs k' ⟨hk, -⟩
        exact ⟨_, rfl, .ok ⟨h0, hs, a, ha, bound, stage, hk, hrest⟩ fun a ha =>
          ⟨servinfo, ha, by simp⟩⟩
    · rintro _ tr k' ⟨⟨s, rfl, hc⟩, hl⟩
      exact .tried hc (lookups_local hl)

structure Retries (source_addr : Option String) (flags : Nat) (addr : Option String) (port : Int)
    (s : Int) (tr : Trace) : Prop where
  once : lookups tr ≤ 2
  asked : retried tr = true → source_addr.isSome = true ∧ bestEffort flags = true
  resolved : retried tr = true → ∃ info, tr.head? = some ⟨lookup addr port, .ok info⟩
  made : s = ANET_ERR → source_addr.isSome = true → bestEffort flags = true →
    retried tr = true ∨ ∃ rv, tr.head? = some ⟨lookup addr port, .error rv⟩

theorem Connects.ended {bind : Bool} {addr : Option String} {port s : Int}
    (h : Connects F I bind flags addr port s tr k) (hs : s = ANET_ERR) :
    k.Has F I ∧ reported tr = true := by
  cases h with
  | err hk hr => exact ⟨hk, hr⟩
  | ok hd _ =>
    have h0 := hd.nonneg
    simp only [hs, ANET_ERR] at h0
    omega

theorem Connects.after {bind : Bool} {addr : Option String} {port s : Int}
    (h : Connects F I bind flags addr port s us k) :
    Connects F I bind flags addr port s (tr ++ us) k := by
  cases h with
  | err hk hr => exact .err hk (by simp [hr])
  | ok hd hdest =>
    refine .ok hd fun a ha => ?_
    obtain ⟨info, hinfo, hmem⟩ := hdest a ha
    exact ⟨info, hinfo, List.mem_append_right _ hmem⟩

theorem Once.ended {bind : Bool} {addr : Option String} {port : Int} {r : Option Int}
    (h : Once F I bind flags addr port r tr k) : lookups tr = 1 ∧
      Connects F I bind flags addr port (r.getD ANET_ERR) tr k := by
  cases h with
  | unresolved hk hr hl => exact ⟨by simp [hl], .err hk (by simp [hr])⟩
  | tried hc hl => exact ⟨by simp [hl], hc⟩

theorem anetTcpGenericConnect_spec (h : k.Has F I) (addr : Option String) (port : Int) :
    (anetTcpGenericConnect L addr port source_addr flags).wp world (fun s tr k' =>
      Connects F I (source_addr.isSome && !retried tr) flags addr port s tr k' ∧
      Retries source_addr flags addr port s tr) k := by
  apply (connectOnce_spec h addr port).seq
  intro r tr k' ho
  obtain ⟨hone, hc⟩ := ho.ended
  have hfirst : retried tr = false := by simp [retried, hone]
  cases ho with
  | @unresolved rv us k' hk hr hl =>
    show Connects _ _ _ _ _ _ _ _ _ ∧ Retries _ _ _ _ _ _
    rw [List.append_nil]
    refine ⟨by simpa [hfirst] using hc, by omega, by simp [hfirst], by simp [hfirst], ?_⟩
    exact fun _ _ _ => .inr ⟨rv, rfl⟩
  | @tried info s us k' _ hl =>
    show (if s = ANET_ERR ∧ source_addr.isSome = true ∧ bestEffort flags = true then _ else _ :
      Code Int).wp _ _ _
    by_cases hs : s = ANET_ERR ∧ source_addr.isSome = true ∧ bestEffort flags = true
    · rw [if_pos hs]
      obtain ⟨hk, -⟩ := hc.ended hs.1
      apply (connectOnce_spec hk addr port).seq
      intro r vs k' ho
      obtain ⟨htwo, hc⟩ := ho.ended
      have hboth : lookups ((⟨lookup addr port, .ok info⟩ :: us) ++ vs) = 2 := by
        rw [lookups_append, hone, htwo]
      have hagain : retried ((⟨lookup addr port, .ok info⟩ :: us) ++ vs) = true := by
        rw [retried, hboth]
        rfl
      show Connects _ _ _ _ _ _ _ _ _ ∧ Retries _ _ _ _ _ _
      rw [List.append_nil, hagain]
      refine ⟨?_, by omega, fun _ => hs.2, fun _ => ⟨info, rfl⟩, fun _ _ _ => .inl hagain⟩
      rw [Bool.not_true, Bool.and_false]
      exact hc.after
    · rw [if_neg hs]
      show Connects _ _ _ _ _ _ _ _ _ ∧ Retries _ _ _ _ _ _
      rw [List.append_nil]
      refine ⟨by simpa [hfirst] using hc, by omega, by simp [hfirst], by simp [hfirst], ?_⟩
      exact fun he hsome hbe => absurd ⟨he, hsome, hbe⟩ hs

theorem connect_balanced {s : Int} {k' : Kernel} {addr : Option String} {port : Int}
    (h : (anetTcpGenericConnect L addr port source_addr flags).exec world k tr = some (s, k')) :
    world.Obeys k tr ∧
      Connects k.files k.infos (source_addr.isSome && !retried tr) flags addr port s tr k' ∧
      Retries source_addr flags addr port s tr :=
  (anetTcpGenericConnect_spec ⟨rfl, rfl⟩ addr port).exec h

def libc : Libc where
  strerror _ := "Connection refused"
  gai_strerror _ := "Name or service not known"

def bare : Kernel where
  files := fun _ => none
  infos := fun _ => false
  errno := none
  err := none

def node (x : UInt8) : Addrinfo := ⟨AF_INET, SOCK_STREAM, 6, [x]⟩

def opens (x : UInt8) (answer : Except Errno Unit) : Trace :=
  [⟨.socket AF_INET SOCK_STREAM 6, .ok 3⟩, ⟨.setsockopt 3 .reuseAddr, .ok ()⟩, ⟨.getfl 3, .ok O_RDWR⟩,
    ⟨.setfl 3 (O_RDWR ||| O_NONBLOCK), .ok ()⟩, ⟨.connect 3 [x], answer⟩]

def redialed : Trace :=
  [⟨.getaddrinfo (some "host") (some "80") connectHints, .ok ⟨0, [node 1, node 2]⟩⟩] ++
    opens 1 (.error 111) ++ [⟨.close 3, .ok ()⟩] ++ opens 2 (.error EINPROGRESS) ++
    [⟨.freeaddrinfo 0, ()⟩]

def bestEffortFlags : Nat := ANET_CONNECT_NONBLOCK ||| ANET_CONNECT_BE_BINDING

-- the source address is not resolved, so the second attempt binds to none
def unbound : Trace :=
  [⟨lookup (some "host") 80, .ok ⟨0, [node 1]⟩⟩] ++ (opens 1 (.ok ())).take 4 ++
    [⟨.getaddrinfo (some "source") none connectHints, .error (-2)⟩,
      ⟨.setError "Name or service not known", ()⟩, ⟨.close 3, .ok ()⟩, ⟨.freeaddrinfo 0, ()⟩] ++
    redialed

theorem connect_balanced_unbound : ∃ k', world.Obeys bare unbound ∧
    Connects bare.files bare.infos false bestEffortFlags (some "host") 80 3 unbound k' ∧
    Retries (some "source") bestEffortFlags (some "host") 80 3 unbound := by
  obtain ⟨k', hk⟩ : ∃ k', (anetTcpGenericConnect libc (some "host") 80 (some "source")
      bestEffortFlags).exec world bare unbound = some (3, k') := ⟨_, rfl⟩
  exact ⟨k', connect_balanced hk⟩

end Fsock.Anet
