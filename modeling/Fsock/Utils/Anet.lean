import Mathlib.Logic.Function.Basic
import Fsock.Lib.Syscalls

namespace Fsock.Anet

open Syscalls

abbrev Errno : Type := Int

abbrev Sockaddr : Type := List UInt8

structure Addrinfo where
  family : Int
  socktype : Int
  protocol : Int
  addr : Sockaddr
  deriving DecidableEq

structure Info where
  head : Nat
  nodes : List Addrinfo

structure Hints where
  family : Int
  socktype : Int
  flags : Int
  deriving DecidableEq

def AF_UNSPEC : Int := 0
def AF_INET : Int := 2
def AF_INET6 : Int := 10
def SOCK_STREAM : Int := 1
def AI_PASSIVE : Int := 1
def EINTR : Errno := 4
def ENFILE : Errno := 23
def EMFILE : Errno := 24
def EINPROGRESS : Errno := 115
def O_RDONLY : BitVec 32 := 0x0
def O_WRONLY : BitVec 32 := 0x1
def O_RDWR : BitVec 32 := 0x2
def O_NONBLOCK : BitVec 32 := 0x800

inductive Sockopt where
  | reuseAddr
  | v6Only
  deriving DecidableEq

inductive Call where
  | getaddrinfo (node service : Option String) (hints : Hints)
  | freeaddrinfo (info : Nat)
  | socket (family socktype protocol : Int)
  | setsockopt (s : Int) (opt : Sockopt)
  | getfl (fd : Int)
  | setfl (fd : Int) (flags : BitVec 32)
  | bind (s : Int) (addr : Sockaddr)
  | listen (s : Int) (backlog : Int)
  | connect (s : Int) (addr : Sockaddr)
  | accept (s : Int)
  | eventfd
  | pipe
  | socketpair
  | setfd (fd : Int)
  | close (fd : Int)
  | errno
  | setError (msg : String)
  deriving DecidableEq

abbrev Call.Reply : Call → Type
  | .getaddrinfo _ _ _ => Except Int Info
  | .freeaddrinfo _ => Unit
  | .socket _ _ _ => Except Errno Int
  | .getfl _ => Except Errno (BitVec 32)
  | .accept _ => Except Errno (Int × Sockaddr)
  | .eventfd => Except Errno Int
  | .pipe => Except Errno (Int × Int)
  | .socketpair => Except Errno (Int × Int)
  | .errno => Errno
  | .setError _ => Unit
  | _ => Except Errno Unit

inductive Stage where
  | idle
  | listening (backlog : Int)
  | connecting (addr : Sockaddr)
  | connected (addr : Sockaddr)
  deriving DecidableEq

structure File where
  flags : BitVec 32
  reuse : Bool
  v6Only : Bool
  bound : Option Sockaddr
  stage : Stage
  deriving DecidableEq

def File.fresh : File where
  flags := O_RDWR
  reuse := false
  v6Only := false
  bound := none
  stage := .idle

def File.mode (f : File) (flags : BitVec 32) : File := { f with flags := flags }

def File.set (f : File) : Sockopt → File
  | .reuseAddr => { f with reuse := true }
  | .v6Only => { f with v6Only := true }

def File.accepted (f : File) (addr : Sockaddr) : File :=
  { f with flags := O_RDWR, stage := .connected addr }

structure Kernel where
  files : Int → Option File
  infos : Nat → Bool
  errno : Option Errno
  err : Option String

namespace Kernel

def edit (k : Kernel) (fd : Int) (g : File → File) : Kernel :=
  { k with files := Function.update k.files fd ((k.files fd).map g), errno := none }

def fails (k : Kernel) (e : Errno) : Kernel := { k with errno := some e }

def opens (k : Kernel) (fd : Int) (f : File) : Kernel :=
  { k with files := Function.update k.files fd (some f), errno := none }

def allowed (k : Kernel) : Call → Bool
  | .freeaddrinfo info => k.infos info
  | .setsockopt fd _ | .getfl fd | .setfl fd _ | .bind fd _ | .listen fd _ | .connect fd _
  | .accept fd | .setfd fd | .close fd => (k.files fd).isSome
  | _ => true

def fresh (k : Kernel) (fd : Int) : Bool := decide (0 ≤ fd) && (k.files fd).isNone

def possible (k : Kernel) : (c : Call) → c.Reply → Bool
  | .getaddrinfo _ _ _, .ok info => !k.infos info.head
  | .socket _ _ _, .ok fd => k.fresh fd
  | .accept _, .ok (fd, _) => k.fresh fd
  | .eventfd, .ok fd => k.fresh fd
  | .pipe, .ok (r, w) => k.fresh r && k.fresh w && decide (r ≠ w)
  | .socketpair, .ok (r, w) => k.fresh r && k.fresh w && decide (r ≠ w)
  | .getfl fd, .ok flags => (k.files fd).all fun f => f.flags = flags
  | .errno, e => k.errno.all (· = e)
  | _, _ => true

-- a call that succeeds leaves errno unspecified
def after (k : Kernel) : (c : Call) → c.Reply → Kernel
  | .getaddrinfo _ _ _, .ok info =>
    { k with infos := Function.update k.infos info.head true, errno := none }
  | .getaddrinfo _ _ _, .error _ => { k with errno := none }
  | .freeaddrinfo info, _ => { k with infos := Function.update k.infos info false, errno := none }
  | .socket _ _ _, .ok fd => k.opens fd .fresh
  | .socket _ _ _, .error e => k.fails e
  | .setsockopt s opt, .ok _ => k.edit s (·.set opt)
  | .setsockopt _ _, .error e => k.fails e
  | .getfl _, .ok _ => { k with errno := none }
  | .getfl _, .error e => k.fails e
  | .setfl fd flags, .ok _ => k.edit fd (·.mode flags)
  | .setfl _ _, .error e => k.fails e
  | .bind s addr, .ok _ => k.edit s fun f => { f with bound := some addr }
  | .bind _ _, .error e => k.fails e
  | .listen s backlog, .ok _ => k.edit s fun f => { f with stage := .listening backlog }
  | .listen _ _, .error e => k.fails e
  | .connect s addr, .ok _ => k.edit s fun f => { f with stage := .connected addr }
  | .connect s addr, .error e =>
    if e = EINPROGRESS then (k.edit s fun f => { f with stage := .connecting addr }).fails e
    else k.fails e
  -- options are inherited, O_NONBLOCK is not
  | .accept s, .ok (fd, addr) =>
    { k with
      files := Function.update k.files fd ((k.files s).map fun f => f.accepted addr)
      errno := none }
  | .accept _, .error e => k.fails e
  | .eventfd, .ok fd => k.opens fd .fresh
  | .eventfd, .error e => k.fails e
  | .pipe, .ok (r, w) =>
    (k.opens r (File.fresh.mode O_RDONLY)).opens w (File.fresh.mode O_WRONLY)
  | .pipe, .error e => k.fails e
  | .socketpair, .ok (r, w) => (k.opens r .fresh).opens w .fresh
  | .socketpair, .error e => k.fails e
  -- close-on-exec belongs to the descriptor, not to the file
  | .setfd _, .ok _ => { k with errno := none }
  | .setfd _, .error e => k.fails e
  -- the descriptor is gone whatever close answers
  | .close fd, _ => { k with files := Function.update k.files fd none, errno := none }
  | .errno, _ => k
  | .setError msg, _ => { k with err := some msg, errno := none }

end Kernel

def world : World Call.Reply Kernel where
  allowed := Kernel.allowed
  possible := Kernel.possible
  after := Kernel.after

abbrev Trace : Type := List (Event Call.Reply)

abbrev Code : Type → Type := Script Call.Reply

structure Libc where
  strerror : Errno → String
  gai_strerror : Int → String

def ANET_OK : Int := 0
def ANET_ERR : Int := -1

def sys (c : Call) : Code c.Reply := Script.ask c

def getaddrinfo (node service : Option String) (hints : Hints) : Code (Except Int Info) :=
  sys (.getaddrinfo node service hints)

def freeaddrinfo (info : Info) : Code Unit := sys (.freeaddrinfo info.head)

def socket (p : Addrinfo) : Code (Except Errno Int) :=
  sys (.socket p.family p.socktype p.protocol)

def setsockopt (s : Int) (opt : Sockopt) : Code (Except Errno Unit) :=
  sys (.setsockopt s opt)

def getfl (fd : Int) : Code (Except Errno (BitVec 32)) := sys (.getfl fd)

def setfl (fd : Int) (flags : BitVec 32) : Code (Except Errno Unit) := sys (.setfl fd flags)

def bind (s : Int) (addr : Sockaddr) : Code (Except Errno Unit) := sys (.bind s addr)

def listen (s : Int) (backlog : Int) : Code (Except Errno Unit) := sys (.listen s backlog)

def connect (s : Int) (addr : Sockaddr) : Code (Except Errno Unit) := sys (.connect s addr)

def accept (s : Int) : Code (Except Errno (Int × Sockaddr)) := sys (.accept s)

def close (fd : Int) : Code (Except Errno Unit) := sys (.close fd)

def anetSetError (msg : String) : Code Unit := sys (.setError msg)

def anetSetErrno (L : Libc) (what : String) : Code Unit := do
  let errno ← sys .errno
  anetSetError (what ++ L.strerror errno)

def anetSetBlock (L : Libc) (fd : Int) (nonBlock : Bool) : Code Int := do
  match ← getfl fd with
  | .error _ =>
    anetSetErrno L "fcntl(F_GETFL): "
    return ANET_ERR
  | .ok flags =>
    match ← setfl fd (if nonBlock then flags ||| O_NONBLOCK else flags &&& ~~~O_NONBLOCK) with
    | .error _ =>
      anetSetErrno L "fcntl(F_SETFL,O_NONBLOCK): "
      return ANET_ERR
    | .ok _ => return ANET_OK

def anetNonBlock (L : Libc) (fd : Int) : Code Int := anetSetBlock L fd true

def anetBlock (L : Libc) (fd : Int) : Code Int := anetSetBlock L fd false

def anetSetReuseAddr (L : Libc) (fd : Int) : Code Int := do
  match ← setsockopt fd .reuseAddr with
  | .error _ =>
    anetSetErrno L "setsockopt SO_REUSEADDR: "
    return ANET_ERR
  | .ok _ => return ANET_OK

def ANET_CONNECT_NONE : Nat := 0
def ANET_CONNECT_NONBLOCK : Nat := 1
def ANET_CONNECT_BE_BINDING : Nat := 2

def nonblocking (flags : Nat) : Bool := decide (flags &&& ANET_CONNECT_NONBLOCK ≠ 0)

def bestEffort (flags : Nat) : Bool := decide (flags &&& ANET_CONNECT_BE_BINDING ≠ 0)

def portstr (port : Int) : String := String.ofList ((toString port).toList.take 5)

def connectHints : Hints where
  family := AF_UNSPEC
  socktype := SOCK_STREAM
  flags := 0

inductive Jump where
  | next
  | error
  | finish
  deriving DecidableEq

def bindEach (s : Int) : List Addrinfo → Code Bool
  | [] => return false
  | b :: bs => do
    match ← bind s b.addr with
    | .ok _ => return true
    | .error _ => bindEach s bs

def bindSource (L : Libc) (s : Int) (source_addr : String) : Code Bool := do
  match ← getaddrinfo (some source_addr) none connectHints with
  | .error rv =>
    anetSetError (L.gai_strerror rv)
    return false
  | .ok bservinfo =>
    let bound ← bindEach s bservinfo.nodes
    freeaddrinfo bservinfo
    if bound then return true
    else
      anetSetErrno L "bind: "
      return false

def setMode (L : Libc) (flags : Nat) (s : Int) : Code Int :=
  if nonblocking flags then anetNonBlock L s else return ANET_OK

def prepare (L : Libc) (source_addr : Option String) (flags : Nat) (s : Int) : Code Bool := do
  if (← anetSetReuseAddr L s) = ANET_ERR then return false
  else
    if (← setMode L flags s) ≠ ANET_OK then return false
    else match source_addr with
      | none => return true
      | some source_addr => bindSource L s source_addr

def connectOne (L : Libc) (source_addr : Option String) (flags : Nat) (p : Addrinfo) :
    Code (Int × Jump) := do
  match ← socket p with
  | .error _ => return (ANET_ERR, .next)
  | .ok s =>
    if ← prepare L source_addr flags s then
      match ← connect s p.addr with
      | .ok _ => return (s, .finish)
      | .error errno =>
        if errno = EINPROGRESS ∧ nonblocking flags then return (s, .finish)
        else
          let _ ← close s
          return (ANET_ERR, .next)
    else return (s, .error)

def connectEach (L : Libc) (source_addr : Option String) (flags : Nat) :
    List Addrinfo → Int → Code (Int × Jump)
  | [], s => return (s, .next)
  | p :: ps, _ => do
    let (s, jump) ← connectOne L source_addr flags p
    if jump = .next then connectEach L source_addr flags ps s else return (s, jump)

def noteExhausted (L : Libc) (jump : Jump) : Code Unit :=
  if jump = .next then anetSetErrno L "creating socket: " else return

-- the code between the labels error and end
def dropSocket (s : Int) (jump : Jump) : Code Int :=
  if jump ≠ .finish ∧ s ≠ ANET_ERR then do
    let _ ← close s
    return ANET_ERR
  else return s

-- none: the destination is not resolved
def connectOnce (L : Libc) (addr : Option String) (port : Int) (source_addr : Option String)
    (flags : Nat) : Code (Option Int) := do
  match ← getaddrinfo addr (some (portstr port)) connectHints with
  | .error rv =>
    anetSetError (L.gai_strerror rv)
    return none
  | .ok servinfo =>
    let (s, jump) ← connectEach L source_addr flags servinfo.nodes ANET_ERR
    noteExhausted L jump
    let s ← dropSocket s jump
    freeaddrinfo servinfo
    return some s

def anetTcpGenericConnect (L : Libc) (addr : Option String) (port : Int) (source_addr : Option String)
    (flags : Nat) : Code Int := do
  match ← connectOnce L addr port source_addr flags with
  | none => return ANET_ERR
  | some s =>
    if s = ANET_ERR ∧ source_addr.isSome ∧ bestEffort flags then
      let again ← connectOnce L addr port none flags
      return again.getD ANET_ERR
    else return s

def anetTcpConnect (L : Libc) (addr : Option String) (port : Int) : Code Int :=
  anetTcpGenericConnect L addr port none ANET_CONNECT_NONE

def anetTcpNonBlockConnect (L : Libc) (addr : Option String) (port : Int) : Code Int :=
  anetTcpGenericConnect L addr port none ANET_CONNECT_NONBLOCK

def anetTcpNonBlockBindConnect (L : Libc) (addr : Option String) (port : Int) (source_addr : Option String) :
    Code Int :=
  anetTcpGenericConnect L addr port source_addr ANET_CONNECT_NONBLOCK

def anetTcpNonBlockBestEffortBindConnect (L : Libc) (addr : Option String) (port : Int)
    (source_addr : Option String) : Code Int :=
  anetTcpGenericConnect L addr port source_addr (ANET_CONNECT_NONBLOCK ||| ANET_CONNECT_BE_BINDING)

def anetListen (L : Libc) (s : Int) (sa : Sockaddr) (backlog : Int) : Code Int := do
  match ← bind s sa with
  | .error _ =>
    anetSetErrno L "bind: "
    let _ ← close s
    return ANET_ERR
  | .ok _ =>
    match ← listen s backlog with
    | .error _ =>
      anetSetErrno L "listen: "
      let _ ← close s
      return ANET_ERR
    | .ok _ => return ANET_OK

def anetV6Only (L : Libc) (s : Int) : Code Int := do
  match ← setsockopt s .v6Only with
  | .error _ =>
    anetSetErrno L "setsockopt: "
    let _ ← close s
    return ANET_ERR
  | .ok _ => return ANET_OK

def serverHints (af : Int) : Hints where
  family := af
  socktype := SOCK_STREAM
  flags := AI_PASSIVE

def setFamily (L : Libc) (af s : Int) : Code Int :=
  if af = AF_INET6 then anetV6Only L s else return ANET_OK

def serveOne (L : Libc) (af backlog : Int) (p : Addrinfo) : Code (Int × Jump) := do
  match ← socket p with
  | .error _ => return (ANET_ERR, .next)
  | .ok s =>
    if (← setFamily L af s) = ANET_ERR then return (s, .error)
    else if (← anetSetReuseAddr L s) = ANET_ERR then return (s, .error)
    else if (← anetListen L s p.addr backlog) = ANET_ERR then return (s, .error)
    else return (s, .finish)

def serveEach (L : Libc) (af backlog : Int) : List Addrinfo → Code (Int × Jump)
  | [] => return (ANET_ERR, .next)
  | p :: ps => do
    let (s, jump) ← serveOne L af backlog p
    if jump = .next then serveEach L af backlog ps else return (s, jump)

def noteUnbound (jump : Jump) : Code Unit :=
  if jump = .next then anetSetError "unable to bind socket" else return

def _anetTcpServer (L : Libc) (port : Int) (bindaddr : Option String) (af backlog : Int) :
    Code Int := do
  match ← getaddrinfo bindaddr (some (portstr port)) (serverHints af) with
  | .error rv =>
    anetSetError (L.gai_strerror rv)
    return ANET_ERR
  | .ok servinfo =>
    let (s, jump) ← serveEach L af backlog servinfo.nodes
    noteUnbound jump
    freeaddrinfo servinfo
    return if jump = .finish then s else ANET_ERR

def anetTcpServer (L : Libc) (port : Int) (bindaddr : Option String) (backlog : Int) : Code Int :=
  _anetTcpServer L port bindaddr AF_INET backlog

def anetTcp6Server (L : Libc) (port : Int) (bindaddr : Option String) (backlog : Int) : Code Int :=
  _anetTcpServer L port bindaddr AF_INET6 backlog

-- none: still in the loop after n calls
def anetGenericAccept (L : Libc) (s : Int) : Nat → Code (Option Int)
  | 0 => return none
  | n + 1 => do
    match ← accept s with
    | .ok (fd, _) => return some fd
    | .error errno =>
      if errno = EINTR then anetGenericAccept L s n
      else
        anetSetErrno L "accept: "
        return some ANET_ERR

def anetTcpAccept (L : Libc) (s : Int) (n : Nat) : Code (Option Int) := anetGenericAccept L s n

end Fsock.Anet
