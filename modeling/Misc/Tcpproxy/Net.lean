import Misc.Lib.Words

namespace Misc.Tcpproxy
open Misc.Lib
set_option autoImplicit true

def AF_INET : Word 2 := 2
def AF_INET6 : Word 2 := 10

/-- `libc::sockaddr_in`; `sAddr` is the word in its `sin_addr`. -/
structure SockaddrIn where
  sinFamily : Word 2
  sinPort : Word 2
  sAddr : Word 4
  sinZero : Vector UInt8 8
  deriving DecidableEq

structure SockaddrIn6 where
  sin6Family : Word 2
  sin6Port : Word 2
  sin6Flowinfo : Word 4
  s6Addr : Vector UInt8 16
  sin6ScopeId : Word 4
  deriving DecidableEq

/-- What `getaddrinfo` finds and `connect` takes, by its family. -/
inductive Sockaddr
  | inet (sin : SockaddrIn)
  | inet6 (sin6 : SockaddrIn6)
  | other
  deriving DecidableEq

structure SocketAddrV4 where
  ip : Vector UInt8 4
  port : Word 2
  deriving DecidableEq

structure SocketAddrV6 where
  ip : Vector UInt8 16
  port : Word 2
  flowinfo : Word 4
  scopeId : Word 4
  deriving DecidableEq

inductive SocketAddr
  | v4 (sa : SocketAddrV4)
  | v6 (sa : SocketAddrV6)
  deriving DecidableEq

def intoCSin (o : ByteOrder) (sa : SocketAddrV4) : SockaddrIn where
  sinFamily := AF_INET
  sinPort := sa.port.toBe o
  sAddr := .fromBeBytes sa.ip
  sinZero := .replicate 8 0

def intoCSin6 (o : ByteOrder) (sa : SocketAddrV6) : SockaddrIn6 where
  sin6Family := AF_INET6
  sin6Port := sa.port.toBe o
  sin6Flowinfo := sa.flowinfo
  s6Addr := sa.ip
  sin6ScopeId := sa.scopeId

def fromCSin (o : ByteOrder) (sin : SockaddrIn) : SocketAddrV4 where
  ip := (sin.sAddr.toBe o).toBeBytes
  port := sin.sinPort.toBe o

def fromCSin6 (o : ByteOrder) (sin6 : SockaddrIn6) : SocketAddrV6 where
  ip := sin6.s6Addr
  port := sin6.sin6Port.toBe o
  flowinfo := sin6.sin6Flowinfo
  scopeId := sin6.sin6ScopeId

/-- The function that `resolve_first` hands to `resolve_address`. -/
def resolved (o : ByteOrder) : Sockaddr → Option SocketAddr
  | .inet sin => some (.v4 (fromCSin o sin))
  | .inet6 sin6 => some (.v6 (fromCSin6 o sin6))
  | .other => none

/-- `resolve_first` on the list that `getaddrinfo` returns. -/
def resolveFirst (o : ByteOrder) : List Sockaddr → Option SocketAddr
  | [] => none
  | ai :: rest => (resolved o ai).or (resolveFirst o rest)

/-- The address that `connect_tcp` and `listen_tcp` pass to the kernel. -/
def passed (o : ByteOrder) : SocketAddr → Sockaddr
  | .v4 sa => .inet (intoCSin o sa)
  | .v6 sa => .inet6 (intoCSin6 o sa)

namespace SocketAddr

/-- An address as C keeps it, the port and an IPv4 address with their highest byte first. -/
def inC (o : ByteOrder) : SocketAddr → Sockaddr
  | .v4 sa => .inet ⟨AF_INET, .load o sa.port.toBeBytes, .load o sa.ip, .replicate 8 0⟩
  | .v6 sa => .inet6 ⟨AF_INET6, .load o sa.port.toBeBytes, sa.flowinfo, sa.ip, sa.scopeId⟩

/-- On a machine with the lowest byte first an IPv4 address has to read the same from both
ends. -/
def Safe (o : ByteOrder) : SocketAddr → Prop
  | .v4 sa => o = .big ∨ sa.ip.reverse = sa.ip
  | .v6 _ => True

end SocketAddr

theorem resolved_inC (o : ByteOrder) (a : SocketAddr) : resolved o (a.inC o) = some a := by
  cases a with
  | v4 sa =>
    rw [SocketAddr.inC, resolved, fromCSin, Word.toBe_load, Word.toBeBytes_fromBeBytes,
      Word.load_toBeBytes, Word.toBe_toBe]
  | v6 sa => rw [SocketAddr.inC, resolved, fromCSin6, Word.load_toBeBytes, Word.toBe_toBe]

theorem resolveFirst_inC (o : ByteOrder) (n : Nat) (a : SocketAddr) (rest : List Sockaddr) :
    resolveFirst o (List.replicate n .other ++ a.inC o :: rest) = some a := by
  induction n with
  | zero =>
    rw [List.replicate_zero, List.nil_append, resolveFirst, resolved_inC]
    rfl
  | succ n ih =>
    rw [List.replicate_succ, List.cons_append, resolveFirst, ih]
    rfl

theorem passed_eq_iff (o : ByteOrder) (a : SocketAddr) : passed o a = a.inC o ↔ a.Safe o := by
  cases a with
  | v4 sa =>
    rw [passed, SocketAddr.inC, Sockaddr.inet.injEq, intoCSin, SockaddrIn.mk.injEq,
      Word.load_toBeBytes, Word.fromBeBytes_eq_load_iff]
    simp [SocketAddr.Safe]
  | v6 sa =>
    rw [passed, SocketAddr.inC, intoCSin6, Word.load_toBeBytes]
    exact iff_of_true rfl trivial

/-- The kernel is passed the first address that `getaddrinfo` has found with a family that is
known if and only if it is one of IPv6, or the machine keeps the highest byte first, or the
address is the same from both ends. -/
theorem passed_resolved_iff (o : ByteOrder) (n : Nat) (a : SocketAddr) (rest : List Sockaddr) :
    (resolveFirst o (List.replicate n .other ++ a.inC o :: rest)).map (passed o) =
      some (a.inC o) ↔ a.Safe o := by
  rw [resolveFirst_inC, Option.map_some, Option.some_inj, passed_eq_iff]

def localhost : SocketAddr := .v4 ⟨#v[127, 0, 0, 1], 80⟩

theorem localhost_turned : ¬ ∀ (o : ByteOrder) (n : Nat) (a : SocketAddr) (rest : List Sockaddr),
    (resolveFirst o (List.replicate n .other ++ a.inC o :: rest)).map (passed o) =
      some (a.inC o) := by
  intro h
  have hbad := h .little 0 localhost []
  rw [resolveFirst_inC, Option.map_some, Option.some_inj, passed_eq_iff] at hbad
  rcases hbad with hbig | hsame
  · cases hbig
  · have hlist := congrArg Vector.toList hsame
    rw [Vector.toList_reverse] at hlist
    exact absurd hlist (by decide)

end Misc.Tcpproxy
