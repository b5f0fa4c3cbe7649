import Ailawd.Library.Run
import Ailawd.Model.Connection
import Mathlib.Logic.Function.Basic

/-!
# Timed socket operations

`sync_timed_connect`, `sync_timed_read_from` and `sync_timed_read_some` guard one blocking call
on the caller's socket with a timer on their own stack. The three differ in the call only.
When the timer expires, its handler is queued on the `io_service` of the co_worker, whose thread
runs `timed_cancel_socket`; this takes pointers to the timer and to the socket.

A timer's wait ends once: with success when it expires, or with `operation_aborted` when it is
cancelled or destroyed before. A handler that has been queued stays queued. The clock counts
microseconds and may be set to any value.
-/

namespace Ailawd

open Transition

abbrev CallId := Nat

/-- The call that the timer guards. What it computes is modelled elsewhere. -/
inductive Guarded where
  /-- `sock.connect(ep, ec)` -/
  | connect
  /-- `sync_read_from(sock, read_buff, ec)` -/
  | readFrom
  /-- `sync_read_some(sock, read_buff, ec)` -/
  | readSome
  deriving DecidableEq, Repr

/-- Where a timed operation is. Between any two of these
points the timer may fire. -/
inductive CallPc where
  | guarded
  /-- before the test `timer.expires_at() > now()` -/
  | returned
  /-- before `timer.cancel()` -/
  | passed
  /-- before the destructor of the timer -/
  | leaving
  /-- before the return to the caller -/
  | unwound
  | finished
  deriving DecidableEq, Repr

structure TimedCall where
  kind : Guarded
  sock : SockId
  /-- Without a timer when `time_ms` is zero. -/
  expiresAt : Option Nat
  /-- The wait has not ended. -/
  waiting : Bool
  pc : CallPc
  /-- `ret` and `ec`, unless the guarded call threw. -/
  result : Option (Nat × ErrorCode)
  deriving DecidableEq, Repr

/-- A socket object of a caller. A late handler may still refer to one
that has been destroyed. -/
inductive SockState where
  | unborn
  | usable
  | shut
  | destroyed
  deriving DecidableEq, Repr

structure TimedOps where
  now : Nat
  calls : CallId → TimedCall
  nextCall : CallId
  socks : SockId → SockState
  nextSock : SockId
  /-- The handlers that the co_worker thread has still to run. -/
  queue : List (CallId × ErrorCode)
  /-- A handler that has found no `operation_aborted` and is about to call `shutdown`. -/
  cancelling : Option CallId

inductive TimedLabel where
  | clock (now : Nat)
  /-- A caller constructs a socket. -/
  | open
  | call (kind : Guarded) (sock : SockId) (timeMs : Nat)
  | expire (c : CallId)
  /-- The guarded call returns, or throws. -/
  | returns (c : CallId) (result : Option (Nat × ErrorCode))
  | test (c : CallId)
  | cancel (c : CallId)
  | destroyTimer (c : CallId)
  | finish (c : CallId)
  | destroySocket (sock : SockId)
  /-- The co_worker thread takes the next handler, or goes on with one. -/
  | worker

namespace TimedOps

def setCall (s : TimedOps) (c : CallId) (call : TimedCall) : TimedOps :=
  { s with calls := Function.update s.calls c call }

def goto (s : TimedOps) (c : CallId) (pc : CallPc) : TimedOps :=
  s.setCall c { s.calls c with pc := pc }

/-- The wait of a timer ends, if it has not ended before. Its handler is then
queued with this error code. -/
def endWait (s : TimedOps) (c : CallId) (ec : ErrorCode) : TimedOps :=
  if (s.calls c).waiting then
    { s.setCall c { s.calls c with waiting := false } with queue := s.queue ++ [(c, ec)] }
  else s

/-- A socket belongs to one caller, which makes one call at a time. -/
def Unused (s : TimedOps) (sock : SockId) : Prop :=
  (s.socks sock = .usable ∨ s.socks sock = .shut) ∧
    ∀ c < s.nextCall, (s.calls c).sock = sock → (s.calls c).pc = .finished

instance (s : TimedOps) (sock : SockId) : Decidable (s.Unused sock) :=
  inferInstanceAs (Decidable (_ ∧ _))

/-- The three timed operations up to their guarded call: a timer, if there is
one, is set and waited for before the call. -/
def callStep (s : TimedOps) (kind : Guarded) (sock : SockId) (timeMs : Nat) :
    Except (Stop Fault) TimedOps :=
  if ¬ s.Unused sock then .error .disabled
  else
    let expiresAt := if timeMs = 0 then none else some (s.now + 1000 * timeMs)
    .ok { s.setCall s.nextCall ⟨kind, sock, expiresAt, decide (timeMs ≠ 0), .guarded, none⟩ with
      nextCall := s.nextCall + 1 }

/-- Without a timer the operation is its guarded call. An exception
skips the test of the time. -/
def returnsStep (s : TimedOps) (c : CallId) (result : Option (Nat × ErrorCode)) :
    Except (Stop Fault) TimedOps :=
  let call := s.calls c
  if call.pc ≠ .guarded ∨ (result = none ∧ call.kind ≠ .readFrom) then .error .disabled
  else
    let pc := match call.expiresAt, result with
      | none, _ => .finished
      | some _, none => .leaving
      | some _, some _ => .returned
    .ok (s.setCall c { call with pc := pc, result := result })

def testStep (s : TimedOps) (c : CallId) : Except (Stop Fault) TimedOps :=
  match (s.calls c).pc, (s.calls c).expiresAt with
  | .returned, some expiresAt =>
    if expiresAt > s.now then .ok (s.goto c .passed) else .ok (s.goto c .leaving)
  | _, _ => .error .disabled

/-- `timed_cancel_socket`, up to the call of `shutdown` and from there. The
handler holds a reference to the socket, and nothing keeps that alive. -/
def workerStep (s : TimedOps) : Except (Stop Fault) TimedOps :=
  match s.cancelling with
  | some c =>
    match s.socks (s.calls c).sock with
    | .destroyed => .error (.fault .useAfterFree)
    | _ => .ok { s with
        socks := Function.update s.socks (s.calls c).sock .shut, cancelling := none }
  | none =>
    match s.queue with
    | [] => .error .disabled
    | (c, ec) :: queue =>
      if ec = .operationAborted then .ok { s with queue := queue }
      else .ok { s with queue := queue, cancelling := some c }

def step (s : TimedOps) : TimedLabel → Except (Stop Fault) TimedOps
  | .clock now => .ok { s with now := now }
  | .open =>
    .ok { s with
      socks := Function.update s.socks s.nextSock .usable, nextSock := s.nextSock + 1 }
  | .call kind sock timeMs => s.callStep kind sock timeMs
  | .expire c =>
    match (s.calls c).expiresAt with
    | some expiresAt =>
      if (s.calls c).waiting ∧ expiresAt ≤ s.now then .ok (s.endWait c .success)
      else .error .disabled
    | none => .error .disabled
  | .returns c result => s.returnsStep c result
  | .test c => s.testStep c
  | .cancel c =>
    if (s.calls c).pc = .passed then .ok ((s.endWait c .operationAborted).goto c .leaving)
    else .error .disabled
  | .destroyTimer c =>
    if (s.calls c).pc = .leaving then .ok ((s.endWait c .operationAborted).goto c .unwound)
    else .error .disabled
  | .finish c =>
    if (s.calls c).pc = .unwound then .ok (s.goto c .finished) else .error .disabled
  | .destroySocket sock =>
    if s.Unused sock then .ok { s with socks := Function.update s.socks sock .destroyed }
    else .error .disabled
  | .worker => s.workerStep

def init : TimedOps where
  now := 0
  calls := fun _ => ⟨.connect, 0, none, false, .finished, none⟩
  nextCall := 0
  socks := fun _ => .unborn
  nextSock := 0
  queue := []
  cancelling := none

end TimedOps

end Ailawd
