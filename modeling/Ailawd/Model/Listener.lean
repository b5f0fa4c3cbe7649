import Ailawd.Model.Connection
import Ailawd.Library.Run

/-!
# The asynchronous accepts

The constructor of `http_server` starts one asynchronous accept. Each completion runs
`accept_handler` on one of the threads of the pool, and more than one may be running; an
`AcceptPoint` is where one of them is. What the calls of the handler do is an input: whether
the limit is found reached, and whether a call that can throw does. An exception that leaves
the handler leaves `io_service::run` too and ends the process.
-/

namespace Ailawd

open Transition

/-- The statements of `accept_handler`, as far as they can return early, throw
or go on to another accept. -/
inductive AcceptPoint where
  /-- `if (ec)` -/
  | entered (ec : ErrorCode)
  /-- the log line with `remote_endpoint()` -/
  | remoteEndpoint
  /-- `if (current_conns_cnt_ >= max_serve_conns_cnt_)` -/
  | limitTest
  /-- `shutdown` and `close` of a refused client -/
  | refuse
  /-- the critical section -/
  | emplace
  /-- `new_c->start()` -/
  | start
  /-- `do_accept()` -/
  | doAccept
  | leave
  deriving DecidableEq, Repr

/-- How a statement ends. Only the test of the limit has two ways to return. -/
inductive AcceptOutcome where
  | returns
  /-- The limit is reached. -/
  | full
  | throws
  deriving DecidableEq, Repr

/-- What follows a statement. An exception that leaves a
handler ends the process. -/
inductive AcceptNext where
  | goto (p : AcceptPoint)
  | acceptAgain
  | exit
  | terminate
  deriving DecidableEq, Repr

/-- `do_accept()` in both branches is the last call of the handler. The calls
that can throw are `remote_endpoint()`, `close()`, and in the constructor of
`front_conn` `set_option()`. -/
def AcceptPoint.next : AcceptPoint → AcceptOutcome → Option AcceptNext
  | .entered ec, .returns => if ec = .success then some (.goto .remoteEndpoint) else some .exit
  | .remoteEndpoint, .returns => some (.goto .limitTest)
  | .limitTest, .returns => some (.goto .emplace)
  | .limitTest, .full => some (.goto .refuse)
  | .refuse, .returns => some (.goto .doAccept)
  | .emplace, .returns => some (.goto .start)
  | .start, .returns => some (.goto .doAccept)
  | .doAccept, .returns => some .acceptAgain
  | .leave, .returns => some .exit
  | .remoteEndpoint, .throws => some .terminate
  | .refuse, .throws => some .terminate
  | .emplace, .throws => some .terminate
  | _, _ => none

structure Listener where
  /-- The accepts that have been started and have not completed. -/
  outstanding : Nat
  /-- The calls of `accept_handler` under way. -/
  handlers : List AcceptPoint
  deriving DecidableEq, Repr

inductive ListenerLabel where
  | complete (ec : ErrorCode)
  /-- One of the handlers goes on. -/
  | handler (i : Nat) (outcome : AcceptOutcome)
  deriving DecidableEq, Repr

namespace Listener

def step (s : Listener) : ListenerLabel → Except (Stop Fault) Listener
  | .complete ec =>
    match s.outstanding with
    | 0 => .error .disabled
    | n + 1 => .ok ⟨n, s.handlers ++ [.entered ec]⟩
  | .handler i outcome =>
    match s.handlers[i]? with
    | none => .error .disabled
    | some p =>
      match p.next outcome with
      | none => .error .disabled
      | some (.goto q) => .ok { s with handlers := s.handlers.set i q }
      | some .acceptAgain => .ok ⟨s.outstanding + 1, s.handlers.set i .leave⟩
      | some .exit => .ok { s with handlers := s.handlers.eraseIdx i }
      | some .terminate => .ok ⟨0, []⟩

/-- After the constructor of `http_server`: one accept is
outstanding and no handler runs. -/
def init : Listener := ⟨1, []⟩

end Listener

end Ailawd
