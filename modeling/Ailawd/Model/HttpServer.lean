import Ailawd.Library.Wheel
import Ailawd.Model.Session
import Mathlib.Data.Finset.Card

/-!
# The server and its threads

`Server` holds the connections and the containers that `http_server` shares between
its threads, with a program counter for each of them: the accept handler (one accept
is outstanding at a time), `timing_wheel_check` on the co_worker thread, and the
manage thread. A step is what one thread does between two points at which another
may observe it. A critical section is one step, except that the manage thread holds
both mutexes over a whole pass while the other threads read objects without any; a
step that needs a mutex is disabled while the manage thread has it.

A completion handler is one step up to `push_to_remove`; until it has taken
`conn_notify_mutex` and called `notify_one` it keeps its reference, and its strand
runs no other handler. Sets are visited in the order of the addresses of their
elements, which a label chooses. An object lives as long as `useCount` is positive.

Two labels only end the process: a call that throws inside a handler, and a search of
`cached_conns_` by the tick, which takes no lock, that misses its object while another
thread changes the vector.
-/

namespace Ailawd

open Transition ByteString

/-- Connections are told apart by a number; a number is never used twice. -/
abbrev ConnId := Nat

/-- What is fixed before `run()`.
`set_conn_expired_time` refuses less than 11. -/
structure Config where
  maxServe : Nat
  expiredTime : Nat
  maxServe_lt : maxServe < sizeMod
  expiredTime_gt : 10 < expiredTime

/-- `get_conn_check_spare()`: the tenth of the expiry time that passes between
two checks, one for each slot of the wheel. -/
def Config.checkSpare (cfg : Config) : Nat := cfg.expiredTime / 10

inductive AcceptPc where
  | listening
  /-- The limit test has passed. -/
  | tested (sock : SockId)
  /-- The critical section is over. -/
  | inserted (c : ConnId)
  /-- `start()` has returned. -/
  | started (c : ConnId)
  /-- An error code ended the handler without another `do_accept()`. -/
  | stopped
  deriving DecidableEq, Repr

/-- The connection that `new_c` refers to, and that the
accept handler keeps alive. -/
def AcceptPc.conn : AcceptPc → Option ConnId
  | .inserted c => some c
  | .started c => some c
  | _ => none

/-- Where `timing_wheel_check` is with an entry that it has locked. Only the
insertion of a removal takes a mutex; the other steps go on while handlers
run. -/
inductive TickStage where
  | locked
  | sawPending
  | sawOther
  | expired
  | shut
  | marked
  | release
  deriving DecidableEq, Repr

/-- `front_modi`, the entries still to visit, and `notify_flag`. -/
structure TickBatch where
  modi : Finset ConnId
  rest : Finset ConnId
  notify : Bool
  deriving DecidableEq

def TickBatch.eraseModi (b : TickBatch) (c : ConnId) : TickBatch :=
  { b with modi := b.modi.erase c }

inductive TickPc where
  | idle
  | scan (b : TickBatch)
  | exam (c : ConnId) (stage : TickStage) (b : TickBatch)
  | finishing (modi : Finset ConnId)
  deriving DecidableEq

/-- The connection that the entry was locked to, and
that the tick keeps alive. -/
def TickPc.conn : TickPc → Option ConnId
  | .exam c _ _ => some c
  | _ => none

/-- Where a pass of the manage thread is with its current item. It holds both
mutexes at all of them. -/
inductive PassStage where
  | picked
  | tested
  | erased
  | counted
  | room
  | washed
  deriving DecidableEq, Repr

inductive ManagePc where
  | outside
  | waiting
  | woken
  | timedOut
  | showing
  | scan (todo : Finset ConnId)
  | item (c : ConnId) (stage : PassStage) (todo : Finset ConnId)
  deriving DecidableEq

namespace ManagePc

/-- The connection that `item` refers to, and that the pass keeps alive. -/
def conn : ManagePc → Option ConnId
  | .item c _ _ => some c
  | _ => none

/-- Whether the thread holds `conn_notify_mutex` and `front_conns_mutex_`, as
it does while it prints and during a pass. -/
def locked : ManagePc → Bool
  | .showing => true
  | .scan _ => true
  | .item _ _ _ => true
  | _ => false

/-- `conn_notify.notify_one()` has no effect without a waiter: nothing is
remembered for a later wait. -/
def notified : ManagePc → ManagePc
  | .waiting => .woken
  | m => m

end ManagePc

structure Server where
  conns : ConnId → Session
  frontConns : Finset ConnId
  currentConnsCnt : Nat
  pendingToRemove : Finset ConnId
  timingWheel : List (Finset ConnId)
  cachedConns : List ConnId
  /-- Handlers inside `push_to_remove`. -/
  pushing : Finset ConnId
  /-- Handlers between `push_to_remove` and `notify_one`. -/
  notifying : Finset ConnId
  accept : AcceptPc
  tick : TickPc
  manage : ManagePc
  now : Nat
  nextConn : ConnId
  nextSock : SockId

/-- How an asynchronous accept completes. `vanished` is a peer that is gone
when `remote_endpoint()` is called, which throws. -/
inductive AcceptResult where
  | error
  | vanished
  | peer
  deriving DecidableEq, Repr

/-- The calls of the handlers that throw when the operating system refuses
them, apart from `remote_endpoint()`. -/
inductive ThrowingCall where
  /-- `close()` on the socket of a client above the limit -/
  | close
  /-- `set_option` and `get_option` in the constructor of `front_conn` -/
  | option
  /-- `cancel()` in the error branch that a completion takes -/
  | cancel (c : ConnId) (e : Event)

inductive Label where
  | clock (now : Nat)
  | accepted (r : AcceptResult)
  | accept
  | io (c : ConnId) (e : Event)
  | handler (c : ConnId)
  | tick (c : ConnId)
  | wake
  | timeout
  | manage (c : ConnId)
  /-- The call throws where the step it belongs to would have gone on. -/
  | throws (call : ThrowingCall)
  /-- The unlocked `std::find` of the tick misses a cached object, because another thread
  changes `cached_conns_` under it. -/
  | overlook

/-- A handler reads the clock of the server, whatever time the event says. -/
def Event.at (now : Nat) : Event → Event
  | .complete i ec data env => .complete i ec data { env with now := now }
  | .send i n => .send i n

namespace Server

def setConn (s : Server) (c : ConnId) (x : Session) : Server :=
  { s with conns := Function.update s.conns c x }

/-- The number of `shared_ptr`s to a connection: in the containers, in the
handlers of outstanding operations, in running handlers, and in local
variables. -/
def useCount (s : Server) (c : ConnId) : Nat :=
  (if c ∈ s.frontConns then 1 else 0) + (if c ∈ s.pendingToRemove then 1 else 0) +
    s.cachedConns.count c + (s.conns c).ops.length +
    (if c ∈ s.pushing ∪ s.notifying then 1 else 0) +
    (if s.accept.conn = some c then 1 else 0) + (if s.tick.conn = some c then 1 else 0) +
    (if s.manage.conn = some c then 1 else 0)

def acceptedStep (cfg : Config) (s : Server) (r : AcceptResult) : Except (Stop Fault) Server :=
  match s.accept with
  | .listening => match r with
    | .error => .ok { s with accept := .stopped }
    | .vanished => .error (.fault .exception)
    | .peer =>
      if s.currentConnsCnt ≥ cfg.maxServe then .ok { s with nextSock := s.nextSock + 1 }
      else .ok { s with accept := .tested s.nextSock, nextSock := s.nextSock + 1 }
  | _ => .error .disabled

/-- The end of the critical section, for a new or a recycled object: it goes
into the map, is counted, and goes into the wheel. -/
def emplace (s : Server) (c : ConnId) (x : Session) : Server :=
  { s.setConn c x with
    frontConns := insert c s.frontConns
    currentConnsCnt := (s.currentConnsCnt + 1) % sizeMod
    timingWheel := Wheel.insertBack s.timingWheel c
    accept := .inserted c }

/-- A new object that has not been started. Its constructor has set
the socket option already. -/
def fresh (s : Server) (sock : SockId) : Session :=
  let h := FrontConn.make sock s.now
  Session.performAll ⟨h.conn, [], []⟩ h.effects

/-- A cached object on a new socket, as `conn_reset_network` leaves it: no
socket option is set here. -/
def recycled (s : Server) (c : ConnId) (sock : SockId) : Session :=
  { s.conns c with conn := (s.conns c).conn.connResetNetwork sock s.now }

def acceptStep (s : Server) : Except (Stop Fault) Server :=
  match s.accept with
  | .tested sock =>
    if s.manage.locked then .error .disabled
    else match s.cachedConns with
      | c :: cached =>
        if s.useCount c ≠ 1 then .error (.fault .cachedUseCount)
        else .ok (emplace { s with cachedConns := cached } c (s.recycled c sock))
      | [] => .ok (emplace { s with nextConn := s.nextConn + 1 } s.nextConn (s.fresh sock))
  | .inserted c =>
    -- `start()` asks the outside for nothing but the time
    match Handling.start (.refusing s.now) ⟨(s.conns c).conn, []⟩ with
    | .error e => .error (.fault e)
    | .ok h => .ok { s.setConn c (Session.performAll { s.conns c with conn := h.conn } h.effects)
        with accept := .started c }
  | .started _ => .ok { s with accept := .listening }
  | _ => .error .disabled

def ioStep (s : Server) (c : ConnId) (e : Event) : Except (Stop Fault) Server :=
  if c ∈ s.pushing ∪ s.notifying then .error .disabled
  else match (s.conns c).react (e.at s.now) with
    | .error stop => .error stop
    | .ok (x, effects) => .ok { s.setConn c x with
        pushing := if .pushToRemove ∈ effects then insert c s.pushing else s.pushing }

def handlerStep (s : Server) (c : ConnId) : Except (Stop Fault) Server :=
  if c ∈ s.pushing then
    if s.manage.locked then .error .disabled
    else .ok { s with pendingToRemove := insert c s.pendingToRemove
                      pushing := s.pushing.erase c
                      notifying := insert c s.notifying }
  else if c ∈ s.notifying then
    .ok { s with notifying := s.notifying.erase c, manage := s.manage.notified }
  else .error .disabled

/-- The expiry test. A connection that would expire before the next
check counts as expired. -/
def touchedOut (cfg : Config) (s : Server) (c : ConnId) : Prop :=
  (s.conns c).conn.touchTime + (cfg.expiredTime - cfg.checkSpare) ≤ s.now

instance (cfg : Config) (s : Server) (c : ConnId) : Decidable (s.touchedOut cfg c) :=
  inferInstanceAs (Decidable (_ ≤ _))

def examStep (cfg : Config) (s : Server) (c : ConnId) (stage : TickStage) (b : TickBatch) :
    Except (Stop Fault) Server :=
  match stage with
  | .locked =>
    if (s.conns c).conn.stats = .pending then .ok { s with tick := .exam c .sawPending b }
    else .ok { s with tick := .exam c .sawOther b }
  | .sawPending =>
    if c ∈ s.cachedConns then .ok { s with tick := .exam c .release (b.eraseModi c) }
    else .error (.fault .pendingNotCached)
  | .sawOther =>
    if s.touchedOut cfg c then .ok { s with tick := .exam c .expired (b.eraseModi c) }
    else .ok { s with tick := .exam c .release b }
  | .expired =>
    if (s.conns c).conn.pSock = none then .error (.fault .nullSocket)
    else .ok { s.setConn c ((s.conns c).perform .shutdown) with tick := .exam c .shut b }
  | .shut =>
    .ok { s.setConn c { s.conns c with conn := { (s.conns c).conn with stats := .error } } with
      tick := .exam c .marked b }
  | .marked =>
    if s.manage.locked then .error .disabled
    else .ok { s with pendingToRemove := insert c s.pendingToRemove
                      tick := .exam c .release { b with notify := true } }
  | .release => .ok { s with tick := .scan b }

def tickStep (cfg : Config) (s : Server) (c : ConnId) : Except (Stop Fault) Server :=
  match s.tick with
  | .idle => .ok { s with tick := .scan ⟨s.timingWheel.headD ∅, s.timingWheel.headD ∅, false⟩ }
  | .scan b =>
    if b.rest = ∅ then
      .ok { s with tick := .finishing b.modi
                   manage := if b.notify then s.manage.notified else s.manage }
    else if c ∉ b.rest then .error .disabled
    else if s.useCount c = 0 then
      .ok { s with tick := .scan ⟨b.modi.erase c, b.rest.erase c, b.notify⟩ }
    else .ok { s with tick := .exam c .locked ⟨b.modi, b.rest.erase c, b.notify⟩ }
  | .exam d stage b => s.examStep cfg d stage b
  | .finishing modi =>
    if s.manage.locked then .error .disabled
    else .ok { s with timingWheel := Wheel.rotate s.timingWheel modi, tick := .idle }

/-- Whether the cache takes another object; the source compares the size with a
`double`, before it appends. -/
def hasRoom (cfg : Config) (s : Server) : Prop := 10 * s.cachedConns.length < 3 * cfg.maxServe

instance (cfg : Config) (s : Server) : Decidable (s.hasRoom cfg) :=
  inferInstanceAs (Decidable (_ < _))

def passStep (cfg : Config) (s : Server) (c : ConnId) (stage : PassStage)
    (todo : Finset ConnId) : Except (Stop Fault) Server :=
  match stage with
  | .picked =>
    if c ∉ s.frontConns then .ok { s with manage := .scan todo }
    else if s.useCount c > 3 then
      .ok { s with timingWheel := Wheel.insertBack s.timingWheel c, manage := .scan todo }
    else .ok { s with manage := .item c .tested todo }
  | .tested =>
    .ok { s with frontConns := s.frontConns.erase c, manage := .item c .erased todo }
  | .erased =>
    .ok { s with currentConnsCnt := sizeSub s.currentConnsCnt 1, manage := .item c .counted todo }
  | .counted =>
    if s.hasRoom cfg then .ok { s with manage := .item c .room todo }
    else .ok { s with manage := .scan todo }
  | .room =>
    match (s.conns c).conn.connWashWhite with
    | .error e => .error (.fault e)
    | .ok conn => .ok { s.setConn c { s.conns c with conn := conn } with
        manage := .item c .washed todo }
  | .washed => .ok { s with cachedConns := s.cachedConns ++ [c], manage := .scan todo }

def manageStep (cfg : Config) (s : Server) (c : ConnId) : Except (Stop Fault) Server :=
  match s.manage with
  | .outside => .ok { s with manage := .waiting }
  | .waiting => .error .disabled
  | .woken =>
    if s.pendingToRemove = ∅ then .ok { s with manage := .outside }
    else .ok { s with manage := .scan s.pendingToRemove }
  | .timedOut => .ok { s with manage := .showing }
  | .showing => .ok { s with manage := .outside }
  | .scan todo =>
    if todo = ∅ then
      if s.frontConns.card = s.currentConnsCnt then
        .ok { s with pendingToRemove := ∅, manage := .outside }
      else .error (.fault .poolCount)
    else if c ∉ todo then .error .disabled
    else .ok { s with manage := .item c .picked (todo.erase c) }
  | .item d stage todo => s.passStep cfg d stage todo

/-- An exception leaves the handler, and with it the thread. Where the call is
not made there is no such step. -/
def throwStep (cfg : Config) (s : Server) : ThrowingCall → Except (Stop Fault) Server
  | .close =>
    if s.accept = .listening ∧ s.currentConnsCnt ≥ cfg.maxServe then .error (.fault .exception)
    else .error .disabled
  | .option => match s.accept with
    | .tested _ =>
      if s.manage.locked = false ∧ s.cachedConns = [] then .error (.fault .exception)
      else .error .disabled
    | _ => .error .disabled
  | .cancel c e =>
    if c ∈ s.pushing ∪ s.notifying then .error .disabled
    else match (s.conns c).react (e.at s.now) with
      | .error _ => .error .disabled
      | .ok (_, effects) =>
        if .cancel ∈ effects then .error (.fault .exception) else .error .disabled

/-- Whether the next step of another thread erases from `cached_conns_` or
appends to it; the search of the tick does not keep it from doing so. -/
def cacheChanging (s : Server) : Bool :=
  (match s.accept with
    | .tested _ => !s.manage.locked && !s.cachedConns.isEmpty
    | _ => false) ||
  match s.manage with
    | .item _ .washed _ => true
    | _ => false

def overlookStep (s : Server) : Except (Stop Fault) Server :=
  match s.tick with
  | .exam d .sawPending _ =>
    if d ∈ s.cachedConns ∧ s.cacheChanging = true then .error (.fault .pendingNotCached)
    else .error .disabled
  | _ => .error .disabled

def step (cfg : Config) (s : Server) : Label → Except (Stop Fault) Server
  | .clock now => .ok { s with now := now }
  | .accepted r => s.acceptedStep cfg r
  | .accept => s.acceptStep
  | .io c e => s.ioStep c e
  | .handler c => s.handlerStep c
  | .tick c => s.tickStep cfg c
  -- a wait may also end without a notification
  | .wake => if s.manage = .waiting then .ok { s with manage := .woken } else .error .disabled
  | .timeout =>
    if s.manage = .waiting then .ok { s with manage := .timedOut } else .error .disabled
  | .manage c => s.manageStep cfg c
  | .throws call => s.throwStep cfg call
  | .overlook => s.overlookStep

/-- After `run()` has filled the wheel with empty slots. The objects that do
not exist yet have no socket and no operations. -/
def init : Server where
  conns := fun _ => ⟨{ (FrontConn.make 0 0).conn with pSock := none }, [], []⟩
  frontConns := ∅
  currentConnsCnt := 0
  pendingToRemove := ∅
  timingWheel := List.replicate 10 ∅
  cachedConns := []
  pushing := ∅
  notifying := ∅
  accept := .listening
  tick := .idle
  manage := .outside
  now := 0
  nextConn := 0
  nextSock := 0

end Server

end Ailawd
