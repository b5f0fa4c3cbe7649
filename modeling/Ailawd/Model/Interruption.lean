import Ailawd.Model.HttpServer

/-!
# Handlers that are interrupted

In `Server` a completion handler is one step. `stats_` has no lock, and the co_worker thread
may write it at any moment, so a handler is split here before each of its accesses to it, and
between the test of `do_read_head` or `do_read_body` and the read that follows it: `Rest` is
what is left of a handler, and each entry function is the source's handler up to the first
access. `start()` in the accept handler is split in the same way. `Threads` is the server with
the handlers that are under way.

The first of the outstanding operations is the completed one while its handler runs: the
handler object keeps its reference until the handler returns.
-/

namespace Ailawd

open ByteString HttpProto Transition

/-- What is left of a handler. It tells all that the rest depends on, apart
from the object itself. -/
inductive Rest where
  /-- `write_return:`, before the test in `do_write()` -/
  | write
  /-- before `start()` sets the status -/
  | start
  /-- in `start()`, before the test in `do_read_head()` -/
  | readHead
  /-- before the test in `do_read_body()` -/
  | readBody
  /-- in `do_read_head()`, after the test and before `async_read_until` -/
  | armHead
  /-- in `do_read_body()`, after the test and before `async_read` -/
  | armBody
  /-- in `write_handler`, before the test in `do_write()` -/
  | writeMore
  /-- before `notify_conn_error()` -/
  | fail
  /-- nothing but the return -/
  | done
  deriving DecidableEq, Repr

namespace Handling

/-- The test in `do_read_head()` and `do_read_body()`, up to the call that
starts the read. The status may change before that call. -/
def testStats (env : Env) (arm : Rest) (h : Handling) : Handling × Rest :=
  if h.conn.stats ≠ .working then (h, .done) else (h.touchSockTime env, arm)

/-- The error branch the three completion handlers share, up to the report,
which writes the status. -/
def socketErrorEntry (h : Handling) : Except Fault (Handling × Rest) :=
  match h.withSocket .shutdown with
  | .error e => .error e
  | .ok h => match h.withSocket .cancel with
    | .error e => .error e
    | .ok h => .ok (h, .fail)

def readBodyEntry (env : Env) (ec : ErrorCode) (bytesTransferred : Nat) (h : Handling) :
    Except Fault (Handling × Rest) :=
  if ec = .success ∧ bytesTransferred ≠ 0 then
    let h := { h with conn := { h.conn with rSize := h.conn.rSize + bytesTransferred } }
    if h.conn.rSize < h.conn.parser.contentLength then .ok (h, .readBody)
    else if h.conn.parser.hasUri "/analyse" then
      match h.analyseHandler env with
      | .error e => .error e
      | .ok (true, h) => .ok (h, .write)
      | .ok (false, h) => .ok (h.fillForHttp env contentError Status.internalServerError, .write)
    else .ok (h.fillForHttp env contentNotFound Status.notFound, .write)
  else if ec ≠ .operationAborted then h.socketErrorEntry
  else .ok (h.fillForHttp env contentError Status.internalServerError, .write)

def receiveBodyEntry (env : Env) (h : Handling) : Except Fault (Handling × Rest) :=
  let len := h.conn.parser.contentLength
  let h := { h with conn := { h.conn with rSize := 0 } }
  let additionalSize := h.conn.request.length
  if ¬ additionalSize ≤ len then .error .additionalSize
  else match h.growBuffer len with
    | .error e => .error e
    | .ok h => match h.takeAdditional with
      | .error e => .error e
      | .ok h =>
        if additionalSize < len then
          .ok ({ h with conn := { h.conn with rSize := additionalSize } }, .readBody)
        else h.readBodyEntry env .success additionalSize

/-- `error_return:` of `read_head_handler`, up to the
`goto` to `write_return`. -/
def dropAndFill (env : Env) (h : Handling) : Handling :=
  let h := h.fillForHttp env contentError Status.internalServerError
  { h with conn := { h.conn with request := [], rSize := 0 } }

def readHeadEntry (env : Env) (ec : ErrorCode) (bytesTransferred : Nat) (h : Handling) :
    Except Fault (Handling × Rest) :=
  if ec = .success ∧ bytesTransferred ≠ 0 then
    let headStr := h.conn.request
    match h.conn.parser.parseRequest headStr with
    | (parsed, parser) =>
      let h := Handling.emit { h with conn := { h.conn with
        request := headStr.drop bytesTransferred, parser := parser } } (.parse headStr)
      if !parsed then .ok (h.dropAndFill env, .write)
      else if !parser.isPost then
        .ok (h.fillForHttp env contentBadRequest Status.badRequest, .write)
      else if parser.acceptsUri then h.receiveBodyEntry env
      else .ok (h.fillForHttp env contentNotFound Status.notFound, .write)
  else if ec ≠ .operationAborted then h.socketErrorEntry
  else .ok (h.dropAndFill env, .write)

def writeEntry (ec : ErrorCode) (bytesTransferred : Nat) (h : Handling) :
    Except Fault (Handling × Rest) :=
  if ec = .success ∧ bytesTransferred ≠ 0 then
    let h := { h with conn := { h.conn with wPos := h.conn.wPos + bytesTransferred } }
    if h.conn.wPos < h.conn.wSize then .ok (h, .writeMore)
    else .ok ({ h with conn := { h.conn with wPos := 0, wSize := 0 } }, .done)
  else if ec ≠ .operationAborted then h.socketErrorEntry
  else .ok (h, .done)

end Handling

/-- One access to the status and what follows up to the next one, or the start
of a read. What it does not mention is as the other threads have left it. -/
def Rest.step (env : Env) (h : Handling) : Rest → Except Fault (Handling × Rest)
  | .write => (h.doWrite env).map (·, .start)
  | .start =>
    let h := h.setStats .working
    .ok ({ h with conn := { h.conn with rSize := 0, wSize := 0, wPos := 0 } }, .readHead)
  | .readHead => .ok (h.testStats env .armHead)
  | .readBody => .ok (h.testStats env .armBody)
  | .armHead => (h.withSocket .asyncReadUntil).map (·, .done)
  | .armBody => (h.withSocket (.asyncRead h.conn.rSize
      (sizeSub h.conn.parser.contentLength h.conn.rSize))).map (·, .done)
  | .writeMore => (h.doWrite env).map (·, .done)
  | .fail => .ok (h.notifyConnError, .done)
  | .done => .ok (h, .done)

/-- The handler of a completed operation, up to its first access to the status.
Nothing in this part depends on the status. -/
def OpKind.enter (kind : OpKind) (c : FrontConn) (ec : ErrorCode) (data : ByteString)
    (env : Env) : Except (Stop Fault) (Handling × Rest) :=
  match kind with
  | .readHead =>
    let c' := { c with request := c.request ++ data }
    if ec = .success then
      if (find crlf2 c.request).isSome ∧ data ≠ [] then .error .disabled
      else match find crlf2 c'.request with
        | none => .error .disabled
        | some i => (Handling.readHeadEntry env ec (i + 4) ⟨c', []⟩).mapError .fault
    else (Handling.readHeadEntry env ec 0 ⟨c', []⟩).mapError .fault
  | .readBody offset len =>
    if data.length > len ∨ (ec = .success ∧ data.length ≠ len) then .error .disabled
    else if offset + data.length > c.pBuffer.size then .error (.fault .outOfBounds)
    else
      (Handling.readBodyEntry env ec data.length
        ⟨{ c with pBuffer := c.pBuffer.write offset data }, []⟩).mapError .fault
  | .write w =>
    if data ≠ [] ∨ (ec = .success ∧ w.wire.length ≠ w.len) then .error .disabled
    else (Handling.writeEntry ec w.wire.length ⟨c, []⟩).mapError .fault

/-- Where `start()` of the accept handler is: before it sets the status, before
the test in `do_read_head()`, or between that test and the read. -/
inductive Starting where
  | begins
  | tests
  | arms
  deriving DecidableEq, Repr

def Starting.rest : Starting → Rest
  | .begins => .start
  | .tests => .readHead
  | .arms => .armHead

/-- The server with the handlers that are under way. The environment of a
handler is fixed when it is entered, apart from the clock. -/
structure Threads where
  server : Server
  running : ConnId → Option (Env × Rest)
  starting : Starting

inductive Turn where
  /-- A step of the server that does not access the status from a handler. -/
  | other (l : Label)
  /-- Operation `i` completes. -/
  | enter (c : ConnId) (i : Nat) (ec : ErrorCode) (data : ByteString) (env : Env)
  | resume (c : ConnId)
  | send (c : ConnId) (i n : Nat)
  | start

/-- The steps of `Server` that are not split: all but the handlers of
operations and `start()` in the accept handler. -/
def Server.unsplit (s : Server) : Label → Bool
  | .io _ _ => false
  | .accept => match s.accept with
    | .inserted _ => false
    | _ => true
  | _ => true

namespace Threads

def setConn (s : Threads) (c : ConnId) (x : Session) : Threads :=
  { s with server := s.server.setConn c x }

def setRunning (s : Threads) (c : ConnId) (r : Option (Env × Rest)) : Threads :=
  { s with running := Function.update s.running c r }

def enterStep (s : Threads) (c : ConnId) (i : Nat) (ec : ErrorCode) (data : ByteString)
    (env : Env) : Except (Stop Fault) Threads :=
  let x := s.server.conns c
  if (s.running c).isSome ∨ c ∈ s.server.pushing ∪ s.server.notifying then .error .disabled
  else match x.ops[i]? with
    | none => .error .disabled
    | some op =>
      if ec = .operationAborted ∧ op.cancelled = false then .error .disabled
      else match op.kind.enter x.conn ec data { env with now := s.server.now } with
        | .error e => .error e
        | .ok (h, rest) =>
          let x := Session.performAll ⟨h.conn, op :: x.ops.eraseIdx i, x.trace⟩ h.effects
          .ok ((s.setConn c x).setRunning c (some (env, rest)))

/-- `push_to_remove` takes over the reference of the handler. Before that, the
completed operation stands for it. -/
def resumeStep (s : Threads) (c : ConnId) : Except (Stop Fault) Threads :=
  let x := s.server.conns c
  match s.running c with
  | none => .error .disabled
  | some (_, .done) => .ok ((s.setConn c { x with ops := x.ops.tail }).setRunning c none)
  | some (env, rest) =>
    match rest.step { env with now := s.server.now } ⟨x.conn, []⟩ with
    | .error e => .error (.fault e)
    | .ok (h, rest') =>
      let x := Session.performAll { x with conn := h.conn } h.effects
      if .pushToRemove ∈ h.effects then
        let server := s.server.setConn c { x with ops := x.ops.tail }
        .ok ({ s with server := { server with pushing := insert c server.pushing } }.setRunning c
          none)
      else .ok ((s.setConn c x).setRunning c (some (env, rest')))

/-- A write puts more bytes on the wire; a completed one, whose
handler runs, does not. -/
def sendStep (s : Threads) (c : ConnId) (i n : Nat) : Except (Stop Fault) Threads :=
  if (s.running c).isSome ∧ i = 0 then .error .disabled
  else match (s.server.conns c).react (.send i n) with
    | .error stop => .error stop
    | .ok (x, _) => .ok (s.setConn c x)

/-- `start()` in the accept handler. Unlike the handlers it is not called
through the strand, but no handler can run before its read. -/
def startStep (s : Threads) : Except (Stop Fault) Threads :=
  match s.server.accept with
  | .inserted c =>
    let x := s.server.conns c
    match s.starting.rest.step (.refusing s.server.now) ⟨x.conn, []⟩ with
    | .error e => .error (.fault e)
    | .ok (h, rest) =>
      let server := s.server.setConn c (Session.performAll { x with conn := h.conn } h.effects)
      match rest with
      | .readHead => .ok { s with server := server, starting := .tests }
      | .armHead => .ok { s with server := server, starting := .arms }
      | _ => .ok { s with server := { server with accept := .started c }, starting := .begins }
  | _ => .error .disabled

def step (cfg : Config) (s : Threads) : Turn → Except (Stop Fault) Threads
  | .other l =>
    if s.server.unsplit l then (s.server.step cfg l).map fun server => { s with server := server }
    else .error .disabled
  | .enter c i ec data env => s.enterStep c i ec data env
  | .resume c => s.resumeStep c
  | .send c i n => s.sendStep c i n
  | .start => s.startStep

def init : Threads := ⟨Server.init, fun _ => none, .begins⟩

end Threads

end Ailawd
