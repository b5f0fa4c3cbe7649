import Ailawd.Library.Run
import Ailawd.Model.FrontConn

/-!
# A connection with its outstanding operations

`Session` adds to the object the asynchronous operations that have been started
and have not completed. A completion removes one of them and runs its handler as
one atomic step. The composed operations behave as documented: a head read
completes once the delimiter is in `request_` and may leave any number of bytes
after it, a body read delivers exactly the range it was given, and a write sends
its range in any number of partial sends, each reading the buffer when it happens.
`cancel` makes every outstanding operation of the socket complete with
`operation_aborted`.

`trace` is a history variable: all effects of the connection's handlers, in order.
A write carries two more, the text that `fill_for_http` had encoded when the write
was issued and the bytes that have reached the wire.
-/

namespace Ailawd

open ByteString Transition

structure WriteOp where
  offset : Nat
  len : Nat
  storage : Nat
  reply : ByteString
  wire : ByteString
  deriving DecidableEq, Repr

inductive OpKind where
  | readHead
  | readBody (offset len : Nat)
  | write (w : WriteOp)
  deriving DecidableEq, Repr

/-- An outstanding operation, the socket it was started on and whether that
socket was cancelled since. Its handler holds a reference to the connection. -/
structure Op where
  kind : OpKind
  sock : SockId
  cancelled : Bool
  deriving DecidableEq, Repr

def Op.isRead (op : Op) : Bool :=
  match op.kind with
  | .write _ => false
  | _ => true

structure Session where
  conn : FrontConn
  ops : List Op
  trace : List Effect

inductive Event where
  /-- Operation `i` completes; `data` is what a read has received. -/
  | complete (i : Nat) (ec : ErrorCode) (data : ByteString) (env : Env)
  /-- Write `i` puts `n` more bytes on the wire. -/
  | send (i n : Nat)

/-- The text of the latest `fill_for_http`: what the bytes on
the wire are meant to be. -/
def lastFill (trace : List Effect) : ByteString :=
  trace.foldl (fun reply e => match e with
    | .fill enc => enc
    | _ => reply) []

namespace Session

/-- Carry out one effect of a handler. Operations are started on the socket
that the object has then, and `cancel` marks those of that socket. -/
def perform (x : Session) (e : Effect) : Session :=
  let ops := match x.conn.pSock with
    | none => x.ops
    | some sock => match e with
      | .asyncReadUntil => x.ops ++ [⟨.readHead, sock, false⟩]
      | .asyncRead offset len => x.ops ++ [⟨.readBody offset len, sock, false⟩]
      | .asyncWrite offset len =>
        x.ops ++ [⟨.write ⟨offset, len, x.conn.pWrite.storage, lastFill x.trace, []⟩, sock, false⟩]
      | .cancel => x.ops.map fun op =>
        if op.sock = sock then { op with cancelled := true } else op
      | _ => x.ops
  { x with ops := ops, trace := x.trace ++ [e] }

def performAll (x : Session) (effects : List Effect) : Session := effects.foldl perform x

end Session

/-- The handler call that completes an operation, with the bytes that the
kernel has put into the buffers. -/
def OpKind.deliver (kind : OpKind) (c : FrontConn) (ec : ErrorCode) (data : ByteString)
    (env : Env) : Except (Stop Fault) Handling :=
  match kind with
  | .readHead =>
    let c' := { c with request := c.request ++ data }
    if ec = .success then
      if (find crlf2 c.request).isSome ∧ data ≠ [] then .error .disabled
      else match find crlf2 c'.request with
        | none => .error .disabled
        | some i => (Handling.readHeadHandler env ec (i + 4) ⟨c', []⟩).mapError .fault
    else (Handling.readHeadHandler env ec 0 ⟨c', []⟩).mapError .fault
  | .readBody offset len =>
    if data.length > len ∨ (ec = .success ∧ data.length ≠ len) then .error .disabled
    else if offset + data.length > c.pBuffer.size then .error (.fault .outOfBounds)
    else
      (Handling.readBodyHandler env ec data.length
        ⟨{ c with pBuffer := c.pBuffer.write offset data }, []⟩).mapError .fault
  | .write w =>
    if data ≠ [] ∨ (ec = .success ∧ w.wire.length ≠ w.len) then .error .disabled
    else (Handling.writeHandler env ec w.wire.length ⟨c, []⟩).mapError .fault

namespace Session

/-- One event, with the effects of the handler it ran. The completed operation
is gone before the handler runs. -/
def react (x : Session) : Event → Except (Stop Fault) (Session × List Effect)
  | .complete i ec data env =>
    match x.ops[i]? with
    | none => .error .disabled
    | some op =>
      if ec = .operationAborted ∧ op.cancelled = false then .error .disabled
      else match op.kind.deliver x.conn ec data env with
        | .error e => .error e
        | .ok h =>
          .ok (performAll ⟨h.conn, x.ops.eraseIdx i, x.trace⟩ h.effects, h.effects)
  | .send i n =>
    match x.ops[i]? with
    | some ⟨.write w, sock, false⟩ =>
      if n = 0 ∨ w.wire.length + n > w.len then .error .disabled
      else if w.storage ≠ x.conn.pWrite.storage then .error (.fault .useAfterFree)
      else
        let wire := w.wire ++ x.conn.pWrite.slice (w.offset + w.wire.length) n
        .ok ({ x with ops := x.ops.set i ⟨.write { w with wire := wire }, sock, false⟩ }, [])
    | _ => .error .disabled

def step (x : Session) (e : Event) : Except (Stop Fault) Session := (x.react e).map Prod.fst

/-- A new object on a socket, and `start()`. The client of such a connection is
the first one of its object. -/
def started (pSock : SockId) (env : Env) : Except Fault Session :=
  ((FrontConn.make pSock env.now).start env).map fun h => performAll ⟨h.conn, [], []⟩ h.effects

end Session

/-- A connection right after `start()`: one head read is outstanding, and
everything the last client left has been reset. -/
structure Session.Started (x : Session) (sock : SockId) : Prop where
  pSock : x.conn.pSock = some sock
  stats : x.conn.stats = .working
  rSize : x.conn.rSize = 0
  wSize : x.conn.wSize = 0
  wPos : x.conn.wPos = 0
  ops : x.ops = [⟨.readHead, sock, false⟩]

end Ailawd
