import Ailawd.Library.CharVec
import Ailawd.Model.HttpParser
import Ailawd.Model.Reply

/-!
# Connections and the effects of their handlers

`FrontConn` has the fields that `front_conn` and its base class share across
handlers. A handler is a pure function on a `Handling`: the object together with
what the handler has asked the outside for, in order. Starting an asynchronous
operation, using the socket, telling the manage thread, and the calls that the
properties speak about (`parse_request`, `analyse_handler`, `fill_for_http`) are
such effects; the code that runs the handler interprets them.

`Env` is what the outside answers while one handler runs.
-/

namespace Ailawd

open ByteString

/-- `enum connection_stats`. An object is pending while it is new or in the
cache, and in error once it has been given up. -/
inductive ConnectionStats where
  | working
  | pending
  | error
  deriving DecidableEq, Repr

/-- Sockets are told apart by a number; a number is never used twice. -/
abbrev SockId := Nat

/-- `boost::system::error_code`, as far as the handlers look at it: they tell
an abort from every other failure. -/
inductive ErrorCode where
  | success
  | operationAborted
  | other
  deriving DecidableEq, Repr

/-- What a handler does besides changing its own object, in the
order in which it does it. -/
inductive Effect where
  | setTcpNodelay
  | asyncReadUntil
  | asyncRead (offset len : Nat)
  | asyncWrite (offset len : Nat)
  | shutdown
  | cancel
  | pushToRemove
  | notifyOne
  | parse (text : ByteString)
  | analyse (body : ByteString)
  | fill (reply : ByteString)
  deriving DecidableEq, Repr

structure FrontConn where
  pSock : Option SockId
  rSize : Nat
  wSize : Nat
  wPos : Nat
  pBuffer : CharVec
  pWrite : CharVec
  stats : ConnectionStats
  touchTime : Nat
  request : ByteString
  parser : HttpParser

/-- The clock, the reply's date text and `analyse_handler`'s work on a body: a
text to send, a failure, or a fault. -/
structure Env where
  now : Nat
  date : ByteString
  analyse : ByteString → Except Fault (Option ByteString)

/-- An environment with a fixed clock in which every analysis fails, for runs
in which nothing is analysed. -/
def Env.refusing (now : Nat) : Env := ⟨now, ofString "2017-Jan-01 00:00:00", fun _ => .ok none⟩

/-- An object in the middle of a handler, with the effects so far. The
statements of a handler are functions from one to the next. -/
structure Handling where
  conn : FrontConn
  effects : List Effect

namespace Handling

def emit (h : Handling) (e : Effect) : Handling := { h with effects := h.effects ++ [e] }

def setStats (h : Handling) (stats : ConnectionStats) : Handling :=
  { h with conn := { h.conn with stats := stats } }

def touchSockTime (h : Handling) (env : Env) : Handling :=
  { h with conn := { h.conn with touchTime := env.now } }

/-- A use of `p_sock_->`, which is the null pointer in an
object that has been washed. -/
def withSocket (h : Handling) (e : Effect) : Except Fault Handling :=
  match h.conn.pSock with
  | none => .error .nullSocket
  | some _ => .ok (h.emit e)

/-- `fill_for_http(content, status)`: encode, grow `p_write_` if the text and
its final NUL do not fit, and copy both. -/
def fillForHttp (env : Env) (content status : ByteString) (h : Handling) : Handling :=
  let enc := Reply.replyGenerate env.date content status
  let pWrite := if enc.length + 1 > h.conn.pWrite.size then h.conn.pWrite.resize (enc.length + 1)
    else h.conn.pWrite
  { conn := { h.conn with
      pWrite := pWrite.write 0 (enc ++ [0]), wSize := enc.length, wPos := 0 },
    effects := h.effects ++ [.fill enc] }

/-- `fill_for_http(data, len, status)`. The length goes into the header only;
the content is appended as a C string. -/
def fillForHttpData (env : Env) (data : ByteString) (len : Nat) (status : ByteString)
    (h : Handling) : Except Fault Handling :=
  if len = 0 then .error .fillLength
  else match Reply.replyGenerateData env.date data len status with
    | .error e => .error e
    | .ok enc =>
      let pWrite :=
        if enc.length + 1 > h.conn.pWrite.size then h.conn.pWrite.resize (enc.length + 1)
        else h.conn.pWrite
      .ok { conn := { h.conn with
              pWrite := pWrite.write 0 (enc ++ [0]), wSize := enc.length, wPos := 0 },
            effects := h.effects ++ [.fill enc] }

end Handling

end Ailawd
