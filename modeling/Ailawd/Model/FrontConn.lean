import Ailawd.Model.Connection

/-!
# The handlers of a front connection

Each definition is one member function of `front_conn`, with the two `goto` labels
of the read handlers as `writeReturn` and `errorReturn`. The part of
`read_head_handler` that sizes the receive buffer and moves the bytes read past
the head is `receiveBody`. A function returns a fault where the source would abort,
throw or leave an object's bounds.
-/

namespace Ailawd

open ByteString HttpProto

namespace HttpParser

def isPost (p : HttpParser) : Bool :=
  iequals (p.requestOption HeaderOptions.requestMethod) (ofString "POST")

def hasUri (p : HttpParser) (uri : String) : Bool :=
  iequals (p.requestOption HeaderOptions.requestUri) (ofString uri)

/-- The URIs whose body `read_head_handler` reads; only the second
one of them is analysed. -/
def acceptsUri (p : HttpParser) : Bool :=
  p.hasUri "/ailaw" || p.hasUri "/analyse" || p.hasUri "/item"

end HttpParser

/-- Subtraction of `size_t` values, which wraps below zero. The
operands are below `2 ^ 64`. -/
def sizeSub (a b : Nat) : Nat := (a + sizeMod - b) % sizeMod

theorem sizeSub_of_le {a b : Nat} (h : b ≤ a) (ha : a < sizeMod) : sizeSub a b = a - b := by
  rw [sizeSub]
  rw [Nat.sub_add_comm h, Nat.add_mod_right, Nat.mod_eq_of_lt (by omega)]

namespace Handling

def doReadHead (env : Env) (h : Handling) : Except Fault Handling :=
  if h.conn.stats ≠ .working then .ok h
  else (h.touchSockTime env).withSocket .asyncReadUntil

def start (env : Env) (h : Handling) : Except Fault Handling :=
  let h := h.setStats .working
  doReadHead env { h with conn := { h.conn with rSize := 0, wSize := 0, wPos := 0 } }

def doReadBody (env : Env) (h : Handling) : Except Fault Handling :=
  if h.conn.stats ≠ .working then .ok h
  else (h.touchSockTime env).withSocket
    (.asyncRead h.conn.rSize (sizeSub h.conn.parser.contentLength h.conn.rSize))

def doWrite (env : Env) (h : Handling) : Except Fault Handling :=
  if h.conn.stats ≠ .working then .ok h
  else if h.conn.wSize = 0 then .error .writeSize
  else if ¬ h.conn.wPos < h.conn.wSize then .error .writePos
  else (h.touchSockTime env).withSocket
    (.asyncWrite h.conn.wPos (h.conn.wSize - h.conn.wPos))

def notifyConnError (h : Handling) : Handling :=
  { conn := { h.conn with rSize := 0, wSize := 0, stats := .error },
    effects := h.effects ++ [.pushToRemove, .notifyOne] }

/-- The error branch the three completion handlers share: shut the socket down,
cancel what is outstanding on it, and report. -/
def socketError (h : Handling) : Except Fault Handling :=
  match h.withSocket .shutdown with
  | .error e => .error e
  | .ok h => match h.withSocket .cancel with
    | .error e => .error e
    | .ok h => .ok h.notifyConnError

/-- `write_return:` answer and listen for the next request at once, while the
answer is still being written. -/
def writeReturn (env : Env) (h : Handling) : Except Fault Handling :=
  match h.doWrite env with
  | .error e => .error e
  | .ok h => h.start env

/-- `error_return:` of `read_body_handler`, also reached by a
read that has been aborted. -/
def errorReturn (env : Env) (h : Handling) : Except Fault Handling :=
  (h.fillForHttp env contentError Status.internalServerError).writeReturn env

/-- `error_return:` of `read_head_handler`, which also drops what
was read, whatever it was. -/
def errorReturnHead (env : Env) (h : Handling) : Except Fault Handling :=
  let h := h.fillForHttp env contentError Status.internalServerError
  writeReturn env { h with conn := { h.conn with request := [], rSize := 0 } }

/-- `analyse_handler` on the first `r_size_` bytes of `p_buffer_`. The answer
is already encoded when it returns true. -/
def analyseHandler (env : Env) (h : Handling) : Except Fault (Bool × Handling) :=
  if h.conn.pBuffer.size < h.conn.rSize then .error .outOfBounds
  else
    let body := h.conn.pBuffer.slice 0 h.conn.rSize
    match env.analyse body with
    | .error e => .error e
    | .ok none => .ok (false, h.emit (.analyse body))
    | .ok (some text) => .ok (true, (h.emit (.analyse body)).fillForHttp env text Status.ok)

def readBodyHandler (env : Env) (ec : ErrorCode) (bytesTransferred : Nat) (h : Handling) :
    Except Fault Handling :=
  if ec = .success ∧ bytesTransferred ≠ 0 then
    let h := { h with conn := { h.conn with rSize := h.conn.rSize + bytesTransferred } }
    if h.conn.rSize < h.conn.parser.contentLength then h.doReadBody env
    else if h.conn.parser.hasUri "/analyse" then
      match h.analyseHandler env with
      | .error e => .error e
      | .ok (true, h) => h.writeReturn env
      | .ok (false, h) => h.errorReturn env
    else (h.fillForHttp env contentNotFound Status.notFound).writeReturn env
  else if ec ≠ .operationAborted then h.socketError
  else h.errorReturn env

/-- Enlarge `p_buffer_` when `len + 1` exceeds it, both sums in `size_t`. A
size above the maximum throws. -/
def growBuffer (len : Nat) (h : Handling) : Except Fault Handling :=
  if (len + 1) % sizeMod > h.conn.pBuffer.size then
    if (len + 256) % sizeMod > vectorMaxSize then .error .lengthError
    else .ok { h with conn :=
      { h.conn with pBuffer := h.conn.pBuffer.resize ((len + 256) % sizeMod) } }
  else .ok h

/-- The `memcpy` of the bytes read past the head, with their final NUL. It is
skipped when there are none. -/
def takeAdditional (h : Handling) : Except Fault Handling :=
  if h.conn.request = [] then .ok h
  else if h.conn.request.length + 1 > h.conn.pBuffer.size then .error .outOfBounds
  else .ok { h with conn := { h.conn with
    pBuffer := h.conn.pBuffer.write 0 (h.conn.request ++ [0]), request := [] } }

/-- The branch of `read_head_handler` for an accepted request. With the body
complete it calls `read_body_handler` itself, as if a read had ended. -/
def receiveBody (env : Env) (h : Handling) : Except Fault Handling :=
  let len := h.conn.parser.contentLength
  let h := { h with conn := { h.conn with rSize := 0 } }
  let additionalSize := h.conn.request.length
  if ¬ additionalSize ≤ len then .error .additionalSize
  else match h.growBuffer len with
    | .error e => .error e
    | .ok h => match h.takeAdditional with
      | .error e => .error e
      | .ok h =>
        if additionalSize < len then
          doReadBody env { h with conn := { h.conn with rSize := additionalSize } }
        else h.readBodyHandler env .success additionalSize

def readHeadHandler (env : Env) (ec : ErrorCode) (bytesTransferred : Nat) (h : Handling) :
    Except Fault Handling :=
  if ec = .success ∧ bytesTransferred ≠ 0 then
    let headStr := h.conn.request
    match h.conn.parser.parseRequest headStr with
    | (parsed, parser) =>
      let h := Handling.emit { h with conn := { h.conn with
        request := headStr.drop bytesTransferred, parser := parser } } (.parse headStr)
      if !parsed then h.errorReturnHead env
      else if !parser.isPost then
        (h.fillForHttp env contentBadRequest Status.badRequest).writeReturn env
      else if parser.acceptsUri then h.receiveBody env
      else (h.fillForHttp env contentNotFound Status.notFound).writeReturn env
  else if ec ≠ .operationAborted then h.socketError
  else h.errorReturnHead env

def writeHandler (env : Env) (ec : ErrorCode) (bytesTransferred : Nat) (h : Handling) :
    Except Fault Handling :=
  if ec = .success ∧ bytesTransferred ≠ 0 then
    let h := { h with conn := { h.conn with wPos := h.conn.wPos + bytesTransferred } }
    if h.conn.wPos < h.conn.wSize then h.doWrite env
    else .ok { h with conn := { h.conn with wPos := 0, wSize := 0 } }
  else if ec ≠ .operationAborted then h.socketError
  else .ok h

end Handling

namespace FrontConn

/-- The constructors of `connection` and `front_conn`, with the socket option
that only a new object sets. -/
def make (pSock : SockId) (now : Nat) : Handling :=
  { conn := ⟨some pSock, 0, 0, 0, CharVec.zeros (16 * 1024), CharVec.zeros (16 * 1024),
      .pending, now, [], HttpParser.init⟩,
    effects := [.setTcpNodelay] }

def connWashWhite (c : FrontConn) : Except Fault FrontConn :=
  if c.stats = .working then .error .washWorking
  else .ok { c with
    rSize := 0, wSize := 0, wPos := 0,
    pBuffer := c.pBuffer.resize (16 * 1024), pWrite := c.pWrite.resize (16 * 1024),
    stats := .pending, pSock := none }

def connResetNetwork (c : FrontConn) (pSock : SockId) (now : Nat) : FrontConn :=
  { c with pSock := some pSock, request := [], touchTime := now }

end FrontConn

end Ailawd
