import Ailawd.Model.ClientOps
import Ailawd.Model.Connection

/-!
# The analyse handler and its services

`Backend` is what `front_conn::analyse_handler` uses outside this program during
one call: rapidjson, MD5, Redis and the backend server. `analyse` is the handler's
work on a body; it returns the text to send with status 200, if any, and the calls
it made. rapidjson's `HasMember` asserts that the document is an object, and its
`GetString` gives a C string.
-/

namespace Ailawd

open ByteString

/-- A parsed document, as far as the handler looks at it: numbers, arrays,
`null` and the two truth values are all handled alike. -/
inductive Json where
  | string (text : ByteString)
  | object (members : List (ByteString × Json))
  | other

/-- `doc[name]` when it is a string: the value of the first member of that
name, as `GetString` returns it. -/
def Json.stringMember (members : List (ByteString × Json)) (name : String) :
    Option ByteString :=
  match members.find? fun m => m.1 == ofString name with
  | some (_, .string text) => some (cString text)
  | _ => none

/-- A call the handler makes to Redis or to the backend server, in the order in
which they are made. -/
inductive Call where
  | getValue (key : ByteString) (hit : Option ByteString)
  | writeSome (sent : ByteString)
  | setValue (key value : ByteString)
  deriving DecidableEq, Repr

structure Backend where
  parse : ByteString → Option Json
  md5 : ByteString → ByteString
  getValue : ByteString → Option ByteString
  /-- Whether the connection is made within the time limit. -/
  connects : Bool
  /-- How many bytes one `write_some` sends; without an error code argument it
  throws instead of reporting an error. -/
  writeSome : ByteString → Option Nat
  reads : List ByteString

structure Outcome where
  text : Option ByteString
  calls : List Call
  deriving DecidableEq, Repr

namespace Backend

def accessIdCode : ByteString := ofString "11488058246"

/-- `redirect_to_win`, with the part of the buffer that the caller then reads.
The request is sent by one `write_some`, however much that takes. -/
def redirectToWin (b : Backend) (body : ByteString) : Except Fault Outcome :=
  if b.connects = false then .ok ⟨none, []⟩
  else match b.writeSome body with
    | none => .error .exception
    | some sent =>
      match ClientOps.syncReadFrom b.reads (CharVec.zeros (32 * 1024)) with
      | .error e => .error e
      | .ok (readLen, response) =>
        if readLen = 0 then .ok ⟨none, [.writeSome (body.take sent)]⟩
        else if readLen > response.size then .error .outOfBounds
        else .ok ⟨some (response.slice 0 readLen), [.writeSome (body.take sent)]⟩

/-- Both query branches: the cached text, or the backend's, which is then
cached. They differ in the key only. -/
def query (b : Backend) (body key : ByteString) : Except Fault Outcome :=
  match b.getValue key with
  | some text => .ok ⟨some text, [.getValue key (some text)]⟩
  | none =>
    match b.redirectToWin body with
    | .error e => .error e
    | .ok ⟨none, calls⟩ => .ok ⟨none, .getValue key none :: calls⟩
    | .ok ⟨some text, calls⟩ =>
      .ok ⟨some text, .getValue key none :: (calls ++ [.setValue key text])⟩

def analyse (b : Backend) (body : ByteString) : Except Fault Outcome :=
  let body := cString body
  match b.parse body with
  | none => .ok ⟨none, []⟩
  | some (.object members) =>
    if Json.stringMember members "access_id" ≠ some accessIdCode then .ok ⟨none, []⟩
    else match Json.stringMember members "uuid" with
      | some uuid => b.query body uuid
      | none => match Json.stringMember members "content" with
        | some content => b.query body (b.md5 content)
        | none => .ok ⟨none, []⟩
  | some _ => .error .notObject

/-- The environment of a connection whose bodies are analysed with this
backend; a connection sees the text alone. -/
def env (b : Backend) (now : Nat) (date : ByteString) : Env :=
  ⟨now, date, fun body => (b.analyse body).map Outcome.text⟩

end Backend

end Ailawd
