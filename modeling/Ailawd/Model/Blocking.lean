import Ailawd.Model.RedisClient

/-!
# Calls that do not come back

`Exchange` lets every call of `analyse_handler` come back. In the source two kinds of call
need not: nothing limits the time that `read_some` or a Redis command waits, and `redisCommand`
gets whatever is in `context_`, which `initContext` leaves `NULL` when it cannot connect. Here
the handler is followed again, with the same services, up to the first call that does not come
back. `context_` is shared by all threads, so what each command finds in it is an input.
-/

namespace Ailawd

open ByteString

/-- Why a call does not come back. The first two end the process, the last one
holds up a thread of the pool. -/
inductive Halt where
  /-- An assertion, an exception or a stray access ends the process. -/
  | fault (f : Fault)
  /-- `redisCommand(NULL, ...)` ends the process. -/
  | nullContext
  /-- The thread waits and nothing wakes it. -/
  | waits
  deriving DecidableEq, Repr

/-- How far a Redis command gets. The client has one context for all threads,
and one lock around each command. -/
inductive CommandEnd where
  /-- `context_` is `NULL`. -/
  | nullContext
  /-- No reply comes, or `redis_lock_` is held by a thread that gets none. -/
  | waits
  /-- `redisCommand` returns, with a reply or without one. -/
  | returns
  deriving DecidableEq, Repr

/-- What comes of a command whose return has this result. -/
def CommandEnd.command {α : Type} (e : CommandEnd) (result : α) : Except Halt α :=
  match e with
  | .nullContext => .error .nullContext
  | .waits => .error .waits
  | .returns => .ok result

/-- What the outside does during one call of the handler, come back or not. The
fields of an exchange say what a call gives if it comes back. -/
structure Outside extends Exchange where
  /-- The stream of the backend ends or fails after its segments. Otherwise the connection stays
  open, and nothing more comes. -/
  ends : Bool
  get : CommandEnd
  set : CommandEnd

namespace Blocking

/-- `sock.read_some(buffer(_, window), ec)`; only an empty
buffer is not waited for. -/
def readSome (ends : Bool) (window : Nat) (segments : List ByteString) :
    Except Halt (Option (ByteString × List ByteString)) :=
  if segments = [] ∧ window ≠ 0 ∧ ends = false then .error .waits
  else .ok (ClientOps.readSome window segments)

theorem readSome_eq_ok {ends : Bool} {window : Nat} {segments : List ByteString}
    {r : Option (ByteString × List ByteString)} (h : readSome ends window segments = .ok r) :
    ClientOps.readSome window segments = r := by
  rw [readSome] at h
  split at h
  · cases h
  · exact Except.ok.inj h

/-- The loop of `sync_read_from`. It waits with every pass that has room for
more bytes and no error. -/
def readLoop (ends : Bool) (realLen : Nat) (segments : List ByteString) (readBuff : CharVec)
    (actualLen : Nat) : Except Halt (Nat × CharVec) :=
  if actualLen < realLen then
    match _h : readSome ends (sizeSub readBuff.size actualLen) segments with
    | .error e => .error e
    | .ok none => .ok (actualLen, readBuff)
    | .ok (some (data, rest)) =>
      if _hd : data = [] then .ok (actualLen, readBuff)
      else if actualLen + data.length > readBuff.size then .error (.fault .outOfBounds)
      else readLoop ends realLen rest (readBuff.write actualLen data) (actualLen + data.length)
  else .ok (actualLen, readBuff)
termination_by segments.flatten.length
decreasing_by
  simpa only [List.length_flatten] using ClientOps.readSome_lt (readSome_eq_ok _h) _hd

/-- `sync_read_from`, without a time limit: the timed version of the call is
commented out in the source. -/
def syncReadFrom (ends : Bool) (segments : List ByteString) (readBuff : CharVec) :
    Except Halt (Nat × CharVec) :=
  match readSome ends readBuff.size segments with
  | .error e => .error e
  | .ok none => .ok (0, readBuff)
  | .ok (some (data, rest)) =>
    let readBuff := readBuff.write 0 data
    if readBuff.size < 20 then .error (.fault .outOfBounds)
    else
      let lenStr := cString (readBuff.slice 0 20)
      match find [58] lenStr with
      | none => .ok (0, readBuff)
      | some pos =>
        let realLen := sizeT (atoi (lenStr.take pos))
        if realLen = 0 then .ok (0, readBuff)
        else match ClientOps.growReadBuff realLen (readBuff.eraseFront (pos + 1)) with
          | .error e => .error (.fault e)
          | .ok readBuff =>
            readLoop ends realLen rest readBuff (sizeSub (sizeSub data.length pos) 1)

/-- `redirect_to_win`. The connect is limited to a second and comes back; a
`write_some` that fails throws. -/
def redirectToWin (x : Outside) (body : ByteString) : Except Halt Outcome :=
  if x.connects = false then .ok ⟨none, []⟩
  else match x.writeSome body with
    | none => .error (.fault .exception)
    | some sent =>
      match syncReadFrom x.ends x.reads (CharVec.zeros (32 * 1024)) with
      | .error e => .error e
      | .ok (readLen, response) =>
        if readLen = 0 then .ok ⟨none, [.writeSome (body.take sent)]⟩
        else if readLen > response.size then .error (.fault .outOfBounds)
        else .ok ⟨some (response.slice 0 readLen), [.writeSome (body.take sent)]⟩

/-- A query branch: `cached` is what `getValue` finds, `cache` the
store after `setValue`. -/
def answerQuery (x : Outside) (key : ByteString) (cached : Option ByteString)
    (cache : ByteString → RedisStore) (body : ByteString) (store : RedisStore) :
    Except Halt (Outcome × RedisStore) :=
  match x.get.command cached with
  | .error e => .error e
  | .ok (some text) => .ok (⟨some text, [.getValue key (some text)]⟩, store)
  | .ok none =>
    match redirectToWin x body with
    | .error e => .error e
    | .ok ⟨none, calls⟩ => .ok (⟨none, .getValue key none :: calls⟩, store)
    | .ok ⟨some text, calls⟩ =>
      match x.set.command (cache text) with
      | .error e => .error e
      | .ok store =>
        .ok (⟨some text, .getValue key none :: (calls ++ [.setValue key text])⟩, store)

/-- `analyse_handler`, with the calls in the order of the source: the document,
`GET`, the backend, and `SET`. -/
def analyseHandler (v : Services) (x : Outside) (store : RedisStore) (body : ByteString) :
    Except Halt (Outcome × RedisStore) := do
  let body := cString body
  match v.parse body with
  | none => return (⟨none, []⟩, store)
  | some doc =>
    if ← (Services.wrongAccess doc).mapError .fault then return (⟨none, []⟩, store)
    else if ← (doc.hasString "uuid").mapError .fault then
      let uuid ← (doc.stringOf "uuid").mapError .fault
      answerQuery x uuid (RedisClient.getValue x.toExchange store uuid)
        (RedisClient.setValue x.toExchange store uuid) body store
    else if ← (doc.hasString "content").mapError .fault then
      let digest := v.md5 (← (doc.stringOf "content").mapError .fault)
      answerQuery x digest (RedisClient.getValueBinary x.toExchange store digest)
        (RedisClient.setValueBinary x.toExchange store digest) body store
    else return (⟨none, []⟩, store)

end Blocking

end Ailawd
