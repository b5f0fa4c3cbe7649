import Ailawd.Model.Analyse
import Mathlib.Logic.Function.Basic

/-!
# The analyse handler over a Redis store

Here `analyse_handler` is followed call by call. Each rapidjson accessor checks what
it asserts, and the four operations of `RedisClient` work on the data of the server:
a `%s` argument ends at its first NUL byte, a `%b` argument has its own length, and an
answer is read through `reply->str`.

`analyseHandler_eq` says that this is `Backend.analyse` with the answers that the store
gives, and that the store changes by the `SET` it lists.
-/

namespace Ailawd

open ByteString

namespace Json

/-- `doc.HasMember(name)`. On a value that is no object an
assertion of the library fails. -/
def hasMember (doc : Json) (name : String) : Except Fault Bool :=
  match doc with
  | .object members => .ok (members.any fun m => m.1 == ofString name)
  | _ => .error .notObject

/-- `doc[name]`, the first member of that name. A missing one is
another failed assertion. -/
def member (doc : Json) (name : String) : Except Fault Json :=
  match doc with
  | .object members =>
    match members.find? fun m => m.1 == ofString name with
    | some m => .ok m.2
    | none => .error .noMember
  | _ => .error .notObject

def isString : Json → Bool
  | .string _ => true
  | _ => false

/-- `GetString()`, as a C string; on a value that is no
string an assertion fails. -/
def getString : Json → Except Fault ByteString
  | .string text => .ok (cString text)
  | _ => .error .notString

/-- `doc.HasMember(name) && doc[name].IsString()`. -/
def hasString (doc : Json) (name : String) : Except Fault Bool := do
  if ← doc.hasMember name then return (← doc.member name).isString else return false

/-- `doc[name].GetString()`. -/
def stringOf (doc : Json) (name : String) : Except Fault ByteString := do
  (← doc.member name).getString

end Json

/-- What the Redis server holds. Nothing in the program removes an
entry or lets it expire. -/
abbrev RedisStore := ByteString → Option ByteString

/-- What the outside does during one call of the handler, given that each of
its calls comes back. -/
structure Exchange where
  connects : Bool
  writeSome : ByteString → Option Nat
  reads : List ByteString
  /-- Redis answers the `GET`. -/
  getAnswered : Bool
  /-- Redis executes the `SET`. -/
  setExecuted : Bool

namespace RedisClient

variable (x : Exchange) (store : RedisStore) (key val : ByteString)

/-- `GET %s`. The key and the reply are passed as C strings, so
both end at a NUL byte. -/
def getValue : Option ByteString :=
  if x.getAnswered then (store (cString key)).map cString else none

/-- `GET %b`. The key is passed with its length, and
the reply as a C string. -/
def getValueBinary : Option ByteString :=
  if x.getAnswered then (store key).map cString else none

/-- `SET %s %s`. The text goes to the server up to its first NUL
byte, and so does the key. -/
def setValue : RedisStore :=
  if x.setExecuted then Function.update store (cString key) (some (cString val)) else store

/-- `SET %b %s`. The text goes to the server up to its first NUL
byte, the key as a whole. -/
def setValueBinary : RedisStore :=
  if x.setExecuted then Function.update store key (some (cString val)) else store

end RedisClient

/-- The parser and the hash function, which the handler takes from
libraries. Both are total. -/
structure Services where
  parse : ByteString → Option Json
  md5 : ByteString → ByteString

namespace Services

/-- The services of one call, with what `GET` finds in the store. The store
stays as it is for the whole call. -/
def backend (v : Services) (x : Exchange) (store : RedisStore) : Backend where
  parse := v.parse
  md5 := v.md5
  getValue := RedisClient.getValueBinary x store
  connects := x.connects
  writeSome := x.writeSome
  reads := x.reads

/-- The access check fails: the member is missing, is no string, or is another
string than the one in the source. -/
def wrongAccess (doc : Json) : Except Fault Bool := do
  if ← doc.hasString "access_id" then
    return Backend.accessIdCode != (← doc.stringOf "access_id")
  else return true

/-- A query branch: `cached` is what `getValue` found, `cache` the
store after `setValue`. -/
def answerQuery (key : ByteString) (cached : Option ByteString) (cache : ByteString → RedisStore)
    (redirected : Except Fault Outcome) (store : RedisStore) :
    Except Fault (Outcome × RedisStore) :=
  match cached with
  | some text => .ok (⟨some text, [.getValue key (some text)]⟩, store)
  | none =>
    match redirected with
    | .error e => .error e
    | .ok ⟨none, calls⟩ => .ok (⟨none, .getValue key none :: calls⟩, store)
    | .ok ⟨some text, calls⟩ =>
      .ok (⟨some text, .getValue key none :: (calls ++ [.setValue key text])⟩, cache text)

def analyseHandler (v : Services) (x : Exchange) (store : RedisStore) (body : ByteString) :
    Except Fault (Outcome × RedisStore) := do
  let body := cString body
  let redirected := (v.backend x store).redirectToWin body
  match v.parse body with
  | none => return (⟨none, []⟩, store)
  | some doc =>
    if ← wrongAccess doc then return (⟨none, []⟩, store)
    else if ← doc.hasString "uuid" then
      let uuid ← doc.stringOf "uuid"
      answerQuery uuid (RedisClient.getValue x store uuid) (RedisClient.setValue x store uuid)
        redirected store
    else if ← doc.hasString "content" then
      let digest := v.md5 (← doc.stringOf "content")
      answerQuery digest (RedisClient.getValueBinary x store digest)
        (RedisClient.setValueBinary x store digest) redirected store
    else return (⟨none, []⟩, store)

end Services

/-- The store after one of the calls. Only a `SET` changes it. -/
def Call.apply (x : Exchange) (store : RedisStore) : Call → RedisStore
  | .setValue key value => RedisClient.setValueBinary x store key value
  | _ => store

section Accessors

variable {members : List (ByteString × Json)} {name : String} {text : ByteString}

theorem Json.stringMember_eq_some (h : stringMember members name = some text) :
    ∃ key raw, (members.find? fun m => m.1 == ofString name) = some (key, .string raw) ∧
      text = cString raw := by
  simp only [stringMember] at h
  split at h
  next key raw hfind => exact ⟨key, raw, hfind, (Option.some.inj h).symm⟩
  · cases h

theorem Json.hasString_object : (Json.object members).hasString name =
    .ok (stringMember members name).isSome := by
  simp only [hasString, hasMember, member, stringMember]
  cases hfind : members.find? fun m => m.1 == ofString name with
  | none =>
      have hany : members.any (fun m => m.1 == ofString name) = false := by
        rw [List.any_eq_false]
        exact List.find?_eq_none.mp hfind
      simp only [hany]
      rfl
  | some m =>
      have hany : members.any (fun m => m.1 == ofString name) = true := by
        rw [List.any_eq_true]
        have hname := List.find?_some (p := fun m : ByteString × Json => m.1 == ofString name) hfind
        exact ⟨m, List.mem_of_find?_eq_some hfind, hname⟩
      simp only [hany]
      obtain ⟨key, value⟩ := m
      cases value <;> rfl

theorem Json.stringOf_object (h : stringMember members name = some text) :
    (Json.object members).stringOf name = .ok text := by
  obtain ⟨key, raw, hfind, rfl⟩ := stringMember_eq_some h
  simp only [stringOf, member, hfind]
  rfl

theorem Services.wrongAccess_object : wrongAccess (.object members) =
    .ok (decide (Json.stringMember members "access_id" ≠ some Backend.accessIdCode)) := by
  simp only [wrongAccess, Json.hasString_object]
  cases hid : Json.stringMember members "access_id" with
  | none => rfl
  | some id =>
      simp only [Json.stringOf_object hid]
      refine congrArg Except.ok (Bool.eq_iff_iff.mpr ?_)
      rw [bne_iff_ne, decide_eq_true_iff, ne_comm, Ne, Ne, Option.some_inj]

end Accessors

section Refinement

variable {v : Services} {x : Exchange} {store : RedisStore} {body key : ByteString}

theorem Backend.redirectToWin_calls {b : Backend} {out : Outcome}
    (h : b.redirectToWin body = .ok out) : ∀ c ∈ out.calls, ∃ sent, c = .writeSome sent := by
  simp only [redirectToWin] at h
  split at h
  · obtain rfl := Except.ok.inj h
    simp
  · split at h
    · cases h
    · split at h
      · cases h
      · split at h
        · obtain rfl := Except.ok.inj h
          simp
        · split at h
          · cases h
          · obtain rfl := Except.ok.inj h
            simp

theorem Call.foldl_apply_writes {calls : List Call} (h : ∀ c ∈ calls, ∃ sent, c = .writeSome sent) :
    calls.foldl (apply x) store = store := by
  induction calls with
  | nil => rfl
  | cons c rest ih =>
      obtain ⟨⟨sent, rfl⟩, hrest⟩ := List.forall_mem_cons.mp h
      exact ih hrest

/-- A query branch is `Backend.query`, and the store
changes by the `SET` it lists. -/
theorem Services.answerQuery_eq {cache : ByteString → RedisStore}
    (hcache : cache = RedisClient.setValueBinary x store key) :
    answerQuery key (RedisClient.getValueBinary x store key) cache
        ((v.backend x store).redirectToWin body) store =
      ((v.backend x store).query body key).map fun out =>
        (out, out.calls.foldl (Call.apply x) store) := by
  subst hcache
  simp only [answerQuery, Backend.query]
  rw [show (v.backend x store).getValue key = RedisClient.getValueBinary x store key from rfl]
  cases RedisClient.getValueBinary x store key with
  | some text => rfl
  | none =>
      cases hr : (v.backend x store).redirectToWin body with
      | error e => rfl
      | ok out =>
          have hcalls : out.calls.foldl (Call.apply x) store = store :=
            Call.foldl_apply_writes (Backend.redirectToWin_calls hr)
          obtain ⟨text, calls⟩ := out
          cases text with
          | none => simp [Except.map, Call.apply, hcalls]
          | some text => simp [Except.map, Call.apply, hcalls]

theorem Services.analyseHandler_eq (v : Services) (x : Exchange) (store : RedisStore)
    (body : ByteString) : v.analyseHandler x store body =
      ((v.backend x store).analyse body).map fun out =>
        (out, out.calls.foldl (Call.apply x) store) := by
  simp only [analyseHandler, Backend.analyse]
  rw [show (v.backend x store).parse = v.parse from rfl]
  cases v.parse (cString body) with
  | none => rfl
  | some doc =>
      cases doc with
      | string text => rfl
      | other => rfl
      | object members =>
          simp only [wrongAccess_object, Json.hasString_object]
          by_cases hid : Json.stringMember members "access_id" ≠ some Backend.accessIdCode
          · rw [decide_eq_true hid, if_pos hid]
            rfl
          · rw [decide_eq_false hid, if_neg hid]
            cases huuid : Json.stringMember members "uuid" with
            | some uuid =>
                simp only [Json.stringOf_object huuid]
                -- the key has lost its NUL bytes already, so both forms of the calls agree
                obtain ⟨-, raw, -, rfl⟩ := Json.stringMember_eq_some huuid
                change answerQuery (cString raw)
                  (RedisClient.getValueBinary x store (cString (cString raw)))
                  (RedisClient.setValueBinary x store (cString (cString raw))) _ _ = _
                rw [cString_cString]
                exact answerQuery_eq rfl
            | none =>
                cases hcontent : Json.stringMember members "content" with
                | some content =>
                    simp only [Json.stringOf_object hcontent]
                    exact answerQuery_eq rfl
                | none => rfl

end Refinement

end Ailawd
