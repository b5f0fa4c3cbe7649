import Ailawd.Backend.WholeReplies
import Ailawd.Library.Run
import Ailawd.Model.RedisClient

/-!
# The cache over a sequence of requests

The store of the Redis server goes from one request to the next; a label is a body and
what the outside does while it is analysed. `Stored` and `Hit` speak about the `SET` and
`GET` of one move, and `LastStored` about the move that wrote the present entry of a key.
`entry_of_run` is the invariant: what the store has under a key is the C string of what
the last of these moves was given.
-/

namespace Ailawd

open ByteString Transition

structure AnalyseRequest where
  body : ByteString
  exchange : Exchange

namespace Cache

variable (v : Services)

/-- `analyse_handler` on one request, one after the other: the store of one is
what the next one finds. -/
def step (store : RedisStore) (r : AnalyseRequest) : Except (Stop Fault) RedisStore :=
  match v.analyseHandler r.exchange store r.body with
  | .error e => .error (.fault e)
  | .ok (_, store) => .ok store

def init : RedisStore := fun _ => none

def Returns (m : Move RedisStore AnalyseRequest) (out : Outcome) : Prop :=
  v.analyseHandler m.label.exchange m.pre m.label.body = .ok (out, m.post)

def Stored (m : Move RedisStore AnalyseRequest) (key value : ByteString) : Prop :=
  m.label.exchange.setExecuted = true ∧ ∃ out, Returns v m out ∧ .setValue key value ∈ out.calls

def Hit (m : Move RedisStore AnalyseRequest) (key text : ByteString) : Prop :=
  ∃ out, Returns v m out ∧ .getValue key (some text) ∈ out.calls

/-- The last of the moves that stored something under the key, so that nothing
has been written over it. -/
def LastStored (moves : List (Move RedisStore AnalyseRequest)) (m : Move RedisStore AnalyseRequest)
    (key value : ByteString) : Prop :=
  ∃ front back, moves = front ++ m :: back ∧ Stored v m key value ∧
    ∀ n ∈ back, ∀ value, ¬ Stored v n key value

end Cache

/-- What a request asks for, with the whole JSON string, before it is cut at a
NUL byte to make a key. -/
inductive Query where
  | uuid (text : ByteString)
  | content (text : ByteString)
  deriving DecidableEq, Repr

/-- The first member of a name, when it is a string, as rapidjson holds it:
with its NUL bytes. -/
def Json.rawMember (members : List (ByteString × Json)) (name : String) : Option ByteString :=
  match members.find? fun m => m.1 == ofString name with
  | some (_, .string text) => some text
  | _ => none

theorem Json.stringMember_eq_rawMember (members : List (ByteString × Json)) (name : String) :
    stringMember members name = (rawMember members name).map cString := by
  simp only [stringMember, rawMember]
  cases members.find? fun m => m.1 == ofString name with
  | none => rfl
  | some m =>
      obtain ⟨_, value⟩ := m
      cases value <;> rfl

namespace Services

/-- The query of an authorised request. A `uuid` comes before a `content`,
which is then not looked at. -/
def query (v : Services) (body : ByteString) : Option Query :=
  match v.parse (cString body) with
  | some (.object members) =>
    if Json.stringMember members "access_id" ≠ some Backend.accessIdCode then none
    else match Json.rawMember members "uuid" with
      | some text => some (.uuid text)
      | none => (Json.rawMember members "content").map .content
  | _ => none

def key (v : Services) : Query → ByteString
  | .uuid text => cString text
  | .content text => v.md5 (cString text)

/-- rapidjson parses the body to an object, or not at all. On any other value
`HasMember` aborts. -/
def readable (v : Services) (body : ByteString) : Bool :=
  match v.parse (cString body) with
  | none => true
  | some (.object _) => true
  | some _ => false

/-- An authorised request goes to the branch of its query; any other one is
refused if the handler can read it. -/
theorem analyse_eq (v : Services) (x : Exchange) (store : RedisStore) (body : ByteString) :
    (v.backend x store).analyse body =
      match v.query body with
      | some q => (v.backend x store).query (cString body) (v.key q)
      | none => if v.readable body then .ok ⟨none, []⟩ else .error .notObject := by
  simp only [query, Backend.analyse, Json.stringMember_eq_rawMember _ "uuid",
    Json.stringMember_eq_rawMember _ "content"]
  rw [show (v.backend x store).parse = v.parse from rfl]
  cases hparse : v.parse (cString body) with
  | none =>
      have hread : v.readable body = true := by rw [readable, hparse]
      simp only [hread, if_true]
  | some doc =>
      cases doc with
      | string text =>
          have hread : v.readable body = false := by rw [readable, hparse]
          simp only [hread, Bool.false_eq_true, if_false]
      | other =>
          have hread : v.readable body = false := by rw [readable, hparse]
          simp only [hread, Bool.false_eq_true, if_false]
      | object members =>
          have hread : v.readable body = true := by rw [readable, hparse]
          simp only [hread, if_true]
          by_cases hid : Json.stringMember members "access_id" ≠ some Backend.accessIdCode
          · rw [if_pos hid, if_pos hid]
          · rw [if_neg hid, if_neg hid]
            cases Json.rawMember members "uuid" with
            | some text => rfl
            | none => cases Json.rawMember members "content" <;> rfl

theorem analyse_of_query {v : Services} {x : Exchange} {store : RedisStore} {body : ByteString}
    {q : Query} (h : v.query body = some q) :
    (v.backend x store).analyse body = (v.backend x store).query (cString body) (v.key q) := by
  rw [analyse_eq, h]

theorem analyse_of_no_query {v : Services} {x : Exchange} {store : RedisStore}
    {body : ByteString} {out : Outcome} (h : v.query body = none)
    (hout : (v.backend x store).analyse body = .ok out) : out = ⟨none, []⟩ := by
  simp only [analyse_eq, h] at hout
  split at hout
  · exact (Except.ok.inj hout).symm
  · cases hout

theorem readable_of_query {v : Services} {body : ByteString} {q : Query}
    (h : v.query body = some q) : v.readable body = true := by
  simp only [query] at h
  rw [readable]
  split at h
  next members hparse => rw [hparse]
  · cases h

end Services

namespace Cache

/-- What a successful move does: it refuses without a query; with one it
answers from the store, or fails, or stores the text that it answers with. -/
inductive Served (v : Services) (m : Move RedisStore AnalyseRequest) : Outcome → Prop where
  | refused : v.query m.label.body = none → m.post = m.pre → Served v m ⟨none, []⟩
  | hit {q text} : v.query m.label.body = some q →
      RedisClient.getValueBinary m.label.exchange m.pre (v.key q) = some text → m.post = m.pre →
      Served v m ⟨some text, [.getValue (v.key q) (some text)]⟩
  | failed {q calls} : v.query m.label.body = some q → (∀ c ∈ calls, ∃ sent, c = .writeSome sent) →
      m.post = m.pre → Served v m ⟨none, .getValue (v.key q) none :: calls⟩
  | answered {q text calls} : v.query m.label.body = some q →
      (∀ c ∈ calls, ∃ sent, c = .writeSome sent) →
      m.post = RedisClient.setValueBinary m.label.exchange m.pre (v.key q) text →
      Served v m ⟨some text, .getValue (v.key q) none :: (calls ++ [.setValue (v.key q) text])⟩

section Moves

variable {v : Services} {m : Move RedisStore AnalyseRequest} {key value text : ByteString}
variable {out : Outcome}

theorem Returns.served (h : Returns v m out) : Served v m out := by
  simp only [Returns, Services.analyseHandler_eq] at h
  cases hout : (v.backend m.label.exchange m.pre).analyse m.label.body with
  | error e =>
      rw [hout] at h
      cases h
  | ok out' =>
      rw [hout] at h
      obtain ⟨rfl, hpost⟩ := Prod.mk.inj (Except.ok.inj h)
      cases hq : v.query m.label.body with
      | none =>
          obtain rfl := Services.analyse_of_no_query hq hout
          exact .refused hq hpost.symm
      | some q =>
          rw [Services.analyse_of_query hq] at hout
          simp only [Backend.query] at hout
          split at hout
          next text hget =>
            obtain rfl := Except.ok.inj hout
            exact .hit hq hget hpost.symm
          · split at hout
            · cases hout
            next calls hr =>
              obtain rfl := Except.ok.inj hout
              have hcalls : ∀ c ∈ calls, ∃ sent, c = .writeSome sent :=
                Backend.redirectToWin_calls hr
              have hfold : calls.foldl (Call.apply m.label.exchange) m.pre = m.pre :=
                Call.foldl_apply_writes hcalls
              exact .failed hq hcalls (hpost.symm.trans hfold)
            next text calls hr =>
              obtain rfl := Except.ok.inj hout
              have hcalls : ∀ c ∈ calls, ∃ sent, c = .writeSome sent :=
                Backend.redirectToWin_calls hr
              have hfold : calls.foldl (Call.apply m.label.exchange) m.pre = m.pre :=
                Call.foldl_apply_writes hcalls
              refine .answered hq hcalls (hpost.symm.trans ?_)
              simp only [List.foldl_cons, List.foldl_append, List.foldl_nil, Call.apply, hfold]

/-- A `SET` is the one of the move's query, and this is what it does: the key
gets the text, up to a NUL byte. -/
theorem Stored.spec (h : Stored v m key value) : ∃ q, v.query m.label.body = some q ∧
    key = v.key q ∧ m.post = Function.update m.pre key (some (cString value)) ∧
    ∃ out, Returns v m out ∧ out.text = some value := by
  obtain ⟨hexec, out, hout, hmem⟩ := h
  cases hout.served with
  | refused _ _ => cases hmem
  | hit _ _ _ => simp at hmem
  | failed _ hcalls _ =>
      obtain ⟨sent, hsent⟩ := hcalls _ (by simpa using hmem)
      cases hsent
  | @answered q text calls hq hcalls hpost =>
      have hlast : Call.setValue key value ∈ calls ∨ key = v.key q ∧ value = text := by
        simpa using hmem
      obtain hcall | ⟨rfl, rfl⟩ := hlast
      · obtain ⟨sent, hsent⟩ := hcalls _ hcall
        cases hsent
      · rw [RedisClient.setValueBinary, if_pos hexec] at hpost
        exact ⟨q, hq, rfl, hpost, _, hout, rfl⟩

/-- An answer from the cache is the entry of the move's query, up to a NUL
byte, and changes nothing. -/
theorem Hit.spec (h : Hit v m key text) : ∃ q, v.query m.label.body = some q ∧ key = v.key q ∧
    (∃ raw, m.pre key = some raw ∧ text = cString raw) ∧
    ∃ out, Returns v m out ∧ out.text = some text := by
  obtain ⟨out, hout, hmem⟩ := h
  cases hout.served with
  | refused _ _ => cases hmem
  | @hit q found hq hget _ =>
      obtain ⟨rfl, rfl⟩ : key = v.key q ∧ text = found := by simpa using hmem
      rw [RedisClient.getValueBinary] at hget
      split at hget
      · obtain ⟨raw, hraw, rfl⟩ := Option.map_eq_some_iff.mp hget
        exact ⟨q, hq, rfl, ⟨raw, hraw, rfl⟩, _, hout, rfl⟩
      · cases hget
  | failed _ hcalls _ =>
      obtain ⟨sent, hsent⟩ := hcalls _ (by simpa using hmem)
      cases hsent
  | @answered q found calls _ hcalls _ =>
      obtain ⟨sent, hsent⟩ := hcalls _ (by simpa using hmem)
      cases hsent

/-- A move that does not store under a key leaves its
entry, whatever else it does. -/
theorem Returns.unstored (h : Returns v m out) (hnot : ∀ value, ¬ Stored v m key value) :
    m.post key = m.pre key := by
  cases h.served with
  | refused _ hpost => rw [hpost]
  | hit _ _ hpost => rw [hpost]
  | failed _ _ hpost => rw [hpost]
  | @answered q text calls _ _ hpost =>
      rw [hpost, RedisClient.setValueBinary]
      split
      next hexec =>
        apply Function.update_of_ne
        rintro rfl
        exact hnot text ⟨hexec, _, h, by simp⟩
      · rfl

end Moves

section Runs

variable {v : Services} {moves : List (Move RedisStore AnalyseRequest)} {s t : RedisStore}
variable {key entry : ByteString}

theorem exists_returns {a : AnalyseRequest} (h : step v s a = .ok t) :
    ∃ out, Returns v ⟨s, a, t⟩ out := by
  simp only [step] at h
  split at h
  · cases h
  next out store hout =>
    obtain rfl := Except.ok.inj h
    exact ⟨out, hout⟩

/-- While nothing is stored under a key its entry
stays. Induction on the run. -/
theorem unstored_run (hr : Run (step v) s moves t)
    (hnot : ∀ m ∈ moves, ∀ value, ¬ Stored v m key value) : t key = s key := by
  refine hr.invariant_of (P := fun m => ∀ value, ¬ Stored v m key value)
    (I := fun t => t key = s key) hnot rfl ?_
  intro r a t ih hnot hs
  obtain ⟨out, hout⟩ := exists_returns hs
  exact (hout.unstored hnot).trans ih

/-- Every entry comes from the last move that stored something under its key.
Nothing else writes to Redis. -/
theorem entry_of_run (hr : Run (step v) init moves s) (h : s key = some entry) :
    ∃ m value, LastStored v moves m key value ∧ entry = cString value := by
  induction hr with
  | nil => cases h
  | @snoc moves r a t hr hs ih =>
      by_cases hstored : ∃ value, Stored v ⟨r, a, t⟩ key value
      · obtain ⟨value, hvalue⟩ := hstored
        obtain ⟨q, -, -, hpost, -⟩ := hvalue.spec
        refine ⟨_, value, ⟨moves, [], rfl, hvalue, fun n hn => absurd hn List.not_mem_nil⟩, ?_⟩
        rw [show t = _ from hpost, Function.update_self] at h
        exact (Option.some.inj h).symm
      · have hnot := not_exists.mp hstored
        obtain ⟨out, hout⟩ := exists_returns hs
        have hkept : t key = r key := hout.unstored hnot
        obtain ⟨m, value, ⟨front, back, hmoves, hvalue, hback⟩, hentry⟩ := ih (hkept ▸ h)
        refine ⟨m, value, ⟨front, back ++ [⟨r, a, t⟩], by simp [hmoves], hvalue, ?_⟩, hentry⟩
        exact List.forall_mem_append.mpr ⟨hback, List.forall_mem_singleton.mpr hnot⟩

end Runs

/-- Redis answers, and the backend replies with these bytes, in the agreed
format and in one segment. -/
def replying (payload : ByteString) : Exchange where
  connects := true
  writeSome text := some text.length
  reads := [decimal payload.length ++ 58 :: payload]
  getAnswered := true
  setExecuted := true

section MissAndHit

variable {v : Services} {store : RedisStore} {body body' raw : ByteString} {q q' : Query}

theorem analyse_miss (payload : ByteString) (hq : v.query body = some q)
    (hmiss : store (v.key q) = none)
    (hpos : 1 ≤ payload.length) (hsmall : replyStart payload.length ≤ 20)
    (hshort : replyStart payload.length + payload.length ≤ 32 * 1024) :
    ∃ calls, v.analyseHandler (replying payload) store body =
      .ok (⟨some payload, calls⟩, Function.update store (v.key q) (some (cString payload))) ∧
      .setValue (v.key q) payload ∈ calls := by
  have hredirect : (v.backend (replying payload) store).redirectToWin (cString body) =
      .ok ⟨some payload, [.writeSome ((cString body).take (cString body).length)]⟩ :=
    redirectToWin_single rfl hpos hsmall hshort rfl rfl rfl
  have hget : (v.backend (replying payload) store).getValue (v.key q) = none := by
    change (store (v.key q)).map cString = none
    rw [hmiss]
    rfl
  rw [Services.analyseHandler_eq, Services.analyse_of_query hq]
  simp only [Backend.query, hget, hredirect]
  exact ⟨_, rfl, by simp⟩

theorem analyse_hit (payload : ByteString) (hq : v.query body = some q)
    (hentry : store (v.key q) = some raw) :
    v.analyseHandler (replying payload) store body =
      .ok (⟨some (cString raw), [.getValue (v.key q) (some (cString raw))]⟩, store) := by
  have hget : (v.backend (replying payload) store).getValue (v.key q) = some (cString raw) := by
    change (store (v.key q)).map cString = _
    rw [hentry]
    rfl
  rw [Services.analyseHandler_eq, Services.analyse_of_query hq]
  simp only [Backend.query, hget]
  rfl

/-- Two requests with one key, of which the first finds the cache empty and the
second finds what the first has stored. -/
theorem exists_miss_hit (payload : ByteString) (hq : v.query body = some q)
    (hq' : v.query body' = some q')
    (hkey : v.key q = v.key q') (hpos : 1 ≤ payload.length)
    (hsmall : replyStart payload.length ≤ 20)
    (hshort : replyStart payload.length + payload.length ≤ 32 * 1024) :
    ∃ m m' s, Run (step v) init [m, m'] s ∧ m.label.body = body ∧ m'.label.body = body' ∧
      Stored v m (v.key q) payload ∧ Hit v m' (v.key q) (cString payload) := by
  have hempty : init (v.key q) = none := rfl
  have hentry : Function.update init (v.key q) (some (cString payload)) (v.key q') =
      some (cString payload) := by
    rw [hkey, Function.update_self]
  obtain ⟨calls, hmiss, hset⟩ := analyse_miss payload hq hempty hpos hsmall hshort
  have hhit := analyse_hit payload hq' hentry
  rw [cString_cString] at hhit
  have hfirst : step v init ⟨body, replying payload⟩ =
      .ok (Function.update init (v.key q) (some (cString payload))) := by
    simp only [step, hmiss]
  have hsecond : step v (Function.update init (v.key q) (some (cString payload)))
      ⟨body', replying payload⟩ =
        .ok (Function.update init (v.key q) (some (cString payload))) := by
    simp only [step, hhit]
  refine ⟨_, _, _, (Run.nil.snoc hfirst).snoc hsecond, rfl, rfl, ⟨rfl, _, hmiss, hset⟩,
    _, hhit, ?_⟩
  rw [hkey]
  exact List.mem_singleton.mpr rfl

end MissAndHit

end Cache

end Ailawd
