import Ailawd.Cache.History
import Mathlib.Logic.Equiv.Basic

/-!
# Whose answer the cache gives

Both kinds of query share one key space, and a JSON string reaches its key as a C string.
So two requests share an entry if their strings differ only after a NUL byte, or if the
uuid of one is the digest of the other's content. `cache_isolated_iff` shows that these
collisions are all there is: a set of bodies without them never sees another request's
answer, and any of them lets one through.
-/

namespace Ailawd

open ByteString Transition

namespace Services

/-- Two different queries with one key: uuids that agree up to a NUL, contents
that do, or one of each. -/
def Collide (v : Services) : Query → Query → Prop
  | .uuid text, .uuid text' => text ≠ text' ∧ cString text = cString text'
  | .content text, .content text' => text ≠ text' ∧ cString text = cString text'
  | .uuid text, .content text' => cString text = v.md5 (cString text')
  | .content text, .uuid text' => cString text' = v.md5 (cString text)

theorem collide_iff {v : Services} (hmd5 : Function.Injective v.md5) (q q' : Query) :
    v.Collide q q' ↔ q ≠ q' ∧ v.key q = v.key q' := by
  cases q with
  | uuid text =>
      cases q' with
      | uuid text' => simp [Collide, key]
      | content text' => simp [Collide, key]
  | content text =>
      cases q' with
      | uuid text' => simp [Collide, key, eq_comm]
      | content text' => simp [Collide, key, hmd5.eq_iff]

end Services

namespace Cache

variable {v : Services} {moves : List (Move RedisStore AnalyseRequest)} {s : RedisStore}

/-- Whoever is answered from the cache gets what the same query has stored, not
merely one with the same key. -/
def Isolated (v : Services) (moves : List (Move RedisStore AnalyseRequest)) : Prop :=
  ∀ front m back key text, moves = front ++ m :: back → Hit v m key text →
    ∃ m' value, LastStored v front m' key value ∧ text = cString value ∧
      v.query m'.label.body = v.query m.label.body

/-- The runs of requests with these bodies, starting with an empty cache. Redis
may lose what it likes. -/
def IsolatedRuns (v : Services) (bodies : Set ByteString) : Prop :=
  ∀ moves s, Run (step v) init moves s → (∀ m ∈ moves, m.label.body ∈ bodies) → Isolated v moves

theorem isolated_of_run (hr : Run (step v) init moves s)
    (hkeys : ∀ m ∈ moves, ∀ m' ∈ moves, ∀ q q', v.query m.label.body = some q →
      v.query m'.label.body = some q' → v.key q = v.key q' → q = q') : Isolated v moves := by
  rintro front m back key text rfl hhit
  obtain ⟨q, hq, rfl, ⟨raw, hraw, rfl⟩, -⟩ := hhit.spec
  obtain ⟨m', value, hlast, rfl⟩ := entry_of_run hr.before hraw
  refine ⟨m', value, hlast, cString_cString value, ?_⟩
  obtain ⟨before, after, rfl, hstored, -⟩ := hlast
  obtain ⟨q', hq', hkey, -⟩ := hstored.spec
  have heq := hkeys m (by simp) m' (by simp) q q' hq hq' hkey
  rw [hq, hq', heq]

/-- Through a collision the second request gets the reply to the first. This
needs no attacker, only the two bodies. -/
theorem not_isolated_of_key_eq {bodies : Set ByteString} {body body' : ByteString} {q q' : Query}
    (hbody : body ∈ bodies) (hbody' : body' ∈ bodies) (hq : v.query body = some q)
    (hq' : v.query body' = some q') (hne : q ≠ q') (hkey : v.key q = v.key q') :
    ¬ IsolatedRuns v bodies := by
  intro hisolated
  obtain ⟨m, m', s, hr, rfl, rfl, -, hhit⟩ :=
    exists_miss_hit (ofString "x") hq hq' hkey (by decide) (by decide) (by decide)
  obtain ⟨n, value, ⟨front, back, hfront, -, -⟩, -, hquery⟩ :=
    hisolated [m, m'] s hr (by simp [hbody, hbody']) [m] m' [] _ _ rfl hhit
  have hn : n ∈ front ++ n :: back := by simp
  rw [← hfront] at hn
  obtain rfl := List.mem_singleton.mp hn
  rw [hq, hq'] at hquery
  exact hne (Option.some.inj hquery)

/-- A cache keeps the requests with the given bodies apart exactly if no two of
their queries collide. -/
theorem cache_isolated_iff (v : Services) (hmd5 : Function.Injective v.md5)
    (bodies : Set ByteString) : IsolatedRuns v bodies ↔
      ∀ body ∈ bodies, ∀ body' ∈ bodies, ∀ q q', v.query body = some q →
        v.query body' = some q' → ¬ v.Collide q q' := by
  constructor
  · intro hisolated body hbody body' hbody' q q' hq hq' hcollide
    obtain ⟨hne, hkey⟩ := (Services.collide_iff hmd5 q q').mp hcollide
    exact not_isolated_of_key_eq hbody hbody' hq hq' hne hkey hisolated
  · intro hfree moves s hr hbodies
    apply isolated_of_run hr
    intro m hm m' hm' q q' hq hq' hkey
    by_contra hne
    apply hfree _ (hbodies m hm) _ (hbodies m' hm') q q' hq hq'
    exact (Services.collide_iff hmd5 q q').mpr ⟨hne, hkey⟩

section Truncation

def uuidRequest (last : String) : ByteString :=
  ofString "\x7b\"access_id\":\"11488058246\",\"uuid\":\"a\\u0000" ++ ofString last ++
    ofString "\"\x7d"

def uuidText (last : String) : ByteString := ofString "a" ++ 0 :: ofString last

def uuidDocument (last : String) : Json :=
  .object [(ofString "access_id", .string Backend.accessIdCode),
    (ofString "uuid", .string (uuidText last))]

def abcDigest : ByteString := [0x90, 0x01, 0x50, 0x98, 0x3c, 0xd2, 0x4f, 0xb0, 0xd6, 0x96, 0x3f,
  0x7d, 0x28, 0xe1, 0x7f, 0x72]

/-- A parser for two such requests, and an injection that is MD5 on the text
`abc`. Escapes are what makes a NUL in JSON. -/
def twoUuids : Services where
  parse body :=
    if body = uuidRequest "b" then some (uuidDocument "b")
    else if body = uuidRequest "c" then some (uuidDocument "c")
    else none
  md5 := Equiv.swap (ofString "abc") abcDigest

theorem cache_isolated_iff_one_body : IsolatedRuns twoUuids {uuidRequest "b"} ↔
    ∀ body ∈ ({uuidRequest "b"} : Set ByteString), ∀ body' ∈ ({uuidRequest "b"} : Set ByteString),
      ∀ q q', twoUuids.query body = some q → twoUuids.query body' = some q' →
        ¬ twoUuids.Collide q q' :=
  cache_isolated_iff twoUuids (Equiv.injective _) {uuidRequest "b"}

/-- Both requests get to the key `a`, so the second is answered
with the first one's reply. -/
theorem truncated_uuids_share_entry :
    twoUuids.query (uuidRequest "b") = some (.uuid (uuidText "b")) ∧
      twoUuids.query (uuidRequest "c") = some (.uuid (uuidText "c")) ∧
      uuidText "b" ≠ uuidText "c" ∧ Function.Injective twoUuids.md5 ∧
      ¬ IsolatedRuns twoUuids {uuidRequest "b", uuidRequest "c"} := by
  have hb : twoUuids.query (uuidRequest "b") = some (.uuid (uuidText "b")) := by decide +kernel
  have hc : twoUuids.query (uuidRequest "c") = some (.uuid (uuidText "c")) := by decide +kernel
  have hne : uuidText "b" ≠ uuidText "c" := by decide
  have hkey : twoUuids.key (.uuid (uuidText "b")) = twoUuids.key (.uuid (uuidText "c")) := by decide
  refine ⟨hb, hc, hne, Equiv.injective _, ?_⟩
  exact not_isolated_of_key_eq (.inl rfl) (.inr rfl) hb hc (by simpa using hne) hkey

end Truncation

end Cache

end Ailawd
