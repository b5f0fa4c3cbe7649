import Ailawd.Backend.Containment

/-!
# Unauthorised requests

`analyse_handler` compares `access_id` as a C string, so the access code with a NUL and more
behind it passes. A request that does not pass asks neither Redis nor the backend, and the
connection answers it alike whatever they hold.
-/

namespace Ailawd

open ByteString HttpProto

/-- `access_id` is missing, not a string, or another string than the access
code, NUL bytes included. -/
def Unauthorised (members : List (ByteString × Json)) : Prop :=
  Json.rawMember members "access_id" ≠ some Backend.accessIdCode

/-- `access_id` is the access code with a NUL and more behind it, which
`GetString()` does not show. -/
def Extended (members : List (ByteString × Json)) : Prop :=
  ∃ rest, Json.rawMember members "access_id" = some (Backend.accessIdCode ++ 0 :: rest)

def Asks (members : List (ByteString × Json)) : Prop :=
  Json.rawMember members "uuid" ≠ none ∨ Json.rawMember members "content" ≠ none

namespace Services

/-- Two runs over different Redis data and with different outsides. Both return
false, make no call to Redis or the backend and leave the data as they are, and
the connection does the same in both: one reply, the 500. -/
structure SameRefusal (v : Services) (body : ByteString) (x₁ x₂ : Exchange)
    (store₁ store₂ : RedisStore) : Prop where
  first : v.analyseHandler x₁ store₁ body = .ok (⟨none, []⟩, store₁)
  second : v.analyseHandler x₂ store₂ body = .ok (⟨none, []⟩, store₂)
  reply : ∀ now date h n, Handling.HoldsBody h n body → ∃ h',
    h.readBodyHandler (v.env x₁ store₁ now date) .success n = .ok h' ∧
    h.readBodyHandler (v.env x₂ store₂ now date) .success n = .ok h' ∧
    h'.effects = h.effects ++ [.analyse body] ++
      [.fill (Reply.replyGenerate date contentError Status.internalServerError)] ++
      (if h.conn.stats = .working then [.asyncWrite 0
        (Reply.replyGenerate date contentError Status.internalServerError).length] else []) ++
      [.asyncReadUntil]

section Access

variable {v : Services} {x : Exchange} {store : RedisStore} {body : ByteString} {n : Nat}
variable {members : List (ByteString × Json)} {h : Handling} {env : Env}

/-- The comparison of `analyse_handler` takes an unauthorised request for an
authorised one exactly if it stops at such a NUL. -/
theorem passes_iff (hno : Unauthorised members) :
    Json.stringMember members "access_id" = some Backend.accessIdCode ↔ Extended members := by
  rw [Json.stringMember_eq_rawMember, Option.map_eq_some_iff]
  constructor
  · rintro ⟨raw, hraw, hcut⟩
    have hnul : 0 ∈ raw := by
      by_contra hplain
      rw [cString_eq_self hplain] at hcut
      exact hno (hraw.trans (congrArg some hcut))
    obtain ⟨front, rest, rfl, hfront⟩ := List.eq_append_cons_of_mem hnul
    rw [cString_append_zero, cString_eq_self hfront] at hcut
    exact ⟨rest, hcut ▸ hraw⟩
  · rintro ⟨rest, hraw⟩
    have hplain : 0 ∉ Backend.accessIdCode := by decide
    exact ⟨_, hraw, by rw [cString_append_zero, cString_eq_self hplain]⟩

theorem query_eq_none_iff (hparse : v.parse (cString body) = some (.object members))
    (hno : Unauthorised members) :
    v.query body = none ↔ ¬ (Extended members ∧ Asks members) := by
  simp only [query, hparse, ← passes_iff hno, Asks]
  by_cases hpass : Json.stringMember members "access_id" = some Backend.accessIdCode
  · cases huuid : Json.rawMember members "uuid" with
    | some text => simp [hpass]
    | none => cases hcontent : Json.rawMember members "content" <;> simp [hpass]
  · simp [hpass]

/-- A refused body is answered from the object alone: what Redis holds and what
the outside does is not looked at. -/
theorem readBodyHandler_of_refused (hr : h.HoldsBody n body) (henv : env.analyse body = .ok none) :
    h.readBodyHandler env .success n =
      (Handling.emit { h with conn := { h.conn with rSize := h.conn.rSize + n } }
        (.analyse body)).errorReturn env := by
  rw [Handling.readBodyHandler, if_pos ⟨rfl, hr.nonempty⟩]
  simp only [hr.complete, if_false, hr.uri, if_true, Handling.analyseHandler,
    Nat.not_lt.mpr hr.room, hr.body, henv]

/-- Without a query nothing is looked up, and the store stays as it is. -/
theorem analyseHandler_of_no_query (x : Exchange) (store : RedisStore)
    (hread : v.readable body = true) (hq : v.query body = none) :
    v.analyseHandler x store body = .ok (⟨none, []⟩, store) := by
  rw [analyseHandler_eq, analyse_eq, hq]
  simp only [hread, if_true]
  rfl

theorem sameRefusal_of_no_query (hread : v.readable body = true) (hq : v.query body = none)
    (x₁ x₂ : Exchange) (store₁ store₂ : RedisStore) :
    v.SameRefusal body x₁ x₂ store₁ store₂ := by
  have hfirst := analyseHandler_of_no_query x₁ store₁ hread hq
  have hsecond := analyseHandler_of_no_query x₂ store₂ hread hq
  refine ⟨hfirst, hsecond, fun now date h n hr => ?_⟩
  have henv := env_analyse now date hfirst
  have henv' := env_analyse now date hsecond
  obtain ⟨h', hh', -, heffects⟩ := hr.handled henv
  refine ⟨h', hh', ?_, heffects rfl⟩
  rw [readBodyHandler_of_refused hr henv] at hh'
  rw [readBodyHandler_of_refused hr henv']
  exact hh'

/-- Of the unauthorised requests exactly those are refused without an effect,
and alike over all Redis data, that do not ask anything behind the access code,
a NUL and more. -/
theorem unauthorised_refused_iff (hparse : v.parse (cString body) = some (.object members))
    (hno : Unauthorised members) :
    (∀ x₁ x₂ store₁ store₂, v.SameRefusal body x₁ x₂ store₁ store₂) ↔
      ¬ (Extended members ∧ Asks members) := by
  rw [← query_eq_none_iff hparse hno]
  constructor
  · intro hrefused
    by_contra hquery
    obtain ⟨q, hq⟩ := Option.ne_none_iff_exists'.mp hquery
    -- Redis has an answer to it
    let stored : RedisStore := fun _ => some []
    have hentry : stored (v.key q) = some [] := rfl
    have hfirst := (hrefused (Cache.replying []) (Cache.replying []) stored fun _ => none).first
    rw [Cache.analyse_hit [] hq hentry] at hfirst
    cases hfirst
  · intro hq
    have hread : v.readable body = true := by rw [readable, hparse]
    exact sameRefusal_of_no_query hread hq

end Access

def accessBody (written : String) : ByteString :=
  ofString "\x7b\"access_id\":\"" ++ ofString written ++ ofString "\",\"uuid\":\"7\"\x7d"

def accessMembers (accessId : ByteString) : List (ByteString × Json) :=
  [(ofString "access_id", .string accessId), (ofString "uuid", .string (ofString "7"))]

/-- A parser that reads one such request. The parameter is what rapidjson makes
of the escapes in it. -/
def accessServices (written : String) (accessId : ByteString) : Services where
  parse body := if body = accessBody written then some (.object (accessMembers accessId)) else none
  md5 text := text

theorem accessServices_parse (written : String) (accessId : ByteString)
    (hplain : 0 ∉ accessBody written) :
    (accessServices written accessId).parse (cString (accessBody written)) =
      some (.object (accessMembers accessId)) := by
  rw [cString_eq_self hplain]
  simp [accessServices]

/-- A wrong access id learns nothing, although it asks for an
entry that may be there. -/
theorem unauthorised_refused_iff_guess : Unauthorised (accessMembers (ofString "1")) ∧
    ∀ x₁ x₂ store₁ store₂, (accessServices "1" (ofString "1")).SameRefusal (accessBody "1")
      x₁ x₂ store₁ store₂ := by
  have hno : Unauthorised (accessMembers (ofString "1")) := by
    unfold Unauthorised
    decide +kernel
  refine ⟨hno, (unauthorised_refused_iff
    (accessServices_parse "1" (ofString "1") (by decide +kernel)) hno).mpr ?_⟩
  rintro ⟨⟨rest, hraw⟩, -⟩
  have hlen : (ofString "1").length = Backend.accessIdCode.length + (rest.length + 1) := by
    simpa using congrArg List.length (Option.some.inj hraw)
  have hcode : (ofString "1").length ≤ Backend.accessIdCode.length := by decide
  omega

/-- The access code with a NUL and `x` behind it reads what Redis holds: two
stores give two replies. -/
theorem extended_code_reads_cache :
    Unauthorised (accessMembers (Backend.accessIdCode ++ [0, 120])) ∧
      (accessServices "11488058246\\u0000x" (Backend.accessIdCode ++ [0, 120])).analyseHandler
          (Cache.replying []) (fun _ => some [104, 105]) (accessBody "11488058246\\u0000x") =
        .ok (⟨some [104, 105], [.getValue (ofString "7") (some [104, 105])]⟩,
          fun _ => some [104, 105]) ∧
      ¬ (accessServices "11488058246\\u0000x" (Backend.accessIdCode ++ [0, 120])).SameRefusal
        (accessBody "11488058246\\u0000x") (Cache.replying []) (Cache.replying [])
        (fun _ => some [104, 105]) (fun _ => none) := by
  have hno : Unauthorised (accessMembers (Backend.accessIdCode ++ [0, 120])) := by
    unfold Unauthorised
    decide +kernel
  have hquery : (accessServices "11488058246\\u0000x" (Backend.accessIdCode ++ [0, 120])).query
      (accessBody "11488058246\\u0000x") = some (.uuid (ofString "7")) := by
    decide +kernel
  let stored : RedisStore := fun _ => some [104, 105]
  have hentry : stored ((accessServices "11488058246\\u0000x"
      (Backend.accessIdCode ++ [0, 120])).key (.uuid (ofString "7"))) = some [104, 105] := rfl
  have hhit := Cache.analyse_hit [] hquery hentry
  refine ⟨hno, hhit, fun hsame => ?_⟩
  have hfirst := hsame.first
  rw [hhit] at hfirst
  cases hfirst

end Services

end Ailawd
