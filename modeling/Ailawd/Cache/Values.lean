import Ailawd.Cache.History

/-!
# Whether a hit repeats the miss

The reply of the backend is sent as it came, but a `SET` writes it as a C string and a
`GET` reads it back as one. A later request that hits the entry gets the bytes before
the first NUL.
-/

namespace Ailawd

open ByteString Transition

namespace Cache

variable {v : Services} {start s : RedisStore}
variable {front mid back : List (Move RedisStore AnalyseRequest)}
variable {m m' : Move RedisStore AnalyseRequest} {key payload text : ByteString}

/-- The body of the response that the client of this request gets, from Redis
or from the backend. -/
def Responds (v : Services) (m : Move RedisStore AnalyseRequest) (text : ByteString) : Prop :=
  ∃ out, Returns v m out ∧ out.text = some text

/-- The response to a request that stores a reply and the one to the next
request that hits the entry are equal exactly if the reply has no NUL byte. -/
theorem cached_value_eq_iff (hr : Run (step v) start (front ++ m :: (mid ++ m' :: back)) s)
    (hstored : Stored v m key payload) (hmid : ∀ n ∈ mid, ∀ value, ¬ Stored v n key value)
    (hhit : Hit v m' key text) :
    Responds v m payload ∧ Responds v m' text ∧ (text = payload ↔ (0 : UInt8) ∉ payload) := by
  obtain ⟨q, -, -, hpost, hmiss⟩ := hstored.spec
  obtain ⟨q', -, -, ⟨raw, hraw, rfl⟩, hanswer⟩ := hhit.spec
  have hkept : m'.pre key = m.post key := unstored_run hr.after.before hmid
  rw [hraw, hpost, Function.update_self] at hkept
  obtain rfl := Option.some.inj hkept
  exact ⟨hmiss, hanswer, by rw [cString_cString, cString_eq_self_iff]⟩

section NulByte

def sevenRequest : ByteString := ofString
  "\x7b\"access_id\":\"11488058246\",\"uuid\":\"7\"\x7d"

def sevenServices : Services where
  parse body :=
    if body = sevenRequest then
      some (.object [(ofString "access_id", .string Backend.accessIdCode),
        (ofString "uuid", .string (ofString "7"))])
    else none
  md5 text := text

theorem query_seven : sevenServices.query sevenRequest = some (.uuid (ofString "7")) := by
  decide +kernel

/-- The same request twice, the backend answering the first with two letters,
which come back from Redis. -/
theorem cached_value_eq_iff_letters : ∃ m m' s, Run (step sevenServices) init [m, m'] s ∧
    Responds sevenServices m (ofString "ab") ∧ Responds sevenServices m' (ofString "ab") ∧
    (ofString "ab" = ofString "ab" ↔ (0 : UInt8) ∉ ofString "ab") := by
  obtain ⟨m, m', s, hr, -, -, hstored, hhit⟩ := exists_miss_hit (ofString "ab")
    query_seven query_seven rfl (by decide) (by decide) (by decide)
  have hrun : Run (step sevenServices) init ([] ++ m :: ([] ++ m' :: [])) s := hr
  exact ⟨m, m', s, hr, cached_value_eq_iff hrun hstored (fun n hn => absurd hn List.not_mem_nil)
    hhit⟩

/-- With a NUL byte between them the second response is one byte long, although
the first one had three. -/
theorem nul_byte_cut_from_hit : ∃ m m' s, Run (step sevenServices) init [m, m'] s ∧
    m.label.body = m'.label.body ∧ Stored sevenServices m (ofString "7") [97, 0, 98] ∧
    Hit sevenServices m' (ofString "7") [97] ∧ Responds sevenServices m [97, 0, 98] ∧
    Responds sevenServices m' [97] := by
  obtain ⟨m, m', s, hr, hbody, hbody', hstored, hhit⟩ := exists_miss_hit [97, 0, 98]
    query_seven query_seven rfl (by decide) (by decide) (by decide)
  obtain ⟨-, -, -, -, hmiss⟩ := hstored.spec
  obtain ⟨-, -, -, -, hanswer⟩ := hhit.spec
  exact ⟨m, m', s, hr, hbody.trans hbody'.symm, hstored, hhit, hmiss, hanswer⟩

end NulByte

end Cache

end Ailawd
