import Ailawd.Backend.Outcomes
import Ailawd.Connection.Reassembly

/-!
# Which failures of the backend a connection survives

The body handler passes on what `analyse_handler` does: a fault ends the process, false is
answered with a 500 and true with the text. `backend_contained_iff` says which failures of
the backend end as a reply.
-/

namespace Ailawd

open ByteString HttpProto

namespace Services

/-- The environment of a connection whose bodies are analysed over this store,
with one exchange for each call. -/
def env (v : Services) (x : Exchange) (store : RedisStore) (now : Nat) (date : ByteString) : Env :=
  ⟨now, date, fun body => (v.analyseHandler x store body).map fun r => r.1.text⟩

end Services

def Env.errorReply (env : Env) : ByteString :=
  Reply.replyGenerate env.date contentError Status.internalServerError

namespace Handling

/-- The body handler makes exactly one reply, a 500 that is sent as a whole,
and then listens for the next head. -/
def Refuses (env : Env) (h : Handling) (n : Nat) (body : ByteString) : Prop :=
  ∃ h', h.readBodyHandler env .success n = .ok h' ∧ h'.conn.stats = .working ∧
    h'.effects = h.effects ++ [.analyse body, .fill env.errorReply,
      .asyncWrite 0 env.errorReply.length, .asyncReadUntil]

variable {env : Env} {h : Handling} {n : Nat} {body : ByteString}

/-- What `write_return` does with a filled buffer. The reply goes out only
while the connection works; the next read is started in any case. -/
theorem fillForHttp_writeReturn_effects (env : Env) {sock : SockId}
    (hsock : h.conn.pSock = some sock) (content status : ByteString) :
    ∃ h', (h.fillForHttp env content status).writeReturn env = .ok h' ∧
      h'.conn.stats = .working ∧ h'.effects = h.effects ++
        [.fill (Reply.replyGenerate env.date content status)] ++
        (if h.conn.stats = .working
          then [.asyncWrite 0 (Reply.replyGenerate env.date content status).length] else []) ++
        [.asyncReadUntil] := by
  obtain ⟨h', hr⟩ := fillForHttp_writeReturn_isOk env hsock content status
  have hanswer := hr
  simp only [writeReturn] at hr
  split at hr
  · cases hr
  next g hg =>
    obtain ⟨-, -, -, heffects⟩ := doWrite_eq_ok hg rfl
    obtain ⟨-, rfl⟩ := start_eq_ok hr
    refine ⟨_, hanswer, rfl, ?_⟩
    rw [heffects]
    rfl

/-- A complete body goes to the analysis, whose result decides the reply. A
fault in it leaves the handler. -/
theorem HoldsBody.handled (hr : h.HoldsBody n body) {text : Option ByteString}
    (henv : env.analyse body = .ok text) :
    ∃ h', h.readBodyHandler env .success n = .ok h' ∧ h'.conn.stats = .working ∧
      (text = none → h'.effects = h.effects ++ [.analyse body] ++ [.fill env.errorReply] ++
        (if h.conn.stats = .working then [.asyncWrite 0 env.errorReply.length] else []) ++
        [.asyncReadUntil]) := by
  obtain ⟨s, hsock⟩ := hr.sock
  rw [readBodyHandler, if_pos ⟨rfl, hr.nonempty⟩]
  simp only [hr.complete, if_false, hr.uri, if_true, analyseHandler, Nat.not_lt.mpr hr.room,
    hr.body, henv]
  cases text with
  | none =>
      obtain ⟨h', hr', hstats, heffects⟩ := fillForHttp_writeReturn_effects env
        (h := ({ h with conn := { h.conn with rSize := h.conn.rSize + n } } : Handling).emit
          (.analyse body)) hsock contentError Status.internalServerError
      exact ⟨h', hr', hstats, fun _ => heffects⟩
  | some text =>
      obtain ⟨h', hr', hstats, -⟩ := fillForHttp_writeReturn_effects env
        (h := ({ h with conn := { h.conn with rSize := h.conn.rSize + n } } : Handling).emit
          (.analyse body)) hsock text Status.ok
      exact ⟨h', hr', hstats, by simp⟩

theorem HoldsBody.refuses_iff (hr : h.HoldsBody n body) (henv : env.analyse body = .ok none) :
    h.Refuses env n body ↔ h.conn.stats = .working := by
  obtain ⟨h', hh', hstats, heffects⟩ := hr.handled henv
  have heffects := heffects rfl
  constructor
  · rintro ⟨h'', hh'', -, heffects'⟩
    obtain rfl := Except.ok.inj (hh'.symm.trans hh'')
    by_contra hw
    rw [heffects', if_neg hw] at heffects
    have hlength := congrArg List.length heffects
    simp at hlength
  · intro hw
    refine ⟨h', hh', hstats, ?_⟩
    rw [heffects, if_pos hw]
    simp

end Handling

/-- A working connection that has received this body of an `/analyse` request,
in a buffer of its initial size. -/
def Handling.ofBody (body : ByteString) : Handling :=
  ⟨{ (FrontConn.make 7 0).conn with
      stats := .working
      pBuffer := (CharVec.zeros (16 * 1024)).write 0 body
      parser := (HttpParser.init.parseRequest
        (ofString "POST /analyse HTTP/1.1\r\nContent-Length: " ++ decimal body.length ++
          crlf2)).2 }, []⟩

theorem Handling.ofBody_holdsBody {body : ByteString} (hne : body ≠ [])
    (hroom : body.length ≤ 16 * 1024)
    (hlen : (Handling.ofBody body).conn.parser.contentLength = body.length)
    (huri : (Handling.ofBody body).conn.parser.hasUri "/analyse" = true) :
    (Handling.ofBody body).HoldsBody body.length body where
  sock := ⟨7, rfl⟩
  nonempty := Nat.ne_of_gt (List.length_pos_iff.mpr hne)
  complete := by
    rw [hlen]
    exact Nat.not_lt.mpr (Nat.le_add_left _ _)
  uri := huri
  room := by
    change 0 + body.length ≤ 16 * 1024
    omega
  body := by
    change ((CharVec.zeros (16 * 1024)).write 0 body).slice 0 (0 + body.length) = body
    rw [Nat.zero_add, CharVec.slice_write_self]

namespace Services

variable (v : Services) (x : Exchange) (store : RedisStore) (now : Nat) (date : ByteString)
variable (h : Handling) (n : Nat) (body : ByteString)

/-- No exception leaves the completion handler, and if a step of the exchange
fails then `redirect_to_win` returns false, the store is unchanged and exactly
one 500 reply is sent. -/
structure Contained : Prop where
  returns : ∃ h', h.readBodyHandler (v.env x store now date) .success n = .ok h'
  redirected : ¬ x.Succeeds (cString body) →
    ∃ calls, (v.backend x store).redirectToWin (cString body) = .ok ⟨none, calls⟩
  unchanged : ¬ x.Succeeds (cString body) →
    ∃ out, v.analyseHandler x store body = .ok (out, store)
  refused : ¬ x.Succeeds (cString body) → h.Refuses (v.env x store now date) n body

variable {v x store now date h n body}

theorem env_analyse (now : Nat) (date : ByteString) {out : Outcome} {store' : RedisStore}
    (hout : v.analyseHandler x store body = .ok (out, store')) :
    (v.env x store now date).analyse body = .ok out.text := by
  simp only [env, hout]
  rfl

/-- The failures of an exchange are contained exactly if it throws nowhere,
returns nothing of a reply that has failed, and a failure finds the connection
working. -/
theorem backend_contained_iff (hr : h.HoldsBody n body) (hne : ∀ seg ∈ x.reads, seg ≠ [])
    (hmiss : v.Misses x store body) :
    v.Contained x store now date h n body ↔
      x.Returns (cString body) ∧ (x.Delivers → x.Succeeds (cString body)) ∧
        (h.conn.stats = .working ∨ x.Succeeds (cString body)) := by
  obtain ⟨q, hq, hget⟩ := hmiss
  have hread := readable_of_query hq
  constructor
  · rintro ⟨⟨h', hh'⟩, hredirected, -, hrefused⟩
    have hreturns : x.Returns (cString body) := by
      by_contra hthrows
      cases hout : v.analyseHandler x store body with
      | error e =>
          have henv : (v.env x store now date).analyse body = .error e := by
            simp only [env, hout]
            rfl
          cases (hr.faults henv).symm.trans hh'
      | ok r => exact hthrows (((analyseHandler_returns_iff hne).mp ⟨r, hout⟩).2 ⟨q, hq, hget⟩)
    obtain ⟨out, hout, htext⟩ := redirectToWin_of_returns v store hne hreturns
    refine ⟨hreturns, ?_, ?_⟩
    · intro hdelivers
      by_contra hfails
      obtain ⟨calls, hnone⟩ := hredirected hfails
      obtain rfl := Except.ok.inj (hout.symm.trans hnone)
      exact htext.mp rfl hdelivers
    · by_cases hsucceeds : x.Succeeds (cString body)
      · exact .inr hsucceeds
      · obtain ⟨calls, hnone⟩ := hredirected hsucceeds
        obtain rfl := Except.ok.inj (hout.symm.trans hnone)
        obtain ⟨out, store', hout', htext', -⟩ :=
          analyseHandler_of_returns store hne hread fun _ => hreturns
        have henv := env_analyse now date hout'
        rw [htext'.mpr fun hanswers => ((answers_iff hq).mp hanswers).elim (absurd hget)
          (htext.mp rfl)] at henv
        exact .inl ((hr.refuses_iff henv).mp (hrefused hsucceeds))
  · rintro ⟨hreturns, hwhole, hstats⟩
    obtain ⟨out, store', hout, htext, hkeep⟩ :=
      analyseHandler_of_returns store hne hread fun _ => hreturns
    have henv := env_analyse now date hout
    obtain ⟨h', hh', -⟩ := hr.handled henv
    have hnone : ¬ x.Succeeds (cString body) → out.text = none := by
      intro hfails
      apply htext.mpr
      intro hanswers
      exact ((answers_iff hq).mp hanswers).elim (absurd hget) fun hdelivers =>
        hfails (hwhole hdelivers)
    refine ⟨⟨h', hh'⟩, ?_, ?_, ?_⟩
    · intro hfails
      obtain ⟨⟨text, calls⟩, hback, hback'⟩ :=
        redirectToWin_of_returns v store hne hreturns
      obtain rfl : text = none := hback'.mpr fun hdelivers => hfails (hwhole hdelivers)
      exact ⟨calls, hback⟩
    · intro hfails
      exact ⟨out, by rw [hout, hkeep (hnone hfails)]⟩
    · intro hfails
      rw [hnone hfails] at henv
      exact (hr.refuses_iff henv).mpr (hstats.resolve_right hfails)

section Reset

/-- An authorised request with the uuid `7`. -/
def uuidBody : ByteString := ofString "\x7b\"access_id\":\"11488058246\",\"uuid\":\"7\"\x7d"

def uuidServices : Services where
  parse body :=
    if body = uuidBody then
      some (.object [(ofString "access_id", .string Backend.accessIdCode),
        (ofString "uuid", .string (ofString "7"))])
    else none
  md5 text := text

theorem uuidBody_received : (Handling.ofBody uuidBody).HoldsBody uuidBody.length uuidBody :=
  Handling.ofBody_holdsBody (by decide) (by decide) (by decide +kernel) (by decide +kernel)

private theorem uuidBody_misses (x : Exchange) :
    uuidServices.Misses x (fun _ => none) uuidBody := by
  refine ⟨.uuid (ofString "7"), by decide +kernel, ?_⟩
  rw [RedisClient.getValueBinary]
  split <;> rfl

/-- A connect that times out is answered with a 500, like
every other one that fails. -/
theorem backend_contained_iff_timeout : uuidServices.Contained
    ⟨false, fun _ => none, [], true, true⟩ (fun _ => none) 0 [] (.ofBody uuidBody)
      uuidBody.length uuidBody := by
  apply (backend_contained_iff uuidBody_received (by simp) (uuidBody_misses _)).mpr
  refine ⟨?_, ?_, .inl rfl⟩
  · intro hconnects
    cases hconnects
  · rintro ⟨hconnects, -⟩
    cases hconnects

/-- The backend accepts the connection and resets it before the request is
sent: the `write_some` throws through the handler. -/
theorem reset_escapes : (Handling.ofBody uuidBody).HoldsBody uuidBody.length uuidBody ∧
    uuidServices.Misses ⟨true, fun _ => none, [], true, true⟩ (fun _ => none) uuidBody ∧
    ¬ uuidServices.Contained ⟨true, fun _ => none, [], true, true⟩ (fun _ => none) 0 []
      (.ofBody uuidBody) uuidBody.length uuidBody := by
  refine ⟨uuidBody_received, uuidBody_misses _, ?_⟩
  rintro ⟨-, hredirected, -⟩
  obtain ⟨calls, hcalls⟩ := hredirected fun hsucceeds => hsucceeds.2.1 rfl
  cases hcalls

end Reset

end Services

end Ailawd
