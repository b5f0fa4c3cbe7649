import Ailawd.Connection.Reassembly
import Ailawd.Connection.ReplyStream

/-!
# A conversation

A client sends `/analyse` requests on one connection and waits for each reply. What it reads off
the wire is one reply for each request, in their order, with what `analyse_handler` has returned
for the body of that request, however the streams are cut in both directions.
-/

namespace Ailawd

open ByteString CodeWords HttpProto Transition

/-- The reply to a body for which `analyse_handler` has returned this: the
text, or the error page. -/
def Env.response (env : Env) : Option ByteString → Response
  | some text => ⟨env.date, text, Status.ok⟩
  | none => ⟨env.date, contentError, Status.internalServerError⟩

theorem response_plain {env : Env} (htrim : Trimmed env.date) (hline : OneLine env.date)
    (text : Option ByteString) : (env.response text).Plain := by
  have hstatus : Status.ok ∈ Status.all ∧ Status.internalServerError ∈ Status.all := by decide
  cases text with
  | none => exact ⟨htrim, hline, hstatus.2⟩
  | some text => exact ⟨htrim, hline, hstatus.1⟩

theorem content_response (env : Env) (text : Option ByteString) :
    (env.response text).content = text.getD contentError := by
  cases text <;> rfl

/-- The bytes of a reply determine its content, since the head of the reply
announces how long that is. -/
theorem Response.Plain.content_eq {r r' : Response} (h : r.Plain) (h' : r'.Plain)
    (hbytes : r.bytes = r'.bytes) : r.content = r'.content := by
  have hdec := Reply.delimited.word r h []
  rw [hbytes, Reply.delimited.word r' h' []] at hdec
  exact (Prod.mk.inj (Option.some.inj hdec)).1.symm

def Handling.log (h : Handling) : List ByteString × List ByteString :=
  (h.effects.filterMap Effect.analysed?, h.effects.filterMap Effect.filled?)

/-- A body that has been analysed is answered, and nothing else is. One handler
analyses one body at most. -/
def Handling.Explained (env : Env) (h : Handling) : Prop :=
  h.log.1 = [] ∨
    ∃ body text, env.analyse body = .ok text ∧ h.log = ([body], [(env.response text).bytes])

namespace Handling

variable {env : Env} {h h' : Handling} {e : Effect} {ec : ErrorCode} {n : Nat}

theorem log_emit (ha : e.analysed? = none) (hf : e.filled? = none) : (h.emit e).log = h.log := by
  simp [log, emit, List.filterMap_append, ha, hf]

theorem log_fillForHttp (env : Env) (h : Handling) (content status : ByteString) :
    (h.fillForHttp env content status).log =
      (h.log.1, h.log.2 ++ [(⟨env.date, content, status⟩ : Response).bytes]) := by
  simp [log, fillForHttp, List.filterMap_append, Effect.analysed?, Effect.filled?, Response.bytes]

theorem log_withSocket (hr : h.withSocket e = .ok h') (ha : e.analysed? = none)
    (hf : e.filled? = none) : h'.log = h.log := by
  obtain ⟨-, rfl⟩ := withSocket_eq_ok hr
  exact log_emit ha hf

theorem log_start (hr : h.start env = .ok h') : h'.log = h.log := by
  obtain ⟨-, rfl⟩ := start_eq_ok hr
  exact log_emit (h := ⟨_, h.effects⟩) (e := .asyncReadUntil) rfl rfl

theorem log_doReadBody (hr : h.doReadBody env = .ok h') : h'.log = h.log := by
  simp only [doReadBody] at hr
  split at hr
  · rw [← Except.ok.inj hr]
  · exact log_withSocket (h := h.touchSockTime env) hr rfl rfl

theorem log_doWrite (hr : h.doWrite env = .ok h') : h'.log = h.log := by
  obtain ⟨-, rfl⟩ | ⟨-, -, -, rfl⟩ := doWrite_cases hr
  · rfl
  · exact log_emit (h := ⟨_, h.effects⟩) (e := .asyncWrite _ _) rfl rfl

theorem log_writeReturn (hr : h.writeReturn env = .ok h') : h'.log = h.log := by
  simp only [writeReturn] at hr
  split at hr
  · cases hr
  next g hg => exact (log_start hr).trans (log_doWrite hg)

theorem log_socketError (hr : h.socketError = .ok h') : h'.log = h.log := by
  simp only [socketError] at hr
  split at hr
  · cases hr
  next g hg =>
    split at hr
    · cases hr
    next k hk =>
      obtain rfl := Except.ok.inj hr
      rw [← log_withSocket hg rfl rfl, ← log_withSocket hk rfl rfl]
      simp [log, notifyConnError, List.filterMap_append, Effect.analysed?, Effect.filled?]

theorem log_fill_writeReturn {content status : ByteString}
    (hr : (h.fillForHttp env content status).writeReturn env = .ok h') :
    h'.log = (h.log.1, h.log.2 ++ [(⟨env.date, content, status⟩ : Response).bytes]) :=
  (log_writeReturn hr).trans (log_fillForHttp env h content status)

theorem log_errorReturnHead (hr : h.errorReturnHead env = .ok h') : h'.log.1 = h.log.1 := by
  have hfill : (h.fillForHttp env contentError Status.internalServerError).log.1 = h.log.1 := by
    rw [log_fillForHttp]
  rw [log_writeReturn hr]
  exact hfill

/-- A text that the analysis has returned is encoded at once,
before anything else can be. -/
theorem log_analyseHandler_true (hh : h.log = ([], []))
    (hr : h.analyseHandler env = .ok (true, h')) : ∃ text,
      env.analyse (h.conn.pBuffer.slice 0 h.conn.rSize) = .ok (some text) ∧
        h'.log = ([h.conn.pBuffer.slice 0 h.conn.rSize], [(env.response (some text)).bytes]) := by
  simp only [analyseHandler] at hr
  split at hr
  · cases hr
  split at hr
  · cases hr
  · cases hr
  next text henv =>
    cases hr
    refine ⟨text, henv, ?_⟩
    simp only [log, Prod.mk.injEq] at hh
    rw [log_fillForHttp]
    simp [log, emit, List.filterMap_append, hh.1, hh.2, Effect.analysed?, Effect.filled?,
      Env.response]

theorem log_analyseHandler_false (hh : h.log = ([], []))
    (hr : h.analyseHandler env = .ok (false, h')) :
    env.analyse (h.conn.pBuffer.slice 0 h.conn.rSize) = .ok none ∧
      h'.log = ([h.conn.pBuffer.slice 0 h.conn.rSize], []) := by
  simp only [analyseHandler] at hr
  split at hr
  · cases hr
  split at hr
  · cases hr
  next henv =>
    cases hr
    refine ⟨henv, ?_⟩
    simp only [log, Prod.mk.injEq] at hh
    simp [log, emit, List.filterMap_append, hh.1, hh.2, Effect.analysed?, Effect.filled?]
  · cases hr

/-- The only place that calls `analyse_handler`, and what it does with the
result in each of its branches. -/
theorem readBodyHandler_explained (hh : h.log = ([], []))
    (hr : h.readBodyHandler env ec n = .ok h') : h'.Explained env := by
  have hnone : h.log.1 = [] := congrArg Prod.fst hh
  rw [readBodyHandler] at hr
  split at hr
  · simp only at hr
    split at hr
    · exact .inl ((congrArg Prod.fst (log_doReadBody hr)).trans hnone)
    split at hr
    · set g : Handling := { h with conn := { h.conn with rSize := h.conn.rSize + n } }
      have hg : g.log = ([], []) := hh
      split at hr
      · cases hr
      next k hk =>
        obtain ⟨text, henv, hlog⟩ := log_analyseHandler_true hg hk
        exact .inr ⟨_, some text, henv, (log_writeReturn hr).trans hlog⟩
      next k hk =>
        obtain ⟨henv, hlog⟩ := log_analyseHandler_false hg hk
        refine .inr ⟨_, none, henv, ?_⟩
        rw [log_fill_writeReturn hr, hlog]
        rfl
    · exact .inl ((congrArg Prod.fst (log_fill_writeReturn hr)).trans hnone)
  · split at hr
    · exact .inl ((congrArg Prod.fst (log_socketError hr)).trans hnone)
    · exact .inl ((congrArg Prod.fst (log_fill_writeReturn hr)).trans hnone)

theorem log_growBuffer (hr : h.growBuffer n = .ok h') : h'.log = h.log := by
  simp only [growBuffer] at hr
  split at hr
  · split at hr
    · cases hr
    · rw [← Except.ok.inj hr]
      rfl
  · rw [← Except.ok.inj hr]

theorem log_takeAdditional (hr : h.takeAdditional = .ok h') : h'.log = h.log := by
  simp only [takeAdditional] at hr
  split at hr
  · rw [← Except.ok.inj hr]
  · split at hr
    · cases hr
    · rw [← Except.ok.inj hr]
      rfl

theorem receiveBody_explained (hh : h.log = ([], [])) (hr : h.receiveBody env = .ok h') :
    h'.Explained env := by
  rw [receiveBody] at hr
  simp only at hr
  split at hr
  · cases hr
  split at hr
  · cases hr
  next g hg =>
  split at hr
  · cases hr
  next k hk =>
  have hlog : k.log = ([], []) := (log_takeAdditional hk).trans ((log_growBuffer hg).trans hh)
  split at hr
  · exact .inl (congrArg Prod.fst ((log_doReadBody hr).trans hlog))
  · exact readBodyHandler_explained hlog hr

theorem readHeadHandler_explained (hh : h.log = ([], []))
    (hr : h.readHeadHandler env ec n = .ok h') : h'.Explained env := by
  have hnone : h.log.1 = [] := congrArg Prod.fst hh
  simp only [readHeadHandler] at hr
  split at hr
  · have hlog : (Handling.emit { h with conn := { h.conn with
        request := h.conn.request.drop n
        parser := (h.conn.parser.parseRequest h.conn.request).2 } }
        (.parse h.conn.request)).log = ([], []) := (log_emit rfl rfl).trans hh
    have hparsed := congrArg Prod.fst hlog
    split at hr
    · exact .inl ((log_errorReturnHead hr).trans hparsed)
    · split at hr
      · exact .inl ((congrArg Prod.fst (log_fill_writeReturn hr)).trans hparsed)
      · split at hr
        · exact receiveBody_explained hlog hr
        · exact .inl ((congrArg Prod.fst (log_fill_writeReturn hr)).trans hparsed)
  · split at hr
    · exact .inl ((congrArg Prod.fst (log_socketError hr)).trans hnone)
    · exact .inl ((log_errorReturnHead hr).trans hnone)

theorem writeHandler_explained (hh : h.log = ([], []))
    (hr : h.writeHandler env ec n = .ok h') : h'.Explained env := by
  have hnone : h.log.1 = [] := congrArg Prod.fst hh
  simp only [writeHandler] at hr
  split at hr
  · split at hr
    · exact .inl ((congrArg Prod.fst (log_doWrite hr)).trans hnone)
    · obtain rfl := Except.ok.inj hr
      exact .inl hnone
  · split at hr
    · exact .inl ((congrArg Prod.fst (log_socketError hr)).trans hnone)
    · obtain rfl := Except.ok.inj hr
      exact .inl hnone

end Handling

/-- Every handler answers what it has analysed, with what the analysis
returned in that very call. -/
theorem OpKind.deliver_explained {kind : OpKind} {c : FrontConn} {ec : ErrorCode}
    {data : ByteString} {env : Env} {h : Handling} (hr : kind.deliver c ec data env = .ok h) :
    h.Explained env := by
  cases kind with
  | readHead =>
      simp only [deliver] at hr
      split at hr
      · split at hr
        · cases hr
        split at hr
        · cases hr
        · exact Handling.readHeadHandler_explained rfl (mapError_eq_ok hr)
      · exact Handling.readHeadHandler_explained rfl (mapError_eq_ok hr)
  | readBody offset len =>
      simp only [deliver] at hr
      split at hr
      · cases hr
      split at hr
      · cases hr
      · exact Handling.readBodyHandler_explained rfl (mapError_eq_ok hr)
  | write w =>
      simp only [deliver] at hr
      split at hr
      · cases hr
      · exact Handling.writeHandler_explained rfl (mapError_eq_ok hr)

/-- The reply to this body, in some environment that `A` allows for it. -/
def Answers (A : ByteString → Option ByteString → Prop) (body reply : ByteString) : Prop :=
  ∃ env text, (Env.response env text).Plain ∧ A body text ∧ reply = (env.response text).bytes

namespace Dialogue

variable {A : ByteString → Option ByteString → Prop} {requests : List Request}
variable {d d' d₀ : Dialogue} {a : Signal} {moves : List (Move Dialogue Signal)} {sock : SockId}

/-- What the environment of a signal returns for the requests. It may
differ from call to call. -/
def Allowed (A : ByteString → Option ByteString → Prop) (requests : List Request) :
    Signal → Prop
  | .event (.complete _ _ _ env) => Trimmed env.date ∧ OneLine env.date ∧
      ∀ r ∈ requests, ∀ text, env.analyse r.body = .ok text → A r.body text
  | _ => True

/-- In step, the bodies of the answered requests have been analysed, in the
order of the requests. -/
theorem analyses_of_phase (hall : ∀ r ∈ requests, r.Analysed) (hp : Phase requests d) :
    d.session.conn.stats = .working ∧ d.session.replies ≤ requests.length ∧
      d.session.analyses = (requests.take d.session.replies).map Request.body := by
  cases hp with
  | head h =>
      refine ⟨h.working, h.replies ▸ le_length_of_served h.served, ?_⟩
      rw [h.analyses, h.replies, analysed_eq hall]
  | body h =>
      refine ⟨h.working, h.replies ▸ le_length_of_served h.served, ?_⟩
      rw [h.analyses, h.replies, analysed_eq hall]
  | outOfStep h => exact absurd h.rejected (not_rejected hall _)
  | dead h => exact absurd h.rejected (not_rejected hall _)

theorem react_of_step {e : Event} (hs : Dialogue.step requests d (.event e) = .ok d') :
    ∃ effects, d.session.react e = .ok (d'.session, effects) := by
  cases e with
  | complete i ec data env =>
      simp only [Dialogue.step] at hs
      split at hs
      · cases hs
      cases hx : d.session.step (.complete i ec data env) with
      | error =>
          rw [hx] at hs
          cases hs
      | ok x =>
          rw [hx] at hs
          obtain rfl := Except.ok.inj hs
          exact step_eq_ok hx
  | send i n =>
      simp only [Dialogue.step] at hs
      cases hx : d.session.step (.send i n) with
      | error =>
          rw [hx] at hs
          cases hs
      | ok x =>
          rw [hx] at hs
          obtain rfl := Except.ok.inj hs
          exact step_eq_ok hx

theorem length_filled (x : Session) : x.filled.length = x.replies := by
  rw [Session.filled, Session.replies, List.length_filterMap_eq_countP]
  congr
  funext e
  cases e <;> rfl

theorem answers_complete {x x' : Session} {i : Nat} {ec : ErrorCode} {data : ByteString}
    {env : Env} {effects : List Effect} (hok : x.Ok)
    (hr : x.react (.complete i ec data env) = .ok (x', effects)) :
    x'.analyses = x.analyses ∧ (∃ more, x'.filled = x.filled ++ more) ∨
      ∃ body text, env.analyse body = .ok text ∧ x'.analyses = x.analyses ++ [body] ∧
        x'.filled = x.filled ++ [(env.response text).bytes] := by
  obtain ⟨op, hc⟩ := react_complete hok.wSize hr
  simp only [Session.analyses, Session.filled, hc.trace, List.filterMap_append]
  obtain hnone | ⟨body, text, henv, hlog⟩ :=
    OpKind.deliver_explained (react_complete_deliver hc.found hr)
  · rw [show effects.filterMap Effect.analysed? = [] from hnone]
    exact .inl ⟨List.append_nil _, _, rfl⟩
  · obtain ⟨hbody, hreply⟩ := Prod.mk.inj hlog
    rw [show effects.filterMap Effect.analysed? = _ from hbody,
      show effects.filterMap Effect.filled? = _ from hreply]
    exact .inr ⟨body, text, henv, rfl, rfl⟩

/-- The step lemma of the answers: a reply is added together with
the body that it answers. -/
theorem answers_step (hall : ∀ r ∈ requests, r.Analysed) (hok : d.session.Ok)
    (hp : Phase requests d) (hp' : Phase requests d') (ha : Allowed A requests a)
    (h : List.Forall₂ (Answers A) d.session.analyses d.session.filled)
    (hs : Dialogue.step requests d a = .ok d') :
    List.Forall₂ (Answers A) d'.session.analyses d'.session.filled := by
  cases a with
  | request =>
      simp only [Dialogue.step] at hs
      split at hs
      · cases hs
      split at hs
      · cases hs
      · obtain rfl := Except.ok.inj hs
        exact h
  | event e =>
      obtain ⟨effects, hr⟩ := react_of_step hs
      cases e with
      | send i n =>
          obtain ⟨-, w, sock, -, -, -, hx⟩ := react_send hr
          rw [hx]
          exact h
      | complete i ec data env =>
          obtain ⟨-, hle, hbodies⟩ := analyses_of_phase hall hp
          obtain ⟨-, hle', hbodies'⟩ := analyses_of_phase hall hp'
          obtain ⟨hsame, more, hmore⟩ | ⟨body, text, henv, hbody, hreply⟩ := answers_complete hok hr
          · -- as many replies as bodies, so there is no other reply
            have hnil : more = [] := by
              have hlength := congrArg List.length hsame
              have hlength' := congrArg List.length hmore
              rw [hbodies, hbodies', List.length_map, List.length_map, List.length_take_of_le hle,
                List.length_take_of_le hle'] at hlength
              rw [List.length_append, length_filled, length_filled] at hlength'
              exact List.length_eq_zero_iff.mp (by omega)
            rw [hsame, hmore, hnil, List.append_nil]
            exact h
          · have hmem : body ∈ d'.session.analyses := hbody ▸ List.mem_concat_self
            rw [hbodies'] at hmem
            obtain ⟨r, hrequest, rfl⟩ := List.mem_map.mp hmem
            rw [hbody, hreply]
            obtain ⟨htrim, hline, hreturns⟩ := ha
            have hA := hreturns r (List.mem_of_mem_take hrequest) text henv
            have hplain := response_plain htrim hline text
            exact List.rel_append h (.cons ⟨env, text, hplain, hA, rfl⟩ .nil)

def sessionMove? (m : Move Dialogue Signal) : Option (Move Session Event) :=
  match m.label with
  | .request => none
  | .event e => some ⟨m.pre.session, e, m.post.session⟩

/-- The bytes that have reached the client, over the whole
run and all operations. -/
def wire (moves : List (Move Dialogue Signal)) : ByteString :=
  (moves.filterMap sessionMove?).flatMap sentBy

theorem run_session (hr : Run (Dialogue.step requests) d₀ moves d) :
    Run Session.step d₀.session (moves.filterMap sessionMove?) d.session := by
  induction hr with
  | nil => exact .nil
  | @snoc moves d a d' _ hs ih =>
      rw [List.filterMap_append]
      cases a with
      | request =>
          simp only [Dialogue.step] at hs
          split at hs
          · cases hs
          split at hs
          · cases hs
          · obtain rfl := Except.ok.inj hs
            exact (List.append_nil _).symm ▸ ih
      | event e =>
          obtain ⟨effects, hreact⟩ := react_of_step hs
          refine ih.snoc (a := e) ?_
          rw [Session.step, hreact]
          rfl

/-- The run lemma of the answers: the replies begun match the
bodies analysed, one by one. -/
theorem answers_of_run (hall : ∀ r ∈ requests, r.Analysed) (hd : d₀.Begins sock)
    (hr : Run (Dialogue.step requests) d₀ moves d)
    (ha : ∀ m ∈ moves, Allowed A requests m.label) : ∀ u, Visits moves d u →
      (u.session.Ok ∧ Phase requests u) ∧
        List.Forall₂ (Answers A) u.session.analyses u.session.filled := by
  refine hr.invariant_of_visits (P := fun m => Allowed A requests m.label) ha
    ⟨⟨hd.started.ok, hd.phase⟩, ?_⟩ ?_
  · have hfilled : d₀.session.filled = [] := by
      rw [← List.length_eq_zero_iff, length_filled, hd.replies]
    rw [hd.analyses, hfilled]
    exact .nil
  · rintro d a d' ⟨⟨hok, hp⟩, h⟩ hallowed hs
    obtain ⟨hok', hp'⟩ := hp.step hok (fun k hk => absurd hk.rejected (not_rejected hall k)) hs
    exact ⟨⟨hok', hp'⟩, answers_step hall hok hp hp' hallowed h hs⟩

/-- What a client reads from the replies to its requests, when it
takes their contents only. -/
theorem contents_of_answers {rs : List Request} {replies : List Response}
    (hplain : ∀ r ∈ replies, r.Plain)
    (h : List.Forall₂ (fun r reply => Answers A r.body (Response.bytes reply)) rs replies) :
    List.Forall₂ (fun r content => ∃ text, A r.body text ∧ content = text.getD contentError) rs
      (replies.map Response.content) := by
  induction h with
  | nil => exact .nil
  | cons hanswer _ ih =>
      obtain ⟨hreply, hrest⟩ := List.forall_mem_cons.mp hplain
      obtain ⟨env, text, hresponse, hA, hbytes⟩ := hanswer
      refine .cons ⟨text, hA, ?_⟩ (ih hrest)
      rw [hreply.content_eq hresponse hbytes, content_response]

/-- In a conversation the client reads one reply for each request whose reply
was begun off the wire, in their order, each with what `analyse_handler` has
returned for the body of that request; only the reply that is being written may
be missing. -/
theorem replies_are_answers (hall : ∀ r ∈ requests, r.Analysed) (hd : d₀.Begins sock)
    (hr : Run (Dialogue.step requests) d₀ moves d)
    (ha : ∀ m ∈ moves, Allowed A requests m.label)
    (halone : ∀ m ∈ moves.filterMap sessionMove?, AnswersAlone m) :
    ∃ contents rest, (∀ contents' rest', Reads Reply.decode (wire moves) contents' rest' ↔
        contents' = contents ∧ rest' = rest) ∧
      List.Forall₂ (fun r content => ∃ text, A r.body text ∧ content = text.getD contentError)
        (requests.take contents.length) contents ∧
      d.session.replies ≤ contents.length + 1 ∧
      (d.session.writes = [] → contents.length = d.session.replies ∧ rest = []) := by
  have hanswers := answers_of_run hall hd hr ha
  obtain ⟨⟨-, hp⟩, hlast⟩ := hanswers d (.inl rfl)
  obtain ⟨-, hle, hbodies⟩ := analyses_of_phase hall hp
  have hworking : ∀ u, Visits (moves.filterMap sessionMove?) d.session u →
      u.conn.stats = .working := by
    rintro u (rfl | ⟨n, hn, rfl⟩)
    · exact (analyses_of_phase hall hp).1
    · obtain ⟨m, hm, hmove⟩ := List.mem_filterMap.mp hn
      obtain ⟨d, a, d'⟩ := m
      have hphase := (hanswers d (.inr ⟨_, hm, rfl⟩)).1.2
      cases a with
      | request => cases hmove
      | event e =>
          obtain rfl := Option.some.inj hmove
          exact (analyses_of_phase hall hphase).1
  have hdate : ∀ n ∈ moves.filterMap sessionMove?, ∀ i ec data env,
      n.label = .complete i ec data env → Trimmed env.date ∧ OneLine env.date := by
    intro n hn i ec data env hlabel
    obtain ⟨⟨d, a, d'⟩, hm, hmove⟩ := List.mem_filterMap.mp hn
    have hallowed := ha _ hm
    cases a with
    | request => cases hmove
    | event e =>
        obtain rfl := Option.some.inj hmove
        obtain rfl : e = .complete i ec data env := hlabel
        exact ⟨hallowed.1, hallowed.2.1⟩
  obtain ⟨hheld, replies, hstreams⟩ :=
    streams_of_run hd.started (run_session hr) halone hworking hdate
  obtain ⟨k, rest, hreads, hmost, hidle⟩ := hstreams.reads hheld
  have hnone : d₀.session.filled = [] := by
    rw [← List.length_eq_zero_iff, length_filled, hd.replies]
  have hfilled : d.session.filled = replies.map Response.bytes := by
    rw [hstreams.filled, hnone, List.nil_append]
  have hcount : d.session.replies = replies.length := by
    rw [← length_filled, hfilled, List.length_map]
  have hpairs : List.Forall₂
      (fun r content => ∃ text, A r.body text ∧ content = text.getD contentError)
      (requests.take d.session.replies) (replies.map Response.content) := by
    rw [hbodies, hfilled, List.forall₂_map_left_iff, List.forall₂_map_right_iff] at hlast
    exact contents_of_answers hstreams.plain hlast
  have hlength : ((replies.take k).map Response.content).length = min k d.session.replies := by
    rw [List.length_map, List.length_take, hcount]
  refine ⟨_, rest, hreads, ?_, ?_, fun hnil => ?_⟩
  · rw [hlength, ← List.take_take, List.map_take]
    exact List.forall₂_take k hpairs
  · rw [hlength]
    omega
  · obtain ⟨hall, hrest⟩ := hidle hnil
    rw [hlength]
    exact ⟨by omega, hrest⟩

section TwoRequests

def echoEnv : Env where
  now := 0
  date := ofString "2017-Jan-01 00:00:00"
  analyse body := .ok (some body)

def echoRequest : Request :=
  (Request.make? (ofString "POST /analyse HTTP/1.0\r\nContent-Length: 3\r\n\r\n")
    (ofString "abc")).get (by decide +kernel)

/-- A completion while no other write is outstanding, so that no reply is
written over another. -/
def ReadsOnly (d : Dialogue) : Signal → Prop
  | .event (.complete i _ _ _) => ∀ op ∈ d.session.ops.eraseIdx i, op.isRead = true
  | _ => True

instance : ∀ d a, Decidable (ReadsOnly d a)
  | _, .event (.complete _ _ _ _) => inferInstanceAs (Decidable (∀ op ∈ _, _ = _))
  | _, .event (.send _ _) => .isTrue trivial
  | _, .request => .isTrue trivial

/-- The first body comes in two parts, and the second reply has
not been sent to its end. -/
def echoSignals : List Signal :=
  [.request, .event (.complete 0 .success (echoRequest.head ++ ofString "a") echoEnv),
    .event (.complete 0 .success (ofString "bc") echoEnv), .event (.send 0 170),
    .event (.complete 0 .success [] echoEnv), .request,
    .event (.complete 0 .success (echoRequest.head ++ ofString "abc") echoEnv),
    .event (.send 0 100)]

/-- A replay from `start()` all of whose signals meet a guard, as a
run with those signals. -/
theorem run_of_started_guarded (guard : Dialogue → Signal → Prop) [∀ d a, Decidable (guard d a)]
    (sock : SockId) (env : Env) (requests : List Request) (signals : List Signal)
    (p : Dialogue → Prop)
    (h : Reaches (((Session.started sock env).mapError Stop.fault).bind fun x =>
      exec (guarded guard (Dialogue.step requests)) (join x) signals) p) :
    ∃ d₀ moves d, d₀.Begins sock ∧ Run (Dialogue.step requests) d₀ moves d ∧
      (∀ m ∈ moves, guard m.pre m.label) ∧ moves.map Move.label = signals ∧ p d := by
  cases hx : Session.started sock env with
  | error =>
      rw [hx] at h
      cases h
  | ok x =>
      rw [hx] at h
      obtain ⟨moves, d, hr, hlabels, hp⟩ := run_of_reaches _ _ _ h
      obtain ⟨hr, hguard⟩ := hr.of_guarded
      refine ⟨join x, moves, d, ?_, hr, hguard, hlabels, hp⟩
      have hstarted := Session.started_spec hx
      simp only [Session.started] at hx
      cases hs : (FrontConn.make sock env.now).start env with
      | error =>
          rw [hs] at hx
          cases hx
      | ok g =>
          rw [hs] at hx
          obtain ⟨-, rfl⟩ := Handling.start_eq_ok hs
          obtain rfl := Except.ok.inj hx
          exact ⟨hstarted, rfl, rfl, rfl, rfl, rfl, rfl, rfl⟩

theorem allowed_echo {i : Nat} {ec : ErrorCode} {data : ByteString} :
    Allowed (fun body text => text = some body) requests
      (.event (.complete i ec data echoEnv)) := by
  refine ⟨by decide +kernel, by decide +kernel, fun r _ text h => ?_⟩
  exact (Except.ok.inj h).symm

theorem replies_are_answers_echo : ∃ d₀ moves d, d₀.Begins 7 ∧
    Run (Dialogue.step [echoRequest, echoRequest]) d₀ moves d ∧ d.session.replies = 2 ∧
    ∃ contents rest, (∀ contents' rest', Reads Reply.decode (wire moves) contents' rest' ↔
        contents' = contents ∧ rest' = rest) ∧
      List.Forall₂ (fun r content => ∃ text, text = some (Request.body r) ∧
          content = text.getD contentError)
        ([echoRequest, echoRequest].take contents.length) contents ∧
      d.session.replies ≤ contents.length + 1 ∧
      (d.session.writes = [] → contents.length = d.session.replies ∧ rest = []) := by
  obtain ⟨d₀, moves, d, hd, hr, halone, hlabels, htwo⟩ := run_of_started_guarded ReadsOnly 7 echoEnv
    [echoRequest, echoRequest] echoSignals (fun d => d.session.replies = 2) (by decide +kernel)
  refine ⟨d₀, moves, d, hd, hr, htwo,
    replies_are_answers (A := fun body text => text = some body) ?_ hd hr ?_ ?_⟩
  · intro r hr
    obtain rfl : r = echoRequest := by simpa using hr
    exact ⟨by decide +kernel, by decide +kernel, by decide +kernel⟩
  · intro m hm
    have hmem : m.label ∈ echoSignals := hlabels ▸ List.mem_map_of_mem hm
    revert hmem
    generalize m.label = a
    revert a
    simp only [echoSignals, List.forall_mem_cons]
    exact ⟨trivial, allowed_echo, allowed_echo, trivial, allowed_echo, trivial, allowed_echo,
      trivial, by simp⟩
  · rintro n hn ⟨op, hop, hwrite⟩ i ec data env _ hlabel - -
    obtain ⟨⟨d, a, d'⟩, hm, hmove⟩ := List.mem_filterMap.mp hn
    have hreads := halone _ hm
    cases a with
    | request => cases hmove
    | event e =>
        obtain rfl := Option.some.inj hmove
        obtain rfl : e = .complete i ec data env := hlabel
        cases (hreads op hop).symm.trans hwrite

end TwoRequests

end Dialogue

end Ailawd
