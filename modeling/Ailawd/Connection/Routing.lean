import Ailawd.Connection.Answering
import Ailawd.Connection.Conversation

/-!
# The reply of a request

What a request is answered with depends on its method and its URI and, for `/analyse`, on what
`analyse_handler` has returned for its body. How the request is cut, what the connection has
handled before and what its buffers still hold make no difference.
-/

namespace Ailawd

open ByteString HttpProto Transition

/-- The reply of a request, by method and URI. Every accepted request but
`/analyse` is answered like an unknown one. -/
inductive Message.Routes (r : Message) (env : Env) : Response → Prop where
  | method : r.parser.isPost = false →
      Routes r env ⟨env.date, contentBadRequest, Status.badRequest⟩
  | uri : r.parser.isPost = true → r.parser.hasUri "/analyse" = false →
      Routes r env ⟨env.date, contentNotFound, Status.notFound⟩
  | analyse {text} : r.parser.isPost = true → r.parser.hasUri "/analyse" = true →
      env.analyse r.body = .ok text → Routes r env (env.response text)

namespace Handling

variable {env : Env} {h h' : Handling} {n : Nat}

/-- The body handler encodes nothing while bytes are missing, and at most one
reply when they are there. -/
theorem readBodyHandler_encodes (hh : h.log = ([], []))
    (hr : h.readBodyHandler env .success n = .ok h') :
    h'.log.2 = [] ∨
      (h.conn.parser.hasUri "/analyse" = false ∧
        h'.log.2 = [(⟨env.date, contentNotFound, Status.notFound⟩ : Response).bytes]) ∨
      (h.conn.parser.hasUri "/analyse" = true ∧
        ∃ text, env.analyse (h.conn.pBuffer.slice 0 (h.conn.rSize + n)) = .ok text ∧
          h'.log.2 = [(env.response text).bytes]) := by
  have hnone : h.log.2 = [] := congrArg Prod.snd hh
  rw [readBodyHandler] at hr
  split at hr
  · simp only at hr
    split at hr
    · exact .inl ((congrArg Prod.snd (log_doReadBody hr)).trans hnone)
    split at hr
    next huri =>
      refine .inr (.inr ⟨huri, ?_⟩)
      set g : Handling := { h with conn := { h.conn with rSize := h.conn.rSize + n } }
      have hg : g.log = ([], []) := hh
      split at hr
      · cases hr
      next k hk =>
        obtain ⟨text, henv, hlog⟩ := log_analyseHandler_true hg hk
        exact ⟨some text, henv, congrArg Prod.snd ((log_writeReturn hr).trans hlog)⟩
      next k hk =>
        obtain ⟨henv, hlog⟩ := log_analyseHandler_false hg hk
        refine ⟨none, henv, ?_⟩
        rw [log_fill_writeReturn hr, hlog]
        rfl
    next huri =>
      refine .inr (.inl ⟨Bool.eq_false_iff.mpr huri, ?_⟩)
      rw [log_fill_writeReturn hr]
      exact congrArg (· ++ _) hnone
  · rw [if_pos (by decide)] at hr
    exact .inl ((congrArg Prod.snd (log_socketError hr)).trans hnone)

end Handling

section Encodes

variable {r : Message} {work : ByteString → Except Fault (Option ByteString)} {env : Env}
variable {h h' : Handling} {n : Nat}

/-- At most one reply is encoded, the one of the request by its route. -/
def Message.Encodes (r : Message) (env : Env) (replies : List ByteString) : Prop :=
  replies = [] ∨ ∃ reply, r.Routes env reply ∧ replies = [reply.bytes]

theorem Message.body_encodes (hreads : r.parser.ReadsBody) (hagree : r.parser.Agrees h.conn.parser)
    (hh : h.log = ([], [])) (hbody : h.conn.pBuffer.slice 0 (h.conn.rSize + n) = r.body)
    (hr : h.readBodyHandler env .success n = .ok h') : r.Encodes env h'.log.2 := by
  have huri := hagree.hasUri "/analyse"
  obtain hnone | ⟨hno, hlog⟩ | ⟨hyes, text, henv, hlog⟩ := Handling.readBodyHandler_encodes hh hr
  · exact .inl hnone
  · exact .inr ⟨_, .uri hreads.1 (huri.symm.trans hno), hlog⟩
  · rw [hbody] at henv
    exact .inr ⟨_, .analyse hreads.1 (huri.symm.trans hyes) henv, hlog⟩

theorem Message.receive_encodes (hreads : r.parser.ReadsBody) (hsmall : r.body.length < 2 ^ 31)
    (hagree : r.parser.Agrees h.conn.parser) (hh : h.log = ([], []))
    (hextra : h.conn.request <+: r.body) (hr : h.receiveBody env = .ok h') :
    r.Encodes env h'.log.2 := by
  obtain ⟨hadd, g, hg, hfit⟩ := Handling.receiveBody_fits hr
  obtain ⟨pBuffer, -, hslice, heq⟩ := Handling.receiveBody_eq env hadd hg hfit
  rw [heq] at hr
  split at hr
  · have hlog := Handling.log_doReadBody (h := h.withInput pBuffer h.conn.request.length) hr
    exact .inl (congrArg Prod.snd (hlog.trans hh))
  next hall =>
    have hlen := hagree.contentLength.trans (r.contentLength hsmall)
    have hwhole : h.conn.request = r.body := by
      refine hextra.eq_of_length (Nat.le_antisymm hextra.length_le ?_)
      omega
    refine Message.body_encodes (h := h.withInput pBuffer 0) hreads hagree hh ?_ hr
    change pBuffer.slice 0 (0 + h.conn.request.length) = r.body
    rw [Nat.zero_add, hslice, hwhole]

/-- The head handler, whatever part of the body has come with the head, encodes
nothing or the reply of the request. -/
theorem Message.head_encodes (hans : r.Answerable work) {c : FrontConn} {extra : ByteString}
    (htext : c.request = r.head ++ extra) (hextra : extra <+: r.body)
    (hr : Handling.readHeadHandler env .success r.head.length ⟨c, []⟩ = .ok h') :
    r.Encodes env h'.log.2 := by
  have hwhole := r.whole.length
  obtain ⟨q, hparse, hagree⟩ := HttpParser.parseRequest_append c.parser r.whole r.parses extra
  rw [← htext] at hparse
  by_cases hreads : r.parser.ReadsBody
  · rw [Message.Answerable, if_pos hreads] at hans
    rw [Handling.readHeadHandler_accepted env r.whole htext hparse (hagree.readsBody.mpr hreads)]
      at hr
    exact Message.receive_encodes (h := Handling.headParsed c (r.head ++ extra) extra q) hreads
      hans.2.1 hagree rfl hextra hr
  · rw [Handling.readHeadHandler, if_pos ⟨rfl, by omega⟩] at hr
    simp only [hparse, Bool.not_true, Bool.false_eq_true, if_false] at hr
    split at hr
    next hpost =>
      refine .inr ⟨_, .method ?_, ?_⟩
      · rw [← hagree.isPost]
        simpa using hpost
      · rw [Handling.log_fill_writeReturn hr]
        rfl
    next hpost =>
      have hisPost : r.parser.isPost = true := by
        rw [← hagree.isPost]
        simpa using hpost
      have hno : r.parser.acceptsUri = false :=
        Bool.eq_false_iff.mpr fun haccepts => hreads ⟨hisPost, haccepts⟩
      rw [if_neg (by rw [hagree.acceptsUri, hno]; decide)] at hr
      refine .inr ⟨_, .uri hisPost ?_, ?_⟩
      · simp only [HttpParser.acceptsUri, Bool.or_eq_false_iff] at hno
        exact hno.1.2
      · rw [Handling.log_fill_writeReturn hr]
        rfl

end Encodes

namespace Feed

/-- The reply of the request has been encoded, and a write of all
of it has been started. -/
def RepliedBy (r : Message) (env : Env) (d₀ d : Feed) : Prop :=
  ∃ reply, r.Routes env reply ∧
    d₀.Replied d [.fill reply.bytes, .asyncWrite 0 reply.bytes.length]

/-- At most one reply is begun, the one of the request, and it has been begun
once no read can complete. -/
structure AnsweredBy (r : Message) (work : ByteString → Except Fault (Option ByteString))
    (envs : Env → Prop) (d₀ d : Feed) : Prop where
  atMostOnce : d₀.Replied d [] ∨ ∃ env, envs env ∧ RepliedBy r env d₀ d
  answered : (∀ i data env t, d.Receives work i data env →
      d.step (.event (.complete i .success data env)) ≠ .ok t) →
    ∃ env, envs env ∧ RepliedBy r env d₀ d

section Step

variable {r : Message} {d₀ d t : Feed} {work : ByteString → Except Fault (Option ByteString)}
variable {i : Nat} {op : Op} {data : ByteString} {env : Env} {a : Traffic}

theorem RepliedBy.of_trace (h : RepliedBy r env d₀ d)
    (htrace : t.session.trace = d.session.trace) : RepliedBy r env d₀ t := by
  obtain ⟨reply, hroute, since, hd, hcalls⟩ := h
  exact ⟨reply, hroute, since, htrace.trans hd, hcalls⟩

theorem RepliedBy.not_replied_nil (h : RepliedBy r env d₀ d) : ¬ d₀.Replied d [] := by
  intro hnone
  obtain ⟨reply, -, hreply⟩ := h
  cases hnone.unique hreply

private theorem filled_of_replies {effects : List Effect} {reply : ByteString}
    (h : effects.filter Effect.isReply = [.fill reply, .asyncWrite 0 reply.length]) :
    effects.filterMap Effect.filled? = [reply] := by
  have hfilled : effects.filterMap Effect.filled? =
      (effects.filter Effect.isReply).filterMap Effect.filled? := by
    rw [List.filterMap_filter]
    congr 1
    funext e
    cases e <;> rfl
  rw [hfilled, h]
  rfl

/-- What the handler of a read encodes before the request has been answered:
nothing, or its reply. -/
theorem Stage.encodes (hans : r.Answerable work) (h : Stage r d₀ d)
    (hs : d.step (.event (.complete i .success data env)) = .ok t)
    (hop : d.session.ops[i]? = some op) (hread : op.isRead = true) :
    ∃ effects, t.session.trace = d.session.trace ++ effects ∧
      r.Encodes env (effects.filterMap Effect.filled?) := by
  obtain ⟨hdata, -, effects, hreact⟩ := step_complete_eq_ok hs
  obtain ⟨_, hc⟩ := react_complete h.ok.wSize hreact
  have hd := react_complete_deliver hop hreact
  have hreads : d.session.Reading op.kind := ⟨op, List.mem_of_getElem? hop, rfl⟩
  refine ⟨effects, hc.trace, ?_⟩
  cases hkind : op.kind with
  | readHead =>
      rw [hkind] at hd hreads
      obtain ⟨j, hj, hrun⟩ := deliver_readHead hd
      obtain ⟨head, extra, htext, hhead, hlen⟩ := exists_wholeHead hj
      rw [← hlen] at hrun
      cases h with
      | head h _ =>
          obtain ⟨rfl, hbody⟩ := r.whole.of_read h.bytes hdata hhead htext
          exact Message.head_encodes hans htext ⟨_, hbody⟩ hrun
      | body _ h => cases h.ok.reads_unique hreads h.reads.reading (by simp) (by simp)
      | done h => exact (h.no_head hdata hhead htext).elim
  | readBody offset len =>
      rw [hkind] at hd hreads
      obtain ⟨hlen, hrun⟩ := deliver_readBody hd
      cases h with
      | head h => cases h.ok.reads_unique hreads h.reads.reading (by simp) (by simp)
      | done h => cases h.ok.reads_unique hreads h.reads.reading (by simp) (by simp)
      | body accepted h _ =>
          obtain ⟨rfl, rfl⟩ := OpKind.readBody.inj
            (h.ok.reads_unique hreads h.reads.reading (by simp) (by simp))
          obtain rfl := hdata.eq_of_length (hlen.trans h.unread_length.symm)
          refine Message.body_encodes accepted h.parser rfl ?_ hrun
          change (d.session.conn.pBuffer.write _ d.unread).slice 0
            (d.session.conn.rSize + d.unread.length) = r.body
          rw [h.rSize, CharVec.slice_write_append, h.buffer, h.unread, List.take_append_drop]
  | write w =>
      rw [Op.isRead, hkind] at hread
      cases hread

private theorem Stage.read_replies (hans : r.Answerable work) (h : Stage r d₀ d)
    (hreplied : d₀.Replied d []) (hnext : Stage r d₀ t)
    (hs : d.step (.event (.complete i .success data env)) = .ok t)
    (hop : d.session.ops[i]? = some op) (hread : op.isRead = true) :
    d₀.Replied t [] ∨ RepliedBy r env d₀ t := by
  obtain ⟨effects, htrace, hencodes⟩ := h.encodes hans hs hop hread
  cases hnext with
  | head _ hnone => exact .inl hnone
  | body _ _ hnone => exact .inl hnone
  | done _ honce =>
      obtain ⟨bytes, hbytes⟩ := honce
      have hfilled := filled_of_replies ((hreplied.trans htrace).unique hbytes)
      obtain hnone | ⟨reply, hroute, hone⟩ := hencodes
      · cases hfilled.symm.trans hnone
      · obtain rfl := List.singleton_inj.mp (hfilled.symm.trans hone)
        exact .inr ⟨reply, hroute, hbytes⟩

/-- The step lemma. The reply, once begun, is the one of the route. -/
theorem Stage.step_replies (hans : r.Answerable work) (h : Stage r d₀ d)
    (hreplied : d₀.Replied d []) (hsmooth : a.Smooth work) (hs : d.step a = .ok t) :
    d₀.Replied t [] ∨
      ∃ i data env, a = .event (.complete i .success data env) ∧ RepliedBy r env d₀ t := by
  have hnext := h.step hans hsmooth hs
  obtain ⟨-, hmoves⟩ := moves_of_step h.ok hs
  cases hmoves with
  | sent => exact hsmooth.elim
  | expire => exact hsmooth.elim
  | failed _ _ hec => exact absurd hsmooth.1 hec
  | aborted => cases hsmooth.1
  | quiet hkeep _ _ =>
      obtain ⟨since, htrace, hcalls⟩ := hreplied
      exact .inl ⟨since, hkeep.trace.trans htrace, hcalls⟩
  | head hc hkind =>
      refine (h.read_replies hans hreplied hnext hs hc.found ?_).imp_right
        fun hby => ⟨_, _, _, rfl, hby⟩
      rw [Op.isRead, hkind]
  | body hc hkind =>
      refine (h.read_replies hans hreplied hnext hs hc.found ?_).imp_right
        fun hby => ⟨_, _, _, rfl, hby⟩
      rw [Op.isRead, hkind]

/-- What has been answered is not answered again: an idle connection
does nothing by itself. -/
theorem Idle.trace_eq (h : d.Idle) (hsmooth : a.Smooth work) (hs : d.step a = .ok t) :
    t.session.trace = d.session.trace := by
  obtain ⟨-, hmoves⟩ := moves_of_step h.ok hs
  cases hmoves with
  | sent => exact hsmooth.elim
  | expire => exact hsmooth.elim
  | failed _ _ hec => exact absurd hsmooth.1 hec
  | aborted => cases hsmooth.1
  | quiet hkeep _ _ => exact hkeep.trace
  | head _ _ hdata _ hhead htext _ => exact (h.no_head hdata hhead htext).elim
  | body hc hkind =>
      have hreads : d.session.Reading (.readBody _ _) :=
        ⟨_, List.mem_of_getElem? hc.found, hkind⟩
      cases h.ok.reads_unique hreads h.reads.reading (by simp) (by simp)

end Step

/-- The run lemma: a request is answered by its route, and by nothing else. -/
theorem Ready.routed {r : Message} {d₀ d : Feed}
    {work : ByteString → Except Fault (Option ByteString)} (hans : r.Answerable work)
    (h : d₀.Ready r) {moves : List (Move Feed Traffic)} (hr : Run step d₀ moves d)
    (hsmooth : ∀ m ∈ moves, m.label.Smooth work) :
    Stage r d₀ d ∧ (d₀.Replied d [] ∨ ∃ m ∈ moves, ∃ i data env,
      m.label = .event (.complete i .success data env) ∧ RepliedBy r env d₀ d) := by
  induction hr with
  | nil => exact ⟨.head h (.refl d₀), .inl (.refl d₀)⟩
  | @snoc moves s a t _ hs ih =>
      obtain ⟨hstage, hcase⟩ := ih fun m hm => hsmooth m (List.mem_append_left _ hm)
      have ha : a.Smooth work := hsmooth ⟨s, a, t⟩ (by simp)
      refine ⟨hstage.step hans ha hs, ?_⟩
      obtain hnone | ⟨m, hm, i, data, env, hl, hby⟩ := hcase
      · obtain hnone' | ⟨i, data, env, rfl, hby⟩ := hstage.step_replies hans hnone ha hs
        · exact .inl hnone'
        · refine .inr ⟨_, List.mem_append_right _ (List.mem_singleton_self _), i, data, env, rfl,
            ?_⟩
          exact hby
      · refine .inr ⟨m, List.mem_append_left _ hm, i, data, env, hl, ?_⟩
        cases hstage with
        | head _ hnone => exact (hby.not_replied_nil hnone).elim
        | body _ _ hnone => exact (hby.not_replied_nil hnone).elim
        | done hidle _ => exact hby.of_trace (hidle.trace_eq ha hs)

end Feed

end Ailawd
