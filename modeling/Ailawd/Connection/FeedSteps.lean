import Ailawd.Connection.Phases
import Ailawd.Connection.Reassembly
import Ailawd.Model.Feed

/-!
# What a step of a feed does

The bytes in `request_` may be anything, so a completed head read has one of three
outcomes: the head cannot be read, the request is answered from it, or its body is
received. `Feed.Moves` says once what each step does in these terms; properties of feeds
are derived from it.
-/

namespace Ailawd

open ByteString HttpProto Transition

/-- The requests whose body `read_head_handler` reads. Of any other one it
stays in `request_`. -/
abbrev HttpParser.ReadsBody (p : HttpParser) : Prop := p.isPost = true ∧ p.acceptsUri = true

theorem HttpParser.Agrees.readsBody {p q : HttpParser} (h : p.Agrees q) :
    q.ReadsBody ↔ p.ReadsBody := by
  rw [ReadsBody, ReadsBody, h.isPost, h.acceptsUri]

/-- What the completion of a head read makes of a text that is a head and what
follows: one case for each way out of the handler. -/
inductive HeadOutcome (c : FrontConn) (env : Env) (head extra : ByteString) (kind : ExitKind)
    (c' : FrontConn) (effects : List Effect) : Prop where
  | illegible : HttpParser.init.parseRequest head = (false, .init) → kind = .answer →
      c'.request = [] → HeadOutcome c env head extra kind c' effects
  | rejected {q q' : HttpParser} : HttpParser.init.parseRequest head = (true, q) →
      q.Agrees q' → ¬ q.ReadsBody → kind = .answer →
      KeepsInput [] (Handling.headParsed c (head ++ extra) extra q') ⟨c', effects⟩ →
      HeadOutcome c env head extra kind c' effects
  | accepted {q q' : HttpParser} : HttpParser.init.parseRequest head = (true, q) →
      q.Agrees q' → q.ReadsBody → kind = acceptedExit q extra.length →
      (Handling.headParsed c (head ++ extra) extra q').receiveBody env = .ok ⟨c', effects⟩ →
      HeadOutcome c env head extra kind c' effects

namespace Handling

variable {env : Env} {h h' : Handling}

theorem errorReturnHead_request (hr : h.errorReturnHead env = .ok h') : h'.conn.request = [] := by
  rw [errorReturnHead] at hr
  exact (writeReturn_keepsInput hr).request

/-- The handler on a text whose head has been found, in whatever
state the parser was before. -/
theorem readHeadHandler_outcome {c : FrontConn} {head extra : ByteString} (hhead : WholeHead head)
    (htext : c.request = head ++ extra)
    (hr : readHeadHandler env .success head.length ⟨c, []⟩ = .ok h') :
    HeadOutcome c env head extra (headExit c .success head.length) h'.conn h'.effects := by
  have hlen := hhead.length
  have hdrop : c.request.drop head.length = extra := by rw [htext, List.drop_left]
  have hrun := hr
  rw [readHeadHandler, if_pos ⟨rfl, by omega⟩] at hr
  rw [headExit, if_pos ⟨rfl, by omega⟩]
  obtain ⟨hfalse, hparse⟩ | ⟨q, q', hq, hparse, hagree⟩ :=
    HttpParser.parseRequest_head .init c.parser hhead extra
  · rw [← htext] at hparse
    simp only [hparse, Bool.not_false, if_true] at hr
    refine .illegible hfalse ?_ (errorReturnHead_request hr)
    simp only [hparse, Bool.false_and, Bool.false_eq_true, if_false]
  · rw [← htext] at hparse
    have hiff := hagree.readsBody
    rcases readHeadHandler_cases (by omega) hparse hrun with ⟨hreads, hrecv⟩ | ⟨hreads, hkeep⟩
    · rw [hdrop, htext] at hrecv
      refine .accepted hq hagree (hiff.mp hreads) ?_ hrecv
      simp only [hparse, hreads.1, hreads.2, Bool.and_self, if_true, acceptedExit,
        hagree.contentLength, hdrop]
    · rw [hdrop, htext] at hkeep
      refine .rejected hq hagree (fun h => hreads (hiff.mpr h)) ?_ hkeep
      simp only [hparse, Bool.true_and]
      rw [if_neg]
      simpa only [Bool.and_eq_true] using hreads

/-- The accepting branch as the continuation of a parse. What follows the head
is in `request_` then. -/
theorem readHeadHandler_accepted (env : Env) {c : FrontConn} {head extra : ByteString}
    {q : HttpParser} (hhead : WholeHead head) (htext : c.request = head ++ extra)
    (hparse : c.parser.parseRequest c.request = (true, q)) (hreads : q.ReadsBody) :
    readHeadHandler env .success head.length ⟨c, []⟩ =
      (headParsed c (head ++ extra) extra q).receiveBody env := by
  have hlen := hhead.length
  rw [readHeadHandler, if_pos ⟨rfl, by omega⟩]
  simp only [hparse, hreads.1, hreads.2, Bool.not_true, Bool.false_eq_true, if_false, if_true]
  rw [htext, List.drop_left]
  rfl

theorem readHeadHandler_isOk {c : FrontConn} {sock : SockId} {n : Nat} {parsed : Bool}
    {q : HttpParser} (env : Env) (hsock : c.pSock = some sock) (hn : n ≠ 0)
    (hparse : c.parser.parseRequest c.request = (parsed, q))
    (hno : parsed = true → ¬ q.ReadsBody) :
    ∃ h', readHeadHandler env .success n ⟨c, []⟩ = .ok h' := by
  rw [readHeadHandler, if_pos ⟨rfl, hn⟩]
  simp only [hparse]
  cases parsed with
  | false =>
      rw [if_pos (by decide), errorReturnHead]
      exact writeReturn_isOk hsock (Reply.replyGenerate_length_pos _ _ _)
  | true =>
      rw [if_neg (by decide)]
      split
      · exact fillForHttp_writeReturn_isOk env hsock _ _
      next hpost =>
        split
        next huri => exact absurd ⟨by simpa using hpost, huri⟩ (hno rfl)
        · exact fillForHttp_writeReturn_isOk env hsock _ _

end Handling

/-- At most one read is outstanding, so the next
completion of a read is known. -/
theorem Session.Ok.reads_unique {x : Session} (hok : x.Ok) {kind kind' : OpKind}
    (h : x.Reading kind) (h' : x.Reading kind') (hkind : ∀ w, kind ≠ .write w)
    (hkind' : ∀ w, kind' ≠ .write w) : kind = kind' := by
  obtain ⟨op, hop, rfl⟩ := h
  obtain ⟨i, hi⟩ := List.getElem?_of_mem hop
  exact hok.kind_eq hi (Op.isRead_eq_true hkind) h' hkind'

/-- After a read has completed, the only read is the one that its
exit started, if it did. -/
theorem Completes.reads_after {x x' : Session} {i : Nat} {op : Op} {ec : ErrorCode}
    {data : ByteString} {effects : List Effect} {kind : OpKind} (hok : x.Ok)
    (hc : Completes x i op ec data x' effects) (hread : op.isRead = true)
    (h : x'.Reading kind) (hkind : ∀ w, kind ≠ .write w) :
    (op.kind.exit x.conn ec data = .answer ∧ kind = .readHead) ∨
      (op.kind.exit x.conn ec data = .wait ∧ x.conn.stats = .working ∧
        ∃ calls offset len, kind = .readBody offset len ∧
          effects = calls ++ [.asyncRead offset len]) := by
  obtain ⟨o, ho, rfl⟩ := h
  have hoRead := Op.isRead_eq_true hkind
  have hnot : o ∉ x.ops.eraseIdx i := by
    intro hmem
    rw [hok.rest_isRead hc.found hread o hmem] at hoRead
    cases hoRead
  have hafter := hc.ops _ (hok.sock op (List.mem_of_getElem? hc.found))
  cases hexit : op.kind.exit x.conn ec data with
  | answer =>
      rw [hexit] at hafter
      obtain ⟨calls, reply, -, -, -, hops, -⟩ := hafter
      rw [hops] at ho
      rcases (List.mem_append.mp ho).resolve_left hnot |> List.mem_append.mp with ho | ho
      · split at ho
        · obtain rfl := List.mem_singleton.mp ho
          exact absurd rfl (hkind _)
        · cases ho
      · obtain rfl := List.mem_singleton.mp ho
        exact .inl ⟨rfl, rfl⟩
  | wait =>
      rw [hexit] at hafter
      obtain ⟨calls, offset, len, -, -, he, hops⟩ := hafter
      rw [hops] at ho
      replace ho := (List.mem_append.mp ho).resolve_left hnot
      split at ho
      next hworking =>
        obtain rfl := List.mem_singleton.mp ho
        rw [if_pos hworking] at he
        exact .inr ⟨rfl, hworking, calls, offset, len, rfl, he⟩
      next => cases ho
  | fail => rw [hc.idle hok hexit hread o ho] at hoRead; cases hoRead
  | quiet => rw [Op.isRead_of_quiet hexit] at hread; cases hread

/-- A failed operation leaves the reads that were outstanding beside it, on a
socket that has been cancelled. -/
theorem Completes.reading_of_write {x x' : Session} {i : Nat} {op : Op} {ec : ErrorCode}
    {data : ByteString} {effects : List Effect} {kind : OpKind} (hok : x.Ok)
    (hc : Completes x i op ec data x' effects) (hexit : op.kind.exit x.conn ec data = .fail)
    (h : x'.Reading kind) : x.Reading kind := by
  obtain ⟨o, ho, rfl⟩ := h
  have hafter := hc.ops _ (hok.sock op (List.mem_of_getElem? hc.found))
  rw [hexit] at hafter
  obtain ⟨calls, -, -, hops⟩ := hafter
  rw [hops] at ho
  obtain ⟨o', ho', rfl⟩ := List.mem_map.mp ho
  refine ⟨o', List.mem_of_mem_eraseIdx ho', ?_⟩
  split <;> rfl

/-- A write that fails marks the connection and resets its counters. What has
been received stays. -/
theorem Completes.write_failed {x x' : Session} {i : Nat} {op : Op} {ec : ErrorCode}
    {data : ByteString} {effects : List Effect} {env : Env}
    (hc : Completes x i op ec data x' effects) (hread : op.isRead = false)
    (hexit : op.kind.exit x.conn ec data = .fail)
    (hr : x.react (.complete i ec data env) = .ok (x', effects)) :
    data = [] ∧ KeepsInput [] ⟨x.conn, []⟩ ⟨x'.conn, effects⟩ ∧ x'.conn.rSize = 0 ∧
      x'.conn.stats = .error := by
  obtain ⟨w, hkind⟩ := op.exists_write hread
  have hd := react_complete_deliver hc.found hr
  rw [hkind] at hd hexit
  change writeExit ec w.wire.length = _ at hexit
  simp only [OpKind.deliver] at hd
  split at hd
  · cases hd
  next hdata =>
  have hrun := mapError_eq_ok hd
  rw [writeExit] at hexit
  rw [Handling.writeHandler] at hrun
  split at hexit
  · cases hexit
  next hok =>
    rw [if_neg hok] at hrun
    split at hexit
    next hne =>
      rw [if_pos hne] at hrun
      refine ⟨?_, Handling.socketError_keepsInput hrun, Handling.socketError_rSize hrun,
        (Handling.socketError_exit hrun).stats⟩
      by_contra hnonempty
      exact hdata (.inl hnonempty)
    next => cases hexit

/-- The read after an accepted head: of what is missing of its body, or of the
next head when nothing is. -/
theorem Completes.reads_accepted {x x' : Session} {i : Nat} {op : Op} {data head extra : ByteString}
    {effects : List Effect} {env : Env} {c : FrontConn} {q q' : HttpParser} {kind : OpKind}
    (hok : x.Ok) (hc : Completes x i op .success data x' effects) (hread : op.isRead = true)
    (hstats : c.stats = x.conn.stats) (hagree : q.Agrees q')
    (hexit : op.kind.exit x.conn .success data = acceptedExit q extra.length)
    (hrecv : (Handling.headParsed c (head ++ extra) extra q').receiveBody env =
      .ok ⟨x'.conn, effects⟩) (h : x'.Reading kind) (hkind : ∀ w, kind ≠ .write w) :
    (kind = .readHead ∧ extra.length = q.contentLength) ∨
      (kind = .readBody extra.length (q.contentLength - extra.length) ∧
        extra.length < q.contentLength ∧ x'.conn.rSize = extra.length ∧
        x'.conn.pBuffer.slice 0 extra.length = extra ∧
        (q.contentLength < 2 ^ 31 → q.contentLength ≤ x'.conn.pBuffer.size)) := by
  obtain ⟨hadd, -, -, hwait⟩ := Handling.receiveBody_receives hrecv
  change extra.length ≤ q'.contentLength at hadd
  rw [hagree.contentLength] at hadd
  obtain ⟨hanswer, rfl⟩ | ⟨hkw, hworking, calls, offset, len, rfl, he⟩ :=
    hc.reads_after hok hread h hkind
  · have hge : ¬ extra.length < q.contentLength := by
      intro hlt
      rw [hexit, acceptedExit, if_pos hlt] at hanswer
      cases hanswer
    exact .inl ⟨rfl, by omega⟩
  · have hlt : extra.length < q.contentLength := by
      by_contra hge
      rw [hexit, acceptedExit, if_neg hge] at hkw
      split at hkw <;> cases hkw
    have hlen : q'.contentLength = q.contentLength := hagree.contentLength
    obtain ⟨hrSize, heffects, hslice, hroom⟩ := hwait (hstats.trans hworking) (hlen.symm ▸ hlt)
    obtain ⟨-, hlast⟩ := List.append_inj' (he.symm.trans heffects) rfl
    obtain ⟨rfl, rfl⟩ := Effect.asyncRead.inj (List.singleton_inj.mp hlast)
    refine .inr ⟨?_, hlt, hrSize, hslice, fun hsmall => ?_⟩
    · exact congrArg (fun n => OpKind.readBody extra.length (n - extra.length)) hlen
    · have hroom' := hroom (by rw [← hlen] at hsmall; exact hsmall)
      change q'.contentLength ≤ x'.conn.pBuffer.size at hroom'
      rwa [hlen] at hroom'

theorem deliver_head {c : FrontConn} {env : Env} {data head extra : ByteString}
    (hhead : WholeHead head) (htext : c.request ++ data = head ++ extra)
    (hnext : find crlf2 c.request = none ∨ data = []) :
    OpKind.readHead.deliver c .success data env =
      (Handling.readHeadHandler env .success head.length
        ⟨{ c with request := c.request ++ data }, []⟩).mapError .fault := by
  have hguard : ¬ ((find crlf2 c.request).isSome = true ∧ data ≠ []) := by
    rintro ⟨hsome, hne⟩
    rcases hnext with hnone | hnil
    · rw [hnone] at hsome
      cases hsome
    · exact hne hnil
  have hfind : find crlf2 (c.request ++ data) = some (head.length - 4) := by
    rw [htext]
    exact find_append hhead extra
  simp only [OpKind.deliver, if_true]
  rw [if_neg hguard]
  simp only [hfind, hhead.length]

theorem mapError_eq_fault {r : Except Fault Handling} {f : Fault}
    (hr : r.mapError Stop.fault = .error (.fault f)) : r = .error f := by
  cases r with
  | error e =>
      cases hr
      rfl
  | ok h => cases hr

/-- A head read that stops the process stops in the handler, on a text with a
head. Reading into `request_` cannot fail. -/
theorem deliver_readHead_fault {c : FrontConn} {env : Env} {data : ByteString} {f : Fault}
    (hd : OpKind.readHead.deliver c .success data env = .error (.fault f)) :
    ∃ head extra, c.request ++ data = head ++ extra ∧ WholeHead head ∧
      Handling.readHeadHandler env .success head.length
        ⟨{ c with request := c.request ++ data }, []⟩ = .error f := by
  simp only [OpKind.deliver, if_true] at hd
  split at hd
  · cases hd
  split at hd
  · cases hd
  next j hj =>
    obtain ⟨head, extra, htext, hhead, hlen⟩ := exists_wholeHead hj
    rw [← hlen] at hd
    exact ⟨head, extra, htext, hhead, mapError_eq_fault hd⟩

/-- A body read that stops the process has got its bytes, and stops in the
handler unless they do not fit. -/
theorem deliver_readBody_fault {c : FrontConn} {env : Env} {data : ByteString} {f : Fault}
    {offset len : Nat}
    (hd : (OpKind.readBody offset len).deliver c .success data env = .error (.fault f)) :
    data.length = len ∧ ((c.pBuffer.size < offset + data.length ∧ f = .outOfBounds) ∨
      Handling.readBodyHandler env .success data.length
        ⟨{ c with pBuffer := c.pBuffer.write offset data }, []⟩ = .error f) := by
  simp only [OpKind.deliver] at hd
  split at hd
  · cases hd
  next hlen =>
    have hall : data.length = len := by
      by_contra hne
      exact hlen (.inr ⟨trivial, hne⟩)
    refine ⟨hall, ?_⟩
    split at hd
    next hroom =>
      cases hd
      exact .inl ⟨hroom, rfl⟩
    next => exact .inr (mapError_eq_fault hd)

namespace Feed

/-- What a step does: the client sends, the connection is marked, a write makes
progress, one of the two reads completes, or an operation fails. -/
inductive Moves (d t : Feed) : Traffic → Prop where
  | sent {bytes} : t.session = d.session → t.unread = d.unread ++ bytes → Moves d t (.sent bytes)
  | expire : t.session = { d.session with conn := { d.session.conn with stats := .error } } →
      t.unread = d.unread → Moves d t .expire
  | quiet {e} : d.session.Undisturbed t.session → t.unread = d.unread →
      (∀ i ec data env, e = .complete i ec data env → ∃ w, d.pending i = some (.write w)) →
      Moves d t (.event e)
  | failed {i op ec data env effects} : Completes d.session i op ec data t.session effects →
      op.kind.exit d.session.conn ec data = .fail → ec ≠ .success →
      Moves d t (.event (.complete i ec data env))
  | aborted {i op data env effects} :
      Completes d.session i op .operationAborted data t.session effects → op.isRead = true →
      Moves d t (.event (.complete i .operationAborted data env))
  | head {i op data env effects head extra} :
      Completes d.session i op .success data t.session effects → op.kind = .readHead →
      data <+: d.unread → t.unread = d.unread.drop data.length → WholeHead head →
      d.request ++ data = head ++ extra →
      HeadOutcome { d.session.conn with request := d.request ++ data } env head extra
        (op.kind.exit d.session.conn .success data) t.session.conn effects →
      Moves d t (.event (.complete i .success data env))
  | body {i op data env effects offset len} :
      Completes d.session i op .success data t.session effects → op.kind = .readBody offset len →
      data <+: d.unread → t.unread = d.unread.drop data.length → data.length = len →
      Handling.readBodyHandler env .success data.length
        ⟨{ d.session.conn with pBuffer := d.session.conn.pBuffer.write offset data }, []⟩ =
          .ok ⟨t.session.conn, effects⟩ →
      Moves d t (.event (.complete i .success data env))

variable {d t : Feed} {a : Traffic} {i : Nat} {op : Op} {ec : ErrorCode} {data : ByteString}
variable {env : Env} {effects : List Effect}

theorem step_complete (env : Env) (hop : d.session.ops[i]? = some op)
    (hdata : data <+: d.unread) : d.step (.event (.complete i .success data env)) =
      (op.kind.deliver d.session.conn .success data env).map fun h =>
        ⟨Session.performAll ⟨h.conn, d.session.ops.eraseIdx i, d.session.trace⟩ h.effects,
          d.unread.drop data.length⟩ := by
  simp only [step, hdata, not_true_eq_false, if_false, Session.step, Session.react, hop,
    reduceCtorEq, false_and]
  cases op.kind.deliver d.session.conn .success data env <;> rfl

theorem step_complete_eq_ok (hs : d.step (.event (.complete i ec data env)) = .ok t) :
    data <+: d.unread ∧ t.unread = d.unread.drop data.length ∧
      ∃ effects, d.session.react (.complete i ec data env) = .ok (t.session, effects) := by
  simp only [step] at hs
  split at hs
  · cases hs
  next hdata =>
    cases hx : d.session.step (.complete i ec data env) with
    | error =>
        rw [hx] at hs
        cases hs
    | ok x =>
        rw [hx] at hs
        obtain rfl := Except.ok.inj hs
        exact ⟨not_not.mp hdata, rfl, step_eq_ok hx⟩

theorem step_complete_fault {f : Fault}
    (hs : d.step (.event (.complete i .success data env)) = .error (.fault f)) :
    data <+: d.unread ∧ ∃ op, d.session.ops[i]? = some op ∧
      op.kind.deliver d.session.conn .success data env = .error (.fault f) := by
  have hrun := hs
  simp only [step] at hs
  split at hs
  · cases hs
  next hdata =>
    replace hdata := not_not.mp hdata
    cases hop : d.session.ops[i]? with
    | none =>
        simp only [Session.step, Session.react, hop] at hs
        cases hs
    | some op =>
        refine ⟨hdata, op, rfl, ?_⟩
        rw [step_complete env hop hdata] at hrun
        cases hd : op.kind.deliver d.session.conn .success data env with
        | error e =>
            rw [hd] at hrun
            cases hrun
            rfl
        | ok h =>
            rw [hd] at hrun
            cases hrun

theorem step_send_eq_ok {n : Nat} (hs : d.step (.event (.send i n)) = .ok t) :
    t.unread = d.unread ∧ ∃ effects, d.session.react (.send i n) = .ok (t.session, effects) := by
  simp only [step] at hs
  cases hx : d.session.step (.send i n) with
  | error =>
      rw [hx] at hs
      cases hs
  | ok x =>
      rw [hx] at hs
      obtain rfl := Except.ok.inj hs
      exact ⟨rfl, step_eq_ok hx⟩

private theorem ok_expire (hok : d.session.Ok) (hs : t.session =
    { d.session with conn := { d.session.conn with stats := .error } }) : t.session.Ok := by
  rw [hs]
  refine ⟨hok.wSize, hok.wPos, hok.sock, hok.oneRead, ?_, hok.nonempty⟩
  intro hworking
  cases hworking

private theorem moves_failed (hok : d.session.Ok) (hec : ec ≠ .success)
    (hc : Completes d.session i op ec data t.session effects)
    (hr : d.session.react (.complete i ec data env) = .ok (t.session, effects))
    (hunread : t.unread = d.unread.drop data.length) :
    d.Moves t (.event (.complete i ec data env)) := by
  cases hread : op.isRead with
  | true =>
      by_cases haborted : ec = .operationAborted
      · subst haborted
        exact .aborted hc hread
      · refine .failed hc ?_ hec
        cases hkind : op.kind with
        | readHead =>
            change headExit _ _ _ = _
            rw [headExit, if_neg fun h => hec h.1, if_pos haborted]
        | readBody offset len =>
            change bodyExit _ _ _ = _
            rw [bodyExit, if_neg fun h => hec h.1, if_pos haborted]
        | write w =>
            rw [Op.isRead, hkind] at hread
            cases hread
  | false =>
      obtain ⟨w, hkind⟩ := op.exists_write hread
      rcases OpKind.exit_write w d.session.conn ec data with hexit | hexit
      · rw [← hkind] at hexit
        obtain ⟨hkeep, rfl⟩ := hok.quiet_undisturbed hc hexit hr
        refine .quiet hkeep (hunread.trans (List.drop_zero ..)) ?_
        intro i' ec' data env' he
        cases he
        exact ⟨w, by rw [pending, hc.found, Option.map_some, hkind]⟩
      · rw [← hkind] at hexit
        exact .failed hc hexit hec

private theorem moves_complete (hok : d.session.Ok)
    (hs : d.step (.event (.complete i ec data env)) = .ok t) :
    t.session.Ok ∧ d.Moves t (.event (.complete i ec data env)) := by
  obtain ⟨hdata, hunread, effects, hr⟩ := step_complete_eq_ok hs
  refine ⟨hok.react hr, ?_⟩
  obtain ⟨op, hc⟩ := react_complete hok.wSize hr
  by_cases hec : ec = .success
  · subst hec
    have hd := react_complete_deliver hc.found hr
    cases hkind : op.kind with
    | readHead =>
        rw [hkind] at hd
        obtain ⟨j, hj, hhandler⟩ := deliver_readHead hd
        obtain ⟨head, extra, htext, hhead, hlen⟩ := exists_wholeHead hj
        rw [← hlen] at hhandler
        have houtcome := Handling.readHeadHandler_outcome hhead htext hhandler
        refine .head hc hkind hdata hunread hhead htext ?_
        have hexit : OpKind.readHead.exit d.session.conn .success data = headExit
            { d.session.conn with request := d.session.conn.request ++ data } .success
              head.length := by
          simp [OpKind.exit, hj, hlen]
        rw [hkind, hexit]
        exact houtcome
    | readBody offset len =>
        rw [hkind] at hd
        obtain ⟨hlen, hhandler⟩ := deliver_readBody hd
        exact .body hc hkind hdata hunread hlen hhandler
    | write w =>
        obtain ⟨hkeep, rfl⟩ := hok.write_undisturbed hc.found hkind hr
        refine .quiet hkeep (hunread.trans (List.drop_zero ..)) ?_
        intro i' ec data env' he
        cases he
        exact ⟨w, by rw [pending, hc.found, Option.map_some, hkind]⟩
  · exact moves_failed hok hec hc hr hunread

/-- The inversion lemma of the step function. All that is shown of streams
goes through its cases. -/
theorem moves_of_step (hok : d.session.Ok) (hs : d.step a = .ok t) :
    t.session.Ok ∧ d.Moves t a := by
  cases a with
  | sent bytes =>
      obtain rfl := Except.ok.inj hs
      exact ⟨hok, .sent rfl rfl⟩
  | expire =>
      obtain rfl := Except.ok.inj hs
      exact ⟨ok_expire hok rfl, .expire rfl rfl⟩
  | event e =>
      cases e with
      | complete i ec data env => exact moves_complete hok hs
      | send i n =>
          obtain ⟨hunread, effects, hr⟩ := step_send_eq_ok hs
          refine ⟨hok.react hr, .quiet (send_undisturbed hr) hunread ?_⟩
          intro _ _ _ _ he
          cases he

theorem head_of_step (hok : d.session.Ok) (hpending : d.pending i = some .readHead)
    (hs : d.step (.event (.complete i .success data env)) = .ok t) : t.session.Ok ∧
      ∃ op effects head extra, Completes d.session i op .success data t.session effects ∧
        op.kind = .readHead ∧ data <+: d.unread ∧ WholeHead head ∧
        d.request ++ data = head ++ extra ∧
        HeadOutcome { d.session.conn with request := d.request ++ data } env head extra
          (op.kind.exit d.session.conn .success data) t.session.conn effects := by
  obtain ⟨hokt, hmoves⟩ := moves_of_step hok hs
  refine ⟨hokt, ?_⟩
  cases hmoves with
  | quiet _ _ hwrite =>
      obtain ⟨w, hw⟩ := hwrite _ _ _ _ rfl
      cases hpending.symm.trans hw
  | failed _ _ hec => exact absurd rfl hec
  | body hc hkind =>
      rw [pending, hc.found, Option.map_some, hkind] at hpending
      cases hpending
  | head hc hkind hdata hunread hhead htext houtcome =>
      exact ⟨_, _, _, _, hc, hkind, hdata, hhead, htext, houtcome⟩

def gathered (d : Feed) : FrontConn := { d.session.conn with request := d.request ++ d.unread }

/-- The head read can get everything at once, and then the handler decides.
This makes the worst cutting. -/
theorem exists_head_step (hreads : d.session.Reading .readHead)
    (hnext : find crlf2 d.request = none ∨ d.unread = []) {head rest : ByteString}
    (hhead : WholeHead head) (hbytes : d.request ++ d.unread = head ++ rest) (env : Env) :
    ∃ i, d.pending i = some .readHead ∧
      (∀ f, Handling.readHeadHandler env .success head.length ⟨d.gathered, []⟩ = .error f →
        d.step (.event (.complete i .success d.unread env)) = .error (.fault f)) ∧
      ∀ h, Handling.readHeadHandler env .success head.length ⟨d.gathered, []⟩ = .ok h →
        ∃ t, d.step (.event (.complete i .success d.unread env)) = .ok t ∧
          t.session.conn = h.conn ∧ t.unread = [] := by
  obtain ⟨op, hop, hkind⟩ := hreads
  obtain ⟨i, hi⟩ := List.getElem?_of_mem hop
  have hstep := step_complete env hi List.prefix_rfl
  rw [hkind, deliver_head hhead hbytes hnext] at hstep
  change d.step _ = Except.map _ ((Handling.readHeadHandler env .success head.length
    ⟨d.gathered, []⟩).mapError .fault) at hstep
  refine ⟨i, by rw [pending, hi, Option.map_some, hkind], ?_, ?_⟩
  · intro f hf
    rw [hf] at hstep
    exact hstep
  · intro h hh
    rw [hh] at hstep
    refine ⟨_, hstep, ?_, List.drop_length⟩
    exact Session.performAll_conn _ _

/-- A connection that has just been started, before its client sends anything.
All streams begin there. -/
structure Begins (d : Feed) (sock : SockId) : Prop where
  started : d.session.Started sock
  request : d.request = []
  size : d.session.conn.pBuffer.size = 16 * 1024
  unread : d.unread = []

theorem exists_begins (sock : SockId) : ∃ d : Feed, d.Begins sock := by
  obtain ⟨h, hh⟩ : ∃ h, (FrontConn.make sock 0).start (.refusing 0) = .ok h :=
    Handling.start_isOk rfl
  have hstarted : Session.started sock (.refusing 0) =
      .ok (Session.performAll ⟨h.conn, [], []⟩ h.effects) := by
    simp only [Session.started]
    rw [show (Env.refusing 0).now = 0 from rfl, hh]
    rfl
  refine ⟨⟨_, []⟩, Session.started_spec hstarted, ?_, ?_, rfl⟩ <;>
    obtain ⟨-, rfl⟩ := Handling.start_eq_ok hh
  · exact congrArg FrontConn.request (Session.performAll_conn _ _)
  · exact congrArg (fun c => c.pBuffer.size) (Session.performAll_conn _ _)

theorem Begins.reads {sock : SockId} (hd : d.Begins sock) : d.session.Reads .readHead :=
  ⟨⟨.readHead, sock, false⟩, by rw [hd.started.ops]; exact List.mem_singleton.mpr rfl, rfl, rfl⟩

theorem Begins.not_readBody {sock : SockId} (hd : d.Begins sock) (offset len : Nat) :
    ¬ d.session.Reading (.readBody offset len) := by
  rintro ⟨op, hop, hkind⟩
  rw [hd.started.ops] at hop
  obtain rfl := List.mem_singleton.mp hop
  cases hkind

end Feed

end Ailawd
