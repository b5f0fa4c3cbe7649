import Ailawd.Connection.FeedSteps

/-!
# Bytes past the request

`read_head_handler` asserts that no more than the announced body has been read past the
head. A read may take everything the client has sent, so this depends on the client:
`Clean` says which streams are safe however they are cut, and a client may send more as
long as what is still unhandled stays clean. An unclean stream fails as soon as it is read
at once.
-/

namespace Ailawd

open ByteString HttpProto Transition

/-- Heads that are answered alone, then at most one whose request takes all
that follows, or one that the parser cannot read and that nothing follows. -/
inductive Clean : ByteString → Prop where
  | incomplete {text} : find crlf2 text = none → Clean text
  | illegible {head} : WholeHead head → HttpParser.init.parseRequest head = (false, .init) →
      Clean head
  | accepted {head rest q} : WholeHead head → HttpParser.init.parseRequest head = (true, q) →
      q.ReadsBody → rest.length ≤ q.contentLength → Clean (head ++ rest)
  | rejected {head rest q} : WholeHead head → HttpParser.init.parseRequest head = (true, q) →
      ¬ q.ReadsBody → Clean rest → Clean (head ++ rest)

section Clean

variable {head rest : ByteString} {q : HttpParser}

theorem clean_nil : Clean [] := .incomplete rfl

theorem Clean.cases_head (h : Clean (head ++ rest)) (hhead : WholeHead head) :
    (HttpParser.init.parseRequest head = (false, .init) ∧ rest = []) ∨
      ∃ q, HttpParser.init.parseRequest head = (true, q) ∧
        (q.ReadsBody → rest.length ≤ q.contentLength) ∧ (¬ q.ReadsBody → Clean rest) := by
  generalize htext : head ++ rest = text at h
  cases h with
  | incomplete hnone =>
      rw [← htext, find_append hhead rest] at hnone
      cases hnone
  | illegible hhead' hfalse =>
      obtain ⟨rfl, rfl⟩ := hhead.unique hhead' (htext.trans (List.append_nil _).symm)
      exact .inl ⟨hfalse, rfl⟩
  | accepted hhead' hq hreads hle =>
      obtain ⟨rfl, rfl⟩ := hhead.unique hhead' htext
      exact .inr ⟨_, hq, fun _ => hle, fun hno => absurd hreads hno⟩
  | rejected hhead' hq hno hrest =>
      obtain ⟨rfl, rfl⟩ := hhead.unique hhead' htext
      exact .inr ⟨_, hq, fun hreads => absurd hreads hno, fun _ => hrest⟩

theorem Clean.of_illegible (h : Clean (head ++ rest)) (hhead : WholeHead head)
    (hfalse : HttpParser.init.parseRequest head = (false, .init)) : rest = [] := by
  obtain ⟨-, hrest⟩ | ⟨q, hq, -⟩ := h.cases_head hhead
  · exact hrest
  · cases hfalse.symm.trans hq

theorem Clean.of_parsed (h : Clean (head ++ rest)) (hhead : WholeHead head)
    (hq : HttpParser.init.parseRequest head = (true, q)) :
    (q.ReadsBody → rest.length ≤ q.contentLength) ∧ (¬ q.ReadsBody → Clean rest) := by
  obtain ⟨hfalse, -⟩ | ⟨q', hq', hrest⟩ := h.cases_head hhead
  · cases hq.symm.trans hfalse
  · obtain ⟨-, rfl⟩ := Prod.mk.inj (hq.symm.trans hq')
    exact hrest

end Clean

/-- How many of the bytes after a head belong to its request, as the handlers
see it: what they read, and never what they skip. -/
def claimed (head : ByteString) : Nat :=
  match HttpParser.init.parseRequest head with
  | (true, q) => if q.ReadsBody then q.contentLength else 0
  | (false, _) => 0

theorem claimed_of_readsBody {head : ByteString} {q : HttpParser}
    (h : HttpParser.init.parseRequest head = (true, q)) (hreads : q.ReadsBody) :
    claimed head = q.contentLength := by
  simp only [claimed, h]
  rw [if_pos hreads]

namespace Feed

/-- The assertion does not fail in the next completion of a head read, and the
bytes past the request stay in `request_`. An analysis of its own does not fail
that assertion. -/
structure Safe (d : Feed) : Prop where
  assertion : ∀ i data env, (∀ body, env.analyse body ≠ .error .additionalSize) →
    d.step (.event (.complete i .success data env)) ≠ .error (.fault .additionalSize)
  surplus : ∀ i data env t head extra, d.pending i = some .readHead →
    d.step (.event (.complete i .success data env)) = .ok t → WholeHead head →
    d.request ++ data = head ++ extra → t.request = extra.drop (claimed head)

/-- With these bytes sent, what is still unhandled is clean: everything while a
head is read, and what follows the body while a body is read. -/
structure Takes (d : Feed) (bytes : ByteString) : Prop where
  head : d.session.Reading .readHead → Clean (d.request ++ (d.unread ++ bytes))
  body : ∀ offset len, d.session.Reading (.readBody offset len) →
    Clean ((d.unread ++ bytes).drop len)

/-- The client only sends what keeps the unhandled bytes clean, and no read is
aborted: that would drop `request_` and go on with the next bytes. -/
structure Orderly (m : Move Feed Traffic) : Prop where
  takes : ∀ bytes, m.label = .sent bytes → m.pre.Takes bytes
  completes : ∀ i data env, m.label = .event (.complete i .operationAborted data env) →
    ∃ w, m.pre.pending i = some (.write w)

/-- What holds between the steps of a feed whose client only sends clean bytes.
A write that fails resets `r_size_` below a body read that is still
outstanding. -/
structure Tidy (d : Feed) : Prop where
  ok : d.session.Ok
  takes : d.Takes []
  empty : ∀ offset len, d.session.Reading (.readBody offset len) → d.request = []
  missing : ∀ offset len, d.session.Reading (.readBody offset len) →
    d.session.conn.rSize + len = d.session.conn.parser.contentLength ∨
      d.session.conn.stats ≠ .working

section Step

variable {d t : Feed} {a : Traffic}

theorem Takes.nil_iff :
    d.Takes [] ↔ (d.session.Reading .readHead → Clean (d.request ++ d.unread)) ∧
      ∀ offset len, d.session.Reading (.readBody offset len) → Clean (d.unread.drop len) := by
  constructor
  · rintro ⟨hhead, hbody⟩
    rw [List.append_nil] at hhead hbody
    exact ⟨hhead, hbody⟩
  · rintro ⟨hhead, hbody⟩
    refine ⟨?_, ?_⟩ <;> rw [List.append_nil]
    · exact hhead
    · exact hbody

/-- A step that moves no bytes keeps the invariant. Most
steps are of this kind. -/
private theorem Tidy.transport (h : d.Tidy) (hok : t.session.Ok)
    (hreads : ∀ kind, (∀ w, kind ≠ .write w) → t.session.Reading kind → d.session.Reading kind)
    (hrequest : t.session.conn.request = d.session.conn.request)
    (hmissing : ∀ len, d.session.conn.rSize + len = d.session.conn.parser.contentLength ∨
        d.session.conn.stats ≠ .working →
      t.session.conn.rSize + len = t.session.conn.parser.contentLength ∨
        t.session.conn.stats ≠ .working) (hunread : t.unread = d.unread) : t.Tidy := by
  obtain ⟨hhead, hbody⟩ := Takes.nil_iff.mp h.takes
  refine ⟨hok, Takes.nil_iff.mpr ⟨?_, ?_⟩, ?_, ?_⟩
  · intro hr
    rw [request, hrequest, hunread]
    exact hhead (hreads _ (by simp) hr)
  · intro offset len hr
    rw [hunread]
    exact hbody offset len (hreads _ (by simp) hr)
  · intro offset len hr
    exact hrequest.trans (h.empty offset len (hreads _ (by simp) hr))
  · intro offset len hr
    exact hmissing len (h.missing offset len (hreads _ (by simp) hr))

/-- A state that awaits a head after a read, with clean bytes before it. -/
private theorem tidy_of_head (hok : t.session.Ok)
    (hreads : ∀ kind, (∀ w, kind ≠ .write w) → t.session.Reading kind → kind = .readHead)
    (hclean : Clean (t.request ++ t.unread)) : t.Tidy := by
  refine ⟨hok, Takes.nil_iff.mpr ⟨fun _ => hclean, ?_⟩, ?_, ?_⟩ <;>
    · intro offset len hr
      cases hreads _ (by simp) hr

private theorem tidy_of_no_reads (hok : t.session.Ok)
    (hreads : ∀ kind, (∀ w, kind ≠ .write w) → ¬ t.session.Reading kind) : t.Tidy := by
  refine ⟨hok, ⟨fun hr => absurd hr (hreads _ (by simp)), ?_⟩, ?_, ?_⟩ <;>
    · intro offset len hr
      exact absurd hr (hreads _ (by simp))

private theorem Tidy.head {i : Nat} {op : Op} {data head extra : ByteString} {env : Env}
    {effects : List Effect} (h : d.Tidy) (hok : t.session.Ok)
    (hc : Completes d.session i op .success data t.session effects) (hkind : op.kind = .readHead)
    (hdata : data <+: d.unread) (hunread : t.unread = d.unread.drop data.length)
    (hhead : WholeHead head) (htext : d.request ++ data = head ++ extra)
    (houtcome : HeadOutcome { d.session.conn with request := d.request ++ data } env head extra
      (op.kind.exit d.session.conn .success data) t.session.conn effects) : t.Tidy := by
  have hread : op.isRead = true := by
    rw [Op.isRead]
    rw [hkind]
  have hbytes : d.request ++ d.unread = head ++ (extra ++ t.unread) := by
    obtain ⟨rest, hrest⟩ := hdata
    rw [hunread, ← hrest, List.drop_left, ← List.append_assoc, htext, List.append_assoc]
  have hclean : Clean (head ++ (extra ++ t.unread)) := hbytes ▸ (Takes.nil_iff.mp h.takes).1
    ⟨op, List.mem_of_getElem? hc.found, hkind⟩
  have hanswered : op.kind.exit d.session.conn .success data = .answer →
      ∀ kind, (∀ w, kind ≠ .write w) → t.session.Reading kind → kind = .readHead := by
    intro hexit kind hw hr
    obtain ⟨-, rfl⟩ | ⟨hwait, -⟩ := hc.reads_after h.ok hread hr hw
    · rfl
    · cases hexit.symm.trans hwait
  cases houtcome with
  | illegible hfalse hexit hrequest =>
      obtain ⟨-, hnone⟩ := List.append_eq_nil_iff.mp (hclean.of_illegible hhead hfalse)
      apply tidy_of_head hok (hanswered hexit)
      rw [request, hrequest, hnone]
      exact clean_nil
  | rejected hq hagree hno hexit hkeep =>
      apply tidy_of_head hok (hanswered hexit)
      rw [request, show t.session.conn.request = extra from hkeep.request]
      exact (hclean.of_parsed hhead hq).2 hno
  | @accepted q q' hq hagree hreads hexit hrecv =>
      have hle := (hclean.of_parsed hhead hq).1 hreads
      rw [List.length_append] at hle
      obtain ⟨-, hrequest, hparser, -⟩ := Handling.receiveBody_receives hrecv
      change t.session.conn.request = [] at hrequest
      change t.session.conn.parser = q' at hparser
      -- nothing is left beside the body, so a body read gets all there is
      have hbody : ∀ offset len, t.session.Reading (.readBody offset len) →
          len = q.contentLength - extra.length ∧ extra.length < q.contentLength ∧
            t.session.conn.rSize = extra.length := by
        intro offset len hr
        obtain ⟨hk, -⟩ | ⟨hk, hlt, hrSize, -⟩ :=
          hc.reads_accepted h.ok hread rfl hagree hexit hrecv hr (by simp)
        · cases hk
        · exact ⟨(OpKind.readBody.inj hk).2, hlt, hrSize⟩
      refine ⟨hok, Takes.nil_iff.mpr ⟨?_, ?_⟩, ?_, ?_⟩
      · intro hr
        obtain ⟨-, hall⟩ | ⟨hk, -⟩ :=
          hc.reads_accepted h.ok hread rfl hagree hexit hrecv hr (by simp)
        · have hnone : t.unread = [] := List.length_eq_zero_iff.mp (by omega)
          rw [request, hrequest, hnone]
          exact clean_nil
        · cases hk
      · intro offset len hr
        obtain ⟨rfl, hlt, -⟩ := hbody offset len hr
        rw [List.drop_eq_nil_of_le (by omega)]
        exact clean_nil
      · intro _ _ _
        exact hrequest
      · intro offset len hr
        obtain ⟨rfl, hlt, hrSize⟩ := hbody offset len hr
        rw [hrSize, hparser, hagree.contentLength]
        exact .inl (by omega)

private theorem Tidy.body {i : Nat} {op : Op} {data : ByteString} {env : Env}
    {effects : List Effect} {offset len : Nat} (h : d.Tidy) (hok : t.session.Ok)
    (hc : Completes d.session i op .success data t.session effects)
    (hkind : op.kind = .readBody offset len) (hunread : t.unread = d.unread.drop data.length)
    (hlen : data.length = len)
    (hr : Handling.readBodyHandler env .success data.length
      ⟨{ d.session.conn with pBuffer := d.session.conn.pBuffer.write offset data }, []⟩ =
        .ok ⟨t.session.conn, effects⟩) : t.Tidy := by
  have hread : op.isRead = true := by
    rw [Op.isRead]
    rw [hkind]
  have hreads : d.session.Reading (.readBody offset len) :=
    ⟨op, List.mem_of_getElem? hc.found, hkind⟩
  have hpos : 0 < len := by
    have hnonempty := h.ok.nonempty op (List.mem_of_getElem? hc.found)
    rwa [hkind] at hnonempty
  have hmissing := h.missing offset len hreads
  have hexit : op.kind.exit d.session.conn .success data =
      if d.session.conn.rSize + data.length < d.session.conn.parser.contentLength then .wait
      else .answer := by
    rw [hkind]
    change bodyExit _ _ _ = _
    rw [bodyExit, if_pos ⟨rfl, by omega⟩]
  apply tidy_of_head hok
  · intro kind hw hk
    obtain ⟨-, rfl⟩ | ⟨hwait, hworking, -⟩ := hc.reads_after h.ok hread hk hw
    · rfl
    · -- a working connection has got the whole body
      have hall := hmissing.resolve_right (not_not.mpr hworking)
      rw [hexit, if_neg (by omega)] at hwait
      cases hwait
  · have hrequest : t.session.conn.request = d.session.conn.request :=
      (Handling.readBodyHandler_keepsInput hr).request
    rw [request, hrequest, show d.session.conn.request = [] from h.empty offset len hreads,
      hunread, hlen]
    exact (Takes.nil_iff.mp h.takes).2 offset len hreads

/-- The step lemma. One case for each way in which a feed moves. -/
theorem Tidy.step (h : d.Tidy) (hm : Orderly ⟨d, a, t⟩) (hs : d.step a = .ok t) : t.Tidy := by
  obtain ⟨hok, hmoves⟩ := moves_of_step h.ok hs
  cases hmoves with
  | @sent bytes hsession hunread =>
      obtain ⟨hhead, hbody⟩ := hm.takes bytes rfl
      refine ⟨hok, Takes.nil_iff.mpr ?_, ?_, ?_⟩
      · rw [request, hsession, hunread]
        exact ⟨hhead, hbody⟩
      · rw [request, hsession]
        exact h.empty
      · rw [hsession]
        exact h.missing
  | expire hsession hunread =>
      refine h.transport hok ?_ ?_ ?_ hunread <;> rw [hsession]
      · intro kind _ hr
        exact hr
      · exact fun _ _ => .inr (by rintro ⟨⟩)
  | quiet hkeep hunread _ =>
      refine h.transport hok (fun kind hw => (hkeep.reading_iff hw).mp) hkeep.request ?_ hunread
      rw [hkeep.rSize, hkeep.parser, hkeep.stats]
      exact fun _ hm => hm
  | head hc hkind hdata hunread hhead htext houtcome =>
      exact h.head hok hc hkind hdata hunread hhead htext houtcome
  | body hc hkind hdata hunread hlen hr => exact h.body hok hc hkind hunread hlen hr
  | @failed i op ec data env effects hc hexit _ =>
      cases hread : op.isRead with
      | true =>
          exact tidy_of_no_reads hok fun kind => Session.not_reading (hc.idle h.ok hexit hread)
      | false =>
          obtain ⟨-, hunread, _, hr⟩ := step_complete_eq_ok hs
          obtain ⟨op', hc'⟩ := react_complete h.ok.wSize hr
          obtain rfl := Option.some.inj (hc.found.symm.trans hc'.found)
          obtain ⟨rfl, hkeep, -, hstats⟩ := hc'.write_failed hread hexit hr
          refine h.transport hok (fun kind _ => hc.reading_of_write h.ok hexit) hkeep.request ?_
            hunread
          rw [hstats]
          exact fun _ _ => .inr (by decide)
  | aborted hc hread =>
      obtain ⟨w, hw⟩ := hm.completes _ _ _ rfl
      rw [pending, hc.found, Option.map_some] at hw
      rw [Op.isRead, Option.some.inj hw] at hread
      cases hread

end Step

end Feed

namespace Handling

variable {env : Env} {h : Handling} {sock : SockId} {n : Nat}

/-- The body handler does not stop at the assertion,
which is not one of its own. -/
private theorem readBodyHandler_passes (hsock : h.conn.pSock = some sock)
    (henv : ∀ body, env.analyse body ≠ .error .additionalSize) :
    h.readBodyHandler env .success n ≠ .error .additionalSize := by
  intro hr
  rw [readBodyHandler] at hr
  split at hr
  · simp only at hr
    set g : Handling := { h with conn := { h.conn with rSize := h.conn.rSize + n } } with hg
    have hgsock : g.conn.pSock = some sock := hsock
    split at hr
    · obtain ⟨h', hok⟩ : ∃ h', g.doReadBody env = .ok h' := doReadBody_isOk hgsock
      cases hok.symm.trans hr
    · split at hr
      · split at hr
        next e he =>
          obtain rfl := Except.error.inj hr
          rw [analyseHandler] at he
          split at he
          · cases he
          · simp only at he
            split at he
            next e' he' =>
              obtain rfl := Except.error.inj he
              exact henv _ he'
            · cases he
            · cases he
        next g' hg' =>
          obtain ⟨hb, -⟩ | ⟨k, text, -, hk, rfl⟩ := analyseHandler_eq_ok hg'
          · cases hb
          · obtain ⟨h', hok⟩ := fillForHttp_writeReturn_isOk env (hk.sock.trans hgsock) text
              Status.ok
            cases hok.symm.trans hr
        next g' hg' =>
          obtain ⟨-, hk⟩ | ⟨-, -, hb, -⟩ := analyseHandler_eq_ok hg'
          · obtain ⟨h', hok⟩ := fillForHttp_writeReturn_isOk env (hk.sock.trans hgsock)
              contentError Status.internalServerError
            cases hok.symm.trans hr
          · cases hb
      · obtain ⟨h', hok⟩ := fillForHttp_writeReturn_isOk env hgsock contentNotFound Status.notFound
        cases hok.symm.trans hr
  · rw [if_pos (by decide)] at hr
    obtain ⟨h', hok⟩ := socketError_isOk hsock
    cases hok.symm.trans hr

/-- The accepting branch stops at the assertion only if it fails, and calls
nothing that has it. -/
private theorem receiveBody_passes (hsock : h.conn.pSock = some sock)
    (henv : ∀ body, env.analyse body ≠ .error .additionalSize)
    (hle : h.conn.request.length ≤ h.conn.parser.contentLength) :
    h.receiveBody env ≠ .error .additionalSize := by
  intro hr
  rw [receiveBody] at hr
  simp only [not_not.mpr hle, if_false] at hr
  split at hr
  next e he =>
    rw [growBuffer] at he
    split at he
    · split at he
      · cases he.trans hr
      · cases he
    · cases he
  next g hg =>
    have hgsock : g.conn.pSock = some sock := (growBuffer_quiet hg).sock.trans hsock
    split at hr
    next e he =>
      rw [takeAdditional] at he
      split at he
      · cases he
      · split at he
        · cases he.trans hr
        · cases he
    next g' hg' =>
      have hgsock' : g'.conn.pSock = some sock := (takeAdditional_quiet hg').sock.trans hgsock
      split at hr
      · set k : Handling := { g' with conn := { g'.conn with rSize := h.conn.request.length } }
        obtain ⟨h', hok⟩ : ∃ h', k.doReadBody env = .ok h' := doReadBody_isOk hgsock'
        cases hok.symm.trans hr
      · exact readBodyHandler_passes hgsock' henv hr

/-- A head is answered or received without stopping at the assertion, if what
follows it is not too long. -/
private theorem readHeadHandler_passes {c : FrontConn} {head extra : ByteString}
    (hhead : WholeHead head) (htext : c.request = head ++ extra) (hsock : c.pSock = some sock)
    (henv : ∀ body, env.analyse body ≠ .error .additionalSize)
    (hle : ∀ q, HttpParser.init.parseRequest head = (true, q) → q.ReadsBody →
      extra.length ≤ q.contentLength) :
    readHeadHandler env .success head.length ⟨c, []⟩ ≠ .error .additionalSize := by
  intro hr
  have hlen := hhead.length
  obtain ⟨-, hparse⟩ | ⟨q, q', hq, hparse, hagree⟩ :=
    HttpParser.parseRequest_head .init c.parser hhead extra <;> rw [← htext] at hparse
  · obtain ⟨h', hok⟩ := readHeadHandler_isOk (n := head.length) env hsock (by omega) hparse
      (by simp)
    cases hok.symm.trans hr
  · by_cases hreads : q.ReadsBody
    · rw [readHeadHandler_accepted env hhead htext hparse (hagree.readsBody.mpr hreads)] at hr
      refine receiveBody_passes (h := headParsed c (head ++ extra) extra q') hsock henv ?_ hr
      change extra.length ≤ q'.contentLength
      rw [hagree.contentLength]
      exact hle q hq hreads
    · obtain ⟨h', hok⟩ := readHeadHandler_isOk (n := head.length) env hsock (by omega) hparse
        fun _ h => hreads (hagree.readsBody.mp h)
      cases hok.symm.trans hr

end Handling

namespace Feed

variable {d t : Feed}

/-- The text that a head read completes with begins a clean stream, however
much of it has been read. -/
private theorem Tidy.clean_text (h : d.Tidy) {data head extra : ByteString}
    (hreads : d.session.Reading .readHead) (hdata : data <+: d.unread)
    (htext : d.request ++ data = head ++ extra) :
    Clean (head ++ (extra ++ d.unread.drop data.length)) := by
  have hclean := (Takes.nil_iff.mp h.takes).1 hreads
  obtain ⟨rest, hrest⟩ := hdata
  rw [← hrest, ← List.append_assoc, htext, List.append_assoc] at hclean
  rwa [← hrest, List.drop_left]

private theorem Tidy.passes (h : d.Tidy) {i : Nat} {data : ByteString} {env : Env}
    (henv : ∀ body, env.analyse body ≠ .error .additionalSize) :
    d.step (.event (.complete i .success data env)) ≠ .error (.fault .additionalSize) := by
  intro hs
  obtain ⟨hdata, op, hop, hd⟩ := step_complete_fault hs
  have hmem := List.mem_of_getElem? hop
  have hsock := h.ok.sock op hmem
  cases hkind : op.kind with
  | readHead =>
      rw [hkind] at hd
      obtain ⟨head, extra, htext, hhead, hfault⟩ := deliver_readHead_fault hd
      have hclean := h.clean_text ⟨op, hmem, hkind⟩ hdata htext
      refine Handling.readHeadHandler_passes
        (c := { d.session.conn with request := d.session.conn.request ++ data }) hhead htext hsock
        henv ?_ hfault
      intro q hq hreads
      have hle := (hclean.of_parsed hhead hq).1 hreads
      rw [List.length_append] at hle
      omega
  | readBody offset len =>
      rw [hkind] at hd
      obtain ⟨-, ⟨-, hf⟩ | hfault⟩ := deliver_readBody_fault hd
      · cases hf
      · exact Handling.readBodyHandler_passes hsock henv hfault
  | write w =>
      simp only [hkind, OpKind.deliver] at hd
      split at hd
      · cases hd
      have hr := mapError_eq_fault hd
      rw [Handling.writeHandler] at hr
      split at hr
      · simp only [h.ok.wSize, Nat.not_lt_zero, if_false] at hr
        cases hr
      · rw [if_pos (by decide)] at hr
        obtain ⟨h', hok⟩ := Handling.socketError_isOk (h := ⟨d.session.conn, []⟩) hsock
        cases hok.symm.trans hr

theorem Tidy.safe (h : d.Tidy) : d.Safe := by
  refine ⟨fun i data env henv => h.passes henv, ?_⟩
  intro i data env t head extra hpending hs hhead htext
  obtain ⟨-, op, effects, head', extra', hc, hkind, hdata, hhead', htext', houtcome⟩ :=
    head_of_step h.ok hpending hs
  obtain ⟨rfl, rfl⟩ := hhead.unique hhead' (htext.symm.trans htext')
  have hclean := h.clean_text ⟨_, List.mem_of_getElem? hc.found, hkind⟩ hdata htext
  cases houtcome with
  | illegible hfalse _ hrequest =>
      obtain ⟨rfl, -⟩ := List.append_eq_nil_iff.mp (hclean.of_illegible hhead hfalse)
      rw [request, hrequest, List.drop_nil]
  | rejected hq _ hno _ hkeep =>
      have hclaimed : claimed head = 0 := by
        simp only [claimed, hq]
        rw [if_neg hno]
      rw [request, hclaimed, List.drop_zero]
      exact hkeep.request
  | accepted hq _ hreads _ hrecv =>
      have hle := (hclean.of_parsed hhead hq).1 hreads
      rw [List.length_append] at hle
      rw [request, claimed_of_readsBody hq hreads, List.drop_eq_nil_of_le (by omega)]
      exact (Handling.receiveBody_receives hrecv).2.1

/-- Bytes behind a head that is not parsed are consumed
with it. -/
private theorem not_safe_of_illegible {sock : SockId} {head rest : ByteString}
    (hreads : d.session.Reads .readHead) (hnext : find crlf2 d.request = none ∨ d.unread = [])
    (hsock : d.gathered.pSock = some sock) (hhead : WholeHead head)
    (hbytes : d.request ++ d.unread = head ++ rest) (hrest : rest ≠ [])
    (hfalse : HttpParser.init.parseRequest head = (false, .init)) : ¬ d.Safe := by
  have htext : d.gathered.request = head ++ rest := hbytes
  have hlen := hhead.length
  obtain ⟨i, hpending, hrun⟩ := exists_head_step hreads.reading hnext hhead hbytes (.refusing 0)
  obtain ⟨-, hparse⟩ | ⟨q, q', hq, -⟩ :=
    HttpParser.parseRequest_head .init d.gathered.parser hhead rest
  · rw [← htext] at hparse
    obtain ⟨h, hh⟩ := Handling.readHeadHandler_isOk (n := head.length) (.refusing 0) hsock
      (by omega) hparse (by simp)
    obtain ⟨t, hs, hconn, -⟩ := hrun.2 h hh
    refine fun hsafe => hrest ?_
    have hsurplus := hsafe.surplus i d.unread _ t head rest hpending hs hhead hbytes
    cases Handling.readHeadHandler_outcome hhead htext hh with
    | illegible _ _ hrequest =>
        have hclaimed : claimed head = 0 := by simp only [claimed, hfalse]
        rw [hclaimed, List.drop_zero, request, hconn, hrequest] at hsurplus
        exact hsurplus.symm
    | rejected hq => cases hfalse.symm.trans hq
    | accepted hq => cases hfalse.symm.trans hq
  · cases hfalse.symm.trans hq

/-- More bytes behind an accepted head than its
body has fail the assertion. -/
private theorem not_safe_of_surplus {head rest : ByteString} {q : HttpParser}
    (hreads : d.session.Reads .readHead) (hnext : find crlf2 d.request = none ∨ d.unread = [])
    (hhead : WholeHead head) (hbytes : d.request ++ d.unread = head ++ rest)
    (hq : HttpParser.init.parseRequest head = (true, q)) (hbody : q.ReadsBody)
    (hmore : ¬ rest.length ≤ q.contentLength) : ¬ d.Safe := by
  have htext : d.gathered.request = head ++ rest := hbytes
  obtain ⟨i, -, hrun⟩ := exists_head_step hreads.reading hnext hhead hbytes (.refusing 0)
  obtain ⟨q', hparse, hagree⟩ := HttpParser.parseRequest_append d.gathered.parser hhead hq rest
  rw [← htext] at hparse
  rw [← hagree.contentLength] at hmore
  have hstops := Handling.readHeadHandler_accepted (.refusing 0) hhead htext hparse
    (hagree.readsBody.mpr hbody)
  rw [Handling.receiveBody] at hstops
  simp only [Handling.headParsed, hmore, not_false_eq_true, if_true] at hstops
  exact fun hsafe => hsafe.assertion i d.unread _ (by simp [Env.refusing]) (hrun.1 _ hstops)

/-- While a head is awaited, an unclean stream leads to an unsafe state, when
it is read all at once. -/
theorem exists_unsafe (hok : d.session.Ok) (hreads : d.session.Reads .readHead)
    (hnext : find crlf2 d.request = none ∨ d.unread = [])
    (hunclean : ¬ Clean (d.request ++ d.unread)) :
    ∃ moves t, Run step d moves t ∧ (∀ m ∈ moves, ∀ bytes, m.label ≠ .sent bytes) ∧ ¬ t.Safe := by
  induction hsize : (d.request ++ d.unread).length using Nat.strong_induction_on generalizing d with
  | _ size ih =>
  obtain ⟨j, hj⟩ : ∃ j, find crlf2 (d.request ++ d.unread) = some j :=
    Option.ne_none_iff_exists'.mp fun hnone => hunclean (.incomplete hnone)
  obtain ⟨head, rest, hbytes, hhead, hlen⟩ := exists_wholeHead hj
  have hsock : ∃ sock, d.gathered.pSock = some sock := by
    obtain ⟨op, hop, -, -⟩ := hreads
    exact ⟨op.sock, hok.sock op hop⟩
  obtain ⟨sock, hsock⟩ := hsock
  have htext : d.gathered.request = head ++ rest := hbytes
  have hstay : ¬ d.Safe → ∃ moves t, Run step d moves t ∧
      (∀ m ∈ moves, ∀ bytes, m.label ≠ .sent bytes) ∧ ¬ t.Safe :=
    fun hunsafe => ⟨[], d, .nil, by simp, hunsafe⟩
  rw [hbytes] at hunclean
  obtain ⟨hfalse, -⟩ | ⟨q, q', hq, hparse, hagree⟩ :=
    HttpParser.parseRequest_head .init d.gathered.parser hhead rest
  · have hrest : rest ≠ [] := by
      rintro rfl
      rw [List.append_nil] at hunclean
      exact hunclean (.illegible hhead hfalse)
    exact hstay (not_safe_of_illegible hreads hnext hsock hhead hbytes hrest hfalse)
  · by_cases hbody : q.ReadsBody
    · exact hstay (not_safe_of_surplus hreads hnext hhead hbytes hq hbody
        fun hle => hunclean (.accepted hhead hq hbody hle))
    · obtain ⟨i, hpending, hrun⟩ :=
        exists_head_step hreads.reading hnext hhead hbytes (.refusing 0)
      rw [← htext] at hparse
      obtain ⟨h, hh⟩ := Handling.readHeadHandler_isOk (n := head.length) (.refusing 0) hsock
        (by omega) hparse fun _ hb => hbody (hagree.readsBody.mp hb)
      obtain ⟨t, hs, hconn, hunread⟩ := hrun.2 h hh
      obtain ⟨htok, op, effects, head', extra, hc, -, -, hhead', htext', houtcome⟩ :=
        head_of_step hok hpending hs
      rw [hbytes, List.length_append] at hsize
      obtain ⟨rfl, rfl⟩ := hhead.unique hhead' (hbytes.symm.trans htext')
      cases houtcome with
      | illegible hfalse => cases hq.symm.trans hfalse
      | accepted hq' _ hbody' =>
          obtain ⟨-, rfl⟩ := Prod.mk.inj (hq.symm.trans hq')
          exact absurd hbody' hbody
      | rejected _ _ _ hexit hkeep =>
          obtain ⟨hreads', -, -⟩ := hc.answered hok hexit
          have hrequest : t.request = rest := hkeep.request
          have hunclean' : ¬ Clean (t.request ++ t.unread) := by
            rw [hrequest, hunread, List.append_nil]
            exact fun hclean => hunclean (.rejected hhead hq hbody hclean)
          obtain ⟨moves, u, hr, hquiet, hunsafe⟩ := ih _ (by
            rw [hrequest, hunread, List.append_nil]
            omega) htok hreads' (.inr hunread) hunclean' rfl
          refine ⟨_, u, Run.append (.snoc .nil hs) hr, ?_, hunsafe⟩
          refine List.forall_mem_append.mpr ⟨?_, hquiet⟩
          simp

theorem Begins.tidy {sock : SockId} (hd : d.Begins sock) : d.Tidy := by
  refine ⟨hd.started.ok, Takes.nil_iff.mpr ⟨?_, ?_⟩, ?_, ?_⟩
  · intro _
    rw [hd.request, hd.unread]
    exact clean_nil
  all_goals
    intro offset len hr
    exact absurd hr (hd.not_readBody offset len)

/-- If every step is orderly, every state is safe; and whatever unclean stream
is sent first, some way of reading it reaches an unsafe one. -/
theorem surplus_bytes_safe {d₀ : Feed} {sock : SockId} (hd : d₀.Begins sock) :
    (∀ moves d, Run step d₀ moves d → (∀ m ∈ moves, Orderly m) →
      ∀ s, Visits moves d s → s.Safe) ∧
    ∀ stream, ¬ Clean stream → ∃ moves d, Run step d₀ moves d ∧
      (∀ m ∈ moves, ∀ bytes, m.label = .sent bytes → m.pre = d₀ ∧ bytes = stream) ∧ ¬ d.Safe := by
  constructor
  · intro moves d hr horderly s hs
    have htidy := hr.invariant_of_visits horderly hd.tidy
      (fun s a t h hm hstep => h.step hm hstep) s hs
    exact htidy.safe
  · intro stream hunclean
    have hfirst : d₀.step (.sent stream) = .ok ⟨d₀.session, stream⟩ := by
      rw [step, hd.unread, List.nil_append]
    obtain ⟨moves, d, hr, hquiet, hunsafe⟩ := exists_unsafe (d := ⟨d₀.session, stream⟩)
      hd.started.ok hd.reads (.inl (congrArg (find crlf2) hd.request)) (by
        rw [show request ⟨d₀.session, stream⟩ = [] from hd.request]
        exact hunclean)
    refine ⟨_, d, Run.append (.snoc .nil hfirst) hr, ?_, hunsafe⟩
    refine List.forall_mem_append.mpr ⟨?_, fun m hm bytes hb => absurd hb (hquiet m hm bytes)⟩
    intro m hm bytes hb
    obtain rfl := List.mem_singleton.mp hm
    exact ⟨rfl, (Traffic.sent.inj hb).symm⟩

section ExtraByte

def oneByteRequest : Request :=
  (Request.make? (ofString "POST /analyse HTTP/1.1\r\nContent-Length: 1\r\n\r\n")
    (ofString "a")).get (by decide +kernel)

private theorem oneByteRequest_readsBody : oneByteRequest.parser.ReadsBody := by decide +kernel

private theorem oneByteRequest_contentLength : oneByteRequest.parser.contentLength = 1 :=
  HttpParser.contentLength_of_announced oneByteRequest.announced (by decide)

/-- A client that sends one request with its body is safe in every run, with
failures or without. -/
theorem surplus_bytes_safe_one_request : ∃ d₀ : Feed, d₀.Begins 7 ∧
    ∀ moves d, Run step d₀ moves d →
      (∀ m ∈ moves, ∀ bytes, m.label = .sent bytes →
        m.pre = d₀ ∧ bytes = oneByteRequest.bytes) →
      (∀ m ∈ moves, ∀ i ec data env, m.label = .event (.complete i ec data env) →
        ec = .success) →
      ∀ s, Visits moves d s → s.Safe := by
  obtain ⟨d₀, hd⟩ := exists_begins 7
  refine ⟨d₀, hd, fun moves d hr hsent hec => (surplus_bytes_safe hd).1 moves d hr ?_⟩
  intro m hm
  refine ⟨?_, fun i data env ha => absurd (hec m hm _ _ _ _ ha) (by decide)⟩
  intro bytes hb
  obtain ⟨hpre, rfl⟩ := hsent m hm bytes hb
  rw [hpre]
  refine ⟨fun _ => ?_, fun offset len hread => absurd hread (hd.not_readBody offset len)⟩
  rw [hd.request, hd.unread, List.nil_append, List.nil_append]
  refine .accepted oneByteRequest.terminated oneByteRequest.parses oneByteRequest_readsBody ?_
  exact Nat.le_of_eq oneByteRequest_contentLength.symm

/-- One byte more than the body, read together with the head, fails the
assertion and takes the server down. -/
theorem extra_byte_aborts : ∃ (d₀ d : Feed) (i : Nat), d₀.Begins 7 ∧
    d₀.step (.sent (oneByteRequest.head ++ ofString "ab")) = .ok d ∧
    d.step (.event (.complete i .success d.unread (.refusing 0))) =
      .error (.fault .additionalSize) ∧ ¬ d.Safe := by
  obtain ⟨d₀, hd⟩ := exists_begins 7
  have hhead : WholeHead oneByteRequest.head := oneByteRequest.terminated
  have hempty : request ⟨d₀.session, oneByteRequest.head ++ ofString "ab"⟩ = [] := hd.request
  have hbytes : request ⟨d₀.session, oneByteRequest.head ++ ofString "ab"⟩ ++
      unread ⟨d₀.session, oneByteRequest.head ++ ofString "ab"⟩ =
        oneByteRequest.head ++ ofString "ab" := by
    rw [hempty, List.nil_append]
  obtain ⟨i, -, hrun⟩ := exists_head_step
    (d := ⟨d₀.session, oneByteRequest.head ++ ofString "ab"⟩) hd.reads.reading
    (.inl (by rw [hempty]; rfl)) hhead hbytes (.refusing 0)
  obtain ⟨q, hparse, hagree⟩ := HttpParser.parseRequest_append d₀.session.conn.parser
    oneByteRequest.terminated oneByteRequest.parses (ofString "ab")
  have htext : gathered ⟨d₀.session, oneByteRequest.head ++ ofString "ab"⟩ =
      { d₀.session.conn with request := oneByteRequest.head ++ ofString "ab" } := by
    rw [gathered, hempty]
    rfl
  have hstops := Handling.readHeadHandler_accepted (.refusing 0)
    (c := { d₀.session.conn with request := oneByteRequest.head ++ ofString "ab" }) hhead rfl
    hparse (hagree.readsBody.mpr oneByteRequest_readsBody)
  have hmore : ¬ (ofString "ab").length ≤ q.contentLength := by
    rw [hagree.contentLength, oneByteRequest_contentLength]
    decide
  rw [Handling.receiveBody] at hstops
  simp only [Handling.headParsed, hmore, not_false_eq_true, if_true] at hstops
  have hfault := hrun.1 _ (by rw [htext]; exact hstops)
  refine ⟨d₀, _, i, hd, by rw [step, hd.unread, List.nil_append], hfault, fun hsafe => ?_⟩
  exact hsafe.assertion _ _ _ (by simp [Env.refusing]) hfault

end ExtraByte

end Feed

end Ailawd
