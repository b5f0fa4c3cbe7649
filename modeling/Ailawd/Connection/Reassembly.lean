import Ailawd.Connection.Phases

/-!
# Reassembly of request bodies

A body reaches `analyse_handler` on one of two paths: all of it came with the head,
or the rest is read afterwards. For requests that go to `analyse_handler` the
dialogue never leaves step, so the phases say what each call sees; this module adds
that the calls do happen, wherever the stream is cut.
-/

namespace Ailawd

open ByteString HttpProto Transition

/-- A POST request to `/analyse` with a length that fits an `int`. -/
structure Request.Analysed (r : Request) : Prop where
  post : r.parser.isPost = true
  uri : r.parser.hasUri "/analyse" = true
  small : r.body.length < 2 ^ 31

def Env.Returns (env : Env) (body : ByteString) : Prop := ∃ r, env.analyse body = .ok r

theorem Request.Analysed.contentLength {r : Request} (h : r.Analysed) :
    r.parser.contentLength = r.body.length :=
  HttpParser.contentLength_of_announced r.announced h.small

theorem Request.Analysed.served {r : Request} (h : r.Analysed) : r.Served :=
  ⟨h.post, by simp [HttpParser.acceptsUri, h.uri], h.contentLength⟩

namespace Handling

variable {env : Env} {h : Handling} {sock : SockId}

theorem withSocket_isOk (hsock : h.conn.pSock = some sock) (e : Effect) :
    h.withSocket e = .ok (h.emit e) := by
  simp only [withSocket, hsock]

theorem doReadBody_isOk (hsock : h.conn.pSock = some sock) :
    ∃ h', h.doReadBody env = .ok h' := by
  rw [doReadBody]
  split
  · exact ⟨_, rfl⟩
  · exact ⟨_, withSocket_isOk (h := h.touchSockTime env) hsock _⟩

theorem doWrite_isOk (env : Env) (hsock : h.conn.pSock = some sock)
    (hpos : h.conn.wPos < h.conn.wSize) :
    ∃ h', h.doWrite env = .ok h' ∧ h'.conn.pSock = some sock := by
  rw [doWrite]
  split
  · exact ⟨_, rfl, hsock⟩
  · simp only [Nat.ne_of_gt (Nat.zero_lt_of_lt hpos), if_false]
    exact ⟨_, withSocket_isOk (h := h.touchSockTime env) hsock _, hsock⟩

theorem start_isOk (hsock : h.conn.pSock = some sock) : ∃ h', h.start env = .ok h' := by
  simp only [start, setStats, doReadHead, ne_eq, not_true_eq_false, if_false]
  rw [withSocket]
  simp only [touchSockTime, hsock]
  exact ⟨_, rfl⟩

theorem socketError_isOk (hsock : h.conn.pSock = some sock) : ∃ h', h.socketError = .ok h' := by
  rw [socketError, withSocket_isOk hsock]
  simp only
  rw [withSocket_isOk (h := h.emit .shutdown) hsock]
  exact ⟨_, rfl⟩

theorem writeReturn_isOk (hsock : h.conn.pSock = some sock) (hpos : h.conn.wPos < h.conn.wSize) :
    ∃ h', h.writeReturn env = .ok h' := by
  obtain ⟨g, hg, hgsock⟩ := doWrite_isOk env hsock hpos
  rw [writeReturn]
  rw [hg]
  exact start_isOk hgsock

theorem fillForHttp_writeReturn_isOk (env : Env) (hsock : h.conn.pSock = some sock)
    (content status : ByteString) :
    ∃ h', (h.fillForHttp env content status).writeReturn env = .ok h' :=
  writeReturn_isOk hsock (Reply.replyGenerate_length_pos _ _ _)

theorem analyseHandler_isOk (hsock : h.conn.pSock = some sock)
    (hroom : h.conn.rSize ≤ h.conn.pBuffer.size)
    (henv : env.Returns (h.conn.pBuffer.slice 0 h.conn.rSize)) :
    ∃ b g, h.analyseHandler env = .ok (b, g) ∧ g.conn.pSock = some sock ∧
      (b = true → g.conn.wPos < g.conn.wSize) := by
  obtain ⟨r, hr⟩ := henv
  rw [analyseHandler]
  simp only [Nat.not_lt.mpr hroom, if_false, hr]
  cases r with
  | none => exact ⟨_, _, rfl, hsock, by simp⟩
  | some text => exact ⟨_, _, rfl, hsock, fun _ => Reply.replyGenerate_length_pos _ _ _⟩

/-- The body handler returns once the whole body is there
and its analysis returns. -/
theorem readBodyHandler_isOk (env : Env) {n : Nat} (hsock : h.conn.pSock = some sock) (hn : n ≠ 0)
    (hall : ¬ h.conn.rSize + n < h.conn.parser.contentLength)
    (hroom : h.conn.rSize + n ≤ h.conn.pBuffer.size)
    (henv : h.conn.parser.hasUri "/analyse" = true →
      env.Returns (h.conn.pBuffer.slice 0 (h.conn.rSize + n))) :
    ∃ h', h.readBodyHandler env .success n = .ok h' := by
  rw [readBodyHandler]
  rw [if_pos ⟨rfl, hn⟩]
  cases huri : h.conn.parser.hasUri "/analyse" with
  | false =>
      simp only [hall, if_false, huri, Bool.false_eq_true]
      exact fillForHttp_writeReturn_isOk
        (h := { h with conn := { h.conn with rSize := h.conn.rSize + n } }) env hsock _ _
  | true =>
      obtain ⟨b, g, hg, hgsock, hpos⟩ := analyseHandler_isOk
        (h := { h with conn := { h.conn with rSize := h.conn.rSize + n } }) hsock hroom (henv huri)
      simp only [hall, if_false, huri, if_true, hg]
      cases b with
      | false => exact fillForHttp_writeReturn_isOk env hgsock _ _
      | true => exact writeReturn_isOk hgsock (hpos rfl)

/-- The whole body of an `/analyse` request is there once `n` more bytes are
counted. This is what the analysis is called on. -/
structure HoldsBody (h : Handling) (n : Nat) (body : ByteString) : Prop where
  sock : ∃ s, h.conn.pSock = some s
  nonempty : n ≠ 0
  complete : ¬ h.conn.rSize + n < h.conn.parser.contentLength
  uri : h.conn.parser.hasUri "/analyse" = true
  room : h.conn.rSize + n ≤ h.conn.pBuffer.size
  body : h.conn.pBuffer.slice 0 (h.conn.rSize + n) = body

/-- Where the analysis does not return, neither does the body handler: nothing
catches an exception. -/
theorem HoldsBody.faults {n : Nat} {body : ByteString} (hr : h.HoldsBody n body) {e : Fault}
    (henv : env.analyse body = .error e) :
    h.readBodyHandler env .success n = .error e := by
  rw [readBodyHandler, if_pos ⟨rfl, hr.nonempty⟩]
  simp only [hr.complete, if_false, hr.uri, if_true, analyseHandler, Nat.not_lt.mpr hr.room,
    hr.body, henv]

/-- The receiving branch returns for a request with at most `n` body bytes so
far, when the analysis does on all of them. -/
theorem receiveBody_isOk {extra : ByteString} (hsock : h.conn.pSock = some sock)
    (hrequest : h.conn.request = extra) (hle : extra.length ≤ h.conn.parser.contentLength)
    (hpos : 0 < h.conn.parser.contentLength) (hsmall : h.conn.parser.contentLength < 2 ^ 31)
    (henv : extra.length = h.conn.parser.contentLength →
      h.conn.parser.hasUri "/analyse" = true → env.Returns extra) :
    ∃ h', h.receiveBody env = .ok h' := by
  subst hrequest
  obtain ⟨g, hg, hroom⟩ := growBuffer_small (h := h) hsmall
  obtain ⟨pBuffer, hsize, hslice, heq⟩ := receiveBody_eq env hle hg (.inr (by omega))
  rw [heq]
  split
  · exact doReadBody_isOk (h := h.withInput pBuffer _) hsock
  next hlt =>
    have hfull : h.conn.request.length = h.conn.parser.contentLength := by omega
    apply readBodyHandler_isOk env (h := h.withInput pBuffer 0) hsock (by omega)
    · simpa [withInput] using Nat.le_of_eq hfull.symm
    · simp only [withInput, hsize]
      omega
    · simpa [withInput, hslice] using henv hfull

end Handling

section Enabled

variable {requests : List Request} {d : Dialogue} {r : Request} {env : Env}

private theorem Dialogue.complete_isOk {i : Nat} {op : Op} {data : ByteString} {h : Handling}
    (requests : List Request) (hop : d.session.ops[i]? = some op) (hlive : op.cancelled = false)
    (hdata : data <+: d.unread) (hd : op.kind.deliver d.session.conn .success data env = .ok h) :
    ∃ t, Dialogue.step requests d (.event (.complete i .success data env)) = .ok t ∧
      t.unread = d.unread.drop data.length ∧ t.sent = d.sent ∧
      t.session.trace = d.session.trace ++ h.effects := by
  have hreact : d.session.react (.complete i .success data env) =
      .ok (Session.performAll ⟨h.conn, d.session.ops.eraseIdx i, d.session.trace⟩ h.effects,
        h.effects) := by
    simp [Session.react, hop, hlive, hd]
  simp only [Dialogue.step, hdata, not_true_eq_false, or_false, ne_eq, if_false, Session.step,
    hreact]
  exact ⟨_, rfl, rfl, rfl, Session.performAll_trace _ _⟩

/-- A head read that brings the head and any part of the body
is handled, to its end. -/
private theorem deliver_head_isOk {c : FrontConn} {sock : SockId} {k : Nat} (hr : r.Analysed)
    (hsock : c.pSock = some sock) (hempty : c.request = []) (hk : k ≤ r.body.length)
    (henv : env.Returns r.body) :
    ∃ h text since, OpKind.readHead.deliver c .success (r.head ++ r.body.take k) env = .ok h ∧
      h.effects = .parse text :: since := by
  obtain ⟨q, hparse, hagree⟩ :=
    HttpParser.parseRequest_append c.parser r.terminated r.parses (r.body.take k)
  have hfind := find_append r.terminated (r.body.take k)
  have hhead : r.head.length - 4 + 4 = r.head.length := by
    have hle := find_add_length_le r.terminated
    have hcrlf : crlf2.length = 4 := rfl
    omega
  have htake : (r.body.take k).length = k := List.length_take_of_le hk
  have hlen : q.contentLength = r.body.length := hagree.contentLength.trans hr.contentLength
  have hpos := List.length_pos_iff.mpr r.nonempty
  have hsmall := hr.small
  set text := r.head ++ r.body.take k with htext
  have hrecv : ∃ h, (Handling.headParsed { c with request := text } text (r.body.take k)
      q).receiveBody env = .ok h := by
    refine Handling.receiveBody_isOk hsock rfl ?_ ?_ ?_ fun hfull _ => ?_ <;>
      simp only [Handling.headParsed, hlen, htake] at *
    · exact hk
    · exact hpos
    · exact hsmall
    · rwa [hfull, List.take_length]
  obtain ⟨h, hh⟩ := hrecv
  have hhandler : Handling.readHeadHandler env .success (r.head.length - 4 + 4)
      ⟨{ c with request := text }, []⟩ = .ok h := by
    rw [Handling.readHeadHandler]
    rw [if_pos ⟨rfl, by omega⟩]
    have hpost : q.isPost = true := hagree.isPost.trans hr.post
    have huri : q.acceptsUri = true := hagree.acceptsUri.trans hr.served.uri
    simp only [hparse, hpost, huri, hhead, Bool.not_true, Bool.false_eq_true, if_false, if_true]
    rw [show text.drop r.head.length = r.body.take k by rw [htext, List.drop_left]]
    exact hh
  obtain ⟨since, he⟩ := Handling.readHeadHandler_effects (by omega) hparse hhandler
  refine ⟨h, text, since, ?_, he⟩
  simp only [OpKind.deliver, if_true, hempty, List.nil_append, hfind, hhandler]
  rfl

/-- A body read that brings the rest of the body is handled, to its end. -/
private theorem deliver_body_isOk {offset len k : Nat} (hok : d.session.Ok) (hr : r.Analysed)
    (h : AwaitsBody requests d k r offset len) (henv : env.Returns r.body) :
    ∃ g, (OpKind.readBody offset len).deliver d.session.conn .success (r.body.drop offset) env =
      .ok g := by
  obtain ⟨op, hop, -, -⟩ := h.reads
  have hlen := h.length
  have hpos := h.pos
  have hroom := h.room (hr.contentLength ▸ hr.small)
  rw [hr.contentLength] at hlen hroom
  have hdata : (r.body.drop offset).length = len := by
    rw [List.length_drop]
    omega
  have hslice : (d.session.conn.pBuffer.write offset (r.body.drop offset)).slice 0
      (offset + len) = r.body := by
    rw [← hdata, CharVec.slice_write_append, h.buffer, List.take_append_drop]
  obtain ⟨g, hg⟩ := Handling.readBodyHandler_isOk env (n := len)
    (h := ⟨{ d.session.conn with
      pBuffer := d.session.conn.pBuffer.write offset (r.body.drop offset) }, []⟩)
    (hok.sock op hop) (by omega)
    (by simp only [h.rSize, h.parser.contentLength, hr.contentLength]; omega)
    (by simp only [h.rSize, CharVec.write_size]; omega)
    (fun _ => by simpa only [h.rSize, hslice] using henv)
  refine ⟨g, ?_⟩
  simp only [OpKind.deliver, hdata, Nat.lt_irrefl, gt_iff_lt, ne_eq, not_true_eq_false, and_false,
    or_self, if_false, Nat.not_lt.mpr (show offset + len ≤ d.session.conn.pBuffer.size by omega),
    hg]
  rfl

end Enabled

/-- A request has been sent, nothing of it has been received,
and `request_` is empty. -/
structure Dialogue.Offers (requests : List Request) (d : Dialogue) (r : Request) : Prop where
  request : requests[d.session.heads]? = some r
  sent : d.sent = d.session.heads + 1
  reads : d.session.Reads .readHead
  empty : d.request = []

/-- Between two states one call of `analyse_handler` has seen the body, all of
the request has been consumed, and the next head is awaited with an empty
`request_`. -/
structure Dialogue.HandedOver (d t : Dialogue) (body : ByteString) : Prop where
  analyses : t.session.analyses = d.session.analyses ++ [body]
  request : t.request = []
  reads : t.session.Reads .readHead
  unread : t.unread = []

/-- The head read completes with the head and `k` bytes of the body; unless
this is all of it, the body read then completes with the rest. -/
def Dialogue.Reassembles (requests : List Request) (d : Dialogue) (r : Request) (k : Nat)
    (env env' : Env) : Prop :=
  ∃ i t, Dialogue.step requests d
      (.event (.complete i .success (r.head ++ r.body.take k) env)) = .ok t ∧
    if k = r.body.length then d.HandedOver t r.body
    else t.session.analyses = d.session.analyses ∧ ∃ j u, Dialogue.step requests t
      (.event (.complete j .success (r.body.drop k) env')) = .ok u ∧ d.HandedOver u r.body

section Run

variable {requests : List Request} {d : Dialogue} {r : Request}

theorem not_rejected (hall : ∀ r ∈ requests, r.Analysed) (k : Nat) :
    ¬ Rejected requests k := by
  rintro ⟨r, hr, hns⟩
  exact hns (hall r (List.mem_of_getElem? hr)).served

theorem analysed_eq (hall : ∀ r ∈ requests, r.Analysed) (k : Nat) :
    analysed requests k = (requests.take k).map Request.body := by
  rw [analysed]
  rw [List.filter_eq_self.mpr fun r hr => (hall r (List.mem_of_mem_take hr)).uri]

theorem le_length_of_served {k : Nat} (h : ∀ j < k, Served requests j) :
    k ≤ requests.length := by
  by_contra hlt
  obtain ⟨r, hr, -⟩ := h requests.length (by omega)
  rw [List.getElem?_eq_none (Nat.le_refl _)] at hr
  cases hr

private theorem heads_le {d t : Dialogue} {since : List Effect}
    (h : t.session.trace = d.session.trace ++ since) : d.session.heads ≤ t.session.heads := by
  simp only [Session.heads]
  rw [h, List.countP_append]
  omega

private theorem AwaitsBody.unread_ne_nil {k offset len : Nat} (hr : r.Analysed)
    (h : AwaitsBody requests d k r offset len) : d.unread ≠ [] := by
  intro hnil
  have hlen := h.length
  have hpos := h.pos
  rw [hr.contentLength] at hlen
  have := congrArg List.length (h.unread.symm.trans hnil)
  rw [List.length_drop, List.length_nil] at this
  omega

/-- After a step that has consumed all of the request, the body has
been handed over, once. -/
private theorem handedOver_of_phase {t : Dialogue} (hall : ∀ r ∈ requests, r.Analysed)
    (hr : requests[d.session.heads]? = some r)
    (hanalyses : d.session.analyses = analysed requests d.session.heads)
    (hp : Phase requests t) (hsent : t.sent = d.session.heads + 1)
    (hheads : d.session.heads < t.session.heads) (hunread : t.unread = []) :
    d.HandedOver t r.body := by
  cases hp with
  | head h =>
      obtain ⟨hs, hnone⟩ | ⟨-, -, hs, -⟩ := h.pending
      · refine ⟨?_, (List.append_eq_nil_iff.mp hnone).1, h.reads, hunread⟩
        rw [h.analyses, ← hs, hsent, analysed_succ hr,
          if_pos (hall r (List.mem_of_getElem? hr)).uri, hanalyses]
      · omega
  | body h =>
      exact absurd hunread (h.unread_ne_nil (hall _ (List.mem_of_getElem? h.request)))
  | outOfStep h => exact absurd h.rejected (not_rejected hall _)
  | dead h => exact absurd h.rejected (not_rejected hall _)

/-- From an offered request on, every cut leads to one call with the whole
body. At most two reads are needed. -/
private theorem AwaitsHead.reassembles (hall : ∀ r ∈ requests, r.Analysed)
    (hok : d.session.Ok) (h : AwaitsHead requests d) (ho : d.Offers requests r) {k : Nat}
    (hk : k ≤ r.body.length) {env env' : Env} (henv : env.Returns r.body)
    (henv' : env'.Returns r.body) : d.Reassembles requests r k env env' := by
  have hr := hall r (List.mem_of_getElem? ho.request)
  have hunread : d.unread = r.bytes := by
    obtain ⟨hs, -⟩ | ⟨r', hreq, -, hbytes⟩ := h.pending
    · have := ho.sent
      omega
    · obtain rfl := Option.some.inj (hreq.symm.trans ho.request)
      rwa [ho.empty, List.nil_append] at hbytes
  obtain ⟨op, hop, hkind, hlive⟩ := ho.reads
  obtain ⟨i, hi⟩ := List.getElem?_of_mem hop
  obtain ⟨g, text, since, hg, he⟩ := deliver_head_isOk hr (hok.sock op hop) ho.empty hk henv
  have hdata : r.head ++ r.body.take k <+: d.unread := by
    rw [hunread, Request.bytes, List.prefix_append_right_inj]
    exact List.take_prefix k r.body
  obtain ⟨t, ht, htunread, htsent, httrace⟩ :=
    Dialogue.complete_isOk requests hi hlive hdata (hkind ▸ hg)
  have hnone : ∀ {s : Dialogue}, ∀ j, OutOfStep requests s j → ¬ s.HeadReady := fun j hj =>
    absurd hj.rejected (not_rejected hall _)
  obtain ⟨htok, htp⟩ := Phase.step hok (.head h) hnone ht
  have htheads : d.session.heads < t.session.heads := by
    simp only [Session.heads]
    rw [httrace, he, List.countP_append, List.countP_cons]
    simp only [Effect.isParse, if_true]
    omega
  have hrest : t.unread = r.body.drop k := by
    rw [htunread, hunread, Request.bytes, List.length_append, List.length_take_of_le hk,
      List.drop_length_add_append]
  refine ⟨i, t, ht, ?_⟩
  by_cases hfull : k = r.body.length
  · rw [if_pos hfull]
    apply handedOver_of_phase hall ho.request h.analyses htp (htsent.trans ho.sent) htheads
    rw [hrest, hfull, List.drop_length]
  · rw [if_neg hfull]
    have hmore : r.body.drop k ≠ [] := by
      rw [ne_eq, List.drop_eq_nil_iff]
      omega
    cases htp with
    | head h' =>
        obtain ⟨-, hnil⟩ | ⟨-, -, hs, -⟩ := h'.pending
        · exact absurd (hrest.symm.trans (List.append_eq_nil_iff.mp hnil).2) hmore
        · have := htsent.trans ho.sent
          omega
    | @body k' r' offset len h' =>
        obtain rfl : k' = d.session.heads :=
          Nat.succ.inj (h'.sent.symm.trans (htsent.trans ho.sent))
        obtain rfl := Option.some.inj (h'.request.symm.trans ho.request)
        refine ⟨h'.analyses.trans h.analyses.symm, ?_⟩
        have hoffset : r'.body.drop offset = r'.body.drop k := h'.unread.symm.trans hrest
        obtain ⟨op', hop', hkind', hlive'⟩ := h'.reads
        obtain ⟨j, hj⟩ := List.getElem?_of_mem hop'
        obtain ⟨g', hg'⟩ := deliver_body_isOk htok hr h' henv'
        rw [hoffset, ← hkind'] at hg'
        obtain ⟨u, hu, huunread, husent, hutrace⟩ :=
          Dialogue.complete_isOk requests hj hlive' (hrest ▸ List.prefix_rfl) hg'
        obtain ⟨-, hup⟩ := Phase.step htok (.body h') hnone hu
        refine ⟨j, u, hu, handedOver_of_phase hall ho.request h.analyses hup ?_ ?_ ?_⟩
        · exact husent.trans (htsent.trans ho.sent)
        · exact Nat.lt_of_lt_of_le htheads (heads_le hutrace)
        · rw [huunread, hrest, List.drop_length]
    | outOfStep h' => exact absurd h'.rejected (not_rejected hall _)
    | dead h' => exact absurd h'.rejected (not_rejected hall _)

end Run

/-- What holds in every state of a dialogue of `/analyse` requests: the calls
of `analyse_handler` have seen the bodies of the answered requests, in order
and once each (a recorded body is the first `r_size_` bytes of `p_buffer_`);
with nothing left to read `request_` is empty; and every cut of the next
request leads to a call with its body. -/
structure Dialogue.Reassembled (requests : List Request) (s : Dialogue) : Prop where
  answered : s.session.replies ≤ requests.length
  calls : s.session.analyses = (requests.take s.session.replies).map Request.body
  empty : s.session.Reads .readHead → s.sent = s.session.heads → s.request = []
  cuts : ∀ r, s.Offers requests r → ∀ k ≤ r.body.length, ∀ env env' : Env,
    env.Returns r.body → env'.Returns r.body → s.Reassembles requests r k env env'

/-- In every run of `/analyse` requests sent one after another, each body is
reassembled, wherever the stream is cut. -/
theorem bodies_reassembled {requests : List Request} {d₀ d : Dialogue} {sock : SockId}
    {moves : List (Move Dialogue Signal)} (hall : ∀ r ∈ requests, r.Analysed)
    (hd : d₀.Begins sock) (hr : Run (Dialogue.step requests) d₀ moves d) :
    ∀ s, Visits moves d s → s.Reassembled requests := by
  intro s hs
  obtain ⟨hok, hp⟩ := hr.invariant_of_visits (P := fun _ => True)
    (I := fun s => s.session.Ok ∧ Phase requests s) (fun _ _ => trivial)
    ⟨hd.started.ok, hd.phase⟩
    (fun s a t hi _ hst => hi.2.step hi.1
      (fun k hk => absurd hk.rejected (not_rejected hall k)) hst) s hs
  cases hp with
  | head h =>
      refine ⟨h.replies ▸ le_length_of_served h.served, ?_, fun _ hsent => ?_,
        fun r ho k hk env env' henv henv' => h.reassembles hall hok ho hk henv henv'⟩
      · rw [h.analyses, h.replies, analysed_eq hall]
      · obtain ⟨-, hnone⟩ | ⟨-, -, hlater, -⟩ := h.pending
        · exact (List.append_eq_nil_iff.mp hnone).1
        · omega
  | body h =>
      refine ⟨h.replies ▸ le_length_of_served h.served, ?_, fun _ _ => h.empty, fun r ho => ?_⟩
      · rw [h.analyses, h.replies, analysed_eq hall]
      · have := ho.sent
        have := h.sent
        have := h.heads
        omega
  | outOfStep h => exact absurd h.rejected (not_rejected hall _)
  | dead h => exact absurd h.rejected (not_rejected hall _)

private def analyseRequest : Request :=
  (Request.make? (ofString "POST /analyse HTTP/1.1\r\nContent-Length: 3\r\n\r\n")
    (ofString "abc")).get (by decide +kernel)

/-- The head arrives with one byte of the body, the other two
bytes follow by themselves. -/
theorem bodies_reassembled_two_reads : ∃ d₀ moves d, d₀.Begins 7 ∧
    Run (Dialogue.step [analyseRequest]) d₀ moves d ∧ moves.length = 3 ∧
    ∀ s, Visits moves d s → s.Reassembled [analyseRequest] := by
  obtain ⟨d₀, moves, d, hd, hr, hl, -⟩ := Dialogue.run_of_started_reaches 7 (.refusing 0)
    [analyseRequest]
    [.request,
      .event (.complete 0 .success (analyseRequest.head ++ ofString "a") (.refusing 0)),
      .event (.complete 0 .success (ofString "bc") (.refusing 0))]
    (fun _ => True) (by decide +kernel)
  refine ⟨d₀, moves, d, hd, hr, by simpa using congrArg List.length hl,
    bodies_reassembled (fun r hr => ?_) hd hr⟩
  obtain rfl := List.mem_singleton.mp hr
  exact ⟨by decide +kernel, by decide +kernel, by decide +kernel⟩

end Ailawd
