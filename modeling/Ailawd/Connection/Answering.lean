import Ailawd.Connection.BufferBounds
import Ailawd.Connection.FeedSteps

/-!
# One reply for each request

A request that is answered from its head needs no more, one whose body is received goes
through `read_body_handler`, and both leave through `write_return`. The exceptions are an
accepted request without a body, which takes the branch for a failed read; a body that
`atoi` truncates; an analysis that does not return; and a body that was not read and looks
like a head. `answered_once_iff` says that there are no others.
-/

namespace Ailawd

open ByteString HttpProto Transition

/-- A request with the body that its head announces, possibly empty. The fields
say that the head is one and is parsed. -/
structure Message where
  head : ByteString
  body : ByteString
  parser : HttpParser
  whole : WholeHead head
  parses : HttpParser.init.parseRequest head = (true, parser)
  announced : parser.announced = body.length

namespace Message

def bytes (r : Message) : ByteString := r.head ++ r.body

def make? (head body : ByteString) : Option Message :=
  match h : HttpParser.init.parseRequest head with
  | (true, parser) =>
    if hr : find crlf2 head = some (head.length - 4) ∧ parser.announced = body.length then
      some ⟨head, body, parser, hr.1, h, hr.2⟩
    else none
  | _ => none

/-- The reply of this request does not depend on how it is cut: its body is
read as announced and its analysis returns, or it is skipped and holds no
head. -/
def Answerable (work : ByteString → Except Fault (Option ByteString)) (r : Message) : Prop :=
  if r.parser.ReadsBody then
    r.body ≠ [] ∧ r.body.length < 2 ^ 31 ∧
      (r.parser.hasUri "/analyse" = true → ∃ text, work r.body = .ok text)
  else find crlf2 r.body = none

theorem contentLength {r : Message} (h : r.body.length < 2 ^ 31) :
    r.parser.contentLength = r.body.length := HttpParser.contentLength_of_announced r.announced h

end Message

def Effect.isReply : Effect → Bool
  | .fill _ | .asyncWrite _ _ => true
  | _ => false

/-- No operation fails, the connection is not marked, and bodies
are analysed like this. -/
def Traffic.Smooth (work : ByteString → Except Fault (Option ByteString)) : Traffic → Prop
  | .event (.complete _ ec _ env) => ec = .success ∧ env.analyse = work
  | .event (.send _ _) => True
  | _ => False

namespace Feed

/-- The bytes of a request are all that a working connection has not handled,
and it awaits a head. -/
structure Ready (r : Message) (d : Feed) : Prop where
  ok : d.session.Ok
  working : d.session.conn.stats = .working
  reads : d.session.Reads .readHead
  bytes : d.request ++ d.unread = r.bytes

def Replied (d₀ d : Feed) (calls : List Effect) : Prop :=
  ∃ since, d.session.trace = d₀.session.trace ++ since ∧ since.filter Effect.isReply = calls

/-- One reply has been encoded, and then one write of all of it has been
started. Nothing else has been said to the client. -/
def RepliedOnce (d₀ d : Feed) : Prop :=
  ∃ reply, d₀.Replied d [.fill reply, .asyncWrite 0 reply.length]

def Receives (work : ByteString → Except Fault (Option ByteString)) (d : Feed) (i : Nat)
    (data : ByteString) (env : Env) : Prop :=
  env.analyse = work ∧ (∀ w, d.pending i ≠ some (.write w)) ∧ data <+: d.unread

/-- No read stops the process, no second reply is begun, and once no read can
complete the request has been answered and the next head is awaited. -/
structure AnsweredOnce (work : ByteString → Except Fault (Option ByteString)) (d₀ d : Feed) :
    Prop where
  survives : ∀ i data env f, d.Receives work i data env →
    d.step (.event (.complete i .success data env)) ≠ .error (.fault f)
  atMostOnce : d₀.Replied d [] ∨ d₀.RepliedOnce d
  answered : (∀ i data env t, d.Receives work i data env →
      d.step (.event (.complete i .success data env)) ≠ .ok t) →
    d₀.RepliedOnce d ∧ d.session.conn.stats = .working ∧ d.session.Reads .readHead

section Replied

variable {d₀ d t : Feed} {calls : List Effect}

theorem Replied.refl (d : Feed) : d.Replied d [] := ⟨[], by simp, rfl⟩

theorem Replied.trans {effects : List Effect} (h : d₀.Replied d calls)
    (ht : t.session.trace = d.session.trace ++ effects) :
    d₀.Replied t (calls ++ effects.filter Effect.isReply) := by
  obtain ⟨since, htrace, rfl⟩ := h
  refine ⟨since ++ effects, ?_, List.filter_append ..⟩
  rw [ht, htrace, List.append_assoc]

theorem Replied.unique {calls' : List Effect} (h : d₀.Replied d calls) (h' : d₀.Replied d calls') :
    calls = calls' := by
  obtain ⟨since, htrace, rfl⟩ := h
  obtain ⟨since', htrace', rfl⟩ := h'
  rw [List.append_cancel_left (htrace.symm.trans htrace')]

private theorem filter_calls (h : ∀ e ∈ calls, e.isCall = true) :
    calls.filter Effect.isReply = [] := by
  apply List.filter_eq_nil_iff.mpr
  intro e he
  have := h e he
  cases e <;> simp_all [Effect.isCall, Effect.isReply]

end Replied

end Feed

section Completes

variable {x x' : Session} {i : Nat} {op : Op} {ec : ErrorCode} {data : ByteString}
variable {effects : List Effect}

/-- An answer on a working connection is one reply and one write of it, which
`do_write` starts at its first byte. -/
theorem Completes.replies_answer (hok : x.Ok) (hc : Completes x i op ec data x' effects)
    (hexit : op.kind.exit x.conn ec data = .answer) (hworking : x.conn.stats = .working) :
    ∃ reply, effects.filter Effect.isReply = [.fill reply, .asyncWrite 0 reply.length] := by
  have hafter := hc.ops _ (hok.sock op (List.mem_of_getElem? hc.found))
  rw [hexit] at hafter
  obtain ⟨calls, reply, hcalls, -, he, -⟩ := hafter
  refine ⟨reply, ?_⟩
  rw [he, if_pos hworking, List.filter_append, Feed.filter_calls hcalls]
  rfl

theorem Completes.replies_wait (hok : x.Ok) (hc : Completes x i op ec data x' effects)
    (hexit : op.kind.exit x.conn ec data = .wait) : effects.filter Effect.isReply = [] := by
  have hafter := hc.ops _ (hok.sock op (List.mem_of_getElem? hc.found))
  rw [hexit] at hafter
  obtain ⟨calls, offset, len, hcalls, -, he, -⟩ := hafter
  rw [he, List.filter_append, Feed.filter_calls hcalls]
  split <;> rfl

theorem Completes.replies_fail (hok : x.Ok) (hc : Completes x i op ec data x' effects)
    (hexit : op.kind.exit x.conn ec data = .fail) : effects.filter Effect.isReply = [] := by
  have hafter := hc.ops _ (hok.sock op (List.mem_of_getElem? hc.found))
  rw [hexit] at hafter
  obtain ⟨calls, hcalls, he, -⟩ := hafter
  rw [he, List.filter_append, Feed.filter_calls hcalls]
  rfl

end Completes

/-- What the completion of a head read makes of the head of this request,
whatever part of the body has come with it. -/
theorem Message.outcome (r : Message) {c c' : FrontConn} {env : Env} {extra : ByteString}
    {kind : ExitKind} {effects : List Effect}
    (h : HeadOutcome c env r.head extra kind c' effects) :
    (¬ r.parser.ReadsBody ∧ kind = .answer ∧ c'.request = extra) ∨
      ∃ q, r.parser.Agrees q ∧ r.parser.ReadsBody ∧ kind = acceptedExit r.parser extra.length ∧
        (Handling.headParsed c (r.head ++ extra) extra q).receiveBody env =
          .ok ⟨c', effects⟩ := by
  cases h with
  | illegible hfalse => cases r.parses.symm.trans hfalse
  | rejected hq _ hno hexit hkeep =>
      obtain ⟨-, rfl⟩ := Prod.mk.inj (r.parses.symm.trans hq)
      exact .inl ⟨hno, hexit, hkeep.request⟩
  | accepted hq hagree hreads hexit hrecv =>
      obtain ⟨-, rfl⟩ := Prod.mk.inj (r.parses.symm.trans hq)
      exact .inr ⟨_, hagree, hreads, hexit, hrecv⟩

namespace Feed

/-- The first `offset` bytes of the body are in `p_buffer_`, and the other
`len` are read from what is still to come. -/
structure Collects (r : Message) (d : Feed) (offset len : Nat) : Prop where
  ok : d.session.Ok
  working : d.session.conn.stats = .working
  reads : d.session.Reads (.readBody offset len)
  parser : r.parser.Agrees d.session.conn.parser
  rSize : d.session.conn.rSize = offset
  length : offset + len = r.body.length
  empty : d.request = []
  unread : d.unread = r.body.drop offset
  buffer : d.session.conn.pBuffer.slice 0 offset = r.body.take offset
  room : r.body.length ≤ d.session.conn.pBuffer.size

/-- The next head is awaited, and nothing that has been sent holds one. This is
where a request that has been answered ends. -/
structure Idle (d : Feed) : Prop where
  ok : d.session.Ok
  working : d.session.conn.stats = .working
  reads : d.session.Reads .readHead
  none : find crlf2 (d.request ++ d.unread) = none

inductive Stage (r : Message) (d₀ d : Feed) : Prop where
  | head (h : d.Ready r) (replied : d₀.Replied d [])
  | body {offset len} (accepted : r.parser.ReadsBody) (h : Collects r d offset len)
      (replied : d₀.Replied d [])
  | done (h : d.Idle) (replied : d₀.RepliedOnce d)

section Step

variable {r : Message} {d₀ d t : Feed} {work : ByteString → Except Fault (Option ByteString)}
variable {i : Nat} {op : Op} {data : ByteString} {env : Env} {effects : List Effect}

theorem Stage.ok (h : Stage r d₀ d) : d.session.Ok := by
  cases h with
  | head h => exact h.ok
  | body _ h => exact h.ok
  | done h => exact h.ok

/-- A write that makes progress keeps the stage: what it
touches, no stage speaks of. -/
private theorem Stage.transport (h : Stage r d₀ d) (hok : t.session.Ok)
    (hkeep : d.session.Undisturbed t.session) (hunread : t.unread = d.unread) : Stage r d₀ t := by
  have hreads : ∀ kind, (∀ w, kind ≠ .write w) →
      (t.session.Reads kind ↔ d.session.Reads kind) := fun _ hkind => hkeep.reads_iff hkind
  obtain ⟨hrequest, hparser, hbuffer, hrSize, hstats, htrace, -⟩ := hkeep
  have hreplied : ∀ {calls}, d₀.Replied d calls → d₀.Replied t calls := by
    rintro calls ⟨since, hd, hcalls⟩
    exact ⟨since, htrace.trans hd, hcalls⟩
  cases h with
  | head h replied =>
      refine .head ⟨hok, hstats.trans h.working, (hreads _ (by simp)).mpr h.reads, ?_⟩
        (hreplied replied)
      rw [request, hrequest, hunread]
      exact h.bytes
  | body accepted h replied =>
      exact .body accepted ⟨hok, hstats.trans h.working, (hreads _ (by simp)).mpr h.reads,
        hparser ▸ h.parser, hrSize.trans h.rSize, h.length, hrequest.trans h.empty,
        hunread.trans h.unread, hbuffer ▸ h.buffer, hbuffer ▸ h.room⟩ (hreplied replied)
  | done h replied =>
      obtain ⟨reply, hreply⟩ := replied
      refine .done ⟨hok, hstats.trans h.working, (hreads _ (by simp)).mpr h.reads, ?_⟩
        ⟨reply, hreplied hreply⟩
      rw [request, hrequest, hunread]
      exact h.none

theorem Idle.no_head (h : d.Idle) (hdata : data <+: d.unread) {head extra : ByteString}
    (hhead : WholeHead head) (htext : d.request ++ data = head ++ extra) : False := by
  obtain ⟨rest, hrest⟩ := hdata
  have hfind := h.none
  rw [← hrest, ← List.append_assoc, htext, List.append_assoc, find_append hhead] at hfind
  cases hfind

private theorem idle_of_answer (hok : d.session.Ok) (hokt : t.session.Ok)
    (hc : Completes d.session i op .success data t.session effects)
    (hexit : op.kind.exit d.session.conn .success data = .answer)
    (hworking : d.session.conn.stats = .working) (hreplied : d₀.Replied d [])
    (hnone : find crlf2 (t.request ++ t.unread) = none) : Stage r d₀ t := by
  obtain ⟨hreads, hstats, -⟩ := hc.answered hok hexit
  obtain ⟨reply, hreply⟩ := hc.replies_answer hok hexit hworking
  refine .done ⟨hokt, hstats, hreads, hnone⟩ ⟨reply, ?_⟩
  have htrans := hreplied.trans hc.trace
  rwa [hreply] at htrans

/-- After the head of an accepted request the rest of its body is read,
if some of it is missing. -/
private theorem Ready.waits (h : d.Ready r) (hreplied : d₀.Replied d []) (hokt : t.session.Ok)
    (hc : Completes d.session i op .success data t.session effects) (hkind : op.kind = .readHead)
    {extra : ByteString} (hbody : extra ++ t.unread = r.body) (hsmall : r.body.length < 2 ^ 31)
    (hlt : extra.length < r.parser.contentLength) {q : HttpParser} (hagree : r.parser.Agrees q)
    (hreads : r.parser.ReadsBody)
    (hexit : op.kind.exit d.session.conn .success data = acceptedExit r.parser extra.length)
    (hrecv : (Handling.headParsed { d.session.conn with request := d.request ++ data }
      (r.head ++ extra) extra q).receiveBody env = .ok ⟨t.session.conn, effects⟩) :
    Stage r d₀ t := by
  have hlen := r.contentLength hsmall
  have hread : op.isRead = true := by
    rw [Op.isRead]
    rw [hkind]
  have hwait : op.kind.exit d.session.conn .success data = .wait := by
    rw [hexit, acceptedExit, if_pos hlt]
  obtain ⟨-, hrequest, hparser, hstart⟩ := Handling.receiveBody_receives hrecv
  change t.session.conn.request = [] at hrequest
  change t.session.conn.parser = _ at hparser
  obtain ⟨-, heffects, -⟩ := hstart h.working (hagree.contentLength.symm ▸ hlt)
  obtain ⟨hreading, hstats, -⟩ := hc.waited h.ok hwait h.working heffects
  obtain ⟨hk, -⟩ | ⟨hk, -, hrSize, hslice, hroom⟩ :=
    hc.reads_accepted h.ok hread rfl hagree hexit hrecv hreading.reading (by simp)
  · cases hk
  rw [hk] at hreading
  have htrans := hreplied.trans hc.trace
  rw [hc.replies_wait h.ok hwait] at htrans
  refine .body hreads ⟨hokt, hstats, hreading, hparser ▸ hagree, hrSize, by omega, hrequest,
    ?_, ?_, ?_⟩ htrans
  · rw [← hbody, List.drop_left]
  · rw [hslice, ← hbody, List.take_left]
  · rw [← hlen]
    exact hroom (by omega)

private theorem Ready.complete (hans : r.Answerable work) (h : d.Ready r)
    (hreplied : d₀.Replied d []) (hokt : t.session.Ok)
    (hc : Completes d.session i op .success data t.session effects) (hkind : op.kind = .readHead)
    (hdata : data <+: d.unread) (hunread : t.unread = d.unread.drop data.length)
    {head extra : ByteString} (hhead : WholeHead head) (htext : d.request ++ data = head ++ extra)
    (houtcome : HeadOutcome { d.session.conn with request := d.request ++ data } env head extra
      (op.kind.exit d.session.conn .success data) t.session.conn effects) : Stage r d₀ t := by
  obtain ⟨rfl, hbody⟩ := r.whole.of_read h.bytes hdata hhead htext
  rw [← hunread] at hbody
  obtain ⟨hno, hexit, hrequest⟩ | ⟨q, hagree, hreads, hexit, hrecv⟩ := r.outcome houtcome
  · rw [Message.Answerable, if_neg hno] at hans
    apply idle_of_answer h.ok hokt hc hexit h.working hreplied
    rw [request, hrequest, hbody]
    exact hans
  · rw [Message.Answerable, if_pos hreads] at hans
    obtain ⟨hne, hsmall, -⟩ := hans
    by_cases hlt : extra.length < r.parser.contentLength
    · exact h.waits hreplied hokt hc hkind hbody hsmall hlt hagree hreads hexit hrecv
    · -- all of the body came with the head
      have hlen := r.contentLength hsmall
      have hlength := congrArg List.length hbody
      rw [List.length_append] at hlength
      have hpos := List.length_pos_iff.mpr hne
      have hanswer : op.kind.exit d.session.conn .success data = .answer := by
        rw [hexit, acceptedExit, if_neg hlt, if_neg (by omega)]
      have hrequest : t.request = [] := (Handling.receiveBody_receives hrecv).2.1
      have hnone : t.unread = [] := List.length_eq_zero_iff.mp (by omega)
      apply idle_of_answer h.ok hokt hc hanswer h.working hreplied
      rw [hrequest, hnone]
      rfl

private theorem Collects.complete {offset len : Nat} (h : Collects r d offset len)
    (hsmall : r.body.length < 2 ^ 31) (hreplied : d₀.Replied d []) (hokt : t.session.Ok)
    (hc : Completes d.session i op .success data t.session effects)
    (hkind : op.kind = .readBody offset len) (hunread : t.unread = d.unread.drop data.length)
    (hlen : data.length = len)
    (hr : Handling.readBodyHandler env .success data.length
      ⟨{ d.session.conn with pBuffer := d.session.conn.pBuffer.write offset data }, []⟩ =
        .ok ⟨t.session.conn, effects⟩) : Stage r d₀ t := by
  have hpos : 0 < len := by
    have hnonempty := h.ok.nonempty op (List.mem_of_getElem? hc.found)
    rwa [hkind] at hnonempty
  have hall := h.length
  have hcontent : d.session.conn.parser.contentLength = r.body.length :=
    h.parser.contentLength.trans (r.contentLength hsmall)
  have hexit : op.kind.exit d.session.conn .success data = .answer := by
    rw [hkind]
    change bodyExit _ _ _ = _
    rw [bodyExit, if_pos ⟨rfl, by omega⟩, if_neg (by rw [h.rSize, hcontent]; omega)]
  apply idle_of_answer h.ok hokt hc hexit h.working hreplied
  have hrequest : t.session.conn.request = d.session.conn.request :=
    (Handling.readBodyHandler_keepsInput hr).request
  rw [request, hrequest, show d.session.conn.request = [] from h.empty, hunread, h.unread,
    List.drop_drop, List.drop_eq_nil_of_le (by omega)]
  rfl

/-- The step lemma. A request goes from its head over its body to its reply,
and does not go back. -/
theorem Stage.step (hans : r.Answerable work) (h : Stage r d₀ d) {a : Traffic}
    (hsmooth : a.Smooth work) (hs : d.step a = .ok t) : Stage r d₀ t := by
  have hok := h.ok
  obtain ⟨hokt, hmoves⟩ := moves_of_step hok hs
  cases hmoves with
  | sent => exact hsmooth.elim
  | expire => exact hsmooth.elim
  | failed _ _ hec => exact absurd hsmooth.1 hec
  | aborted => cases hsmooth.1
  | quiet hkeep hunread _ => exact h.transport hokt hkeep hunread
  | head hc hkind hdata hunread hhead htext houtcome =>
      have hreads : d.session.Reading .readHead := ⟨_, List.mem_of_getElem? hc.found, hkind⟩
      cases h with
      | head h hreplied =>
          exact h.complete hans hreplied hokt hc hkind hdata hunread hhead htext houtcome
      | body _ h => cases hok.reads_unique hreads h.reads.reading (by simp) (by simp)
      | done h => exact (h.no_head hdata hhead htext).elim
  | body hc hkind hdata hunread hlen hr =>
      have hreads : d.session.Reading (.readBody _ _) :=
        ⟨_, List.mem_of_getElem? hc.found, hkind⟩
      cases h with
      | head h => cases hok.reads_unique hreads h.reads.reading (by simp) (by simp)
      | done h => cases hok.reads_unique hreads h.reads.reading (by simp) (by simp)
      | body accepted h hreplied =>
          obtain ⟨rfl, rfl⟩ := OpKind.readBody.inj
            (hok.reads_unique hreads h.reads.reading (by simp) (by simp))
          rw [Message.Answerable, if_pos accepted] at hans
          exact h.complete hans.2.1 hreplied hokt hc hkind hunread hlen hr

end Step

end Feed

section Returns

variable {r : Message} {work : ByteString → Except Fault (Option ByteString)} {env : Env}

/-- The head handler returns whatever part of the body it has read, because the
request is answerable. -/
theorem Message.head_returns (hans : r.Answerable work) (henv : env.analyse = work)
    {c : FrontConn} {sock : SockId} {extra : ByteString} (hsock : c.pSock = some sock)
    (htext : c.request = r.head ++ extra) (hextra : extra <+: r.body) :
    ∃ h, Handling.readHeadHandler env .success r.head.length ⟨c, []⟩ = .ok h := by
  have hwhole := r.whole.length
  obtain ⟨q, hparse, hagree⟩ := HttpParser.parseRequest_append c.parser r.whole r.parses extra
  rw [← htext] at hparse
  by_cases hreads : r.parser.ReadsBody
  · rw [Message.Answerable, if_pos hreads] at hans
    obtain ⟨hne, hsmall, hwork⟩ := hans
    have hlen : q.contentLength = r.body.length :=
      hagree.contentLength.trans (r.contentLength hsmall)
    rw [Handling.readHeadHandler_accepted env r.whole htext hparse (hagree.readsBody.mpr hreads)]
    apply Handling.receiveBody_isOk hsock (rfl : _ = extra)
    · exact Nat.le_trans hextra.length_le (Nat.le_of_eq hlen.symm)
    · rw [show (Handling.headParsed c (r.head ++ extra) extra q).conn.parser = q from rfl, hlen]
      exact List.length_pos_iff.mpr hne
    · rw [show (Handling.headParsed c (r.head ++ extra) extra q).conn.parser = q from rfl, hlen]
      exact hsmall
    · intro hfull huri
      have hall : extra = r.body := hextra.eq_of_length (hfull.trans hlen)
      obtain ⟨text, ht⟩ := hwork ((hagree.hasUri _).symm.trans huri)
      exact ⟨text, by rw [henv, hall, ht]⟩
  · exact Handling.readHeadHandler_isOk env hsock (by omega) hparse
      fun _ hq => hreads (hagree.readsBody.mp hq)

end Returns

namespace Feed

section Progress

variable {r : Message} {d₀ d : Feed} {work : ByteString → Except Fault (Option ByteString)}
variable {i offset len : Nat} {data : ByteString} {env : Env}

theorem Collects.unread_length (h : Collects r d offset len) : d.unread.length = len := by
  have hall := h.length
  rw [h.unread, List.length_drop]
  omega

/-- The body handler returns when the rest of the body has been read: the
analysis of the whole body does. -/
theorem Collects.returns (hans : r.Answerable work) (hreads : r.parser.ReadsBody)
    (h : Collects r d offset len) (henv : env.analyse = work) :
    ∃ g, (OpKind.readBody offset len).deliver d.session.conn .success d.unread env = .ok g := by
  obtain ⟨op, hop, hkind, -⟩ := h.reads
  rw [Message.Answerable, if_pos hreads] at hans
  obtain ⟨-, hsmall, hwork⟩ := hans
  have hcontent : d.session.conn.parser.contentLength = r.body.length :=
    h.parser.contentLength.trans (r.contentLength hsmall)
  have hall := h.length
  have hroom := h.room
  have hunread := h.unread_length
  have hpos : 0 < len := by
    have hnonempty := h.ok.nonempty op hop
    rwa [hkind] at hnonempty
  have hslice : (d.session.conn.pBuffer.write offset d.unread).slice 0 (offset + len) = r.body := by
    rw [← hunread, CharVec.slice_write_append, h.buffer, h.unread, List.take_append_drop]
  obtain ⟨g, hg⟩ := Handling.readBodyHandler_isOk env (n := len)
    (h := ⟨{ d.session.conn with pBuffer := d.session.conn.pBuffer.write offset d.unread }, []⟩)
    (h.ok.sock op hop) (by omega)
    (by simp only [h.rSize, hcontent]; omega)
    (by simp only [h.rSize, CharVec.write_size]; omega)
    (by
      intro huri
      obtain ⟨text, ht⟩ := hwork ((h.parser.hasUri _).symm.trans huri)
      exact ⟨text, by rw [henv, h.rSize, hslice, ht]⟩)
  have hfits : ¬ d.session.conn.pBuffer.size < offset + len := by omega
  refine ⟨g, ?_⟩
  simp only [OpKind.deliver, hunread, Nat.lt_irrefl, gt_iff_lt, ne_eq, not_true_eq_false,
    and_false, or_self, if_false, hfits, hg]
  rfl

/-- A read does not stop the process. Every handler
that it could run returns. -/
theorem Stage.survives (hans : r.Answerable work) (h : Stage r d₀ d)
    (hrecv : d.Receives work i data env) (f : Fault) :
    d.step (.event (.complete i .success data env)) ≠ .error (.fault f) := by
  intro hs
  obtain ⟨hdata, op, hop, hd⟩ := step_complete_fault hs
  have hmem := List.mem_of_getElem? hop
  obtain ⟨henv, hwrite, -⟩ := hrecv
  have hreads : d.session.Reading op.kind := ⟨op, hmem, rfl⟩
  cases hkind : op.kind with
  | readHead =>
      rw [hkind] at hd hreads
      obtain ⟨head, extra, htext, hhead, hfault⟩ := deliver_readHead_fault hd
      cases h with
      | head h _ =>
          obtain ⟨rfl, hbody⟩ := r.whole.of_read h.bytes hdata hhead htext
          obtain ⟨g, hg⟩ := r.head_returns hans henv
            (c := { d.session.conn with request := d.session.conn.request ++ data })
            (h.ok.sock op hmem) htext ⟨_, hbody⟩
          cases hg.symm.trans hfault
      | body _ h => cases h.ok.reads_unique hreads h.reads.reading (by simp) (by simp)
      | done h => exact h.no_head hdata hhead htext
  | readBody offset len =>
      rw [hkind] at hd hreads
      cases h with
      | head h => cases h.ok.reads_unique hreads h.reads.reading (by simp) (by simp)
      | done h => cases h.ok.reads_unique hreads h.reads.reading (by simp) (by simp)
      | body accepted h _ =>
          obtain ⟨rfl, rfl⟩ := OpKind.readBody.inj
            (h.ok.reads_unique hreads h.reads.reading (by simp) (by simp))
          obtain ⟨hlen, -⟩ := deliver_readBody_fault hd
          obtain rfl := hdata.eq_of_length (hlen.trans h.unread_length.symm)
          obtain ⟨g, hg⟩ := h.returns hans accepted henv
          cases hg.symm.trans hd
  | write w => exact hwrite w (by rw [pending, hop, Option.map_some, hkind])

theorem Ready.exists_sock (h : d.Ready r) : ∃ sock, d.session.conn.pSock = some sock := by
  obtain ⟨op, hop, -, -⟩ := h.reads
  exact ⟨op.sock, h.ok.sock op hop⟩

private theorem Ready.exists_data (h : d.Ready r) : ∃ data extra, data <+: d.unread ∧
    (find crlf2 d.request = none ∨ data = []) ∧ d.request ++ data = r.head ++ extra ∧
      extra <+: r.body := by
  cases hfind : find crlf2 d.request with
  | none => exact ⟨d.unread, r.body, List.prefix_rfl, .inl rfl, h.bytes, List.prefix_rfl⟩
  | some j =>
      obtain ⟨head, extra, htext, hhead, -⟩ := exists_wholeHead hfind
      rw [← List.append_nil d.request] at htext
      obtain ⟨rfl, hbody⟩ := r.whole.of_read h.bytes List.nil_prefix hhead htext
      exact ⟨[], extra, List.nil_prefix, .inr rfl, htext, _, hbody⟩

/-- The head read of a request completes if its handler returns, so a
connection is not stuck before it has its head. -/
theorem Ready.exists_step (h : d.Ready r) (env : Env) : ∃ i data extra,
    d.pending i = some .readHead ∧ data <+: d.unread ∧ d.request ++ data = r.head ++ extra ∧
      extra <+: r.body ∧ ∀ g, Handling.readHeadHandler env .success r.head.length
        ⟨{ d.session.conn with request := d.request ++ data }, []⟩ = .ok g →
      ∃ t, d.step (.event (.complete i .success data env)) = .ok t := by
  obtain ⟨op, hop, hkind, -⟩ := h.reads
  obtain ⟨i, hi⟩ := List.getElem?_of_mem hop
  obtain ⟨data, extra, hdata, hnext, htext, hextra⟩ := h.exists_data
  refine ⟨i, data, extra, ?_, hdata, htext, hextra, ?_⟩
  · rw [pending, hi, Option.map_some, hkind]
  · intro g hg
    have hstep := step_complete env hi hdata
    rw [hkind, deliver_head r.whole htext hnext] at hstep
    change d.step _ = Except.map _ ((Handling.readHeadHandler _ _ _ ⟨{ d.session.conn with
      request := d.request ++ data }, []⟩).mapError _) at hstep
    rw [hg] at hstep
    exact ⟨_, hstep⟩

/-- Where no read can complete, the request has been answered. In the other
stages some read could. -/
theorem Stage.answered (hans : r.Answerable work) (h : Stage r d₀ d)
    (hstuck : ∀ i data env t, d.Receives work i data env →
      d.step (.event (.complete i .success data env)) ≠ .ok t) :
    d₀.RepliedOnce d ∧ d.session.conn.stats = .working ∧ d.session.Reads .readHead := by
  cases h with
  | done h hreplied => exact ⟨hreplied, h.working, h.reads⟩
  | head h _ =>
      exfalso
      obtain ⟨sock, hsock⟩ := h.exists_sock
      obtain ⟨i, data, extra, hpending, hdata, htext, hextra, hrun⟩ := h.exists_step ⟨0, [], work⟩
      obtain ⟨g, hg⟩ := r.head_returns hans (rfl : (Env.mk 0 [] work).analyse = work)
        (c := { d.session.conn with request := d.request ++ data }) hsock htext hextra
      obtain ⟨t, hs⟩ := hrun g hg
      refine hstuck i data _ t ⟨rfl, ?_, hdata⟩ hs
      intro w hw
      cases hpending.symm.trans hw
  | body accepted h _ =>
      exfalso
      obtain ⟨op, hop, hkind, -⟩ := h.reads
      obtain ⟨i, hi⟩ := List.getElem?_of_mem hop
      obtain ⟨g, hg⟩ := h.returns hans accepted
        (rfl : (Env.mk 0 [] work).analyse = work)
      have hstep := step_complete ⟨0, [], work⟩ hi List.prefix_rfl
      rw [hkind, hg] at hstep
      refine hstuck i d.unread _ _ ⟨rfl, ?_, List.prefix_rfl⟩ hstep
      intro w hw
      rw [pending, hi, Option.map_some, hkind] at hw
      cases hw

/-- Every stage answers once: none of them has begun a second reply, and the
last one has begun the first. -/
theorem Stage.answeredOnce (hans : r.Answerable work) (h : Stage r d₀ d) :
    AnsweredOnce work d₀ d := by
  refine ⟨fun i data env f hrecv => h.survives hans hrecv f, ?_, h.answered hans⟩
  cases h with
  | head _ hreplied => exact .inl hreplied
  | body _ _ hreplied => exact .inl hreplied
  | done _ hreplied => exact .inr hreplied

/-- The run lemma. Induction on the run, through the stages. -/
theorem Ready.answeredOnce (hans : r.Answerable work) (h : d₀.Ready r)
    {moves : List (Move Feed Traffic)} (hr : Run step d₀ moves d)
    (hsmooth : ∀ m ∈ moves, m.label.Smooth work) : AnsweredOnce work d₀ d := by
  have hstage : Stage r d₀ d := hr.invariant_of hsmooth (.head h (.refl d₀)) ?_
  · exact hstage.answeredOnce hans
  · intro s a t hs ha hstep
    exact hs.step hans ha hstep

end Progress

section Exceptions

variable {r : Message} {d₀ d t : Feed} {work : ByteString → Except Fault (Option ByteString)}
variable {i : Nat} {data : ByteString} {env : Env}

/-- Where no head is read and nothing is left to read, nothing is answered any
more. So such a state refutes the property. -/
private theorem not_answeredOnce (hok : d.session.Ok) (hhead : ¬ d.session.Reading .readHead)
    (hunread : ∀ offset len, d.session.Reading (.readBody offset len) → d.unread = []) :
    ¬ AnsweredOnce work d₀ d := by
  intro h
  refine hhead (h.answered ?_).2.2.reading
  intro i data env t hrecv hs
  obtain ⟨-, hwrite, -⟩ := hrecv
  obtain ⟨-, hmoves⟩ := moves_of_step hok hs
  cases hmoves with
  | quiet _ _ hw =>
      obtain ⟨w, hw⟩ := hw _ _ _ _ rfl
      exact hwrite w hw
  | failed _ _ hec => exact hec rfl
  | head hc hkind => exact hhead ⟨_, List.mem_of_getElem? hc.found, hkind⟩
  | body hc hkind hdata _ hlen =>
      have hnonempty := hok.nonempty _ (List.mem_of_getElem? hc.found)
      rw [hunread _ _ ⟨_, List.mem_of_getElem? hc.found, hkind⟩] at hdata
      rw [List.prefix_nil.mp hdata] at hlen
      rw [hkind] at hnonempty
      exact Nat.ne_of_gt hnonempty hlen.symm

private theorem not_answeredOnce_of_idle (hok : d.session.Ok)
    (hidle : ∀ op ∈ d.session.ops, op.isRead = false) : ¬ AnsweredOnce work d₀ d :=
  not_answeredOnce hok (Session.not_reading hidle (by simp))
    fun _ _ h => absurd h (Session.not_reading hidle (by simp))

private theorem not_reads_head {x x' : Session} {op : Op} {effects : List Effect} (hok : x.Ok)
    (hc : Completes x i op .success data x' effects) (hread : op.isRead = true)
    (hexit : op.kind.exit x.conn .success data ≠ .answer) : ¬ x'.Reading .readHead := by
  intro h
  obtain ⟨hanswer, -⟩ | ⟨-, -, _, _, _, hkind, -⟩ := hc.reads_after hok hread h (by simp)
  · exact hexit hanswer
  · cases hkind

/-- An accepted request without a body is dropped with its connection: zero
bytes are taken for a failed read. -/
theorem Ready.fails (h : d.Ready r) (hreads : r.parser.ReadsBody) (hempty : r.body = [])
    (env : Env) : ∃ i data t, data <+: d.unread ∧
      d.step (.event (.complete i .success data env)) = .ok t ∧ t.session.Ok ∧
      d.Replied t [] ∧ t.session.conn.stats = .error ∧
        ∀ op ∈ t.session.ops, op.isRead = false ∧ op.cancelled = true := by
  obtain ⟨sock, hsock⟩ := h.exists_sock
  obtain ⟨i, data, extra, hpending, hdata, htext, hextra, hrun⟩ := h.exists_step env
  obtain rfl : extra = [] := by
    rw [hempty] at hextra
    exact List.prefix_nil.mp hextra
  have hzero : r.parser.contentLength = 0 := by
    rw [r.contentLength (by rw [hempty]; decide), hempty]
    rfl
  obtain ⟨q, hparse, hagree⟩ :=
    HttpParser.parseRequest_append d.session.conn.parser r.whole r.parses []
  rw [← htext] at hparse
  set c : FrontConn := { d.session.conn with request := d.request ++ data } with hc
  set g := Handling.headParsed c (r.head ++ []) [] q with hg
  have hlen : g.conn.parser.contentLength = 0 := hagree.contentLength.trans hzero
  obtain ⟨grown, hgrown, -⟩ := Handling.growBuffer_small (h := g)
    (show g.conn.parser.contentLength < 2 ^ 31 by rw [hlen]; decide)
  obtain ⟨pBuffer, -, -, hrecv⟩ := Handling.receiveBody_eq env (Nat.zero_le _) hgrown (.inl rfl)
  obtain ⟨h', hfails⟩ := Handling.socketError_isOk (h := g.withInput pBuffer 0) hsock
  have hhandler := Handling.readHeadHandler_accepted env (c := c) r.whole htext hparse
    (hagree.readsBody.mpr hreads)
  rw [hrecv, hlen, if_neg (Nat.not_lt_zero _), Handling.readBodyHandler,
    if_neg fun hn => hn.2 rfl, if_pos (by decide), hfails] at hhandler
  obtain ⟨t, hs⟩ := hrun h' hhandler
  obtain ⟨hokt, op, effects, head, extra, hcomp, hkind, -, hhead, htext', houtcome⟩ :=
    head_of_step h.ok hpending hs
  obtain ⟨rfl, rfl⟩ := r.whole.unique hhead (htext.symm.trans htext')
  have hexit : op.kind.exit d.session.conn .success data = .fail := by
    obtain ⟨hno, -⟩ | ⟨q', -, -, hexit, -⟩ := r.outcome houtcome
    · exact absurd hreads hno
    · rw [hexit, acceptedExit, hzero]
      rfl
  refine ⟨i, data, t, hdata, hs, hokt, ?_, ?_, ?_⟩
  · have htrans := (Replied.refl d).trans hcomp.trace
    rwa [hcomp.replies_fail h.ok hexit] at htrans
  · have hfailed := hcomp.exit
    rw [hexit] at hfailed
    exact hfailed.stats
  · have hread : op.isRead = true := by rw [Op.isRead, hkind]
    exact fun o ho => ⟨hcomp.idle h.ok hexit hread o ho, hcomp.failed h.ok hexit o ho⟩

private theorem received_returns {c : FrontConn} {h : Handling} {sock : SockId}
    (hsock : c.pSock = some sock) (hsize : c.pBuffer.size = 16 * 1024)
    (htext : c.request = r.bytes) (hreads : r.parser.ReadsBody) (hne : r.body ≠ [])
    (hr : Handling.readHeadHandler env .success r.head.length ⟨c, []⟩ = .ok h) :
    r.body.length < 2 ^ 31 ∧
      (r.parser.hasUri "/analyse" = true → ∃ text, env.analyse r.body = .ok text) := by
  obtain ⟨q, hparse, hagree⟩ := HttpParser.parseRequest_append c.parser r.whole r.parses r.body
  rw [← Message.bytes, ← htext] at hparse
  have hreads' := hagree.readsBody.mpr hreads
  rw [Handling.readHeadHandler_accepted env r.whole htext hparse hreads'] at hr
  set g := Handling.headParsed c (r.head ++ r.body) r.body q with hg
  have hgsize : g.conn.pBuffer.size = 16 * 1024 := hsize
  have hvector : g.conn.pBuffer.size ≤ vectorMaxSize := by
    rw [hgsize]
    decide
  obtain ⟨hadd, grown, hgrown, hfit⟩ := Handling.receiveBody_fits hr
  change r.body.length ≤ g.conn.parser.contentLength at hadd
  have hroom : r.body.length + 1 ≤ grown.conn.pBuffer.size := hfit.resolve_left hne
  have hsmall : r.body.length < 2 ^ 31 := by
    by_cases hpos : 0 ≤ g.conn.parser.lengthField
    · have hlen := HttpParser.contentLength_of_nonneg hpos
      have hupper := g.conn.parser.lengthField_upper
      omega
    · by_cases hlow : g.conn.parser.lengthField < -256
      · cases hgrown.symm.trans (Handling.growBuffer_throws hvector hlow)
      · obtain ⟨grown', hgrown', hwrapped⟩ :=
          Handling.growBuffer_wraps hvector ⟨by omega, by omega⟩
        obtain rfl := Except.ok.inj (hgrown.symm.trans hgrown')
        rw [hwrapped, wrappedSize, hgsize] at hroom
        split at hroom <;> omega
  refine ⟨hsmall, ?_⟩
  intro huri
  have hlen : g.conn.parser.contentLength = r.body.length :=
    hagree.contentLength.trans (r.contentLength hsmall)
  obtain ⟨pBuffer, hbuffer, hslice, hrecv⟩ := Handling.receiveBody_eq env hadd hgrown (.inr hroom)
  change pBuffer.slice 0 r.body.length = r.body at hslice
  change g.receiveBody env = if r.body.length < _ then _ else
    (g.withInput pBuffer 0).readBodyHandler env .success r.body.length at hrecv
  rw [hlen, if_neg (Nat.lt_irrefl _)] at hrecv
  cases hwork : env.analyse r.body with
  | ok text => exact ⟨text, rfl⟩
  | error e =>
      have hholds : (g.withInput pBuffer 0).HoldsBody r.body.length r.body := by
        refine ⟨⟨sock, hsock⟩, ?_, ?_, (hagree.hasUri _).trans huri, ?_, ?_⟩
        · exact Nat.ne_of_gt (List.length_pos_iff.mpr hne)
        · change ¬ 0 + r.body.length < g.conn.parser.contentLength
          omega
        · change 0 + r.body.length ≤ pBuffer.size
          omega
        · change pBuffer.slice 0 (0 + r.body.length) = r.body
          rw [Nat.zero_add, hslice]
      cases (hrecv.symm.trans hr).symm.trans (hholds.faults hwork)

private theorem returns_of_survives {res : Except Fault Handling}
    (hrun : ∀ f, res = .error f →
      d.step (.event (.complete i .success data env)) = .error (.fault f))
    (hsurvives : ∀ f, d.step (.event (.complete i .success data env)) ≠ .error (.fault f)) :
    ∃ h, res = .ok h := by
  cases hres : res with
  | ok h => exact ⟨h, rfl⟩
  | error f => exact absurd (hrun f hres) (hsurvives f)

theorem Begins.ready {b : Feed} {sock : SockId} (hb : b.Begins sock) (r : Message) :
    Ready r ⟨b.session, r.bytes⟩ := by
  refine ⟨hb.started.ok, hb.started.stats, hb.reads, ?_⟩
  have hempty : Feed.request ⟨b.session, r.bytes⟩ = [] := hb.request
  rw [hempty, List.nil_append]

private theorem receives_all (hpending : d.pending i = some .readHead) :
    d.Receives work i d.unread ⟨0, [], work⟩ := by
  refine ⟨rfl, ?_, List.prefix_rfl⟩
  intro w hw
  cases hpending.symm.trans hw

/-- A second head that is there already is answered as well, or nothing follows
it. So a body must not hold one. -/
private theorem AnsweredOnce.answers_again (h : AnsweredOnce work d₀ d) (hok : d.session.Ok)
    (hworking : d.session.conn.stats = .working) (hreads : d.session.Reads .readHead)
    {reply : ByteString} (hreplied : d₀.Replied d [.fill reply, .asyncWrite 0 reply.length])
    (hunread : d.unread = []) {head extra : ByteString} (hhead : WholeHead head)
    (htext : d.request = head ++ extra) :
    ∃ i t, d.step (.event (.complete i .success d.unread ⟨0, [], work⟩)) = .ok t ∧
      ¬ AnsweredOnce work d₀ t := by
  have hbytes : d.request ++ d.unread = head ++ extra := by
    rw [hunread, List.append_nil, htext]
  obtain ⟨i, hpending, hrun⟩ :=
    exists_head_step hreads.reading (.inr hunread) hhead hbytes ⟨0, [], work⟩
  obtain ⟨g, hg⟩ := returns_of_survives hrun.1
    fun f => h.survives _ _ _ f (receives_all hpending)
  obtain ⟨t, hs, -, hunread'⟩ := hrun.2 g hg
  refine ⟨i, t, hs, ?_⟩
  obtain ⟨hokt, op, effects, -, -, hc, hkind, -⟩ := head_of_step hok hpending hs
  have hread : op.isRead = true := by rw [Op.isRead, hkind]
  by_cases hexit : op.kind.exit d.session.conn .success d.unread = .answer
  · intro honce
    obtain ⟨reply', hreply'⟩ := hc.replies_answer hok hexit hworking
    have hreplied' := hreplied.trans hc.trace
    rw [hreply'] at hreplied'
    rcases honce.atMostOnce with hnone | ⟨once, hone⟩
    · cases hreplied'.unique hnone
    · cases hreplied'.unique hone
  · exact not_answeredOnce hokt (not_reads_head hok hc hread hexit) fun _ _ _ => hunread'

/-- If the request is answered once however it is cut, it is answerable. One
cutting is enough: everything at once. -/
theorem answerable_of_answeredOnce (hall : ∀ d₀ : Feed, d₀.Ready r → ∀ moves d,
    Run step d₀ moves d → (∀ m ∈ moves, m.label.Smooth work) → AnsweredOnce work d₀ d) :
    r.Answerable work := by
  obtain ⟨b, hb⟩ := exists_begins 7
  set d₀ : Feed := ⟨b.session, r.bytes⟩ with hd₀
  have hready : d₀.Ready r := hb.ready r
  have hbytes : d₀.request ++ d₀.unread = r.head ++ r.body := hready.bytes
  obtain ⟨i, hpending, hrun⟩ := exists_head_step hready.reads.reading
    (.inl (congrArg (find crlf2) hb.request)) r.whole hbytes ⟨0, [], work⟩
  have hsmooth : ∀ {j data}, Traffic.Smooth work (.event (.complete j .success data
      ⟨0, [], work⟩)) := ⟨rfl, rfl⟩
  obtain ⟨h, hh⟩ : ∃ h, Handling.readHeadHandler ⟨0, [], work⟩ .success r.head.length
      ⟨d₀.gathered, []⟩ = .ok h :=
    returns_of_survives hrun.1
      fun f => (hall d₀ hready [] d₀ .nil (by simp)).survives _ _ _ f (receives_all hpending)
  obtain ⟨t, hs, -, hunread⟩ := hrun.2 h hh
  have hrun₁ := Run.snoc .nil hs
  have honce := hall d₀ hready _ t hrun₁ (List.forall_mem_singleton.mpr hsmooth)
  obtain ⟨hokt, op, effects, head, extra, hc, -, -, hhead, htext, houtcome⟩ :=
    head_of_step hready.ok hpending hs
  obtain ⟨rfl, rfl⟩ := r.whole.unique hhead (hbytes.symm.trans htext)
  rw [Message.Answerable]
  by_cases hreads : r.parser.ReadsBody
  · rw [if_pos hreads]
    have hne : r.body ≠ [] := by
      intro hempty
      obtain ⟨j, data, u, hdata, hu, hoku, -, -, hnone⟩ :=
        hready.fails hreads hempty ⟨0, [], work⟩
      have honce' := hall d₀ hready _ u (.snoc .nil hu) (List.forall_mem_singleton.mpr hsmooth)
      exact not_answeredOnce_of_idle hoku (fun o ho => (hnone o ho).1) honce'
    obtain ⟨sock, hsock⟩ := hready.exists_sock
    exact ⟨hne, received_returns (c := d₀.gathered) hsock hb.size hbytes hreads hne hh⟩
  · rw [if_neg hreads]
    obtain ⟨-, hexit, hrequest⟩ | ⟨-, -, hreads', -⟩ := r.outcome houtcome
    · obtain ⟨hreading, hworking, -⟩ := hc.answered hready.ok hexit
      obtain ⟨reply, hreply⟩ := hc.replies_answer hready.ok hexit hready.working
      have hreplied := (Replied.refl d₀).trans hc.trace
      rw [hreply] at hreplied
      by_contra hfind
      obtain ⟨k, hk⟩ := Option.ne_none_iff_exists'.mp hfind
      obtain ⟨head, extra, hbody, hhead', -⟩ := exists_wholeHead hk
      -- what follows the head is taken for the next request
      obtain ⟨j, u, hu, hagain⟩ := honce.answers_again hokt hworking hreading hreplied hunread
        hhead' (hrequest.trans hbody)
      apply hagain
      apply hall d₀ hready _ u (hrun₁.snoc hu)
      exact List.forall_mem_append.mpr ⟨List.forall_mem_singleton.mpr hsmooth,
        List.forall_mem_singleton.mpr hsmooth⟩
    · exact absurd hreads' hreads

end Exceptions

/-- A request is answered exactly once, wherever its bytes are cut and whatever
the state of the connection was, if and only if it is answerable. A head whose
URI has nothing but slashes parses too, with the empty URI, and is answered
like any other. -/
theorem answered_once_iff (work : ByteString → Except Fault (Option ByteString)) (r : Message) :
    (∀ d₀ : Feed, d₀.Ready r → ∀ moves d, Run step d₀ moves d →
      (∀ m ∈ moves, m.label.Smooth work) → AnsweredOnce work d₀ d) ↔ r.Answerable work := by
  constructor
  · exact answerable_of_answeredOnce
  · intro hans d₀ h moves d hr hsmooth
    exact h.answeredOnce hans hr hsmooth

section EmptyPost

/-- A request without a `Content-Length` field, so with a body of no bytes,
which is complete with its head. -/
def emptyPost : Message :=
  (Message.make? (ofString "POST /analyse HTTP/1.1\r\n\r\n") []).get (by decide +kernel)

private theorem emptyPost_readsBody : emptyPost.parser.ReadsBody := by decide +kernel

private theorem emptyPost_body : emptyPost.body = [] := by decide +kernel

/-- Its connection is dropped without a reply, by the
branch for failed reads. -/
theorem empty_post_unanswered : ∃ (d₀ d : Feed) (moves : List (Move Feed Traffic)),
    d₀.Ready emptyPost ∧ Run step d₀ moves d ∧
      (∀ m ∈ moves, m.label.Smooth (Env.refusing 0).analyse) ∧ d₀.Replied d [] ∧
      d.session.conn.stats = .error ∧ (∀ kind, ¬ d.session.Reads kind) ∧
      ¬ AnsweredOnce (Env.refusing 0).analyse d₀ d := by
  obtain ⟨b, hb⟩ := exists_begins 7
  have hready : Ready emptyPost ⟨b.session, emptyPost.bytes⟩ := hb.ready emptyPost
  obtain ⟨i, data, t, -, hs, hok, hreplied, hstats, hnone⟩ :=
    hready.fails emptyPost_readsBody emptyPost_body (.refusing 0)
  refine ⟨_, t, _, hready, .snoc .nil hs, ?_, hreplied, hstats, ?_, ?_⟩
  · exact List.forall_mem_singleton.mpr ⟨rfl, rfl⟩
  · rintro kind ⟨o, ho, -, hlive⟩
    rw [(hnone o ho).2] at hlive
    cases hlive
  · exact not_answeredOnce_of_idle hok fun o ho => (hnone o ho).1

end EmptyPost

end Feed

end Ailawd
