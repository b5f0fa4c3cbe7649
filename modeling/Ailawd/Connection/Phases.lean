import Ailawd.Connection.Reactions
import Ailawd.Connection.Reception
import Ailawd.Model.Dialogue
import Mathlib.Algebra.Ring.Nat

/-!
# The phases of a dialogue

Between two handlers a connection that serves a waiting client is in one of four
phases: it awaits the head of the next request, it awaits the rest of a body, it
has lost step with the client because a request was answered and its body was not
read, or it has failed. `Phase.step` says that every step leads to a phase again,
as long as no head is parsed out of step.
-/

namespace Ailawd

open ByteString Transition

/-- At most one read is outstanding, so a completing
read leaves only writes. -/
theorem Session.Ok.rest_isRead {x : Session} (hok : x.Ok) {i : Nat} {op : Op}
    (hop : x.ops[i]? = some op) (hread : op.isRead = true) :
    ∀ o ∈ x.ops.eraseIdx i, o.isRead = false := by
  obtain ⟨front, back, hops, herase, -⟩ := split_of_getElem? hop
  have hone := hok.oneRead
  rw [hops, List.countP_append, List.countP_cons, if_pos hread] at hone
  have hnone : (front ++ back).countP Op.isRead = 0 := by
    rw [List.countP_append]
    omega
  intro o ho
  rw [herase] at ho
  exact Bool.eq_false_iff.mpr (List.countP_eq_zero.mp hnone o ho)

/-- An operation of this kind is outstanding, on a socket that may have been
cancelled: its completion may have been queued before that, and then it still
succeeds. -/
def Session.Reading (x : Session) (kind : OpKind) : Prop := ∃ op ∈ x.ops, op.kind = kind

/-- An operation of this kind is outstanding, and its socket
has not been cancelled. -/
def Session.Reads (x : Session) (kind : OpKind) : Prop :=
  ∃ op ∈ x.ops, op.kind = kind ∧ op.cancelled = false

theorem Session.Reads.reading {x : Session} {kind : OpKind} (h : x.Reads kind) :
    x.Reading kind := by
  obtain ⟨op, hop, hkind, -⟩ := h
  exact ⟨op, hop, hkind⟩

section Completes

variable {x x' : Session} {i : Nat} {op : Op} {data : ByteString} {effects : List Effect}
variable {ec : ErrorCode}

/-- Only calls count as heads and analyses. -/
theorem Completes.calls (hc : Completes x i op ec data x' effects) (calls : List Effect)
    {since : List Effect} (he : effects = calls ++ since) (hs : ∀ e ∈ since, e.isCall = false) :
    x'.heads = x.heads + calls.countP Effect.isParse ∧
      x'.analyses = x.analyses ++ calls.filterMap Effect.analysed? := by
  have hparse : since.countP Effect.isParse = 0 := by
    apply List.countP_eq_zero.mpr
    intro e hm hp
    have := hs e hm
    cases e <;> simp_all [Effect.isCall, Effect.isParse]
  have hanalyse : since.filterMap Effect.analysed? = [] := by
    apply List.filterMap_eq_nil_iff.mpr
    intro e hm
    have := hs e hm
    cases e <;> simp_all [Effect.isCall, Effect.analysed?]
  simp [Session.heads, Session.analyses, hc.trace, he, List.countP_append, List.filterMap_append,
    hparse, hanalyse]

private theorem countP_fill_calls {calls : List Effect} (h : ∀ e ∈ calls, e.isCall = true) :
    calls.countP Effect.isFill = 0 := by
  apply List.countP_eq_zero.mpr
  intro e hm hf
  have := h e hm
  cases e <;> simp_all [Effect.isCall, Effect.isFill]

variable (hok : x.Ok) (hc : Completes x i op ec data x' effects)
include hok hc

theorem Completes.answered (hkind : op.kind.exit x.conn ec data = .answer) :
    x'.Reads .readHead ∧ x'.conn.stats = .working ∧ x'.replies = x.replies + 1 := by
  have hafter := hc.ops _ (hok.sock op (List.mem_of_getElem? hc.found))
  have hexit := hc.exit
  rw [hkind] at hafter hexit
  obtain ⟨calls, reply, hcalls, -, he, hops, -⟩ := hafter
  refine ⟨⟨⟨.readHead, op.sock, false⟩, by rw [hops]; simp, rfl, rfl⟩, hexit.stats, ?_⟩
  simp only [Session.replies, hc.trace, he, List.countP_append, countP_fill_calls hcalls]
  split <;> simp [Effect.isFill]

theorem Completes.waited (hkind : op.kind.exit x.conn ec data = .wait)
    (hw : x.conn.stats = .working) {offset len : Nat} {before : List Effect}
    (he : effects = before ++ [.asyncRead offset len]) :
    x'.Reads (.readBody offset len) ∧ x'.conn.stats = .working ∧ x'.replies = x.replies := by
  have hafter := hc.ops _ (hok.sock op (List.mem_of_getElem? hc.found))
  have hexit := hc.exit
  rw [hkind] at hafter hexit
  obtain ⟨calls, offset', len', hcalls, -, he', hops⟩ := hafter
  rw [if_pos hw] at he' hops
  obtain ⟨-, hlast⟩ := List.append_inj' (he.symm.trans he') rfl
  obtain ⟨rfl, rfl⟩ := Effect.asyncRead.inj (List.singleton_inj.mp hlast)
  refine ⟨⟨⟨.readBody offset len, op.sock, false⟩, by rw [hops]; simp, rfl, rfl⟩,
    hexit.stats.trans hw, ?_⟩
  simp only [Session.replies, hc.trace, he', List.countP_append, countP_fill_calls hcalls]
  simp [Effect.isFill]

theorem Completes.failed (hkind : op.kind.exit x.conn ec data = .fail) :
    ∀ o ∈ x'.ops, o.cancelled = true := by
  have hafter := hc.ops _ (hok.sock op (List.mem_of_getElem? hc.found))
  rw [hkind] at hafter
  obtain ⟨calls, -, -, hops⟩ := hafter
  intro o ho
  rw [hops] at ho
  obtain ⟨o', ho', rfl⟩ := List.mem_map.mp ho
  have h' := hok.sock o' (List.mem_of_mem_eraseIdx ho')
  have h := hok.sock op (List.mem_of_getElem? hc.found)
  rw [if_pos (Option.some.inj (h'.symm.trans h))]

/-- A failed read leaves none behind. -/
theorem Completes.idle (hkind : op.kind.exit x.conn ec data = .fail) (hread : op.isRead = true) :
    ∀ o ∈ x'.ops, o.isRead = false := by
  have hafter := hc.ops _ (hok.sock op (List.mem_of_getElem? hc.found))
  rw [hkind] at hafter
  obtain ⟨calls, -, -, hops⟩ := hafter
  intro o ho
  rw [hops] at ho
  obtain ⟨o', ho', rfl⟩ := List.mem_map.mp ho
  have hwrite := hok.rest_isRead hc.found hread o' ho'
  split <;> exact hwrite

end Completes

/-- The one outstanding read is the one that completes. -/
theorem Session.Ok.kind_eq {x : Session} (hok : x.Ok) {i : Nat} {op : Op} {kind : OpKind}
    (hop : x.ops[i]? = some op) (hread : op.isRead = true) (hreads : x.Reading kind)
    (hkind : ∀ w, kind ≠ .write w) : op.kind = kind := by
  obtain ⟨op', hop', rfl⟩ := hreads
  obtain ⟨front, back, hops, herase, -⟩ := split_of_getElem? hop
  have hrest := hok.rest_isRead hop hread
  rw [herase] at hrest
  rw [hops, List.mem_append, List.mem_cons, or_left_comm, ← List.mem_append] at hop'
  obtain rfl | hm := hop'
  · rfl
  · obtain ⟨w, hw⟩ := Op.exists_write (hrest op' hm)
    exact absurd hw (hkind w)

/-- The receiving side and the history are the same, and so
are the outstanding reads. -/
structure Session.Undisturbed (x x' : Session) : Prop where
  request : x'.conn.request = x.conn.request
  parser : x'.conn.parser = x.conn.parser
  pBuffer : x'.conn.pBuffer = x.conn.pBuffer
  rSize : x'.conn.rSize = x.conn.rSize
  stats : x'.conn.stats = x.conn.stats
  trace : x'.trace = x.trace
  reads : x'.ops.filter Op.isRead = x.ops.filter Op.isRead

section Undisturbed

variable {x x' : Session} {i : Nat} {effects : List Effect}

theorem Op.isRead_eq_true {op : Op} (h : ∀ w, op.kind ≠ .write w) : op.isRead = true := by
  rw [Op.isRead]
  split
  next w hw => exact absurd hw (h w)
  · rfl

theorem Session.not_reading {kind : OpKind} (h : ∀ op ∈ x.ops, op.isRead = false)
    (hkind : ∀ w, kind ≠ .write w) : ¬ x.Reading kind := by
  rintro ⟨op, hop, rfl⟩
  cases (Op.isRead_eq_true hkind).symm.trans (h op hop)

theorem Session.Undisturbed.mem_reads {op : Op} (h : x.Undisturbed x')
    (hkind : ∀ w, op.kind ≠ .write w) : op ∈ x'.ops ↔ op ∈ x.ops := by
  have hread := Op.isRead_eq_true hkind
  have hiff : op ∈ x'.ops.filter Op.isRead ↔ op ∈ x.ops.filter Op.isRead := by rw [h.reads]
  simpa [List.mem_filter, hread] using hiff

theorem Session.Undisturbed.reads_iff {kind : OpKind} (h : x.Undisturbed x')
    (hkind : ∀ w, kind ≠ .write w) : x'.Reads kind ↔ x.Reads kind := by
  constructor
  · rintro ⟨op, hop, rfl, hlive⟩
    exact ⟨op, (h.mem_reads hkind).mp hop, rfl, hlive⟩
  · rintro ⟨op, hop, rfl, hlive⟩
    exact ⟨op, (h.mem_reads hkind).mpr hop, rfl, hlive⟩

theorem Session.Undisturbed.reading_iff {kind : OpKind} (h : x.Undisturbed x')
    (hkind : ∀ w, kind ≠ .write w) : x'.Reading kind ↔ x.Reading kind := by
  constructor
  · rintro ⟨op, hop, rfl⟩
    exact ⟨op, (h.mem_reads hkind).mp hop, rfl⟩
  · rintro ⟨op, hop, rfl⟩
    exact ⟨op, (h.mem_reads hkind).mpr hop, rfl⟩

private theorem reads_eraseIdx {op : Op} (hop : x.ops[i]? = some op) (hread : op.isRead = false)
    (hops : x'.ops = x.ops.eraseIdx i) : x'.ops.filter Op.isRead = x.ops.filter Op.isRead := by
  obtain ⟨front, back, hsplit, herase, -⟩ := split_of_getElem? hop
  rw [hops, herase, hsplit]
  simp [List.filter_append, hread]

private theorem reads_set {op op' : Op} (hop : x.ops[i]? = some op) (hread : op.isRead = false)
    (hread' : op'.isRead = false) (hops : x'.ops = x.ops.set i op') :
    x'.ops.filter Op.isRead = x.ops.filter Op.isRead := by
  obtain ⟨front, back, hsplit, -, hset⟩ := split_of_getElem? hop
  rw [hops, hset, hsplit]
  simp [List.filter_append, hread, hread']

/-- A completion that changes nothing but its operation. -/
theorem Session.Ok.quiet_undisturbed {op : Op} {ec : ErrorCode} {data : ByteString} {env : Env}
    (hok : x.Ok) (hc : Completes x i op ec data x' effects)
    (hexit : op.kind.exit x.conn ec data = .quiet)
    (hr : x.react (.complete i ec data env) = .ok (x', effects)) :
    x.Undisturbed x' ∧ data = [] := by
  have hread : op.isRead = false := Op.isRead_of_quiet hexit
  obtain ⟨w, hkind⟩ := op.exists_write hread
  have hd := react_complete_deliver hc.found hr
  have hafter := hc.ops _ (hok.sock op (List.mem_of_getElem? hc.found))
  have hstats := hc.exit
  rw [hexit] at hafter hstats
  obtain ⟨rfl, hops⟩ := hafter
  rw [hkind] at hd hexit
  simp only [OpKind.deliver] at hd
  split at hd
  · cases hd
  next hdata =>
    obtain ⟨hrequest, hparser, hbuffer, hrSize⟩ :=
      Handling.writeHandler_quiet hok.wSize hexit (mapError_eq_ok hd)
    refine ⟨⟨hrequest, hparser, hbuffer, hrSize, hstats.2.1, ?_, ?_⟩, ?_⟩
    · exact hc.trace.trans (List.append_nil _)
    · exact reads_eraseIdx hc.found hread hops
    · by_contra hne
      exact hdata (.inl hne)

/-- A write that has sent its range. -/
theorem Session.Ok.write_undisturbed {op : Op} {w : WriteOp} {data : ByteString} {env : Env}
    (hok : x.Ok) (hop : x.ops[i]? = some op) (hkind : op.kind = .write w)
    (hr : x.react (.complete i .success data env) = .ok (x', effects)) :
    x.Undisturbed x' ∧ data = [] := by
  obtain ⟨op', hc⟩ := react_complete hok.wSize hr
  obtain rfl := Option.some.inj (hc.found.symm.trans hop)
  have hd := react_complete_deliver hop hr
  rw [hkind] at hd
  obtain ⟨-, hlen, -⟩ := deliver_write hd
  have hnonempty := hok.nonempty op' (List.mem_of_getElem? hop)
  rw [hkind] at hnonempty
  have hpos : 0 < w.len := hnonempty
  refine hok.quiet_undisturbed hc ?_ hr
  rw [hkind]
  exact if_pos ⟨rfl, by omega⟩

/-- A partial send. -/
theorem send_undisturbed {n : Nat} (hr : x.react (.send i n) = .ok (x', effects)) :
    x.Undisturbed x' := by
  obtain ⟨-, w, sock, hop, -, -, rfl⟩ := react_send hr
  exact ⟨rfl, rfl, rfl, rfl, rfl, rfl, reads_set hop rfl rfl rfl⟩

end Undisturbed

/-- Where a request starts in the client's stream. -/
def startOf (requests : List Request) (k : Nat) : Nat :=
  ((requests.take k).map fun r => r.bytes.length).sum

/-- The bodies among the first requests that go to `analyse_handler`. -/
def analysed (requests : List Request) (k : Nat) : List ByteString :=
  ((requests.take k).filter fun r => r.parser.hasUri "/analyse").map Request.body

def Served (requests : List Request) (k : Nat) : Prop := ∃ r, requests[k]? = some r ∧ r.Served

def Rejected (requests : List Request) (k : Nat) : Prop :=
  ∃ r, requests[k]? = some r ∧ ¬ r.Served

section Requests

variable {requests : List Request} {k : Nat} {r : Request}

theorem Rejected.not_served (h : Rejected requests k) : ¬ Served requests k := by
  rintro ⟨r', hr', hs⟩
  obtain ⟨r, hr, hns⟩ := h
  obtain rfl := Option.some.inj (hr.symm.trans hr')
  exact hns hs

theorem startOf_succ (h : requests[k]? = some r) :
    startOf requests (k + 1) = startOf requests k + r.bytes.length := by
  simp only [startOf]
  rw [List.take_add_one, h]
  simp

theorem analysed_succ (h : requests[k]? = some r) :
    analysed requests (k + 1) = analysed requests k ++
      if r.parser.hasUri "/analyse" = true then [r.body] else [] := by
  rw [analysed]
  rw [List.take_add_one, h]
  simp only [Option.toList_some, List.filter_append, List.map_append]
  congr 1
  by_cases hu : r.parser.hasUri "/analyse" = true <;> simp [hu]

end Requests

/-- The head of the next request is awaited, and `request_` starts with its
first byte. Every earlier request has been served. -/
structure AwaitsHead (requests : List Request) (d : Dialogue) : Prop where
  served : ∀ k < d.session.heads, Served requests k
  working : d.session.conn.stats = .working
  reads : d.session.Reads .readHead
  replies : d.session.replies = d.session.heads
  position : d.received = startOf requests d.session.heads + d.request.length
  analyses : d.session.analyses = analysed requests d.session.heads
  pending : d.sent = d.session.heads ∧ d.request ++ d.unread = [] ∨
    ∃ r, requests[d.session.heads]? = some r ∧ d.sent = d.session.heads + 1 ∧
      d.request ++ d.unread = r.bytes

/-- The body of request `k` is awaited; its first `offset`
bytes are in `p_buffer_`. -/
structure AwaitsBody (requests : List Request) (d : Dialogue) (k : Nat) (r : Request)
    (offset len : Nat) : Prop where
  request : requests[k]? = some r
  heads : d.session.heads = k + 1
  served : ∀ j < k, Served requests j
  accepted : r.parser.isPost = true ∧ r.parser.acceptsUri = true
  working : d.session.conn.stats = .working
  reads : d.session.Reads (.readBody offset len)
  rSize : d.session.conn.rSize = offset
  parser : r.parser.Agrees d.session.conn.parser
  length : offset + len = r.parser.contentLength
  pos : 0 < len
  empty : d.request = []
  replies : d.session.replies = k
  sent : d.sent = k + 1
  position : d.received = startOf requests k + r.head.length + offset
  unread : d.unread = r.body.drop offset
  within : offset ≤ r.body.length
  buffer : d.session.conn.pBuffer.slice 0 offset = r.body.take offset
  room : r.parser.contentLength < 2 ^ 31 →
    r.parser.contentLength ≤ d.session.conn.pBuffer.size
  analyses : d.session.analyses = analysed requests k

/-- Request `k` was answered and not all of its body was read: a head is
awaited at a place where no request starts. -/
structure OutOfStep (requests : List Request) (d : Dialogue) (k : Nat) : Prop where
  heads : d.session.heads = k + 1
  rejected : Rejected requests k
  reads : d.session.Reads .readHead
  position : d.received ≠ startOf requests (k + 1) + d.request.length

/-- Request `k` announced a length that `atoi` truncates to 0, which is
reported as a read error: no read is outstanding any more. -/
structure Dead (requests : List Request) (d : Dialogue) (k : Nat) : Prop where
  rejected : Rejected requests k
  idle : ∀ op ∈ d.session.ops, op.isRead = false

inductive Phase (requests : List Request) (d : Dialogue) : Prop where
  | head (h : AwaitsHead requests d)
  | body {k r offset len} (h : AwaitsBody requests d k r offset len)
  | outOfStep {k} (h : OutOfStep requests d k)
  | dead {k} (h : Dead requests d k)

section Transport

variable {requests : List Request} {d d' : Dialogue}

/-- A step that changes neither what was received nor any
outstanding read keeps the phase. -/
theorem Phase.transport (hp : Phase requests d) (hkeep : d.session.Undisturbed d'.session)
    (hsent : d'.sent = d.sent) (hreceived : d'.received = d.received)
    (hunread : d'.unread = d.unread) : Phase requests d' := by
  have hreads : ∀ kind, (∀ w, kind ≠ .write w) → d.session.Reads kind → d'.session.Reads kind :=
    fun kind hk h => (hkeep.reads_iff hk).mpr h
  obtain ⟨hrequest, hparser, hbuffer, hrSize, hstats, htrace, hkept⟩ := hkeep
  have hheads : d'.session.heads = d.session.heads := congrArg (·.countP Effect.isParse) htrace
  have hreplies : d'.session.replies = d.session.replies :=
    congrArg (·.countP Effect.isFill) htrace
  have hanalyses : d'.session.analyses = d.session.analyses :=
    congrArg (·.filterMap Effect.analysed?) htrace
  have hreq : d'.request = d.request := hrequest
  cases hp with
  | head h =>
      refine .head ⟨?_, hstats.trans h.working, hreads _ (by simp) h.reads, ?_, ?_, ?_, ?_⟩ <;>
        rw [hheads]
      · exact h.served
      · exact hreplies.trans h.replies
      · rw [hreceived, hreq]
        exact h.position
      · exact hanalyses.trans h.analyses
      · rw [hsent, hreq, hunread]
        exact h.pending
  | @body k r offset len h =>
      exact .body ⟨h.request, hheads.trans h.heads, h.served, h.accepted, hstats.trans h.working,
        hreads _ (by simp) h.reads, hrSize.trans h.rSize, hparser ▸ h.parser, h.length, h.pos,
        hreq.trans h.empty, hreplies.trans h.replies, hsent.trans h.sent,
        hreceived.trans h.position, hunread.trans h.unread, h.within, hbuffer ▸ h.buffer,
        hbuffer ▸ h.room, hanalyses.trans h.analyses⟩
  | outOfStep h =>
      exact .outOfStep ⟨hheads.trans h.heads, h.rejected, hreads _ (by simp) h.reads, by
        rw [hreceived, hreq]
        exact h.position⟩
  | dead h =>
      have hnone : d.session.ops.filter Op.isRead = [] :=
        List.filter_eq_nil_iff.mpr fun op hop => by simp [h.idle op hop]
      refine .dead ⟨h.rejected, fun op hop => ?_⟩
      exact Bool.eq_false_iff.mpr (List.filter_eq_nil_iff.mp (hkept.trans hnone) op hop)

end Transport

/-- What a head read has received is the head of the pending request and a
prefix of its body, wherever the segments were cut. -/
private theorem head_text {r : Request} {request data unread : ByteString}
    (hbytes : request ++ unread = r.bytes) (hdata : data <+: unread) {i : Nat}
    (hi : find crlf2 (request ++ data) = some i) :
    ∃ extra, request ++ data = r.head ++ extra ∧ i + 4 = r.head.length ∧
      extra ++ unread.drop data.length = r.body := by
  obtain ⟨head, extra, htext, hhead, hlen⟩ := exists_wholeHead hi
  obtain ⟨rfl, hbody⟩ := WholeHead.of_read r.terminated hbytes hdata hhead htext
  exact ⟨extra, htext, hlen.symm, hbody⟩

/-- The exit of a head completion whose text starts
with the head of a request. -/
private theorem exit_readHead {c : FrontConn} {data : ByteString} {i : Nat} {q : HttpParser}
    (hi : find crlf2 (c.request ++ data) = some i)
    (hparse : c.parser.parseRequest (c.request ++ data) = (true, q)) :
    OpKind.readHead.exit c .success data =
      if q.isPost = true ∧ q.acceptsUri = true then
        acceptedExit q ((c.request ++ data).drop (i + 4)).length
      else .answer := by
  simp [OpKind.exit, hi, headExit, hparse]

section Completion

variable {requests : List Request} {d : Dialogue} {i : Nat} {op : Op} {data : ByteString}
variable {env : Env} {x' : Session} {effects : List Effect}

/-- The dialogue after a read has completed. -/
private def Dialogue.advance (d : Dialogue) (x' : Session) (data : ByteString) : Dialogue :=
  { d with session := x', received := d.received + data.length,
           unread := d.unread.drop data.length }

/-- A rejected request leaves its body in the stream. -/
private theorem not_served_of_rejected {r : Request} {q : HttpParser}
    (hagree : r.parser.Agrees q) (hrej : ¬ (q.isPost = true ∧ q.acceptsUri = true)) :
    ¬ r.Served := fun hs =>
  hrej ⟨hagree.isPost.trans hs.post, hagree.acceptsUri.trans hs.uri⟩

/-- Once a body has been handed over, the next head is awaited: in step with
the client if the whole body was read, out of step otherwise. -/
private theorem Phase.after_body {k n : Nat} {r : Request}
    (hreq : requests[k]? = some r) (hserved : ∀ j < k, Served requests j)
    (hacc : r.parser.isPost = true ∧ r.parser.acceptsUri = true)
    (hlen : r.parser.contentLength = n)
    (hworking : d.session.conn.stats = .working) (hreads : d.session.Reads .readHead)
    (hheads : d.session.heads = k + 1) (hreplies : d.session.replies = k + 1)
    (hsent : d.sent = k + 1) (hempty : d.request = [])
    (hreceived : d.received = startOf requests k + r.head.length + n)
    (hunread : d.unread = r.body.drop n) (hle : n ≤ r.body.length)
    (hanalyses : d.session.analyses = analysed requests k ++
      if r.parser.hasUri "/analyse" = true then [r.body.take n] else []) : Phase requests d := by
  have hstart := startOf_succ hreq
  simp only [Request.bytes, List.length_append] at hstart
  by_cases hall : n = r.body.length
  · subst hall
    refine .head ⟨?_, hworking, hreads, hreplies.trans hheads.symm, ?_, ?_, .inl ⟨?_, ?_⟩⟩
    · intro j hj
      rw [hheads] at hj
      rcases Nat.lt_succ_iff_lt_or_eq.mp hj with hj | rfl
      · exact hserved j hj
      · exact ⟨r, hreq, hacc.1, hacc.2, hlen⟩
    · rw [hheads, hempty, hreceived, hstart, List.length_nil]
      omega
    · rw [hanalyses, hheads, analysed_succ hreq, List.take_length]
    · rw [hsent, hheads]
    · rw [hempty, hunread, List.drop_length, List.append_nil]
  · refine .outOfStep (k := k)
      ⟨hheads, ⟨r, hreq, fun hs => hall (hlen.symm.trans hs.length)⟩, hreads, ?_⟩
    · rw [hempty, hreceived, hstart, List.length_nil]
      omega

/-- The part of a head completion after which the rest of the body is read. -/
private theorem AwaitsHead.waits {c : FrontConn} {text extra : ByteString} {r : Request}
    {q : HttpParser} (hp : AwaitsHead requests d) (hok : d.session.Ok)
    (hc : Completes d.session i op .success data x' effects)
    (hreq : requests[d.session.heads]? = some r) (hsent : d.sent = d.session.heads + 1)
    (hbody : extra ++ d.unread.drop data.length = r.body) (hagree : r.parser.Agrees q)
    (hlengths : d.request.length + data.length = r.head.length + extra.length)
    (hacc : r.parser.isPost = true ∧ r.parser.acceptsUri = true) (hstats : c.stats = .working)
    (hexit : op.kind.exit d.session.conn .success data = .wait)
    (hlt : extra.length < q.contentLength)
    (hrecv : (Handling.headParsed c text extra q).receiveBody env = .ok ⟨x'.conn, effects⟩) :
    AwaitsBody requests (d.advance x' data) d.session.heads r extra.length
      (q.contentLength - extra.length) := by
  obtain ⟨-, hrequest, hparser, hstart⟩ := Handling.receiveBody_receives hrecv
  obtain ⟨hrSize, he, hslice, hroom⟩ := hstart hstats hlt
  obtain ⟨hreads, hworking, hreplies⟩ := hc.waited hok hexit hp.working he
  obtain ⟨hheads, hanalyses⟩ := hc.calls [.parse text] he (by simp [Effect.isCall])
  have hlen := hagree.contentLength
  have hposition := hp.position
  have hbodyLength := congrArg List.length hbody
  simp only [List.length_append] at hbodyLength
  refine ⟨hreq, hheads, hp.served, hacc, hworking, hreads, hrSize, hparser ▸ hagree, by omega,
    by omega, hrequest, hreplies.trans hp.replies, hsent, ?_, ?_, by omega, ?_, ?_, ?_⟩
  · simp only [Dialogue.advance]
    omega
  · rw [← hbody, List.drop_left]
    rfl
  · rw [← hbody, List.take_left]
    exact hslice
  · intro hsmall
    rw [← hlen] at hsmall ⊢
    exact hroom hsmall
  · exact hanalyses.trans ((List.append_nil _).trans hp.analyses)

/-- The part of a head completion that receives the body. -/
private theorem AwaitsHead.accepted {c : FrontConn} {text extra : ByteString} {r : Request}
    {q : HttpParser} (hp : AwaitsHead requests d) (hok : d.session.Ok)
    (hc : Completes d.session i op .success data x' effects) (hread : op.isRead = true)
    (hreq : requests[d.session.heads]? = some r) (hsent : d.sent = d.session.heads + 1)
    (hbody : extra ++ d.unread.drop data.length = r.body) (hagree : r.parser.Agrees q)
    (hlengths : d.request.length + data.length = r.head.length + extra.length)
    (hacc : q.isPost = true ∧ q.acceptsUri = true) (hstats : c.stats = .working)
    (hexit : op.kind.exit d.session.conn .success data = acceptedExit q extra.length)
    (hrecv : (Handling.headParsed c text extra q).receiveBody env = .ok ⟨x'.conn, effects⟩) :
    Phase requests (d.advance x' data) := by
  have hlen := hagree.contentLength
  have hposition := hp.position
  have hbodyLength := congrArg List.length hbody
  simp only [List.length_append] at hbodyLength
  have hacc' : r.parser.isPost = true ∧ r.parser.acceptsUri = true :=
    ⟨hagree.isPost ▸ hacc.1, hagree.acceptsUri ▸ hacc.2⟩
  simp only [acceptedExit] at hexit
  by_cases hlt : extra.length < q.contentLength
  · rw [if_pos hlt] at hexit
    exact .body (hp.waits hok hc hreq hsent hbody hagree hlengths hacc' hstats hexit hlt hrecv)
  · -- the whole body came with the head
    rw [if_neg hlt] at hexit
    by_cases hz : extra.length = 0
    · rw [if_pos hz] at hexit
      refine .dead (k := d.session.heads) ⟨⟨r, hreq, fun hs => ?_⟩, hc.idle hok hexit hread⟩
      have hpos := List.length_pos_iff.mpr r.nonempty
      have := hs.length
      omega
    · rw [if_neg hz] at hexit
      obtain ⟨hadd, g, hg, hfit⟩ := Handling.receiveBody_fits hrecv
      obtain ⟨pBuffer, hsize, hslice, heq⟩ := Handling.receiveBody_eq env hadd hg hfit
      rw [heq] at hrecv
      change extra.length ≤ q.contentLength at hadd
      change pBuffer.slice 0 extra.length = extra at hslice
      change (if extra.length < q.contentLength then _ else
        ((Handling.headParsed c text extra q).withInput pBuffer 0).readBodyHandler env .success
          extra.length) = _ at hrecv
      rw [if_neg hlt] at hrecv
      obtain ⟨hreads, hworking, hreplies⟩ := hc.answered hok hexit
      have hkeep := Handling.readBodyHandler_keepsInput hrecv
      obtain ⟨since, he, hs⟩ := hkeep.effects
      have hcalls : bodyCalls ((Handling.headParsed c text extra q).withInput pBuffer 0).conn
          .success extra.length =
            if r.parser.hasUri "/analyse" = true then [.analyse extra] else [] := by
        rw [bodyCalls]
        simp only [Handling.withInput, Handling.headParsed, Nat.zero_add, hagree.hasUri, hslice,
          ne_eq, hz, hlt, not_false_eq_true, true_and]
      obtain ⟨hheads, hanalyses⟩ := hc.calls
        ([.parse text] ++ if r.parser.hasUri "/analyse" = true then [.analyse extra] else [])
        (by rw [← hcalls, List.append_assoc]; exact he) hs
      refine Phase.after_body (n := extra.length) hreq hp.served hacc' (by omega) hworking hreads
        ?_ (hreplies.trans (congrArg (· + 1) hp.replies)) hsent hkeep.request ?_ ?_ (by omega) ?_
      · apply hheads.trans
        split <;> rfl
      · simp only [Dialogue.advance]
        omega
      · rw [← hbody, List.drop_left]
        rfl
      · apply hanalyses.trans
        rw [hp.analyses, ← hbody, List.take_left]
        split <;> rfl

theorem AwaitsHead.complete (hp : AwaitsHead requests d) (hok : d.session.Ok)
    (hop : d.session.ops[i]? = some op) (hkind : op.kind = .readHead) (hdata : data <+: d.unread)
    (hr : d.session.react (.complete i .success data env) = .ok (x', effects)) :
    Phase requests (d.advance x' data) := by
  obtain ⟨op', hc⟩ := react_complete hok.wSize hr
  obtain rfl := Option.some.inj (hc.found.symm.trans hop)
  have hd := react_complete_deliver hop hr
  rw [hkind] at hd
  obtain ⟨j, hj, hhandler⟩ := deliver_readHead hd
  obtain ⟨-, hnone⟩ | ⟨r, hreq, hsent, hbytes⟩ := hp.pending
  · obtain ⟨hrequest, hunread⟩ := List.append_eq_nil_iff.mp hnone
    obtain rfl := List.prefix_nil.mp (hunread ▸ hdata)
    rw [show d.session.conn.request = [] from hrequest] at hj
    cases hj
  obtain ⟨extra, htext, hhead, hbody⟩ := head_text hbytes hdata hj
  obtain ⟨q, hparse, hagree⟩ := HttpParser.parseRequest_append
    d.session.conn.parser r.terminated r.parses extra
  rw [← htext] at hparse
  have hdrop : (d.request ++ data).drop (j + 4) = extra := by
    rw [htext, hhead, List.drop_left]
  have hexit := exit_readHead hj hparse
  rw [show (d.session.conn.request ++ data).drop (j + 4) = extra from hdrop, ← hkind] at hexit
  have hlengths := congrArg List.length htext
  have hbodyLength := congrArg List.length hbody
  simp only [List.length_append] at hlengths hbodyLength
  have hposition := hp.position
  obtain ⟨hacc, hrecv⟩ | ⟨hrej, hkeep⟩ :=
    Handling.readHeadHandler_cases (by omega) hparse hhandler
  · rw [if_pos hacc] at hexit
    simp only [show (d.session.conn.request ++ data).drop (j + 4) = extra from hdrop] at hrecv
    have hread : op'.isRead = true := by simp [Op.isRead, hkind]
    exact hp.accepted hok hc hread hreq hsent hbody hagree hlengths hacc hp.working hexit hrecv
  · rw [if_neg hrej] at hexit
    obtain ⟨hreads, -, -⟩ := hc.answered hok hexit
    obtain ⟨since, he, hs⟩ := hkeep.effects
    obtain ⟨hheads, -⟩ := hc.calls [_] he (by simpa using hs)
    refine .outOfStep (k := d.session.heads)
      ⟨hheads, ⟨r, hreq, not_served_of_rejected hagree hrej⟩, hreads, ?_⟩
    have hrequest : (d.advance x' data).request = extra := hkeep.request.trans hdrop
    have hstart := startOf_succ hreq
    simp only [Request.bytes, List.length_append] at hstart
    have hpos := List.length_pos_iff.mpr r.nonempty
    rw [hrequest, hstart]
    simp only [Dialogue.advance]
    omega

theorem AwaitsBody.complete {k offset len : Nat} {r : Request}
    (hp : AwaitsBody requests d k r offset len) (hok : d.session.Ok)
    (hop : d.session.ops[i]? = some op) (hkind : op.kind = .readBody offset len)
    (hdata : data <+: d.unread)
    (hr : d.session.react (.complete i .success data env) = .ok (x', effects)) :
    Phase requests (d.advance x' data) := by
  obtain ⟨op', hc⟩ := react_complete hok.wSize hr
  obtain rfl := Option.some.inj (hc.found.symm.trans hop)
  have hd := react_complete_deliver hop hr
  rw [hkind] at hd
  obtain ⟨hlen, hhandler⟩ := deliver_readBody hd
  have hcontent := hp.parser.contentLength
  have htotal := hp.length
  have hpos := hp.pos
  have hnlt : ¬ d.session.conn.rSize + data.length < d.session.conn.parser.contentLength := by
    rw [hp.rSize]
    omega
  have hne : data.length ≠ 0 := by omega
  have hexit : op'.kind.exit d.session.conn .success data = .answer := by
    rw [hkind]
    simp only [OpKind.exit, bodyExit, ne_eq, hne, not_false_eq_true, and_self, if_true, hnlt,
      if_false]
  obtain ⟨hreads, hworking, hreplies⟩ := hc.answered hok hexit
  have hkeep := Handling.readBodyHandler_keepsInput hhandler
  obtain ⟨since, he, hs⟩ := hkeep.effects
  -- the bytes just read complete the prefix that is already in the buffer
  have hprefix : data <+: r.body.drop offset := hp.unread ▸ hdata
  have hwithin : offset + data.length ≤ r.body.length := by
    have := hprefix.length_le
    have := hp.within
    rw [List.length_drop] at *
    omega
  have hslice : (d.session.conn.pBuffer.write offset data).slice 0 (offset + data.length) =
      r.body.take (offset + data.length) := by
    rw [CharVec.slice_write_append, hp.buffer, List.take_add,
      ← List.prefix_iff_eq_take.mp hprefix]
  have hcalls : bodyCalls { d.session.conn with
      pBuffer := d.session.conn.pBuffer.write offset data } .success data.length =
        if r.parser.hasUri "/analyse" = true then
          [.analyse (r.body.take (offset + data.length))] else [] := by
    rw [bodyCalls]
    simp only [hp.rSize, hp.parser.hasUri, hslice, ne_eq, hne, not_false_eq_true, true_and]
    rw [hp.rSize] at hnlt
    simp only [hnlt, not_false_eq_true, true_and]
  obtain ⟨hheads, hanalyses⟩ := hc.calls _ (he.trans (congrArg (· ++ since) hcalls)) hs
  have hposition := hp.position
  refine Phase.after_body (n := offset + data.length) hp.request hp.served hp.accepted (by omega)
    hworking hreads ?_ (hreplies.trans (congrArg (· + 1) hp.replies)) hp.sent
    (hkeep.request.trans hp.empty) ?_ ?_ hwithin ?_
  · refine (hheads.trans ?_).trans hp.heads
    split <;> simp [Effect.isParse]
  · simp only [Dialogue.advance]
    omega
  · simp only [Dialogue.advance]
    rw [hp.unread, List.drop_drop]
  · apply hanalyses.trans
    rw [hp.analyses]
    split <;> simp [Effect.analysed?]

end Completion

/-- `read_head_handler` can be called now: a head read is outstanding, and the
bytes on the connection hold a complete head for it. -/
structure Dialogue.HeadReady (d : Dialogue) : Prop where
  reads : d.session.Reading .readHead
  complete : (find crlf2 (d.request ++ d.unread)).isSome = true

section Step

variable {requests : List Request} {d d' : Dialogue}

/-- The client sends only while a head is awaited or the dialogue is lost. -/
private theorem Phase.request {r : Request} (hp : Phase requests d)
    (hreq : requests[d.sent]? = some r) (hreplies : ¬ d.session.replies < d.sent) :
    Phase requests { d with sent := d.sent + 1, unread := d.unread ++ r.bytes } := by
  cases hp with
  | head h =>
      obtain ⟨hsent, hnone⟩ | ⟨r', -, hsent, -⟩ := h.pending
      · refine .head ⟨h.served, h.working, h.reads, h.replies, h.position, h.analyses,
          .inr ⟨r, hsent ▸ hreq, congrArg (· + 1) hsent, ?_⟩⟩
        change d.request ++ (d.unread ++ r.bytes) = r.bytes
        rw [← List.append_assoc, hnone, List.nil_append]
      · have := h.replies
        omega
  | body h =>
      have := h.replies
      have := h.sent
      omega
  | outOfStep h => exact .outOfStep ⟨h.heads, h.rejected, h.reads, h.position⟩
  | dead h => exact .dead ⟨h.rejected, h.idle⟩

/-- The completion of a write changes nothing that was received. -/
private theorem Phase.write {i : Nat} {w : WriteOp} {op : Op} {data : ByteString} {env : Env}
    {x' : Session} {effects : List Effect} (hp : Phase requests d) (hok : d.session.Ok)
    (hop : d.session.ops[i]? = some op) (hkind : op.kind = .write w)
    (hr : d.session.react (.complete i .success data env) = .ok (x', effects)) :
    Phase requests (d.advance x' data) := by
  obtain ⟨hkeep, rfl⟩ := hok.write_undisturbed hop hkind hr
  exact hp.transport hkeep rfl rfl (List.drop_zero ..)

/-- Every step leads to a phase again, as long as no
head is parsed out of step. -/
theorem Phase.step {a : Signal} (hok : d.session.Ok) (hp : Phase requests d)
    (hguard : ∀ k, OutOfStep requests d k → ¬ d.HeadReady)
    (hs : Dialogue.step requests d a = .ok d') : d'.session.Ok ∧ Phase requests d' := by
  cases a with
  | request =>
      simp only [Dialogue.step] at hs
      split at hs
      · cases hs
      next r hreq =>
      split at hs
      · cases hs
      next hreplies =>
      obtain rfl := Except.ok.inj hs
      exact ⟨hok, hp.request hreq hreplies⟩
  | event e =>
    cases e with
    | complete i ec data env =>
        simp only [Dialogue.step] at hs
        split at hs
        · cases hs
        next hcond =>
        obtain ⟨rfl, hdata⟩ : ec = .success ∧ data <+: d.unread := by
          simpa only [not_or, not_not] using hcond
        cases hx : d.session.step (.complete i .success data env) with
        | error =>
            rw [hx] at hs
            cases hs
        | ok x' =>
            rw [hx] at hs
            obtain rfl := Except.ok.inj hs
            obtain ⟨effects, hr⟩ := step_eq_ok hx
            refine ⟨hok.react hr, ?_⟩
            obtain ⟨op, hc⟩ := react_complete hok.wSize hr
            cases hread : op.isRead with
            | false =>
                obtain ⟨w, hw⟩ := op.exists_write hread
                exact hp.write hok hc.found hw hr
            | true =>
                cases hp with
                | head h =>
                    exact h.complete hok hc.found
                      (hok.kind_eq hc.found hread h.reads.reading (by simp)) hdata hr
                | body h =>
                    exact h.complete hok hc.found
                      (hok.kind_eq hc.found hread h.reads.reading (by simp)) hdata hr
                | outOfStep h =>
                    refine absurd ⟨h.reads.reading, ?_⟩ (hguard _ h)
                    have hkind := hok.kind_eq hc.found hread h.reads.reading (by simp)
                    have hd := react_complete_deliver hc.found hr
                    rw [hkind] at hd
                    obtain ⟨j, hj, -⟩ := deliver_readHead hd
                    obtain ⟨rest, hrest⟩ := hdata
                    rw [← hrest, ← List.append_assoc]
                    exact Option.isSome_iff_exists.mpr ⟨j, find_append hj rest⟩
                | dead h =>
                    rw [h.idle op (List.mem_of_getElem? hc.found)] at hread
                    cases hread
    | send i n =>
        simp only [Dialogue.step] at hs
        cases hx : d.session.step (.send i n) with
        | error =>
            rw [hx] at hs
            cases hs
        | ok x' =>
            rw [hx] at hs
            obtain rfl := Except.ok.inj hs
            obtain ⟨effects, hr⟩ := step_eq_ok hx
            refine ⟨hok.react hr, ?_⟩
            exact hp.transport (send_undisturbed hr) rfl rfl rfl

end Step

theorem Dialogue.Begins.phase {requests : List Request} {d : Dialogue} {sock : SockId}
    (h : d.Begins sock) : Phase requests d := by
  refine .head ⟨?_, h.started.stats, ⟨_, by rw [h.started.ops]; exact List.mem_singleton.mpr rfl,
    rfl, rfl⟩, h.replies.trans h.heads.symm, ?_, ?_, .inl ⟨h.sent.trans h.heads.symm, ?_⟩⟩
  · simp [h.heads]
  · simp [h.heads, h.received, h.request, startOf]
  · simp [h.heads, h.analyses, analysed]
  · simp [h.request, h.unread]

/-- Replaying signals on a new connection gives a run of a dialogue. -/
theorem Dialogue.run_of_started_reaches (sock : SockId) (env : Env) (requests : List Request)
    (signals : List Signal) (p : Dialogue → Prop)
    (h : Reaches (((Session.started sock env).mapError Stop.fault).bind fun x =>
      exec (Dialogue.step requests) (Dialogue.join x) signals) p) :
    ∃ d₀ moves d, d₀.Begins sock ∧ Run (Dialogue.step requests) d₀ moves d ∧
      moves.map Move.label = signals ∧ p d := by
  cases hx : Session.started sock env with
  | error =>
      rw [hx] at h
      cases h
  | ok x =>
      rw [hx] at h
      obtain ⟨moves, d, hr, hl, hp⟩ := run_of_reaches _ _ _ h
      refine ⟨Dialogue.join x, moves, d, ?_, hr, hl, hp⟩
      have hstarted := Session.started_spec hx
      simp only [Session.started] at hx
      cases hs : (FrontConn.make sock env.now).start env with
      | error =>
          rw [hs] at hx
          cases hx
      | ok g =>
          rw [hs] at hx
          obtain ⟨-, rfl⟩ := Handling.start_eq_ok hs
          obtain rfl := Except.ok.inj hx
          exact ⟨hstarted, rfl, rfl, rfl, rfl, rfl, rfl, rfl⟩

end Ailawd
