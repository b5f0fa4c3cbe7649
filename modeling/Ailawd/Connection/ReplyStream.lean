import Ailawd.Connection.ReplyRoundTrip
import Ailawd.Connection.ResponseIntegrity
import Ailawd.Library.CodeWords

/-!
# The stream of replies

A client finds the end of a reply by its first CRLFCRLF and its `Content-Length`, so what it has
received reads as replies in one way only. While a connection works and no request is answered
during an earlier write, the bytes on the wire are the encoded replies in their order, and a
client reads their contents off them.
-/

namespace Ailawd

open ByteString CodeWords HttpProto Transition

structure Response where
  date : ByteString
  content : ByteString
  status : ByteString

namespace Response

def bytes (r : Response) : ByteString := Reply.replyGenerate r.date r.content r.status

/-- The program's status lines, and a date that is plain text. The
content may be anything. -/
structure Plain (r : Response) : Prop where
  date_trimmed : Trimmed r.date
  date_oneLine : OneLine r.date
  status : r.status ∈ Status.all

end Response

namespace Reply

/-- The number in the `Content-Length` line of a head, if it has exactly one.
This is how a client would read it. -/
def announcedLength (head : ByteString) : Option Nat :=
  match (lines head).filter fun item => (ofString "Content-Length:").isPrefixOf item with
  | [item] => some (digitsValue ((item.drop 16).takeWhile isDigit))
  | _ => none

/-- The content of the first reply of a stream, and what follows it; nothing,
while the reply is not complete. -/
def decode (stream : ByteString) : Option (ByteString × ByteString) :=
  match find crlf2 stream with
  | none => none
  | some i =>
    match announcedLength (stream.take (i + 4)) with
    | none => none
    | some n =>
      if (stream.drop (i + 4)).length < n then none
      else some ((stream.drop (i + 4)).take n, (stream.drop (i + 4)).drop n)

/-- A reply is a head that announces its content, and the content. So replies
can be told apart in a stream. -/
theorem exists_replyHead {r : Response} (h : r.Plain) : ∃ head,
    r.bytes = head ++ r.content ∧ WholeHead head ∧
      announcedLength head = some r.content.length := by
  obtain ⟨date, content, status⟩ := r
  obtain ⟨htrim, hline, hstatus⟩ := h
  change ∃ head, replyGenerate date content status = head ++ content ∧ WholeHead head ∧
    announcedLength head = some content.length
  obtain ⟨text, rfl, hne, htext, hstart, -⟩ := status_line hstatus
  obtain ⟨fs, hlines, -⟩ := exists_fieldLines (readable_headers htrim hline content.length)
  have hhead : HeadLines (text :: fs.map FieldLine.text) := headLines hne htext fs
  refine ⟨renderHead (text :: fs.map FieldLine.text), ?_, wholeHead_renderHead hhead, ?_⟩
  · rw [replyGenerate, foldl_render, hlines, renderHead_cons, List.append_assoc text]
    rfl
  · have hfilter : (lines (renderHead (text :: fs.map FieldLine.text))).filter
        (fun item => (ofString "Content-Length:").isPrefixOf item) =
          [ofString "Content-Length: " ++ decimal content.length ++ [13]] := by
      rw [lines_renderHead hhead.oneLine, hlines, List.map_cons, List.map_map, List.cons_append,
        List.filter_cons_of_neg (by simp [hstart]), List.filter_append]
      rw [show ((fun x => x ++ [13]) ∘ Header.line) = fun h => h.line ++ [13] from rfl,
        contentLength_line date content.length]
      rfl
    have hname : (ofString "Content-Length: ").length = 16 := by decide
    have hdrop : (ofString "Content-Length: " ++ decimal content.length ++ [13]).drop 16 =
        decimal content.length ++ [13] := by
      rw [List.append_assoc, List.drop_left' hname]
    have hdigits : (decimal content.length ++ [13]).takeWhile isDigit = decimal content.length := by
      rw [List.takeWhile_append_of_pos isDigit_of_mem_decimal]
      exact List.append_nil _
    rw [announcedLength, hfilter]
    simp only [hdrop, hdigits, digitsValue_decimal]

theorem delimited : Delimited Response.Plain Response.bytes Response.content decode where
  empty := rfl
  word := by
    intro r hr rest
    obtain ⟨head, hbytes, hwhole, hlength⟩ := exists_replyHead hr
    have hfind : find crlf2 (head ++ (r.content ++ rest)) = some (head.length - 4) :=
      find_append hwhole _
    rw [hbytes, List.append_assoc, decode]
    simp only [hfind, hwhole.length, List.take_left, hlength, List.drop_left]
    rw [if_neg (by rw [List.length_append]; omega)]
  more := by
    intro stream x rest hdec more
    simp only [decode] at hdec
    split at hdec
    · cases hdec
    next i hi =>
      split at hdec
      · cases hdec
      next n hn =>
        split at hdec
        · cases hdec
        next hlong =>
          obtain ⟨rfl, rfl⟩ := Prod.mk.inj (Option.some.inj hdec)
          have hle : i + 4 ≤ stream.length := find_add_length_le hi
          have hlength := Nat.not_lt.mp hlong
          simp only [decode, find_append hi more, List.take_append_of_le_length hle, hn,
            List.drop_append_of_le_length hle]
          rw [if_neg (by rw [List.length_append]; omega), List.take_append_of_le_length hlength,
            List.drop_append_of_le_length hlength]

end Reply

/-- Every reply that a handler has encoded is a response with the date of its
environment and one of the status lines. -/
def Handling.Encodes (env : Env) (h : Handling) : Prop :=
  ∀ enc, .fill enc ∈ h.effects →
    ∃ r : Response, r.date = env.date ∧ r.status ∈ Status.all ∧ enc = r.bytes

namespace Handling

variable {env : Env} {h h' : Handling} {e : Effect}

theorem Encodes.onto (hh : h.Encodes env) (c : FrontConn) : Encodes env ⟨c, h.effects⟩ := hh

theorem Encodes.emit (hh : h.Encodes env) (he : ∀ enc, e ≠ .fill enc) : (h.emit e).Encodes env := by
  intro enc hmem
  obtain hmem | hmem := List.mem_append.mp hmem
  · exact hh enc hmem
  · exact absurd (List.mem_singleton.mp hmem).symm (he enc)

theorem Encodes.withSocket (hh : h.Encodes env) (hr : h.withSocket e = .ok h')
    (he : ∀ enc, e ≠ .fill enc) : h'.Encodes env := by
  obtain ⟨-, rfl⟩ := withSocket_eq_ok hr
  exact hh.emit he

theorem Encodes.fillForHttp {content status : ByteString} (hh : h.Encodes env)
    (hstatus : status ∈ Status.all) : (h.fillForHttp env content status).Encodes env := by
  intro enc hmem
  obtain hmem | hmem := List.mem_append.mp hmem
  · exact hh enc hmem
  · obtain rfl := Effect.fill.inj (List.mem_singleton.mp hmem)
    exact ⟨⟨env.date, content, status⟩, rfl, hstatus, rfl⟩

theorem Encodes.start (hh : h.Encodes env) (hr : h.start env = .ok h') : h'.Encodes env := by
  obtain ⟨-, rfl⟩ := start_eq_ok hr
  exact (hh.onto _).emit (e := .asyncReadUntil) (by rintro _ ⟨⟩)

theorem Encodes.doReadBody (hh : h.Encodes env) (hr : h.doReadBody env = .ok h') :
    h'.Encodes env := by
  simp only [Handling.doReadBody] at hr
  split at hr
  · obtain rfl := Except.ok.inj hr
    exact hh
  · exact (hh.onto _).withSocket hr (by rintro _ ⟨⟩)

theorem Encodes.doWrite (hh : h.Encodes env) (hr : h.doWrite env = .ok h') : h'.Encodes env := by
  obtain ⟨-, rfl⟩ | ⟨-, -, -, rfl⟩ := doWrite_cases hr
  · exact hh
  · exact (hh.onto _).emit (e := .asyncWrite _ _) (by rintro _ ⟨⟩)

theorem Encodes.socketError (hh : h.Encodes env) (hr : h.socketError = .ok h') :
    h'.Encodes env := by
  simp only [Handling.socketError] at hr
  split at hr
  · cases hr
  next g hg =>
    have hshut := hh.withSocket hg (by rintro _ ⟨⟩)
    split at hr
    · cases hr
    next k hk =>
      obtain rfl := Except.ok.inj hr
      have hcancel := hshut.withSocket hk (by rintro _ ⟨⟩)
      intro enc hmem
      obtain hmem | hmem := List.mem_append.mp hmem
      · exact hcancel enc hmem
      · simp at hmem

theorem Encodes.writeReturn (hh : h.Encodes env) (hr : h.writeReturn env = .ok h') :
    h'.Encodes env := by
  simp only [Handling.writeReturn] at hr
  split at hr
  · cases hr
  next g hg => exact (hh.doWrite hg).start hr

theorem Encodes.errorReturn (hh : h.Encodes env) (hr : h.errorReturn env = .ok h') :
    h'.Encodes env :=
  (hh.fillForHttp (by decide)).writeReturn hr

theorem Encodes.errorReturnHead (hh : h.Encodes env) (hr : h.errorReturnHead env = .ok h') :
    h'.Encodes env := by
  have hfill : (h.fillForHttp env contentError Status.internalServerError).Encodes env :=
    hh.fillForHttp (by decide)
  exact (hfill.onto _).writeReturn hr

theorem Encodes.analyseHandler {b : Bool} (hh : h.Encodes env)
    (hr : h.analyseHandler env = .ok (b, h')) : h'.Encodes env := by
  rw [Handling.analyseHandler] at hr
  split at hr
  · cases hr
  · have hemit := hh.emit (e := .analyse (h.conn.pBuffer.slice 0 h.conn.rSize)) (by rintro _ ⟨⟩)
    simp only at hr
    split at hr
    · cases hr
    · obtain ⟨-, rfl⟩ := Prod.mk.inj (Except.ok.inj hr)
      exact hemit
    · obtain ⟨-, rfl⟩ := Prod.mk.inj (Except.ok.inj hr)
      exact hemit.fillForHttp (by decide)

theorem Encodes.readBodyHandler {ec : ErrorCode} {n : Nat} (hh : h.Encodes env)
    (hr : h.readBodyHandler env ec n = .ok h') : h'.Encodes env := by
  rw [Handling.readBodyHandler] at hr
  split at hr
  · simp only at hr
    have hg := hh.onto { h.conn with rSize := h.conn.rSize + n }
    split at hr
    · exact hg.doReadBody hr
    · split at hr
      · split at hr
        · cases hr
        next k hk => exact (hg.analyseHandler hk).writeReturn hr
        next k hk => exact (hg.analyseHandler hk).errorReturn hr
      · exact (hg.fillForHttp (by decide)).writeReturn hr
  · split at hr
    · exact hh.socketError hr
    · exact hh.errorReturn hr

theorem Encodes.receiveBody (hh : h.Encodes env) (hr : h.receiveBody env = .ok h') :
    h'.Encodes env := by
  rw [Handling.receiveBody] at hr
  simp only at hr
  split at hr
  · cases hr
  split at hr
  · cases hr
  next g hg =>
  split at hr
  · cases hr
  next k hk =>
  have hquiet := (growBuffer_quiet hg).trans (takeAdditional_quiet hk)
  obtain ⟨calls, hcalls, heffects⟩ := hquiet.effects
  have hk : k.Encodes env := by
    intro enc hmem
    rw [heffects] at hmem
    obtain hmem | hmem := List.mem_append.mp hmem
    · exact hh enc hmem
    · cases hcalls _ hmem
  split at hr
  · exact (hk.onto _).doReadBody hr
  · exact hk.readBodyHandler hr

theorem Encodes.readHeadHandler {ec : ErrorCode} {n : Nat} (hh : h.Encodes env)
    (hr : h.readHeadHandler env ec n = .ok h') : h'.Encodes env := by
  simp only [Handling.readHeadHandler] at hr
  split at hr
  · have hhead := hh.onto { h.conn with
      request := h.conn.request.drop n, parser := (h.conn.parser.parseRequest h.conn.request).2 }
    have hparse := hhead.emit (e := .parse h.conn.request) (by rintro _ ⟨⟩)
    split at hr
    · exact hparse.errorReturnHead hr
    · split at hr
      · exact (hparse.fillForHttp (by decide)).writeReturn hr
      · split at hr
        · exact hparse.receiveBody hr
        · exact (hparse.fillForHttp (by decide)).writeReturn hr
  · split at hr
    · exact hh.socketError hr
    · exact hh.errorReturnHead hr

theorem Encodes.writeHandler {ec : ErrorCode} {n : Nat} (hh : h.Encodes env)
    (hr : h.writeHandler env ec n = .ok h') : h'.Encodes env := by
  simp only [Handling.writeHandler] at hr
  split at hr
  · split at hr
    · exact (hh.onto _).doWrite hr
    · obtain rfl := Except.ok.inj hr
      exact hh
  · split at hr
    · exact hh.socketError hr
    · obtain rfl := Except.ok.inj hr
      exact hh

end Handling

theorem OpKind.deliver_encodes {kind : OpKind} {c : FrontConn} {ec : ErrorCode}
    {data : ByteString} {env : Env} {h : Handling} (hr : kind.deliver c ec data env = .ok h) :
    h.Encodes env := by
  have hnil : ∀ c : FrontConn, Handling.Encodes env ⟨c, []⟩ := fun _ _ hmem => nomatch hmem
  cases kind with
  | readHead =>
      simp only [deliver] at hr
      split at hr
      · split at hr
        · cases hr
        split at hr
        · cases hr
        · exact (hnil _).readHeadHandler (mapError_eq_ok hr)
      · exact (hnil _).readHeadHandler (mapError_eq_ok hr)
  | readBody offset len =>
      simp only [deliver] at hr
      split at hr
      · cases hr
      split at hr
      · cases hr
      · exact (hnil _).readBodyHandler (mapError_eq_ok hr)
  | write w =>
      simp only [deliver] at hr
      split at hr
      · cases hr
      · exact (hnil _).writeHandler (mapError_eq_ok hr)

def Op.write? (op : Op) : Option WriteOp :=
  match op.kind with
  | .write w => some w
  | _ => none

def Effect.filled? : Effect → Option ByteString
  | .fill enc => some enc
  | _ => none

namespace Session

def writes (x : Session) : List WriteOp := x.ops.filterMap Op.write?

/-- The replies that have been encoded, in their order, whether
they have been sent or not. -/
def filled (x : Session) : List ByteString := x.trace.filterMap Effect.filled?

end Session

/-- The bytes that a move puts on the wire: those by which one
of the writes has grown. -/
def sentBy (m : Move Session Event) : ByteString :=
  match m.label with
  | .complete _ _ _ _ => []
  | .send i n =>
    match m.pre.ops[i]?.bind Op.write? with
    | some w => m.pre.conn.pWrite.slice (w.offset + w.wire.length) n
    | none => []

/-- The replies so far: all of them are on the wire, or the last one is being
written and the others are there. -/
structure Streams (start : Session) (wire : ByteString) (x : Session) (replies : List Response) :
    Prop where
  filled : x.filled = start.filled ++ replies.map Response.bytes
  plain : ∀ r ∈ replies, r.Plain
  wire : x.writes = [] ∧ wire = replies.flatMap Response.bytes ∨
    ∃ w front r, x.writes = [w] ∧ replies = front ++ [r] ∧ w.reply = r.bytes ∧
      wire = front.flatMap Response.bytes ++ w.wire
  uncancelled : ∀ op ∈ x.ops, op.cancelled = false

section Step

variable {x x' start : Session} {wire : ByteString} {replies : List Response} {sock : SockId}

theorem Op.write?_of_isRead {op : Op} (h : op.isRead = true) : op.write? = none := by
  obtain ⟨kind, sock, cancelled⟩ := op
  cases kind with
  | write w => cases h
  | readHead => rfl
  | readBody offset len => rfl

theorem filterMap_write?_eq_nil {ops : List Op} (h : ∀ op ∈ ops, op.isRead = true) :
    ops.filterMap Op.write? = [] :=
  List.filterMap_eq_nil_iff.mpr fun op hop => Op.write?_of_isRead (h op hop)

theorem filterMap_filled?_calls {calls : List Effect} (h : ∀ e ∈ calls, e.isCall = true) :
    calls.filterMap Effect.filled? = [] := by
  refine List.filterMap_eq_nil_iff.mpr fun e he => ?_
  have hcall := h e he
  cases e <;> first | rfl | cases hcall

theorem Session.Started.streams (h : x.Started sock) : Streams x [] x [] := by
  refine ⟨(List.append_nil _).symm, nofun, .inl ⟨?_, rfl⟩, ?_⟩
  · rw [Session.writes, h.ops]
    rfl
  · rw [h.ops]
    simp

/-- An outstanding write is the only one, and sends the last reply
from its first byte on. -/
theorem Streams.of_write {front back : List Op} {op : Op} {w : WriteOp}
    (h : Streams start wire x replies) (hops : x.ops = front ++ op :: back)
    (hw : op.write? = some w) :
    front.filterMap Op.write? = [] ∧ back.filterMap Op.write? = [] ∧
      ∃ before r, replies = before ++ [r] ∧ w.reply = r.bytes ∧
        wire = before.flatMap Response.bytes ++ w.wire := by
  have hwrites : x.writes = front.filterMap Op.write? ++ w :: back.filterMap Op.write? := by
    rw [Session.writes, hops, List.filterMap_append, List.filterMap_cons_some hw]
  obtain ⟨hnone, -⟩ | ⟨w', before, r, hone, hreplies, hreply, hwire⟩ := h.wire
  · rw [hwrites] at hnone
    simp at hnone
  · rw [hwrites] at hone
    cases hf : front.filterMap Op.write? with
    | nil =>
        rw [hf] at hone
        obtain ⟨rfl, hback⟩ := List.cons.inj hone
        exact ⟨rfl, hback, before, r, hreplies, hreply, hwire⟩
    | cons _ _ =>
        rw [hf] at hone
        simp at hone

/-- A handler that answers, alone, adds a reply. The wire has
all the others by then. -/
private theorem streams_answer {i : Nat} {ec : ErrorCode} {data : ByteString} {env : Env} {op : Op}
    {effects : List Effect} (h : Streams start wire x replies) (hx : x.Ok)
    (hworking : x.conn.stats = .working) (hc : Completes x i op ec data x' effects)
    (hans : op.kind.exit x.conn ec data = .answer)
    (halone : ∀ o ∈ x.ops.eraseIdx i, o.isRead = true)
    (hencodes : Handling.Encodes env ⟨x'.conn, effects⟩) (htrim : Trimmed env.date)
    (hline : OneLine env.date) : ∃ replies', Streams start wire x' replies' := by
  obtain ⟨front, back, hops, herase, -⟩ := split_of_getElem? hc.found
  have hafter := hc.ops _ (hx.sock op (List.mem_of_getElem? hc.found))
  rw [hans] at hafter
  obtain ⟨calls, reply, hcalls, -, heffects, hops', -⟩ := hafter
  rw [if_pos hworking] at hops' heffects
  obtain ⟨r, hdate, hstatus, rfl⟩ := hencodes reply (by rw [heffects]; simp)
  have hread := Op.isRead_of_exit (.inl hans)
  have hnone : x.writes = [] := by
    refine filterMap_write?_eq_nil fun o ho => ?_
    rw [hops, List.mem_append, List.mem_cons] at ho
    rw [herase] at halone
    obtain ho | rfl | ho := ho
    · exact halone o (List.mem_append_left _ ho)
    · exact hread
    · exact halone o (List.mem_append_right _ ho)
  have hwire : wire = replies.flatMap Response.bytes := by
    obtain ⟨-, hwire⟩ | ⟨w, -, -, hw, -⟩ := h.wire
    · exact hwire
    · rw [hnone] at hw
      cases hw
  refine ⟨replies ++ [r], ?_, ?_, .inr ⟨.issued x'.conn.pWrite.storage r.bytes, replies, r,
    ?_, rfl, rfl, ?_⟩, ?_⟩
  · have hmore : x'.filled = x.filled ++ [r.bytes] := by
      rw [Session.filled, hc.trace, List.filterMap_append, heffects, List.filterMap_append,
        filterMap_filled?_calls hcalls]
      rfl
    rw [hmore, h.filled, List.append_assoc, List.map_append]
    rfl
  · refine List.forall_mem_append.mpr ⟨h.plain, List.forall_mem_singleton.mpr ?_⟩
    exact ⟨hdate ▸ htrim, hdate ▸ hline, hstatus⟩
  · rw [Session.writes, hops', List.filterMap_append, filterMap_write?_eq_nil halone]
    rfl
  · rw [hwire, WriteOp.issued, List.append_nil]
  · rw [hops']
    refine List.forall_mem_append.mpr ⟨fun o ho => ?_, by simp⟩
    exact h.uncancelled o (List.mem_of_mem_eraseIdx ho)

private theorem streams_wait {i : Nat} {ec : ErrorCode} {data : ByteString} {op : Op}
    {effects : List Effect} (h : Streams start wire x replies) (hx : x.Ok)
    (hc : Completes x i op ec data x' effects)
    (hwait : op.kind.exit x.conn ec data = .wait) : Streams start wire x' replies := by
  obtain ⟨front, back, hops, herase, -⟩ := split_of_getElem? hc.found
  have hafter := hc.ops _ (hx.sock op (List.mem_of_getElem? hc.found))
  rw [hwait, herase] at hafter
  obtain ⟨calls, offset, len, hcalls, -, heffects, hops'⟩ := hafter
  have hread := Op.write?_of_isRead (Op.isRead_of_exit (.inr hwait))
  have hwrites : x'.writes = x.writes := by
    rw [Session.writes, Session.writes, hops', hops, List.filterMap_append, List.filterMap_append,
      List.filterMap_append, List.filterMap_cons_none hread]
    split
    · exact List.append_nil _
    · exact List.append_nil _
  refine ⟨?_, h.plain, hwrites ▸ h.wire, ?_⟩
  · rw [← h.filled, Session.filled, hc.trace, List.filterMap_append, heffects,
      List.filterMap_append, filterMap_filled?_calls hcalls, Session.filled]
    split
    · exact List.append_nil _
    · exact List.append_nil _
  · rw [hops']
    refine List.forall_mem_append.mpr ⟨fun o ho => h.uncancelled o ?_, fun o ho => ?_⟩
    · rw [hops]
      exact (List.mem_append.mp ho).elim (List.mem_append_left _)
        fun ho => List.mem_append_right _ (List.mem_cons_of_mem _ ho)
    · split at ho
      · rw [List.mem_singleton.mp ho]
      · cases ho

private theorem streams_quiet {i : Nat} {ec : ErrorCode} {data : ByteString} {env : Env} {op : Op}
    {effects : List Effect} (h : Streams start wire x replies) (hx : x.Ok) (hheld : x.Held)
    (hc : Completes x i op ec data x' effects)
    (hr : x.react (.complete i ec data env) = .ok (x', effects))
    (hquiet : op.kind.exit x.conn ec data = .quiet) : Streams start wire x' replies := by
  obtain ⟨front, back, hops, herase, -⟩ := split_of_getElem? hc.found
  have hafter := hc.ops _ (hx.sock op (List.mem_of_getElem? hc.found))
  rw [hquiet, herase] at hafter
  obtain ⟨rfl, hops'⟩ := hafter
  obtain ⟨w, hw⟩ := Op.exists_write (Op.isRead_of_quiet hquiet)
  have hwrite : op.write? = some w := by rw [Op.write?, hw]
  -- a write that was not cancelled ends with its whole range on the wire
  have hsuccess : ec = .success := by
    have hlive : ec ≠ .operationAborted := by
      intro haborted
      have hcancelled := hc.aborted haborted
      rw [h.uncancelled op (List.mem_of_getElem? hc.found)] at hcancelled
      cases hcancelled
    rw [hw] at hquiet
    change writeExit ec w.wire.length = .quiet at hquiet
    rw [writeExit] at hquiet
    split at hquiet
    next hok => exact hok.1
    · cases hquiet
  have hdeliver := react_complete_deliver hc.found hr
  rw [hw, hsuccess] at hdeliver
  obtain ⟨-, hlen, -⟩ := deliver_write hdeliver
  obtain ⟨hfaith, -⟩ := hheld op (List.mem_of_getElem? hc.found) w hw
  have hall : w.wire = w.reply := hfaith.wire.eq_of_length (hlen.trans hfaith.len)
  obtain ⟨hfront, hback, before, r, hreplies, hreply, hwire⟩ := h.of_write hops hwrite
  refine ⟨?_, h.plain, .inl ⟨?_, ?_⟩, ?_⟩
  · rw [← h.filled, Session.filled, hc.trace, List.append_nil, Session.filled]
  · rw [Session.writes, hops', List.filterMap_append, hfront, hback]
    rfl
  · rw [hwire, hall, hreply, hreplies, List.flatMap_append, List.flatMap_singleton]
  · rw [hops']
    intro o ho
    refine h.uncancelled o ?_
    rw [hops]
    exact (List.mem_append.mp ho).elim (List.mem_append_left _)
      fun ho => List.mem_append_right _ (List.mem_cons_of_mem _ ho)

private theorem streams_send {i n : Nat} {effects : List Effect}
    (h : Streams start wire x replies) (hr : x.react (.send i n) = .ok (x', effects)) :
    Streams start (wire ++ sentBy ⟨x, .send i n, x'⟩) x' replies := by
  obtain ⟨-, w, sock, hop, -, -, rfl⟩ := react_send hr
  obtain ⟨front, back, hops, -, hset⟩ := split_of_getElem? hop
  have hsent : ∀ t, sentBy ⟨x, .send i n, t⟩ =
      x.conn.pWrite.slice (w.offset + w.wire.length) n := by
    intro t
    simp only [sentBy, hop, Option.bind_some]
    rfl
  rw [hsent]
  obtain ⟨hfront, hback, before, r, hreplies, hreply, hwire⟩ := h.of_write hops rfl
  set more := x.conn.pWrite.slice (w.offset + w.wire.length) n
  refine ⟨h.filled, h.plain,
    .inr ⟨{ w with wire := w.wire ++ more }, before, r, ?_, hreplies, hreply, ?_⟩, ?_⟩
  · rw [Session.writes, hset, List.filterMap_append, hfront]
    exact congrArg (fun ws => [] ++ _ :: ws) hback
  · rw [hwire, List.append_assoc]
  · rw [hset]
    intro o ho
    obtain ho | ho := List.mem_append.mp ho
    · exact h.uncancelled o (hops ▸ List.mem_append_left _ ho)
    · obtain rfl | ho := List.mem_cons.mp ho
      · rfl
      · exact h.uncancelled o (hops ▸ List.mem_append_right _ (List.mem_cons_of_mem _ ho))

/-- The step lemma of the stream. One case for each exit of a handler, and one
for the bytes that go out. -/
private theorem streams_step {a : Event} (h : Streams start wire x replies) (hx : x.Ok)
    (hheld : x.Held) (hworking : x.conn.stats = .working) (halone : AnswersAlone ⟨x, a, x'⟩)
    (hdate : ∀ i ec data env, a = .complete i ec data env → Trimmed env.date ∧ OneLine env.date)
    (hs : x.step a = .ok x') (hworking' : x'.conn.stats = .working) :
    ∃ replies', Streams start (wire ++ sentBy ⟨x, a, x'⟩) x' replies' := by
  obtain ⟨effects, hr⟩ := step_eq_ok hs
  cases a with
  | complete i ec data env =>
      obtain ⟨op, hc⟩ := react_complete hx.wSize hr
      rw [show sentBy ⟨x, .complete i ec data env, x'⟩ = [] from rfl, List.append_nil]
      have hexit := hc.exit
      cases hkind : op.kind.exit x.conn ec data with
      | answer =>
          obtain ⟨htrim, hline⟩ := hdate i ec data env rfl
          have hencodes := OpKind.deliver_encodes (react_complete_deliver hc.found hr)
          refine streams_answer h hx hworking hc hkind (fun o ho => ?_) hencodes htrim hline
          by_contra hwrite
          refine halone ⟨o, ho, Bool.not_eq_true _ ▸ hwrite⟩ i ec data env op rfl hc.found hkind
      | wait => exact ⟨replies, streams_wait h hx hc hkind⟩
      | fail =>
          rw [hkind] at hexit
          cases hworking'.symm.trans hexit.stats
      | quiet => exact ⟨replies, streams_quiet h hx hheld hc hr hkind⟩
  | send i n => exact ⟨replies, streams_send h hr⟩

end Step

/-- The run lemma of the stream, from a connection
that has just been started. -/
theorem streams_of_run {x y : Session} {sock : SockId} {moves : List (Move Session Event)}
    (hx : x.Started sock) (hr : Run Session.step x moves y)
    (halone : ∀ m ∈ moves, AnswersAlone m)
    (hworking : ∀ u, Visits moves y u → u.conn.stats = .working)
    (hdate : ∀ m ∈ moves, ∀ i ec data env, m.label = .complete i ec data env →
      Trimmed env.date ∧ OneLine env.date) :
    y.Held ∧ ∃ replies, Streams x (moves.flatMap sentBy) y replies := by
  suffices (y.Ok ∧ y.conn.stats = .working) ∧ y.Held ∧
    ∃ replies, Streams x (moves.flatMap sentBy) y replies from this.2
  induction hr with
  | nil => exact ⟨⟨hx.ok, hx.stats⟩, hx.held, [], hx.streams⟩
  | @snoc moves y a z _ hs ih =>
      have hmem : ⟨y, a, z⟩ ∈ moves ++ [⟨y, a, z⟩] := by simp
      have hlast := hworking z (.inl rfl)
      obtain ⟨⟨hok, hstats⟩, hheld, replies, h⟩ :=
        ih (fun m hm => halone m (List.mem_append_left _ hm))
          (fun u hu => hworking u (.inr (hu.elim (fun hu => ⟨_, hmem, hu⟩)
            fun ⟨m, hm, hu⟩ => ⟨m, List.mem_append_left _ hm, hu⟩)))
          fun m hm => hdate m (List.mem_append_left _ hm)
      refine ⟨⟨hok.react (step_eq_ok hs).choose_spec, hlast⟩,
        held_step hok hheld (halone _ hmem) hs, ?_⟩
      rw [List.flatMap_append, List.flatMap_singleton]
      exact streams_step h hok hheld hstats (halone _ hmem) (hdate _ hmem) hs hlast

/-- What is on the wire reads as the contents of the replies; the last one may
be incomplete, and is then not read. -/
theorem Streams.reads {start y : Session} {wire : ByteString} {replies : List Response}
    (h : Streams start wire y replies) (hheld : y.Held) :
    ∃ k rest, (∀ contents rest', Reads Reply.decode wire contents rest' ↔
        contents = (replies.take k).map Response.content ∧ rest' = rest) ∧
      replies.length ≤ k + 1 ∧ (y.writes = [] → replies.length ≤ k ∧ rest = []) := by
  have hunique : ∀ {words rest}, Reads Reply.decode wire words rest →
      ∀ contents rest', Reads Reply.decode wire contents rest' ↔
        contents = words ∧ rest' = rest := by
    intro words rest hread contents rest'
    refine ⟨hread.unique, ?_⟩
    rintro ⟨rfl, rfl⟩
    exact hread
  obtain ⟨-, hwire⟩ | ⟨w, front, r, hone, rfl, hreply, hwire⟩ := h.wire
  · have hread := Reply.delimited.reads h.plain
    rw [← hwire] at hread
    refine ⟨replies.length, [], ?_, Nat.le_succ _, fun _ => ⟨Nat.le_refl _, rfl⟩⟩
    rw [List.take_length]
    exact hunique hread
  · obtain ⟨hplain, hlast⟩ := List.forall_mem_append.mp h.plain
    have hr' : r.Plain := hlast r (List.mem_singleton_self r)
    have hne : y.writes ≠ [] := by
      rw [hone]
      exact List.cons_ne_nil _ _
    by_cases hwhole : w.wire = r.bytes
    · -- the write has sent everything and has not completed yet
      have hread : Reads Reply.decode ((front ++ [r]).flatMap Response.bytes)
          ((front ++ [r]).map Response.content) [] := Reply.delimited.reads h.plain
      rw [List.flatMap_append, List.flatMap_singleton, ← hwhole, ← hwire] at hread
      refine ⟨(front ++ [r]).length, [], ?_, Nat.le_succ _, fun hnil => absurd hnil hne⟩
      rw [List.take_length]
      exact hunique hread
    · have hmem : w ∈ y.writes := hone ▸ List.mem_singleton_self w
      obtain ⟨op, hop, hw⟩ := List.mem_filterMap.mp hmem
      have hkind : op.kind = .write w := by
        rw [Op.write?] at hw
        split at hw
        next hk => rw [hk, Option.some.inj hw]
        · cases hw
      have hpart : w.wire <+: r.bytes := hreply ▸ (hheld op hop w hkind).1.wire
      have hread := Reply.delimited.reads_append hplain
        (Reply.delimited.eq_none_of_prefix hr' hpart hwhole)
      rw [← hwire] at hread
      refine ⟨front.length, w.wire, ?_, by simp, fun hnil => absurd hnil hne⟩
      rw [List.take_left]
      exact hunique hread

/-- While a connection works and answers nothing during an earlier write, its
client reads the contents of the replies off the wire, in their order and each
exactly once; only the reply that is being written may still be missing. -/
theorem replies_read_back {x y : Session} {sock : SockId} {moves : List (Move Session Event)}
    (hx : x.Started sock) (hr : Run Session.step x moves y)
    (halone : ∀ m ∈ moves, AnswersAlone m)
    (hworking : ∀ u, Visits moves y u → u.conn.stats = .working)
    (hdate : ∀ m ∈ moves, ∀ i ec data env, m.label = .complete i ec data env →
      Trimmed env.date ∧ OneLine env.date) :
    ∃ replies : List Response, y.filled = x.filled ++ replies.map Response.bytes ∧
      ∃ k rest, (∀ contents rest', Reads Reply.decode (moves.flatMap sentBy) contents rest' ↔
          contents = (replies.take k).map Response.content ∧ rest' = rest) ∧
        replies.length ≤ k + 1 ∧ (y.writes = [] → replies.length ≤ k ∧ rest = []) := by
  obtain ⟨hheld, replies, h⟩ := streams_of_run hx hr halone hworking hdate
  exact ⟨replies, h.filled, h.reads hheld⟩

/-- The connection works, and the operation that completes is
outstanding with reads only. -/
def Smooth (x : Session) : Event → Prop
  | .complete i _ _ _ => x.conn.stats = .working ∧ ∀ op ∈ x.ops.eraseIdx i, op.isRead = true
  | .send _ _ => x.conn.stats = .working

instance : ∀ x e, Decidable (Smooth x e)
  | _, .complete _ _ _ _ => inferInstanceAs (Decidable (_ ∧ _))
  | _, .send _ _ => inferInstanceAs (Decidable (_ = _))

/-- Two requests, each sent after the reply to the one before it, and the
second reply sent in part. -/
def twoReplies : List Event :=
  [.complete 0 .success (ofString "GET /a HTTP/1.1\r\n\r\n") (.refusing 0), .send 0 266,
    .complete 0 .success [] (.refusing 0),
    .complete 0 .success (ofString "GET /b HTTP/1.1\r\n\r\n") (.refusing 0), .send 0 100]

private theorem twoReplies_env {i : Nat} {ec : ErrorCode} {data : ByteString} {env : Env} :
    ∀ e ∈ twoReplies, e = .complete i ec data env → env = .refusing 0 := by
  intro e he heq
  rw [twoReplies] at he
  obtain rfl | rfl | rfl | rfl | rfl : e = _ ∨ e = _ ∨ e = _ ∨ e = _ ∨ e = _ := by simpa using he
  all_goals
    cases heq
  all_goals rfl

theorem run_of_started_guarded (guard : Session → Event → Prop) [∀ x e, Decidable (guard x e)]
    (sock : SockId) (env : Env) (events : List Event) (p : Session → Prop)
    (h : Reaches (((Session.started sock env).mapError Stop.fault).bind fun x =>
      exec (guarded guard Session.step) x events) p) :
    ∃ x moves y, x.Started sock ∧ Run Session.step x moves y ∧
      (∀ m ∈ moves, guard m.pre m.label) ∧ moves.map Move.label = events ∧ p y := by
  cases hx : Session.started sock env with
  | error =>
      rw [hx] at h
      cases h
  | ok x =>
      rw [hx] at h
      obtain ⟨moves, y, hr, hl, hp⟩ := run_of_reaches _ _ _ h
      obtain ⟨hr, hguard⟩ := hr.of_guarded
      exact ⟨x, moves, y, Session.started_spec hx, hr, hguard, hl, hp⟩

/-- A client has one reply and waits for the rest of another. -/
theorem replies_read_back_two : ∃ x y moves, x.Started 7 ∧ Run Session.step x moves y ∧
    y.filled.length = 2 ∧ y.writes ≠ [] ∧
    ∃ replies : List Response, y.filled = x.filled ++ replies.map Response.bytes ∧
      ∃ k rest, (∀ contents rest', Reads Reply.decode (moves.flatMap sentBy) contents rest' ↔
          contents = (replies.take k).map Response.content ∧ rest' = rest) ∧
        replies.length ≤ k + 1 ∧ (y.writes = [] → replies.length ≤ k ∧ rest = []) := by
  obtain ⟨x, moves, y, hx, hr, hsmooth, hlabels, hworking, htwo, hwrites⟩ :=
    run_of_started_guarded Smooth 7 (.refusing 0) twoReplies
      (fun y => y.conn.stats = .working ∧ y.filled.length = 2 ∧ y.writes ≠ []) (by decide +kernel)
  refine ⟨x, y, moves, hx, hr, htwo, hwrites, replies_read_back hx hr ?_ ?_ ?_⟩
  · rintro m hm ⟨op, hop, hwrite⟩ i ec data env _ hlabel - -
    have hreads := hsmooth m hm
    rw [hlabel] at hreads hop
    cases (hreads.2 op hop).symm.trans hwrite
  · rintro u (rfl | ⟨m, hm, rfl⟩)
    · exact hworking
    · have hstats := hsmooth m hm
      cases hl : m.label with
      | complete _ _ _ _ =>
          rw [hl] at hstats
          exact hstats.1
      | send _ _ =>
          rw [hl] at hstats
          exact hstats
  · intro m hm i ec data env hlabel
    have hmem : m.label ∈ twoReplies := hlabels ▸ List.mem_map_of_mem hm
    rw [twoReplies_env _ hmem hlabel]
    decide +kernel

end Ailawd
