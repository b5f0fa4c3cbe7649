import Ailawd.Connection.Reactions

/-!
# Responses on a keep-alive connection

Every reply path calls `do_write` and then `start` at once, so the next request is
read while the reply is still being sent from the same buffer. The bytes on the
wire are the encoded replies exactly as long as no request is answered while an
earlier write is outstanding; a client that does not wait for its reply breaks
this with its second request.

The invariant is that the buffer still holds the text of every outstanding write.
-/

namespace Ailawd

open ByteString Transition

/-- The bytes on the wire are a prefix of the encoded reply, and the
write covers all of it. -/
structure WriteOp.Faithful (w : WriteOp) : Prop where
  len : w.len = w.reply.length
  wire : w.wire <+: w.reply

/-- The operations that stay outstanding during an event, so all but
the one that completes. -/
def besides (x : Session) : Event → List Op
  | .complete i _ _ _ => x.ops.eraseIdx i
  | .send _ _ => x.ops

/-- A write other than the one that completes is
outstanding, and reads the buffer. -/
def WriteOutstanding (m : Move Session Event) : Prop :=
  ∃ op ∈ besides m.pre m.label, op.isRead = false

/-- One move keeps the replies intact: what is on the wire belongs to the
reply of its write and is all of it when the write completes, and while a
write is outstanding the buffer is neither written nor resized and no write
is issued. -/
structure ResponseIntact (m : Move Session Event) : Prop where
  wire : ∀ op ∈ m.post.ops, ∀ w, op.kind = .write w → w.Faithful
  completed : ∀ i data env op w, m.label = .complete i .success data env →
    m.pre.ops[i]? = some op → op.kind = .write w → w.wire = w.reply
  kept : WriteOutstanding m → m.post.conn.pWrite = m.pre.conn.pWrite ∧
    ∀ e ∈ m.post.trace.drop m.pre.trace.length,
      (∀ reply, e ≠ .fill reply) ∧ ∀ offset len, e ≠ .asyncWrite offset len

/-- No completion that answers is handled while another write is outstanding.
It looks at the state before and at the completion only. -/
def AnswersAlone (m : Move Session Event) : Prop :=
  WriteOutstanding m → ∀ i ec data env op, m.label = .complete i ec data env →
    m.pre.ops[i]? = some op → op.kind.exit m.pre.conn ec data ≠ .answer

/-- The buffer still holds the text of every outstanding write, at its first
byte and in the storage it was started on. -/
def Session.Held (x : Session) : Prop :=
  ∀ op ∈ x.ops, ∀ w, op.kind = .write w → w.Faithful ∧ w.offset = 0 ∧
    w.storage = x.conn.pWrite.storage ∧ x.conn.pWrite.slice 0 w.len = w.reply

theorem Session.Started.held {x : Session} {sock : SockId} (h : x.Started sock) : x.Held := by
  simp [Session.Held, h.ops]

section Step

variable {x x' : Session}

private theorem WriteOp.Faithful.issued (storage : Nat) (reply : ByteString) :
    (WriteOp.issued storage reply).Faithful := ⟨rfl, List.nil_prefix⟩

private theorem kind_cancel {ops : List Op} {sock : SockId} {op : Op}
    (h : op ∈ ops.map fun op => if op.sock = sock then { op with cancelled := true } else op) :
    ∃ op' ∈ ops, op'.kind = op.kind := by
  obtain ⟨op', hop', rfl⟩ := List.mem_map.mp h
  exact ⟨op', hop', by split <;> rfl⟩

private theorem isRead_of_kind {op : Op} {w : WriteOp} (h : op.kind = .write w) :
    op.isRead = false := by
  rw [Op.isRead]
  rw [h]

/-- An exit that does not answer leaves the buffer and
the other writes alone. -/
private theorem complete_kept {i : Nat} {op : Op} {ec : ErrorCode} {data : ByteString}
    {effects : List Effect} (hx : x.Ok) (hc : Completes x i op ec data x' effects)
    (hne : op.kind.exit x.conn ec data ≠ .answer) :
    x'.conn.pWrite = x.conn.pWrite ∧
      (∀ o ∈ x'.ops, ∀ w, o.kind = .write w → ∃ o' ∈ x.ops.eraseIdx i, o'.kind = .write w) ∧
      ∀ e ∈ effects, (∀ reply, e ≠ .fill reply) ∧ ∀ offset len, e ≠ .asyncWrite offset len := by
  have hcall : ∀ e : Effect, e.isCall = true →
      (∀ reply, e ≠ .fill reply) ∧ ∀ offset len, e ≠ .asyncWrite offset len := by
    intro e he
    cases e <;> simp_all [Effect.isCall]
  have hafter := hc.ops _ (hx.sock op (List.mem_of_getElem? hc.found))
  have hexit := hc.exit
  cases hkind : op.kind.exit x.conn ec data with
  | answer => exact absurd hkind hne
  | wait =>
      rw [hkind] at hafter hexit
      obtain ⟨calls, offset, len, hcalls, -, rfl, hops⟩ := hafter
      refine ⟨hexit.pWrite, fun o ho w hw => ?_, fun e he => ?_⟩
      · rw [hops] at ho
        rcases List.mem_append.mp ho with ho | ho
        · exact ⟨o, ho, hw⟩
        · split at ho <;> simp at ho
          simp [ho] at hw
      · rcases List.mem_append.mp he with he | he
        · exact hcall e (hcalls e he)
        · split at he <;> simp at he
          simp [he]
  | fail =>
      rw [hkind] at hafter hexit
      obtain ⟨calls, hcalls, rfl, hops⟩ := hafter
      refine ⟨hexit.pWrite, fun o ho w hw => ?_, fun e he => ?_⟩
      · rw [hops] at ho
        obtain ⟨o', ho', hk⟩ := kind_cancel ho
        exact ⟨o', ho', hk.trans hw⟩
      · rcases List.mem_append.mp he with he | he
        · exact hcall e (hcalls e he)
        · simp at he
          rcases he with rfl | rfl | rfl | rfl <;> simp
  | quiet =>
      rw [hkind] at hafter hexit
      obtain ⟨rfl, hops⟩ := hafter
      exact ⟨hexit.2.2.2.1, fun o ho w hw => ⟨o, hops ▸ ho, hw⟩, by simp⟩

/-- The step lemma of the buffer invariant. Only an answer writes to the
buffer, and it is alone. -/
theorem held_step {a : Event} (hx : x.Ok) (hheld : x.Held)
    (halone : AnswersAlone ⟨x, a, x'⟩) (hs : x.step a = .ok x') : x'.Held := by
  obtain ⟨effects, hr⟩ := step_eq_ok hs
  cases a with
  | complete i ec data env =>
      obtain ⟨op, hc⟩ := react_complete hx.wSize hr
      by_cases hans : op.kind.exit x.conn ec data = .answer
      · have hnone : ∀ o ∈ x.ops.eraseIdx i, o.isRead = true := by
          intro o ho
          by_contra hread
          exact halone ⟨o, ho, by simpa using hread⟩ i ec data env op rfl hc.found hans
        have hafter := hc.ops _ (hx.sock op (List.mem_of_getElem? hc.found))
        rw [hans] at hafter
        obtain ⟨calls, reply, -, hpos, -, hops, hslice⟩ := hafter
        intro o ho w hw
        rw [hops] at ho
        rcases List.mem_append.mp ho with ho | ho
        · exact absurd (hnone o ho) (by simp [isRead_of_kind hw])
        · rcases List.mem_append.mp ho with ho | ho
          · split at ho
            · obtain rfl := List.mem_singleton.mp ho
              obtain rfl := OpKind.write.inj hw
              exact ⟨.issued _ _, rfl, rfl, hslice⟩
            · cases ho
          · obtain rfl := List.mem_singleton.mp ho
            cases hw
      · obtain ⟨hwrite, hops, -⟩ := complete_kept hx hc hans
        intro o ho w hw
        obtain ⟨o', ho', hw'⟩ := hops o ho w hw
        rw [hwrite]
        exact hheld o' (List.mem_of_mem_eraseIdx ho') w hw'
  | send i n =>
      obtain ⟨-, w, sock, hop, hn, hstorage, rfl⟩ := react_send hr
      obtain ⟨hfaith, hoff, -, hslice⟩ := hheld _ (List.mem_of_getElem? hop) w rfl
      intro o ho w' hw'
      rcases List.mem_or_eq_of_mem_set ho with ho | rfl
      · exact hheld o ho w' hw'
      · obtain rfl := OpKind.write.inj hw'
        refine ⟨⟨hfaith.len, ?_⟩, hoff, hstorage, hslice⟩
        have htake : w.wire = x.conn.pWrite.slice 0 w.wire.length := by
          rw [← CharVec.take_slice x.conn.pWrite 0 w.len w.wire.length (by omega), hslice]
          exact List.prefix_iff_eq_take.mp hfaith.wire
        have hgrow : w.wire ++ x.conn.pWrite.slice (w.offset + w.wire.length) n =
            x.conn.pWrite.slice 0 (w.wire.length + n) := by
          rw [CharVec.slice_add, ← htake, hoff]
        change w.wire ++ x.conn.pWrite.slice (w.offset + w.wire.length) n <+: w.reply
        rw [hgrow, ← hslice, ← CharVec.take_slice x.conn.pWrite 0 w.len _ hn]
        exact List.take_prefix _ _

end Step

/-- In a run from a started connection, the replies are intact exactly when no
request is answered while an earlier write is outstanding. -/
theorem responses_intact_iff {x y : Session} {sock : SockId} {moves : List (Move Session Event)}
    (hx : x.Started sock) (hr : Run Session.step x moves y) :
    (∀ m ∈ moves, ResponseIntact m) ↔ ∀ m ∈ moves, AnswersAlone m := by
  constructor
  · intro hintact m hm hout i ec data env op hlabel hfound hans
    have hok := hx.ok.pre hr hm
    obtain ⟨effects, hreact⟩ := step_eq_ok (hr.step_of_mem m hm)
    rw [hlabel] at hreact
    obtain ⟨op', hc⟩ := react_complete hok.wSize hreact
    obtain rfl : op' = op := Option.some.inj (hc.found.symm.trans hfound)
    have hafter := hc.ops _ (hok.sock op' (List.mem_of_getElem? hfound))
    rw [hans] at hafter
    obtain ⟨calls, reply, -, -, heff, -⟩ := hafter
    refine ((hintact m hm).kept hout).2 (.fill reply) ?_ |>.1 reply rfl
    rw [hc.trace, List.drop_left, heff]
    simp
  · intro halone m hm
    have hok := hx.ok.pre hr hm
    have hheld : m.pre.Held := by
      refine (hr.invariant_of_mem (I := fun s => s.Ok ∧ s.Held) halone ⟨hx.ok, hx.held⟩ ?_ m hm).2
      intro s a t ⟨hs, hh⟩ ha hst
      exact ⟨hs.react (step_eq_ok hst).choose_spec, held_step hs hh ha hst⟩
    have hstep := hr.step_of_mem m hm
    have hpost : m.post.Held := held_step hok hheld (halone m hm) hstep
    refine ⟨fun o ho w hw => (hpost o ho w hw).1, ?_, ?_⟩
    · intro i data env op w hlabel hfound hw
      obtain ⟨hfaith, -⟩ := hheld op (List.mem_of_getElem? hfound) w hw
      have hlen : w.wire.length = w.len := by
        obtain ⟨effects, hreact⟩ := step_eq_ok hstep
        rw [hlabel] at hreact
        have hdeliver := react_complete_deliver hfound hreact
        rw [hw] at hdeliver
        exact (deliver_write hdeliver).2.1
      exact hfaith.wire.eq_of_length (hlen.trans hfaith.len)
    · intro hout
      obtain ⟨effects, hreact⟩ := step_eq_ok hstep
      cases hlabel : m.label with
      | complete i ec data env =>
          rw [hlabel] at hreact
          obtain ⟨op, hc⟩ := react_complete hok.wSize hreact
          have hne := halone m hm hout i ec data env op hlabel hc.found
          obtain ⟨hwrite, -, heff⟩ := complete_kept hok hc hne
          exact ⟨hwrite, by rw [hc.trace, List.drop_left]; exact heff⟩
      | send i n =>
          rw [hlabel] at hreact
          obtain ⟨-, w, sock, -, -, -, hpost⟩ := react_send hreact
          simp [hpost]

theorem responses_intact_iff_one_request : ∃ x y moves, x.Started 7 ∧
    Run Session.step x moves y ∧ moves.length = 3 ∧
    ((∀ m ∈ moves, ResponseIntact m) ↔ ∀ m ∈ moves, AnswersAlone m) := by
  obtain ⟨x, moves, y, hx, hr, hl, -⟩ := run_of_started_reaches 7 (.refusing 0)
    [.complete 0 .success (ofString "GET /a HTTP/1.1\r\n\r\n") (.refusing 0),
      .send 0 266, .complete 0 .success [] (.refusing 0)] (fun _ => True) (by decide +kernel)
  exact ⟨x, y, moves, hx, hr, by simpa using congrArg List.length hl,
    responses_intact_iff hx hr⟩

private def Session.hasForeignBytes (y : Session) : Bool :=
  y.ops.any fun op => match op.kind with
    | .write w => !w.wire.isPrefixOf w.reply
    | _ => false

/-- Two requests in one segment: the first reply's buffer is overwritten by the
second before any byte of it is sent, and its write sends the second reply. -/
theorem pipelined_requests_share_buffer : ∃ x y moves, x.Started 7 ∧
    Run Session.step x moves y ∧ ¬ ∀ m ∈ moves, ResponseIntact m := by
  obtain ⟨x, moves, y, hx, hr, hl, hforeign⟩ := run_of_started_reaches 7 (.refusing 0)
    [.complete 0 .success
        (ofString "GET /a HTTP/1.1\r\n\r\nPOST /b HTTP/1.1\r\n\r\n") (.refusing 0),
      .complete 1 .success [] (.refusing 0), .send 0 100]
    (fun y => y.hasForeignBytes = true) (by decide +kernel)
  refine ⟨x, y, moves, hx, hr, fun hintact => ?_⟩
  obtain ⟨m, hm, rfl⟩ := hr.exists_last (by rintro rfl; simp at hl)
  obtain ⟨op, hop, hw⟩ := List.any_eq_true.mp hforeign
  split at hw
  next w hkind =>
    have hwire := ((hintact m hm).wire op hop w hkind).wire
    simp [List.isPrefixOf_iff_prefix.mpr hwire] at hw
  next => cases hw

end Ailawd
