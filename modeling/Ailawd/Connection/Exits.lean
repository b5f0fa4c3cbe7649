import Ailawd.Model.Session

/-!
# The exits of the completion handlers

Every completion handler leaves through one of four exits: it answers and starts
over, it waits for more of the body, it reports the connection as failed, or (only
the write handler) it changes nothing but its offsets. Which one is taken is a
function of the object and of the completion, `OpKind.exit`; what each exit does
is stated once here. Properties of a connection are derived from these statements
and never from the handlers themselves.
-/

namespace Ailawd

open ByteString HttpProto Transition

inductive ExitKind where
  | answer
  | wait
  | fail
  | quiet
  deriving DecidableEq, Repr

/-- The exit of `read_body_handler`. A success of zero bytes
counts as an error there. -/
def bodyExit (c : FrontConn) (ec : ErrorCode) (n : Nat) : ExitKind :=
  if ec = .success ∧ n ≠ 0 then
    if c.rSize + n < c.parser.contentLength then .wait else .answer
  else if ec ≠ .operationAborted then .fail else .answer

/-- The exit of `read_head_handler` for an accepted request whose head is
followed by `additional` bytes: an empty body is passed on as a completion of
zero bytes. -/
def acceptedExit (p : HttpParser) (additional : Nat) : ExitKind :=
  if additional < p.contentLength then .wait else if additional = 0 then .fail else .answer

def headExit (c : FrontConn) (ec : ErrorCode) (n : Nat) : ExitKind :=
  if ec = .success ∧ n ≠ 0 then
    match c.parser.parseRequest c.request with
    | (parsed, p) =>
      if parsed && p.isPost && p.acceptsUri then acceptedExit p (c.request.drop n).length
      else .answer
  else if ec ≠ .operationAborted then .fail else .answer

def writeExit (ec : ErrorCode) (n : Nat) : ExitKind :=
  if ec = .success ∧ n ≠ 0 then .quiet else if ec ≠ .operationAborted then .fail else .quiet

/-- The exit that the completion of an operation takes. It depends on the
object as it is before, on the code and on the bytes. -/
def OpKind.exit (kind : OpKind) (c : FrontConn) (ec : ErrorCode) (data : ByteString) : ExitKind :=
  match kind with
  | .readHead => headExit { c with request := c.request ++ data } ec
      (if ec = .success then ((find crlf2 (c.request ++ data)).map (· + 4)).getD 0 else 0)
  | .readBody _ _ => bodyExit c ec data.length
  | .write w => writeExit ec w.wire.length

/-- Effects that only record a call, for the statements
that speak of these calls. -/
def Effect.isCall : Effect → Bool
  | .parse _ | .analyse _ => true
  | _ => false

/-- The part of a handler before its exit: calls, and changes to the receiving
side of the object. -/
structure Quiet (h h' : Handling) : Prop where
  effects : ∃ calls, (∀ e ∈ calls, e.isCall = true) ∧ h'.effects = h.effects ++ calls
  stats : h'.conn.stats = h.conn.stats
  sock : h'.conn.pSock = h.conn.pSock
  pWrite : h'.conn.pWrite = h.conn.pWrite
  wSize : h'.conn.wSize = h.conn.wSize
  wPos : h'.conn.wPos = h.conn.wPos

/-- `write_return`: the encoded text is sent if the connection is working, then
a new head read is started whatever the status was. -/
structure Answered (h h' : Handling) : Prop where
  effects : ∃ calls reply, (∀ e ∈ calls, e.isCall = true) ∧ 0 < reply.length ∧
    h'.effects = h.effects ++ (calls ++ ([.fill reply] ++
      ((if h.conn.stats = .working then [.asyncWrite 0 reply.length] else []) ++
        [.asyncReadUntil]))) ∧
    h'.conn.pWrite.slice 0 reply.length = reply
  stats : h'.conn.stats = .working
  sock : h'.conn.pSock = h.conn.pSock
  some_sock : ∃ s, h.conn.pSock = some s
  rSize : h'.conn.rSize = 0
  wSize : h'.conn.wSize = 0
  wPos : h'.conn.wPos = 0

/-- `do_read_body`: the rest of the body is read if the connection is
working. Nothing is sent. -/
structure Waiting (h h' : Handling) : Prop where
  effects : ∃ calls offset len, (∀ e ∈ calls, e.isCall = true) ∧ 0 < len ∧
    h'.effects = h.effects ++ (calls ++
      (if h.conn.stats = .working then [.asyncRead offset len] else []))
  stats : h'.conn.stats = h.conn.stats
  sock : h'.conn.pSock = h.conn.pSock
  some_sock : h.conn.stats = .working → ∃ s, h.conn.pSock = some s
  pWrite : h'.conn.pWrite = h.conn.pWrite
  wSize : h'.conn.wSize = h.conn.wSize
  wPos : h'.conn.wPos = h.conn.wPos

/-- `notify_conn_error` after shutting the socket down and cancelling it, so
what is outstanding will be aborted. -/
structure Failed (h h' : Handling) : Prop where
  effects : ∃ calls, (∀ e ∈ calls, e.isCall = true) ∧
    h'.effects = h.effects ++ (calls ++ [.shutdown, .cancel, .pushToRemove, .notifyOne])
  stats : h'.conn.stats = .error
  sock : h'.conn.pSock = h.conn.pSock
  some_sock : ∃ s, h.conn.pSock = some s
  pWrite : h'.conn.pWrite = h.conn.pWrite
  wSize : h'.conn.wSize = 0
  wPos : h'.conn.wPos = h.conn.wPos

def Exit : ExitKind → Handling → Handling → Prop
  | .answer => Answered
  | .wait => Waiting
  | .fail => Failed
  | .quiet => fun h h' => h'.effects = h.effects ∧ h'.conn.stats = h.conn.stats ∧
      h'.conn.pSock = h.conn.pSock ∧ h'.conn.pWrite = h.conn.pWrite ∧
      h'.conn.wSize = 0 ∧ (h.conn.wPos = 0 → h'.conn.wPos = 0)

theorem Quiet.refl (h : Handling) : Quiet h h := ⟨⟨[], by simp⟩, rfl, rfl, rfl, rfl, rfl⟩

theorem Quiet.trans {h₁ h₂ h₃ : Handling} (a : Quiet h₁ h₂) (b : Quiet h₂ h₃) : Quiet h₁ h₃ := by
  obtain ⟨c₁, hc₁, he₁⟩ := a.effects
  obtain ⟨c₂, hc₂, he₂⟩ := b.effects
  refine ⟨⟨c₁ ++ c₂, ?_, by rw [he₂, he₁, List.append_assoc]⟩, b.stats.trans a.stats,
    b.sock.trans a.sock, b.pWrite.trans a.pWrite, b.wSize.trans a.wSize, b.wPos.trans a.wPos⟩
  intro e he
  exact (List.mem_append.mp he).elim (hc₁ e) (hc₂ e)

private theorem calls_append {c₁ c₂ : List Effect} (h₁ : ∀ e ∈ c₁, e.isCall = true)
    (h₂ : ∀ e ∈ c₂, e.isCall = true) : ∀ e ∈ c₁ ++ c₂, e.isCall = true := fun e he =>
  (List.mem_append.mp he).elim (h₁ e) (h₂ e)

theorem Answered.of_quiet {h₁ h₂ h₃ : Handling} (q : Quiet h₁ h₂) (a : Answered h₂ h₃) :
    Answered h₁ h₃ := by
  obtain ⟨c₁, hc₁, he₁⟩ := q.effects
  obtain ⟨c₂, reply, hc₂, hpos, he₂, hw⟩ := a.effects
  refine ⟨⟨c₁ ++ c₂, reply, calls_append hc₁ hc₂, hpos, ?_, hw⟩, a.stats, a.sock.trans q.sock,
    q.sock ▸ a.some_sock, a.rSize, a.wSize, a.wPos⟩
  rw [he₂, he₁, q.stats]
  simp only [List.append_assoc]

theorem Waiting.of_quiet {h₁ h₂ h₃ : Handling} (q : Quiet h₁ h₂) (a : Waiting h₂ h₃) :
    Waiting h₁ h₃ := by
  obtain ⟨c₁, hc₁, he₁⟩ := q.effects
  obtain ⟨c₂, offset, len, hc₂, hpos, he₂⟩ := a.effects
  refine ⟨⟨c₁ ++ c₂, offset, len, calls_append hc₁ hc₂, hpos, ?_⟩, a.stats.trans q.stats,
    a.sock.trans q.sock, fun hs => q.sock ▸ a.some_sock (q.stats.trans hs),
    a.pWrite.trans q.pWrite, a.wSize.trans q.wSize, a.wPos.trans q.wPos⟩
  rw [he₂, he₁, q.stats]
  simp only [List.append_assoc]

theorem Failed.of_quiet {h₁ h₂ h₃ : Handling} (q : Quiet h₁ h₂) (a : Failed h₂ h₃) :
    Failed h₁ h₃ := by
  obtain ⟨c₁, hc₁, he₁⟩ := q.effects
  obtain ⟨c₂, hc₂, he₂⟩ := a.effects
  refine ⟨⟨c₁ ++ c₂, calls_append hc₁ hc₂, by rw [he₂, he₁]; simp only [List.append_assoc]⟩,
    a.stats, a.sock.trans q.sock, q.sock ▸ a.some_sock, a.pWrite.trans q.pWrite, a.wSize,
    a.wPos.trans q.wPos⟩

theorem Exit.of_quiet {kind : ExitKind} {h₁ h₂ h₃ : Handling} (e : Exit kind h₂ h₃)
    (hkind : kind ≠ .quiet) (q : Quiet h₁ h₂) : Exit kind h₁ h₃ := by
  cases kind with
  | answer => exact Answered.of_quiet q e
  | wait => exact Waiting.of_quiet q e
  | fail => exact Failed.of_quiet q e
  | quiet => exact absurd rfl hkind

theorem acceptedExit_ne_quiet (p : HttpParser) (additional : Nat) :
    acceptedExit p additional ≠ .quiet := by
  rw [acceptedExit]
  split
  · decide
  · split <;> decide

namespace Handling

variable {env : Env} {h h' : Handling}

theorem withSocket_eq_ok {e : Effect} (hw : h.withSocket e = .ok h') :
    (∃ s, h.conn.pSock = some s) ∧ h' = h.emit e := by
  simp only [withSocket] at hw
  split at hw
  · cases hw
  next s hs => exact ⟨⟨s, hs⟩, (Except.ok.inj hw).symm⟩

theorem doReadBody_exit (hr : h.doReadBody env = .ok h')
    (hlt : h.conn.rSize < h.conn.parser.contentLength) : Waiting h h' := by
  have hpos : 0 < sizeSub h.conn.parser.contentLength h.conn.rSize := by
    rw [sizeSub_of_le (Nat.le_of_lt hlt) (sizeT_lt _)]
    omega
  simp only [doReadBody] at hr
  split at hr
  next hs =>
    obtain rfl := Except.ok.inj hr
    exact ⟨⟨[], 0, 1, by simp, Nat.one_pos, by simp [hs]⟩, rfl, rfl, fun hw => absurd hw hs, rfl,
      rfl, rfl⟩
  next hs =>
    obtain ⟨hsock, rfl⟩ := withSocket_eq_ok hr
    have hs : h.conn.stats = .working := by simpa using hs
    exact ⟨⟨[], _, _, by simp, hpos, by rw [if_pos hs]; rfl⟩, rfl, rfl, fun _ => hsock, rfl, rfl,
      rfl⟩

theorem socketError_exit (hr : h.socketError = .ok h') : Failed h h' := by
  simp only [socketError] at hr
  split at hr
  · cases hr
  next h₁ h₁eq =>
    obtain ⟨hsock, rfl⟩ := withSocket_eq_ok h₁eq
    split at hr
    · cases hr
    next h₂ h₂eq =>
      obtain ⟨-, rfl⟩ := withSocket_eq_ok h₂eq
      obtain rfl := Except.ok.inj hr
      exact ⟨⟨[], by simp, by simp [notifyConnError, emit]⟩, rfl, rfl, hsock, rfl, rfl, rfl⟩

theorem start_eq_ok (hr : h.start env = .ok h') : (∃ s, h.conn.pSock = some s) ∧
    h' = { conn := { h.conn with stats := .working, rSize := 0, wSize := 0, wPos := 0,
                                  touchTime := env.now },
           effects := h.effects ++ [.asyncReadUntil] } := by
  simp only [start, setStats, doReadHead, ne_eq, not_true_eq_false, if_false] at hr
  obtain ⟨hsock, rfl⟩ := withSocket_eq_ok hr
  exact ⟨hsock, rfl⟩

/-- `do_write` lets nothing through, or has passed its two
assertions and started one write. -/
theorem doWrite_cases (hr : h.doWrite env = .ok h') : (h.conn.stats ≠ .working ∧ h' = h) ∨
    (h.conn.stats = .working ∧ 0 < h.conn.wSize ∧ h.conn.wPos < h.conn.wSize ∧
      h' = (h.touchSockTime env).emit
        (.asyncWrite h.conn.wPos (h.conn.wSize - h.conn.wPos))) := by
  simp only [doWrite] at hr
  split at hr
  next hs => exact .inl ⟨hs, (Except.ok.inj hr).symm⟩
  next hs =>
    split at hr
    · cases hr
    next hsize =>
      split at hr
      · cases hr
      next hpos =>
        obtain ⟨-, rfl⟩ := withSocket_eq_ok hr
        exact .inr ⟨not_not.mp hs, Nat.pos_of_ne_zero hsize, not_not.mp hpos, rfl⟩

theorem doWrite_eq_ok (hr : h.doWrite env = .ok h') (hpos : h.conn.wPos = 0) :
    h'.conn.stats = h.conn.stats ∧ h'.conn.pSock = h.conn.pSock ∧
      h'.conn.pWrite = h.conn.pWrite ∧ h'.effects = h.effects ++
        (if h.conn.stats = .working then [.asyncWrite 0 h.conn.wSize] else []) := by
  obtain ⟨hs, rfl⟩ | ⟨hs, -, -, rfl⟩ := doWrite_cases hr
  · exact ⟨rfl, rfl, rfl, by simp [hs]⟩
  · exact ⟨rfl, rfl, rfl, by simp [hs, emit, touchSockTime, hpos]⟩

/-- Filling the write buffer and leaving through `write_return` is an answer,
whatever the handler still does to the receiving side in between. -/
theorem writeReturn_exit {content status : ByteString} {g : Handling}
    (q : Quiet (h.fillForHttp env content status) g)
    (he : g.effects = (h.fillForHttp env content status).effects)
    (hr : g.writeReturn env = .ok h') : Answered h h' := by
  set reply := Reply.replyGenerate env.date content status with hreply
  have hpos : 0 < reply.length := Reply.replyGenerate_length_pos _ _ _
  have hslice : g.conn.pWrite.slice 0 reply.length = reply := by
    rw [q.pWrite]
    simp only [fillForHttp, ← hreply]
    rw [CharVec.slice_write_prefix _ _ _ (by simp), List.take_left' rfl]
  have hgstats : g.conn.stats = h.conn.stats := q.stats
  have hgsock : g.conn.pSock = h.conn.pSock := q.sock
  have hgsize : g.conn.wSize = reply.length := q.wSize
  simp only [writeReturn] at hr
  split at hr
  · cases hr
  next g' hg' =>
    obtain ⟨hstats', hsock', hwrite', heff'⟩ := doWrite_eq_ok hg' q.wPos
    obtain ⟨hsome, rfl⟩ := start_eq_ok hr
    rw [hsock', hgsock] at hsome
    refine ⟨⟨[], reply, by simp, hpos, ?_, hwrite'.symm ▸ hslice⟩, rfl, hsock'.trans hgsock,
      hsome, rfl, rfl, rfl⟩
    simp only [heff', he, hgsize, hgstats, fillForHttp, ← hreply, List.append_assoc,
      List.nil_append]

theorem errorReturn_exit (hr : h.errorReturn env = .ok h') : Answered h h' :=
  writeReturn_exit (.refl _) rfl hr

theorem errorReturnHead_exit (hr : h.errorReturnHead env = .ok h') : Answered h h' := by
  set g := h.fillForHttp env contentError Status.internalServerError with hg
  have hq : Quiet g { g with conn := { g.conn with request := [], rSize := 0 } } :=
    ⟨⟨[], by simp⟩, rfl, rfl, rfl, rfl, rfl⟩
  exact writeReturn_exit hq rfl hr

/-- `analyse_handler` either leaves the sending side alone or has filled it,
and tells its caller which. -/
theorem analyseHandler_eq_ok {b : Bool} (hr : h.analyseHandler env = .ok (b, h')) :
    (b = false ∧ Quiet h h') ∨
      ∃ g text, b = true ∧ Quiet h g ∧ h' = g.fillForHttp env text Status.ok := by
  have hquiet : Quiet h (h.emit (.analyse (h.conn.pBuffer.slice 0 h.conn.rSize))) :=
    ⟨⟨[_], by simp [Effect.isCall], rfl⟩, rfl, rfl, rfl, rfl, rfl⟩
  rw [analyseHandler] at hr
  split at hr
  · cases hr
  · simp only at hr
    split at hr
    · cases hr
    · obtain ⟨rfl, rfl⟩ := Prod.mk.inj (Except.ok.inj hr)
      exact .inl ⟨rfl, hquiet⟩
    next text _ =>
      obtain ⟨rfl, rfl⟩ := Prod.mk.inj (Except.ok.inj hr)
      exact .inr ⟨_, text, rfl, hquiet, rfl⟩

theorem readBodyHandler_exit {ec : ErrorCode} {n : Nat}
    (hr : h.readBodyHandler env ec n = .ok h') : Exit (bodyExit h.conn ec n) h h' := by
  rw [readBodyHandler] at hr
  rw [bodyExit]
  split at hr
  next hok =>
    rw [if_pos hok]
    simp only at hr
    set g : Handling := { h with conn := { h.conn with rSize := h.conn.rSize + n } }
    have hq : Quiet h g := ⟨⟨[], by simp [g]⟩, rfl, rfl, rfl, rfl, rfl⟩
    split at hr
    next hlt =>
      rw [if_pos (show h.conn.rSize + n < _ from hlt)]
      exact Waiting.of_quiet hq (doReadBody_exit hr hlt)
    next hlt =>
      rw [if_neg (show ¬ h.conn.rSize + n < _ from hlt)]
      split at hr
      · split at hr
        · cases hr
        next g' hg' =>
          rcases analyseHandler_eq_ok hg' with ⟨hb, -⟩ | ⟨k, text, -, hk, rfl⟩
          · cases hb
          · exact Answered.of_quiet (hq.trans hk) (writeReturn_exit (.refl _) rfl hr)
        next g' hg' =>
          rcases analyseHandler_eq_ok hg' with ⟨-, hk⟩ | ⟨k, text, hb, -⟩
          · exact Answered.of_quiet (hq.trans hk) (errorReturn_exit hr)
          · cases hb
      · exact Answered.of_quiet hq (writeReturn_exit (.refl _) rfl hr)
  next hok =>
    rw [if_neg hok]
    split at hr
    next hne => exact (if_pos hne) ▸ socketError_exit hr
    next hne => exact (if_neg hne) ▸ errorReturn_exit hr

theorem growBuffer_quiet {len : Nat} (hr : h.growBuffer len = .ok h') : Quiet h h' := by
  simp only [growBuffer] at hr
  split at hr
  · split at hr
    · cases hr
    · obtain rfl := Except.ok.inj hr
      exact ⟨⟨[], by simp⟩, rfl, rfl, rfl, rfl, rfl⟩
  · obtain rfl := Except.ok.inj hr
    exact .refl _

theorem growBuffer_conn {len : Nat} (hr : h.growBuffer len = .ok h') :
    h'.conn.parser = h.conn.parser ∧ h'.conn.request = h.conn.request ∧
      h'.conn.rSize = h.conn.rSize := by
  simp only [growBuffer] at hr
  split at hr
  · split at hr
    · cases hr
    · obtain rfl := Except.ok.inj hr
      exact ⟨rfl, rfl, rfl⟩
  · obtain rfl := Except.ok.inj hr
    exact ⟨rfl, rfl, rfl⟩

theorem takeAdditional_quiet (hr : h.takeAdditional = .ok h') : Quiet h h' := by
  simp only [takeAdditional] at hr
  split at hr
  · obtain rfl := Except.ok.inj hr
    exact .refl _
  · split at hr
    · cases hr
    · obtain rfl := Except.ok.inj hr
      exact ⟨⟨[], by simp⟩, rfl, rfl, rfl, rfl, rfl⟩

theorem takeAdditional_conn (hr : h.takeAdditional = .ok h') :
    h'.conn.parser = h.conn.parser ∧ h'.conn.request = [] ∧ h'.conn.rSize = h.conn.rSize := by
  simp only [takeAdditional] at hr
  split at hr
  next hnil =>
    obtain rfl := Except.ok.inj hr
    exact ⟨rfl, hnil, rfl⟩
  · split at hr
    · cases hr
    · obtain rfl := Except.ok.inj hr
      exact ⟨rfl, rfl, rfl⟩

theorem receiveBody_exit (hr : h.receiveBody env = .ok h') :
    Exit (acceptedExit h.conn.parser h.conn.request.length) h h' := by
  rw [receiveBody] at hr
  simp only at hr
  set g : Handling := { h with conn := { h.conn with rSize := 0 } }
  have hq : Quiet h g := ⟨⟨[], by simp [g]⟩, rfl, rfl, rfl, rfl, rfl⟩
  split at hr
  · cases hr
  split at hr
  · cases hr
  next g₁ hg₁ =>
  split at hr
  · cases hr
  next g₂ hg₂ =>
  have hq₂ : Quiet h g₂ := (hq.trans (growBuffer_quiet hg₁)).trans (takeAdditional_quiet hg₂)
  have hparser : g₂.conn.parser = h.conn.parser :=
    (takeAdditional_conn hg₂).1.trans (growBuffer_conn hg₁).1
  have hsize : g₂.conn.rSize = 0 :=
    (takeAdditional_conn hg₂).2.2.trans (growBuffer_conn hg₁).2.2
  rw [acceptedExit]
  split at hr
  next hlt =>
    rw [if_pos hlt]
    refine Waiting.of_quiet (hq₂.trans ?_) (doReadBody_exit hr (hparser ▸ hlt))
    exact ⟨⟨[], by simp⟩, rfl, rfl, rfl, rfl, rfl⟩
  next hlt =>
    rw [if_neg hlt]
    have hexit := readBodyHandler_exit hr
    rw [bodyExit] at hexit
    by_cases hz : h.conn.request.length = 0
    · rw [if_pos hz]
      rw [if_neg (by simp [hz]), if_pos (by simp)] at hexit
      exact Failed.of_quiet hq₂ hexit
    · rw [if_neg hz]
      rw [if_pos ⟨rfl, hz⟩, hparser, hsize, if_neg (by omega)] at hexit
      exact Answered.of_quiet hq₂ hexit

theorem readHeadHandler_exit {ec : ErrorCode} {n : Nat}
    (hr : h.readHeadHandler env ec n = .ok h') : Exit (headExit h.conn ec n) h h' := by
  simp only [readHeadHandler] at hr
  rw [headExit]
  split at hr
  next hok =>
    rw [if_pos hok]
    generalize h.conn.parser.parseRequest h.conn.request = result at hr ⊢
    obtain ⟨parsed, parser⟩ := result
    have hq : Quiet h (Handling.emit { h with conn := { h.conn with
        request := h.conn.request.drop n, parser := parser } } (.parse h.conn.request)) :=
      ⟨⟨[_], by simp [Effect.isCall], rfl⟩, rfl, rfl, rfl, rfl, rfl⟩
    cases hparsed : parsed with
    | false =>
      simp only [hparsed, Bool.not_false, if_true] at hr
      exact (errorReturnHead_exit hr).of_quiet hq
    | true =>
      simp only [hparsed, Bool.not_true, Bool.false_eq_true, if_false] at hr
      cases hpost : parser.isPost with
      | false =>
        simp only [hpost, Bool.not_false, Bool.true_and, Bool.false_and, Bool.false_eq_true,
          if_true, if_false] at hr ⊢
        exact (writeReturn_exit (.refl _) rfl hr).of_quiet hq
      | true =>
        simp only [hpost, Bool.not_true, Bool.false_eq_true, if_false] at hr
        cases huri : parser.acceptsUri with
        | false =>
          simp only [huri, Bool.false_eq_true, Bool.and_false, if_false] at hr ⊢
          exact (writeReturn_exit (.refl _) rfl hr).of_quiet hq
        | true =>
          simp only [hpost, huri, Bool.and_self, if_true] at hr ⊢
          exact (receiveBody_exit hr).of_quiet (acceptedExit_ne_quiet _ _) hq
  next hok =>
    rw [if_neg hok]
    split at hr
    next hne => exact (if_pos hne) ▸ socketError_exit hr
    next hne => exact (if_neg hne) ▸ errorReturnHead_exit hr

theorem writeHandler_exit {ec : ErrorCode} {n : Nat} (hsize : h.conn.wSize = 0)
    (hr : h.writeHandler env ec n = .ok h') : Exit (writeExit ec n) h h' := by
  simp only [writeHandler] at hr
  rw [writeExit]
  split at hr
  next hok =>
    rw [if_pos hok]
    simp only [hsize, Nat.not_lt_zero, if_false] at hr
    obtain rfl := Except.ok.inj hr
    exact ⟨rfl, rfl, rfl, rfl, rfl, fun _ => rfl⟩
  next hok =>
    rw [if_neg hok]
    split at hr
    next hne => exact (if_pos hne) ▸ socketError_exit hr
    next hne =>
      obtain rfl := Except.ok.inj hr
      exact (if_neg hne) ▸ ⟨rfl, rfl, rfl, rfl, hsize, fun h => h⟩

end Handling

end Ailawd
