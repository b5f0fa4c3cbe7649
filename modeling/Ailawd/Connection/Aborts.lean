import Ailawd.Connection.BufferBounds
import Ailawd.Connection.FeedSteps

/-!
# What can stop a completion handler

`AbortCause` lists the events that end the process inside a handler of a connection: more has
been read than the request declares, the declared length is negative, `analyse_handler` does
not survive the body, or a reply has moved while it was being sent. `Session.Placed` says where
the bytes of an outstanding body read go; with it, nothing else can stop a handler, in
particular no assertion of `do_write`.
-/

namespace Ailawd

open ByteString HttpProto Transition

namespace Handling

variable {env : Env} {h g : Handling} {sock : SockId} {f : Fault}

/-- What stops the accepting branch of `read_head_handler`: its assertion, its
two sums, or the analysis of a body that is there already. -/
inductive ReceiveFault (env : Env) (p : HttpParser) (extra : ByteString) : Fault → Prop where
  | surplus : p.contentLength < extra.length → ReceiveFault env p extra .additionalSize
  | negative : p.lengthField < -256 → ReceiveFault env p extra .lengthError
  | wrapped : LengthWraps p.lengthField → ReceiveFault env p extra .outOfBounds
  | analysis {f : Fault} : p.hasUri "/analyse" = true → extra.length = p.contentLength →
      env.analyse extra = .error f → ReceiveFault env p extra f

theorem growBuffer_fault (hr : h.growBuffer h.conn.parser.contentLength = .error f) :
    f = .lengthError ∧ h.conn.parser.lengthField < -256 := by
  have hlow := h.conn.parser.lengthField_lower
  by_cases hneg : h.conn.parser.lengthField < -256
  · refine ⟨?_, hneg⟩
    rw [growBuffer] at hr
    split at hr
    · split at hr
      · exact (Except.error.inj hr).symm
      · cases hr
    · cases hr
  · exfalso
    by_cases hpos : 0 ≤ h.conn.parser.lengthField
    · have hlen := HttpParser.contentLength_of_nonneg hpos
      have hup := h.conn.parser.lengthField_upper
      obtain ⟨g, hg, -⟩ := growBuffer_small (h := h) (n := h.conn.parser.contentLength) (by omega)
      cases hg.symm.trans hr
    · have hlen := HttpParser.contentLength_of_neg (p := h.conn.parser) (by omega)
      rw [growBuffer] at hr
      split at hr
      · rw [if_neg (by simp only [sizeMod, vectorMaxSize]; omega)] at hr
        cases hr
      · cases hr

/-- The buffer holds the announced body and a NUL, unless a sum has wrapped. It
is grown where it did not. -/
theorem growBuffer_room (hr : h.growBuffer h.conn.parser.contentLength = .ok g) :
    h.conn.parser.contentLength + 1 ≤ g.conn.pBuffer.size ∨
      LengthWraps h.conn.parser.lengthField := by
  by_cases hpos : 0 ≤ h.conn.parser.lengthField
  · exact .inl (growBuffer_fits hpos hr)
  by_cases hlow : h.conn.parser.lengthField < -256
  · have hlen := HttpParser.contentLength_of_neg (p := h.conn.parser) (by omega)
    have hsize := growBuffer_size hr
    rw [sizeMod] at hsize
    rw [Nat.mod_eq_of_lt (by omega), Nat.mod_eq_of_lt (by omega)] at hsize
    left
    split at hsize <;> omega
  · exact .inr ⟨by omega, by omega⟩

/-- Only the analysis of a whole body stops `read_body_handler`, or its buffer
does when it is shorter than `r_size_`. -/
theorem readBodyHandler_fault {ec : ErrorCode} {n : Nat} (hsock : h.conn.pSock = some sock)
    (hr : h.readBodyHandler env ec n = .error f) :
    ec = .success ∧ ¬ h.conn.rSize + n < h.conn.parser.contentLength ∧
      h.conn.parser.hasUri "/analyse" = true ∧
      (h.conn.pBuffer.size < h.conn.rSize + n ∧ f = .outOfBounds ∨
        h.conn.rSize + n ≤ h.conn.pBuffer.size ∧
          env.analyse (h.conn.pBuffer.slice 0 (h.conn.rSize + n)) = .error f) := by
  have hanswered : ∀ {g : Handling} {content status : ByteString}, g.conn.pSock = some sock →
      (g.fillForHttp env content status).writeReturn env ≠ .error f := by
    intro g content status hg hr
    obtain ⟨h', hok⟩ := fillForHttp_writeReturn_isOk env hg content status
    cases hok.symm.trans hr
  by_cases hok : ec = .success ∧ n ≠ 0
  · set k : Handling := { h with conn := { h.conn with rSize := h.conn.rSize + n } }
    have hksock : k.conn.pSock = some sock := hsock
    have hkroom : k.conn.pBuffer.size < k.conn.rSize ↔
        h.conn.pBuffer.size < h.conn.rSize + n := Iff.rfl
    rw [readBodyHandler, if_pos hok] at hr
    refine ⟨hok.1, ?_⟩
    by_cases hlt : h.conn.rSize + n < h.conn.parser.contentLength
    · rw [if_pos hlt] at hr
      obtain ⟨h', hread⟩ : ∃ h', doReadBody env k = .ok h' := doReadBody_isOk hksock
      cases hread.symm.trans hr
    refine ⟨hlt, ?_⟩
    rw [if_neg hlt] at hr
    by_cases huri : h.conn.parser.hasUri "/analyse" = true
    · refine ⟨huri, ?_⟩
      rw [if_pos huri] at hr
      by_cases hroom : h.conn.pBuffer.size < h.conn.rSize + n
      · have hbounds : k.analyseHandler env = .error .outOfBounds := by
          rw [analyseHandler, if_pos (hkroom.mpr hroom)]
        rw [hbounds] at hr
        exact .inl ⟨hroom, (Except.error.inj hr).symm⟩
      · refine .inr ⟨Nat.not_lt.mp hroom, ?_⟩
        cases hwork : env.analyse (h.conn.pBuffer.slice 0 (h.conn.rSize + n)) with
        | error e =>
            have hstop : k.analyseHandler env = .error e := by
              rw [analyseHandler, if_neg (fun hc => hroom (hkroom.mp hc))]
              simp only [k, hwork]
            rw [hstop] at hr
            exact congrArg Except.error (Except.error.inj hr)
        | ok text =>
            exfalso
            obtain ⟨b, g, hg, hgsock, hpos⟩ := analyseHandler_isOk (h := k) hksock
              (Nat.not_lt.mp hroom) ⟨text, hwork⟩
            rw [hg] at hr
            cases b with
            | false => exact hanswered hgsock hr
            | true =>
                obtain ⟨h', hok⟩ : ∃ h', writeReturn env g = .ok h' :=
                  writeReturn_isOk hgsock (hpos rfl)
                cases hok.symm.trans hr
    · rw [if_neg huri] at hr
      exact absurd hr (hanswered hksock)
  · exfalso
    rw [readBodyHandler, if_neg hok] at hr
    split at hr
    · obtain ⟨h', hok⟩ := socketError_isOk hsock
      cases hok.symm.trans hr
    · exact hanswered hsock hr

theorem receiveBody_fault (hsock : h.conn.pSock = some sock) (hr : h.receiveBody env = .error f) :
    ReceiveFault env h.conn.parser h.conn.request f := by
  by_cases hadd : h.conn.request.length ≤ h.conn.parser.contentLength
  · cases hg : h.growBuffer h.conn.parser.contentLength with
    | error e =>
        obtain ⟨rfl, hneg⟩ := growBuffer_fault hg
        simp only [receiveBody, growBuffer_reset, hg, Except.map, not_not.mpr hadd, if_false] at hr
        obtain rfl := Except.error.inj hr
        exact .negative hneg
    | ok g =>
        have hroom := growBuffer_room hg
        by_cases hfit : h.conn.request = [] ∨ h.conn.request.length + 1 ≤ g.conn.pBuffer.size
        · obtain ⟨pBuffer, hsize, hslice, heq⟩ := receiveBody_eq env hadd hg hfit
          rw [heq] at hr
          split at hr
          · obtain ⟨h', hok⟩ :
                ∃ h', doReadBody env (h.withInput pBuffer h.conn.request.length) = .ok h' :=
              doReadBody_isOk hsock
            cases hok.symm.trans hr
          next hall =>
            have hlen : h.conn.request.length = h.conn.parser.contentLength := by omega
            obtain ⟨-, -, huri, hbody⟩ :=
              readBodyHandler_fault (h := h.withInput pBuffer 0) hsock hr
            simp only [withInput, Nat.zero_add, hsize, hslice] at huri hbody
            obtain ⟨hbig, rfl⟩ | ⟨-, hwork⟩ := hbody
            · exact .wrapped (hroom.resolve_left (by omega))
            · exact .analysis huri hlen hwork
        · obtain ⟨hne, hbig⟩ := not_or.mp hfit
          obtain ⟨grown, rfl, -⟩ := growBuffer_eq_ok hg
          simp only [receiveBody, growBuffer_reset, hg, Except.map, takeAdditional,
            not_not.mpr hadd, if_false, if_neg hne] at hr
          rw [if_pos (Nat.not_le.mp hbig)] at hr
          obtain rfl := Except.error.inj hr
          change ¬ h.conn.request.length + 1 ≤ grown.size at hbig
          exact .wrapped (hroom.resolve_left (by change ¬ _ ≤ grown.size; omega))
  · rw [receiveBody] at hr
    simp only [hadd, not_false_eq_true, if_true] at hr
    obtain rfl := Except.error.inj hr
    exact .surplus (Nat.not_le.mp hadd)

/-- What stops `read_head_handler` on a text with a head. Only an accepted
request gets that far. -/
inductive HeadFault (env : Env) (c : FrontConn) (extra : ByteString) : Fault → Prop where
  | received {q : HttpParser} {f : Fault} : c.parser.parseRequest c.request = (true, q) →
      q.ReadsBody → ReceiveFault env q extra f → HeadFault env c extra f

theorem readHeadHandler_fault {c : FrontConn} {head extra : ByteString} (hhead : WholeHead head)
    (htext : c.request = head ++ extra) (hsock : c.pSock = some sock)
    (hr : readHeadHandler env .success head.length ⟨c, []⟩ = .error f) :
    HeadFault env c extra f := by
  have hlen := hhead.length
  have hanswered : ∀ {parsed : Bool} {q : HttpParser},
      c.parser.parseRequest c.request = (parsed, q) → ¬ (parsed = true → ¬ q.ReadsBody) := by
    intro parsed q hparse hno
    obtain ⟨h', hok⟩ := readHeadHandler_isOk (n := head.length) env hsock (by omega) hparse hno
    cases hok.symm.trans hr
  cases hparse : c.parser.parseRequest c.request with
  | mk parsed q =>
      obtain ⟨rfl, hreads⟩ := Classical.not_imp.mp (hanswered hparse)
      have hreads := not_not.mp hreads
      rw [readHeadHandler_accepted env hhead htext hparse hreads] at hr
      exact .received hparse hreads
        (receiveBody_fault (h := headParsed c (head ++ extra) extra q) hsock hr)

/-- A read that fails is answered or reported, and neither stops anything. -/
theorem readHeadHandler_failed_isOk {ec : ErrorCode} {n : Nat} (env : Env) (hec : ec ≠ .success)
    (hsock : h.conn.pSock = some sock) : ∃ h', h.readHeadHandler env ec n = .ok h' := by
  rw [readHeadHandler, if_neg (fun hc => hec hc.1)]
  split
  · exact socketError_isOk hsock
  · exact writeReturn_isOk hsock (Reply.replyGenerate_length_pos _ _ _)

/-- No assertion of `do_write` is in the way of `write_handler`: with `w_size_`
at 0 it never finds more to write. -/
theorem writeHandler_isOk {ec : ErrorCode} {n : Nat} (env : Env) (hsize : h.conn.wSize = 0)
    (hsock : h.conn.pSock = some sock) : ∃ h', h.writeHandler env ec n = .ok h' := by
  rw [writeHandler]
  split
  · simp only [hsize, Nat.not_lt_zero, if_false]
    exact ⟨_, rfl⟩
  · split
    · exact socketError_isOk hsock
    · exact ⟨_, rfl⟩

end Handling

/-- A body read ends where the announced body does, inside the buffer unless a
sum has wrapped, and begins where the bytes read so far end, unless a write has
failed since. -/
def Op.Placed (c : FrontConn) (op : Op) : Prop :=
  ∀ offset len, op.kind = .readBody offset len → offset + len = c.parser.contentLength ∧
    (c.parser.contentLength ≤ c.pBuffer.size ∨ LengthWraps c.parser.lengthField) ∧
    (c.rSize = offset ∨ c.rSize = 0 ∧ c.stats ≠ .working)

def Session.Placed (x : Session) : Prop := ∀ op ∈ x.ops, op.Placed x.conn

theorem Op.placed_of_not_read {c : FrontConn} {op : Op} (h : op.isRead = false) : op.Placed c := by
  intro offset len hkind
  obtain ⟨w, hw⟩ := Op.exists_write h
  cases hw.symm.trans hkind

/-- The accepting branch asks for the rest of the body, and the buffer has room
for it unless a sum has wrapped. -/
theorem Handling.receiveBody_placed {env : Env} {h h' : Handling} (hr : h.receiveBody env = .ok h')
    (hlt : h.conn.request.length < h.conn.parser.contentLength) :
    h.conn.parser.contentLength ≤ h'.conn.pBuffer.size ∨
      LengthWraps h.conn.parser.lengthField := by
  obtain ⟨hadd, g, hg, hfit⟩ := receiveBody_fits hr
  obtain ⟨pBuffer, hsize, -, heq⟩ := receiveBody_eq env hadd hg hfit
  rw [heq, if_pos hlt] at hr
  have hbuffer : h'.conn.pBuffer = pBuffer := (doReadBody_keepsInput hr).pBuffer
  rw [hbuffer, hsize]
  apply (growBuffer_room hg).imp_left
  omega

namespace Session

variable {x x' : Session} {i : Nat} {op : Op} {ec : ErrorCode} {data : ByteString} {env : Env}
variable {effects : List Effect}

private theorem success_of_wait {kind : OpKind} {c : FrontConn}
    (h : kind.exit c ec data = .wait) : ec = .success := by
  by_contra hec
  cases kind with
  | readHead =>
      change headExit _ _ _ = _ at h
      rw [headExit, if_neg fun hc => hec hc.1] at h
      split at h <;> cases h
  | readBody offset len =>
      change bodyExit _ _ _ = _ at h
      rw [bodyExit, if_neg fun hc => hec hc.1] at h
      split at h <;> cases h
  | write w => obtain he | he := OpKind.exit_write w c ec data <;> cases he.symm.trans h

/-- The body read that a completed read starts is the one
for the head it has read. -/
theorem Placed.of_read (hok : x.Ok) (h : x.Placed) (hc : Completes x i op ec data x' effects)
    (hr : x.react (.complete i ec data env) = .ok (x', effects)) (hread : op.isRead = true)
    {offset len : Nat} (hreads : x'.Reading (.readBody offset len)) :
    offset + len = x'.conn.parser.contentLength ∧
      (x'.conn.parser.contentLength ≤ x'.conn.pBuffer.size ∨
        LengthWraps x'.conn.parser.lengthField) ∧ x'.conn.rSize = offset := by
  have hd := react_complete_deliver hc.found hr
  have hkind : ∀ w, OpKind.readBody offset len ≠ .write w := by
    rintro w ⟨⟩
  obtain ⟨-, hk⟩ | ⟨hexit, hworking, -⟩ := hc.reads_after hok hread hreads hkind
  · cases hk
  obtain rfl := success_of_wait hexit
  cases hop : op.kind with
  | readHead =>
      rw [hop] at hd
      obtain ⟨j, hj, hhandler⟩ := deliver_readHead hd
      obtain ⟨head, extra, htext, hhead, hlen⟩ := exists_wholeHead hj
      rw [← hlen] at hhandler
      have hsame : op.kind.exit x.conn .success data = headExit
          { x.conn with request := x.conn.request ++ data } .success head.length := by
        rw [hop]
        simp [OpKind.exit, hj, hlen]
      cases Handling.readHeadHandler_outcome hhead htext hhandler with
      | illegible _ hanswer _ => cases hexit.symm.trans (hsame.trans hanswer)
      | rejected _ _ _ hanswer _ => cases hexit.symm.trans (hsame.trans hanswer)
      | @accepted q q' hq hagree hq' haccept hrecv =>
          obtain ⟨hk, -⟩ | ⟨hk, hlt, hrSize, -⟩ :=
            hc.reads_accepted hok hread rfl hagree (hsame.trans haccept) hrecv hreads hkind
          · cases hk
          obtain ⟨rfl, rfl⟩ := OpKind.readBody.inj hk
          have hlen' : q'.contentLength = q.contentLength := hagree.contentLength
          have hparser : x'.conn.parser = q' := (Handling.receiveBody_receives hrecv).2.2.1
          have hroom := Handling.receiveBody_placed hrecv (hlen'.symm ▸ hlt)
          refine ⟨?_, ?_, hrSize⟩
          · rw [hparser, hlen']
            omega
          · rw [hparser]
            exact hroom
  | readBody offset' len' =>
      -- the announced body is there, so a working connection does not wait
      exfalso
      rw [hop] at hd hexit
      obtain ⟨hall, -⟩ := deliver_readBody hd
      obtain ⟨hend, -, hrSize⟩ := h op (List.mem_of_getElem? hc.found) offset' len' hop
      have hstart := hrSize.resolve_right fun hfailed => hfailed.2 hworking
      change bodyExit _ _ _ = _ at hexit
      rw [bodyExit] at hexit
      split at hexit
      · rw [if_neg (by omega)] at hexit
        cases hexit
      · split at hexit <;> cases hexit
  | write w =>
      rw [Op.isRead, hop] at hread
      cases hread

theorem Placed.complete (hok : x.Ok) (h : x.Placed)
    (hr : x.react (.complete i ec data env) = .ok (x', effects)) : x'.Placed := by
  obtain ⟨op, hc⟩ := react_complete hok.wSize hr
  intro o ho offset len hkind
  cases hread : op.isRead with
  | true =>
      obtain ⟨hend, hroom, hstart⟩ := h.of_read hok hc hr hread ⟨o, ho, hkind⟩
      exact ⟨hend, hroom, .inl hstart⟩
  | false =>
      obtain ⟨w, hw⟩ := Op.exists_write hread
      have hafter := hc.ops _ (hok.sock op (List.mem_of_getElem? hc.found))
      obtain hexit | hexit := OpKind.exit_write w x.conn ec data
      · rw [← hw] at hexit
        obtain ⟨hkeep, -⟩ := hok.quiet_undisturbed hc hexit hr
        rw [hexit] at hafter
        have hmem := List.mem_of_mem_eraseIdx (hafter.2 ▸ ho)
        rw [hkeep.parser, hkeep.pBuffer, hkeep.rSize, hkeep.stats]
        exact h o hmem offset len hkind
      · rw [← hw] at hexit
        obtain ⟨-, hkeep, hrSize, hstats⟩ := hc.write_failed hread hexit hr
        have hparser : x'.conn.parser = x.conn.parser := hkeep.parser
        have hbuffer : x'.conn.pBuffer = x.conn.pBuffer := hkeep.pBuffer
        have hreading : x'.Reading (.readBody offset len) := ⟨o, ho, hkind⟩
        obtain ⟨o', ho', hkind'⟩ := hc.reading_of_write hok hexit hreading
        obtain ⟨hend, hroom, -⟩ := h o' ho' offset len hkind'
        rw [hparser, hbuffer, hrSize, hstats]
        exact ⟨hend, hroom, .inr ⟨rfl, by decide⟩⟩

theorem Placed.react {e : Event} (hok : x.Ok) (h : x.Placed)
    (hr : x.react e = .ok (x', effects)) : x'.Placed := by
  cases e with
  | complete i ec data env => exact h.complete hok hr
  | send i n =>
      obtain ⟨-, w, sock, hop, -, -, rfl⟩ := react_send hr
      intro o ho
      obtain ho | rfl := List.mem_or_eq_of_mem_set ho
      · exact h o ho
      · exact Op.placed_of_not_read rfl

theorem Placed.marked (h : x.Placed) :
    ({ x with conn := { x.conn with stats := .error } } : Session).Placed := by
  intro o ho offset len hkind
  obtain ⟨hend, hroom, hstart⟩ := h o ho offset len hkind
  refine ⟨hend, hroom, hstart.imp_right ?_⟩
  rintro ⟨hzero, -⟩
  exact ⟨hzero, by rintro ⟨⟩⟩

theorem placed_of_nil (hops : x.ops = []) : x.Placed := by
  intro o ho
  rw [hops] at ho
  cases ho

theorem Started.placed {sock : SockId} (h : x.Started sock) : x.Placed := by
  intro o ho offset len hkind
  rw [h.ops] at ho
  obtain rfl := List.mem_singleton.mp ho
  cases hkind

structure Accepts (x : Session) (i : Nat) (data : ByteString) (q : HttpParser)
    (extra : ByteString) : Prop where
  reads : ∃ op, x.ops[i]? = some op ∧ op.kind = .readHead
  text : ∃ head, WholeHead head ∧ x.conn.request ++ data = head ++ extra
  parse : x.conn.parser.parseRequest (x.conn.request ++ data) = (true, q)
  readsBody : q.ReadsBody

/-- Everything that stops a handler of a connection, with what the
connection looks like before. -/
inductive AbortCause (x : Session) : Event → Fault → Prop where
  | surplus {i data env q extra} : x.Accepts i data q extra → q.contentLength < extra.length →
      AbortCause x (.complete i .success data env) .additionalSize
  | negative {i data env q extra} : x.Accepts i data q extra → q.lengthField < -256 →
      AbortCause x (.complete i .success data env) .lengthError
  | wrappedHead {i data env q extra} : x.Accepts i data q extra → LengthWraps q.lengthField →
      AbortCause x (.complete i .success data env) .outOfBounds
  | analysisHead {i data env q extra f} : x.Accepts i data q extra →
      q.hasUri "/analyse" = true → extra.length = q.contentLength →
      env.analyse extra = .error f → AbortCause x (.complete i .success data env) f
  | wrappedBody {i op offset len ec data env} : x.ops[i]? = some op →
      op.kind = .readBody offset len → LengthWraps x.conn.parser.lengthField →
      AbortCause x (.complete i ec data env) .outOfBounds
  | analysisBody {i op offset len data env f} :
      x.ops[i]? = some op → op.kind = .readBody offset len →
      x.conn.parser.hasUri "/analyse" = true →
      offset + data.length = x.conn.parser.contentLength →
      env.analyse (x.conn.pBuffer.slice 0 offset ++ data) = .error f →
      AbortCause x (.complete i .success data env) f
  | moved {i w sock n} : x.ops[i]? = some ⟨.write w, sock, false⟩ →
      w.storage ≠ x.conn.pWrite.storage → AbortCause x (.send i n) .useAfterFree

private theorem complete_fault {f : Fault}
    (hr : x.react (.complete i ec data env) = .error (.fault f)) :
    ∃ op, x.ops[i]? = some op ∧ op.kind.deliver x.conn ec data env = .error (.fault f) := by
  simp only [Session.react] at hr
  split at hr
  · cases hr
  next op hop =>
    split at hr
    · cases hr
    · split at hr
      next e he =>
        obtain rfl := Except.error.inj hr
        exact ⟨op, hop, he⟩
      next => cases hr

private theorem react_head_fault {f : Fault} (hok : x.Ok) (hop : x.ops[i]? = some op)
    (hkind : op.kind = .readHead)
    (hd : OpKind.readHead.deliver x.conn .success data env = .error (.fault f)) :
    x.AbortCause (.complete i .success data env) f := by
  have hsock := hok.sock _ (List.mem_of_getElem? hop)
  obtain ⟨head, extra, htext, hhead, hfault⟩ := deliver_readHead_fault hd
  have hcause := Handling.readHeadHandler_fault
    (c := { x.conn with request := x.conn.request ++ data }) hhead htext hsock hfault
  cases hcause with
  | received hparse hreads hreceive =>
      have haccepts : x.Accepts i data _ extra :=
        ⟨⟨op, hop, hkind⟩, ⟨head, hhead, htext⟩, hparse, hreads⟩
      cases hreceive with
      | surplus hlong => exact .surplus haccepts hlong
      | negative hneg => exact .negative haccepts hneg
      | wrapped hwrap => exact .wrappedHead haccepts hwrap
      | analysis huri hlen hwork => exact .analysisHead haccepts huri hlen hwork

private theorem react_body_fault {f : Fault} {offset len : Nat} (hok : x.Ok) (h : x.Placed)
    (hop : x.ops[i]? = some op) (hkind : op.kind = .readBody offset len)
    (hd : (OpKind.readBody offset len).deliver x.conn ec data env = .error (.fault f)) :
    x.AbortCause (.complete i ec data env) f := by
  have hmem := List.mem_of_getElem? hop
  obtain ⟨hend, hroom, hstart⟩ := h op hmem offset len hkind
  simp only [OpKind.deliver] at hd
  split at hd
  · cases hd
  next hdata =>
    obtain ⟨hle, hall⟩ := not_or.mp hdata
    split at hd
    next hbig =>
      cases hd
      exact .wrappedBody hop hkind (hroom.resolve_left (by omega))
    next hfits =>
      have hfault := mapError_eq_fault hd
      obtain ⟨rfl, hcomplete, huri, hbody⟩ := Handling.readBodyHandler_fault
        (h := ⟨{ x.conn with pBuffer := x.conn.pBuffer.write offset data }, []⟩)
        (hok.sock op hmem) hfault
      have hlen : data.length = len := by
        by_contra hne
        exact hall ⟨rfl, hne⟩
      have hoffset : x.conn.rSize = offset := by
        obtain hoffset | ⟨hzero, -⟩ := hstart
        · exact hoffset
        · change ¬ x.conn.rSize + data.length < x.conn.parser.contentLength at hcomplete
          omega
      obtain ⟨hbig, -⟩ | ⟨-, hwork⟩ := hbody
      · simp only [CharVec.write_size] at hbig
        omega
      · refine .analysisBody hop hkind huri (by omega) ?_
        simp only [hoffset] at hwork
        rw [← CharVec.slice_write_append]
        exact hwork

/-- A handler of a connection stops for one of the listed causes only. One case
for each kind of operation. -/
theorem react_fault {e : Event} {f : Fault} (hok : x.Ok) (h : x.Placed)
    (hr : x.react e = .error (.fault f)) : x.AbortCause e f := by
  cases e with
  | complete i ec data env =>
      obtain ⟨op, hop, hd⟩ := complete_fault hr
      have hsock := hok.sock op (List.mem_of_getElem? hop)
      cases hkind : op.kind with
      | readHead =>
          rw [hkind] at hd
          by_cases hec : ec = .success
          · subst hec
            exact react_head_fault hok hop hkind hd
          · exfalso
            simp only [OpKind.deliver, if_neg hec] at hd
            obtain ⟨h', hok'⟩ := Handling.readHeadHandler_failed_isOk (n := 0) env hec
              (h := ⟨{ x.conn with request := x.conn.request ++ data }, []⟩) hsock
            cases hok'.symm.trans (mapError_eq_fault hd)
      | readBody offset len =>
          rw [hkind] at hd
          exact react_body_fault hok h hop hkind hd
      | write w =>
          exfalso
          rw [hkind] at hd
          simp only [OpKind.deliver] at hd
          split at hd
          · cases hd
          · obtain ⟨h', hok'⟩ :
                ∃ h', Handling.writeHandler env ec w.wire.length ⟨x.conn, []⟩ = .ok h' :=
              Handling.writeHandler_isOk env hok.wSize hsock
            cases hok'.symm.trans (mapError_eq_fault hd)
  | send i n =>
      simp only [Session.react] at hr
      split at hr
      next w sock hop =>
        split at hr
        · cases hr
        · split at hr
          next hmoved =>
            cases hr
            exact .moved hop hmoved
          next => cases hr
      next => cases hr

end Session

end Ailawd
