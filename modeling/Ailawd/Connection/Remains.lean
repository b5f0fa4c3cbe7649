import Ailawd.Connection.Reactions
import Ailawd.Connection.Parsing

/-!
# What the handlers never look at

Recycling leaves three things in an object: the parser and the contents of the two buffers.
`Alike` relates two objects that differ in nothing else and agree where it matters: below
`r_size_` in the receive buffer, below `w_size_` in the send buffer, and in the ranges of
the operations that were started. Each member function takes objects that are alike to
objects that are alike, with the same effects, or faults on both.
-/

namespace Ailawd

open ByteString HttpProto Transition

/-- The parts that recycling leaves in place. `conn_wash_white` and
`conn_reset_network` do not touch them. -/
structure Remains where
  pBuffer : CharVec
  pWrite : CharVec
  parser : HttpParser

/-- What two objects agree on because an operation needs it: the range that it
reads, or the text that it sends. -/
def Effect.Backed (rSize : Nat) (a b : Remains) : Effect → Prop
  | .asyncRead offset _ => a.parser = b.parser ∧ rSize ≤ offset ∧
      ∀ i < offset, a.pBuffer.byte i = b.pBuffer.byte i
  | .asyncWrite offset len => ∀ i, offset ≤ i → i < offset + len →
      a.pWrite.byte i = b.pWrite.byte i
  | _ => True

/-- An object with these remains. Everything else about it is the same. -/
def FrontConn.over (c : FrontConn) (a : Remains) : FrontConn :=
  { c with pBuffer := a.pBuffer, pWrite := a.pWrite, parser := a.parser }

/-- Two remains of one object that agree on what it uses; `sent` are the places
in the send buffer that earlier writes still need. -/
structure Alike (sent : Nat → Prop) (c : FrontConn) (effects : List Effect) (a b : Remains) :
    Prop where
  bufferSize : a.pBuffer.size = b.pBuffer.size
  writeSize : a.pWrite.size = b.pWrite.size
  received : ∀ i < c.rSize, a.pBuffer.byte i = b.pBuffer.byte i
  toSend : ∀ i < c.wSize, a.pWrite.byte i = b.pWrite.byte i
  sent : ∀ i, sent i → a.pWrite.byte i = b.pWrite.byte i
  backed : ∀ e ∈ effects, e.Backed c.rSize a b

/-- Outcomes of one handler on two objects that are alike: the same fault, or
objects that are alike again. -/
inductive AlikeResult {ε : Type} (sent : Nat → Prop) :
    Except ε Handling → Except ε Handling → Prop
  | error (e) : AlikeResult sent (.error e) (.error e)
  | ok {c effects a b} : Alike sent c effects a b →
      AlikeResult sent (.ok ⟨c.over a, effects⟩) (.ok ⟨c.over b, effects⟩)

section Alike

variable {sent : Nat → Prop} {c c' : FrontConn} {effects : List Effect} {a b : Remains}

theorem Effect.Backed.mono {e : Effect} {n n' : Nat} (h : e.Backed n a b) (hn : n' ≤ n) :
    e.Backed n' a b := by
  cases e with
  | asyncRead offset len => exact ⟨h.1, Nat.le_trans hn h.2.1, h.2.2⟩
  | _ => exact h

namespace Alike

theorem shrink (h : Alike sent c effects a b) (hr : c'.rSize ≤ c.rSize)
    (hw : c'.wSize ≤ c.wSize) : Alike sent c' effects a b :=
  { h with
    received := fun i hi => h.received i (Nat.lt_of_lt_of_le hi hr)
    toSend := fun i hi => h.toSend i (Nat.lt_of_lt_of_le hi hw)
    backed := fun e he => (h.backed e he).mono hr }

theorem emit {e : Effect} (h : Alike sent c effects a b) (he : e.Backed c.rSize a b) :
    Alike sent c (effects ++ [e]) a b :=
  { h with backed := fun f hf => (List.mem_append.mp hf).elim (h.backed f) fun hf =>
      List.mem_singleton.mp hf ▸ he }

end Alike

end Alike

namespace AlikeResult

variable {ε : Type} {sent : Nat → Prop} {P : Prop} [Decidable P] {r r' t t' : Except ε Handling}

theorem ite (hr : P → AlikeResult sent r r') (ht : ¬ P → AlikeResult sent t t') :
    AlikeResult sent (if P then r else t) (if P then r' else t') := by
  split
  next h => exact hr h
  next h => exact ht h

theorem bind {r r' : Except Fault Handling} {f g : Handling → Except Fault Handling} :
    AlikeResult sent r r' →
    (∀ c effects a b, Alike sent c effects a b →
      AlikeResult sent (f ⟨c.over a, effects⟩) (g ⟨c.over b, effects⟩)) →
    AlikeResult sent
      (match r with
        | .error e => .error e
        | .ok h => f h)
      (match r' with
        | .error e => .error e
        | .ok h => g h) := by
  intro hr hfg
  cases hr with
  | error e => exact .error e
  | ok h => exact hfg _ _ _ _ h

theorem mapError {φ : Type} (f : ε → φ) (h : AlikeResult sent r r') :
    AlikeResult sent (r.mapError f) (r'.mapError f) := by
  cases h with
  | error e => exact .error (f e)
  | ok h => exact .ok h

end AlikeResult

namespace Handling

section Shared

variable {sent : Nat → Prop} {c : FrontConn} {effects : List Effect} {a b : Remains}
variable {e : Effect} (env : Env)

theorem withSocket_alike (h : Alike sent c effects a b) (he : e.Backed c.rSize a b) :
    AlikeResult sent (withSocket ⟨c.over a, effects⟩ e) (withSocket ⟨c.over b, effects⟩ e) := by
  have hsock : (c.over a).pSock = c.pSock ∧ (c.over b).pSock = c.pSock := ⟨rfl, rfl⟩
  simp only [withSocket, hsock]
  cases c.pSock with
  | none => exact .error _
  | some sock => exact .ok (h.emit he)

theorem doReadHead_alike (h : Alike sent c effects a b) :
    AlikeResult sent (doReadHead env ⟨c.over a, effects⟩) (doReadHead env ⟨c.over b, effects⟩) := by
  have htouched : Alike sent { c with touchTime := env.now } effects a b := h.shrink le_rfl le_rfl
  exact .ite (fun _ => .ok h) fun _ => withSocket_alike htouched trivial

theorem start_alike (h : Alike sent c effects a b) :
    AlikeResult sent (start env ⟨c.over a, effects⟩) (start env ⟨c.over b, effects⟩) := by
  have hstart : Alike sent { c with stats := .working, rSize := 0, wSize := 0, wPos := 0 }
      effects a b := h.shrink (Nat.zero_le _) (Nat.zero_le _)
  exact doReadHead_alike env hstart

theorem doReadBody_alike (h : Alike sent c effects a b) (hp : a.parser = b.parser) :
    AlikeResult sent (doReadBody env ⟨c.over a, effects⟩) (doReadBody env ⟨c.over b, effects⟩) := by
  have htouched : Alike sent { c with touchTime := env.now } effects a b := h.shrink le_rfl le_rfl
  have hlength : (c.over b).parser.contentLength = (c.over a).parser.contentLength :=
    congrArg HttpParser.contentLength hp.symm
  refine .ite (fun _ => .ok h) fun _ => ?_
  rw [hlength]
  exact withSocket_alike htouched ⟨hp, le_rfl, h.received⟩

theorem doWrite_alike (h : Alike sent c effects a b) :
    AlikeResult sent (doWrite env ⟨c.over a, effects⟩) (doWrite env ⟨c.over b, effects⟩) := by
  have htouched : Alike sent { c with touchTime := env.now } effects a b := h.shrink le_rfl le_rfl
  have hrange : (Effect.asyncWrite c.wPos (c.wSize - c.wPos)).Backed c.rSize a b := by
    intro i _ hi
    by_cases hpos : c.wPos ≤ c.wSize
    · exact h.toSend i (by omega)
    · omega
  exact .ite (fun _ => .ok h) fun _ => .ite (fun _ => .error _) fun _ =>
    .ite (fun _ => .error _) fun _ => withSocket_alike htouched hrange

theorem socketError_alike (h : Alike sent c effects a b) :
    AlikeResult sent (socketError ⟨c.over a, effects⟩) (socketError ⟨c.over b, effects⟩) := by
  refine (withSocket_alike (e := .shutdown) h trivial).bind fun c effects a b h =>
    (withSocket_alike (e := .cancel) h trivial).bind fun c effects a b h => ?_
  have hfailed : Alike sent { c with rSize := 0, wSize := 0, stats := .error } effects a b :=
    h.shrink (Nat.zero_le _) (Nat.zero_le _)
  have hpush := (hfailed.emit (e := .pushToRemove) trivial).emit (e := .notifyOne) trivial
  rw [List.append_assoc] at hpush
  exact .ok hpush

theorem writeReturn_alike (h : Alike sent c effects a b) :
    AlikeResult sent (writeReturn env ⟨c.over a, effects⟩)
      (writeReturn env ⟨c.over b, effects⟩) :=
  (doWrite_alike env h).bind fun _ _ _ _ h => start_alike env h

/-- A text that was encoded fills the same part of both buffers, whatever was
there and however large they are. -/
theorem fillForHttp_alike (h : Alike sent c effects a b) (content status : ByteString) :
    ∃ c' effects' a' b',
      fillForHttp env content status ⟨c.over a, effects⟩ = ⟨c'.over a', effects'⟩ ∧
      fillForHttp env content status ⟨c.over b, effects⟩ = ⟨c'.over b', effects'⟩ ∧
      Alike sent c' effects' a' b' := by
  set enc := Reply.replyGenerate env.date content status with henc
  have hfill : ∀ r : Remains, fillForHttp env content status ⟨c.over r, effects⟩ =
      ⟨{ c with wSize := enc.length, wPos := 0 }.over { r with
        pWrite := (if enc.length + 1 > r.pWrite.size then r.pWrite.resize (enc.length + 1)
          else r.pWrite).write 0 (enc ++ [0]) }, effects ++ [.fill enc]⟩ := fun _ => rfl
  refine ⟨_, _, _, _, hfill a, hfill b, ?_⟩
  have hkeep : ∀ i, a.pWrite.byte i = b.pWrite.byte i →
      ((if enc.length + 1 > a.pWrite.size then a.pWrite.resize (enc.length + 1)
        else a.pWrite).write 0 (enc ++ [0])).byte i =
      ((if enc.length + 1 > b.pWrite.size then b.pWrite.resize (enc.length + 1)
        else b.pWrite).write 0 (enc ++ [0])).byte i := by
    intro i hi
    apply CharVec.write_byte_congr
    rw [← h.writeSize]
    split
    · exact CharVec.resize_byte_congr _ h.writeSize hi
    · exact hi
  refine ⟨h.bufferSize, ?_, h.received, ?_, fun i hi => hkeep i (h.sent i hi), ?_⟩
  · simp only [CharVec.write_size, ← h.writeSize]
    split
    · rw [CharVec.resize_size, CharVec.resize_size]
    · exact h.writeSize
  · intro i hi
    have hlt : i < enc.length := hi
    refine CharVec.write_byte_of_mem _ _ (Nat.zero_le i) ?_
    rw [List.length_append, List.length_singleton]
    omega
  · intro e he
    obtain he | he := List.mem_append.mp he
    · have hbacked := h.backed e he
      cases e with
      | asyncWrite offset len => exact fun i hlo hhi => hkeep i (hbacked i hlo hhi)
      | _ => exact hbacked
    · rw [List.mem_singleton.mp he]
      trivial

theorem fillAndReturn_alike (h : Alike sent c effects a b) (content status : ByteString) :
    AlikeResult sent ((fillForHttp env content status ⟨c.over a, effects⟩).writeReturn env)
      ((fillForHttp env content status ⟨c.over b, effects⟩).writeReturn env) := by
  obtain ⟨c', effects', a', b', ha, hb, h'⟩ := fillForHttp_alike env h content status
  rw [ha, hb]
  exact writeReturn_alike env h'

theorem errorReturnHead_alike (h : Alike sent c effects a b) :
    AlikeResult sent (errorReturnHead env ⟨c.over a, effects⟩)
      (errorReturnHead env ⟨c.over b, effects⟩) := by
  obtain ⟨c', effects', a', b', ha, hb, h'⟩ :=
    fillForHttp_alike env h contentError Status.internalServerError
  rw [errorReturnHead, ha, errorReturnHead, hb]
  have hdropped : Alike sent { c' with request := [], rSize := 0 } effects' a' b' :=
    h'.shrink (Nat.zero_le _) le_rfl
  exact writeReturn_alike env hdropped

end Shared

section Reads

variable {sent : Nat → Prop} {c : FrontConn} {effects : List Effect} {a b : Remains}
variable {ec : ErrorCode} {n : Nat} (env : Env)

def NoRead (effects : List Effect) : Prop := ∀ offset len, Effect.asyncRead offset len ∉ effects

theorem grow_alike (h : Alike sent c effects a b) (hnone : NoRead effects)
    (hreceived : ∀ i < n, a.pBuffer.byte i = b.pBuffer.byte i) :
    Alike sent { c with rSize := n } effects a b := by
  refine { h with received := hreceived, backed := fun e he => ?_ }
  have hbacked := h.backed e he
  cases e with
  | asyncRead offset len => exact absurd he (hnone offset len)
  | _ => exact hbacked

/-- The body that is analysed is what has been received, on
which both buffers agree. -/
theorem analyseHandler_alike (h : Alike sent c effects a b) :
    (∃ e, analyseHandler env ⟨c.over a, effects⟩ = .error e ∧
      analyseHandler env ⟨c.over b, effects⟩ = .error e) ∨
    ∃ done c' effects' a' b',
      analyseHandler env ⟨c.over a, effects⟩ = .ok (done, ⟨c'.over a', effects'⟩) ∧
      analyseHandler env ⟨c.over b, effects⟩ = .ok (done, ⟨c'.over b', effects'⟩) ∧
      Alike sent c' effects' a' b' := by
  have hslice : b.pBuffer.slice 0 c.rSize = a.pBuffer.slice 0 c.rSize :=
    CharVec.slice_congr _ fun i _ hi => (h.received i (by omega)).symm
  have hbuffer : ∀ r : Remains, (c.over r).pBuffer = r.pBuffer ∧ (c.over r).rSize = c.rSize :=
    fun _ => ⟨rfl, rfl⟩
  simp only [analyseHandler, hbuffer, hslice, h.bufferSize]
  split
  · exact .inl ⟨_, rfl, rfl⟩
  · have hcalled : Alike sent c (effects ++ [.analyse (a.pBuffer.slice 0 c.rSize)]) a b :=
      h.emit trivial
    cases env.analyse (a.pBuffer.slice 0 c.rSize) with
    | error e => exact .inl ⟨e, rfl, rfl⟩
    | ok text =>
        cases text with
        | none => exact .inr ⟨false, _, _, _, _, rfl, rfl, hcalled⟩
        | some text =>
            obtain ⟨c', effects', a', b', ha, hb, h'⟩ :=
              fillForHttp_alike env hcalled text Status.ok
            refine .inr ⟨true, c', effects', a', b', ?_, ?_, h'⟩
            · rw [← ha]
              rfl
            · rw [← hb]
              rfl

theorem analysed_alike (h : Alike sent c effects a b) : AlikeResult sent
    (match analyseHandler env ⟨c.over a, effects⟩ with
      | .error e => .error e
      | .ok (true, h) => h.writeReturn env
      | .ok (false, h) => h.errorReturn env)
    (match analyseHandler env ⟨c.over b, effects⟩ with
      | .error e => .error e
      | .ok (true, h) => h.writeReturn env
      | .ok (false, h) => h.errorReturn env) := by
  obtain ⟨e, ha, hb⟩ | ⟨done, c', effects', a', b', ha, hb, h'⟩ :=
    analyseHandler_alike env h
  · rw [ha, hb]
    exact .error e
  · rw [ha, hb]
    cases done with
    | true => exact writeReturn_alike env h'
    | false => exact fillAndReturn_alike env h' _ _

theorem readBodyHandler_alike (h : Alike sent c effects a b) (hp : a.parser = b.parser)
    (hnone : NoRead effects)
    (hreceived : ∀ i < c.rSize + n, a.pBuffer.byte i = b.pBuffer.byte i) :
    AlikeResult sent (readBodyHandler env ec n ⟨c.over a, effects⟩)
      (readBodyHandler env ec n ⟨c.over b, effects⟩) := by
  have hgrown : Alike sent { c with rSize := c.rSize + n } effects a b :=
    grow_alike h hnone hreceived
  obtain ⟨buffer, pWrite, parser⟩ := b
  obtain rfl : a.parser = parser := hp
  refine .ite (fun _ => ?_) fun _ => .ite (fun _ => socketError_alike h) fun _ =>
    fillAndReturn_alike env h _ _
  exact .ite (fun _ => doReadBody_alike env hgrown rfl) fun _ =>
    .ite (fun _ => analysed_alike env hgrown) fun _ => fillAndReturn_alike env hgrown _ _

/-- Outcomes of a step that changes the receive buffers only; the first `n`
bytes of the results agree. -/
inductive BufferResult (sent : Nat → Prop) (c : FrontConn) (effects : List Effect)
    (a b : Remains) (n : Nat) : Except Fault Handling → Except Fault Handling → Prop
  | error (e) : BufferResult sent c effects a b n (.error e) (.error e)
  | ok {v w} : Alike sent c effects { a with pBuffer := v } { b with pBuffer := w } →
      (∀ i < n, v.byte i = w.byte i) →
      BufferResult sent c effects a b n (.ok ⟨c.over { a with pBuffer := v }, effects⟩)
        (.ok ⟨c.over { b with pBuffer := w }, effects⟩)

theorem BufferResult.bind {r r' : Except Fault Handling} {f g : Handling → Except Fault Handling} :
    BufferResult sent c effects a b n r r' →
    (∀ v w, Alike sent c effects { a with pBuffer := v } { b with pBuffer := w } →
      (∀ i < n, v.byte i = w.byte i) →
      AlikeResult sent (f ⟨c.over { a with pBuffer := v }, effects⟩)
        (g ⟨c.over { b with pBuffer := w }, effects⟩)) →
    AlikeResult sent
      (match r with
        | .error e => .error e
        | .ok h => f h)
      (match r' with
        | .error e => .error e
        | .ok h => g h) := by
  intro hr hfg
  cases hr with
  | error e => exact .error e
  | ok h hn => exact hfg _ _ h hn

/-- Enough is known of new buffers that agree wherever the old ones do, and on
what has been written. -/
private theorem rebuffer (h : Alike sent c effects a b) {v w : CharVec} (hsize : v.size = w.size)
    (hbyte : ∀ i, a.pBuffer.byte i = b.pBuffer.byte i → v.byte i = w.byte i) :
    Alike sent c effects { a with pBuffer := v } { b with pBuffer := w } := by
  refine { h with
    bufferSize := hsize
    received := fun i hi => hbyte i (h.received i hi)
    backed := fun e he => ?_ }
  have hbacked := h.backed e he
  cases e with
  | asyncRead offset len =>
      exact ⟨hbacked.1, hbacked.2.1, fun i hi => hbyte i (hbacked.2.2 i hi)⟩
  | _ => exact hbacked

theorem growBuffer_alike (h : Alike sent c effects a b) (len : Nat) :
    BufferResult sent c effects a b 0 (growBuffer len ⟨c.over a, effects⟩)
      (growBuffer len ⟨c.over b, effects⟩) := by
  have hbuffer : ∀ r : Remains, (c.over r).pBuffer = r.pBuffer := fun _ => rfl
  simp only [growBuffer, hbuffer, ← h.bufferSize]
  split
  · split
    · exact .error _
    · have hsize : (a.pBuffer.resize ((len + 256) % sizeMod)).size =
          (b.pBuffer.resize ((len + 256) % sizeMod)).size := by
        rw [CharVec.resize_size, CharVec.resize_size]
      have hgrown := rebuffer h hsize fun i => CharVec.resize_byte_congr _ h.bufferSize
      have hover : ∀ (r : Remains) (v : CharVec), ({ c.over r with pBuffer := v } : FrontConn) =
          c.over { r with pBuffer := v } := fun _ _ => rfl
      rw [hover, hover]
      exact .ok hgrown (by simp)
  · exact .ok h (by simp)

/-- The bytes behind the head come from `request_`, which is
the same in both objects. -/
theorem takeAdditional_alike (h : Alike sent c effects a b) :
    BufferResult sent { c with request := [] } effects a b c.request.length
      (takeAdditional ⟨c.over a, effects⟩) (takeAdditional ⟨c.over b, effects⟩) := by
  have hover : ∀ r : Remains, (c.over r).pBuffer = r.pBuffer ∧ (c.over r).request = c.request :=
    fun _ => ⟨rfl, rfl⟩
  have hdrop : Alike sent { c with request := [] } effects a b := h.shrink le_rfl le_rfl
  simp only [takeAdditional, hover, ← h.bufferSize]
  split
  next hnil =>
    have hempty : ∀ r : Remains, c.over r = FrontConn.over { c with request := [] } r := by
      intro r
      rw [FrontConn.over, hnil, FrontConn.over]
    rw [hnil, hempty, hempty]
    exact .ok hdrop (by simp)
  · split
    · exact .error _
    · refine .ok (rebuffer hdrop h.bufferSize fun i => CharVec.write_byte_congr _ _) ?_
      intro i hi
      refine CharVec.write_byte_of_mem _ _ (Nat.zero_le i) ?_
      rw [List.length_append]
      omega

theorem receiveBody_alike (h : Alike sent c effects a b) (hp : a.parser = b.parser)
    (hnone : NoRead effects) :
    AlikeResult sent (receiveBody env ⟨c.over a, effects⟩)
      (receiveBody env ⟨c.over b, effects⟩) := by
  have hstart : Alike sent { c with rSize := 0 } effects a b := h.shrink (Nat.zero_le _) le_rfl
  obtain ⟨bBuffer, bWrite, parser⟩ := b
  obtain rfl : a.parser = parser := hp
  refine .ite (fun _ => .error _) fun _ => (growBuffer_alike hstart _).bind fun v w h' _ =>
    (takeAdditional_alike h').bind fun v w h' hn => ?_
  refine .ite (fun _ => ?_) fun _ => ?_
  · exact doReadBody_alike env (grow_alike h' hnone hn) rfl
  · refine readBodyHandler_alike env h' rfl hnone fun i hi => hn i ?_
    exact Nat.lt_of_lt_of_eq hi (Nat.zero_add _)

/-- What the parser held before only survives a text without a head, and no
handler reads it then. -/
theorem parseRequest_any (p p' : HttpParser) (text : ByteString) :
    (p.parseRequest text = (false, p) ∧ p'.parseRequest text = (false, p')) ∨
      ∃ q, p.parseRequest text = (true, q) ∧ p'.parseRequest text = (true, q) := by
  simp only [HttpParser.parseRequest]
  split
  · exact .inl ⟨rfl, rfl⟩
  · exact .inr ⟨_, rfl, rfl⟩

theorem NoRead.emit {e : Effect} (h : NoRead effects) (he : e.isCall = true) :
    NoRead (effects ++ [e]) := by
  intro offset len hmem
  obtain hmem | hmem := List.mem_append.mp hmem
  · exact h offset len hmem
  · rw [← List.mem_singleton.mp hmem] at he
    cases he

theorem readHeadHandler_alike (h : Alike sent c effects a b) (hnone : NoRead effects) :
    AlikeResult sent (readHeadHandler env ec n ⟨c.over a, effects⟩)
      (readHeadHandler env ec n ⟨c.over b, effects⟩) := by
  refine .ite (fun _ => ?_) fun _ => .ite (fun _ => socketError_alike h) fun _ =>
    errorReturnHead_alike env h
  have hparser : ∀ r : Remains, (c.over r).parser = r.parser ∧ (c.over r).request = c.request :=
    fun _ => ⟨rfl, rfl⟩
  simp only [hparser]
  have hcalled : ∀ a' b' : Remains, Alike sent c effects a' b' →
      Alike sent { c with request := c.request.drop n } (effects ++ [.parse c.request]) a' b' := by
    intro a' b' h'
    have hcall := h'.emit (e := .parse c.request) trivial
    exact hcall.shrink le_rfl le_rfl
  obtain ⟨ha, hb⟩ | ⟨q, ha, hb⟩ := parseRequest_any a.parser b.parser c.request
  · rw [ha, hb]
    have hreturn := errorReturnHead_alike env (hcalled a b h)
    exact hreturn
  · rw [ha, hb]
    have hparsed : Alike sent c effects { a with parser := q } { b with parser := q } := by
      refine { h with backed := fun e he => ?_ }
      have hbacked := h.backed e he
      cases e with
      | asyncRead offset len => exact absurd he (hnone offset len)
      | _ => exact hbacked
    have h' := hcalled _ _ hparsed
    have hreturn := errorReturnHead_alike env h'
    have hmethod := fillAndReturn_alike env h' contentBadRequest Status.badRequest
    have hreceive := receiveBody_alike env h' rfl (hnone.emit rfl)
    have huri := fillAndReturn_alike env h' contentNotFound Status.notFound
    exact .ite (fun _ => hreturn) fun _ => .ite (fun _ => hmethod) fun _ =>
      .ite (fun _ => hreceive) fun _ => huri

end Reads

/-- The write handler looks at its offsets only, and
leaves the remains alone. -/
theorem writeHandler_remains {c : FrontConn} (hw : c.wSize = 0) (env : Env) (ec : ErrorCode)
    (n : Nat) : (∃ e, ∀ r, writeHandler env ec n ⟨c.over r, []⟩ = .error e) ∨
      ∃ (c' : FrontConn) (effects : List Effect), c'.rSize ≤ c.rSize ∧ c'.wSize = 0 ∧
        (∀ e ∈ effects, ∀ k a b, Effect.Backed k a b e) ∧
        ∀ r, writeHandler env ec n ⟨c.over r, []⟩ = .ok ⟨c'.over r, effects⟩ := by
  have hover : ∀ r : Remains, (c.over r).wSize = 0 ∧ (c.over r).pSock = c.pSock :=
    fun _ => ⟨hw, rfl⟩
  simp only [writeHandler, hover, Nat.not_lt_zero, if_false]
  split
  · exact .inr ⟨{ c with wPos := 0, wSize := 0 }, [], le_rfl, rfl, by simp, fun _ => rfl⟩
  · split
    · cases hs : c.pSock with
      | none =>
          refine .inl ⟨.nullSocket, fun r => ?_⟩
          simp only [socketError, withSocket, hover, hs]
      | some sock =>
          refine .inr ⟨{ c with rSize := 0, wSize := 0, stats := .error },
            [.shutdown, .cancel, .pushToRemove, .notifyOne], Nat.zero_le _, rfl,
            by simp [Effect.Backed], fun r => ?_⟩
          simp only [socketError, withSocket, emit, notifyConnError, FrontConn.over, hs]
          rfl
    · exact .inr ⟨c, [], le_rfl, hw, by simp, fun _ => rfl⟩

end Handling

end Ailawd
