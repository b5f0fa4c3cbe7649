import Ailawd.Connection.Exits

/-!
# Receiving a request

Only `read_head_handler` and the reads themselves change what has been received:
the body handler and everything after it keep it, and `KeepsInput` also says which
calls they make. `receiveBody_eq` is the specification of the accepting branch of
`read_head_handler`: after sizing and copying, `p_buffer_` starts with the bytes
that were read past the head, `request_` is empty, and either the rest is read or
the body handler runs at once.
-/

namespace Ailawd

open ByteString HttpProto

/-- The same parser, receive buffer and unread bytes, and exactly the given
calls. Answering a request is such a step. -/
structure KeepsInput (calls : List Effect) (h h' : Handling) : Prop where
  parser : h'.conn.parser = h.conn.parser
  pBuffer : h'.conn.pBuffer = h.conn.pBuffer
  request : h'.conn.request = h.conn.request
  effects : ∃ since, h'.effects = h.effects ++ (calls ++ since) ∧
    ∀ e ∈ since, e.isCall = false

/-- The call of `read_body_handler`: the whole body goes to `analyse_handler`,
when it is there and the URI says so. -/
def bodyCalls (c : FrontConn) (ec : ErrorCode) (n : Nat) : List Effect :=
  if ec = .success ∧ n ≠ 0 ∧ ¬ c.rSize + n < c.parser.contentLength ∧
      c.parser.hasUri "/analyse" = true then
    [.analyse (c.pBuffer.slice 0 (c.rSize + n))]
  else []

theorem KeepsInput.refl (h : Handling) : KeepsInput [] h h := ⟨rfl, rfl, rfl, [], by simp⟩

theorem KeepsInput.trans {calls : List Effect} {h₁ h₂ h₃ : Handling}
    (a : KeepsInput calls h₁ h₂) (b : KeepsInput [] h₂ h₃) : KeepsInput calls h₁ h₃ := by
  obtain ⟨since, he, hs⟩ := a.effects
  obtain ⟨since', he', hs'⟩ := b.effects
  refine ⟨b.parser.trans a.parser, b.pBuffer.trans a.pBuffer, b.request.trans a.request,
    since ++ since', by rw [he', he]; simp only [List.append_assoc, List.nil_append], ?_⟩
  exact fun e hm => (List.mem_append.mp hm).elim (hs e) (hs' e)

namespace Handling

variable {env : Env} {h g h' : Handling}

theorem emit_keepsInput {e : Effect} (he : e.isCall = false) : KeepsInput [] h (h.emit e) :=
  ⟨rfl, rfl, rfl, [e], rfl, by simpa using he⟩

theorem touchSockTime_keepsInput (env : Env) (h : Handling) :
    KeepsInput [] h (h.touchSockTime env) :=
  ⟨rfl, rfl, rfl, [], by simp [touchSockTime], by simp⟩

theorem fillForHttp_keepsInput (content status : ByteString) :
    KeepsInput [] h (h.fillForHttp env content status) :=
  ⟨rfl, rfl, rfl, [_], rfl, by simp [Effect.isCall]⟩

theorem withSocket_keepsInput {e : Effect} (he : e.isCall = false)
    (hr : h.withSocket e = .ok h') : KeepsInput [] h h' := by
  obtain ⟨-, rfl⟩ := withSocket_eq_ok hr
  exact emit_keepsInput he

theorem doReadBody_keepsInput (hr : h.doReadBody env = .ok h') : KeepsInput [] h h' := by
  simp only [doReadBody] at hr
  split at hr
  · obtain rfl := Except.ok.inj hr
    exact .refl _
  · exact (touchSockTime_keepsInput env h).trans
      (withSocket_keepsInput rfl hr)

theorem doWrite_keepsInput (hr : h.doWrite env = .ok h') : KeepsInput [] h h' := by
  obtain ⟨-, rfl⟩ | ⟨-, -, -, rfl⟩ := doWrite_cases hr
  · exact .refl _
  · exact ⟨rfl, rfl, rfl, [_], rfl, by simp [Effect.isCall]⟩

theorem writeReturn_keepsInput (hr : h.writeReturn env = .ok h') : KeepsInput [] h h' := by
  simp only [writeReturn] at hr
  split at hr
  · cases hr
  next g hg =>
    obtain ⟨-, rfl⟩ := start_eq_ok hr
    exact (doWrite_keepsInput hg).trans ⟨rfl, rfl, rfl, [_], rfl, by simp [Effect.isCall]⟩

theorem errorReturn_keepsInput (hr : h.errorReturn env = .ok h') : KeepsInput [] h h' :=
  (fillForHttp_keepsInput _ _).trans (writeReturn_keepsInput hr)

theorem socketError_keepsInput (hr : h.socketError = .ok h') : KeepsInput [] h h' := by
  simp only [socketError] at hr
  split at hr
  · cases hr
  next h₁ h₁eq =>
    split at hr
    · cases hr
    next h₂ h₂eq =>
      obtain rfl := Except.ok.inj hr
      refine ((withSocket_keepsInput rfl h₁eq).trans (withSocket_keepsInput rfl h₂eq)).trans ?_
      exact ⟨rfl, rfl, rfl, [.pushToRemove, .notifyOne], rfl, by simp [Effect.isCall]⟩

theorem socketError_rSize (hr : h.socketError = .ok h') : h'.conn.rSize = 0 := by
  simp only [socketError] at hr
  split at hr
  · cases hr
  · split at hr
    · cases hr
    · obtain rfl := Except.ok.inj hr
      rfl

theorem analyseHandler_keepsInput {b : Bool} (hr : h.analyseHandler env = .ok (b, h')) :
    KeepsInput [.analyse (h.conn.pBuffer.slice 0 h.conn.rSize)] h h' := by
  have hcall : KeepsInput [.analyse (h.conn.pBuffer.slice 0 h.conn.rSize)] h
      (h.emit (.analyse (h.conn.pBuffer.slice 0 h.conn.rSize))) :=
    ⟨rfl, rfl, rfl, [], rfl, by simp⟩
  rw [analyseHandler] at hr
  split at hr
  · cases hr
  · simp only at hr
    split at hr
    · cases hr
    · obtain ⟨-, rfl⟩ := Prod.mk.inj (Except.ok.inj hr)
      exact hcall
    · obtain ⟨-, rfl⟩ := Prod.mk.inj (Except.ok.inj hr)
      exact hcall.trans (fillForHttp_keepsInput _ _)

theorem readBodyHandler_keepsInput {ec : ErrorCode} {n : Nat}
    (hr : h.readBodyHandler env ec n = .ok h') : KeepsInput (bodyCalls h.conn ec n) h h' := by
  rw [readBodyHandler] at hr
  rw [bodyCalls]
  split at hr
  next hok =>
    simp only at hr
    set g : Handling := { h with conn := { h.conn with rSize := h.conn.rSize + n } }
    have hq : ∀ {calls k}, KeepsInput calls g k → KeepsInput calls h k := fun a =>
      ⟨a.parser, a.pBuffer, a.request, a.effects⟩
    split at hr
    next hlt =>
      rw [if_neg fun hc => hc.2.2.1 hlt]
      exact hq (doReadBody_keepsInput hr)
    next hge =>
      split at hr
      next huri =>
        rw [if_pos ⟨hok.1, hok.2, hge, huri⟩]
        split at hr
        · cases hr
        next k hk => exact hq ((analyseHandler_keepsInput hk).trans (writeReturn_keepsInput hr))
        next k hk => exact hq ((analyseHandler_keepsInput hk).trans (errorReturn_keepsInput hr))
      next huri =>
        rw [if_neg fun hc => huri hc.2.2.2]
        exact hq ((fillForHttp_keepsInput _ _).trans (writeReturn_keepsInput hr))
  next hok =>
    rw [if_neg fun hc => hok ⟨hc.1, hc.2.1⟩]
    split at hr
    · exact socketError_keepsInput hr
    · exact errorReturn_keepsInput hr

def withInput (h : Handling) (pBuffer : CharVec) (rSize : Nat) : Handling :=
  { h with conn := { h.conn with pBuffer := pBuffer, request := [], rSize := rSize } }

theorem growBuffer_eq_ok {len : Nat} (hr : h.growBuffer len = .ok g) : ∃ pBuffer,
    g = { h with conn := { h.conn with pBuffer := pBuffer } } ∧
      pBuffer.size = if (len + 1) % sizeMod > h.conn.pBuffer.size
        then (len + 256) % sizeMod else h.conn.pBuffer.size := by
  simp only [growBuffer] at hr
  split at hr
  next hgrow =>
    split at hr
    · cases hr
    · obtain rfl := Except.ok.inj hr
      exact ⟨_, rfl, by rw [if_pos hgrow, CharVec.resize_size]⟩
  next hgrow =>
    obtain rfl := Except.ok.inj hr
    exact ⟨h.conn.pBuffer, rfl, by rw [if_neg hgrow]⟩

/-- A length that an `int` can hold always finds room, with its final
NUL, and nothing wraps. -/
theorem growBuffer_small {n : Nat} (hn : n < 2 ^ 31) :
    ∃ g, h.growBuffer n = .ok g ∧ n + 1 ≤ g.conn.pBuffer.size := by
  rw [growBuffer, sizeMod]
  rw [Nat.mod_eq_of_lt (by omega), Nat.mod_eq_of_lt (by omega)]
  split
  · rw [if_neg (by simp only [vectorMaxSize]; omega)]
    refine ⟨_, rfl, ?_⟩
    simp only [CharVec.resize_size]
    omega
  · exact ⟨h, rfl, by omega⟩

theorem growBuffer_reset {len : Nat} :
    growBuffer len { h with conn := { h.conn with rSize := 0 } } =
      (h.growBuffer len).map fun g => { g with conn := { g.conn with rSize := 0 } } := by
  rw [growBuffer, growBuffer]
  simp only
  split
  · split <;> rfl
  · rfl

/-- The accepting branch, given that the sizes work out: what it copies, and
what it then calls. -/
theorem receiveBody_eq (env : Env) (hadd : h.conn.request.length ≤ h.conn.parser.contentLength)
    (hg : h.growBuffer h.conn.parser.contentLength = .ok g)
    (hfit : h.conn.request = [] ∨ h.conn.request.length + 1 ≤ g.conn.pBuffer.size) :
    ∃ pBuffer, pBuffer.size = g.conn.pBuffer.size ∧
      pBuffer.slice 0 h.conn.request.length = h.conn.request ∧
      h.receiveBody env =
        if h.conn.request.length < h.conn.parser.contentLength then
          (h.withInput pBuffer h.conn.request.length).doReadBody env
        else (h.withInput pBuffer 0).readBodyHandler env .success h.conn.request.length := by
  obtain ⟨grown, rfl, -⟩ := growBuffer_eq_ok hg
  rw [receiveBody]
  simp only [growBuffer_reset, hg, Except.map, takeAdditional, not_not.mpr hadd, if_false]
  by_cases hnil : h.conn.request = []
  · exact ⟨grown, rfl, by simp [hnil], by simp [hnil, withInput]⟩
  · have hfit := hfit.resolve_left hnil
    simp only [if_neg hnil, if_neg (Nat.not_lt.mpr hfit)]
    refine ⟨grown.write 0 (h.conn.request ++ [0]), rfl, ?_, rfl⟩
    rw [CharVec.slice_write_prefix _ _ _ (by simp), List.take_left' rfl]

/-- The accepting branch succeeds only if the sizes work out. The assertion and
the vector see to that. -/
theorem receiveBody_fits (hr : h.receiveBody env = .ok h') :
    h.conn.request.length ≤ h.conn.parser.contentLength ∧
      ∃ g, h.growBuffer h.conn.parser.contentLength = .ok g ∧
        (h.conn.request = [] ∨ h.conn.request.length + 1 ≤ g.conn.pBuffer.size) := by
  simp only [receiveBody] at hr
  simp only [growBuffer_reset] at hr
  split at hr
  · cases hr
  next hadd =>
    refine ⟨not_not.mp hadd, ?_⟩
    cases hg : h.growBuffer h.conn.parser.contentLength with
    | error =>
        simp only [hg, Except.map] at hr
        cases hr
    | ok g =>
        refine ⟨g, rfl, ?_⟩
        obtain ⟨grown, rfl, -⟩ := growBuffer_eq_ok hg
        simp only [hg, Except.map, takeAdditional] at hr
        by_cases hnil : h.conn.request = []
        · exact .inl hnil
        · simp only [if_neg hnil] at hr
          by_cases hbig : h.conn.request.length + 1 > grown.size
          · simp only [if_pos hbig] at hr
            cases hr
          · exact .inr (Nat.not_lt.mp hbig)

theorem doReadBody_eq_ok (hr : h.doReadBody env = .ok h') (hw : h.conn.stats = .working) :
    h'.conn = { h.conn with touchTime := env.now } ∧ h'.effects = h.effects ++
      [.asyncRead h.conn.rSize (sizeSub h.conn.parser.contentLength h.conn.rSize)] := by
  simp only [doReadBody] at hr
  rw [if_neg (not_not.mpr hw)] at hr
  obtain ⟨-, rfl⟩ := withSocket_eq_ok hr
  exact ⟨rfl, rfl⟩

/-- The accepting branch empties `request_`, and what is missing of the body is
read to where the bytes past the head end. -/
theorem receiveBody_receives (hr : h.receiveBody env = .ok h') :
    h.conn.request.length ≤ h.conn.parser.contentLength ∧ h'.conn.request = [] ∧
      h'.conn.parser = h.conn.parser ∧
      (h.conn.stats = .working → h.conn.request.length < h.conn.parser.contentLength →
        h'.conn.rSize = h.conn.request.length ∧
        h'.effects = h.effects ++ [.asyncRead h.conn.request.length
          (h.conn.parser.contentLength - h.conn.request.length)] ∧
        h'.conn.pBuffer.slice 0 h.conn.request.length = h.conn.request ∧
        (h.conn.parser.contentLength < 2 ^ 31 →
          h.conn.parser.contentLength ≤ h'.conn.pBuffer.size)) := by
  obtain ⟨hadd, g, hg, hfit⟩ := receiveBody_fits hr
  obtain ⟨pBuffer, hsize, hslice, heq⟩ := receiveBody_eq env hadd hg hfit
  rw [heq] at hr
  have hmod : h.conn.parser.contentLength < sizeMod := sizeT_lt _
  refine ⟨hadd, ?_⟩
  split at hr
  next hlt =>
    have hkeep := doReadBody_keepsInput hr
    refine ⟨hkeep.request, hkeep.parser, ?_⟩
    intro hworking _
    obtain ⟨hconn, heffects⟩ := doReadBody_eq_ok hr hworking
    have hbuffer : h'.conn.pBuffer = pBuffer := hkeep.pBuffer
    refine ⟨congrArg FrontConn.rSize hconn, ?_, by rw [hbuffer, hslice], ?_⟩
    · rw [heffects, ← sizeSub_of_le hadd hmod]
      rfl
    · intro hsmall
      obtain ⟨g', hg', hroom⟩ := growBuffer_small (h := h) hsmall
      obtain rfl := Except.ok.inj (hg'.symm.trans hg)
      rw [hbuffer, hsize]
      omega
  next hlt =>
    have hkeep := readBodyHandler_keepsInput hr
    refine ⟨hkeep.request, hkeep.parser, ?_⟩
    intro _ hlt'
    exact absurd hlt' hlt

def headParsed (c : FrontConn) (text rest : ByteString) (parser : HttpParser) : Handling :=
  ⟨{ c with request := rest, parser := parser }, [.parse text]⟩

/-- After a successful parse the body is received, or the request is answered
at once and everything past its head stays where it is. -/
theorem readHeadHandler_cases {c : FrontConn} {n : Nat} {parser : HttpParser} (hn : n ≠ 0)
    (hparse : c.parser.parseRequest c.request = (true, parser))
    (hr : readHeadHandler env .success n ⟨c, []⟩ = .ok h') :
    ((parser.isPost = true ∧ parser.acceptsUri = true) ∧
      (headParsed c c.request (c.request.drop n) parser).receiveBody env = .ok h') ∨
    (¬ (parser.isPost = true ∧ parser.acceptsUri = true) ∧
      KeepsInput [] (headParsed c c.request (c.request.drop n) parser) h') := by
  rw [readHeadHandler] at hr
  rw [if_pos ⟨rfl, hn⟩] at hr
  simp only [hparse, Bool.not_true, Bool.false_eq_true, if_false] at hr
  split at hr
  next hpost =>
    refine .inr ⟨fun hc => by simp [hc.1] at hpost, ?_⟩
    exact (fillForHttp_keepsInput _ _).trans (writeReturn_keepsInput hr)
  next hpost =>
    split at hr
    next huri => exact .inl ⟨⟨by simpa using hpost, huri⟩, hr⟩
    next huri =>
      exact .inr ⟨fun hc => huri hc.2,
        (fillForHttp_keepsInput _ _).trans (writeReturn_keepsInput hr)⟩

theorem receiveBody_effects (hr : h.receiveBody env = .ok h') :
    ∃ since, h'.effects = h.effects ++ since := by
  obtain ⟨hadd, g, hg, hfit⟩ := receiveBody_fits hr
  obtain ⟨pBuffer, -, -, heq⟩ := receiveBody_eq env hadd hg hfit
  rw [heq] at hr
  split at hr
  · obtain ⟨since, he, -⟩ := (doReadBody_keepsInput hr).effects
    exact ⟨_, he⟩
  · obtain ⟨since, he, -⟩ := (readBodyHandler_keepsInput hr).effects
    exact ⟨_, he⟩

/-- A successful parse is the first thing a head completion
records, before any reply. -/
theorem readHeadHandler_effects {c : FrontConn} {n : Nat} {parser : HttpParser} (hn : n ≠ 0)
    (hparse : c.parser.parseRequest c.request = (true, parser))
    (hr : readHeadHandler env .success n ⟨c, []⟩ = .ok h') :
    ∃ since, h'.effects = .parse c.request :: since := by
  rcases readHeadHandler_cases hn hparse hr with ⟨-, hrecv⟩ | ⟨-, hkeep⟩
  · obtain ⟨since, he⟩ := receiveBody_effects hrecv
    exact ⟨since, he⟩
  · obtain ⟨since, he, -⟩ := hkeep.effects
    exact ⟨_, he⟩

/-- A write that completes in full changes nothing that was
received, and starts nothing. -/
theorem writeHandler_quiet {ec : ErrorCode} {n : Nat} (hsize : h.conn.wSize = 0)
    (hquiet : writeExit ec n = .quiet) (hr : h.writeHandler env ec n = .ok h') :
    h'.conn.request = h.conn.request ∧ h'.conn.parser = h.conn.parser ∧
      h'.conn.pBuffer = h.conn.pBuffer ∧ h'.conn.rSize = h.conn.rSize := by
  simp only [writeExit] at hquiet
  simp only [writeHandler] at hr
  split at hr
  next hok =>
    simp only [hsize, Nat.not_lt_zero, if_false] at hr
    obtain rfl := Except.ok.inj hr
    exact ⟨rfl, rfl, rfl, rfl⟩
  next hok =>
    rw [if_neg hok] at hquiet
    split at hr
    next hne =>
      rw [if_pos hne] at hquiet
      cases hquiet
    next =>
      obtain rfl := Except.ok.inj hr
      exact ⟨rfl, rfl, rfl, rfl⟩

end Handling

end Ailawd
