import Ailawd.Connection.Reception

/-!
# Bounds of the receive buffer

`read_head_handler` takes the announced length through `int` and `size_t`, sizes
`p_buffer_` from it with two sums that wrap, copies what was read past the head and
hands the rest of the range to `async_read`. Between -256 and -1 the enlarged size
`len + 256` wraps to a small one (or, for -1, the test `len + 1` does), while the
range that is read is still almost `2 ^ 64` bytes long. Every other value is safe: a
non-negative one fits, and for a smaller one `resize` throws before any access.
-/

namespace Ailawd

open ByteString HttpProto

namespace HttpParser

/-- The `Content-Length` field as `atoi` reads it, before it becomes a size. -/
def lengthField (p : HttpParser) : Int := atoi (p.requestOption HeaderOptions.contentLength)

theorem lengthField_lower (p : HttpParser) : -2 ^ 31 ≤ p.lengthField := atoi_lower _

theorem lengthField_upper (p : HttpParser) : p.lengthField < 2 ^ 31 := atoi_upper _

theorem contentLength_lt (p : HttpParser) : p.contentLength < 2 ^ 64 := sizeT_lt _

theorem contentLength_of_nonneg {p : HttpParser} (h : 0 ≤ p.lengthField) :
    (p.contentLength : Int) = p.lengthField := sizeT_of_nonneg h p.lengthField_upper

theorem contentLength_of_neg {p : HttpParser} (h : p.lengthField < 0) :
    (p.contentLength : Int) = 2 ^ 64 + p.lengthField := sizeT_of_neg h p.lengthField_lower

end HttpParser

/-- The values for which one of the two sums wraps: as sizes they are the last
ones before `2 ^ 64`. -/
def LengthWraps (i : Int) : Prop := -256 ≤ i ∧ i ≤ -1

def wrappedSize (size : Nat) (i : Int) : Nat := if i = -1 then size else (256 + i).toNat

/-- `do_read_body` starts a read only in this state; on
any other it only returns. -/
def FrontConn.Reading (c : FrontConn) : Prop := c.stats = .working ∧ ∃ sock, c.pSock = some sock

namespace Handling

variable {env : Env} {h g h' : Handling} {n : Nat}

/-- The states of one request's reception: what `read_head_handler` leaves, and
what each body completion that asks for more leaves. -/
inductive Receives (env : Env) (h : Handling) : Handling → Prop where
  | head {g : Handling} : h.receiveBody env = .ok g → Receives env h g
  | body {g h' : Handling} {env' : Env} {ec : ErrorCode} {n : Nat} : Receives env h g →
      bodyExit g.conn ec n = .wait → g.readBodyHandler env' ec n = .ok h' → Receives env h h'

/-- The accesses to `p_buffer_` for one request stay inside it: the copy of the
bytes read past the head with their final NUL, and every range given to
`async_read`. -/
structure InBounds (env : Env) (h : Handling) : Prop where
  copy : ∀ g, h.growBuffer h.conn.parser.contentLength = .ok g →
    h.conn.request = [] ∨ h.conn.request.length + 1 ≤ g.conn.pBuffer.size
  read : ∀ g, Receives env h g → ∀ since, g.effects = h.effects ++ since →
    ∀ offset n, .asyncRead offset n ∈ since → offset + n ≤ g.conn.pBuffer.size

theorem growBuffer_size {len : Nat} (hr : h.growBuffer len = .ok g) :
    g.conn.pBuffer.size = if (len + 1) % sizeMod > h.conn.pBuffer.size
      then (len + 256) % sizeMod else h.conn.pBuffer.size := by
  obtain ⟨grown, rfl, hgrown⟩ := growBuffer_eq_ok hr
  exact hgrown

section Sizing

variable (hsize : h.conn.pBuffer.size ≤ vectorMaxSize)
include hsize

/-- Below -256 the wrapped size is beyond any vector's, so the resize throws
and nothing is read. -/
theorem growBuffer_throws (hneg : h.conn.parser.lengthField < -256) :
    h.growBuffer h.conn.parser.contentLength = .error .lengthError := by
  have hlen := HttpParser.contentLength_of_neg (p := h.conn.parser) (by omega)
  have hlow := h.conn.parser.lengthField_lower
  simp only [vectorMaxSize] at hsize
  rw [growBuffer]
  rw [if_pos, if_pos]
  · simp only [sizeMod, vectorMaxSize]
    omega
  · rw [sizeMod]
    omega

/-- Between -256 and -1 the buffer ends up with the wrapped size, which may be
smaller than before. -/
theorem growBuffer_wraps (hwrap : LengthWraps h.conn.parser.lengthField) :
    ∃ g, h.growBuffer h.conn.parser.contentLength = .ok g ∧
      g.conn.pBuffer.size = wrappedSize h.conn.pBuffer.size h.conn.parser.lengthField := by
  obtain ⟨hlo, hhi⟩ := hwrap
  have hlen := HttpParser.contentLength_of_neg (p := h.conn.parser) (by omega)
  simp only [vectorMaxSize] at hsize
  have hok : ∃ g, h.growBuffer h.conn.parser.contentLength = .ok g := by
    rw [growBuffer]
    split
    · rw [if_neg (by simp only [sizeMod, vectorMaxSize]; omega)]
      exact ⟨_, rfl⟩
    · exact ⟨_, rfl⟩
  obtain ⟨g, hg⟩ := hok
  refine ⟨g, hg, ?_⟩
  rw [growBuffer_size hg]
  rw [wrappedSize, sizeMod]
  by_cases hone : h.conn.parser.lengthField = -1
  · rw [if_pos hone, if_neg (by omega)]
  · rw [if_neg hone, if_pos (by omega)]
    omega

theorem wrappedSize_lt (hwrap : LengthWraps h.conn.parser.lengthField) :
    wrappedSize h.conn.pBuffer.size h.conn.parser.lengthField < h.conn.parser.contentLength := by
  obtain ⟨hlo, hhi⟩ := hwrap
  have hlen := HttpParser.contentLength_of_neg (p := h.conn.parser) (by omega)
  simp only [vectorMaxSize] at hsize
  rw [wrappedSize]
  split <;> omega

end Sizing

theorem growBuffer_fits (hpos : 0 ≤ h.conn.parser.lengthField)
    (hr : h.growBuffer h.conn.parser.contentLength = .ok g) :
    h.conn.parser.contentLength + 1 ≤ g.conn.pBuffer.size := by
  have hlen := HttpParser.contentLength_of_nonneg hpos
  have hup := h.conn.parser.lengthField_upper
  obtain ⟨g', hg', hroom⟩ := growBuffer_small (h := h) (n := h.conn.parser.contentLength) (by omega)
  obtain rfl := Except.ok.inj (hg'.symm.trans hr)
  exact hroom

/-- The reception invariant: what has been read so far was in bounds, and what
may still be read is. -/
structure Bounded (p : HttpParser) (before : List Effect) (g : Handling) : Prop where
  parser : g.conn.parser = p
  room : g.conn.Reading → p.contentLength ≤ g.conn.pBuffer.size
  reads : ∃ since, g.effects = before ++ since ∧
    ∀ offset n, .asyncRead offset n ∈ since → offset + n ≤ g.conn.pBuffer.size

section Bounded

variable {p : HttpParser} {before : List Effect}

theorem doReadBody_bounded (hb : Bounded p before g) (hlt : g.conn.rSize < p.contentLength)
    (hr : g.doReadBody env = .ok h') : Bounded p before h' := by
  have hlen := p.contentLength_lt
  simp only [doReadBody] at hr
  split at hr
  next =>
    obtain rfl := Except.ok.inj hr
    exact hb
  next hs =>
    obtain ⟨hsock, rfl⟩ := withSocket_eq_ok hr
    obtain ⟨since, he, hreads⟩ := hb.reads
    have hroom := hb.room ⟨not_not.mp hs, hsock⟩
    refine ⟨hb.parser, hb.room, since ++ [_], by simp [emit, touchSockTime, he]; rfl, ?_⟩
    intro offset n hmem
    rcases List.mem_append.mp hmem with hmem | hmem
    · exact hreads offset n hmem
    · obtain ⟨rfl, rfl⟩ := Effect.asyncRead.inj (List.mem_singleton.mp hmem)
      rw [hb.parser, sizeSub_of_le (Nat.le_of_lt hlt) (by simp only [sizeMod]; omega)]
      simp only [emit, touchSockTime]
      omega

/-- The step lemma: a body completion that waits stays in bounds, as it asks
for what is missing behind what it has. -/
theorem readBodyHandler_bounded {ec : ErrorCode} (hb : Bounded p before g)
    (hwait : bodyExit g.conn ec n = .wait) (hr : g.readBodyHandler env ec n = .ok h') :
    Bounded p before h' := by
  simp only [bodyExit] at hwait
  simp only [readBodyHandler] at hr
  split at hwait
  next hok =>
    split at hwait
    next hlt =>
      simp only [if_pos hok, if_pos hlt] at hr
      have hb' : Bounded p before
          { g with conn := { g.conn with rSize := g.conn.rSize + n } } :=
        ⟨hb.parser, hb.room, hb.reads⟩
      exact doReadBody_bounded hb' (hb.parser ▸ hlt) hr
    next => cases hwait
  next => split at hwait <;> cases hwait

end Bounded

/-- An exit that answers or fails starts no body read, so it adds
no access to the buffer. -/
private theorem not_asyncRead_of_exit {kind : ExitKind} (e : Exit kind h h')
    (hkind : kind = .answer ∨ kind = .fail) :
    ∃ since, h'.effects = h.effects ++ since ∧ ∀ offset n, .asyncRead offset n ∉ since := by
  have hcall : ∀ calls : List Effect, (∀ e ∈ calls, e.isCall = true) →
      ∀ offset n, .asyncRead offset n ∉ calls := fun calls hc offset n hm => by
    simpa [Effect.isCall] using hc _ hm
  rcases hkind with rfl | rfl
  · obtain ⟨calls, reply, hc, -, he, -⟩ := Answered.effects e
    refine ⟨_, he, fun offset n => ?_⟩
    simp only [List.mem_append, not_or]
    exact ⟨hcall calls hc offset n, by simp, by split <;> simp, by simp⟩
  · obtain ⟨calls, hc, he⟩ := Failed.effects e
    exact ⟨_, he, fun offset n => by simpa using hcall calls hc offset n⟩

/-- The head completion establishes the reception invariant if a connection
that will read has room for the whole length. -/
theorem receiveBody_bounded (hr : h.receiveBody env = .ok h')
    (hroom : ∀ g, h.growBuffer h.conn.parser.contentLength = .ok g → h.conn.Reading →
      h.conn.parser.contentLength ≤ g.conn.pBuffer.size) :
    Bounded h.conn.parser h.effects h' := by
  obtain ⟨hadd, g, hg, hfit⟩ := receiveBody_fits hr
  obtain ⟨pBuffer, hsize, -, heq⟩ := receiveBody_eq env hadd hg hfit
  rw [heq] at hr
  split at hr
  next hlt =>
    refine doReadBody_bounded (g := h.withInput pBuffer _) ⟨rfl, ?_, [], by simp [withInput], ?_⟩
      hlt hr
    · exact fun hread => hsize ▸ hroom g hg hread
    · simp
  next hge =>
    have hkeep := readBodyHandler_keepsInput hr
    have hexit := readBodyHandler_exit hr
    have hkind : bodyExit (h.withInput pBuffer 0).conn .success h.conn.request.length = .answer ∨
        bodyExit (h.withInput pBuffer 0).conn .success h.conn.request.length = .fail := by
      simp only [bodyExit, withInput, Nat.zero_add, hge, if_false]
      split <;> simp
    obtain ⟨since, he, hreads⟩ := not_asyncRead_of_exit hexit hkind
    refine ⟨hkeep.parser, fun _ => ?_, since, he, fun offset n hm => absurd hm (hreads _ _)⟩
    rw [hkeep.pBuffer]
    simp only [withInput, hsize]
    rcases hfit with hnil | hfit
    · simp only [hnil, List.length_nil] at hge
      omega
    · omega

theorem Receives.bounded (hr : Receives env h g)
    (hroom : ∀ g, h.growBuffer h.conn.parser.contentLength = .ok g → h.conn.Reading →
      h.conn.parser.contentLength ≤ g.conn.pBuffer.size) :
    Bounded h.conn.parser h.effects g := by
  induction hr with
  | head hg => exact receiveBody_bounded hg hroom
  | body _ hwait hg ih => exact readBodyHandler_bounded ih hwait hg

private theorem Bounded.read {p : HttpParser} {before : List Effect} (hb : Bounded p before g)
    {since : List Effect} (he : g.effects = before ++ since) {offset n : Nat}
    (hmem : .asyncRead offset n ∈ since) : offset + n ≤ g.conn.pBuffer.size := by
  obtain ⟨since', he', hreads⟩ := hb.reads
  obtain rfl := List.append_cancel_left (he.symm.trans he')
  exact hreads offset n hmem

/-- For one request, every access is in bounds exactly when no sum wraps, or
when nothing is read because the connection has stopped working and what came
with the head happens to fit the wrapped size. -/
theorem receive_in_bounds_iff (hadd : h.conn.request.length ≤ h.conn.parser.contentLength)
    (hsize : h.conn.pBuffer.size ≤ vectorMaxSize) :
    h.InBounds env ↔ (LengthWraps h.conn.parser.lengthField → ¬ h.conn.Reading ∧
      (h.conn.request = [] ∨ h.conn.request.length + 1 ≤
        wrappedSize h.conn.pBuffer.size h.conn.parser.lengthField)) := by
  constructor
  · intro hin hwrap
    obtain ⟨g, hg, hgsize⟩ := growBuffer_wraps hsize hwrap
    have hshort := wrappedSize_lt hsize hwrap
    have hcopy := hin.copy g hg
    refine ⟨fun ⟨hwork, sock, hsock⟩ => ?_, hgsize ▸ hcopy⟩
    obtain ⟨pBuffer, hbuf, -, heq⟩ := receiveBody_eq env hadd hg hcopy
    have hlt : h.conn.request.length < h.conn.parser.contentLength := by
      rcases hcopy with hnil | hcopy
      · rw [hnil, List.length_nil]
        omega
      · omega
    rw [if_pos hlt] at heq
    simp only [doReadBody, withInput, touchSockTime, withSocket, hwork, hsock, ne_eq,
      not_true_eq_false, if_false, emit] at heq
    have hread := hin.read _ (.head heq) [_] rfl _ _ (List.mem_singleton.mpr rfl)
    have hlen := h.conn.parser.contentLength_lt
    rw [sizeSub_of_le hadd (by simp only [sizeMod]; omega)] at hread
    simp only at hread
    omega
  · intro hok
    by_cases hwrap : LengthWraps h.conn.parser.lengthField
    · obtain ⟨hread, hfit⟩ := hok hwrap
      obtain ⟨g, hg, hgsize⟩ := growBuffer_wraps hsize hwrap
      refine ⟨fun g' hg' => ?_, fun g' hg' since he offset n hmem => ?_⟩
      · obtain rfl := Except.ok.inj (hg.symm.trans hg')
        exact hgsize ▸ hfit
      · exact (hg'.bounded fun _ _ hr => absurd hr hread).read he hmem
    · by_cases hneg : h.conn.parser.lengthField < -256
      · have hthrow := growBuffer_throws hsize hneg
        have hnone : ∀ g, h.growBuffer h.conn.parser.contentLength ≠ .ok g := by simp [hthrow]
        exact ⟨fun g hg => absurd hg (hnone g), fun g hg since he offset n hmem =>
          (hg.bounded fun g hg => absurd hg (hnone g)).read he hmem⟩
      · have hpos : 0 ≤ h.conn.parser.lengthField := by
          simp only [LengthWraps] at hwrap
          omega
        refine ⟨fun g hg => .inr ?_, fun g hg since he offset n hmem => ?_⟩
        · have := growBuffer_fits hpos hg
          omega
        · refine (hg.bounded fun g hg _ => ?_).read he hmem
          have := growBuffer_fits hpos hg
          omega

/-- A new connection whose client has announced a length and sent
nothing behind the head. -/
def announcing (length : String) : Handling :=
  let head := ofString ("POST /analyse HTTP/1.1\r\nContent-Length: " ++ length ++ "\r\n\r\n")
  ⟨{ (FrontConn.make 7 0).conn with
      stats := .working
      parser := (HttpParser.init.parseRequest head).2 }, []⟩

theorem receive_in_bounds_iff_length_5 :
    (announcing "5").InBounds (.refusing 0) ↔
      (LengthWraps (announcing "5").conn.parser.lengthField →
        ¬ (announcing "5").conn.Reading ∧ ((announcing "5").conn.request = [] ∨
          (announcing "5").conn.request.length + 1 ≤
            wrappedSize (announcing "5").conn.pBuffer.size
              (announcing "5").conn.parser.lengthField)) :=
  receive_in_bounds_iff (by decide +kernel) (by decide +kernel)

/-- With `Content-Length: -1` nothing is resized and `async_read` is given `2 ^
64 - 1` bytes of a buffer of 16384. -/
theorem negative_length_overruns :
    (announcing "-1").conn.request.length ≤ (announcing "-1").conn.parser.contentLength ∧
      (announcing "-1").conn.pBuffer.size ≤ vectorMaxSize ∧
      ¬ (announcing "-1").InBounds (.refusing 0) := by
  refine ⟨by decide +kernel, by decide +kernel, fun hin => ?_⟩
  have hrun : (match (announcing "-1").receiveBody (.refusing 0) with
      | .ok g => decide (g.effects = [.asyncRead 0 (2 ^ 64 - 1)] ∧ g.conn.pBuffer.size = 16384)
      | .error _ => false) = true := by decide +kernel
  split at hrun
  next g hg =>
    obtain ⟨he, hsize⟩ := of_decide_eq_true hrun
    have hbefore : (announcing "-1").effects = [] := by decide +kernel
    have hread := hin.read g (.head hg) _ (by rw [hbefore, List.nil_append]) 0 (2 ^ 64 - 1)
      (by simp [he])
    omega
  next => cases hrun

end Handling

end Ailawd
