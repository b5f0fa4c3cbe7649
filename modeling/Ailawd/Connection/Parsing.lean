import Ailawd.Model.FrontConn

/-!
# A head parses the same whatever follows it

`read_head_handler` gives everything that `request_` holds to `parse_request`, so
the text usually goes on after the head. The bytes after the first CRLFCRLF only
reach the pseudo-option `request_body_`, and no field that the handlers look up
can match its key.
-/

namespace Ailawd

open ByteString HttpProto

/-- A text that ends with its first CRLFCRLF. -/
def WholeHead (head : ByteString) : Prop := find crlf2 head = some (head.length - 4)

section WholeHead

variable {head head' extra extra' text : ByteString} {i : Nat}

theorem WholeHead.length (h : WholeHead head) : head.length - 4 + 4 = head.length := by
  have hle := find_add_length_le h
  have hcrlf : crlf2.length = 4 := rfl
  omega

/-- The bytes up to the first CRLFCRLF are a head. -/
theorem exists_wholeHead (h : find crlf2 text = some i) :
    ∃ head extra, text = head ++ extra ∧ WholeHead head ∧ head.length = i + 4 := by
  have hle := find_add_length_le h
  have hcrlf : crlf2.length = 4 := rfl
  have hlen : (text.take (i + 4)).length = i + 4 := List.length_take_of_le (by omega)
  refine ⟨text.take (i + 4), text.drop (i + 4), (List.take_append_drop _ _).symm, ?_, hlen⟩
  rw [← List.take_append_drop (i + 4) text] at h
  rw [WholeHead, hlen]
  exact find_of_append h (by omega)

/-- A stream has at most one head at its beginning. -/
theorem WholeHead.unique (h : WholeHead head) (h' : WholeHead head')
    (heq : head ++ extra = head' ++ extra') : head = head' ∧ extra = extra' := by
  have hfind := find_append h extra
  rw [heq, find_append h' extra'] at hfind
  have hlen := h.length
  have hlen' := h'.length
  exact List.append_inj heq (by have := Option.some.inj hfind; omega)

/-- What a head read gets from a stream that begins with a head: this head, and
the front of what follows it. -/
theorem WholeHead.of_read (h : WholeHead head) {request data unread body : ByteString}
    (hbytes : request ++ unread = head ++ body) (hdata : data <+: unread)
    (h' : WholeHead head') (htext : request ++ data = head' ++ extra) :
    head' = head ∧ extra ++ unread.drop data.length = body := by
  obtain ⟨rest, rfl⟩ := hdata
  rw [← List.append_assoc, htext, List.append_assoc] at hbytes
  obtain ⟨rfl, rfl⟩ := h'.unique h hbytes
  rw [List.drop_left]
  exact ⟨rfl, rfl⟩

end WholeHead

namespace HttpParser

/-- The number that the `Content-Length` field starts with. -/
def announced (p : HttpParser) : Int :=
  numberValue (p.requestOption HeaderOptions.contentLength)

theorem contentLength_of_announced {p : HttpParser} {n : Nat} (h : p.announced = n)
    (hn : n < 2 ^ 31) : p.contentLength = n := by
  simp only [announced] at h
  rw [contentLength]
  rw [atoi_of_small (by omega) (by omega), h]
  exact sizeT_natCast hn

/-- Two parsers that differ at most in what follows the head. -/
def Agrees (p q : HttpParser) : Prop :=
  OrderedMap.SameExcept HeaderOptions.requestBody p.headerOpts q.headerOpts

section Agrees

variable {p q : HttpParser}

theorem Agrees.requestOption (h : p.Agrees q) {name : ByteString}
    (hname : iequals name HeaderOptions.requestBody = false) :
    q.requestOption name = p.requestOption name := by
  simp only [HttpParser.requestOption]
  rw [h.findFirst_eq hname]

theorem Agrees.contentLength (h : p.Agrees q) : q.contentLength = p.contentLength := by
  simp only [HttpParser.contentLength]
  rw [h.requestOption (by decide +kernel)]

theorem Agrees.isPost (h : p.Agrees q) : q.isPost = p.isPost := by
  simp only [HttpParser.isPost]
  rw [h.requestOption (by decide +kernel)]

theorem Agrees.hasUri (h : p.Agrees q) (uri : String) : q.hasUri uri = p.hasUri uri := by
  simp only [HttpParser.hasUri]
  rw [h.requestOption (by decide +kernel)]

theorem Agrees.acceptsUri (h : p.Agrees q) : q.acceptsUri = p.acceptsUri := by
  simp only [HttpParser.acceptsUri]
  simp only [h.hasUri]

end Agrees

private theorem parseLine_same {m m' : HeaderOpts} (item : ByteString)
    (h : OrderedMap.SameExcept HeaderOptions.requestBody m m') :
    OrderedMap.SameExcept HeaderOptions.requestBody (parseLine m item) (parseLine m' item) := by
  simp only [parseLine]
  split
  · exact h.insert _ _
  · split
    · exact h
    · exact ((h.insert _ _).insert _ _).insert _ _

private theorem parseLines_same {m m' : HeaderOpts} (items : List ByteString)
    (h : OrderedMap.SameExcept HeaderOptions.requestBody m m') :
    OrderedMap.SameExcept HeaderOptions.requestBody (parseLines m items) (parseLines m' items) := by
  induction items generalizing m m' with
  | nil => exact h
  | cons item rest ih =>
      simp only [parseLines]
      split
      · exact h
      · exact ih (parseLine_same item h)

/-- A NUL byte in a head hides its CRLFCRLF from the
parser, whatever follows. -/
private theorem parseRequest_of_zero_mem (p : HttpParser) {head : ByteString}
    (hend : WholeHead head) (hnul : (0 : UInt8) ∈ head) (extra : ByteString) :
    p.parseRequest (head ++ extra) = (false, p) := by
  obtain ⟨front, back, hsplit⟩ := List.append_of_mem hnul
  have hcs : cString (head ++ extra) = cString front := by
    rw [hsplit, List.append_assoc, List.cons_append, cString_append_zero]
  have hnone : find crlf2 (cString front) = none := by
    by_contra hsome
    obtain ⟨i, hi⟩ := Option.ne_none_iff_exists'.mp hsome
    have hprefix : cString front <+: head :=
      (cString_isPrefix front).trans ⟨0 :: back, hsplit.symm⟩
    have heq := find_eq_of_prefix hprefix hi hend
    have hle := find_add_length_le hi
    have hfront := (cString_isPrefix front).length_le
    have hlen := hend.length
    have hlength := congrArg List.length hsplit
    have hcrlf : crlf2.length = 4 := rfl
    rw [List.length_append, List.length_cons] at hlength
    omega
  simp only [parseRequest, hcs, hnone]

/-- Whether a head parses, and to what, does not depend on what follows it, nor
on the parser it is given to. -/
theorem parseRequest_head (p p' : HttpParser) {head : ByteString} (hend : WholeHead head)
    (extra : ByteString) :
    (p.parseRequest head = (false, p) ∧ p'.parseRequest (head ++ extra) = (false, p')) ∨
      ∃ q q', p.parseRequest head = (true, q) ∧
        p'.parseRequest (head ++ extra) = (true, q') ∧ q.Agrees q' := by
  by_cases hnul : (0 : UInt8) ∈ head
  · have hself := parseRequest_of_zero_mem p hend hnul []
    rw [List.append_nil] at hself
    exact .inl ⟨hself, parseRequest_of_zero_mem p' hend hnul extra⟩
  · have hfind := find_append hend (cString extra)
    have hwhole : find crlf2 head = some (head.length - 4) := hend
    simp only [parseRequest, cString_append_of_not_mem extra hnul, cString_eq_self hnul, hfind,
      hwhole, hend.length, List.take_left', List.take_length]
    have hsame := parseLines_same (lines head) (OrderedMap.SameExcept.insert_self
      HeaderOptions.requestBody (head.drop head.length)
      ((head ++ cString extra).drop head.length))
    exact .inr ⟨_, _, rfl, rfl, hsame⟩

/-- Appending to a complete head changes nothing that a handler looks up, and
the parser it is given to does not matter. -/
theorem parseRequest_append (p' : HttpParser) {p q : HttpParser} {head : ByteString}
    (hend : find crlf2 head = some (head.length - 4))
    (h : p.parseRequest head = (true, q)) (extra : ByteString) :
    ∃ q', p'.parseRequest (head ++ extra) = (true, q') ∧ q.Agrees q' := by
  obtain ⟨hfalse, -⟩ | ⟨q₀, q', hq, hq', hagree⟩ := parseRequest_head p p' hend extra
  · cases h.symm.trans hfalse
  · obtain ⟨-, rfl⟩ := Prod.mk.inj (h.symm.trans hq)
    exact ⟨q', hq', hagree⟩

end HttpParser

end Ailawd
