import Ailawd.Connection.HeaderFields
import Ailawd.Model.FrontConn

/-!
# Whether the request line decides

Method, URI and version are kept among the header fields, under names that a client
may send as well. `request_option` ignores case but takes the first match in key
order, in which upper case comes before lower case, so a field named like one of the
three in another case hides the value from the request line.

`Neutral` says of a head that this does not happen. `request_line_decides_iff` shows
that the heads of a set, compared with each other and with heads that supply none of
the three after the first line, agree exactly if all of them are neutral.
-/

namespace Ailawd

open ByteString HttpProto

namespace HttpParser

def requestNames : List ByteString :=
  [HeaderOptions.requestMethod, HeaderOptions.requestUri, HeaderOptions.httpVersion]

/-- The first line that is read; a head that begins with the blank line has
none, and then nothing decides. -/
def firstLine (text : ByteString) : Option ByteString := (readLines text).head?

def ownFields (text : ByteString) : List (ByteString × ByteString) :=
  fields (firstLine text).toList

def laterFields (text : ByteString) : List (ByteString × ByteString) :=
  fields (readLines text).tail

def Accepted (text : ByteString) (q : HttpParser) : Prop :=
  ∃ p : HttpParser, p.parseRequest text = (true, q)

/-- No line after the first supplies one of the three, in any letter case. -/
def Plain (text : ByteString) : Prop :=
  ∀ name ∈ requestNames, chosen name (laterFields text) = none

/-- For each of the three, the field that the later lines supply for it does
not come before the one of the first line, or says the same. -/
def Neutral (text : ByteString) : Prop :=
  ∀ name ∈ requestNames, ∀ e, chosen name (laterFields text) = some e →
    (∃ own, chosen name (ownFields text) = some own ∧ ¬ e.1 < own.1) ∨
      e.2 = valueOf (chosen name (ownFields text))

/-- The three options agree, and with them the checks of the read handlers,
which look at nothing else. -/
structure SameRequest (q q' : HttpParser) : Prop where
  option : ∀ name ∈ requestNames, q.requestOption name = q'.requestOption name
  isPost : q.isPost = q'.isPost
  acceptsUri : q.acceptsUri = q'.acceptsUri
  analyse : q.hasUri "/analyse" = q'.hasUri "/analyse"

/-- Accepted heads of the set with the same first line are treated alike,
whatever fields they have. -/
def RequestLineDecides (heads : Set ByteString) : Prop :=
  ∀ text ∈ heads, ∀ text' ∈ heads, ∀ q q', Accepted text q → Accepted text' q' →
    firstLine text = firstLine text' → SameRequest q q'

section RequestLine

variable {text text' name : ByteString} {q q' : HttpParser}

theorem SameRequest.of_option
    (h : ∀ name ∈ requestNames, q.requestOption name = q'.requestOption name) :
    SameRequest q q' := by
  have hmethod := h HeaderOptions.requestMethod (by simp [requestNames])
  have huri : ∀ uri, q.hasUri uri = q'.hasUri uri := by
    intro uri
    rw [hasUri, h HeaderOptions.requestUri (by simp [requestNames]), hasUri]
  refine ⟨h, ?_, ?_, huri _⟩
  · rw [HttpParser.isPost, hmethod, HttpParser.isPost]
  · rw [HttpParser.acceptsUri, huri, huri, huri, HttpParser.acceptsUri]

theorem fields_readLines (text : ByteString) :
    fields (readLines text) = ownFields text ++ laterFields text := by
  rw [ownFields, laterFields, firstLine]
  cases readLines text with
  | nil => rfl
  | cons first rest => simp [fields]

theorem requestOption_of_accepted (h : Accepted text q) (hname : name ∈ requestNames) :
    q.requestOption name = valueOf ((chosen name (laterFields text)).elim
      (chosen name (ownFields text)) (OrderedMap.leadingOf (chosen name (ownFields text)))) := by
  obtain ⟨p, h⟩ := h
  have hkey : name ≠ [] ∧ iequals name HeaderOptions.requestBody = false := by
    have hall : ∀ name ∈ requestNames,
        name ≠ [] ∧ iequals name HeaderOptions.requestBody = false := by decide +kernel
    exact hall name hname
  rw [requestOption_of_parses h hkey.1 hkey.2, fields_readLines, chosen_append]

/-- A head answers with the value of its first line exactly if it is neutral.
This is the lookup, line by line. -/
theorem neutral_iff (h : Accepted text q) : Neutral text ↔
    ∀ name ∈ requestNames, q.requestOption name = valueOf (chosen name (ownFields text)) := by
  apply forall₂_congr
  intro name hname
  rw [requestOption_of_accepted h hname]
  cases hlater : chosen name (laterFields text) with
  | none => simp
  | some e =>
      cases hown : chosen name (ownFields text) with
      | none => simp [OrderedMap.leadingOf, valueOf]
      | some own =>
          by_cases hlt : e.1 < own.1
          · simp [OrderedMap.leadingOf, valueOf, hlt, Std.not_le.mpr hlt]
          · simp [OrderedMap.leadingOf, valueOf, hlt, Std.not_lt.mp hlt]

theorem Plain.neutral (h : Plain text) : Neutral text := by
  intro name hname e he
  rw [h name hname] at he
  cases he

/-- The head that adds one line that supplies nothing, so that the first line
is all that it says. -/
def plainHead (first : ByteString) : ByteString := first ++ 10 :: 88 :: crlf2

private theorem find_plainHead {first : ByteString} (h : (10 : UInt8) ∉ first) :
    find crlf2 (plainHead first) = some (first.length + 2) := by
  induction first with
  | nil => decide
  | cons x xs ih =>
      obtain ⟨-, hxs⟩ := List.ne_and_not_mem_of_not_mem_cons h
      have hne : ¬ crlf2 <+: x :: plainHead xs := by
        intro hpre
        obtain ⟨-, hpre⟩ := List.cons_prefix_cons.mp hpre
        cases xs with
        | nil =>
            obtain ⟨-, hpre⟩ := List.cons_prefix_cons.mp hpre
            exact absurd (List.cons_prefix_cons.mp hpre).1 (by decide)
        | cons y ys =>
            have hy : (10 : UInt8) = y := (List.cons_prefix_cons.mp hpre).1
            exact hxs (hy ▸ List.mem_cons_self)
      change find crlf2 (x :: plainHead xs) = _
      rw [find_cons_of_not_isPrefix hne, ih hxs]
      rfl

private theorem first_of_accepted {first : ByteString} (h : Accepted text q)
    (hfirst : firstLine text = some first) :
    (10 : UInt8) ∉ first ∧ (0 : UInt8) ∉ first ∧ first ≠ [13] := by
  obtain ⟨p, h⟩ := h
  obtain ⟨i, hi⟩ := find_of_parses h
  rw [firstLine, readLines_of_find hi] at hfirst
  cases hlines : lines ((cString text).take (i + 4)) with
  | nil =>
      rw [hlines] at hfirst
      cases hfirst
  | cons line rest =>
      have hmem : line ∈ lines ((cString text).take (i + 4)) := hlines ▸ List.mem_cons_self
      have hline : line ≠ [13] := by
        rintro rfl
        rw [hlines] at hfirst
        cases hfirst
      rw [hlines, List.takeWhile_cons_of_pos (by simpa using hline)] at hfirst
      obtain rfl : line = first := Option.some.inj hfirst
      refine ⟨newline_notMem_of_mem_lines hmem, fun hnul => ?_, hline⟩
      have hc := List.mem_of_mem_take (mem_of_mem_lines hmem hnul)
      simpa using List.mem_takeWhile_imp hc

private theorem plainHead_lines {first : ByteString} (hnl : (10 : UInt8) ∉ first)
    (hnul : (0 : UInt8) ∉ first) : ∃ i, find crlf2 (cString (plainHead first)) = some i ∧
      lines ((cString (plainHead first)).take (i + 4)) = [first, [88, 13], [13]] := by
  have hc : cString (plainHead first) = plainHead first := by
    apply cString_eq_self
    simpa [plainHead, crlf2] using hnul
  refine ⟨first.length + 2, by rw [hc, find_plainHead hnl], ?_⟩
  rw [hc, List.take_of_length_le (by simp [plainHead, crlf2]), plainHead,
    lines_append_newline _ hnl]
  rfl

/-- Every accepted head has a plain one with its first line, so it
can be held against that. -/
theorem exists_plain (h : Accepted text q) :
    ∃ text' q', Accepted text' q' ∧ Plain text' ∧ firstLine text' = firstLine text := by
  cases hlines : readLines text with
  | nil =>
      refine ⟨text, q, h, fun name _ => ?_, rfl⟩
      rw [laterFields, hlines]
      rfl
  | cons first rest =>
      have hfirst : firstLine text = some first := by rw [firstLine, hlines]; rfl
      obtain ⟨hnl, hnul, hblank⟩ := first_of_accepted h hfirst
      obtain ⟨i, hi, hhead⟩ := plainHead_lines hnl hnul
      have hread : readLines (plainHead first) = [first, [88, 13]] := by
        rw [readLines_of_find hi, hhead, List.takeWhile_cons_of_pos (by simpa using hblank)]
        rfl
      obtain ⟨q', haccepted⟩ : ∃ q', Accepted (plainHead first) q' :=
        ⟨_, .init, parseRequest_eq hi .init⟩
      refine ⟨plainHead first, q', haccepted, fun name _ => ?_, ?_⟩
      · rw [laterFields, hread]
        rfl
      · rw [firstLine, hread, hfirst]
        rfl

/-- Among the plain heads and any others the request line decides exactly if
the others are neutral. -/
theorem request_line_decides_iff (heads : Set ByteString) :
    RequestLineDecides (heads ∪ {text | Plain text}) ↔
      ∀ text ∈ heads, ∀ q, Accepted text q → Neutral text := by
  constructor
  · intro hdecides text htext q h
    obtain ⟨text', q', h', hplain, hfirst⟩ := exists_plain h
    have hsame := hdecides text (.inl htext) text' (.inr hplain) q q' h h' hfirst.symm
    refine (neutral_iff h).mpr fun name hname => ?_
    rw [hsame.option name hname, (neutral_iff h').mp hplain.neutral name hname, ownFields, hfirst]
    rfl
  · intro hneutral text htext text' htext' q q' h h' hfirst
    have hall : ∀ text ∈ heads ∪ {text | Plain text}, ∀ q, Accepted text q → Neutral text := by
      rintro text (htext | hplain) q h
      · exact hneutral text htext q h
      · exact Plain.neutral hplain
    refine .of_option fun name hname => ?_
    rw [(neutral_iff h).mp (hall text htext q h) name hname,
      (neutral_iff h').mp (hall text' htext' q' h') name hname, ownFields, hfirst]
    rfl

end RequestLine

/-- The same request line, alone and with a header field that names the
method in another case. -/
def honest : ByteString := ofString "POST /analyse HTTP/1.1\r\n\r\n"

def forged : ByteString := ofString "POST /analyse HTTP/1.1\r\nRequest_Method_: GET\r\n\r\n"

private theorem accepted_of_answer (text method : ByteString) (post : Bool)
    (hok : (HttpParser.init.parseRequest text).1 = true)
    (hmethod : (HttpParser.init.parseRequest text).2.requestOption
      HeaderOptions.requestMethod = method)
    (hpost : (HttpParser.init.parseRequest text).2.isPost = post) :
    ∃ q, Accepted text q ∧ q.requestOption HeaderOptions.requestMethod = method ∧
      q.isPost = post :=
  ⟨_, ⟨.init, Prod.ext hok rfl⟩, hmethod, hpost⟩

/-- Both are accepted with the same first line; one is a POST, the other a GET,
by a field that the client has named so. -/
theorem header_forges_method : ¬ RequestLineDecides {honest, forged} ∧
    firstLine honest = firstLine forged ∧
    (∃ q, Accepted honest q ∧ q.requestOption HeaderOptions.requestMethod = ofString "POST" ∧
      q.isPost = true) ∧
    ∃ q, Accepted forged q ∧ q.requestOption HeaderOptions.requestMethod = ofString "GET" ∧
      q.isPost = false := by
  have hfirst : firstLine honest = firstLine forged := by decide +kernel
  have hhonest := accepted_of_answer honest (ofString "POST") true (by decide +kernel)
    (by decide +kernel) (by decide +kernel)
  have hforged := accepted_of_answer forged (ofString "GET") false (by decide +kernel)
    (by decide +kernel) (by decide +kernel)
  refine ⟨fun hdecides => ?_, hfirst, hhonest, hforged⟩
  obtain ⟨q, hq, -, hpost⟩ := hhonest
  obtain ⟨q', hq', -, hpost'⟩ := hforged
  have hsame := (hdecides honest (.inl rfl) forged (.inr rfl) q q' hq hq' hfirst).isPost
  rw [hpost, hpost'] at hsame
  cases hsame

end HttpParser

end Ailawd
