import Ailawd.Model.Reply
import Ailawd.Connection.HeaderRoundTrip

/-!
# Replies can be decoded

A reply is a head in the sense of `renderHead` with the content behind it, so its first
CRLFCRLF is where the content begins, whatever the content holds. The status line has no
colon and a slash after its first letters, hence inserts nothing, and the six header fields
have six names.
-/

namespace Ailawd

open ByteString HttpProto Reply

def Reply.Header.line (h : Header) : ByteString := h.name ++ headerNameValueSeparator ++ h.value

/-- A header field that can be read back: trimmed, on one line, and
with no colon in its name. -/
structure Reply.Header.Readable (h : Header) : Prop where
  name_ne : h.name ≠ []
  name_trimmed : Trimmed h.name
  name_oneLine : OneLine h.name
  name_colon : 58 ∉ h.name
  value_trimmed : Trimmed h.value
  value_oneLine : OneLine h.value

section Replies

variable {hs : List Header} {date status : ByteString} {size : Nat}

theorem foldl_render (hs : List Header) (str : ByteString) :
    hs.foldl (fun str h => str ++ h.render) str ++ headerCrlf =
      str ++ renderHead (hs.map Header.line) := by
  induction hs generalizing str with
  | nil => rfl
  | cons h rest ih =>
      rw [List.foldl_cons, ih, List.map_cons, renderHead_cons]
      simp [Header.render, Header.line, headerCrlf]

/-- The header fields as lines with one space after the colon, as
the encoder writes them. -/
theorem exists_fieldLines (h : ∀ h ∈ hs, h.Readable) : ∃ fs : List FieldLine,
    fs.map FieldLine.text = hs.map Header.line ∧
      fs.map FieldLine.entry = hs.map fun h => (h.name, h.value) := by
  induction hs with
  | nil => exact ⟨[], rfl, rfl⟩
  | cons header rest ih =>
      obtain ⟨hheader, hrest⟩ := List.forall_mem_cons.mp h
      obtain ⟨fs, htext, hentry⟩ := ih hrest
      let f : FieldLine :=
        { name := header.name, value := header.value
          lead := [], beforeColon := [], afterColon := [32], trail := []
          name_ne := hheader.name_ne
          name_trimmed := hheader.name_trimmed
          name_oneLine := hheader.name_oneLine
          name_colon := hheader.name_colon
          value_trimmed := hheader.value_trimmed
          value_oneLine := hheader.value_oneLine
          blank := by decide +kernel }
      have hline : f.text = header.line := by
        simp [f, FieldLine.text, Header.line, headerNameValueSeparator, ofString]
      exact ⟨f :: fs, by rw [List.map_cons, List.map_cons, hline, htext],
        by rw [List.map_cons, List.map_cons, hentry]; rfl⟩

theorem names_headers (date : ByteString) (size : Nat) : (headers date size).map Header.name =
    [ofString "Server", ofString "Date", ofString "Content-Length", ofString "Content-Type",
      ofString "Connection", ofString "Access-Control-Allow-Origin"] := rfl

theorem readable_headers (htrim : Trimmed date) (hline : OneLine date) (size : Nat) :
    ∀ h ∈ headers date size, h.Readable := by
  have hnames : ∀ name ∈ (headers date size).map Header.name,
      name ≠ [] ∧ Trimmed name ∧ OneLine name ∧ 58 ∉ name := by
    rw [names_headers]
    decide +kernel
  have hdigits : ∀ b ∈ decimal size, isSpace b = false ∧ b ≠ 13 ∧ b ≠ 10 ∧ b ≠ 0 := by
    have hall : ∀ b, isDigit b = true → isSpace b = false ∧ b ≠ 13 ∧ b ≠ 10 ∧ b ≠ 0 :=
      forall_byte (by decide +kernel)
    exact fun b hb => hall b (isDigit_of_mem_decimal b hb)
  have hvalues : ∀ h ∈ headers date size, Trimmed h.value ∧ OneLine h.value := by
    intro h hmem
    simp only [headers, List.mem_cons, List.not_mem_nil, or_false] at hmem
    obtain rfl | rfl | rfl | rfl | rfl | rfl := hmem
    · decide +kernel
    · exact ⟨htrim, hline⟩
    · exact ⟨trim_of_not_isSpace fun b hb => (hdigits b hb).1, fun b hb => (hdigits b hb).2⟩
    all_goals decide +kernel
  intro h hmem
  obtain ⟨hne, hname, hplain, hcolon⟩ := hnames h.name (List.mem_map_of_mem hmem)
  exact ⟨hne, hname, hplain, hcolon, (hvalues h hmem).1, (hvalues h hmem).2⟩

/-- A status line breaks off before the end of the reply's first line, and
stores nothing: it is no request line and has no colon. -/
theorem status_line (h : status ∈ Status.all) : ∃ text, status = text ++ [13, 10] ∧
    text ≠ [] ∧ OneLine text ∧ (ofString "Content-Length:").isPrefixOf (text ++ [13]) = false ∧
      HttpParser.lineFields (text ++ [13]) = [] := by
  have hall : ∀ status ∈ Status.all, ∃ rest, status = ofString "HTTP/" ++ rest ++ [13, 10] ∧
      OneLine rest ∧ 58 ∉ rest := by
    have hshape : ∀ status ∈ Status.all,
        status = ofString "HTTP/" ++ (status.drop 5).dropLast.dropLast ++ [13, 10] ∧
          OneLine (status.drop 5).dropLast.dropLast ∧
          58 ∉ (status.drop 5).dropLast.dropLast := by
      decide +kernel
    exact fun status hstatus => ⟨_, hshape status hstatus⟩
  obtain ⟨rest, rfl, hrest, hplain⟩ := hall status h
  have htext : ofString "HTTP/" = [72, 84, 84, 80, 47] := by decide +kernel
  have hcolon : 58 ∉ ofString "HTTP/" ++ rest ++ [13] := by
    rw [htext]
    simpa using hplain
  -- the slash stands where a request line has a space
  have hmatch : HttpParser.matchRequestLine (ofString "HTTP/" ++ rest ++ [13]) = none := by
    rw [htext]
    simp [HttpParser.matchRequestLine, isAlpha]
  refine ⟨_, rfl, by simp [htext], ?_, by rw [htext]; rfl, ?_⟩
  · have hstart : OneLine (ofString "HTTP/") := by decide +kernel
    exact hstart.append hrest
  · rw [HttpParser.lineFields, if_neg hcolon, hmatch]

theorem contentLength_line (date : ByteString) (size : Nat) :
    ((headers date size).map fun h => h.line ++ [13]).filter
        (fun item => (ofString "Content-Length:").isPrefixOf item) =
      [ofString "Content-Length: " ++ decimal size ++ [13]] := by
  have hstart : ∀ h ∈ headers date size, (ofString "Content-Length:").isPrefixOf (h.line ++ [13]) =
      decide (h.name = ofString "Content-Length") := by
    intro h hmem
    simp only [headers, List.mem_cons, List.not_mem_nil, or_false] at hmem
    obtain rfl | rfl | rfl | rfl | rfl | rfl := hmem <;> rfl
  rw [List.filter_map]
  exact congrArg (List.map fun h : Header => h.line ++ [13]) (List.filter_congr hstart)

/-- What is in a reply, and what the parser finds in it: its content behind the
head, and its fields under their names. -/
theorem reply_round_trip (date content status : ByteString) (htrim : Trimmed date)
    (hline : OneLine date) (hstatus : status ∈ Status.all) :
    ∃ i, find crlf2 (replyGenerate date content status) = some i ∧
      (replyGenerate date content status).drop (i + 4) = content ∧
      (lines ((replyGenerate date content status).take (i + 4))).filter
          (fun item => (ofString "Content-Length:").isPrefixOf item) =
        [ofString "Content-Length: " ++ decimal content.length ++ [13]] ∧
      ∃ q, (∀ p : HttpParser,
          p.parseRequest (replyGenerate date content status) = (true, q)) ∧
        (∀ h ∈ headers date content.length, ∀ name, iequals name h.name = true →
          q.requestOption name = h.value) ∧
        q.requestOption HeaderOptions.requestBody = cString content ∧
        ((0 : UInt8) ∉ content → q.requestOption HeaderOptions.requestBody = content) := by
  obtain ⟨text, rfl, hne, htext, hstart, hfields⟩ := status_line hstatus
  obtain ⟨fs, hlines, hentries⟩ :=
    exists_fieldLines (readable_headers htrim hline content.length)
  set hs := headers date content.length with hhs
  set head := renderHead (text :: fs.map FieldLine.text) with hhead
  have hreply : replyGenerate date content (text ++ [13, 10]) = head ++ content := by
    rw [replyGenerate, foldl_render, hhead, hlines, renderHead_cons, List.append_assoc text]
    rfl
  have hwhole : WholeHead head := wholeHead_renderHead (headLines hne htext fs)
  have hdistinct : HttpParser.DistinctNames ((HeaderOptions.requestBody, cString content) ::
      ([] ++ fs.map FieldLine.entry)) := by
    rw [HttpParser.DistinctNames, List.nil_append, hentries, List.map_cons, List.map_map]
    change ((HeaderOptions.requestBody :: hs.map Header.name).Pairwise
      fun name other => iequals name other = false)
    rw [hhs, names_headers]
    decide +kernel
  have hne_body : HeaderOptions.requestBody ≠ [] := by decide
  have hbody := HttpParser.requestOption_of_distinct hdistinct List.mem_cons_self
    (iequals_refl _) hne_body
  refine ⟨head.length - 4, ?_, ?_, ?_, _, fun p => ?_, ?_, hbody, fun hnul => ?_⟩
  · rw [hreply]
    exact find_append hwhole content
  · rw [hreply, hwhole.length, List.drop_left]
  · rw [hreply, hwhole.length, List.take_left, hhead,
      lines_renderHead (headLines hne htext fs).oneLine, hlines, List.map_cons, List.map_map,
      List.cons_append, List.filter_cons_of_neg (by simp [hstart]), List.filter_append]
    have hfilter := contentLength_line date content.length
    rw [← hhs] at hfilter
    rw [show ((fun x => x ++ [13]) ∘ Header.line) = fun h => h.line ++ [13] from rfl, hfilter]
    rfl
  · rw [hreply]
    exact parseRequest_lines hne htext hfields fs content p
  · intro h hmem name hname
    have hentry : (h.name, h.value) ∈ (HeaderOptions.requestBody, cString content) ::
        ([] ++ fs.map FieldLine.entry) := by
      rw [List.nil_append, hentries]
      exact List.mem_cons_of_mem _ (List.mem_map_of_mem (f := fun h => (h.name, h.value)) hmem)
    refine HttpParser.requestOption_of_distinct hdistinct hentry hname ?_
    rintro rfl
    have hnil := iequals_iff.mp hname
    rw [List.map_nil, eq_comm, List.map_eq_nil_iff] at hnil
    exact (readable_headers htrim hline _ h hmem).name_ne hnil
  · rw [hbody, cString_eq_self hnul]

/-- A reply whose content looks like the end of a head, which does not move the
end of the real one. -/
theorem reply_round_trip_crlf2 : ∃ q, (∀ p : HttpParser,
      p.parseRequest (replyGenerate (ofString "2016-Nov-01 08:30:00") crlf2 Status.notFound) =
        (true, q)) ∧
    q.requestOption (ofString "CONTENT-length") = ofString "4" ∧
    q.requestOption (ofString "date") = ofString "2016-Nov-01 08:30:00" ∧
    q.requestOption HeaderOptions.requestBody = crlf2 := by
  obtain ⟨i, -, -, -, q, hparses, hheader, -, hbody⟩ := reply_round_trip
    (ofString "2016-Nov-01 08:30:00") crlf2 Status.notFound (by decide +kernel) (by decide +kernel)
    (by decide)
  refine ⟨q, hparses, ?_, ?_, hbody (by decide)⟩
  · exact hheader ⟨ofString "Content-Length", decimal 4⟩ (by simp [headers, crlf2]) _
      (by decide +kernel)
  · exact hheader ⟨ofString "Date", ofString "2016-Nov-01 08:30:00"⟩ (by simp [headers]) _
      (by decide +kernel)

end Replies

end Ailawd
