import Ailawd.Connection.Heads

/-!
# Request lines and header fields as they are written

A `FieldLine` is a header field with all the white space that may stand around its name and
its value, a `RequestLine` is a method, a URI and an optional version with the spaces
between them. `lineFields_text` says of each what the parser stores for it.

`header_round_trip` puts them together to a head: every field is found under its name in any
case, in any order of the fields, and nothing else is found. `decodes_iff` is about the
request line itself, which is only recognised if it has no colon.
-/

namespace Ailawd

open ByteString HttpProto

/-- A line `name: value` with white space around both. The name has no colon,
so the line is split where it was put together. -/
structure FieldLine where
  name : ByteString
  value : ByteString
  lead : ByteString
  beforeColon : ByteString
  afterColon : ByteString
  trail : ByteString
  name_ne : name ≠ []
  name_trimmed : Trimmed name
  name_oneLine : OneLine name
  name_colon : 58 ∉ name
  value_trimmed : Trimmed value
  value_oneLine : OneLine value
  blank : ∀ b ∈ lead ++ beforeColon ++ afterColon ++ trail, isSpace b = true ∧ b ≠ 13 ∧ b ≠ 10

/-- A line `METHOD URI VERSION`; the version may be missing. The gaps
are as wide as one likes. -/
structure RequestLine where
  method : ByteString
  uri : ByteString
  version : Option ByteString
  /-- The spaces after the method, and those after the URI, each beyond the first one. -/
  gap : Nat
  versionGap : Nat
  method_ne : method ≠ []
  method_alpha : ∀ b ∈ method, isAlpha b = true
  uri_space : 32 ∉ uri
  uri_oneLine : OneLine uri
  uri_proper : ∃ b ∈ uri, b ≠ 47 ∧ isSpace b = false
  version_oneLine : ∀ text ∈ version, OneLine text

namespace FieldLine

def text (f : FieldLine) : ByteString :=
  f.lead ++ f.name ++ f.beforeColon ++ 58 :: (f.afterColon ++ f.value ++ f.trail)

def entry (f : FieldLine) : ByteString × ByteString := (f.name, f.value)

variable (f : FieldLine)

theorem isSpace_of_mem {b : UInt8} (h : b ∈ f.lead ++ f.beforeColon ++ f.afterColon ++ f.trail) :
    isSpace b = true := (f.blank b h).1

theorem text_ne : f.text ≠ [] := by simp [text]

theorem oneLine_text : OneLine f.text := by
  have hblank : ∀ b ∈ f.lead ++ f.beforeColon ++ f.afterColon ++ f.trail,
      b ≠ 13 ∧ b ≠ 10 ∧ b ≠ 0 := by
    intro b hb
    obtain ⟨hspace, hcr, hlf⟩ := f.blank b hb
    refine ⟨hcr, hlf, ?_⟩
    rintro rfl
    cases hspace
  intro b hb
  simp only [text, List.mem_append, List.mem_cons] at hb hblank
  obtain ((hb | hb) | hb) | rfl | ((hb | hb) | hb) := hb
  · exact hblank b (by simp [hb])
  · exact f.name_oneLine b hb
  · exact hblank b (by simp [hb])
  · decide
  · exact hblank b (by simp [hb])
  · exact f.value_oneLine b hb
  · exact hblank b (by simp [hb])

/-- The first colon ends the name, and white space is trimmed, the carriage
return at the end of the line included. -/
theorem lineFields_text : HttpParser.lineFields (f.text ++ [13]) = [f.entry] := by
  have hcolon : 58 ∉ f.lead ++ f.beforeColon ++ f.afterColon ++ f.trail := fun hmem =>
    absurd (f.isSpace_of_mem hmem) (by decide)
  have hfront : 58 ∉ f.lead ++ f.name ++ f.beforeColon := by
    intro hb
    simp only [List.mem_append] at hb
    obtain (hb | hb) | hb := hb
    · exact hcolon (by simp [hb])
    · exact f.name_colon hb
    · exact hcolon (by simp [hb])
  have hname : trim (f.lead ++ f.name ++ f.beforeColon) = f.name := by
    rw [trim_surrounded f.name (fun b hb => f.isSpace_of_mem (by simp [hb]))
      (fun b hb => f.isSpace_of_mem (by simp [hb]))]
    exact f.name_trimmed
  have hvalue : trim (f.afterColon ++ f.value ++ (f.trail ++ [13])) = f.value := by
    rw [trim_surrounded f.value (fun b hb => f.isSpace_of_mem (by simp [hb]))]
    · exact f.value_trimmed
    · intro b hb
      obtain hb | hb := List.mem_append.mp hb
      · exact f.isSpace_of_mem (by simp [hb])
      · rw [List.mem_singleton.mp hb]
        rfl
  have htext : f.text ++ [13] = (f.lead ++ f.name ++ f.beforeColon) ++
      58 :: (f.afterColon ++ f.value ++ (f.trail ++ [13])) := by
    simp [text]
  rw [htext, HttpParser.lineFields_colon hfront, hname, hvalue]
  rfl

end FieldLine

def stripped (uri : ByteString) : ByteString := (uri.reverse.dropWhile (· = 47)).reverse

theorem stripSlashes_eq (uri : ByteString) : HttpParser.stripSlashes uri = stripped uri := by
  have hrev : ∀ xs : ByteString, HttpParser.stripSlashesRev xs = xs.dropWhile (· = 47) := by
    intro xs
    induction xs with
    | nil => rfl
    | cons x xs ih =>
        rw [HttpParser.stripSlashesRev]
        split
        next hx => rw [List.dropWhile_cons_of_pos (by simpa using hx), ih]
        next hx => rw [List.dropWhile_cons_of_neg (by simpa using hx)]
  rw [HttpParser.stripSlashes, hrev]
  rfl

namespace RequestLine

variable (line : RequestLine)

def versionPart : ByteString :=
  match line.version with
  | none => []
  | some text => List.replicate (line.versionGap + 1) 32 ++ text

def text : ByteString :=
  line.method ++ List.replicate (line.gap + 1) 32 ++ line.uri ++ line.versionPart

/-- What is stored for the line if it is recognised: the method in upper case,
and the URI without the slashes at its end. -/
def entries : List (ByteString × ByteString) :=
  [(HeaderOptions.requestMethod, line.method.map toUpper),
   (HeaderOptions.requestUri, stripped (trim line.uri)),
   (HeaderOptions.httpVersion, trim (line.version.getD []))]

theorem text_ne : line.text ≠ [] := by simp [text, line.method_ne]

theorem oneLine_text : OneLine line.text := by
  have hspaces : ∀ n, OneLine (List.replicate n 32) := by
    intro n b hb
    rw [List.eq_of_mem_replicate hb]
    decide
  have hmethod : OneLine line.method := by
    intro b hb
    have halpha := line.method_alpha b hb
    refine ⟨?_, ?_, ?_⟩ <;> rintro rfl <;> cases halpha
  have hversion : OneLine line.versionPart := by
    rw [versionPart]
    split
    · exact fun b hb => absurd hb List.not_mem_nil
    next text htext => exact (hspaces _).append (line.version_oneLine text htext)
  exact ((hmethod.append (hspaces _)).append line.uri_oneLine).append hversion

/-- The URI as the regex delimits it: a missing version leaves
it the carriage return. -/
private theorem uri_split : ∃ cr, (cr = [] ∨ cr = [13]) ∧
    (line.uri ++ line.versionPart ++ [13]).takeWhile (· ≠ 32) = line.uri ++ cr ∧
    trim ((line.uri ++ line.versionPart ++ [13]).dropWhile (· ≠ 32)) =
      trim (line.version.getD []) := by
  have huri : ∀ b ∈ line.uri, decide (b ≠ 32) = true := by
    intro b hb
    rw [decide_eq_true_eq]
    rintro rfl
    exact line.uri_space hb
  rw [List.append_assoc, List.takeWhile_append_of_pos huri, List.dropWhile_append_of_pos huri,
    versionPart]
  cases line.version with
  | none => exact ⟨[13], .inr rfl, rfl, rfl⟩
  | some text =>
      refine ⟨[], .inl rfl, by simp [List.replicate_succ], ?_⟩
      have hdrop : (List.replicate (line.versionGap + 1) 32 ++ text ++ [13]).dropWhile (· ≠ 32) =
          List.replicate (line.versionGap + 1) 32 ++ text ++ [13] := by
        simp [List.replicate_succ]
      rw [hdrop]
      refine trim_surrounded text (fun b hb => ?_) (by simp [isSpace])
      rw [List.eq_of_mem_replicate hb]
      rfl

/-- A line without a colon is recognised, whatever its
method and its URI are. -/
theorem matches_text : ∃ uri version,
    HttpParser.matchRequestLine (line.text ++ [13]) = some (line.method, uri, version) ∧
      trim uri = trim line.uri ∧ trim version = trim (line.version.getD []) := by
  obtain ⟨cr, hcr, htake, hdrop⟩ := line.uri_split
  have htext : line.text ++ [13] = line.method ++ (32 :: (List.replicate line.gap 32 ++
      (line.uri ++ line.versionPart ++ [13]))) := by
    simp [text, List.replicate_succ]
  obtain ⟨b, bs, huri⟩ := List.exists_cons_of_ne_nil
    (show line.uri ≠ [] from fun hnil => by
      obtain ⟨b, hb, -⟩ := line.uri_proper
      rw [hnil] at hb
      cases hb)
  have hb : b ≠ 32 := by
    rintro rfl
    exact line.uri_space (huri ▸ List.mem_cons_self)
  have htarget : (32 :: (List.replicate line.gap 32 ++
      (line.uri ++ line.versionPart ++ [13]))).dropWhile (· = 32) =
        line.uri ++ line.versionPart ++ [13] := by
    rw [List.dropWhile_cons_of_pos rfl, List.dropWhile_append_of_pos (by simp), huri,
      List.cons_append, List.cons_append, List.dropWhile_cons_of_neg (by simpa using hb)]
  refine ⟨line.uri ++ cr, _, ?_, ?_, hdrop⟩
  · rw [htext, HttpParser.matchRequestLine, List.takeWhile_append_of_pos line.method_alpha,
      List.dropWhile_append_of_pos line.method_alpha, List.takeWhile_cons_of_neg (by decide),
      List.dropWhile_cons_of_neg (by decide), htarget, htake, List.append_nil, if_neg]
    simp [line.method_ne, huri]
  · obtain rfl | rfl := hcr
    · rw [List.append_nil]
    · exact trim_append line.uri (by simp [isSpace])

theorem lineFields_of_matches (hcolon : 58 ∉ line.text) :
    HttpParser.lineFields (line.text ++ [13]) = line.entries := by
  have hline : 58 ∉ line.text ++ [13] := by simpa using hcolon
  obtain ⟨uri, version, hmatch, huri, hversion⟩ := line.matches_text
  have hmethod : trim (line.method.map toUpper) = line.method.map toUpper := by
    refine trim_of_not_isSpace fun b hb => ?_
    obtain ⟨c, hc, rfl⟩ := List.mem_map.mp hb
    have halpha : ∀ c, isAlpha c = true → isSpace (toUpper c) = false :=
      forall_byte (by decide +kernel)
    exact halpha c (line.method_alpha c hc)
  have hstrip : HttpParser.stripSlashes (trim uri) = stripped (trim line.uri) := by
    rw [huri, stripSlashes_eq]
  rw [HttpParser.lineFields, if_neg hline, hmatch]
  simp only [hstrip, hmethod, hversion, entries]

end RequestLine

def postLine : RequestLine where
  method := ofString "Post"
  uri := ofString "/ailaw/"
  version := some (ofString "HTTP/1.1 ")
  gap := 1
  versionGap := 0
  method_ne := by decide +kernel
  method_alpha := by decide +kernel
  uri_space := by decide +kernel
  uri_oneLine := by decide +kernel
  uri_proper := ⟨97, by decide +kernel, by decide⟩
  version_oneLine := by rintro text ⟨⟩; decide +kernel

def absoluteLine : RequestLine where
  method := ofString "GET"
  uri := ofString "http://a/"
  version := some (ofString "HTTP/1.1")
  gap := 0
  versionGap := 0
  method_ne := by decide +kernel
  method_alpha := by decide +kernel
  uri_space := by decide +kernel
  uri_oneLine := by decide +kernel
  uri_proper := ⟨97, by decide +kernel, by decide⟩
  version_oneLine := by rintro text ⟨⟩; decide +kernel

def hostField : FieldLine where
  name := ofString "Host"
  value := ofString "a:80"
  lead := []
  beforeColon := [32]
  afterColon := [32, 9]
  trail := []
  name_ne := by decide +kernel
  name_trimmed := by decide +kernel
  name_oneLine := by decide +kernel
  name_colon := by decide +kernel
  value_trimmed := by decide +kernel
  value_oneLine := by decide +kernel
  blank := by decide +kernel

/-- The names under which the parser keeps what is not a header field. A client
may send fields of these names. -/
def pseudoNames : List ByteString :=
  [HeaderOptions.requestBody, HeaderOptions.requestMethod, HeaderOptions.requestUri,
    HeaderOptions.httpVersion]

def RequestLine.head (line : RequestLine) (fs : List FieldLine) : ByteString :=
  renderHead (line.text :: fs.map FieldLine.text)

/-- No field is named like a pseudo-option, in any case. Otherwise the lookup
might choose the other one. -/
def Ordinary (fs : List FieldLine) : Prop :=
  ∀ f ∈ fs, ∀ name ∈ pseudoNames, iequals name f.name = false

section Heads

variable {line : RequestLine} {fs : List FieldLine}

theorem headLines {first : ByteString} (hne : first ≠ []) (hline : OneLine first)
    (fs : List FieldLine) : HeadLines (first :: fs.map FieldLine.text) := by
  refine ⟨by simp, ?_, ?_⟩
  · refine List.forall_mem_cons.mpr ⟨hne, ?_⟩
    exact List.forall_mem_map.mpr fun f _ => f.text_ne
  · refine List.forall_mem_cons.mpr ⟨hline, ?_⟩
    exact List.forall_mem_map.mpr fun f _ => f.oneLine_text

theorem fields_texts (fs : List FieldLine) :
    HttpParser.fields ((fs.map FieldLine.text).map (· ++ [13])) = fs.map FieldLine.entry := by
  induction fs with
  | nil => rfl
  | cons f rest ih =>
      rw [HttpParser.fields] at ih ⊢
      rw [List.map_cons, List.map_cons, List.flatMap_cons, f.lineFields_text, ih]
      rfl

/-- What the parser makes of a head, given what it makes of the first line. The
body goes in before the lines. -/
theorem parseRequest_lines {first : ByteString} {entries : List (ByteString × ByteString)}
    (hne : first ≠ []) (hline : OneLine first)
    (hfirst : HttpParser.lineFields (first ++ [13]) = entries)
    (fs : List FieldLine) (body : ByteString) (p : HttpParser) :
    p.parseRequest (renderHead (first :: fs.map FieldLine.text) ++ body) =
      (true, ⟨OrderedMap.empty.insertAll ((HeaderOptions.requestBody, cString body) ::
        (entries ++ fs.map FieldLine.entry))⟩) := by
  have hfields : HttpParser.fields ((first :: fs.map FieldLine.text).map (· ++ [13])) =
      entries ++ fs.map FieldLine.entry := by
    rw [List.map_cons, HttpParser.fields, List.flatMap_cons, hfirst, ← fields_texts fs]
    rfl
  rw [HttpParser.parseRequest_renderHead (headLines hne hline fs), hfields]

theorem names_of_head (line : RequestLine) (fs : List FieldLine) (body : ByteString) :
    ((HeaderOptions.requestBody, body) :: (line.entries ++ fs.map FieldLine.entry)).map Prod.fst =
      pseudoNames ++ fs.map FieldLine.name := by
  have hnames : (fs.map FieldLine.entry).map Prod.fst = fs.map FieldLine.name := by
    rw [List.map_map]
    rfl
  rw [List.map_cons, List.map_append, hnames]
  rfl

/-- Distinct names in a request stay distinct beside the pseudo-options, which
come with every request. -/
theorem distinctNames_head (line : RequestLine)
    (hdistinct : fs.Pairwise fun f g => iequals f.name g.name = false) (hordinary : Ordinary fs)
    (body : ByteString) : HttpParser.DistinctNames
      ((HeaderOptions.requestBody, body) :: (line.entries ++ fs.map FieldLine.entry)) := by
  rw [HttpParser.DistinctNames, names_of_head, List.pairwise_append]
  refine ⟨by decide +kernel, List.pairwise_map.mpr hdistinct, fun pseudo hpseudo name hname => ?_⟩
  obtain ⟨f, hf, rfl⟩ := List.mem_map.mp hname
  exact hordinary f hf pseudo hpseudo

/-- Whatever the parser held, each field is found under its name in any case,
and no other field is. -/
theorem header_round_trip (line : RequestLine) (hcolon : 58 ∉ line.text) (fs : List FieldLine)
    (hdistinct : fs.Pairwise fun f g => iequals f.name g.name = false) (hordinary : Ordinary fs)
    (body : ByteString) : ∃ q,
      (∀ p : HttpParser, p.parseRequest (line.head fs ++ body) = (true, q)) ∧
      (∀ f ∈ fs, ∀ name, iequals name f.name = true → q.requestOption name = f.value) ∧
      ∀ name, (∀ pseudo ∈ pseudoNames, iequals name pseudo = false) →
        (∀ f ∈ fs, iequals name f.name = false) → q.requestOption name = [] := by
  refine ⟨_, parseRequest_lines line.text_ne line.oneLine_text (line.lineFields_of_matches hcolon)
    fs body, ?_, ?_⟩
  · intro f hf name hname
    have hmem : f.entry ∈ (HeaderOptions.requestBody, cString body) ::
        (line.entries ++ fs.map FieldLine.entry) := by
      simp [List.mem_map_of_mem hf]
    refine HttpParser.requestOption_of_distinct
      (distinctNames_head line hdistinct hordinary _) hmem hname ?_
    rintro rfl
    have hnil := iequals_iff.mp hname
    rw [List.map_nil, eq_comm, List.map_eq_nil_iff] at hnil
    exact f.name_ne hnil
  · intro name hpseudo hfields
    apply HttpParser.requestOption_of_not_mem
    intro e he
    have hname := List.mem_map_of_mem (f := Prod.fst) he
    rw [names_of_head] at hname
    obtain hmem | hmem := List.mem_append.mp hname
    · exact hpseudo _ hmem
    · obtain ⟨f, hf, heq⟩ := List.mem_map.mp hmem
      rw [← heq]
      exact hfields f hf

theorem header_round_trip_post : ∃ q,
    (∀ p : HttpParser, p.parseRequest (postLine.head [hostField] ++ crlf2) = (true, q)) ∧
      q.requestOption (ofString "hOST") = ofString "a:80" ∧
      q.requestOption (ofString "Accept") = [] := by
  obtain ⟨q, hq, hfield, hnone⟩ := header_round_trip postLine (by decide) [hostField] (by simp)
    (by unfold Ordinary; decide +kernel) crlf2
  exact ⟨q, hq, hfield hostField (by simp) _ (by decide +kernel),
    hnone _ (by decide +kernel) (by decide +kernel)⟩

/-- The three options of a request with this line, as the
read handlers look them up. -/
structure RequestDecoded (line : RequestLine) (fs : List FieldLine) (body : ByteString)
    (q : HttpParser) : Prop where
  method : q.requestOption HeaderOptions.requestMethod = line.method.map toUpper
  uri : q.requestOption HeaderOptions.requestUri = stripped line.uri
  version : q.requestOption HeaderOptions.httpVersion = trim (line.version.getD [])
  parses : ∀ p : HttpParser, p.parseRequest (line.head fs ++ body) = (true, q)

theorem colon_mem_text_iff (line : RequestLine) :
    58 ∈ line.text ↔ 58 ∈ line.uri ∨ 58 ∈ line.version.getD [] := by
  have hmethod : 58 ∉ line.method := fun hmem => absurd (line.method_alpha 58 hmem) (by decide)
  have hversion : 58 ∈ line.versionPart ↔ 58 ∈ line.version.getD [] := by
    rw [RequestLine.versionPart]
    cases line.version with
    | none => rfl
    | some text => simp
  simp [RequestLine.text, hmethod, hversion]

/-- With a colon the line is taken for a field, and never for the method. So
the method stays empty. -/
theorem method_of_colon (hcolon : 58 ∈ line.text) :
    ∀ e ∈ HttpParser.lineFields (line.text ++ [13]),
      iequals HeaderOptions.requestMethod e.1 = false := by
  have hmem : 58 ∈ line.text ++ [13] := List.mem_append_left _ hcolon
  have hsplit : ∃ rest, (line.text ++ [13]).takeWhile (· ≠ 58) = line.method ++ 32 :: rest := by
    have hfront : ∀ b ∈ line.method ++ [32], decide (b ≠ 58) = true := by
      intro b hb
      rw [decide_eq_true_eq]
      rintro rfl
      obtain hb | hb := List.mem_append.mp hb
      · exact absurd (line.method_alpha 58 hb) (by decide)
      · simp at hb
    have htext : line.text ++ [13] = (line.method ++ [32]) ++
        (List.replicate line.gap 32 ++ line.uri ++ line.versionPart ++ [13]) := by
      simp [RequestLine.text, List.replicate_succ]
    rw [htext, List.takeWhile_append_of_pos hfront, List.append_assoc]
    exact ⟨_, rfl⟩
  obtain ⟨rest, hrest⟩ := hsplit
  rw [HttpParser.lineFields, if_pos hmem, hrest]
  intro e he
  rw [List.mem_singleton.mp he, Bool.eq_false_iff]
  intro heq
  have hdrop : (line.method ++ 32 :: rest).dropWhile isSpace = line.method ++ 32 :: rest := by
    obtain ⟨b, bs, hmethod⟩ := List.exists_cons_of_ne_nil line.method_ne
    have halpha : ∀ b, isAlpha b = true → isSpace b = false := forall_byte (by decide +kernel)
    have hb := halpha b (line.method_alpha b (hmethod ▸ List.mem_cons_self))
    rw [hmethod, List.cons_append, List.dropWhile_cons_of_neg (by simp [hb])]
  have hpre : trim (line.method ++ 32 :: rest) <+: line.method ++ 32 :: rest := by
    rw [trim, hdrop]
    exact trimRight_isPrefix _
  -- the name of the option has an underscore and no space
  have hunderscore : 95 ∈ trim (line.method ++ 32 :: rest) :=
    mem_of_iequals heq (by decide) (by decide)
  have hspace : 32 ∉ trim (line.method ++ 32 :: rest) := fun hmem =>
    absurd (mem_of_iequals ((iequals_comm _ _).trans heq) (by decide) hmem) (by decide)
  have hmethod : line.method ++ [32] <+: line.method ++ 32 :: rest := ⟨rest, by simp⟩
  obtain hle | hle := List.prefix_or_prefix_of_prefix hpre hmethod
  · obtain hmem | hmem := List.mem_append.mp (hle.subset hunderscore)
    · exact absurd (line.method_alpha 95 hmem) (by decide)
    · simp at hmem
  · exact hspace (hle.subset (List.mem_append_right _ List.mem_cons_self))

/-- The request line is decoded exactly if it has no colon, as an absolute URI
or a port would bring. -/
theorem decodes_iff (line : RequestLine) (huri : ∀ b ∈ line.uri, isSpace b = false)
    (fs : List FieldLine) (hordinary : Ordinary fs) (body : ByteString) :
    (∃ q, RequestDecoded line fs body q) ↔ 58 ∉ line.uri ∧ 58 ∉ line.version.getD [] := by
  have hfields : ∀ name ∈ pseudoNames, ∀ e ∈ fs.map FieldLine.entry, iequals name e.1 = false := by
    intro name hname e he
    obtain ⟨f, hf, rfl⟩ := List.mem_map.mp he
    exact hordinary f hf name hname
  rw [← not_or, ← colon_mem_text_iff]
  constructor
  · rintro ⟨q, hq⟩ hcolon
    have hresult := hq.parses HttpParser.init
    rw [RequestLine.head, parseRequest_lines line.text_ne line.oneLine_text rfl] at hresult
    obtain rfl := (Prod.mk.inj hresult).2
    have hmethod := hq.method
    rw [HttpParser.requestOption_of_not_mem, eq_comm, List.map_eq_nil_iff] at hmethod
    · exact line.method_ne hmethod
    · intro e he
      obtain rfl | he := List.mem_cons.mp he
      · have hbody : iequals HeaderOptions.requestMethod HeaderOptions.requestBody = false := by
          decide +kernel
        exact hbody
      · obtain he | he := List.mem_append.mp he
        · exact method_of_colon hcolon e he
        · exact hfields _ (by simp [pseudoNames]) e he
  · intro hcolon
    have hdistinct : HttpParser.DistinctNames ((HeaderOptions.requestBody, cString body) ::
        (line.entries ++ [].map FieldLine.entry)) :=
      distinctNames_head line .nil (by simp [Ordinary]) (cString body)
    have hoption : ∀ name ∈ pseudoNames, ∀ value, (name, value) ∈ line.entries →
        HttpParser.requestOption ⟨OrderedMap.empty.insertAll ((HeaderOptions.requestBody,
          cString body) :: (line.entries ++ fs.map FieldLine.entry))⟩ name = value := by
      intro name hname value hvalue
      rw [← List.cons_append, HttpParser.requestOption_append (hfields name hname)]
      have hmem : (name, value) ∈ (HeaderOptions.requestBody, cString body) ::
          (line.entries ++ [].map FieldLine.entry) := by
        simp [hvalue]
      have hne : name ≠ [] := by
        have hall : ∀ name ∈ pseudoNames, name ≠ [] := by decide +kernel
        exact hall name hname
      have h := HttpParser.requestOption_of_distinct hdistinct hmem (iequals_refl name) hne
      simpa using h
    refine ⟨_, ?_, ?_, ?_, parseRequest_lines line.text_ne line.oneLine_text
      (line.lineFields_of_matches hcolon) fs body⟩
    · exact hoption _ (by simp [pseudoNames]) _ (by simp [RequestLine.entries])
    · rw [← trim_of_not_isSpace huri]
      exact hoption _ (by simp [pseudoNames]) _ (by simp [RequestLine.entries])
    · exact hoption _ (by simp [pseudoNames]) _ (by simp [RequestLine.entries])

theorem decodes_iff_post : (∃ q, RequestDecoded postLine [hostField] [] q) ↔
    58 ∉ postLine.uri ∧ 58 ∉ postLine.version.getD [] :=
  decodes_iff postLine (by decide +kernel) [hostField] (by unfold Ordinary; decide +kernel) []

/-- An absolute URI leaves the request without method, URI and version, and
with a field that nobody sent. -/
theorem absolute_not_decoded : (¬ ∃ q, RequestDecoded absoluteLine [] [] q) ∧
    ∃ q, HttpParser.init.parseRequest (absoluteLine.head []) = (true, q) ∧
      q.requestOption HeaderOptions.requestMethod = [] ∧
      q.requestOption HeaderOptions.requestUri = [] ∧
      q.requestOption HeaderOptions.httpVersion = [] ∧
      q.requestOption (ofString "GET http") = ofString "//a/ HTTP/1.1" := by
  have hparsed : (HttpParser.init.parseRequest (absoluteLine.head [])).1 = true := by
    decide +kernel
  have hnone : (HttpParser.init.parseRequest (absoluteLine.head [])).2.requestOption
      HeaderOptions.requestMethod = [] := by decide +kernel
  refine ⟨?_, _, Prod.ext hparsed rfl, hnone, by decide +kernel, by decide +kernel,
    by decide +kernel⟩
  rintro ⟨q, hq⟩
  have hparses := hq.parses HttpParser.init
  rw [List.append_nil] at hparses
  rw [hparses, hq.method] at hnone
  exact absurd hnone (by simp [absoluteLine, ofString])

end Heads

end Ailawd
