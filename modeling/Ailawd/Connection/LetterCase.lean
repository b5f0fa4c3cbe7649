import Mathlib.Data.List.Forall2
import Ailawd.Connection.HeaderRoundTrip
import Ailawd.Connection.RequestLine

/-!
# The letter case of field names

Insertion compares names with case and keeps the first value, the search compares them
without case and takes the first match in byte order, in which upper case comes first. The
two agree on a name that occurs once. `caseInsensitive_iff` shows of every accepted head that
changing the case of its field names changes no answer exactly if each field carries the
value of the first pair of that name, whatever the case, unless the name has no letter.

Towards the condition: of the fields that match a name, one can be written in upper case and
all others in lower case, which makes it the one that is found.
-/

namespace Ailawd

open ByteString HttpProto

namespace HttpParser

/-- Two lines that differ at most in the letter case of a field name. A request
line is not touched. -/
inductive RecasedLine : ByteString → ByteString → Prop where
  | refl (item) : RecasedLine item item
  | field {name name'} (rest) (hcolon : 58 ∉ name) (hcase : iequals name name' = true) :
      RecasedLine (name ++ 58 :: rest) (name' ++ 58 :: rest)

/-- Two texts that differ at most in the letter case of
field names in the head. -/
def Recased (text text' : ByteString) : Prop :=
  ∃ items items' body, text = unlines items ++ body ∧ text' = unlines items' ++ body ∧
    WholeHead (unlines items) ∧ (∀ item ∈ items, (10 : UInt8) ∉ item) ∧
    List.Forall₂ RecasedLine items items'

/-- All the pairs that a text supplies, in the order of their insertion: the
body first, then the lines. -/
def supplied (text : ByteString) : List (ByteString × ByteString) :=
  match find crlf2 (cString text) with
  | none => []
  | some i => (HeaderOptions.requestBody, (cString text).drop (i + 4)) :: fields (readLines text)

/-- Those that come from header fields, and that recasing may change. -/
def headerFields (text : ByteString) : List (ByteString × ByteString) :=
  fields ((readLines text).filter fun item => 58 ∈ item)

/-- The value of the first pair of that name, whatever its case. This is what a
reader of the header would expect. -/
def firstValue (name : ByteString) (pairs : List (ByteString × ByteString)) : ByteString :=
  valueOf (pairs.find? fun e => iequals name e.1)

/-- The case of field names does not matter, and of several fields the first
one wins. So it should be of header names. -/
structure CaseInsensitive (text : ByteString) : Prop where
  accepted : ∀ text', Recased text text' → ∃ q', Accepted text' q'
  recased : ∀ text', Recased text text' → ∀ q q', Accepted text q → Accepted text' q' →
    ∀ name, q'.requestOption name = q.requestOption name
  first : ∀ q, Accepted text q → ∀ name, name ≠ [] →
    q.requestOption name = firstValue name (supplied text)

/-- Every field says the same as the first pair of its name, unless the name
has no letter that could be recased. -/
def Uniform (pairs own : List (ByteString × ByteString)) : Prop :=
  ∀ e ∈ own, (∃ b ∈ e.1, isAlpha b = true) → e.2 = firstValue e.1 pairs

def SameEntry (e e' : ByteString × ByteString) : Prop := iequals e.1 e'.1 = true ∧ e.2 = e'.2

section Lines

variable {item item' name : ByteString} {items items' : List ByteString}
variable {pairs pairs' own own' : List (ByteString × ByteString)}

namespace RecasedLine

theorem iequals (h : RecasedLine item item') : iequals item item' = true := by
  cases h with
  | refl => exact iequals_refl item
  | field rest _ hcase => exact iequals_append hcase _

theorem mem_iff (h : RecasedLine item item') {b : UInt8} (hb : isAlpha b = false) :
    b ∈ item ↔ b ∈ item' :=
  ⟨mem_of_iequals h.iequals hb, mem_of_iequals ((iequals_comm _ _).trans h.iequals) hb⟩

theorem lineFields (h : RecasedLine item item') :
    List.Forall₂ SameEntry (lineFields item) (lineFields item') := by
  cases h with
  | refl => exact List.forall₂_same.mpr fun e _ => ⟨iequals_refl _, rfl⟩
  | @field name name' rest hcolon hcase =>
      have hcolon' : 58 ∉ name' := fun hmem =>
        hcolon (mem_of_iequals ((iequals_comm _ _).trans hcase) (by decide) hmem)
      rw [lineFields_colon hcolon, lineFields_colon hcolon']
      exact .cons ⟨iequals_trim hcase, rfl⟩ .nil

theorem eq_blank_iff (h : RecasedLine item item') : item = [13] ↔ item' = [13] := by
  cases h with
  | refl => rfl
  | @field name name' rest hcolon hcase =>
      constructor
      · intro heq
        have hmem : 58 ∈ name ++ 58 :: rest := by simp
        rw [heq] at hmem
        simp at hmem
      · intro heq
        have hmem : 58 ∈ name' ++ 58 :: rest := by simp
        rw [heq] at hmem
        simp at hmem

end RecasedLine

theorem iequals_unlines (h : List.Forall₂ RecasedLine items items') :
    iequals (unlines items) (unlines items') = true := by
  induction h with
  | nil => rfl
  | cons hitem _ ih =>
      rw [unlines_cons, unlines_cons, iequals_iff, List.map_append, List.map_append,
        iequals_iff.mp hitem.iequals, List.map_cons, List.map_cons, iequals_iff.mp ih]

theorem takeWhile_recased (h : List.Forall₂ RecasedLine items items') :
    List.Forall₂ RecasedLine (items.takeWhile (· ≠ [13])) (items'.takeWhile (· ≠ [13])) := by
  induction h with
  | nil => exact .nil
  | @cons item item' rest rest' hitem _ ih =>
      by_cases hblank : item = [13]
      · rw [List.takeWhile_cons_of_neg (by simpa using hblank),
          List.takeWhile_cons_of_neg (by simpa using hitem.eq_blank_iff.mp hblank)]
        exact .nil
      · rw [List.takeWhile_cons_of_pos (by simpa using hblank),
          List.takeWhile_cons_of_pos (by simpa using fun h' => hblank (hitem.eq_blank_iff.mpr h'))]
        exact .cons hitem ih

theorem fields_recased (h : List.Forall₂ RecasedLine items items') :
    List.Forall₂ SameEntry (fields items) (fields items') :=
  List.rel_flatMap h fun _ _ hitem => hitem.lineFields

theorem filter_recased (h : List.Forall₂ RecasedLine items items') :
    List.Forall₂ RecasedLine (items.filter fun item => 58 ∈ item)
      (items'.filter fun item => 58 ∈ item) := by
  refine List.rel_filter (fun item item' hitem => ?_) h
  simpa using hitem.mem_iff (by decide)

theorem firstValue_recased (h : List.Forall₂ SameEntry pairs pairs')
    (hname : iequals name item = true) : firstValue name pairs = firstValue item pairs' := by
  induction h with
  | nil => rfl
  | @cons e e' rest rest' he _ ih =>
      have hmatch : ByteString.iequals name e.1 = ByteString.iequals item e'.1 := by
        rw [iequals_congr he.1, iequals_comm, iequals_congr hname, iequals_comm]
      simp only [firstValue, List.find?_cons] at ih ⊢
      rw [hmatch]
      split
      · exact he.2
      · exact ih

theorem forall_mem_related {R : ByteString → ByteString → Prop} {P Q : ByteString → Prop}
    (h : List.Forall₂ R items items') (hR : ∀ item item', R item item' → P item → Q item')
    (hitems : ∀ item ∈ items, P item) : ∀ item' ∈ items', Q item' := by
  induction h with
  | nil => exact fun item' hitem' => absurd hitem' List.not_mem_nil
  | cons hitem _ ih =>
      obtain ⟨hhead, htail⟩ := List.forall_mem_cons.mp hitems
      exact List.forall_mem_cons.mpr ⟨hR _ _ hitem hhead, ih htail⟩

theorem Uniform.recased (h : Uniform pairs own) (hpairs : List.Forall₂ SameEntry pairs pairs')
    (hown : List.Forall₂ SameEntry own own') : Uniform pairs' own' := by
  induction hown with
  | nil => exact fun e he => absurd he List.not_mem_nil
  | @cons e e' rest rest' he _ ih =>
      obtain ⟨hhead, htail⟩ := List.forall_mem_cons.mp h
      refine List.forall_mem_cons.mpr ⟨fun halpha => ?_, ih htail⟩
      have halpha' := exists_isAlpha_of_iequals ((iequals_comm _ _).trans he.1) halpha
      rw [← he.2, hhead halpha', firstValue_recased hpairs he.1]

end Lines

section Texts

variable {text text' body name : ByteString} {items items' : List ByteString} {q : HttpParser}

/-- A text that is accepted, taken apart into the lines
that are read and the rest. -/
structure Shape (text : ByteString) (items : List ByteString) (body : ByteString) : Prop where
  text_eq : text = unlines items ++ body
  whole : WholeHead (unlines items)
  newline : ∀ item ∈ items, (10 : UInt8) ∉ item
  nul : (0 : UInt8) ∉ unlines items

abbrev readOf (items : List ByteString) : List ByteString := items.takeWhile (· ≠ [13])

theorem readOf_append {lines : List ByteString} (h : ∀ line ∈ lines, line ≠ [13])
    (tail : List ByteString) : readOf (lines ++ tail) = lines ++ readOf tail := by
  rw [readOf, List.takeWhile_append_of_pos (by simpa using h)]

theorem ne_of_mem_readOf {line : ByteString} (h : line ∈ readOf items) : line ≠ [13] := by
  rw [readOf] at h
  simpa using List.mem_takeWhile_imp h

namespace Shape

theorem find (h : Shape text items body) :
    find crlf2 (cString text) = some ((unlines items).length - 4) := by
  rw [h.text_eq, cString_append_of_not_mem body h.nul]
  exact find_append h.whole _

theorem readLines (h : Shape text items body) : readLines text = readOf items := by
  rw [readLines_of_find h.find, h.text_eq, cString_append_of_not_mem body h.nul, h.whole.length,
    List.take_left, lines_unlines h.newline]

theorem supplied (h : Shape text items body) :
    supplied text = (HeaderOptions.requestBody, cString body) :: fields (readOf items) := by
  rw [HttpParser.supplied, h.find, h.readLines]
  simp only [h.whole.length]
  rw [h.text_eq, cString_append_of_not_mem body h.nul, List.drop_left]

theorem headerFields (h : Shape text items body) :
    headerFields text = fields ((readOf items).filter fun item => 58 ∈ item) := by
  rw [HttpParser.headerFields, h.readLines]

/-- The parser ends up with exactly what the text supplies, and with nothing of
what it held before. -/
theorem accepted_iff (h : Shape text items body) :
    Accepted text q ↔ q = ⟨OrderedMap.empty.insertAll (HttpParser.supplied text)⟩ := by
  have hparses : ∀ p : HttpParser, p.parseRequest text =
      (true, ⟨OrderedMap.empty.insertAll (HttpParser.supplied text)⟩) := by
    intro p
    have hresult := parseRequest_of_wholeHead h.whole h.nul body p
    rwa [lines_unlines h.newline, ← h.text_eq, ← h.supplied] at hresult
  constructor
  · rintro ⟨p, hp⟩
    rw [hparses p] at hp
    exact (Prod.mk.inj hp).2.symm
  · rintro rfl
    exact ⟨init, hparses init⟩

end Shape

theorem WholeHead.ends {head : ByteString} (h : WholeHead head) :
    ∃ front, head = front ++ [10] := by
  have hlen := h.length
  obtain ⟨rest, hrest⟩ := find_isPrefix h
  have hnil : rest = [] := by
    have hlength := congrArg List.length hrest
    rw [List.length_append, List.length_drop, show crlf2.length = 4 from rfl] at hlength
    exact List.length_eq_zero_iff.mp (by omega)
  refine ⟨head.take (head.length - 4) ++ [13, 10, 13], ?_⟩
  rw [hnil, List.append_nil] at hrest
  conv_lhs => rw [← List.take_append_drop (head.length - 4) head, ← hrest]
  rw [List.append_assoc]
  rfl

/-- Every accepted text has this shape. -/
theorem exists_shape (h : Accepted text q) : ∃ items body, Shape text items body := by
  obtain ⟨p, hp⟩ := h
  obtain ⟨i, hi⟩ := find_of_parses hp
  obtain ⟨head, extra, htext, hwhole, hlen⟩ := exists_wholeHead hi
  obtain ⟨front, hfront⟩ := WholeHead.ends hwhole
  have hunlines : unlines (lines head) = head := by rw [hfront, unlines_lines]
  have hnul : (0 : UInt8) ∉ head := fun hmem =>
    zero_notMem_cString text (htext ▸ List.mem_append_left _ hmem)
  obtain ⟨rest, hrest⟩ := cString_isPrefix text
  refine ⟨lines head, extra ++ rest, ?_, ?_, ?_, ?_⟩
  · rw [hunlines, ← List.append_assoc, ← htext, hrest]
  · rwa [hunlines]
  · exact fun item hitem => newline_notMem_of_mem_lines hitem
  · rwa [hunlines]

theorem Shape.recased (h : Shape text items body) (hitems : List.Forall₂ RecasedLine items items') :
    Shape (unlines items' ++ body) items' body := by
  have hcase := iequals_unlines hitems
  have hcrlf : ∀ b ∈ crlf2, isAlpha b = false := by simp [crlf2, isAlpha]
  have hlength : (unlines items').length = (unlines items).length := by
    have hmap := congrArg List.length (iequals_iff.mp hcase)
    rw [List.length_map, List.length_map] at hmap
    exact hmap.symm
  refine ⟨rfl, ?_, ?_, ?_⟩
  · rw [WholeHead, ← find_of_iequals hcrlf hcase, hlength]
    exact h.whole
  · refine forall_mem_related hitems (fun item item' hitem hnot => ?_) h.newline
    rwa [← hitem.mem_iff (by decide)]
  · exact fun hmem =>
      h.nul (mem_of_iequals ((iequals_comm _ _).trans hcase) (by decide) hmem)

theorem mem_pseudoNames {item : ByteString} {e : ByteString × ByteString} (hcolon : 58 ∉ item)
    (he : e ∈ lineFields item) : e.1 ∈ pseudoNames := by
  rw [lineFields, if_neg hcolon] at he
  split at he
  · cases he
  · simp only [List.mem_cons, List.not_mem_nil, or_false] at he
    obtain rfl | rfl | rfl := he <;> simp [pseudoNames]

private theorem mem_supplied {e : ByteString × ByteString} (h : Shape text items body)
    (he : e ∈ supplied text) : e.1 ∈ pseudoNames ∨ e ∈ headerFields text := by
  rw [h.supplied] at he
  obtain rfl | he := List.mem_cons.mp he
  · exact .inl (by simp [pseudoNames])
  · obtain ⟨item, hitem, he⟩ := List.mem_flatMap.mp he
    by_cases hcolon : 58 ∈ item
    · rw [h.headerFields]
      exact .inr (List.mem_flatMap.mpr
        ⟨item, List.mem_filter.mpr ⟨hitem, by simpa using hcolon⟩, he⟩)
    · exact .inl (mem_pseudoNames hcolon he)

/-- The pair that is found is the first one of its name, or one from a header
field whose name has a letter. -/
theorem Shape.requestOption_eq (h : Shape text items body)
    (huniform : Uniform (HttpParser.supplied text) (HttpParser.headerFields text))
    (hq : Accepted text q) (hname : name ≠ []) :
    q.requestOption name = firstValue name (HttpParser.supplied text) := by
  obtain rfl := h.accepted_iff.mp hq
  rw [requestOption_insertAll hname, chosen, firstValue, ← List.head?_filter]
  cases hfilter : (HttpParser.supplied text).filter fun e => iequals name e.1 with
  | nil => rfl
  | cons first rest =>
      obtain ⟨e, he⟩ := OrderedMap.exists_leading_cons first rest
      rw [he, List.head?_cons]
      obtain rfl | ⟨hrest, hlt⟩ := OrderedMap.leading_cons he
      · rfl
      have hmatch : ∀ l ∈ first :: rest,
          l ∈ HttpParser.supplied text ∧ iequals name l.1 = true := by
        intro l hl
        rw [← hfilter] at hl
        simpa using List.mem_filter.mp hl
      obtain ⟨hsupplied, hname_e⟩ := hmatch e (List.mem_cons_of_mem _ hrest)
      have hsame : iequals e.1 first.1 = true := by
        rw [← iequals_congr (hmatch first List.mem_cons_self).2, iequals_comm]
        exact hname_e
      obtain hpseudo | hown := mem_supplied h hsupplied
      · -- the names of the pseudo-options are in lower case
        have hlower : ∀ name ∈ pseudoNames, name.map toLower = name := by decide +kernel
        have hnot := not_lower_lt_of_iequals hsame
        rw [hlower e.1 hpseudo] at hnot
        exact absurd hlt hnot
      · have halpha : ∃ b ∈ e.1, isAlpha b = true := by
          by_contra hnone
          have heq := eq_of_iequals hsame fun b hb => by
            simpa using fun halpha => hnone ⟨b, hb, halpha⟩
          rw [heq] at hlt
          exact Std.lt_irrefl hlt
        have hvalue := huniform e hown halpha
        rw [firstValue, ← List.head?_filter] at hvalue
        have hcongr : ∀ l : ByteString × ByteString, iequals e.1 l.1 = iequals name l.1 := by
          intro l
          rw [iequals_comm, ← iequals_congr hname_e, iequals_comm]
        simp only [hcongr, hfilter] at hvalue
        exact hvalue

/-- The line with its field name changed by `f`; its
value and its colon stay. -/
def recaseName (f : UInt8 → UInt8) (item : ByteString) : ByteString :=
  if 58 ∈ item then (item.takeWhile (· ≠ 58)).map f ++ item.dropWhile (· ≠ 58) else item

theorem recaseName_colon (f : UInt8 → UInt8) (h : 58 ∉ name) (rest : ByteString) :
    recaseName f (name ++ 58 :: rest) = name.map f ++ 58 :: rest := by
  have hname : ∀ b ∈ name, decide (b ≠ 58) = true := by
    intro b hb
    rw [decide_eq_true_eq]
    rintro rfl
    exact h hb
  rw [recaseName, if_pos (by simp), List.takeWhile_append_of_pos hname,
    List.dropWhile_append_of_pos hname]
  simp

theorem recasedLine_recaseName {f : UInt8 → UInt8} (hf : ∀ xs, iequals xs (xs.map f) = true)
    (item : ByteString) : RecasedLine item (recaseName f item) := by
  by_cases hcolon : 58 ∈ item
  · obtain ⟨name, rest, rfl, hname⟩ := List.eq_append_cons_of_mem hcolon
    rw [recaseName_colon f hname]
    exact .field rest hname (hf name)
  · rw [recaseName, if_neg hcolon]
    exact .refl item

theorem lineFields_upper {item : ByteString} {e : ByteString × ByteString} (hcolon : 58 ∈ item)
    (he : e ∈ lineFields item) :
    lineFields (recaseName toUpper item) = [(e.1.map toUpper, e.2)] := by
  obtain ⟨name, rest, rfl, hname⟩ := List.eq_append_cons_of_mem hcolon
  have hupper : 58 ∉ name.map toUpper := fun hmem =>
    hname (mem_of_iequals ((iequals_comm _ _).trans (iequals_map_toUpper name)) (by decide) hmem)
  rw [lineFields_colon hname] at he
  rw [recaseName_colon _ hname, lineFields_colon hupper, List.mem_singleton.mp he,
    trim_map isSpace_toUpper]

theorem lineFields_lower (item : ByteString) :
    ∀ e ∈ lineFields (recaseName toLower item), e.1.map toLower = e.1 := by
  intro e he
  by_cases hcolon : 58 ∈ item
  · obtain ⟨name, rest, rfl, hname⟩ := List.eq_append_cons_of_mem hcolon
    have hlower : 58 ∉ name.map toLower := fun hmem =>
      hname (mem_of_iequals ((iequals_comm _ _).trans (iequals_map_toLower name)) (by decide) hmem)
    rw [recaseName_colon _ hname, lineFields_colon hlower] at he
    rw [List.mem_singleton.mp he, trim_map isSpace_toLower, List.map_map]
    exact List.map_congr_left fun b _ => toLower_toLower b
  · have hpseudo : ∀ name ∈ pseudoNames, name.map toLower = name := by decide +kernel
    rw [recaseName, if_neg hcolon] at he
    exact hpseudo _ (mem_pseudoNames hcolon he)

/-- Among names in lower case the name in upper case is found,
as its bytes are smaller. -/
theorem chosen_upper {front back : List (ByteString × ByteString)} {value : ByteString}
    (hlower : ∀ l ∈ front ++ back, l.1.map toLower = l.1)
    (halpha : ∃ b ∈ name, isAlpha b = true) :
    chosen name (front ++ (name.map toUpper, value) :: back) =
      some (name.map toUpper, value) := by
  rw [chosen, List.filter_append, List.filter_cons_of_pos (by simpa using iequals_map_toUpper name)]
  apply OrderedMap.leading_of_lt
  intro l hl
  rw [← List.filter_append] at hl
  obtain ⟨hmem, hname⟩ := List.mem_filter.mp hl
  have hl1 : l.1 = name.map toLower := by
    rw [map_toLower_of_iequals hname, hlower l hmem]
  rw [hl1]
  exact map_toUpper_lt halpha

/-- Some recasing makes a given field the one that is found under its name:
that name in upper case, all others in lower case. -/
theorem Shape.exists_recased (h : Shape text items body) {e : ByteString × ByteString}
    (he : e ∈ HttpParser.headerFields text) (halpha : ∃ b ∈ e.1, isAlpha b = true) :
    ∃ text' q', Recased text text' ∧ Accepted text' q' ∧ q'.requestOption e.1 = e.2 := by
  rw [h.headerFields] at he
  obtain ⟨item, hitem, he⟩ := List.mem_flatMap.mp he
  obtain ⟨hitem, hcolon⟩ := List.mem_filter.mp hitem
  obtain ⟨front, back, hsplit⟩ := List.append_of_mem hitem
  have hcolon : 58 ∈ item := by simpa using hcolon
  obtain ⟨tail, htail⟩ : ∃ tail, items = front ++ item :: back ++ tail := by
    rw [← hsplit]
    exact ⟨_, List.takeWhile_append_dropWhile.symm⟩
  have hread : ∀ line ∈ front ++ item :: back, line ≠ [13] := by
    rw [← hsplit]
    exact fun line hline => ne_of_mem_readOf hline
  have hstop : readOf tail = [] := by
    rw [htail, readOf_append hread] at hsplit
    exact List.append_cancel_left (hsplit.trans (List.append_nil _).symm)
  have hupper := recasedLine_recaseName iequals_map_toUpper item
  have hlower : ∀ lines : List ByteString,
      List.Forall₂ RecasedLine lines (lines.map (recaseName toLower)) := by
    intro lines
    rw [List.forall₂_map_right_iff, List.forall₂_same]
    exact fun line _ => recasedLine_recaseName iequals_map_toLower line
  set recased := front.map (recaseName toLower) ++
    recaseName toUpper item :: back.map (recaseName toLower) with hrecased
  have hlines : List.Forall₂ RecasedLine (front ++ item :: back) recased :=
    List.rel_append (hlower front) (.cons hupper (hlower back))
  have hread' : readOf (recased ++ tail) = recased := by
    rw [readOf_append, hstop, List.append_nil]
    refine forall_mem_related hlines (fun line line' hline hne => ?_) hread
    exact fun heq => hne (hline.eq_blank_iff.mpr heq)
  have hforall : List.Forall₂ RecasedLine items (recased ++ tail) := by
    rw [htail]
    exact List.rel_append hlines (List.forall₂_same.mpr fun line _ => .refl line)
  have hshape := h.recased hforall
  refine ⟨_, _, ⟨items, _, body, h.text_eq, rfl, h.whole, h.newline, hforall⟩,
    hshape.accepted_iff.mpr rfl, ?_⟩
  have hne : e.1 ≠ [] := by
    obtain ⟨b, hb, -⟩ := halpha
    exact List.ne_nil_of_mem hb
  have hfields : ∀ lines : List ByteString, ∀ l ∈ fields (lines.map (recaseName toLower)),
      l.1.map toLower = l.1 := by
    intro lines l hl
    obtain ⟨line, hline, hl⟩ := List.mem_flatMap.mp hl
    obtain ⟨item, -, rfl⟩ := List.mem_map.mp hline
    exact lineFields_lower item l hl
  have hsupplied : HttpParser.supplied (unlines (recased ++ tail) ++ body) =
      ((HeaderOptions.requestBody, cString body) :: fields (front.map (recaseName toLower))) ++
        (e.1.map toUpper, e.2) :: fields (back.map (recaseName toLower)) := by
    rw [hshape.supplied, hread', hrecased, fields, List.flatMap_append, List.flatMap_cons,
      lineFields_upper hcolon he]
    rfl
  rw [hsupplied, requestOption_insertAll hne, chosen_upper ?_ halpha]
  · rfl
  · intro l hl
    obtain hl | hl := List.mem_append.mp hl
    · obtain rfl | hl := List.mem_cons.mp hl
      · have hbody : HeaderOptions.requestBody.map toLower = HeaderOptions.requestBody := by
          decide +kernel
        exact hbody
      · exact hfields front l hl
    · exact hfields back l hl

/-- The letter case of names matters exactly if a field contradicts the
first pair of its name. -/
theorem caseInsensitive_iff (h : Accepted text q) : CaseInsensitive text ↔
    Uniform (supplied text) (headerFields text) := by
  obtain ⟨items, body, hshape⟩ := exists_shape h
  constructor
  · intro hcase e he halpha
    obtain ⟨text', q', hrecased, hq', hoption⟩ := hshape.exists_recased he halpha
    have hne : e.1 ≠ [] := by
      obtain ⟨b, hb, -⟩ := halpha
      exact List.ne_nil_of_mem hb
    rw [← hoption, hcase.recased text' hrecased q q' h hq', hcase.first q h e.1 hne]
  · intro huniform
    have hshapes : ∀ text', Recased text text' → ∃ items' body', Shape text' items' body' ∧
        List.Forall₂ SameEntry (supplied text) (supplied text') ∧
        List.Forall₂ SameEntry (headerFields text) (headerFields text') := by
      rintro text' ⟨lines₁, lines₂, body₁, htext, htext', hwhole, hnewline, hlines⟩
      obtain ⟨hhead, rfl⟩ := hshape.whole.unique hwhole (hshape.text_eq.symm.trans htext)
      have hsame : items = lines₁ := by
        rw [← lines_unlines hshape.newline, hhead, lines_unlines hnewline]
      subst hsame
      have hshape' := htext' ▸ hshape.recased hlines
      refine ⟨lines₂, body, hshape', ?_, ?_⟩
      · rw [hshape.supplied, hshape'.supplied]
        exact .cons ⟨iequals_refl _, rfl⟩ (fields_recased (takeWhile_recased hlines))
      · rw [hshape.headerFields, hshape'.headerFields]
        exact fields_recased (filter_recased (takeWhile_recased hlines))
    refine ⟨fun text' hrecased => ?_, fun text' hrecased q₁ q' hq₁ hq' name => ?_,
      fun q₁ hq₁ name hname => hshape.requestOption_eq huniform hq₁ hname⟩
    · obtain ⟨items', body', hshape', -, -⟩ := hshapes text' hrecased
      exact ⟨_, hshape'.accepted_iff.mpr rfl⟩
    · obtain ⟨items', body', hshape', hsupplied, hown⟩ := hshapes text' hrecased
      by_cases hname : name = []
      · rw [requestOption, if_pos hname, requestOption, if_pos hname]
      · rw [hshape'.requestOption_eq (huniform.recased hsupplied hown) hq' hname,
          hshape.requestOption_eq huniform hq₁ hname,
          firstValue_recased hsupplied (iequals_refl name)]

end Texts

/-- A request with two fields `Content-Length`, the first of them in lower
case, so behind the other in the map. -/
def lowerFirst : List ByteString :=
  [ofString "POST /ailaw HTTP/1.1\r", ofString "content-length: 5\r",
    ofString "Content-Length: 7\r", ofString "\r"]

def bothUsual : List ByteString :=
  [ofString "POST /ailaw HTTP/1.1\r", ofString "Content-Length: 5\r",
    ofString "Content-Length: 7\r", ofString "\r"]

def lengthOf (items : List ByteString) : Bool × ByteString :=
  (init.parseRequest (unlines items)).map id fun q => q.requestOption HeaderOptions.contentLength

private theorem exists_accepted {items : List ByteString} {value : ByteString}
    (h : lengthOf items = (true, value)) :
    ∃ q, Accepted (unlines items) q ∧ q.requestOption HeaderOptions.contentLength = value := by
  obtain ⟨hok, hvalue⟩ := Prod.mk.inj h
  exact ⟨_, ⟨init, Prod.ext hok rfl⟩, hvalue⟩

theorem caseInsensitive_iff_bothUsual : ∃ q, Accepted (unlines bothUsual) q ∧
    (CaseInsensitive (unlines bothUsual) ↔
      Uniform (supplied (unlines bothUsual)) (headerFields (unlines bothUsual))) := by
  obtain ⟨q, hq, -⟩ := exists_accepted
    (show lengthOf bothUsual = (true, ofString "5") by decide +kernel)
  exact ⟨q, hq, caseInsensitive_iff hq⟩

/-- The second length is used, and recasing the first one's
name changes the answer. -/
theorem lowerFirst_not_caseInsensitive : ¬ CaseInsensitive (unlines lowerFirst) ∧
    ∃ q q', Recased (unlines lowerFirst) (unlines bothUsual) ∧
      Accepted (unlines lowerFirst) q ∧ Accepted (unlines bothUsual) q' ∧
      q.requestOption HeaderOptions.contentLength = ofString "7" ∧
      q'.requestOption HeaderOptions.contentLength = ofString "5" := by
  obtain ⟨q, hq, hseven⟩ := exists_accepted
    (show lengthOf lowerFirst = (true, ofString "7") by decide +kernel)
  obtain ⟨q', hq', hfive⟩ := exists_accepted
    (show lengthOf bothUsual = (true, ofString "5") by decide +kernel)
  have hrecased : Recased (unlines lowerFirst) (unlines bothUsual) := by
    have hline : RecasedLine (ofString "content-length: 5\r") (ofString "Content-Length: 5\r") :=
      .field (ofString " 5\r") (show 58 ∉ ofString "content-length" by decide)
        (show iequals _ (ofString "Content-Length") = true by decide +kernel)
    exact ⟨lowerFirst, bothUsual, [], (List.append_nil _).symm, (List.append_nil _).symm,
      by unfold WholeHead; decide +kernel, by decide,
      .cons (.refl _) (.cons hline (.cons (.refl _) (.cons (.refl _) .nil)))⟩
  refine ⟨fun hcase => ?_, q, q', hrecased, hq, hq', hseven, hfive⟩
  have hsame := hcase.recased _ hrecased q q' hq hq' HeaderOptions.contentLength
  rw [hseven, hfive] at hsame
  exact absurd hsame (by decide)

end HttpParser

end Ailawd
