import Ailawd.Model.HttpParser

/-!
# What a head supplies

The line loop of `parse_request` does nothing but insert pairs, in the order of the
lines: one for a line with a colon, three for one that matches the regex. So the
answer of `request_option` is determined by the list of these pairs: it is the one
with the least key of those that match, and of equal keys the first inserted.
-/

namespace Ailawd

open ByteString HttpProto

namespace HttpParser

/-- The pairs that one line inserts: one for a line with a colon, three for a
request line, none for any other one. -/
def lineFields (item : ByteString) : List (ByteString × ByteString) :=
  if 58 ∈ item then
    [(trim (item.takeWhile (· ≠ 58)), trim ((item.dropWhile (· ≠ 58)).drop 1))]
  else match matchRequestLine item with
    | none => []
    | some (method, target, version) =>
      [(HeaderOptions.requestMethod, trim (method.map toUpper)),
        (HeaderOptions.requestUri, stripSlashes (trim target)),
        (HeaderOptions.httpVersion, trim version)]

def fields (items : List ByteString) : List (ByteString × ByteString) := items.flatMap lineFields

/-- The lines that the loop reads: those before the one that holds
only a carriage return. -/
def readLines (text : ByteString) : List ByteString :=
  match find crlf2 (cString text) with
  | none => []
  | some i => (lines ((cString text).take (i + 4))).takeWhile (· ≠ [13])

/-- The pair that `request_option` would choose of a list: the first in the
order of the names, of the keys that are equal up to case. -/
def chosen (name : ByteString) (pairs : List (ByteString × ByteString)) :
    Option (ByteString × ByteString) :=
  OrderedMap.leading (pairs.filter fun e => iequals name e.1)

def valueOf (found : Option (ByteString × ByteString)) : ByteString := found.elim [] Prod.snd

/-- A line with a colon supplies one pair, split at its first colon, whatever
else it looks like. -/
theorem lineFields_colon {name : ByteString} (h : 58 ∉ name) (rest : ByteString) :
    lineFields (name ++ 58 :: rest) = [(trim name, trim rest)] := by
  have hname : ∀ b ∈ name, decide (b ≠ 58) = true := by
    intro b hb
    rw [decide_eq_true_eq]
    rintro rfl
    exact h hb
  rw [lineFields, if_pos (by simp), List.takeWhile_append_of_pos hname,
    List.dropWhile_append_of_pos hname]
  simp

section Insertions

variable {text name : ByteString} {p q : HttpParser}

theorem parseLine_eq (opts : HeaderOpts) (item : ByteString) :
    parseLine opts item = opts.insertAll (lineFields item) := by
  simp only [parseLine, lineFields]
  split
  · rfl
  · cases matchRequestLine item <;> rfl

theorem parseLines_eq (opts : HeaderOpts) (items : List ByteString) :
    parseLines opts items = opts.insertAll (fields (items.takeWhile (· ≠ [13]))) := by
  induction items generalizing opts with
  | nil => rfl
  | cons item rest ih =>
      rw [parseLines]
      split
      next hblank =>
        subst hblank
        rfl
      next hline =>
        rw [ih, parseLine_eq, List.takeWhile_cons_of_pos (by simpa using hline)]
        simp [fields, OrderedMap.insertAll]

theorem readLines_of_find {i : Nat} (h : find crlf2 (cString text) = some i) :
    readLines text = (lines ((cString text).take (i + 4))).takeWhile (· ≠ [13]) := by
  rw [readLines, h]

/-- A text whose head has been found is accepted,
with what its lines insert. -/
theorem parseRequest_eq {i : Nat} (h : find crlf2 (cString text) = some i) (p : HttpParser) :
    p.parseRequest text = (true, ⟨OrderedMap.empty.insertAll
      ((HeaderOptions.requestBody, (cString text).drop (i + 4)) :: fields (readLines text))⟩) := by
  simp only [parseRequest, h, parseLines_eq, readLines_of_find h]
  rfl

theorem find_of_parses (h : p.parseRequest text = (true, q)) :
    ∃ i, find crlf2 (cString text) = some i := by
  simp only [parseRequest] at h
  split at h
  · cases h
  next i hi => exact ⟨i, hi⟩

/-- An accepted head inserts the pairs of the lines it reads after the body. -/
theorem headerOpts_of_parses (h : p.parseRequest text = (true, q)) : ∃ body,
    q.headerOpts = OrderedMap.empty.insertAll
      ((HeaderOptions.requestBody, body) :: fields (readLines text)) := by
  obtain ⟨i, hi⟩ := find_of_parses h
  rw [parseRequest_eq hi] at h
  obtain rfl := (Prod.mk.inj h).2
  exact ⟨_, rfl⟩

/-- The rule for a lookup after a head was accepted. -/
theorem requestOption_of_parses (h : p.parseRequest text = (true, q)) (hname : name ≠ [])
    (hbody : iequals name HeaderOptions.requestBody = false) :
    q.requestOption name = valueOf (chosen name (fields (readLines text))) := by
  obtain ⟨body, hopts⟩ := headerOpts_of_parses h
  have hfind : q.headerOpts.findFirst (iequals name) = chosen name (fields (readLines text)) := by
    rw [hopts, OrderedMap.findFirst_insertAll, List.filter_cons_of_neg (by simp [hbody])]
    rfl
  rw [requestOption, if_neg hname, hfind]
  cases chosen name (fields (readLines text)) <;> rfl

theorem chosen_append (name : ByteString) (pairs more : List (ByteString × ByteString)) :
    chosen name (pairs ++ more) = (chosen name more).elim (chosen name pairs)
      (OrderedMap.leadingOf (chosen name pairs)) := by
  simp only [chosen, List.filter_append, OrderedMap.leading_append]

end Insertions

end HttpParser

end Ailawd
