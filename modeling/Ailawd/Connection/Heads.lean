import Ailawd.Library.Text
import Ailawd.Connection.HeaderFields
import Ailawd.Connection.Parsing

/-!
# Heads as they are written

A head is written line by line, each line ended by CRLF, with an empty line at the end.
`parseRequest_renderHead` says what the parser makes of it, whatever follows the head and
whatever the parser held before: the pairs of its lines, after the body.

When no two of these pairs have the same name in any case, their order in the map does not
matter and `request_option` finds every one of them (`requestOption_of_distinct`).
-/

namespace Ailawd

open ByteString HttpProto

def OneLine (xs : ByteString) : Prop := ∀ b ∈ xs, b ≠ 13 ∧ b ≠ 10 ∧ b ≠ 0

instance (xs : ByteString) : Decidable (OneLine xs) := List.decidableBAll _ xs

theorem OneLine.append {xs ys : ByteString} (hxs : OneLine xs) (hys : OneLine ys) :
    OneLine (xs ++ ys) := by
  intro b hb
  exact (List.mem_append.mp hb).elim (hxs b) (hys b)

/-- The lines of a head, each ended by CRLF, and the empty line behind them. -/
def renderHead (items : List ByteString) : ByteString :=
  (items.flatMap fun item => item ++ [13, 10]) ++ [13, 10]

/-- There is a line, and no line is empty or breaks. These are the heads that
can be taken apart again. -/
structure HeadLines (items : List ByteString) : Prop where
  ne_nil : items ≠ []
  nonempty : ∀ item ∈ items, item ≠ []
  oneLine : ∀ item ∈ items, OneLine item

section RenderHead

variable {items : List ByteString} {item xs : ByteString}

theorem renderHead_cons (item : ByteString) (items : List ByteString) :
    renderHead (item :: items) = item ++ 13 :: 10 :: renderHead items := by
  simp [renderHead]

theorem renderHead_eq_unlines (items : List ByteString) :
    renderHead items = unlines (items.map (· ++ [13]) ++ [[13]]) := by
  induction items with
  | nil => rfl
  | cons item rest ih =>
      rw [renderHead_cons, ih, List.map_cons, List.cons_append, unlines_cons, List.append_assoc]
      rfl

theorem lines_renderHead (h : ∀ item ∈ items, OneLine item) :
    lines (renderHead items) = items.map (· ++ [13]) ++ [[13]] := by
  rw [renderHead_eq_unlines]
  apply lines_unlines
  intro line hline
  obtain hline | hline := List.mem_append.mp hline
  · obtain ⟨item, hitem, rfl⟩ := List.mem_map.mp hline
    rintro hmem
    obtain hmem | hmem := List.mem_append.mp hmem
    · exact (h item hitem 10 hmem).2.1 rfl
    · simp at hmem
  · rw [List.mem_singleton.mp hline]
    decide

theorem zero_notMem_renderHead (h : ∀ item ∈ items, OneLine item) :
    (0 : UInt8) ∉ renderHead items := by
  intro hmem
  obtain hmem | hmem := List.mem_append.mp hmem
  · obtain ⟨item, hitem, hmem⟩ := List.mem_flatMap.mp hmem
    obtain hmem | hmem := List.mem_append.mp hmem
    · exact (h item hitem 0 hmem).2.2 rfl
    · simp at hmem
  · simp at hmem

/-- The end of the head is not looked for inside a line: no
part of it begins there. -/
private theorem find_crlf2_append (h : OneLine xs) (ys : ByteString) :
    find crlf2 (xs ++ ys) = (find crlf2 ys).map (· + xs.length) := by
  induction xs with
  | nil => simp
  | cons x xs ih =>
      obtain ⟨hx, hxs⟩ := List.forall_mem_cons.mp h
      have hne : ¬ crlf2 <+: x :: (xs ++ ys) := fun hpre =>
        hx.1 (List.cons_prefix_cons.mp hpre).1.symm
      rw [List.cons_append, find_cons_of_not_isPrefix hne, ih hxs, Option.map_map]
      rfl

/-- Nor does it begin at the end of a line that another line follows, since
that line has a first byte. -/
private theorem find_crlf2_newline {b : UInt8} (hb : b ≠ 13) (ys : ByteString) :
    find crlf2 (13 :: 10 :: b :: ys) = (find crlf2 (b :: ys)).map (· + 2) := by
  have hfirst : ¬ crlf2 <+: 13 :: 10 :: b :: ys := by
    intro hpre
    have htail := (List.cons_prefix_cons.mp (List.cons_prefix_cons.mp hpre).2).2
    exact hb (List.cons_prefix_cons.mp htail).1.symm
  have hsecond : ¬ crlf2 <+: 10 :: b :: ys := fun hpre =>
    absurd (List.cons_prefix_cons.mp hpre).1 (by decide)
  rw [find_cons_of_not_isPrefix hfirst, find_cons_of_not_isPrefix hsecond, Option.map_map]
  rfl

/-- The first CRLFCRLF of a head that was written so is at its end.
Induction on the lines. -/
theorem wholeHead_renderHead (h : HeadLines items) : WholeHead (renderHead items) := by
  suffices hfind : ∃ k, find crlf2 (renderHead items) = some k ∧
      k + 4 = (renderHead items).length by
    obtain ⟨k, hk, hlen⟩ := hfind
    rw [WholeHead, hk, ← hlen, Nat.add_sub_cancel]
  obtain ⟨hne, hnonempty, honeLine⟩ := h
  induction items with
  | nil => exact absurd rfl hne
  | cons item rest ih =>
      rw [renderHead_cons, find_crlf2_append (honeLine item List.mem_cons_self)]
      cases rest with
      | nil =>
          refine ⟨item.length, ?_, by simp [renderHead]⟩
          have hend : find crlf2 (13 :: 10 :: renderHead []) = some 0 := by decide
          rw [hend, Option.map_some, Nat.zero_add]
      | cons next rest =>
          obtain ⟨k, hk, hlen⟩ := ih (by simp)
            (fun item hitem => hnonempty item (List.mem_cons_of_mem _ hitem))
            (fun item hitem => honeLine item (List.mem_cons_of_mem _ hitem))
          have hmem : next ∈ item :: next :: rest := List.mem_cons_of_mem _ List.mem_cons_self
          obtain ⟨b, bs, rfl⟩ := List.exists_cons_of_ne_nil (hnonempty next hmem)
          have hb := (honeLine _ hmem b List.mem_cons_self).1
          refine ⟨k + 2 + item.length, ?_, ?_⟩
          · rw [renderHead_cons, List.cons_append] at hk ⊢
            rw [find_crlf2_newline hb, hk]
            rfl
          · simp only [List.length_append, List.length_cons]
            omega

end RenderHead

namespace HttpParser

section Parses

variable {items : List ByteString} {name body : ByteString} {p : HttpParser}
variable {pairs : List (ByteString × ByteString)} {e : ByteString × ByteString}

/-- What the parser makes of a head without NUL bytes,
whatever comes behind it. -/
theorem parseRequest_of_wholeHead {head : ByteString} (h : WholeHead head) (hnul : 0 ∉ head)
    (body : ByteString) (p : HttpParser) : p.parseRequest (head ++ body) =
      (true, ⟨OrderedMap.empty.insertAll ((HeaderOptions.requestBody, cString body) ::
        fields ((lines head).takeWhile (· ≠ [13])))⟩) := by
  have hfind : find crlf2 (head ++ cString body) = some (head.length - 4) := find_append h _
  simp only [parseRequest, cString_append_of_not_mem body hnul, hfind, h.length, List.take_left,
    List.drop_left, parseLines_eq]
  rfl

theorem parseRequest_renderHead (h : HeadLines items) (body : ByteString) (p : HttpParser) :
    p.parseRequest (renderHead items ++ body) =
      (true, ⟨OrderedMap.empty.insertAll ((HeaderOptions.requestBody, cString body) ::
        fields (items.map (· ++ [13])))⟩) := by
  have hread : (lines (renderHead items)).takeWhile (· ≠ [13]) = items.map (· ++ [13]) := by
    rw [lines_renderHead h.oneLine, List.takeWhile_append_of_pos]
    · simp
    · intro line hline
      obtain ⟨item, hitem, rfl⟩ := List.mem_map.mp hline
      simpa using h.nonempty item hitem
  rw [parseRequest_of_wholeHead (wholeHead_renderHead h) (zero_notMem_renderHead h.oneLine), hread]

theorem requestOption_insertAll (hname : name ≠ []) :
    requestOption ⟨OrderedMap.empty.insertAll pairs⟩ name = valueOf (chosen name pairs) := by
  have hfind : (OrderedMap.empty.insertAll pairs).findFirst (iequals name) = chosen name pairs := by
    rw [OrderedMap.findFirst_insertAll]
    rfl
  rw [requestOption, if_neg hname, hfind]
  cases chosen name pairs <;> rfl

def DistinctNames (pairs : List (ByteString × ByteString)) : Prop :=
  (pairs.map Prod.fst).Pairwise fun name other => iequals name other = false

theorem requestOption_of_not_mem (h : ∀ e ∈ pairs, iequals name e.1 = false) :
    requestOption ⟨OrderedMap.empty.insertAll pairs⟩ name = [] := by
  by_cases hname : name = []
  · rw [requestOption, if_pos hname]
  · have hnone : pairs.filter (fun e => iequals name e.1) = [] := by
      rw [List.filter_eq_nil_iff]
      intro e he
      simp [h e he]
    rw [requestOption_insertAll hname, chosen, hnone]
    rfl

/-- Pairs that do not match may be left out, wherever they stand in the map. -/
theorem requestOption_append {more : List (ByteString × ByteString)}
    (h : ∀ e ∈ more, iequals name e.1 = false) :
    requestOption ⟨OrderedMap.empty.insertAll (pairs ++ more)⟩ name =
      requestOption ⟨OrderedMap.empty.insertAll pairs⟩ name := by
  by_cases hname : name = []
  · rw [requestOption, if_pos hname, requestOption, if_pos hname]
  · have hnone : more.filter (fun e => iequals name e.1) = [] := by
      rw [List.filter_eq_nil_iff]
      intro e he
      simp [h e he]
    rw [requestOption_insertAll hname, requestOption_insertAll hname, chosen, List.filter_append,
      hnone, List.append_nil, chosen]

theorem requestOption_of_distinct (h : DistinctNames pairs) (he : e ∈ pairs)
    (hname : iequals name e.1 = true) (hne : name ≠ []) :
    requestOption ⟨OrderedMap.empty.insertAll pairs⟩ name = e.2 := by
  have hfilter : pairs.filter (fun l => iequals name l.1) = [e] := by
    rw [DistinctNames, List.pairwise_map] at h
    induction pairs with
    | nil => cases he
    | cons l rest ih =>
        obtain ⟨hl, hrest⟩ := List.pairwise_cons.mp h
        obtain rfl | he := List.mem_cons.mp he
        · rw [List.filter_cons_of_pos (by simpa using hname), List.cons_inj_right,
            List.filter_eq_nil_iff]
          intro l hmem hl'
          have hdiff := hl l hmem
          rw [iequals_comm, ← iequals_congr hname, iequals_comm, hl'] at hdiff
          cases hdiff
        · have hdiff : iequals name l.1 = false := by
            rw [iequals_comm, iequals_congr hname, hl e he]
          rw [List.filter_cons_of_neg (by simp [hdiff]), ih hrest he]
  rw [requestOption_insertAll hne, chosen, hfilter]
  rfl

end Parses

end HttpParser

end Ailawd
