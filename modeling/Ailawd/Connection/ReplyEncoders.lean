import Ailawd.Model.Connection
import Mathlib.Data.List.TakeWhile

/-!
# The two reply encoders

Both overloads of `reply_generate` write the same head around the announced length. The one
for a pointer then appends a C string, so its content ends at the first NUL of the buffer,
wherever the announced length ends.
-/

namespace Ailawd

open ByteString Reply

namespace Reply

/-- For this buffer and this length the two overloads encode the same reply,
and `fill_for_http` leaves it to be sent as a whole. -/
structure EncodersAgree (date data : ByteString) (len : Nat) (status : ByteString) : Prop where
  encoded : replyGenerateData date data len status =
    .ok (replyGenerate date (data.take len) status)
  filled : len ≠ 0 → ∀ env h, env.date = date → ∃ h',
    Handling.fillForHttpData env data len status h = .ok h' ∧
      h'.conn.pWrite.slice h'.conn.wPos (h'.conn.wSize - h'.conn.wPos) =
        replyGenerate date (data.take len) status

section Encoders

variable {date data status : ByteString} {len : Nat}

/-- A C string is the content announced exactly if the first NUL follows it, at
the announced length. -/
theorem cString_eq_take_iff (hlen : len ≤ data.length) :
    0 ∈ data ∧ cString data = data.take len ↔ data[len]? = some 0 ∧ 0 ∉ data.take len := by
  constructor
  · rintro ⟨hnul, heq⟩
    refine ⟨?_, heq ▸ zero_notMem_cString data⟩
    obtain ⟨front, back, rfl, hfront⟩ := List.eq_append_cons_of_mem hnul
    have hcut : cString (front ++ 0 :: back) = front := by
      rw [cString_append_zero, cString_eq_self hfront]
    have hfrontlen : front.length = len := by
      rw [← hcut, heq, List.length_take_of_le hlen]
    rw [← hfrontlen, List.getElem?_append_right (Nat.le_refl _), Nat.sub_self]
    rfl
  · rintro ⟨hnul, hplain⟩
    obtain ⟨hlt, hbyte⟩ := List.getElem?_eq_some_iff.mp hnul
    have hsplit : data = data.take len ++ 0 :: data.drop (len + 1) := by
      rw [← hbyte, List.getElem_cons_drop, List.take_append_drop]
    refine ⟨List.mem_of_getElem? hnul, ?_⟩
    calc
      cString data = cString (data.take len ++ 0 :: data.drop (len + 1)) := by rw [← hsplit]
      _ = data.take len := by rw [cString_append_zero, cString_eq_self hplain]

/-- The two encodings differ in the length and in the content; everything
around these is the same text. -/
theorem exists_frame (date status : ByteString) : ∃ front back,
    (∀ content, replyGenerate date content status =
      front ++ (decimal content.length ++ (back ++ content))) ∧
    ∀ data len, replyGenerateData date data len status = if 0 ∉ data then .error .outOfBounds
      else .ok (front ++ (signedDecimal len ++ (back ++ cString data))) := by
  refine ⟨status ++ (⟨ofString "Server", ofString "ailawd/1.0"⟩ : Header).render ++
      (⟨ofString "Date", date⟩ : Header).render ++
      (ofString "Content-Length" ++ headerNameValueSeparator),
    headerCrlf ++ (⟨ofString "Content-Type", ofString "text/html"⟩ : Header).render ++
      (⟨ofString "Connection", ofString "keep-alive"⟩ : Header).render ++
      (⟨ofString "Access-Control-Allow-Origin", ofString "*"⟩ : Header).render ++ headerCrlf,
    fun content => ?_, fun data len => ?_⟩
  · simp [replyGenerate, headers, Header.render]
  · simp [replyGenerateData, headersData, Header.render]

theorem signedDecimal_of_lt (h : len < 2 ^ 63) : signedDecimal len = decimal len := if_pos h

/-- A length that has become negative is not read as the length, since it
begins with a sign. -/
theorem signedDecimal_append_ne (h : ¬ len < 2 ^ 63) (n : Nat) (xs ys : ByteString) :
    signedDecimal len ++ xs ≠ decimal n ++ ys := by
  intro heq
  obtain ⟨d, ds, hdecimal⟩ := List.exists_cons_of_ne_nil (decimal_ne_nil n)
  rw [signedDecimal, if_neg h, hdecimal, List.cons_append, List.cons_append] at heq
  have hdigit := isDigit_of_mem_decimal (n := n) d (hdecimal ▸ List.mem_cons_self)
  rw [← (List.cons.inj heq).1] at hdigit
  exact absurd hdigit (by decide)

theorem encoded_iff (date status : ByteString) (hlen : len ≤ data.length) :
    replyGenerateData date data len status = .ok (replyGenerate date (data.take len) status) ↔
      len < 2 ^ 63 ∧ data[len]? = some 0 ∧ 0 ∉ data.take len := by
  obtain ⟨front, back, hstring, hdata⟩ := exists_frame date status
  have htake : (data.take len).length = len := List.length_take_of_le hlen
  rw [hdata, hstring, htake, ← cString_eq_take_iff hlen]
  by_cases hnul : 0 ∈ data
  · rw [if_neg (not_not.mpr hnul), Except.ok.injEq, List.append_right_inj]
    by_cases hsmall : len < 2 ^ 63
    · rw [signedDecimal_of_lt hsmall, List.append_right_inj, List.append_right_inj]
      exact ⟨fun hcontent => ⟨hsmall, hnul, hcontent⟩, fun h => h.2.2⟩
    · exact iff_of_false (signedDecimal_append_ne hsmall _ _ _) fun h => hsmall h.1
  · rw [if_pos hnul]
    exact iff_of_false (by simp) fun h => hnul h.2.1

theorem fillForHttpData_of_encoded {env : Env} {enc : ByteString} (h : Handling) (hne : len ≠ 0)
    (henc : replyGenerateData env.date data len status = .ok enc) : ∃ h',
    h.fillForHttpData env data len status = .ok h' ∧
      h'.conn.pWrite.slice h'.conn.wPos (h'.conn.wSize - h'.conn.wPos) = enc := by
  rw [Handling.fillForHttpData, if_neg hne, henc]
  refine ⟨_, rfl, ?_⟩
  change (CharVec.write _ 0 (enc ++ [0])).slice 0 (enc.length - 0) = enc
  rw [Nat.sub_zero, CharVec.slice_write_prefix _ _ _ (by simp), List.take_left]

/-- The two encoders agree exactly if the first NUL of the buffer is where the
announced content ends. -/
theorem encoders_agree_iff (date status : ByteString) (hlen : len ≤ data.length) :
    EncodersAgree date data len status ↔
      len < 2 ^ 63 ∧ data[len]? = some 0 ∧ 0 ∉ data.take len := by
  constructor
  · intro hagree
    exact (encoded_iff date status hlen).mp hagree.encoded
  · intro hnul
    have henc := (encoded_iff date status hlen).mpr hnul
    refine ⟨henc, fun hne env h hdate => ?_⟩
    subst hdate
    exact fillForHttpData_of_encoded h hne henc

end Encoders

theorem encoders_agree_iff_terminated : EncodersAgree (ofString "2016-Nov-01 08:30:00")
    [97, 98, 0] 2 HttpProto.Status.ok :=
  (encoders_agree_iff _ _ (by decide)).mpr (by decide)

/-- With a NUL in the middle five bytes are announced and two are sent; a
buffer that is full is read behind its end. -/
theorem nul_byte_breaks_framing :
    replyGenerateData (ofString "2016-Nov-01 08:30:00") [97, 98, 0, 99, 100, 0] 5
        HttpProto.Status.ok ≠
      .ok (replyGenerate (ofString "2016-Nov-01 08:30:00") [97, 98, 0, 99, 100]
        HttpProto.Status.ok) ∧
    replyGenerateData (ofString "2016-Nov-01 08:30:00") [97, 98] 2 HttpProto.Status.ok =
      .error .outOfBounds := by
  have hlen : 5 ≤ [97, 98, 0, 99, 100, (0 : UInt8)].length := by decide
  refine ⟨fun hencoded => ?_, by decide⟩
  have hagree := (encoded_iff _ _ hlen).mp hencoded
  exact absurd hagree.2.2 (by decide)

end Reply

end Ailawd
