import Ailawd.Backend.Exchange

/-!
# Whether the cuts of a reply matter

`sync_read_from` looks for the colon in what the first read gets, and a TCP read may end
anywhere. If the first read ends before the colon the reply is given up; otherwise the
whole of it comes back, however the rest is cut. `segmentation_iff` states both halves:
for which replies all cuts agree, and, for a length that is read back as it was written,
which two cuts do.
-/

namespace Ailawd

open ByteString

/-- One way of cutting the reply into reads, none of them empty, with the end
of the stream behind the last. -/
structure Cut (payload : ByteString) (reads : List ByteString) : Prop where
  nonempty : ∀ seg ∈ reads, seg ≠ []
  stream : reads.flatten = decimal payload.length ++ 58 :: payload

def Decodes (reads : List ByteString) (text : ByteString) : Prop :=
  ∃ buff, ClientOps.syncReadFrom reads (CharVec.zeros (32 * 1024)) = .ok (text.length, buff) ∧
    buff.slice 0 text.length = text

def SameReply (reads reads' : List ByteString) : Prop :=
  ∃ text, Decodes reads text ∧ Decodes reads' text

/-- The first read gets the whole head, up to and with the colon. -/
def HeadFirst (payload : ByteString) (reads : List ByteString) : Prop :=
  replyStart payload.length ≤ ClientOps.firstRead reads

instance (payload : ByteString) (reads : List ByteString) : Decidable (HeadFirst payload reads) :=
  inferInstanceAs (Decidable (_ ≤ _))

section Cut

variable {payload text text' : ByteString} {reads reads' : List ByteString}

theorem Decodes.unique (h : Decodes reads text) (h' : Decodes reads text') : text = text' := by
  obtain ⟨buff, hsync, hslice⟩ := h
  obtain ⟨buff', hsync', hslice'⟩ := h'
  obtain ⟨hlen, rfl⟩ := Prod.mk.inj (Except.ok.inj (hsync.symm.trans hsync'))
  rw [← hslice, ← hslice', hlen]

namespace Cut

theorem backendStream (h : Cut payload reads) (hpos : payload ≠ []) :
    BackendStream payload.length payload reads :=
  ⟨rfl, List.length_pos_iff.mpr hpos, h.nonempty, [], by rw [h.stream, List.append_nil]⟩

theorem total (h : Cut payload reads) :
    reads.flatten.length = replyStart payload.length + payload.length := by
  rw [h.stream, List.length_append, List.length_cons, replyStart]
  omega

theorem exists_readSome (h : Cut payload reads) : ∃ data rest,
    ClientOps.readSome (32 * 1024) reads = some (data, rest) ∧
      data.length = ClientOps.firstRead reads := by
  cases hread : ClientOps.readSome (32 * 1024) reads with
  | some first =>
      obtain ⟨data, rest⟩ := first
      exact ⟨data, rest, rfl, ClientOps.readSome_length hread⟩
  | none =>
      have htotal := h.total
      cases reads with
      | nil =>
          simp only [List.flatten_nil, List.length_nil, replyStart] at htotal
          omega
      | cons seg more =>
          simp only [ClientOps.readSome] at hread
          split at hread <;> cases hread

theorem announced_of_head (h : Cut payload reads) (hpos : payload ≠ [])
    (hhead : HeadFirst payload reads) (hsmall : replyStart payload.length ≤ 20)
    (hne : replyLength payload.length ≠ 0) : ClientOps.announced reads =
      some (replyStart payload.length, replyLength payload.length) := by
  obtain ⟨data, rest, hread, hdata⟩ := h.exists_readSome
  have haccepted := (h.backendStream hpos).replyHead_accepted hread (hdata ▸ hhead) hsmall
  simp only [ClientOps.announced, hread, haccepted]
  exact Option.filter_some_pos (by simpa using hne)

/-- Otherwise the reply is given up: the result is 0, and the rest of the
stream is not read. -/
theorem decodes_nil (h : Cut payload reads) (hpos : payload ≠ [])
    (hno : ¬ HeadFirst payload reads ∨ 20 < replyStart payload.length ∨
      replyLength payload.length = 0) : Decodes reads [] := by
  obtain ⟨data, rest, hread, hdata⟩ := h.exists_readSome
  have hnone : ClientOps.announced reads = none := by
    simp only [ClientOps.announced, hread]
    by_cases hrejected : data.length < replyStart payload.length ∨ 20 < replyStart payload.length
    · rw [(h.backendStream hpos).replyHead_rejected hread hrejected]
      rfl
    · have haccepted := (h.backendStream hpos).replyHead_accepted hread (by omega) (by omega)
      rw [haccepted]
      simp only [HeadFirst] at hno
      have hzero : replyLength payload.length = 0 := by omega
      simp [hzero]
  obtain ⟨buff, hsync⟩ := ClientOps.syncReadFrom_of_none hnone
  exact ⟨buff, hsync, rfl⟩

/-- With the head in the first read the payload comes back,
however the rest is cut. -/
theorem decodes_payload (h : Cut payload reads) (hpos : payload ≠ [])
    (hhead : HeadFirst payload reads) (hlength : replyLength payload.length = payload.length) :
    Decodes reads payload := by
  have hlen : 0 < payload.length := List.length_pos_iff.mpr hpos
  have hupper : replyLength payload.length < 2 ^ 31 := atoi_upper _
  have hdigits : (decimal payload.length).length ≤ 10 := length_decimal_le (by omega)
  have hsmall : replyStart payload.length ≤ 20 := by
    simp only [replyStart]
    omega
  have hannounced := h.announced_of_head hpos hhead hsmall (by omega)
  obtain ⟨len, buff, hsync, -, hzero, hbytes⟩ :=
    ClientOps.syncReadFrom_of_pos h.nonempty hannounced (by omega)
  have hend : AtBoundary (replyStart payload.length + payload.length) reads :=
    ⟨reads, List.prefix_rfl, h.total⟩
  have hwhole := (h.backendStream hpos).readsWhole_iff_framed.mpr
    (.inr (.inr ⟨hlength, Nat.le_of_eq h.total.symm, .inl hend⟩))
  obtain ⟨len', buff', hsync', hlen'⟩ := hwhole
  obtain ⟨rfl, rfl⟩ := Prod.mk.inj (Except.ok.inj (hsync.symm.trans hsync'))
  obtain rfl | ⟨rfl, hslice⟩ := hlen'
  · have htotal := hzero.mp rfl
    rw [h.total] at htotal
    omega
  · exact ⟨buff, hsync, hslice⟩

end Cut

theorem cut_whole (payload : ByteString) :
    Cut payload [decimal payload.length ++ 58 :: payload] := ⟨by simp, by simp⟩

theorem exists_cut_short (payload : ByteString) :
    ∃ reads, Cut payload reads ∧ ¬ HeadFirst payload reads := by
  obtain ⟨digit, more, hdecimal⟩ := List.exists_cons_of_ne_nil (decimal_ne_nil payload.length)
  refine ⟨[[digit], more ++ 58 :: payload], ⟨by simp, by simp [hdecimal]⟩, ?_⟩
  simp [HeadFirst, ClientOps.firstRead, replyStart, hdecimal]

/-- In one segment a reply is not given up, unless its length is read as 0 or
its head is too long. -/
theorem not_decodes_nil_whole (hpos : payload ≠ []) (hsmall : replyStart payload.length ≤ 20)
    (hne : replyLength payload.length ≠ 0) :
    ¬ Decodes [decimal payload.length ++ 58 :: payload] [] := by
  rintro ⟨buff, hsync, -⟩
  have hcut := cut_whole payload
  have hlen : 0 < payload.length := List.length_pos_iff.mpr hpos
  have htotal := hcut.total
  have hfirst : ClientOps.firstRead [decimal payload.length ++ 58 :: payload] =
      min (replyStart payload.length + payload.length) (32 * 1024) := by
    rw [← htotal]
    simp [ClientOps.firstRead]
  have hhead : HeadFirst payload [decimal payload.length ++ 58 :: payload] := by
    rw [HeadFirst, hfirst]
    omega
  have hannounced := hcut.announced_of_head hpos hhead hsmall hne
  by_cases hlength : 0 < replyLength payload.length
  · obtain ⟨len, buff', hsync', -, hzero, -⟩ :=
      ClientOps.syncReadFrom_of_pos hcut.nonempty hannounced hlength
    obtain ⟨rfl, -⟩ := Prod.mk.inj (Except.ok.inj (hsync'.symm.trans hsync))
    have hempty := hzero.mp rfl
    omega
  · -- such a length stands for at least 2^31 bytes, so the first read fills the buffer
    obtain ⟨hbig, -⟩ := replyLength_lt_of_ne (n := payload.length) (by omega)
    by_cases hlo : -256 ≤ replyLength payload.length
    · have hwrapped := ClientOps.syncReadFrom_of_wrapped hcut.nonempty hannounced (by omega) hlo
      rw [if_neg (by omega)] at hwrapped
      obtain hfault | ⟨len, buff', hsync', hover⟩ := hwrapped
      · rw [hfault] at hsync
        cases hsync
      · obtain ⟨rfl, -⟩ := Prod.mk.inj (Except.ok.inj (hsync'.symm.trans hsync))
        exact absurd hover (Nat.not_lt_zero _)
    · rw [ClientOps.syncReadFrom_of_lt hannounced (by omega)] at hsync
      cases hsync

/-- All cuts of a reply agree exactly if its head is never accepted. Of a reply
whose length is read back, two cuts agree exactly if both first reads get the
whole head, or neither does. -/
theorem segmentation_iff (payload : ByteString) (hpos : payload ≠ []) :
    ((∀ reads reads', Cut payload reads → Cut payload reads' → SameReply reads reads') ↔
      20 < replyStart payload.length ∨ replyLength payload.length = 0) ∧
    (replyLength payload.length = payload.length → ∀ reads reads', Cut payload reads →
      Cut payload reads' →
        (SameReply reads reads' ↔ (HeadFirst payload reads ↔ HeadFirst payload reads'))) := by
  constructor
  · constructor
    · intro hsame
      by_contra haccepted
      obtain ⟨reads, hcut, hshort⟩ := exists_cut_short payload
      obtain ⟨text, htext, htext'⟩ := hsame _ _ hcut (cut_whole payload)
      obtain rfl := htext.unique (hcut.decodes_nil hpos (.inl hshort))
      exact not_decodes_nil_whole hpos (by omega) (by omega) htext'
    · intro hrejected reads reads' hcut hcut'
      exact ⟨[], hcut.decodes_nil hpos (.inr hrejected), hcut'.decodes_nil hpos (.inr hrejected)⟩
  · intro hlength reads reads' hcut hcut'
    constructor
    · rintro ⟨text, htext, htext'⟩
      have given : ∀ {reads}, Cut payload reads → Decodes reads text →
          (HeadFirst payload reads ↔ text = payload) := by
        intro reads hcut htext
        constructor
        · exact fun hhead => htext.unique (hcut.decodes_payload hpos hhead hlength)
        · rintro rfl
          by_contra hhead
          exact hpos (htext.unique (hcut.decodes_nil hpos (.inl hhead)))
      exact (given hcut htext).trans (given hcut' htext').symm
    · intro hiff
      by_cases hhead : HeadFirst payload reads
      · exact ⟨payload, hcut.decodes_payload hpos hhead hlength,
          hcut'.decodes_payload hpos (hiff.mp hhead) hlength⟩
      · exact ⟨[], hcut.decodes_nil hpos (.inl hhead),
          hcut'.decodes_nil hpos (.inl fun h => hhead (hiff.mpr h))⟩

end Cut

/-- The five bytes `abcde` as a reply. The cuts differ: some first
reads end before the colon. -/
theorem segmentation_iff_five :
    ((∀ reads reads', Cut (ofString "abcde") reads → Cut (ofString "abcde") reads' →
        SameReply reads reads') ↔ 20 < replyStart 5 ∨ replyLength 5 = 0) ∧
    (replyLength 5 = (5 : Nat) → ∀ reads reads', Cut (ofString "abcde") reads →
      Cut (ofString "abcde") reads' → (SameReply reads reads' ↔
        (HeadFirst (ofString "abcde") reads ↔ HeadFirst (ofString "abcde") reads'))) :=
  segmentation_iff (ofString "abcde") (by decide)

/-- A first read that ends before the colon loses the reply, which is handed
over when it comes in one piece. -/
theorem read_ends_before_colon :
    Cut (ofString "abcde") [ofString "5:abcde"] ∧
      Cut (ofString "abcde") [ofString "5", ofString ":abcde"] ∧
      Decodes [ofString "5:abcde"] (ofString "abcde") ∧
      Decodes [ofString "5", ofString ":abcde"] [] ∧
      ¬ SameReply [ofString "5:abcde"] [ofString "5", ofString ":abcde"] := by
  have hcut : Cut (ofString "abcde") [ofString "5:abcde"] := ⟨by decide, by decide⟩
  have hcut' : Cut (ofString "abcde") [ofString "5", ofString ":abcde"] :=
    ⟨by decide, by decide⟩
  have hpos : ofString "abcde" ≠ [] := by decide
  have hpayload := hcut.decodes_payload hpos (by decide) (by decide)
  have hnil := hcut'.decodes_nil hpos (.inl (by decide))
  refine ⟨hcut, hcut', hpayload, hnil, ?_⟩
  rintro ⟨text, htext, htext'⟩
  obtain rfl := htext.unique hpayload
  exact hpos (htext'.unique hnil)

end Ailawd
