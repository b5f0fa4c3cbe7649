import Ailawd.Library.Segments
import Ailawd.Model.ClientOps

/-!
# What the read loop returns

`readLoop_spec` describes the loop of `sync_read_from` on a buffer that what has been
read fits: it returns a length between the two, with the bytes of the stream in
order. `readLoop_eq_iff` says when the length is exactly the one that was asked for.
-/

namespace Ailawd.ClientOps

open ByteString

section ReadSome

variable {window : Nat} {segments rest : List ByteString} {data : ByteString}

/-- A read takes bytes off the front of the stream, no more than the
window, and loses none. -/
theorem readSome_eq_some (h : readSome window segments = some (data, rest)) :
    data ++ rest.flatten = segments.flatten ∧ data.length ≤ window := by
  cases segments with
  | nil =>
      simp only [readSome] at h
      split at h
      · obtain ⟨rfl, rfl⟩ := Prod.mk.inj (Option.some.inj h)
        exact ⟨rfl, Nat.zero_le _⟩
      · cases h
  | cons seg more =>
      simp only [readSome] at h
      split at h
      next hle =>
        obtain ⟨rfl, rfl⟩ := Prod.mk.inj (Option.some.inj h)
        exact ⟨rfl, hle⟩
      · obtain ⟨rfl, rfl⟩ := Prod.mk.inj (Option.some.inj h)
        refine ⟨?_, List.length_take_le _ _⟩
        rw [List.flatten_cons, ← List.append_assoc, List.take_append_drop, List.flatten_cons]

theorem readSome_nonempty (h : readSome window segments = some (data, rest))
    (hne : ∀ seg ∈ segments, seg ≠ []) :
    (data = [] → window = 0) ∧ ∀ seg ∈ rest, seg ≠ [] := by
  cases segments with
  | nil =>
      simp only [readSome] at h
      split at h
      next hw =>
        obtain ⟨rfl, rfl⟩ := Prod.mk.inj (Option.some.inj h)
        exact ⟨fun _ => hw, by simp⟩
      · cases h
  | cons seg more =>
      obtain ⟨hseg, hmore⟩ := List.forall_mem_cons.mp hne
      simp only [readSome] at h
      split at h
      · obtain ⟨rfl, rfl⟩ := Prod.mk.inj (Option.some.inj h)
        exact ⟨fun hd => absurd hd hseg, hmore⟩
      next hlt =>
        obtain ⟨rfl, rfl⟩ := Prod.mk.inj (Option.some.inj h)
        refine ⟨fun hd => ?_, List.forall_mem_cons.mpr ⟨fun hd => ?_, hmore⟩⟩
        · exact (List.take_eq_nil_iff.mp hd).resolve_right hseg
        · exact hlt (List.drop_eq_nil_iff.mp hd)

/-- A read gives as much of the first segment as the window holds; it does not
go on into the next one. -/
theorem readSome_length (h : readSome window segments = some (data, rest)) :
    data.length = min (segments.headD []).length window := by
  cases segments with
  | nil =>
      simp only [readSome] at h
      split at h
      · obtain ⟨rfl, -⟩ := Prod.mk.inj (Option.some.inj h)
        exact (Nat.zero_min _).symm
      · cases h
  | cons seg more =>
      simp only [readSome] at h
      split at h
      next hle =>
        obtain ⟨rfl, -⟩ := Prod.mk.inj (Option.some.inj h)
        exact (Nat.min_eq_left hle).symm
      next hlt =>
        obtain ⟨rfl, -⟩ := Prod.mk.inj (Option.some.inj h)
        rw [List.length_take, Nat.min_comm]
        rfl

/-- Boundaries survive a read, except one that the end of the window makes.
Whether the loop stops in time depends on them. -/
theorem readSome_boundary {k : Nat} (h : readSome window segments = some (data, rest))
    (hk : 0 < k) (hkw : k ≠ window) :
    AtBoundary k segments ↔ data.length ≤ k ∧ AtBoundary (k - data.length) rest := by
  cases segments with
  | nil =>
      simp only [readSome] at h
      split at h
      · obtain ⟨rfl, rfl⟩ := Prod.mk.inj (Option.some.inj h)
        simp
      · cases h
  | cons seg more =>
      simp only [readSome] at h
      split at h
      · obtain ⟨rfl, rfl⟩ := Prod.mk.inj (Option.some.inj h)
        exact atBoundary_cons hk
      next hlt =>
        obtain ⟨rfl, rfl⟩ := Prod.mk.inj (Option.some.inj h)
        rw [List.length_take_of_le (by omega), atBoundary_cons hk]
        by_cases hwk : window < k
        · have hsub : k - window - (seg.length - window) = k - seg.length := by omega
          rw [atBoundary_cons (by omega), List.length_drop, hsub]
          constructor
          · rintro ⟨hle, hb⟩
            exact ⟨by omega, by omega, hb⟩
          · rintro ⟨_, hle, hb⟩
            exact ⟨by omega, hb⟩
        · constructor
          · rintro ⟨hle, _⟩
            omega
          · rintro ⟨hle, _⟩
            omega

end ReadSome

section Head

variable {segments rest : List ByteString} {data : ByteString} {start : Nat} {length : Int}

/-- The head that the first read holds: its size with the colon, and the number
before the colon. It is looked for in the first 20 bytes, up to a NUL byte. -/
def replyHead (data : ByteString) : Option (Nat × Int) :=
  (find [58] (cString (data.take 20))).map fun pos =>
    (pos + 1, atoi ((cString (data.take 20)).take pos))

theorem replyHead_spec (h : replyHead data = some (start, length)) :
    1 ≤ start ∧ start ≤ data.length ∧ start ≤ 20 ∧ -2 ^ 31 ≤ length ∧ length < 2 ^ 31 := by
  obtain ⟨pos, hpos, heq⟩ := Option.map_eq_some_iff.mp h
  obtain ⟨rfl, rfl⟩ := Prod.mk.inj heq
  have hlt := find_add_length_le hpos
  have hle := (cString_isPrefix (data.take 20)).length_le
  rw [List.length_take] at hle
  simp only [List.length_singleton] at hlt
  exact ⟨by omega, by omega, by omega, atoi_lower _, atoi_upper _⟩

/-- The bytes after a short first read are still zero, so the text that is
searched ends where the read did. -/
theorem cString_slice_zeros (data : ByteString) :
    cString (((CharVec.zeros (32 * 1024)).write 0 data).slice 0 20) = cString (data.take 20) := by
  by_cases hlong : 20 ≤ data.length
  · rw [CharVec.slice_write_prefix _ _ _ hlong]
  · have hsplit := CharVec.slice_add ((CharVec.zeros (32 * 1024)).write 0 data) 0 data.length
      (20 - data.length)
    rw [Nat.add_sub_cancel' (by omega), CharVec.slice_write_self, Nat.zero_add] at hsplit
    have hzeros : ((CharVec.zeros (32 * 1024)).write 0 data).slice data.length (20 - data.length) =
        0 :: ((CharVec.zeros (32 * 1024)).write 0 data).slice (data.length + 1)
          (20 - data.length - 1) := by
      rw [show 20 - data.length = 1 + (20 - data.length - 1) by omega, CharVec.slice_add,
        Nat.add_sub_cancel_left]
      simp [CharVec.slice, CharVec.write, CharVec.zeros]
    rw [hsplit, hzeros, List.take_of_length_le (by omega), cString_append_zero]

/-- The numbers that the rest of `sync_read_from` goes on with, from the place
of the colon. The subtractions there do not wrap. -/
theorem replyHead_of_find {pos : Nat} (hlong : data.length ≤ 32 * 1024)
    (hpos : find [58] (cString (data.take 20)) = some pos) :
    replyHead data = some (pos + 1, atoi ((cString (data.take 20)).take pos)) ∧
      (sizeT (atoi ((cString (data.take 20)).take pos)) = 0 ↔
        atoi ((cString (data.take 20)).take pos) = 0) ∧
      sizeSub (sizeSub data.length pos) 1 = data.length - (pos + 1) := by
  have hhead : replyHead data = some (pos + 1, atoi ((cString (data.take 20)).take pos)) := by
    rw [replyHead, hpos]
    rfl
  obtain ⟨-, hle, -, hlower, hupper⟩ := replyHead_spec hhead
  refine ⟨hhead, sizeT_eq_zero_iff hlower hupper, ?_⟩
  have hmod : sizeMod = 2 ^ 64 := rfl
  rw [sizeSub_of_le (a := data.length) (by omega) (by omega), sizeSub_of_le (by omega) (by omega),
    Nat.sub_add_eq]

theorem syncReadFrom_none (h : readSome (32 * 1024) segments = none) :
    syncReadFrom segments (CharVec.zeros (32 * 1024)) = .ok (0, CharVec.zeros (32 * 1024)) := by
  simp only [syncReadFrom]
  rw [show (CharVec.zeros (32 * 1024)).size = 32 * 1024 from rfl, h]

/-- What happens after the first read depends on the head in it, and on nothing
else of the data before the colon. -/
theorem syncReadFrom_some (h : readSome (32 * 1024) segments = some (data, rest)) :
    syncReadFrom segments (CharVec.zeros (32 * 1024)) =
      match replyHead data with
      | none => .ok (0, (CharVec.zeros (32 * 1024)).write 0 data)
      | some (start, length) =>
        if length = 0 then .ok (0, (CharVec.zeros (32 * 1024)).write 0 data)
        else match growReadBuff (sizeT length)
            (((CharVec.zeros (32 * 1024)).write 0 data).eraseFront start) with
        | .error e => .error e
        | .ok readBuff => readLoop (sizeT length) rest readBuff (data.length - start) := by
  have hlong := (readSome_eq_some h).2
  simp only [syncReadFrom]
  rw [show (CharVec.zeros (32 * 1024)).size = 32 * 1024 from rfl, h]
  simp only [CharVec.write_size, cString_slice_zeros]
  rw [if_neg (by decide)]
  cases hpos : find [58] (cString (data.take 20)) with
  | none => simp only [replyHead, hpos, Option.map_none]
  | some pos =>
      obtain ⟨hhead, hzero, hwindow⟩ := replyHead_of_find hlong hpos
      cases hgrow : growReadBuff (sizeT (atoi ((cString (data.take 20)).take pos)))
          (((CharVec.zeros (32 * 1024)).write 0 data).eraseFront (pos + 1)) with
      | error e => simp only [hhead, hzero, hgrow]
      | ok readBuff => simp only [hhead, hzero, hwindow, hgrow]

end Head

section Growth

variable {length : Int} {realLen : Nat} {readBuff grown : CharVec}

theorem wanted_of_pos (h : 0 < length) (h' : length < 2 ^ 31) :
    (sizeT length : Int) = length ∧
      (((sizeT length + 256) % sizeMod : Nat) : Int) = length + 256 := by
  have hreal := sizeT_of_nonneg (i := length) (by omega) h'
  refine ⟨hreal, ?_⟩
  simp only [sizeMod]
  omega

/-- The size that is asked for wraps for the last 256 negative values, and is
beyond every vector for the others. -/
theorem wanted_of_neg (h : length < 0) (h' : -2 ^ 31 ≤ length) :
    (sizeT length : Int) = 2 ^ 64 + length ∧
      (((sizeT length + 256) % sizeMod : Nat) : Int) =
        if -256 ≤ length then length + 256 else 2 ^ 64 + length + 256 := by
  have hreal := sizeT_of_neg h h'
  refine ⟨hreal, ?_⟩
  simp only [sizeMod]
  split <;> omega

theorem growReadBuff_eq_ok (h : growReadBuff realLen readBuff = .ok grown) :
    (grown.size = if realLen > readBuff.size then (realLen + 256) % sizeMod else readBuff.size) ∧
      ∀ k, k ≤ readBuff.size → grown.slice 0 k = readBuff.slice 0 k := by
  simp only [growReadBuff] at h
  split at h
  next hlt =>
    split at h
    · cases h
    · obtain rfl := Except.ok.inj h
      rw [if_pos hlt]
      refine ⟨CharVec.resize_size _ _, fun k hk => ?_⟩
      exact CharVec.slice_resize _ _ _ _ (by rwa [Nat.zero_add])
  next hge =>
    obtain rfl := Except.ok.inj h
    rw [if_neg hge]
    exact ⟨rfl, fun _ _ => rfl⟩

theorem growReadBuff_fits (realLen : Nat) (readBuff : CharVec)
    (h : (realLen + 256) % sizeMod ≤ vectorMaxSize) :
    ∃ grown, growReadBuff realLen readBuff = .ok grown := by
  simp only [growReadBuff]
  split
  · rw [if_neg (Nat.not_lt.mpr h)]
    exact ⟨_, rfl⟩
  · exact ⟨_, rfl⟩

theorem growReadBuff_throws (h : readBuff.size < realLen)
    (h' : vectorMaxSize < (realLen + 256) % sizeMod) :
    growReadBuff realLen readBuff = .error .lengthError := by
  simp only [growReadBuff]
  rw [if_pos h, if_pos h']

end Growth

section ReadLoop

variable {realLen actualLen : Nat} {segments : List ByteString} {readBuff : CharVec}

/-- The bytes of the stream that the buffer holds after a read of the loop:
those before it, and the ones just read. -/
private theorem slice_read {data : ByteString} {rest : List ByteString}
    (h : data ++ rest.flatten = segments.flatten) {len : Nat}
    (hle : actualLen + data.length ≤ len) :
    (readBuff.write actualLen data).slice 0 (actualLen + data.length) ++
        rest.flatten.take (len - (actualLen + data.length)) =
      readBuff.slice 0 actualLen ++ segments.flatten.take (len - actualLen) := by
  rw [CharVec.slice_write_append, ← h, List.take_append, List.append_assoc]
  congr 2
  · exact (List.take_of_length_le (by omega)).symm
  · rw [Nat.sub_add_eq]

/-- The loop returns, with the bytes of the stream in order, a length that the
buffer has room for. -/
theorem readLoop_spec (realLen : Nat) (segments : List ByteString)
    (hroom : actualLen ≤ readBuff.size) (hmod : readBuff.size < sizeMod) :
    ∃ len buff, readLoop realLen segments readBuff actualLen = .ok (len, buff) ∧
      actualLen ≤ len ∧ len ≤ readBuff.size ∧ len - actualLen ≤ segments.flatten.length ∧
      buff.size = readBuff.size ∧
      buff.slice 0 len = readBuff.slice 0 actualLen ++ segments.flatten.take (len - actualLen) := by
  fun_induction readLoop realLen segments readBuff actualLen with
  | case1 segments readBuff actualLen hlt hnone =>
      exact ⟨actualLen, readBuff, rfl, Nat.le_refl _, hroom, by omega, rfl, by simp⟩
  | case2 segments readBuff actualLen hlt rest hread =>
      exact ⟨actualLen, readBuff, rfl, Nat.le_refl _, hroom, by omega, rfl, by simp⟩
  | case3 segments readBuff actualLen hlt data rest hread hd hbig =>
      have hle := (readSome_eq_some hread).2
      rw [sizeSub_of_le hroom hmod] at hle
      omega
  | case4 segments readBuff actualLen hlt data rest hread hd hbig ih =>
      obtain ⟨hstream, hle⟩ := readSome_eq_some hread
      rw [sizeSub_of_le hroom hmod] at hle
      obtain ⟨len, buff, hr, hlow, hhigh, htotal, hsize, hslice⟩ :=
        ih (by rw [CharVec.write_size]; omega) hmod
      rw [CharVec.write_size] at hhigh hsize
      have hlen := congrArg List.length hstream
      rw [List.length_append] at hlen
      refine ⟨len, buff, hr, by omega, hhigh, by omega, hsize, ?_⟩
      rw [hslice, slice_read hstream hlow]
  | case5 segments readBuff actualLen hge =>
      exact ⟨actualLen, readBuff, rfl, Nat.le_refl _, hroom, by omega, rfl, by simp⟩

theorem readLoop_nil : readLoop realLen [] readBuff actualLen = .ok (actualLen, readBuff) := by
  rw [readLoop]
  split
  · split
    · rfl
    next data rest hread =>
      have hstream := (readSome_eq_some hread).1
      obtain ⟨hd, -⟩ := List.append_eq_nil_iff.mp hstream
      rw [dif_pos hd]
  · rfl

theorem readLoop_full (hfull : actualLen = readBuff.size) (hmod : readBuff.size < sizeMod) :
    readLoop realLen segments readBuff actualLen = .ok (actualLen, readBuff) := by
  obtain ⟨len, buff, hr, hlow, hhigh, -, -, -⟩ :=
    readLoop_spec realLen segments (Nat.le_of_eq hfull) hmod
  rw [readLoop]
  split
  · split
    · rfl
    next data rest hread =>
      have hle := (readSome_eq_some hread).2
      rw [sizeSub_of_le (Nat.le_of_eq hfull) hmod] at hle
      rw [dif_pos (List.length_eq_zero_iff.mp (by omega))]
  · rfl

theorem readLoop_lt {len : Nat} {buff : CharVec} (hlt : actualLen < realLen)
    (hroom : actualLen < readBuff.size) (hmod : readBuff.size < sizeMod)
    (hsegs : segments ≠ []) (hne : ∀ seg ∈ segments, seg ≠ [])
    (hr : readLoop realLen segments readBuff actualLen = .ok (len, buff)) : actualLen < len := by
  have hwindow : sizeSub readBuff.size actualLen = readBuff.size - actualLen :=
    sizeSub_of_le (Nat.le_of_lt hroom) hmod
  rw [readLoop, if_pos hlt] at hr
  split at hr
  next hread =>
    cases segments with
    | nil => exact absurd rfl hsegs
    | cons seg more =>
        simp only [readSome] at hread
        split at hread <;> cases hread
  next data rest hread =>
    obtain ⟨-, hle⟩ := readSome_eq_some hread
    rw [hwindow] at hle
    have hd : data ≠ [] := fun hd => by
      have := (readSome_nonempty hread hne).1 hd
      omega
    have hpos := List.length_pos_iff.mpr hd
    rw [dif_neg hd, if_neg (by omega)] at hr
    have hfits : actualLen + data.length ≤ (readBuff.write actualLen data).size := by
      rw [CharVec.write_size]
      omega
    obtain ⟨len', buff', hr', hlow, -⟩ := readLoop_spec realLen rest hfits hmod
    obtain ⟨rfl, -⟩ := Prod.mk.inj (Except.ok.inj (hr'.symm.trans hr))
    omega

/-- The loop returns exactly what it was asked for if the stream holds it and
either a segment or the buffer ends there. -/
theorem readLoop_eq_iff {len : Nat} {buff : CharVec} (hlt : actualLen < realLen)
    (hroom : realLen ≤ readBuff.size) (hmod : readBuff.size < sizeMod)
    (hne : ∀ seg ∈ segments, seg ≠ [])
    (hr : readLoop realLen segments readBuff actualLen = .ok (len, buff)) :
    len = realLen ↔ realLen - actualLen ≤ segments.flatten.length ∧
      (AtBoundary (realLen - actualLen) segments ∨ realLen = readBuff.size) := by
  fun_induction readLoop realLen segments readBuff actualLen with
  | case1 segments readBuff actualLen _ hnone =>
      obtain ⟨rfl, -⟩ := Prod.mk.inj (Except.ok.inj hr)
      have hnil : segments = [] := by
        cases segments with
        | nil => rfl
        | cons seg more =>
            simp only [readSome] at hnone
            split at hnone <;> cases hnone
      rw [hnil, List.flatten_nil, List.length_nil]
      omega
  | case2 segments readBuff actualLen _ rest hread =>
      have hzero := (readSome_nonempty hread hne).1 rfl
      rw [sizeSub_of_le (by omega) hmod] at hzero
      omega
  | case3 segments readBuff actualLen _ data rest hread hd hbig => cases hr
  | case4 segments readBuff actualLen _ data rest hread hd hbig ih =>
      obtain ⟨hstream, hle⟩ := readSome_eq_some hread
      have hwindow : sizeSub readBuff.size actualLen = readBuff.size - actualLen :=
        sizeSub_of_le (by omega) hmod
      rw [hwindow] at hle
      have htotal := congrArg List.length hstream
      rw [List.length_append] at htotal
      have hrest := (readSome_nonempty hread hne).2
      have hpos := List.length_pos_iff.mpr hd
      by_cases hdone : actualLen + data.length < realLen
      · rw [ih hdone (by rwa [CharVec.write_size]) hmod hrest hr, CharVec.write_size]
        have hsub : realLen - (actualLen + data.length) = realLen - actualLen - data.length := by
          omega
        by_cases hfull : realLen = readBuff.size
        · simp only [hfull, or_true, and_true]
          omega
        · rw [readSome_boundary (k := realLen - actualLen) hread (by omega) (by omega), hsub]
          constructor
          · rintro ⟨hle', hb⟩
            exact ⟨by omega, hb.imp_left fun hb => ⟨by omega, hb⟩⟩
          · rintro ⟨hle', hb⟩
            exact ⟨by omega, hb.imp_left And.right⟩
      · rw [readLoop, if_neg hdone] at hr
        obtain ⟨rfl, -⟩ := Prod.mk.inj (Except.ok.inj hr)
        by_cases hfull : realLen = readBuff.size
        · simp only [hfull, or_true, and_true]
          omega
        · rw [readSome_boundary (k := realLen - actualLen) hread (by omega) (by omega)]
          constructor
          · intro heq
            refine ⟨by omega, .inl ⟨by omega, ?_⟩⟩
            rw [show realLen - actualLen - data.length = 0 by omega]
            exact atBoundary_zero
          · rintro ⟨_, hb⟩
            obtain ⟨hle', -⟩ := hb.resolve_right hfull
            omega
  | case5 segments readBuff actualLen hge => exact absurd hlt hge

end ReadLoop

/-- The buffer after the first read, with the head cut off; behind what was
read it still has its zero bytes. -/
def afterHead (start : Nat) (data : ByteString) : CharVec :=
  ((CharVec.zeros (32 * 1024)).write 0 data).eraseFront start

section AfterHead

variable {reads rest : List ByteString} {data : ByteString} {start : Nat} {length : Int}

theorem afterHead_size : (afterHead start data).size = 32 * 1024 - start := rfl

theorem afterHead_slice (h : start ≤ data.length) :
    (afterHead start data).slice 0 (data.length - start) = data.drop start := by
  have hsplit := CharVec.slice_add ((CharVec.zeros (32 * 1024)).write 0 data) 0 start
    (data.length - start)
  rw [Nat.add_sub_cancel' h, CharVec.slice_write_self, CharVec.slice_write_prefix _ _ _ h,
    Nat.zero_add] at hsplit
  rw [afterHead, CharVec.slice_eraseFront, Nat.add_zero]
  refine List.append_cancel_left (hsplit.symm.trans ?_)
  exact (List.take_append_drop _ _).symm

/-- For a positive length the buffer has room for what came and for what is
announced: it is resized where it has not. -/
theorem grown_of_pos (hlong : data.length ≤ 32 * 1024) (hstart : start ≤ data.length)
    (hpos : 0 < length) (hupper : length < 2 ^ 31) :
    ∃ readBuff, growReadBuff (sizeT length) (afterHead start data) = .ok readBuff ∧
      sizeT length ≤ readBuff.size ∧ data.length - start ≤ readBuff.size ∧
      readBuff.size < sizeMod ∧ (readBuff.size : Int) ≤ length + 33 * 1024 ∧
      (length = readBuff.size ↔ start + length = 32 * 1024) ∧
      readBuff.slice 0 (data.length - start) = data.drop start := by
  obtain ⟨hreal, hwanted⟩ := wanted_of_pos hpos hupper
  have hmod : sizeMod = 2 ^ 64 := rfl
  have hbuf : (afterHead start data).size = 32 * 1024 - start := afterHead_size
  obtain ⟨readBuff, hgrow⟩ := growReadBuff_fits (sizeT length) (afterHead start data)
    (by simp only [vectorMaxSize]; omega)
  obtain ⟨hsize, hkeep⟩ := growReadBuff_eq_ok hgrow
  refine ⟨readBuff, hgrow, ?_, ?_, ?_, ?_, ?_, by rw [hkeep _ (by omega), afterHead_slice hstart]⟩
  all_goals split at hsize <;> omega

theorem grown_of_wrapped (hlong : data.length ≤ 32 * 1024) (hstart : start ≤ data.length)
    (hneg : length < 0) (hlo : -256 ≤ length) :
    ∃ readBuff, growReadBuff (sizeT length) (afterHead start data) = .ok readBuff ∧
      (readBuff.size : Int) = length + 256 ∧
      readBuff.slice 0 (data.length - start) = data.drop start := by
  obtain ⟨hreal, hwanted⟩ := wanted_of_neg hneg (by omega)
  rw [if_pos hlo] at hwanted
  have hbuf : (afterHead start data).size = 32 * 1024 - start := afterHead_size
  obtain ⟨readBuff, hgrow⟩ := growReadBuff_fits (sizeT length) (afterHead start data)
    (by simp only [vectorMaxSize]; omega)
  obtain ⟨hsize, hkeep⟩ := growReadBuff_eq_ok hgrow
  rw [if_pos (by omega)] at hsize
  exact ⟨readBuff, hgrow, by omega, by rw [hkeep _ (by omega), afterHead_slice hstart]⟩

/-- Nothing follows the head exactly if the first read is the head and the last
read. Then the result is 0. -/
theorem total_eq_iff (hne : ∀ seg ∈ reads, seg ≠ [])
    (hread : readSome (32 * 1024) reads = some (data, rest)) (hstart : start ≤ data.length) :
    reads.flatten.length = start ↔ data.length = start ∧ rest = [] := by
  have htotal := congrArg List.length (readSome_eq_some hread).1
  rw [List.length_append] at htotal
  constructor
  · intro h
    refine ⟨by omega, ?_⟩
    cases rest with
    | nil => rfl
    | cons seg more =>
        have hseg := List.length_pos_iff.mpr
          ((readSome_nonempty hread hne).2 seg List.mem_cons_self)
        rw [List.flatten_cons, List.length_append] at htotal
        omega
  · rintro ⟨hd, rfl⟩
    rw [← htotal, hd]
    rfl

end AfterHead

end Ailawd.ClientOps
