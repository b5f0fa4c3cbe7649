import Ailawd.Backend.Reading
import Ailawd.Model.Analyse
import Mathlib.Data.List.Infix

/-!
# Whole replies from the backend

A reply is its length in decimal, a colon and that many bytes. `sync_read_from`
returns what it has when the stream ends early, and everything it has read when a
read goes past the end, and both callers trust the result. It returns a whole reply
or nothing exactly for the streams that `Framed` describes: the head is rejected,
nothing follows it, or a read ends with the last byte of the reply.
-/

namespace Ailawd

open ByteString

def replyStart (n : Nat) : Nat := (decimal n).length + 1

def replyLength (n : Nat) : Int := atoi (decimal n)

/-- What a backend sends that answers in the agreed format: any prefix of a
reply and of anything after it, cut into nonempty segments. -/
structure BackendStream (n : Nat) (payload : ByteString) (segments : List ByteString) : Prop where
  length : payload.length = n
  pos : 1 ≤ n
  nonempty : ∀ seg ∈ segments, seg ≠ []
  stream : ∃ extra, segments.flatten <+: decimal n ++ 58 :: (payload ++ extra)

/-- `sync_read_from` returns 0, or exactly the announced length and the
payload: nothing in between, which would pass for a reply. -/
def ReadsWhole (n : Nat) (payload : ByteString) (segments : List ByteString) : Prop :=
  ∃ len buff, ClientOps.syncReadFrom segments (CharVec.zeros (32 * 1024)) = .ok (len, buff) ∧
    (len = 0 ∨ len = n ∧ buff.slice 0 n = payload)

/-- Nothing but the payload is cached, and the answer is
it or a text Redis gave. -/
def Outcome.Whole (payload : ByteString) (out : Outcome) : Prop :=
  (∀ key value, .setValue key value ∈ out.calls → value = payload) ∧
    ∀ text, out.text = some text → text = payload ∨ ∃ key, .getValue key (some text) ∈ out.calls

/-- So it is whatever the request, Redis and the rest of the backend do, as
long as the backend sends these segments. -/
def AnswersWhole (payload : ByteString) (segments : List ByteString) : Prop :=
  ∀ (b : Backend) (body : ByteString) (out : Outcome), b.reads = segments →
    b.analyse body = .ok out → out.Whole payload

def Framed (n : Nat) (segments : List ByteString) : Prop :=
  -- the colon is not among the first 20 bytes of the first read, or the length is read as 0
  ((segments.headD []).length < replyStart n ∨ 20 < replyStart n ∨ replyLength n = 0) ∨
  -- nothing follows the head, or the length is read as -256 and the first read is the head
  (segments.flatten.length = replyStart n ∧ -256 ≤ replyLength n ∨
    (segments.headD []).length = replyStart n ∧ replyLength n = -256) ∨
  -- a read ends with the last byte of the reply
  (replyLength n = n ∧ replyStart n + n ≤ segments.flatten.length ∧
    (AtBoundary (replyStart n + n) segments ∨ replyStart n + n = 32 * 1024))

section Length

variable {n : Nat}

private theorem ne_of_digit {b c : UInt8} (h : isDigit b = true) (hc : isDigit c = false) :
    b ≠ c := by
  intro heq
  rw [heq, hc] at h
  cases h

private theorem not_mem_of_digits {text : ByteString} {c : UInt8}
    (h : ∀ b ∈ text, isDigit b = true) (hc : isDigit c = false) : c ∉ text := fun hm =>
  ne_of_digit (h c hm) hc rfl

theorem replyLength_of_lt (h : n < 2 ^ 31) : replyLength n = n := atoi_decimal h

/-- A length that is not read back is far beyond what is read: `atoi` is only
off from `2 ^ 31` on. -/
theorem replyLength_lt_of_ne (h : replyLength n ≠ n) :
    2 ^ 31 ≤ n ∧ (0 < replyLength n → replyLength n + 2 ^ 32 ≤ n) := by
  have hbig : 2 ^ 31 ≤ n := by
    by_contra hlt
    exact h (replyLength_of_lt (by omega))
  refine ⟨hbig, fun hpos => ?_⟩
  have hvalue := numberValue_decimal n
  simp only [replyLength, atoi, strtol, hvalue, clampLong, Int.bmod_def] at hpos h ⊢
  omega

end Length

section Head

variable {n : Nat} {payload data : ByteString} {segments rest : List ByteString}

def received (n : Nat) (data : ByteString) : CharVec :=
  ((CharVec.zeros (32 * 1024)).write 0 data).eraseFront (replyStart n)

theorem received_eq : received n data = ClientOps.afterHead (replyStart n) data := rfl

namespace BackendStream

variable (hs : BackendStream n payload segments)
include hs

/-- The first read sees the front of the reply, and the later ones what
follows it, without a gap. -/
theorem data_isPrefix (hread : ClientOps.readSome (32 * 1024) segments = some (data, rest)) :
    ∃ extra, data ++ rest.flatten <+: decimal n ++ 58 :: (payload ++ extra) := by
  obtain ⟨extra, hstream⟩ := hs.stream
  refine ⟨extra, ?_⟩
  rwa [(ClientOps.readSome_eq_some hread).1]

theorem drop_isPrefix (hread : ClientOps.readSome (32 * 1024) segments = some (data, rest))
    (hhead : replyStart n ≤ data.length) :
    ∃ extra, data.drop (replyStart n) ++ rest.flatten <+: payload ++ extra := by
  obtain ⟨extra, hstream⟩ := hs.data_isPrefix hread
  refine ⟨extra, ?_⟩
  have hdrop := hstream.drop (replyStart n)
  have hreply : (decimal n ++ 58 :: (payload ++ extra)).drop (replyStart n) = payload ++ extra := by
    rw [replyStart, ← List.drop_drop, List.drop_left, List.drop_one, List.tail_cons]
  rwa [hreply, List.drop_append_of_le_length hhead] at hdrop

/-- A head that the first 20 bytes of the first read do not hold has no colon
there, and is no head for the code. -/
theorem replyHead_rejected (hread : ClientOps.readSome (32 * 1024) segments = some (data, rest))
    (hhead : data.length < replyStart n ∨ 20 < replyStart n) :
    ClientOps.replyHead data = none := by
  obtain ⟨extra, hstream⟩ := hs.data_isPrefix hread
  have hstart : replyStart n = (decimal n).length + 1 := rfl
  have hdigits : data.take 20 <+: decimal n := by
    have hpre := (List.take_prefix 20 data).trans
      ((List.prefix_append data rest.flatten).trans hstream)
    apply List.prefix_of_prefix_length_le hpre (List.prefix_append _ _)
    rw [List.length_take]
    omega
  have hcolon : (58 : UInt8) ∉ cString (data.take 20) := by
    intro hmem
    have hdigit := isDigit_of_mem_decimal _ (hdigits.subset ((cString_isPrefix _).subset hmem))
    exact absurd hdigit (by decide)
  rw [ClientOps.replyHead, find_singleton_eq_none hcolon]
  rfl

theorem replyHead_accepted (hread : ClientOps.readSome (32 * 1024) segments = some (data, rest))
    (hhead : replyStart n ≤ data.length) (hsmall : replyStart n ≤ 20) :
    ClientOps.replyHead data = some (replyStart n, replyLength n) := by
  obtain ⟨extra, hstream⟩ := hs.data_isPrefix hread
  have hstart : replyStart n = (decimal n).length + 1 := rfl
  have hpre : decimal n ++ [58] <+: data.take 20 := by
    have hdata := (List.take_prefix 20 data).trans
      ((List.prefix_append data rest.flatten).trans hstream)
    refine List.prefix_of_prefix_length_le ⟨payload ++ extra, ?_⟩ hdata ?_
    · rw [List.append_assoc]
      rfl
    · rw [List.length_append, List.length_take, List.length_singleton]
      omega
  obtain ⟨after, hafter⟩ := hpre
  have hzero : (0 : UInt8) ∉ decimal n ++ [58] := by
    intro hmem
    obtain hmem | hmem := List.mem_append.mp hmem
    · exact not_mem_of_digits isDigit_of_mem_decimal (by decide) hmem
    · exact absurd (List.mem_singleton.mp hmem) (by decide)
  have hcut : cString (data.take 20) = decimal n ++ 58 :: cString after := by
    rw [← hafter, cString_append_of_not_mem _ hzero, List.append_assoc]
    rfl
  have hcolon : (58 : UInt8) ∉ decimal n :=
    not_mem_of_digits isDigit_of_mem_decimal (by decide)
  rw [ClientOps.replyHead, hcut, find_singleton_append _ hcolon, Option.map_some, List.take_left]
  rfl

/-- With the head cut off, the rest of the reply is read into
what is left of the buffer. -/
theorem syncReadFrom_eq (hread : ClientOps.readSome (32 * 1024) segments = some (data, rest))
    (hhead : replyStart n ≤ data.length) (hsmall : replyStart n ≤ 20) :
    ClientOps.syncReadFrom segments (CharVec.zeros (32 * 1024)) =
      if replyLength n = 0 then .ok (0, (CharVec.zeros (32 * 1024)).write 0 data)
      else match ClientOps.growReadBuff (sizeT (replyLength n)) (received n data) with
      | .error e => .error e
      | .ok readBuff => ClientOps.readLoop (sizeT (replyLength n)) rest readBuff
          (data.length - replyStart n) := by
  rw [ClientOps.syncReadFrom_some hread, hs.replyHead_accepted hread hhead hsmall]
  rfl

theorem syncReadFrom_rejected
    (hread : ClientOps.readSome (32 * 1024) segments = some (data, rest))
    (hhead : data.length < replyStart n ∨ 20 < replyStart n) :
    ClientOps.syncReadFrom segments (CharVec.zeros (32 * 1024)) =
      .ok (0, (CharVec.zeros (32 * 1024)).write 0 data) := by
  rw [ClientOps.syncReadFrom_some hread, hs.replyHead_rejected hread hhead]

end BackendStream

end Head

section Returned

variable {n : Nat} {payload data : ByteString} {segments rest : List ByteString}

namespace BackendStream

variable (hs : BackendStream n payload segments)
include hs

theorem rest_nonempty (hread : ClientOps.readSome (32 * 1024) segments = some (data, rest)) :
    ∀ seg ∈ rest, seg ≠ [] :=
  (ClientOps.readSome_nonempty hread hs.nonempty).2

/-- A read into a buffer that what came with the head fits returns the bytes
that follow the head, so the result is right as soon as the length is. -/
theorem readsWhole_iff (hread : ClientOps.readSome (32 * 1024) segments = some (data, rest))
    (hhead : replyStart n ≤ data.length) (hsmall : replyStart n ≤ 20) (hne : replyLength n ≠ 0)
    {readBuff : CharVec}
    (hgrow : ClientOps.growReadBuff (sizeT (replyLength n)) (received n data) = .ok readBuff)
    (hslice : readBuff.slice 0 (data.length - replyStart n) = data.drop (replyStart n))
    (hroom : data.length - replyStart n ≤ readBuff.size) (hmod : readBuff.size < sizeMod) :
    ∃ len buff, ClientOps.readLoop (sizeT (replyLength n)) rest readBuff
        (data.length - replyStart n) = .ok (len, buff) ∧ len ≤ readBuff.size ∧
      data.length - replyStart n ≤ len ∧ (ReadsWhole n payload segments ↔ len = 0 ∨ len = n) := by
  obtain ⟨len, buff, hloop, hlow, hhigh, htotal, -, hbytes⟩ :=
    ClientOps.readLoop_spec (sizeT (replyLength n)) rest hroom hmod
  have hsync := hs.syncReadFrom_eq hread hhead hsmall
  rw [if_neg hne, hgrow] at hsync
  simp only [hloop] at hsync
  refine ⟨len, buff, hloop, hhigh, hlow, ?_, ?_⟩
  · rintro ⟨len', buff', hsync', hwhole⟩
    obtain ⟨rfl, -⟩ := Prod.mk.inj (Except.ok.inj (hsync.symm.trans hsync'))
    exact hwhole.imp_right And.left
  · intro hlen
    refine ⟨len, buff, hsync, hlen.imp_right fun heq => ⟨heq, ?_⟩⟩
    obtain ⟨extra, hafter⟩ := hs.drop_isPrefix hread hhead
    have hpre : buff.slice 0 len <+: payload ++ extra := by
      rw [hbytes, hslice]
      exact ((List.prefix_append_right_inj _).mpr (List.take_prefix _ _)).trans hafter
    have hwhole := List.prefix_of_prefix_length_le hpre (List.prefix_append payload extra)
      (by rw [CharVec.slice_length, hs.length, heq])
    rw [← heq]
    exact hwhole.eq_of_length (by rw [CharVec.slice_length, hs.length, heq])

/-- A positive length: it is asked for, and there is room for it. What decides
is how much of the reply comes. -/
theorem readsWhole_iff_of_pos
    (hread : ClientOps.readSome (32 * 1024) segments = some (data, rest))
    (hhead : replyStart n ≤ data.length) (hsmall : replyStart n ≤ 20)
    (hpos : 0 < replyLength n) : ReadsWhole n payload segments ↔
      segments.flatten.length = replyStart n ∨
        replyLength n = n ∧ replyStart n + n ≤ segments.flatten.length ∧
          (AtBoundary (replyStart n + n) segments ∨ replyStart n + n = 32 * 1024) := by
  have hlong := (ClientOps.readSome_eq_some hread).2
  have hupper : replyLength n < 2 ^ 31 := atoi_upper _
  obtain ⟨hreal, -⟩ := ClientOps.wanted_of_pos hpos hupper
  have htotal := congrArg List.length (ClientOps.readSome_eq_some hread).1
  rw [List.length_append] at htotal
  obtain ⟨readBuff, hgrow, hrealSize, hroom, hbound, hlimit, hfull, hslice⟩ :=
    ClientOps.grown_of_pos hlong hhead hpos hupper
  rw [← received_eq] at hgrow
  obtain ⟨len, buff, hloop, hhigh, hlow, hwhole⟩ := hs.readsWhole_iff hread hhead hsmall
    (by omega) hgrow hslice hroom hbound
  rw [hwhole]
  apply or_congr
  · rw [ClientOps.total_eq_iff hs.nonempty hread hhead]
    constructor
    · intro hlen
      refine ⟨by omega, ?_⟩
      by_contra hrest
      have hlt := ClientOps.readLoop_lt (by omega) (by omega) hbound hrest
        (hs.rest_nonempty hread) hloop
      omega
    · rintro ⟨hd, rfl⟩
      rw [ClientOps.readLoop_nil] at hloop
      obtain ⟨rfl, -⟩ := Prod.mk.inj (Except.ok.inj hloop)
      omega
  · by_cases hread' : replyLength n = n
    · have hn : sizeT (replyLength n) = n := by omega
      rw [hn] at hloop hrealSize
      rw [hread'] at hfull
      simp only [hread', true_and]
      -- a boundary of the whole stream is one of what the first read left, unless it
      -- is the end of the initial buffer
      have hcut : AtBoundary (replyStart n + n) segments ∨ replyStart n + n = 32 * 1024 ↔
          data.length ≤ replyStart n + n ∧
            (AtBoundary (replyStart n + n - data.length) rest ∨
              replyStart n + n = 32 * 1024) := by
        by_cases hend : replyStart n + n = 32 * 1024
        · simp only [hend, or_true, and_true, true_iff]
          exact hlong
        · rw [ClientOps.readSome_boundary hread (by omega) hend]
          simp only [hend, or_false]
      have hend : n = readBuff.size ↔ replyStart n + n = 32 * 1024 := by omega
      rw [hcut]
      by_cases hmore : data.length - replyStart n < n
      · rw [ClientOps.readLoop_eq_iff hmore hrealSize hbound (hs.rest_nonempty hread) hloop, hend,
          show n - (data.length - replyStart n) = replyStart n + n - data.length by omega]
        constructor
        · rintro ⟨hle, hb⟩
          exact ⟨by omega, by omega, hb⟩
        · rintro ⟨hle, _, hb⟩
          exact ⟨by omega, hb⟩
      · rw [ClientOps.readLoop, if_neg hmore] at hloop
        obtain ⟨rfl, -⟩ := Prod.mk.inj (Except.ok.inj hloop)
        constructor
        · intro heq
          refine ⟨by omega, by omega, .inl ?_⟩
          rw [show replyStart n + n - data.length = 0 by omega]
          exact atBoundary_zero
        · rintro ⟨_, hle, _⟩
          omega
    · obtain ⟨-, hfar⟩ := replyLength_lt_of_ne hread'
      have hle := hfar hpos
      constructor
      · intro heq
        omega
      · rintro ⟨heq, _⟩
        exact absurd heq hread'

/-- A length from -256 on: the buffer shrinks to at most 255 bytes,
fewer than the reply has. -/
theorem readsWhole_iff_of_wrapped
    (hread : ClientOps.readSome (32 * 1024) segments = some (data, rest))
    (hhead : replyStart n ≤ data.length) (hsmall : replyStart n ≤ 20)
    (hneg : replyLength n < 0) (hlo : -256 ≤ replyLength n) : ReadsWhole n payload segments ↔
      segments.flatten.length = replyStart n ∨
        data.length = replyStart n ∧ replyLength n = -256 := by
  have hlong := (ClientOps.readSome_eq_some hread).2
  have hreal := (ClientOps.wanted_of_neg hneg (atoi_lower _)).1
  have hmod : sizeMod = 2 ^ 64 := rfl
  obtain ⟨hbig, -⟩ := replyLength_lt_of_ne (n := n) (by omega)
  obtain ⟨readBuff, hgrow, hsize, hslice⟩ := ClientOps.grown_of_wrapped hlong hhead hneg hlo
  rw [← received_eq] at hgrow
  rw [ClientOps.total_eq_iff hs.nonempty hread hhead]
  by_cases hroom : data.length - replyStart n ≤ readBuff.size
  · obtain ⟨len, buff, hloop, hhigh, hlow, hwhole⟩ := hs.readsWhole_iff hread hhead hsmall
      (by omega) hgrow hslice hroom (by omega)
    rw [hwhole]
    constructor
    · intro hlen
      have hd : data.length = replyStart n := by omega
      by_cases hfull : replyLength n = -256
      · exact .inr ⟨hd, hfull⟩
      · refine .inl ⟨hd, ?_⟩
        by_contra hrest
        have hlt := ClientOps.readLoop_lt (by omega) (by omega) (by omega) hrest
          (hs.rest_nonempty hread) hloop
        omega
    · rintro (⟨hd, rfl⟩ | ⟨hd, hfull⟩)
      · rw [ClientOps.readLoop_nil] at hloop
        obtain ⟨rfl, -⟩ := Prod.mk.inj (Except.ok.inj hloop)
        omega
      · rw [ClientOps.readLoop_full (by omega) (by omega)] at hloop
        obtain ⟨rfl, -⟩ := Prod.mk.inj (Except.ok.inj hloop)
        omega
  · constructor
    · rintro ⟨len, buff, hsync, hlen⟩
      rw [hs.syncReadFrom_eq hread hhead hsmall, if_neg (by omega), hgrow] at hsync
      simp only at hsync
      rw [ClientOps.readLoop, if_pos (by omega)] at hsync
      have hkept : len = data.length - replyStart n := by
        split at hsync
        · exact (Prod.mk.inj (Except.ok.inj hsync)).1.symm
        · split at hsync
          · exact (Prod.mk.inj (Except.ok.inj hsync)).1.symm
          · rw [if_pos (by omega)] at hsync
            cases hsync
      omega
    · intro h
      omega

theorem not_readsWhole_of_lt
    (hread : ClientOps.readSome (32 * 1024) segments = some (data, rest))
    (hhead : replyStart n ≤ data.length) (hsmall : replyStart n ≤ 20)
    (hneg : replyLength n < -256) : ¬ ReadsWhole n payload segments := by
  rintro ⟨len, buff, hsync, -⟩
  have hlow : -2 ^ 31 ≤ replyLength n := atoi_lower _
  obtain ⟨hreal, hwanted⟩ := ClientOps.wanted_of_neg (by omega) hlow
  rw [if_neg (by omega)] at hwanted
  have hbuf : (received n data).size = 32 * 1024 - replyStart n := rfl
  have hthrows : ClientOps.growReadBuff (sizeT (replyLength n)) (received n data) =
      .error .lengthError :=
    ClientOps.growReadBuff_throws (by omega) (by simp only [vectorMaxSize]; omega)
  rw [hs.syncReadFrom_eq hread hhead hsmall, if_neg (by omega), hthrows] at hsync
  cases hsync

theorem readsWhole_iff_framed : ReadsWhole n payload segments ↔ Framed n segments := by
  have hstart : 0 < replyStart n := Nat.succ_pos _
  cases hread : ClientOps.readSome (32 * 1024) segments with
  | none =>
      have hnil : segments = [] := by
        cases segments with
        | nil => rfl
        | cons seg more =>
            simp only [ClientOps.readSome] at hread
            split at hread <;> cases hread
      constructor
      · intro _
        refine .inl (.inl ?_)
        rw [hnil]
        exact hstart
      · intro _
        exact ⟨0, _, ClientOps.syncReadFrom_none hread, .inl rfl⟩
  | some first =>
      obtain ⟨data, rest⟩ := first
      have hdata := ClientOps.readSome_length hread
      by_cases hrejected : data.length < replyStart n ∨ 20 < replyStart n
      · constructor
        · intro _
          left
          omega
        · intro _
          exact ⟨0, _, hs.syncReadFrom_rejected hread hrejected, .inl rfl⟩
      · have hhead : replyStart n ≤ data.length := by omega
        have hsmall : replyStart n ≤ 20 := by omega
        have hread' : ¬ ((segments.headD []).length < replyStart n ∨ 20 < replyStart n) := by
          omega
        by_cases hzero : replyLength n = 0
        · constructor
          · intro _
            exact .inl (.inr (.inr hzero))
          · intro _
            refine ⟨0, (CharVec.zeros (32 * 1024)).write 0 data, ?_, .inl rfl⟩
            rw [hs.syncReadFrom_eq hread hhead hsmall, if_pos hzero]
        · by_cases hpos : 0 < replyLength n
          · rw [hs.readsWhole_iff_of_pos hread hhead hsmall hpos, Framed]
            constructor
            · rintro (hnothing | hends)
              · exact .inr (.inl (.inl ⟨hnothing, by omega⟩))
              · exact .inr (.inr hends)
            · rintro (hnone | hnothing | hends)
              · omega
              · left
                omega
              · exact .inr hends
          · by_cases hlo : -256 ≤ replyLength n
            · rw [hs.readsWhole_iff_of_wrapped hread hhead hsmall (by omega) hlo, Framed]
              constructor
              · intro hnothing
                right
                left
                omega
              · rintro (hnone | hnothing | ⟨hends, -⟩) <;> omega
            · have hthrows := hs.not_readsWhole_of_lt hread hhead hsmall (by omega)
              apply iff_of_false hthrows
              rintro (hnone | hnothing | ⟨hends, -⟩) <;> omega

end BackendStream

end Returned

section Answers

variable {n : Nat} {payload : ByteString} {segments : List ByteString} {b : Backend}

theorem Outcome.whole_none : Outcome.Whole payload ⟨none, []⟩ :=
  ⟨fun _ _ h => absurd h List.not_mem_nil, fun _ h => by cases h⟩

theorem redirectToWin_whole (h : ReadsWhole n payload b.reads) {body : ByteString} {out : Outcome}
    (hr : b.redirectToWin body = .ok out) :
    (∀ key value, .setValue key value ∉ out.calls) ∧
      ∀ text, out.text = some text → text = payload := by
  obtain ⟨len, buff, hsync, hlen⟩ := h
  simp only [Backend.redirectToWin] at hr
  split at hr
  · obtain rfl := Except.ok.inj hr
    exact ⟨fun _ _ => List.not_mem_nil, fun _ htext => by cases htext⟩
  · split at hr
    · cases hr
    next sent hsent =>
      simp only [hsync] at hr
      split at hr
      · obtain rfl := Except.ok.inj hr
        refine ⟨fun key value => ?_, fun _ htext => by cases htext⟩
        simp
      next hpos =>
        obtain ⟨rfl, hpayload⟩ := hlen.resolve_left hpos
        split at hr
        · cases hr
        · obtain rfl := Except.ok.inj hr
          refine ⟨fun key value => ?_, fun text htext => ?_⟩
          · simp
          · exact (Option.some.inj htext).symm.trans hpayload

theorem query_whole (h : ReadsWhole n payload b.reads) {body key : ByteString}
    {out : Outcome} (hr : b.query body key = .ok out) : out.Whole payload := by
  simp only [Backend.query] at hr
  split at hr
  next text hhit =>
    obtain rfl := Except.ok.inj hr
    refine ⟨fun key value hm => ?_, fun text' htext => .inr ⟨key, ?_⟩⟩
    · simp at hm
    · obtain rfl := Option.some.inj htext
      exact List.mem_singleton.mpr rfl
  next hmiss =>
    split at hr
    · cases hr
    next calls hredirect =>
      obtain rfl := Except.ok.inj hr
      obtain ⟨hquiet, -⟩ := redirectToWin_whole h hredirect
      refine ⟨fun key value hm => ?_, fun _ htext => by cases htext⟩
      obtain hm | hm := List.mem_cons.mp hm
      · cases hm
      · exact absurd hm (hquiet key value)
    next text calls hredirect =>
      obtain rfl := Except.ok.inj hr
      obtain ⟨hquiet, htext⟩ := redirectToWin_whole h hredirect
      obtain rfl := htext text rfl
      refine ⟨fun key value hm => ?_, fun text' htext' => .inl (Option.some.inj htext').symm⟩
      obtain hm | hm := List.mem_cons.mp hm
      · cases hm
      · obtain hm | hm := List.mem_append.mp hm
        · exact absurd hm (hquiet key value)
        · cases List.mem_singleton.mp hm
          rfl

/-- A handler that can trust the length stores and answers nothing else, since
it takes both from the same buffer. -/
theorem ReadsWhole.answersWhole (h : ReadsWhole n payload segments) :
    AnswersWhole payload segments := by
  rintro b body out rfl hr
  simp only [Backend.analyse] at hr
  split at hr
  · obtain rfl := Except.ok.inj hr
    exact Outcome.whole_none
  · split at hr
    · obtain rfl := Except.ok.inj hr
      exact Outcome.whole_none
    · split at hr
      · exact query_whole h hr
      · split at hr
        · exact query_whole h hr
        · obtain rfl := Except.ok.inj hr
          exact Outcome.whole_none
  · cases hr

/-- A short reply that arrives with one read is handed over as it is. Here the
backend keeps to the format. -/
theorem redirectToWin_single (hlen : payload.length = n) (hpos : 1 ≤ n)
    (hsmall : replyStart n ≤ 20) (hshort : replyStart n + n ≤ 32 * 1024)
    (hconnects : b.connects = true) {body : ByteString} {sent : Nat}
    (hsent : b.writeSome body = some sent)
    (hreads : b.reads = [decimal n ++ 58 :: payload]) :
    b.redirectToWin body = .ok ⟨some payload, [.writeSome (body.take sent)]⟩ := by
  have hs : BackendStream n payload b.reads := by
    rw [hreads]
    exact ⟨hlen, hpos, by simp, [], by simp⟩
  have hdata : (decimal n ++ 58 :: payload).length = replyStart n + n := by
    simp only [List.length_append, List.length_cons, replyStart, hlen]
    omega
  have hread : ClientOps.readSome (32 * 1024) b.reads =
      some (decimal n ++ 58 :: payload, []) := by
    rw [hreads, ClientOps.readSome, if_pos (by omega)]
  have hvalue : replyLength n = n := replyLength_of_lt (by omega)
  have hreal : sizeT (replyLength n) = n := by
    rw [hvalue]
    exact sizeT_natCast (by omega)
  have hgrow : ClientOps.growReadBuff n (received n (decimal n ++ 58 :: payload)) =
      .ok (received n (decimal n ++ 58 :: payload)) := by
    rw [ClientOps.growReadBuff, if_neg]
    rw [received_eq, ClientOps.afterHead_size]
    omega
  have hhead : replyStart n ≤ (decimal n ++ 58 :: payload).length := by omega
  have hslice := ClientOps.afterHead_slice hhead
  have hdrop : (decimal n ++ 58 :: payload).drop (replyStart n) = payload := by
    rw [replyStart, ← List.drop_drop, List.drop_left, List.drop_one, List.tail_cons]
  have hsync := hs.syncReadFrom_eq hread hhead hsmall
  rw [if_neg (by omega), hreal, hgrow] at hsync
  simp only [ClientOps.readLoop_nil] at hsync
  rw [hdata, Nat.add_sub_cancel_left] at hslice hsync
  simp only [Backend.redirectToWin, hconnects, hsent, hsync]
  rw [if_neg (by decide), if_neg (by omega), if_neg, received_eq, hslice, hdrop]
  · rw [received_eq, ClientOps.afterHead_size]
    omega

/-- Exactly the framed streams are read, stored and answered as whole replies,
over all segments and all ends of the stream. -/
theorem whole_replies_iff (hs : BackendStream n payload segments) :
    ReadsWhole n payload segments ∧ AnswersWhole payload segments ↔ Framed n segments := by
  constructor
  · rintro ⟨hwhole, _⟩
    exact hs.readsWhole_iff_framed.mp hwhole
  · intro hframed
    have hwhole := hs.readsWhole_iff_framed.mpr hframed
    exact ⟨hwhole, hwhole.answersWhole⟩

end Answers

theorem whole_replies_iff_one_byte :
    ReadsWhole 1 (ofString "a") [ofString "1:", ofString "a"] ∧
      AnswersWhole (ofString "a") [ofString "1:", ofString "a"] ↔
        Framed 1 [ofString "1:", ofString "a"] :=
  whole_replies_iff ⟨rfl, by decide, by decide, [], by decide⟩

section PartialReply

/-- A backend that closes the connection after two of five bytes,
which ends the loop early. -/
def closingBackend : Backend where
  parse _ := some (.object [(ofString "access_id", .string Backend.accessIdCode),
    (ofString "uuid", .string (ofString "7"))])
  md5 text := text
  getValue _ := none
  connects := true
  writeSome text := some text.length
  reads := [ofString "5:ab"]

private theorem closing_stream : BackendStream 5 (ofString "abcde") [ofString "5:ab"] :=
  ⟨rfl, by decide, by decide, [], by decide⟩

private theorem closing_read :
    ClientOps.syncReadFrom [ofString "5:ab"] (CharVec.zeros (32 * 1024)) =
      .ok (2, received 5 (ofString "5:ab")) := by
  have hread : ClientOps.readSome (32 * 1024) [ofString "5:ab"] = some (ofString "5:ab", []) := by
    decide
  rw [closing_stream.syncReadFrom_eq hread (by decide) (by decide), if_neg (by decide)]
  have hgrow : ClientOps.growReadBuff (sizeT (replyLength 5)) (received 5 (ofString "5:ab")) =
      .ok (received 5 (ofString "5:ab")) := if_neg (by decide)
  rw [hgrow]
  exact ClientOps.readLoop_nil

/-- The two bytes are cached and answered as if they were the reply, and later
requests get them too. -/
theorem partial_reply_is_stored :
    BackendStream 5 (ofString "abcde") [ofString "5:ab"] ∧
      closingBackend.analyse (ofString "x") = .ok ⟨some (ofString "ab"),
        [.getValue (ofString "7") none, .writeSome (ofString "x"),
          .setValue (ofString "7") (ofString "ab")]⟩ ∧
      ¬ (ReadsWhole 5 (ofString "abcde") [ofString "5:ab"] ∧
        AnswersWhole (ofString "abcde") [ofString "5:ab"]) := by
  refine ⟨closing_stream, ?_, ?_⟩
  · have hredirect : closingBackend.redirectToWin (ofString "x") =
        .ok ⟨some (ofString "ab"), [.writeSome (ofString "x")]⟩ := by
      simp only [Backend.redirectToWin, closingBackend, closing_read]
      decide
    have hquery : closingBackend.query (ofString "x") (ofString "7") =
        .ok ⟨some (ofString "ab"), [.getValue (ofString "7") none, .writeSome (ofString "x"),
          .setValue (ofString "7") (ofString "ab")]⟩ := by
      simp only [Backend.query, hredirect]
      rfl
    exact hquery
  · rintro ⟨⟨len, buff, hsync, hlen⟩, -⟩
    rw [closing_read] at hsync
    obtain ⟨rfl, -⟩ := Prod.mk.inj (Except.ok.inj hsync)
    omega

end PartialReply

end Ailawd
