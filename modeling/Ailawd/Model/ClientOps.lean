import Ailawd.Library.CharVec
import Ailawd.Library.Conversion
import Ailawd.Model.HttpProto
import Ailawd.Model.FrontConn

/-!
# Blocking reads from the backend

The backend's answer is a list of segments, after which the stream ends or fails.
`readSome` gives a caller the next segment, or as much of it as the offered window
holds. `syncReadFrom` follows `client_ops::sync_read_from`: the number before the
first colon among the first 20 bytes is the length of what follows, and the loop
reads until that much has arrived.
-/

namespace Ailawd

open ByteString

namespace ClientOps

/-- `sock.read_some(buffer(_, window), ec)`; `none` is an error or the end of
the stream. A read takes at most one segment of what comes in. -/
def readSome (window : Nat) : List ByteString → Option (ByteString × List ByteString)
  | [] => if window = 0 then some ([], []) else none
  | seg :: rest =>
    if seg.length ≤ window then some (seg, rest)
    else some (seg.take window, seg.drop window :: rest)

theorem readSome_lt {window : Nat} {segments rest : List ByteString} {data : ByteString}
    (h : readSome window segments = some (data, rest)) (hne : data ≠ []) :
    rest.flatten.length < segments.flatten.length := by
  have hpos := List.length_pos_iff.mpr hne
  cases segments with
  | nil =>
      simp only [readSome] at h
      split at h
      · obtain ⟨rfl, -⟩ := Prod.mk.inj (Option.some.inj h)
        exact absurd rfl hne
      · cases h
  | cons seg more =>
      simp only [readSome] at h
      split at h
      · obtain ⟨rfl, rfl⟩ := Prod.mk.inj (Option.some.inj h)
        simp only [List.flatten_cons, List.length_append]
        omega
      · obtain ⟨rfl, rfl⟩ := Prod.mk.inj (Option.some.inj h)
        rw [List.length_take] at hpos
        simp only [List.flatten_cons, List.length_append, List.length_drop]
        omega

/-- The loop of `sync_read_from`. The window is a difference of sizes, which
wraps when more has been read than the buffer holds. -/
def readLoop (realLen : Nat) (segments : List ByteString) (readBuff : CharVec)
    (actualLen : Nat) : Except Fault (Nat × CharVec) :=
  if actualLen < realLen then
    match _h : readSome (sizeSub readBuff.size actualLen) segments with
    | none => .ok (actualLen, readBuff)
    | some (data, rest) =>
      if _hd : data = [] then .ok (actualLen, readBuff)
      else if actualLen + data.length > readBuff.size then .error .outOfBounds
      else readLoop realLen rest (readBuff.write actualLen data) (actualLen + data.length)
  else .ok (actualLen, readBuff)
termination_by segments.flatten.length
decreasing_by simpa only [List.length_flatten] using readSome_lt _h _hd

/-- `if (real_len > read_buff.size()) read_buff.resize(real_len + 256)`, where
the sum wraps and a size above the maximum throws. -/
def growReadBuff (realLen : Nat) (readBuff : CharVec) : Except Fault CharVec :=
  if realLen > readBuff.size then
    if (realLen + 256) % sizeMod > vectorMaxSize then .error .lengthError
    else .ok (readBuff.resize ((realLen + 256) % sizeMod))
  else .ok readBuff

/-- What `sync_read_from` returns, with the buffer it leaves. The length is
parsed from the first twenty bytes of the first read. -/
def syncReadFrom (segments : List ByteString) (readBuff : CharVec) :
    Except Fault (Nat × CharVec) :=
  match readSome readBuff.size segments with
  | none => .ok (0, readBuff)
  | some (data, rest) =>
    let readBuff := readBuff.write 0 data
    if readBuff.size < 20 then .error .outOfBounds
    else
      let lenStr := cString (readBuff.slice 0 20)
      match find [58] lenStr with
      | none => .ok (0, readBuff)
      | some pos =>
        let realLen := sizeT (atoi (lenStr.take pos))
        if realLen = 0 then .ok (0, readBuff)
        else match growReadBuff realLen (readBuff.eraseFront (pos + 1)) with
          | .error e => .error e
          | .ok readBuff =>
            readLoop realLen rest readBuff (sizeSub (sizeSub data.length pos) 1)

end ClientOps

end Ailawd
