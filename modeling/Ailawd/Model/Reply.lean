import Ailawd.Library.Conversion
import Ailawd.Model.HttpProto

/-!
# The reply encoder

`replyGenerate` is the `std::string` overload of `reply::reply_generate`: a status
line, six header fields, an empty line and the content. The text of the `Date`
field comes from the clock and is a parameter. `replyGenerateData` is the overload for
a pointer and a length.
-/

namespace Ailawd.Reply

open ByteString

structure Header where
  name : ByteString
  value : ByteString

def headerNameValueSeparator : ByteString := ofString ": "

def headerCrlf : ByteString := [13, 10]

/-- The fixed header fields for content of `size` bytes, in
the order of the source. -/
def headers (date : ByteString) (size : Nat) : List Header :=
  [⟨ofString "Server", ofString "ailawd/1.0"⟩,
   ⟨ofString "Date", date⟩,
   ⟨ofString "Content-Length", decimal size⟩,
   ⟨ofString "Content-Type", ofString "text/html"⟩,
   ⟨ofString "Connection", ofString "keep-alive"⟩,
   ⟨ofString "Access-Control-Allow-Origin", ofString "*"⟩]

def Header.render (h : Header) : ByteString :=
  h.name ++ headerNameValueSeparator ++ h.value ++ headerCrlf

def replyGenerate (date content status : ByteString) : ByteString :=
  (headers date content.length).foldl (fun str h => str ++ h.render) status ++
    headerCrlf ++ content

/-- `std::to_string(static_cast<long long int>(len))`, which is
negative from `2 ^ 63` on. -/
def signedDecimal (len : Nat) : ByteString :=
  if len < 2 ^ 63 then decimal len else 45 :: decimal (2 ^ 64 - len)

/-- The header fields of the overload for a pointer and a length,
which trusts the length. -/
def headersData (date : ByteString) (len : Nat) : List Header :=
  [⟨ofString "Server", ofString "ailawd/1.0"⟩,
   ⟨ofString "Date", date⟩,
   ⟨ofString "Content-Length", signedDecimal len⟩,
   ⟨ofString "Content-Type", ofString "text/html"⟩,
   ⟨ofString "Connection", ofString "keep-alive"⟩,
   ⟨ofString "Access-Control-Allow-Origin", ofString "*"⟩]

/-- `data` is what the pointer points to, up to the end of its buffer. `str +=
data` appends a C string, and reads on behind a buffer without a NUL. -/
def replyGenerateData (date data : ByteString) (len : Nat) (status : ByteString) :
    Except Fault ByteString :=
  if 0 ∉ data then .error .outOfBounds
  else .ok ((headersData date len).foldl (fun str h => str ++ h.render) status ++
    headerCrlf ++ cString data)

theorem replyGenerate_length_pos (date content status : ByteString) :
    0 < (replyGenerate date content status).length := by
  have hcrlf : headerCrlf.length = 2 := rfl
  simp only [replyGenerate, List.length_append, hcrlf]
  omega

end Ailawd.Reply
