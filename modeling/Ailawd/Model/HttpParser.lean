import Ailawd.Library.Conversion
import Ailawd.Library.OrderedMap
import Ailawd.Model.HttpProto

/-!
# The request parser

`parseRequest` follows `http_parser::parse_request` line by line. A line with a
colon is a field; any other line is tried against the request-line regex, whose
three groups are determined by maximal runs because the classes before each of
them are disjoint. Fields and pseudo-options share one ordered map, the first
insertion of a key wins, and `requestOption` searches that map without case.

Removing trailing slashes indexes `uri[uri.size()-1]`, which is outside the string
once it is empty. Neither Makefile turns the assertions of the library on, so the
access is not checked: it reads the byte in front of the characters, which is no
slash, and the loop ends there.
-/

namespace Ailawd

open ByteString HttpProto

/-- The keys are in the order of `std::less<std::string>`. -/
instance : Std.LawfulOrderLT ByteString := inferInstanceAs (Std.LawfulOrderLT (List UInt8))

abbrev HeaderOpts := OrderedMap ByteString ByteString

structure HttpParser where
  headerOpts : HeaderOpts

namespace HttpParser

def init : HttpParser := ⟨OrderedMap.empty⟩

/-- `([a-zA-Z]+)[ ]+([^ ]+)([ ]+(.*))?` matched against a whole line. The
groups are greedy, so the version is the rest behind the spaces. -/
def matchRequestLine (item : ByteString) : Option (ByteString × ByteString × ByteString) :=
  let method := item.takeWhile isAlpha
  let blank := item.dropWhile isAlpha
  let target := blank.dropWhile (· = 32)
  let uri := target.takeWhile (· ≠ 32)
  if method = [] ∨ blank.head? ≠ some 32 ∨ uri = [] then none
  else some (method, uri, target.dropWhile (· ≠ 32))

/-- The loop on the reversed URI, which reads the last byte before each
pass. The byte that the index outside the empty string reads is none of the
slashes. -/
def stripSlashesRev : ByteString → ByteString
  | [] => []
  | b :: bs => if b = 47 then stripSlashesRev bs else b :: bs

def stripSlashes (uri : ByteString) : ByteString := (stripSlashesRev uri.reverse).reverse

/-- One pass of the line loop. A line with a colon is a header field, even
where a request line is expected. -/
def parseLine (opts : HeaderOpts) (item : ByteString) : HeaderOpts :=
  if 58 ∈ item then
    opts.insert (trim (item.takeWhile (· ≠ 58))) (trim ((item.dropWhile (· ≠ 58)).drop 1))
  else match matchRequestLine item with
    | none => opts
    | some (method, target, version) =>
      ((opts.insert HeaderOptions.requestMethod (trim (method.map toUpper))).insert
        HeaderOptions.requestUri (stripSlashes (trim target))).insert
          HeaderOptions.httpVersion (trim version)

/-- The line loop; it also stops at the line that holds
only a carriage return. -/
def parseLines (opts : HeaderOpts) : List ByteString → HeaderOpts
  | [] => opts
  | item :: rest => if item = [13] then opts else parseLines (parseLine opts item) rest

/-- `parse_request(text.c_str())`. The parser is untouched when the
text has no complete head. -/
def parseRequest (p : HttpParser) (text : ByteString) : Bool × HttpParser :=
  let header := cString text
  match find crlf2 header with
  | none => (false, p)
  | some i =>
    let opts := OrderedMap.empty.insert HeaderOptions.requestBody (header.drop (i + 4))
    (true, ⟨parseLines opts (lines (header.take (i + 4)))⟩)

def requestOption (p : HttpParser) (name : ByteString) : ByteString :=
  if name = [] then []
  else match p.headerOpts.findFirst (iequals name) with
    | some entry => entry.2
    | none => []

/-- `(size_t) atoi(request_option(content_length).c_str())`, so a missing field
is 0 and a negative number becomes a huge one. -/
def contentLength (p : HttpParser) : Nat :=
  sizeT (atoi (p.requestOption HeaderOptions.contentLength))

end HttpParser

end Ailawd
