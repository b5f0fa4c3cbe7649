import Ailawd.Library.ByteString

/-!
# Protocol constants and the ways the process can stop

The strings of `http_proto.hpp` that the modelled code uses, and the faults that
end a run: a failing `assert` (both makefiles compile them in), an access outside
an object, a null socket pointer, or an exception that leaves a handler.
-/

namespace Ailawd

open ByteString

/-- A fault names the source line it comes from, by what that line checks. -/
inductive Fault where
  /-- `assert( additional_size <= len )` in `read_head_handler`. -/
  | additionalSize
  /-- `assert(w_size_)` in `do_write`. -/
  | writeSize
  /-- `assert(w_pos_ < w_size_)` in `do_write`. -/
  | writePos
  /-- `assert(data && len)` in `fill_for_http`. -/
  | fillLength
  /-- `assert( get_stats() != conn_working )` in `conn_wash_white`. -/
  | washWorking
  /-- `assert(new_c.use_count() == 1)` in `accept_handler`. -/
  | cachedUseCount
  /-- The `std::find` assertion in `timing_wheel_check`. -/
  | pendingNotCached
  /-- `assert(conn_expired_time_/timing_wheel_.capacity())`. -/
  | checkSpare
  /-- `assert(p_srv->front_conns_.size() == p_srv->current_conns_cnt_)`. -/
  | poolCount
  /-- `p_sock_->` on an empty pointer. -/
  | nullSocket
  /-- An access outside a string or buffer. -/
  | outOfBounds
  /-- An access through a pointer into a buffer that has moved. -/
  | useAfterFree
  /-- `std::vector::resize` beyond the maximal size throws. -/
  | lengthError
  /-- rapidjson's assertion that a member is looked up in an object. -/
  | notObject
  /-- rapidjson's assertion that the member is there. -/
  | noMember
  /-- rapidjson's assertion that the value is a string. -/
  | notString
  /-- A C++ exception leaves the handler of a thread without a catch. -/
  | exception
  deriving DecidableEq, Repr

def crlf2 : ByteString := [13, 10, 13, 10]

namespace HttpProto

def contentError : ByteString := ofString
  "<html><head><title>Internal Server Error</title></head><body><h1>500 Internal Server Error</h1></body></html>"

def contentBadRequest : ByteString := ofString
  "<html><head><title>Bad Request</title></head><body><h1>400 Bad Request</h1></body></html>"

def contentNotFound : ByteString := ofString
  "<html><head><title>Not Found</title></head><body><h1>404 Not Found</h1></body></html>"

namespace HeaderOptions

def requestMethod : ByteString := ofString "request_method_"
def requestUri : ByteString := ofString "request_uri_"
def httpVersion : ByteString := ofString "http_version_"
def requestBody : ByteString := ofString "request_body_"
def contentLength : ByteString := ofString "Content-Length"

end HeaderOptions

namespace Status

def ok : ByteString := ofString "HTTP/1.1 200 OK\r\n"
def created : ByteString := ofString "HTTP/1.1 201 Created\r\n"
def accepted : ByteString := ofString "HTTP/1.1 202 Accepted\r\n"
def noContent : ByteString := ofString "HTTP/1.1 204 No Content\r\n"
def multipleChoices : ByteString := ofString "HTTP/1.1 300 Multiple Choices\r\n"
def movedPermanently : ByteString := ofString "HTTP/1.1 301 Moved Permanently\r\n"
def movedTemporarily : ByteString := ofString "HTTP/1.1 302 Moved Temporarily\r\n"
def notModified : ByteString := ofString "HTTP/1.1 304 Not Modified\r\n"
def badRequest : ByteString := ofString "HTTP/1.1 400 Bad Request\r\n"
def unauthorized : ByteString := ofString "HTTP/1.1 401 Unauthorized\r\n"
def forbidden : ByteString := ofString "HTTP/1.1 403 Forbidden\r\n"
def notFound : ByteString := ofString "HTTP/1.1 404 Not Found\r\n"
def internalServerError : ByteString := ofString "HTTP/1.1 500 Internal Server Error\r\n"
def notImplemented : ByteString := ofString "HTTP/1.1 501 Not Implemented\r\n"
def badGateway : ByteString := ofString "HTTP/1.1 502 Bad Gateway\r\n"
def serviceUnavailable : ByteString := ofString "HTTP/1.1 503 Service Unavailable\r\n"

def all : List ByteString :=
  [ok, created, accepted, noContent, multipleChoices, movedPermanently, movedTemporarily,
    notModified, badRequest, unauthorized, forbidden, notFound, internalServerError,
    notImplemented, badGateway, serviceUnavailable]

end Status

end HttpProto

end Ailawd
