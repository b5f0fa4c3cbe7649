import Ailawd.Connection.Parsing
import Ailawd.Model.Session

/-!
# A client that waits for its replies

`Dialogue` joins a connection with the byte stream of one client. The client sends
whole requests, each after the reply to the one before it has been issued; the
bytes it has sent and the server has not received are `unread`. A read completes
with some prefix of them, so every segmentation is a run. No operation fails.

`Request` is what a well-behaved client sends: a head that parses and ends with its
first CRLFCRLF, and as many body bytes, at least one, as the head announces.
-/

namespace Ailawd

open ByteString Transition

structure Request where
  head : ByteString
  body : ByteString
  parser : HttpParser
  terminated : find crlf2 head = some (head.length - 4)
  parses : HttpParser.init.parseRequest head = (true, parser)
  announced : parser.announced = body.length
  nonempty : body ≠ []

def Request.bytes (r : Request) : ByteString := r.head ++ r.body

def Request.make? (head body : ByteString) : Option Request :=
  match h : HttpParser.init.parseRequest head with
  | (true, parser) =>
    if hr : find crlf2 head = some (head.length - 4) ∧ parser.announced = body.length ∧
        body ≠ [] then
      some ⟨head, body, parser, hr.1, h, hr.2.1, hr.2.2⟩
    else none
  | _ => none

/-- The handlers read the body of this request, all of it: a `POST` to one of
the three URIs that announces exactly its body. -/
structure Request.Served (r : Request) : Prop where
  post : r.parser.isPost = true
  uri : r.parser.acceptsUri = true
  length : r.parser.contentLength = r.body.length

def Effect.isParse : Effect → Bool
  | .parse _ => true
  | _ => false

def Effect.isFill : Effect → Bool
  | .fill _ => true
  | _ => false

def Effect.analysed? : Effect → Option ByteString
  | .analyse body => some body
  | _ => none

def Session.heads (x : Session) : Nat := x.trace.countP Effect.isParse

/-- Replies encoded so far, each by one `fill_for_http`; the one encoded last
may still be on its way out. -/
def Session.replies (x : Session) : Nat := x.trace.countP Effect.isFill

/-- The bodies given to `analyse_handler` so far, in their order. -/
def Session.analyses (x : Session) : List ByteString := x.trace.filterMap Effect.analysed?

structure Dialogue where
  session : Session
  sent : Nat
  received : Nat
  unread : ByteString

inductive Signal where
  /-- The client sends its next request. -/
  | request
  | event (e : Event)

namespace Dialogue

def step (requests : List Request) (d : Dialogue) : Signal → Except (Stop Fault) Dialogue
  | .request =>
    match requests[d.sent]? with
    | none => .error .disabled
    | some r =>
      if d.session.replies < d.sent then .error .disabled
      else .ok { d with sent := d.sent + 1, unread := d.unread ++ r.bytes }
  | .event (.complete i ec data env) =>
    if ec ≠ .success ∨ ¬ data <+: d.unread then .error .disabled
    else (d.session.step (.complete i ec data env)).map fun x =>
      { d with session := x, received := d.received + data.length,
               unread := d.unread.drop data.length }
  | .event (.send i n) => (d.session.step (.send i n)).map fun x => { d with session := x }

def request (d : Dialogue) : ByteString := d.session.conn.request

/-- A client joins a connection. It has sent nothing and
has nothing on the way. -/
def join (x : Session) : Dialogue := ⟨x, 0, 0, []⟩

/-- Nothing has been sent on a connection that has just been started: no bytes
are on their way, and no calls are counted yet. -/
structure Begins (d : Dialogue) (sock : SockId) : Prop where
  started : d.session.Started sock
  request : d.request = []
  heads : d.session.heads = 0
  replies : d.session.replies = 0
  analyses : d.session.analyses = []
  sent : d.sent = 0
  received : d.received = 0
  unread : d.unread = []

end Dialogue

end Ailawd
