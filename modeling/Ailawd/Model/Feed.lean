import Ailawd.Model.Session

/-!
# A connection and what its client sends

The client may send any bytes at any time; `unread` is what it has sent and the server has
not received. A read completes with some prefix of that, so every segmentation and every
amount of bytes past a head is a run, and so is every failure of an operation.
`timing_wheel_check` may mark the connection as failed between two handlers.
-/

namespace Ailawd

open ByteString Transition

structure Feed where
  session : Session
  unread : ByteString

inductive Traffic where
  /-- The client sends more bytes. -/
  | sent (bytes : ByteString)
  /-- `timing_wheel_check` sets `conn_error`. -/
  | expire
  | event (e : Event)

namespace Feed

def step (d : Feed) : Traffic → Except (Stop Fault) Feed
  | .sent bytes => .ok { d with unread := d.unread ++ bytes }
  | .expire =>
    .ok { d with session := { d.session with conn := { d.session.conn with stats := .error } } }
  | .event (.complete i ec data env) =>
    if ¬ data <+: d.unread then .error .disabled
    else (d.session.step (.complete i ec data env)).map fun x =>
      { d with session := x, unread := d.unread.drop data.length }
  | .event (.send i n) => (d.session.step (.send i n)).map fun x => { d with session := x }

def request (d : Feed) : ByteString := d.session.conn.request

/-- The kind of an operation that is outstanding under this number, whether it
has been cancelled or not. -/
def pending (d : Feed) (i : Nat) : Option OpKind := d.session.ops[i]?.map Op.kind

end Feed

end Ailawd
