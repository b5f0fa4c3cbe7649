import Ailawd.Library.Monitor

/-!
# The threads that use the Redis client

`RedisClient` is one object for all threads. The first `getInstance` publishes it and holds
`redis_lock_` until `initContext` has returned; the four operations hold the same lock and
call `initContext` again when a command has no reply. A `RedisPlace` is a point of this code
between two accesses to what the threads share, so every interleaving of them is a run.

What hiredis answers is an input: how a connection attempt ends, and whether a command has a
reply. It needs a context that is neither null nor freed, and anything else is a fault.

`obtained` is a history variable: the contexts that a completed `initContext` has left in
`context_`.
-/

namespace Ailawd

open Transition

structure RedisContext where
  id : Nat
  err : Bool
  deriving DecidableEq, Repr

/-- What `redisConnectWithTimeout` returns: a good context, one
with `err` set, or `NULL`. -/
inductive ConnectOutcome where
  | good
  | failed
  | null
  deriving DecidableEq, Repr

inductive RedisOperation where
  /-- `SET %s %s`. -/
  | setValue
  /-- `GET %s`. -/
  | getValue
  /-- `SET %b %s`. -/
  | setValueBinary
  /-- `GET %b`. -/
  | getValueBinary
  deriving DecidableEq, Repr

inductive RedisCall where
  | getInstance
  | operation (op : RedisOperation)
  deriving DecidableEq, Repr

/-- The statements of `initContext`, split at each access to `context_`. -/
inductive InitPoint where
  /-- `if(context_)`. -/
  | check
  /-- `redisFree(context_)`, and then `context_ = NULL`. -/
  | free
  | clear
  /-- `context_ = redisConnectWithTimeout(...)`. -/
  | connect
  /-- `if (context_ != NULL && context_->err)`. -/
  | test
  /-- The log line with `context_->errstr`. -/
  | log
  /-- `redisFree(context_)`, and then `context_ = NULL`, after an error. -/
  | drop
  | null
  deriving DecidableEq, Repr

inductive RedisPlace where
  /-- The thread has no reference to the client yet. -/
  | outside
  /-- The thread has a reference and is in none of the functions. -/
  | ready
  /-- `if (!redis_instance_)`, without the lock. -/
  | checkInstance
  | lockInstance
  /-- `if (!redis_instance_)`, with the lock. -/
  | recheckInstance
  | createInstance
  | lock (op : RedisOperation)
  | redisCommand (op : RedisOperation)
  /-- The log line with `context_->errstr`, after a command without a reply. -/
  | errstr (op : RedisOperation)
  | initContext (point : InitPoint)
  /-- The end of the `lock_guard`. -/
  | unlock
  deriving DecidableEq, Repr

inductive RedisInput where
  | call (c : RedisCall)
  | connects (outcome : ConnectOutcome)
  | replies (replied : Bool)
  | proceed
  deriving DecidableEq, Repr

inductive RedisFault where
  | nullContext
  | freedContext
  deriving DecidableEq, Repr

structure RedisData where
  /-- `redis_instance_` is not `NULL`. -/
  redisInstance : Bool
  context : Option RedisContext
  allocated : List Nat
  attempts : Nat
  obtained : List Nat
  deriving DecidableEq, Repr

abbrev RedisTurn := Except (Stop RedisFault) (Turn RedisPlace RedisData)

namespace RedisData

/-- Nothing has been published; the static object is zero-initialised, so its
context is the null pointer. -/
def initial : RedisData := ⟨false, none, [], 0, []⟩

/-- Access `*context_`. Both a null pointer and a context that
has been freed are faults. -/
def deref (d : RedisData) : Except (Stop RedisFault) RedisContext :=
  match d.context with
  | none => .error (.fault .nullContext)
  | some c => if c.id ∈ d.allocated then .ok c else .error (.fault .freedContext)

/-- `redisFree(context_)`, then go on. The pointer still has
its old value afterwards. -/
def redisFree (d : RedisData) (next : InitPoint) : RedisTurn :=
  match d.deref with
  | .error e => .error e
  | .ok c =>
    .ok (.goto (.initContext next) { d with allocated := d.allocated.filter (· ≠ c.id) })

/-- `context_ = redisConnectWithTimeout(...)`. A context with `err` set has
been allocated too. -/
def redisConnectWithTimeout (d : RedisData) (outcome : ConnectOutcome) : RedisData :=
  match outcome with
  | .null => { d with context := none }
  | .good => { d with
      context := some ⟨d.attempts, false⟩, allocated := d.attempts :: d.allocated,
      attempts := d.attempts + 1 }
  | .failed => { d with
      context := some ⟨d.attempts, true⟩, allocated := d.attempts :: d.allocated,
      attempts := d.attempts + 1 }

/-- The callers of `initContext` return at once, whether
it has connected or not. -/
def initContext (d : RedisData) : InitPoint → RedisInput → RedisTurn
  | .check, .proceed =>
    .ok (.goto (.initContext (if d.context = none then .connect else .free)) d)
  | .free, .proceed => d.redisFree .clear
  | .clear, .proceed => .ok (.goto (.initContext .connect) { d with context := none })
  | .connect, .connects outcome =>
    .ok (.goto (.initContext .test) (d.redisConnectWithTimeout outcome))
  | .test, .proceed =>
    if d.context = none then .ok (.goto .unlock d)
    else match d.deref with
      | .error e => .error e
      | .ok c =>
        if c.err then .ok (.goto (.initContext .log) d)
        else .ok (.goto .unlock { d with obtained := c.id :: d.obtained })
  | .log, .proceed => d.deref.map fun _ => .goto (.initContext .drop) d
  | .drop, .proceed => d.redisFree .null
  | .null, .proceed => .ok (.goto .unlock { d with context := none })
  | _, _ => .error .disabled

/-- One turn of a thread: from one access to the shared data to the next, with
what hiredis answers as its input. -/
def turn (d : RedisData) : RedisPlace → RedisInput → RedisTurn
  | .outside, .call .getInstance => .ok (.goto .checkInstance d)
  | .ready, .call .getInstance => .ok (.goto .checkInstance d)
  | .ready, .call (.operation op) => .ok (.goto (.lock op) d)
  | .checkInstance, .proceed =>
    .ok (.goto (if d.redisInstance then .ready else .lockInstance) d)
  | .lockInstance, .proceed => .ok (.acquire .recheckInstance)
  | .recheckInstance, .proceed =>
    .ok (.goto (if d.redisInstance then .unlock else .createInstance) d)
  | .createInstance, .proceed =>
    .ok (.goto (.initContext .check) { d with redisInstance := true })
  | .lock op, .proceed => .ok (.acquire (.redisCommand op))
  | .redisCommand op, .replies replied =>
    d.deref.map fun _ => .goto (if replied then .unlock else .errstr op) d
  | .errstr _, .proceed => d.deref.map fun _ => .goto (.initContext .check) d
  | .initContext point, input => d.initContext point input
  | .unlock, .proceed => .ok (.release .ready)
  | _, _ => .error .disabled

end RedisData

/-- Any number of threads and the client they share.
The lock is `redis_lock_`. -/
abbrev RedisThreads := Monitor RedisPlace RedisData

namespace RedisThreads

def initial : RedisThreads := ⟨fun _ => .outside, none, .initial⟩

def step : RedisThreads → Nat × RedisInput → Except (Stop RedisFault) RedisThreads :=
  Monitor.step RedisData.turn

end RedisThreads

end Ailawd
