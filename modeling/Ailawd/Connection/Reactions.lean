import Ailawd.Connection.Exits

/-!
# What one event does to a connection

`react_complete` lifts the exits of the handlers to the connection with its
outstanding operations: the completed operation is gone, and the exit alone
decides which operations are started. `Session.Ok` is what holds between any two
handlers, under every order of completions: the write offsets are zero, every
operation was started on the current socket, at most one read is outstanding, and
a working connection has one.
-/

namespace Ailawd

open ByteString Transition

theorem lastFill_append_fill (trace : List Effect) (enc : ByteString) :
    lastFill (trace ++ [.fill enc]) = enc := by
  simp [lastFill]

namespace Session

theorem perform_call {e : Effect} (h : e.isCall = true) (x : Session) :
    x.perform e = { x with trace := x.trace ++ [e] } := by
  rw [perform]
  cases hs : x.conn.pSock <;> cases e <;> simp_all [Effect.isCall]

@[simp] theorem performAll_nil (x : Session) : x.performAll [] = x := rfl

@[simp] theorem performAll_cons (x : Session) (e : Effect) (es : List Effect) :
    x.performAll (e :: es) = (x.perform e).performAll es := rfl

theorem performAll_append (x : Session) (es fs : List Effect) :
    x.performAll (es ++ fs) = (x.performAll es).performAll fs := List.foldl_append

theorem performAll_calls {calls : List Effect} (h : ∀ e ∈ calls, e.isCall = true)
    (x : Session) : x.performAll calls = { x with trace := x.trace ++ calls } := by
  induction calls generalizing x with
  | nil => simp
  | cons e es ih =>
      rw [performAll_cons, perform_call (h e (by simp)), ih fun e he => h e (by simp [he])]
      simp

@[simp] theorem perform_conn (x : Session) (e : Effect) : (x.perform e).conn = x.conn := rfl

@[simp] theorem perform_trace (x : Session) (e : Effect) :
    (x.perform e).trace = x.trace ++ [e] := rfl

theorem perform_shutdown_ops (x : Session) : (x.perform .shutdown).ops = x.ops := by
  cases hs : x.conn.pSock <;> simp [perform, hs]

@[simp] theorem performAll_conn (x : Session) (es : List Effect) :
    (x.performAll es).conn = x.conn := by
  induction es generalizing x with
  | nil => rfl
  | cons e es ih => rw [performAll_cons, ih, perform_conn]

@[simp] theorem performAll_trace (x : Session) (es : List Effect) :
    (x.performAll es).trace = x.trace ++ es := by
  induction es generalizing x with
  | nil => simp
  | cons e es ih => simp [ih]

end Session

def WriteOp.issued (storage : Nat) (reply : ByteString) : WriteOp :=
  ⟨0, reply.length, storage, reply, []⟩

/-- The operations after a handler that left through an exit, `rest` being
those that were outstanding besides the completed one. -/
def OpsAfter (kind : ExitKind) (stats : ConnectionStats) (sock : SockId) (pWrite : CharVec)
    (rest ops : List Op) (effects : List Effect) : Prop :=
  match kind with
  | .answer => ∃ calls reply, (∀ e ∈ calls, e.isCall = true) ∧ 0 < reply.length ∧
      effects = calls ++ ([.fill reply] ++
        ((if stats = .working then [.asyncWrite 0 reply.length] else []) ++ [.asyncReadUntil])) ∧
      ops = rest ++ ((if stats = .working then
        [⟨.write (.issued pWrite.storage reply), sock, false⟩] else []) ++
          [⟨.readHead, sock, false⟩]) ∧
      pWrite.slice 0 reply.length = reply
  | .wait => ∃ calls offset len, (∀ e ∈ calls, e.isCall = true) ∧ 0 < len ∧
      effects = calls ++ (if stats = .working then [.asyncRead offset len] else []) ∧
      ops = rest ++ (if stats = .working then [⟨.readBody offset len, sock, false⟩] else [])
  | .fail => ∃ calls, (∀ e ∈ calls, e.isCall = true) ∧
      effects = calls ++ [.shutdown, .cancel, .pushToRemove, .notifyOne] ∧
      ops = rest.map fun op => if op.sock = sock then { op with cancelled := true } else op
  | .quiet => effects = [] ∧ ops = rest

section Perform

variable {c : FrontConn} {h : Handling} {rest : List Op} {trace : List Effect}

private theorem performAll_answered (a : Answered ⟨c, []⟩ h) {sock : SockId}
    (hsock : c.pSock = some sock) :
    OpsAfter .answer c.stats sock h.conn.pWrite rest
      (Session.performAll ⟨h.conn, rest, trace⟩ h.effects).ops h.effects := by
  obtain ⟨calls, reply, hcalls, hpos, he, hslice⟩ := a.effects
  simp only [List.nil_append] at he
  refine ⟨calls, reply, hcalls, hpos, he, ?_, hslice⟩
  have hs : h.conn.pSock = some sock := a.sock.trans hsock
  rw [he, Session.performAll_append, Session.performAll_calls hcalls]
  by_cases hw : c.stats = .working
  · simp only [hw, if_true, List.cons_append, List.nil_append, Session.performAll_cons,
      Session.performAll_nil, Session.perform, hs, lastFill_append_fill, WriteOp.issued]
    exact List.append_assoc _ _ _
  · simp [hw, Session.perform, hs]

private theorem performAll_waiting (a : Waiting ⟨c, []⟩ h) {sock : SockId}
    (hsock : c.pSock = some sock) :
    OpsAfter .wait c.stats sock h.conn.pWrite rest
      (Session.performAll ⟨h.conn, rest, trace⟩ h.effects).ops h.effects := by
  obtain ⟨calls, offset, len, hcalls, hpos, he⟩ := a.effects
  simp only [List.nil_append] at he
  refine ⟨calls, offset, len, hcalls, hpos, he, ?_⟩
  have hs : h.conn.pSock = some sock := a.sock.trans hsock
  rw [he, Session.performAll_append, Session.performAll_calls hcalls]
  by_cases hw : c.stats = .working
  · simp [hw, Session.perform, hs]
  · simp [hw]

private theorem performAll_failed (a : Failed ⟨c, []⟩ h) {sock : SockId}
    (hsock : c.pSock = some sock) :
    OpsAfter .fail c.stats sock h.conn.pWrite rest
      (Session.performAll ⟨h.conn, rest, trace⟩ h.effects).ops h.effects := by
  obtain ⟨calls, hcalls, he⟩ := a.effects
  simp only [List.nil_append] at he
  refine ⟨calls, hcalls, he, ?_⟩
  have hs : h.conn.pSock = some sock := a.sock.trans hsock
  rw [he, Session.performAll_append, Session.performAll_calls hcalls]
  simp [Session.perform, hs]

/-- The operations that a handler leaves behind, by its exit and
the status it has seen. -/
theorem performAll_ops {kind : ExitKind} (e : Exit kind ⟨c, []⟩ h) {sock : SockId}
    (hsock : c.pSock = some sock) :
    OpsAfter kind c.stats sock h.conn.pWrite rest
      (Session.performAll ⟨h.conn, rest, trace⟩ h.effects).ops h.effects := by
  cases kind with
  | answer => exact performAll_answered e hsock
  | wait => exact performAll_waiting e hsock
  | fail => exact performAll_failed e hsock
  | quiet =>
      obtain ⟨he, -⟩ := e
      exact ⟨he, by rw [show h.effects = [] from he]; rfl⟩

end Perform

theorem mapError_eq_ok {α : Type} {r : Except Fault α} {h : α}
    (hr : r.mapError Stop.fault = .ok h) : r = .ok h := by
  cases r with
  | error => cases hr
  | ok g => exact congrArg _ (Except.ok.inj hr)

section Deliver

variable {c : FrontConn} {data : ByteString} {env : Env} {h : Handling}

/-- A head read succeeds once the delimiter is there, with
all that has come by then. -/
theorem deliver_readHead (hd : OpKind.readHead.deliver c .success data env = .ok h) :
    ∃ i, find crlf2 (c.request ++ data) = some i ∧
      Handling.readHeadHandler env .success (i + 4)
        ⟨{ c with request := c.request ++ data }, []⟩ = .ok h := by
  simp only [OpKind.deliver, if_true] at hd
  split at hd
  · cases hd
  split at hd
  · cases hd
  next i hi =>
    exact ⟨i, hi, mapError_eq_ok hd⟩

/-- A body read succeeds once its range is full, so with exactly the
bytes it was asked for. -/
theorem deliver_readBody {offset len : Nat}
    (hd : (OpKind.readBody offset len).deliver c .success data env = .ok h) :
    data.length = len ∧ Handling.readBodyHandler env .success data.length
      ⟨{ c with pBuffer := c.pBuffer.write offset data }, []⟩ = .ok h := by
  simp only [OpKind.deliver] at hd
  split at hd
  · cases hd
  next hdata =>
    split at hd
    · cases hd
    · refine ⟨?_, mapError_eq_ok hd⟩
      by_contra hne
      exact hdata (.inr ⟨trivial, hne⟩)

theorem deliver_write {w : WriteOp}
    (hd : (OpKind.write w).deliver c .success data env = .ok h) :
    data = [] ∧ w.wire.length = w.len ∧
      Handling.writeHandler env .success w.wire.length ⟨c, []⟩ = .ok h := by
  simp only [OpKind.deliver] at hd
  split at hd
  · cases hd
  next hdata =>
    refine ⟨?_, ?_, mapError_eq_ok hd⟩
    · by_contra hne
      exact hdata (.inl hne)
    · by_contra hne
      exact hdata (.inr ⟨trivial, hne⟩)

end Deliver

theorem headExit_ne_quiet (c : FrontConn) (ec : ErrorCode) (n : Nat) :
    headExit c ec n ≠ .quiet := by
  rw [headExit]
  split
  · simp only
    split
    · exact acceptedExit_ne_quiet _ _
    · decide
  · split <;> decide

theorem bodyExit_ne_quiet (c : FrontConn) (ec : ErrorCode) (n : Nat) :
    bodyExit c ec n ≠ .quiet := by
  rw [bodyExit]
  split
  · split <;> decide
  · split <;> decide

/-- Only reads answer or wait. A write is quiet, or gives the connection up. -/
theorem OpKind.exit_write (w : WriteOp) (c : FrontConn) (ec : ErrorCode) (data : ByteString) :
    (OpKind.write w).exit c ec data = .quiet ∨ (OpKind.write w).exit c ec data = .fail := by
  change writeExit ec w.wire.length = _ ∨ writeExit ec w.wire.length = _
  rw [writeExit]
  split
  · exact .inl rfl
  · split
    · exact .inr rfl
    · exact .inl rfl

theorem OpKind.deliver_exit {kind : OpKind} {c : FrontConn} {ec : ErrorCode} {data : ByteString}
    {env : Env} {h : Handling} (hw : c.wSize = 0) (hr : kind.deliver c ec data env = .ok h) :
    Exit (kind.exit c ec data) ⟨c, []⟩ h := by
  cases kind with
  | readHead =>
      have hq : Quiet ⟨c, []⟩ ⟨{ c with request := c.request ++ data }, []⟩ :=
        ⟨⟨[], by simp⟩, rfl, rfl, rfl, rfl, rfl⟩
      refine Exit.of_quiet ?_ (headExit_ne_quiet _ _ _) hq
      simp only [deliver] at hr
      split at hr
      next hec =>
        split at hr
        · cases hr
        split at hr
        · cases hr
        next i hi =>
          simpa [OpKind.exit, hec, hi] using Handling.readHeadHandler_exit (mapError_eq_ok hr)
      next hec =>
        simpa [OpKind.exit, hec] using Handling.readHeadHandler_exit (mapError_eq_ok hr)
  | readBody offset len =>
      have hq : Quiet ⟨c, []⟩ ⟨{ c with pBuffer := c.pBuffer.write offset data }, []⟩ :=
        ⟨⟨[], by simp⟩, rfl, rfl, rfl, rfl, rfl⟩
      refine Exit.of_quiet ?_ (bodyExit_ne_quiet _ _ _) hq
      simp only [deliver] at hr
      split at hr
      · cases hr
      split at hr
      · cases hr
      exact Handling.readBodyHandler_exit (mapError_eq_ok hr)
  | write w =>
      simp only [deliver] at hr
      split at hr
      · cases hr
      exact Handling.writeHandler_exit hw (mapError_eq_ok hr)

/-- A completion of operation `op` of `x`, described by its exit, without the
code of the handler. -/
structure Completes (x : Session) (i : Nat) (op : Op) (ec : ErrorCode) (data : ByteString)
    (x' : Session) (effects : List Effect) : Prop where
  found : x.ops[i]? = some op
  aborted : ec = .operationAborted → op.cancelled = true
  exit : Exit (op.kind.exit x.conn ec data) ⟨x.conn, []⟩ ⟨x'.conn, effects⟩
  ops : ∀ sock, x.conn.pSock = some sock →
    OpsAfter (op.kind.exit x.conn ec data) x.conn.stats sock x'.conn.pWrite
      (x.ops.eraseIdx i) x'.ops effects
  trace : x'.trace = x.trace ++ effects

theorem react_complete_deliver {x x' : Session} {i : Nat} {ec : ErrorCode} {data : ByteString}
    {env : Env} {effects : List Effect} {op : Op} (hop : x.ops[i]? = some op)
    (hr : x.react (.complete i ec data env) = .ok (x', effects)) :
    op.kind.deliver x.conn ec data env = .ok ⟨x'.conn, effects⟩ := by
  simp only [Session.react, hop] at hr
  split at hr
  · cases hr
  split at hr
  · cases hr
  next h hdeliver =>
  obtain ⟨rfl, rfl⟩ := Prod.mk.inj (Except.ok.inj hr)
  rw [hdeliver, Session.performAll_conn]

theorem react_complete {x x' : Session} {i : Nat} {ec : ErrorCode} {data : ByteString}
    {env : Env} {effects : List Effect} (hw : x.conn.wSize = 0)
    (hr : x.react (.complete i ec data env) = .ok (x', effects)) :
    ∃ op, Completes x i op ec data x' effects := by
  simp only [Session.react] at hr
  split at hr
  · cases hr
  next op hop =>
  split at hr
  · cases hr
  next hcancelled =>
  split at hr
  · cases hr
  next h hdeliver =>
  obtain ⟨rfl, rfl⟩ := Prod.mk.inj (Except.ok.inj hr)
  have hexit := OpKind.deliver_exit hw hdeliver
  exact ⟨op, hop, by simpa using hcancelled, by simpa using hexit,
    fun sock hsock => by simpa using performAll_ops hexit hsock, by simp⟩

/-- A partial send changes nothing but the bytes of one write on the wire. -/
theorem react_send {x x' : Session} {i n : Nat} {effects : List Effect}
    (hr : x.react (.send i n) = .ok (x', effects)) :
    effects = [] ∧ ∃ w sock, x.ops[i]? = some ⟨.write w, sock, false⟩ ∧
      w.wire.length + n ≤ w.len ∧ w.storage = x.conn.pWrite.storage ∧
      x' = { x with ops := x.ops.set i ⟨.write { w with
        wire := w.wire ++ x.conn.pWrite.slice (w.offset + w.wire.length) n }, sock, false⟩ } := by
  simp only [Session.react] at hr
  split at hr
  next w sock hop =>
    split at hr
    · cases hr
    next hn =>
      split at hr
      · cases hr
      next hstorage =>
        obtain ⟨rfl, rfl⟩ := Prod.mk.inj (Except.ok.inj hr)
        exact ⟨rfl, w, sock, hop, by omega, not_not.mp hstorage, rfl⟩
  · cases hr

/-- An index splits a list; erasing or overwriting it acts on the middle. So
the operations are taken apart. -/
theorem split_of_getElem? {α : Type} {l : List α} {i : Nat} {a : α} (h : l[i]? = some a) :
    ∃ front back, l = front ++ a :: back ∧ l.eraseIdx i = front ++ back ∧
      ∀ b, l.set i b = front ++ b :: back := by
  induction l generalizing i with
  | nil => simp at h
  | cons x xs ih =>
      cases i with
      | zero =>
          obtain rfl : x = a := by simpa using h
          exact ⟨[], xs, rfl, rfl, fun _ => rfl⟩
      | succ i =>
          obtain ⟨front, back, rfl, he, hset⟩ := ih (by simpa using h)
          exact ⟨x :: front, back, rfl, by simp [he], fun b => by simp [hset b]⟩

/-- The operation has at least one byte to move, so that its
success is told from an error. -/
def OpKind.Nonempty : OpKind → Prop
  | .readHead => True
  | .readBody _ len => 0 < len
  | .write w => 0 < w.len

/-- The invariant of a connection between its handlers: one read at most, and
operations on its own socket only. -/
structure Session.Ok (x : Session) : Prop where
  wSize : x.conn.wSize = 0
  wPos : x.conn.wPos = 0
  sock : ∀ op ∈ x.ops, x.conn.pSock = some op.sock
  oneRead : x.ops.countP Op.isRead ≤ 1
  reading : x.conn.stats = .working → ∃ op ∈ x.ops, op.isRead = true
  nonempty : ∀ op ∈ x.ops, op.kind.Nonempty

@[simp] theorem Op.isRead_readHead (sock : SockId) (b : Bool) :
    (⟨.readHead, sock, b⟩ : Op).isRead = true := rfl

@[simp] theorem Op.isRead_readBody (offset len : Nat) (sock : SockId) (b : Bool) :
    (⟨.readBody offset len, sock, b⟩ : Op).isRead = true := rfl

@[simp] theorem Op.isRead_write (w : WriteOp) (sock : SockId) (b : Bool) :
    (⟨.write w, sock, b⟩ : Op).isRead = false := rfl

theorem Op.exists_write {op : Op} (h : op.isRead = false) : ∃ w, op.kind = .write w := by
  rw [Op.isRead] at h
  split at h
  next w hw => exact ⟨w, hw⟩
  next => cases h

theorem Op.isRead_of_quiet {op : Op} {c : FrontConn} {ec : ErrorCode} {data : ByteString}
    (h : op.kind.exit c ec data = .quiet) : op.isRead = false := by
  rw [Op.isRead]
  cases hk : op.kind with
  | readHead => exact absurd (hk ▸ h) (headExit_ne_quiet _ _ _)
  | readBody => exact absurd (hk ▸ h) (bodyExit_ne_quiet _ _ _)
  | write w => rfl

/-- Only a read leaves through `write_return` or waits for more, so these exits
come one at a time. -/
theorem Op.isRead_of_exit {op : Op} {c : FrontConn} {ec : ErrorCode} {data : ByteString}
    (h : op.kind.exit c ec data = .answer ∨ op.kind.exit c ec data = .wait) :
    op.isRead = true := by
  rw [Op.isRead]
  cases hk : op.kind with
  | readHead => rfl
  | readBody => rfl
  | write w =>
      rw [hk] at h
      rcases OpKind.exit_write w c ec data with he | he <;> simp [he] at h

private theorem countP_cancel (ops : List Op) (sock : SockId) :
    (ops.map fun op => if op.sock = sock then { op with cancelled := true } else op).countP
      Op.isRead = ops.countP Op.isRead := by
  rw [List.countP_map]
  apply List.countP_congr
  intro op _
  simp only [Function.comp_apply]
  split <;> rfl

private theorem nonempty_cancel {ops : List Op} {sock : SockId}
    (h : ∀ op ∈ ops, op.kind.Nonempty) : ∀ op ∈ ops.map fun op =>
      if op.sock = sock then { op with cancelled := true } else op, op.kind.Nonempty := by
  intro op hop
  obtain ⟨op', hop', rfl⟩ := List.mem_map.mp hop
  split <;> exact h op' hop'

private theorem sock_cancel {ops : List Op} {sock : SockId} {s : Option SockId}
    (h : ∀ op ∈ ops, s = some op.sock) : ∀ op ∈ ops.map fun op =>
      if op.sock = sock then { op with cancelled := true } else op, s = some op.sock := by
  intro op hop
  obtain ⟨op', hop', rfl⟩ := List.mem_map.mp hop
  split <;> exact h op' hop'

namespace Session.Ok

variable {x x' : Session} {effects : List Effect}

theorem complete {i : Nat} {op : Op} {ec : ErrorCode} {data : ByteString} (hx : x.Ok)
    (hc : Completes x i op ec data x' effects) : x'.Ok := by
  obtain ⟨front, back, hops, herase, -⟩ := split_of_getElem? hc.found
  have hsock : x.conn.pSock = some op.sock := hx.sock op (by simp [hops])
  have hrest : ∀ o ∈ front ++ back, x.conn.pSock = some o.sock := fun o ho =>
    hx.sock o (by simp only [hops, List.mem_append, List.mem_cons] at ho ⊢; tauto)
  have hnonempty : ∀ o ∈ front ++ back, o.kind.Nonempty := fun o ho =>
    hx.nonempty o (by simp only [hops, List.mem_append, List.mem_cons] at ho ⊢; tauto)
  have hone := hx.oneRead
  simp only [hops, List.countP_append, List.countP_cons] at hone
  have hafter := hc.ops _ hsock
  have hexit := hc.exit
  rw [herase] at hafter
  cases hkind : op.kind.exit x.conn ec data with
  | answer =>
      rw [Op.isRead_of_exit (.inl hkind), if_pos rfl] at hone
      rw [hkind] at hafter hexit
      obtain ⟨calls, reply, -, hpos, -, hops', -⟩ := hafter
      refine ⟨hexit.wSize, hexit.wPos, ?_, ?_,
        fun _ => ⟨⟨.readHead, op.sock, false⟩, by rw [hops']; simp, rfl⟩, ?_⟩
      · rw [show x'.conn.pSock = _ from hexit.sock, hops']
        refine List.forall_mem_append.mpr ⟨hrest, List.forall_mem_append.mpr ⟨?_, by simp [hsock]⟩⟩
        split <;> simp [hsock]
      · have hw : (if x.conn.stats = .working then [⟨.write (.issued x'.conn.pWrite.storage reply),
            op.sock, false⟩] else [] : List Op).countP Op.isRead = 0 := by split <;> rfl
        rw [hops', List.countP_append, List.countP_append, List.countP_append, hw,
          List.countP_singleton, Op.isRead_readHead, if_pos rfl]
        omega
      · rw [hops']
        refine List.forall_mem_append.mpr ⟨hnonempty, List.forall_mem_append.mpr ⟨?_, ?_⟩⟩
        · split
          · simpa [OpKind.Nonempty, WriteOp.issued] using hpos
          · simp
        · simp [OpKind.Nonempty]
  | wait =>
      rw [Op.isRead_of_exit (.inr hkind), if_pos rfl] at hone
      rw [hkind] at hafter hexit
      obtain ⟨calls, offset, len, -, hpos, -, hops'⟩ := hafter
      refine ⟨hexit.wSize.trans hx.wSize, hexit.wPos.trans hx.wPos, ?_, ?_, fun hs => ?_, ?_⟩
      · rw [show x'.conn.pSock = _ from hexit.sock, hops']
        refine List.forall_mem_append.mpr ⟨hrest, ?_⟩
        split <;> simp [hsock]
      · have hr : (if x.conn.stats = .working then [⟨.readBody offset len, op.sock, false⟩]
            else [] : List Op).countP Op.isRead ≤ 1 := by
          split <;> simp
        rw [hops', List.countP_append, List.countP_append]
        omega
      · have hs' : x.conn.stats = .working := (hexit.stats).symm.trans hs
        exact ⟨⟨.readBody offset len, op.sock, false⟩, by rw [hops', if_pos hs']; simp, rfl⟩
      · rw [hops']
        refine List.forall_mem_append.mpr ⟨hnonempty, ?_⟩
        split <;> simp [OpKind.Nonempty, hpos]
  | fail =>
      rw [hkind] at hafter hexit
      obtain ⟨calls, -, -, hops'⟩ := hafter
      refine ⟨hexit.wSize, hexit.wPos.trans hx.wPos, ?_, ?_, fun hs => ?_, ?_⟩
      · rw [show x'.conn.pSock = _ from hexit.sock, hops']
        exact sock_cancel hrest
      · rw [hops', countP_cancel, List.countP_append]
        omega
      · rw [show x'.conn.stats = _ from hexit.stats] at hs
        cases hs
      · rw [hops']
        exact nonempty_cancel hnonempty
  | quiet =>
      rw [hkind] at hafter hexit
      obtain ⟨-, hops'⟩ := hafter
      obtain ⟨-, hstats, hsock', -, hsize, hpos⟩ := hexit
      refine ⟨hsize, hpos hx.wPos, ?_, ?_, fun hs => ?_, hops' ▸ hnonempty⟩
      · rw [show x'.conn.pSock = _ from hsock', hops']
        exact hrest
      · rw [hops', List.countP_append]
        omega
      · obtain ⟨r, hr, hread⟩ := hx.reading (hstats.symm.trans hs)
        refine ⟨r, ?_, hread⟩
        rw [hops']
        rw [hops] at hr
        simp only [List.mem_append, List.mem_cons] at hr ⊢
        rcases hr with hr | rfl | hr
        · exact .inl hr
        · simp [Op.isRead_of_quiet hkind] at hread
        · exact .inr hr

theorem send {i n : Nat} (hx : x.Ok) (hr : x.react (.send i n) = .ok (x', effects)) : x'.Ok := by
  obtain ⟨-, w, sock, hop, -, -, rfl⟩ := react_send hr
  obtain ⟨front, back, hops, -, hset⟩ := split_of_getElem? hop
  refine ⟨hx.wSize, hx.wPos, ?_, ?_, fun hs => ?_, ?_⟩
  · have hall := hx.sock
    rw [hops] at hall
    change ∀ o ∈ x.ops.set i _, x.conn.pSock = some o.sock
    rw [hset]
    exact List.forall_mem_append.mpr ⟨(List.forall_mem_append.mp hall).1,
      List.forall_mem_cons.mpr (List.forall_mem_cons.mp (List.forall_mem_append.mp hall).2)⟩
  · have hone := hx.oneRead
    change (x.ops.set i _).countP Op.isRead ≤ 1
    rw [hset]
    simp only [hops, List.countP_append, List.countP_cons, Op.isRead_write] at hone ⊢
    exact hone
  · obtain ⟨r, hr, hread⟩ := hx.reading hs
    change ∃ o ∈ x.ops.set i _, o.isRead = true
    rw [hset]
    rw [hops] at hr
    refine ⟨r, ?_, hread⟩
    simp only [List.mem_append, List.mem_cons] at hr ⊢
    rcases hr with hr | rfl | hr
    · exact .inl hr
    · cases hread
    · exact .inr (.inr hr)
  · intro o ho
    obtain ho | rfl := List.mem_or_eq_of_mem_set ho
    · exact hx.nonempty o ho
    · have hpos : 0 < w.len := hx.nonempty _ (List.mem_of_getElem? hop)
      exact hpos

/-- The step lemma of the connection invariant. One case for each exit, and one
for bytes that go out. -/
theorem react {e : Event} (hx : x.Ok) (hr : x.react e = .ok (x', effects)) : x'.Ok := by
  cases e with
  | complete i ec data env =>
      obtain ⟨op, hc⟩ := react_complete hx.wSize hr
      exact hx.complete hc
  | send i n => exact hx.send hr

end Session.Ok

theorem Session.Ok.perform_shutdown {x : Session} (h : x.Ok) : (x.perform .shutdown).Ok := by
  refine ⟨h.wSize, h.wPos, ?_, ?_, ?_, ?_⟩ <;> rw [Session.perform_shutdown_ops]
  · exact h.sock
  · exact h.oneRead
  · exact h.reading
  · exact h.nonempty

theorem Session.Started.ok {x : Session} {sock : SockId} (h : x.Started sock) : x.Ok :=
  ⟨h.wSize, h.wPos, by simp [h.ops, h.pSock], by simp [h.ops],
    fun _ => ⟨⟨.readHead, sock, false⟩, by simp [h.ops], rfl⟩, by simp [h.ops, OpKind.Nonempty]⟩

theorem Session.started_spec {x : Session} {sock : SockId} {env : Env}
    (h : Session.started sock env = .ok x) : x.Started sock := by
  simp only [Session.started] at h
  cases hs : (FrontConn.make sock env.now).start env with
  | error =>
      rw [hs] at h
      cases h
  | ok g =>
      rw [hs] at h
      obtain ⟨-, rfl⟩ := Handling.start_eq_ok hs
      obtain rfl := Except.ok.inj h
      exact ⟨rfl, rfl, rfl, rfl, rfl, rfl⟩

theorem step_eq_ok {x x' : Session} {e : Event} (h : x.step e = .ok x') :
    ∃ effects, x.react e = .ok (x', effects) := by
  simp only [Session.step] at h
  cases hr : x.react e with
  | error =>
      rw [hr] at h
      cases h
  | ok r =>
      rw [hr] at h
      obtain rfl := Except.ok.inj h
      exact ⟨r.2, rfl⟩

/-- `Ok` holds along every run. -/
theorem Session.Ok.run {x y : Session} {moves : List (Move Session Event)} (hx : x.Ok)
    (hr : Run Session.step x moves y) : y.Ok :=
  hr.invariant hx fun _ _ _ hok hs => hok.react (step_eq_ok hs).choose_spec

theorem Session.Ok.pre {x y : Session} {moves : List (Move Session Event)} (hx : x.Ok)
    (hr : Run Session.step x moves y) {m : Move Session Event} (hm : m ∈ moves) : m.pre.Ok :=
  hr.invariant_of_mem (P := fun _ => True) (fun _ _ => trivial) hx
    (fun _ _ _ hok _ hs => hok.react (step_eq_ok hs).choose_spec) m hm

/-- Replaying a list of events on a new connection gives a run of it, with what
has been decided of its end. -/
theorem run_of_started_reaches (sock : SockId) (env : Env) (events : List Event)
    (p : Session → Prop)
    (h : Reaches (((Session.started sock env).mapError Stop.fault).bind fun x =>
      exec Session.step x events) p) :
    ∃ x moves y, x.Started sock ∧ Run Session.step x moves y ∧
      moves.map Move.label = events ∧ p y := by
  cases hx : Session.started sock env with
  | error =>
      rw [hx] at h
      cases h
  | ok x =>
      rw [hx] at h
      obtain ⟨moves, y, hr, hl, hp⟩ := run_of_reaches _ _ _ h
      exact ⟨x, moves, y, Session.started_spec hx, hr, hl, hp⟩

end Ailawd
