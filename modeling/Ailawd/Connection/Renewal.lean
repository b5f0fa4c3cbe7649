import Ailawd.Connection.Remains
import Mathlib.Data.List.InsertIdx

/-!
# A recycled connection beside a new one

`conn_wash_white`, `conn_reset_network` and `start()` leave an object that differs from a
new one in its remains only, and in the options of its socket: the constructor of a new
connection sets `TCP_NODELAY`, recycling does not.

`Renewed` is the simulation. It is preserved by every completion, every partial send and
everything that the co_worker thread does to a connection, as long as neither of the two
reads freed memory: how often the send buffer moves depends on the capacity that it has kept.
-/

namespace Ailawd

open ByteString HttpProto Transition

/-- An operation without the place of its buffer and the history of its text,
which nobody outside can see. -/
def OpKind.shape : OpKind → OpKind
  | .write w => .write { w with storage := 0, reply := [] }
  | kind => kind

def Op.view (op : Op) : Op := { op with kind := op.kind.shape }

/-- What can be observed of a connection between two handlers: its scalars, the
sizes of its buffers and its operations. -/
structure View where
  pSock : Option SockId
  stats : ConnectionStats
  rSize : Nat
  wSize : Nat
  wPos : Nat
  bufferSize : Nat
  writeSize : Nat
  touchTime : Nat
  request : ByteString
  ops : List Op

def Session.view (x : Session) : View where
  pSock := x.conn.pSock
  stats := x.conn.stats
  rSize := x.conn.rSize
  wSize := x.conn.wSize
  wPos := x.conn.wPos
  bufferSize := x.conn.pBuffer.size
  writeSize := x.conn.pWrite.size
  touchTime := x.conn.touchTime
  request := x.conn.request
  ops := x.ops.map Op.view

/-- What happens to a connection that has been started: its completions and
sends, and on the co_worker thread the shutdown of an expired connection and
its mark. -/
inductive LaterEvent where
  | io (e : Event)
  | shut
  | mark

/-- One event, with its effects. The events of the
co_worker thread run no handler. -/
def Session.later (x : Session) : LaterEvent → Except (Stop Fault) (Session × List Effect)
  | .io e => x.react e
  | .shut =>
    if x.conn.pSock = none then .error (.fault .nullSocket)
    else .ok (x.perform .shutdown, [.shutdown])
  | .mark => .ok ({ x with conn := { x.conn with stats := .error } }, [])

/-- What is observed of a sequence of events: the effects of each and the
connection after it, and what ended the sequence before its time. -/
def Session.observe (x : Session) :
    List LaterEvent → List (List Effect × View) × Option (Stop Fault)
  | [] => ([], none)
  | e :: rest => match x.later e with
    | .error stop => ([], some stop)
    | .ok (x', effects) =>
      ((effects, x'.view) :: (x'.observe rest).1, (x'.observe rest).2)

/-- The same is observed, up to the first access to freed memory by one of the
two. From there on nothing is promised. -/
def SameUntilFreed (o o' : List (List Effect × View) × Option (Stop Fault)) : Prop :=
  o = o' ∨ (o.2 = some (.fault .useAfterFree) ∧ o.1 <+: o'.1) ∨
    (o'.2 = some (.fault .useAfterFree) ∧ o'.1 <+: o.1)

def OpKind.Backed (rSize : Nat) (a b : Remains) : OpKind → Prop
  | .readHead => True
  | .readBody offset len => (Effect.asyncRead offset len).Backed rSize a b
  | .write w => (Effect.asyncWrite w.offset w.len).Backed rSize a b

/-- Two connections that differ in their remains only, and agree on what
outstanding operations need. -/
structure Renewed (x y : Session) (c : FrontConn) (a b : Remains) : Prop where
  left : x.conn = c.over a
  right : y.conn = c.over b
  ok : x.Ok
  ops : x.ops.map Op.view = y.ops.map Op.view
  alike : Alike (fun _ => False) c [] a b
  backed : ∀ op ∈ x.ops, op.kind.Backed c.rSize a b

/-- Outcomes of one event on two such connections: the same stop, or the same
effects and two such connections again. -/
inductive SameOutcome : Except (Stop Fault) (Session × List Effect) →
    Except (Stop Fault) (Session × List Effect) → Prop
  | stop (e) : SameOutcome (.error e) (.error e)
  | freed_left (r) : SameOutcome (.error (.fault .useAfterFree)) r
  | freed_right (r) : SameOutcome r (.error (.fault .useAfterFree))
  | ok {x y c a b} (effects) : Renewed x y c a b → SameOutcome (.ok (x, effects)) (.ok (y, effects))

section Perform

variable {x y : Session} {n : Nat} {a b : Remains} {effects : List Effect}

theorem perform_view (hsock : x.conn.pSock = y.conn.pSock)
    (h : x.ops.map Op.view = y.ops.map Op.view) (e : Effect) :
    (x.perform e).ops.map Op.view = (y.perform e).ops.map Op.view := by
  simp only [Session.perform, ← hsock]
  cases x.conn.pSock with
  | none => exact h
  | some sock =>
      cases e with
      | asyncReadUntil => simp [h]
      | asyncRead offset len => simp [h]
      | asyncWrite offset len => simp [h, Op.view, OpKind.shape]
      | cancel =>
          have hcancel : ∀ ops : List Op,
              (ops.map fun op => if op.sock = sock then { op with cancelled := true } else op).map
                Op.view =
              (ops.map Op.view).map
                fun op => if op.sock = sock then { op with cancelled := true } else op := by
            intro ops
            rw [List.map_map, List.map_map]
            refine List.map_congr_left fun op _ => ?_
            by_cases hop : op.sock = sock
            · simp [Op.view, hop]
            · simp [Op.view, hop]
          simp only [hcancel, h]
      | _ => exact h

theorem performAll_view (hsock : x.conn.pSock = y.conn.pSock)
    (h : x.ops.map Op.view = y.ops.map Op.view) (effects : List Effect) :
    (x.performAll effects).ops.map Op.view = (y.performAll effects).ops.map Op.view := by
  induction effects generalizing x y with
  | nil => exact h
  | cons e rest ih => exact ih hsock (perform_view hsock h e)

theorem perform_backed (h : ∀ op ∈ x.ops, op.kind.Backed n a b) {e : Effect}
    (he : e.Backed n a b) : ∀ op ∈ (x.perform e).ops, op.kind.Backed n a b := by
  simp only [Session.perform]
  cases x.conn.pSock with
  | none => exact h
  | some sock =>
      cases e with
      | asyncReadUntil =>
          exact List.forall_mem_append.mpr ⟨h, List.forall_mem_singleton.mpr trivial⟩
      | asyncRead offset len =>
          exact List.forall_mem_append.mpr ⟨h, List.forall_mem_singleton.mpr he⟩
      | asyncWrite offset len =>
          exact List.forall_mem_append.mpr ⟨h, List.forall_mem_singleton.mpr he⟩
      | cancel =>
          refine List.forall_mem_map.mpr fun op hop => ?_
          by_cases hsock : op.sock = sock
          · rw [if_pos hsock]
            exact h op hop
          · rw [if_neg hsock]
            exact h op hop
      | _ => exact h

theorem performAll_backed (h : ∀ op ∈ x.ops, op.kind.Backed n a b)
    (heffects : ∀ e ∈ effects, e.Backed n a b) :
    ∀ op ∈ (x.performAll effects).ops, op.kind.Backed n a b := by
  induction effects generalizing x with
  | nil => exact h
  | cons e rest ih =>
      obtain ⟨he, hrest⟩ := List.forall_mem_cons.mp heffects
      exact ih (perform_backed h he) hrest

end Perform

section Deliver

variable {sent : Nat → Prop} {c : FrontConn} {a b : Remains} {rest : List Op}
variable {ec : ErrorCode} {data : ByteString} {env : Env}

theorem deliver_readHead_alike (h : Alike sent c [] a b) :
    AlikeResult sent (OpKind.readHead.deliver (c.over a) ec data env)
      (OpKind.readHead.deliver (c.over b) ec data env) := by
  have hnone : Handling.NoRead [] := fun _ _ => List.not_mem_nil
  have hread : Alike sent { c with request := c.request ++ data } [] a b :=
    h.shrink le_rfl le_rfl
  have hhandler : ∀ n, AlikeResult sent
      ((Handling.readHeadHandler env ec n
        ⟨FrontConn.over { c with request := c.request ++ data } a, []⟩).mapError Stop.fault)
      ((Handling.readHeadHandler env ec n
        ⟨FrontConn.over { c with request := c.request ++ data } b, []⟩).mapError Stop.fault) :=
    fun n => (Handling.readHeadHandler_alike env hread hnone).mapError _
  have hrequest : ∀ r : Remains, (c.over r).request = c.request := fun _ => rfl
  simp only [OpKind.deliver, hrequest]
  split
  · split
    · exact .error _
    · split
      · exact .error _
      · exact hhandler _
  · exact hhandler 0

theorem deliver_readBody_alike {offset len : Nat} (h : Alike sent c [] a b)
    (hbacked : (OpKind.readBody offset len).Backed c.rSize a b) :
    AlikeResult sent ((OpKind.readBody offset len).deliver (c.over a) ec data env)
      ((OpKind.readBody offset len).deliver (c.over b) ec data env) := by
  obtain ⟨hparser, hoffset, hbytes⟩ := hbacked
  have hwritten : ∀ i < offset + data.length, (a.pBuffer.write offset data).byte i =
      (b.pBuffer.write offset data).byte i := by
    intro i hi
    by_cases hlt : i < offset
    · exact CharVec.write_byte_congr _ _ (hbytes i hlt)
    · exact CharVec.write_byte_of_mem _ _ (Nat.not_lt.mp hlt) hi
  have hread : Alike sent c [] { a with pBuffer := a.pBuffer.write offset data }
      { b with pBuffer := b.pBuffer.write offset data } :=
    { h with
      received := fun i hi => hwritten i (by omega)
      backed := by simp }
  have hhandler : AlikeResult sent
      ((Handling.readBodyHandler env ec data.length
        ⟨c.over { a with pBuffer := a.pBuffer.write offset data }, []⟩).mapError Stop.fault)
      ((Handling.readBodyHandler env ec data.length
        ⟨c.over { b with pBuffer := b.pBuffer.write offset data }, []⟩).mapError Stop.fault) :=
    (Handling.readBodyHandler_alike env hread hparser (fun _ _ => List.not_mem_nil)
      fun i hi => hwritten i (by omega)).mapError Stop.fault
  have hsize : (c.over b).pBuffer.size = (c.over a).pBuffer.size := h.bufferSize.symm
  simp only [OpKind.deliver, hsize]
  exact .ite (fun _ => .error _) fun _ => .ite (fun _ => .error _) fun _ => hhandler

/-- The places in the send buffer that outstanding writes still need, and that
have to stay equal. -/
def Needs (rest : List Op) (i : Nat) : Prop :=
  ∃ op ∈ rest, ∃ w, op.kind = .write w ∧ w.offset ≤ i ∧ i < w.offset + w.len

/-- Outcomes of a handler, with what the operations that are still outstanding
need of the new objects. -/
inductive Delivered (rest : List Op) :
    Except (Stop Fault) Handling → Except (Stop Fault) Handling → Prop
  | error (e) : Delivered rest (.error e) (.error e)
  | ok {c effects a b} : Alike (fun _ => False) c effects a b →
      (∀ op ∈ rest, op.kind.Backed c.rSize a b) →
      Delivered rest (.ok ⟨c.over a, effects⟩) (.ok ⟨c.over b, effects⟩)

theorem needs_alike (h : Alike (fun _ => False) c [] a b)
    (hrest : ∀ op ∈ rest, op.kind.Backed c.rSize a b) : Alike (Needs rest) c [] a b := by
  refine { h with sent := ?_ }
  rintro i ⟨op, hop, w, hkind, hlo, hhi⟩
  have hbacked := hrest op hop
  rw [hkind] at hbacked
  exact hbacked i hlo hhi

theorem delivered_of_alike {r r' : Except (Stop Fault) Handling}
    (h : AlikeResult (Needs rest) r r') (hwrites : ∀ op ∈ rest, op.isRead = false) :
    Delivered rest r r' := by
  cases h with
  | error e => exact .error e
  | @ok c effects a b h =>
      refine .ok { h with sent := fun _ hf => hf.elim } fun op hop => ?_
      cases hk : op.kind with
      | write w => exact fun i hlo hhi => h.sent i ⟨op, hop, w, hk, hlo, hhi⟩
      | readHead => trivial
      | readBody offset len =>
          have hfalse := hwrites op hop
          rw [Op.isRead, hk] at hfalse
          cases hfalse

theorem OpKind.Backed.mono {kind : OpKind} {n n' : Nat} (h : kind.Backed n a b) (hn : n' ≤ n) :
    kind.Backed n' a b := by
  cases kind with
  | readHead => trivial
  | readBody offset len =>
      have hread : (Effect.asyncRead offset len).Backed n a b := h
      exact hread.mono hn
  | write w => exact h

/-- A completed operation on two such connections. One case for
each kind of operation. -/
theorem deliver_renewed {kind kind' : OpKind} (hshape : kind.shape = kind'.shape)
    (h : Alike (fun _ => False) c [] a b) (hkind : kind.Backed c.rSize a b)
    (hrest : ∀ op ∈ rest, op.kind.Backed c.rSize a b)
    (hone : (∃ w, kind = .write w) ∨ ∀ op ∈ rest, op.isRead = false) (hw : c.wSize = 0) :
    Delivered rest (kind.deliver (c.over a) ec data env)
      (kind'.deliver (c.over b) ec data env) := by
  cases kind with
  | readHead =>
      obtain rfl : kind' = .readHead := by cases kind' <;> first | rfl | cases hshape
      have hwrites := hone.resolve_left (by simp)
      exact delivered_of_alike (deliver_readHead_alike (needs_alike h hrest)) hwrites
  | readBody offset len =>
      obtain rfl : kind' = .readBody offset len := by
        cases kind' <;> first | exact hshape.symm | cases hshape
      have hwrites := hone.resolve_left (by simp)
      exact delivered_of_alike (deliver_readBody_alike (needs_alike h hrest) hkind) hwrites
  | write w =>
      cases kind' with
      | write w' =>
          have hsame : w.len = w'.len ∧ w.wire = w'.wire := by
            simp only [OpKind.shape, OpKind.write.injEq, WriteOp.mk.injEq] at hshape
            exact ⟨hshape.2.1, hshape.2.2.2.2⟩
          simp only [OpKind.deliver, hsame]
          split
          · exact .error _
          · obtain ⟨e, he⟩ | ⟨c', effects, hr, hw', heffects, hok⟩ :=
              Handling.writeHandler_remains hw env ec w'.wire.length
            · rw [he a, he b]
              exact .error _
            · rw [hok a, hok b]
              refine .ok { h.shrink hr (by omega) with
                backed := fun e he => heffects e he _ a b } fun op hop => ?_
              exact (hrest op hop).mono hr
      | _ => cases hshape

end Deliver

section Later

variable {x y : Session} {c : FrontConn} {a b : Remains}

theorem Renewed.getElem? (h : Renewed x y c a b) (i : Nat) :
    (x.ops[i]? = none ∧ y.ops[i]? = none) ∨ ∃ op op', x.ops[i]? = some op ∧
      y.ops[i]? = some op' ∧ op.view = op'.view := by
  have hi := congrArg (fun ops : List Op => ops[i]?) h.ops
  simp only [List.getElem?_map] at hi
  cases hx : x.ops[i]? with
  | none =>
      rw [hx, Option.map_none, eq_comm, Option.map_eq_none_iff] at hi
      exact .inl ⟨rfl, hi⟩
  | some op =>
      rw [hx, Option.map_some, eq_comm, Option.map_eq_some_iff] at hi
      obtain ⟨op', hy, hview⟩ := hi
      exact .inr ⟨op, op', rfl, hy, hview.symm⟩

theorem complete_renewed (h : Renewed x y c a b) (i : Nat) (ec : ErrorCode) (data : ByteString)
    (env : Env) :
    SameOutcome (x.react (.complete i ec data env)) (y.react (.complete i ec data env)) := by
  obtain ⟨hx, hy⟩ | ⟨op, op', hx, hy, hview⟩ := h.getElem? i
  · simp only [Session.react, hx, hy]
    exact .stop _
  have hok : ∀ x' effects, x.react (.complete i ec data env) = .ok (x', effects) → x'.Ok :=
    fun x' effects hr => h.ok.react hr
  obtain ⟨kind, sock, cancelled⟩ := op
  obtain ⟨kind', sock', cancelled'⟩ := op'
  simp only [Op.view, Op.mk.injEq] at hview
  obtain ⟨hshape, rfl, rfl⟩ := hview
  simp only [Session.react, hx, hy] at hok ⊢
  split
  · exact .stop _
  next hcancelled =>
    rw [if_neg hcancelled] at hok
    obtain ⟨front, back, hops, herase, -⟩ := split_of_getElem? hx
    have hmem : ∀ o ∈ x.ops.eraseIdx i, o ∈ x.ops := fun o ho => List.mem_of_mem_eraseIdx ho
    have hone : (∃ w, kind = .write w) ∨ ∀ o ∈ x.ops.eraseIdx i, o.isRead = false := by
      have hcount := h.ok.oneRead
      rw [hops, List.countP_append, List.countP_cons] at hcount
      cases kind with
      | write w => exact .inl ⟨w, rfl⟩
      | _ =>
          refine .inr fun o ho => ?_
          rw [herase] at ho
          simp only [Op.isRead, if_true] at hcount
          have hzero : (front ++ back).countP Op.isRead = 0 := by
            rw [List.countP_append]
            omega
          simpa using List.countP_eq_zero.mp hzero o ho
    have hw : c.wSize = 0 := by
      have hw := h.ok.wSize
      rwa [h.left] at hw
    have hdeliver : Delivered (x.ops.eraseIdx i) (kind.deliver (c.over a) ec data env)
        (kind'.deliver (c.over b) ec data env) :=
      deliver_renewed hshape h.alike (h.backed _ (List.mem_of_getElem? hx))
        (fun o ho => h.backed o (hmem o ho)) hone hw
    rw [← h.left, ← h.right] at hdeliver
    generalize kind.deliver x.conn ec data env = r, kind'.deliver y.conn ec data env = r'
      at hdeliver hok
    cases hdeliver with
    | error e => exact .stop e
    | @ok c' effects a' b' h' hrest' =>
        refine .ok (c := c') (a := a') (b := b') effects ⟨?_, ?_, hok _ _ rfl, ?_, ?_, ?_⟩
        · rw [Session.performAll_conn]
        · rw [Session.performAll_conn]
        · refine performAll_view (x := ⟨c'.over a', x.ops.eraseIdx i, x.trace⟩)
            (y := ⟨c'.over b', y.ops.eraseIdx i, y.trace⟩) rfl ?_ effects
          rw [← List.eraseIdx_map, ← List.eraseIdx_map, h.ops]
        · exact { h' with backed := by simp }
        · exact performAll_backed hrest' h'.backed

/-- The bytes that a write puts on the wire are the same in both buffers,
unless one of these has been freed. -/
theorem send_renewed (h : Renewed x y c a b) (i n : Nat) :
    SameOutcome (x.react (.send i n)) (y.react (.send i n)) := by
  obtain ⟨hx, hy⟩ | ⟨op, op', hx, hy, hview⟩ := h.getElem? i
  · simp only [Session.react, hx, hy]
    exact .stop _
  have hok : ∀ x' effects, x.react (.send i n) = .ok (x', effects) → x'.Ok :=
    fun x' effects hr => h.ok.react hr
  obtain ⟨kind, sock, cancelled⟩ := op
  obtain ⟨kind', sock', cancelled'⟩ := op'
  simp only [Op.view, Op.mk.injEq] at hview
  obtain ⟨hshape, rfl, rfl⟩ := hview
  cases kind with
  | readHead =>
      obtain rfl : kind' = .readHead := by cases kind' <;> first | rfl | cases hshape
      simp only [Session.react, hx, hy]
      exact .stop _
  | readBody offset len =>
      obtain rfl : kind' = .readBody offset len := by
        cases kind' <;> first | exact hshape.symm | cases hshape
      simp only [Session.react, hx, hy]
      exact .stop _
  | write w =>
      obtain ⟨offset, len, storage, reply, wire⟩ := w
      cases kind' with
      | write w' =>
          obtain ⟨offset', len', storage', reply', wire'⟩ := w'
          simp only [OpKind.shape, OpKind.write.injEq, WriteOp.mk.injEq] at hshape
          obtain ⟨rfl, rfl, -, -, rfl⟩ := hshape
          cases cancelled with
          | true =>
              simp only [Session.react, hx, hy]
              exact .stop _
          | false =>
              have hbacked : ∀ i, offset ≤ i → i < offset + len →
                  a.pWrite.byte i = b.pWrite.byte i := h.backed _ (List.mem_of_getElem? hx)
              simp only [Session.react, hx, hy] at hok ⊢
              split
              · exact .stop _
              next hn =>
                rw [if_neg hn] at hok
                split
                · exact .freed_left _
                next hmoved =>
                  rw [if_neg hmoved] at hok
                  split
                  · exact .freed_right _
                  · have hslice : y.conn.pWrite.slice (offset + wire.length) n =
                        x.conn.pWrite.slice (offset + wire.length) n := by
                      rw [h.left, h.right]
                      exact CharVec.slice_congr _ fun i hlo hhi =>
                        (hbacked i (by omega) (by omega)).symm
                    rw [hslice]
                    refine .ok (c := c) (a := a) (b := b) [] ⟨h.left, h.right, hok _ _ rfl, ?_,
                      h.alike, fun op hop => ?_⟩
                    · rw [List.map_set, List.map_set, h.ops]
                      rfl
                    · obtain hop | rfl := List.mem_or_eq_of_mem_set hop
                      · exact h.backed op hop
                      · exact hbacked
      | _ => cases hshape

/-- An expired connection is shut down and marked
without a look at its remains. -/
theorem later_renewed (h : Renewed x y c a b) (e : LaterEvent) :
    SameOutcome (x.later e) (y.later e) := by
  cases e with
  | io e =>
      cases e with
      | complete i ec data env => exact complete_renewed h i ec data env
      | send i n => exact send_renewed h i n
  | shut =>
      have hsock : y.conn.pSock = x.conn.pSock := by rw [h.left, h.right]; rfl
      simp only [Session.later, hsock]
      split
      · exact .stop _
      · refine .ok (c := c) (a := a) (b := b) _ ⟨h.left, h.right, ?_, ?_, h.alike, ?_⟩
        · exact h.ok.perform_shutdown
        · exact perform_view hsock.symm h.ops .shutdown
        · exact perform_backed h.backed trivial
  | mark =>
      refine .ok (c := { c with stats := .error }) (a := a) (b := b) _ ⟨?_, ?_, ?_, h.ops, ?_, ?_⟩
      · rw [h.left]
        rfl
      · rw [h.right]
        rfl
      · exact { h.ok with reading := fun hstats => by cases hstats }
      · exact h.alike.shrink le_rfl le_rfl
      · exact h.backed

theorem Renewed.view (h : Renewed x y c a b) : x.view = y.view := by
  have hops := h.ops
  have hx := h.left
  have hy := h.right
  have hb := h.alike.bufferSize
  have hw := h.alike.writeSize
  simp only [Session.view, hx, hy, hops, FrontConn.over, hb, hw]

/-- Two such connections are observed to do the same.
Induction on the events. -/
theorem Renewed.observe (h : Renewed x y c a b) (events : List LaterEvent) :
    SameUntilFreed (x.observe events) (y.observe events) := by
  induction events generalizing x y c a b with
  | nil => exact .inl rfl
  | cons e rest ih =>
      have hsame := later_renewed h e
      simp only [Session.observe]
      generalize x.later e = r, y.later e = r' at hsame
      cases hsame with
      | stop e => exact .inl rfl
      | freed_left r => exact .inr (.inl ⟨rfl, List.nil_prefix⟩)
      | freed_right r => exact .inr (.inr ⟨rfl, List.nil_prefix⟩)
      | @ok x' y' c' a' b' effects h' =>
          simp only [h'.view]
          obtain heq | ⟨hfreed, hpre⟩ | ⟨hfreed, hpre⟩ := ih h'
          · exact .inl (by rw [heq])
          · exact .inr (.inl ⟨hfreed, List.cons_prefix_cons.mpr ⟨rfl, hpre⟩⟩)
          · exact .inr (.inr ⟨hfreed, List.cons_prefix_cons.mpr ⟨rfl, hpre⟩⟩)

end Later

end Ailawd
