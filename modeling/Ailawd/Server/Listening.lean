import Ailawd.Connection.Resumption
import Ailawd.Server.Lifecycle

/-!
# One read at a time

Between two handlers of a connection at most one read is outstanding, and exactly one when the
connection is working, whatever the co_worker thread does to the status in the middle of the
handlers. `Listening` carries this through every turn: each rest of a handler has what
`Rest.Allows` asks for. A read holds a reference, so a working connection fails the use count
test of a pass, and what passes the test is never washed while it works.
-/

namespace Ailawd

open Transition ByteString

/-- The operations whose handlers have not been entered: all but the
one whose handler runs. -/
def Session.outstanding (x : Session) (r : Option (Env × Rest)) : List Op :=
  match r with
  | none => x.ops
  | some _ => x.ops.tail

/-- What is left to do when no handler runs: `start()` for a connection that
has been put into the containers, and nothing for others. -/
def AcceptPc.rest (accept : AcceptPc) (c : ConnId) : Rest :=
  if accept = .inserted c then .start else .done

/-- A connection with its running handler; `idle` is what is left when there is
none. Its reads are those that the rest allows. -/
structure Session.Listens (x : Session) (r : Option (Env × Rest)) (idle : Rest) : Prop where
  busy : r ≠ none → x.ops ≠ []
  reads : ((r.map Prod.snd).getD idle).Allows x.conn.stats
    ((x.outstanding r).countP Op.isRead)

/-- The invariant, over the parts that it is about. What a step does not touch
need not be mentioned. -/
structure Listening (conns : ConnId → Session) (running : ConnId → Option (Env × Rest))
    (handlers : Finset ConnId) (cached : List ConnId) (accept : AcceptPc) (manage : ManagePc) :
    Prop where
  listens : ∀ c, (conns c).Listens (running c) (accept.rest c)
  retired : ∀ c, c ∈ cached ∨ manage.Retiring c →
    (conns c).ops = [] ∧ c ∉ handlers ∧ accept.conn ≠ some c
  inserted : ∀ c, accept = .inserted c → (conns c).ops = []

theorem AcceptPc.rest_of_ne {accept : AcceptPc} {c : ConnId} (h : accept ≠ .inserted c) :
    accept.rest c = .done := if_neg h

section Listens

variable {x y : Session} {r : Option (Env × Rest)} {idle : Rest} {env : Env} {rest : Rest}

/-- Without operations nothing runs, and the connection does not work. -/
theorem Session.Listens.of_nil (hops : x.ops = []) (hstats : idle = .done → x.conn.stats ≠ .working)
    (hidle : idle = .start ∨ idle = .done) : x.Listens none idle := by
  refine ⟨fun hne => absurd rfl hne, ?_⟩
  simp only [Option.map_none, Option.getD_none, outstanding, hops, List.countP_nil]
  obtain rfl | rfl := hidle
  · rfl
  · exact ⟨Nat.zero_le 1, fun hs => absurd hs (hstats rfl)⟩

theorem Session.Listens.running_none (h : x.Listens r idle) (hops : x.ops = []) : r = none := by
  by_contra hne
  exact h.busy hne hops

/-- A working connection has an operation, which keeps a reference to it. -/
theorem Session.Listens.not_working (h : x.Listens r .done) (hops : x.ops = []) :
    x.conn.stats ≠ .working := by
  obtain rfl := h.running_none hops
  intro hs
  have hreads := h.reads
  simp only [Option.map_none, Option.getD_none, outstanding, hops, List.countP_nil] at hreads
  cases hreads.2 hs

/-- Another thread may set the status to `conn_error` at any time. No rest of a
handler relies on it. -/
theorem Session.Listens.mark (h : x.Listens r idle) :
    Session.Listens { x with conn := { x.conn with stats := .error } } r idle := by
  refine ⟨h.busy, ?_⟩
  cases r with
  | none => exact h.reads.mark
  | some p => exact h.reads.mark

theorem Session.Listens.shut (h : x.Listens r idle) : (x.perform .shutdown).Listens r idle := by
  have hops := x.perform_shutdown_ops
  refine ⟨fun hr => by rw [hops]; exact h.busy hr, ?_⟩
  cases r with
  | none =>
      simp only [outstanding, hops]
      exact h.reads
  | some p =>
      simp only [outstanding, hops]
      exact h.reads

/-- The completed operation is put in front, and its handler runs
up to its first access. -/
theorem Session.Listens.enter {i : Nat} {op : Op} {ec : ErrorCode} {data : ByteString}
    {h : Handling} (hx : x.Listens none .done) (hop : x.ops[i]? = some op)
    (he : op.kind.enter x.conn ec data env = .ok (h, rest)) (env' : Env) :
    (Session.performAll ⟨h.conn, op :: x.ops.eraseIdx i, x.trace⟩ h.effects).Listens
      (some (env', rest)) .done := by
  obtain ⟨hstats, heffects, hrest⟩ := OpKind.enter_entered he
  have hzero : startedReads h.effects = 0 := by
    rw [startedReads, List.countP_eq_zero]
    exact fun e he => Bool.not_eq_true _ ▸ heffects e he
  obtain ⟨hne, hreads⟩ := performAll_tail_reads
    (x := ⟨h.conn, op :: x.ops.eraseIdx i, x.trace⟩) (.inr hzero) (List.cons_ne_nil _ _)
  refine ⟨fun _ => hne, ?_⟩
  simp only [Option.map_some, Option.getD_some, outstanding, Session.performAll_conn, hreads,
    List.tail_cons, hzero, Nat.add_zero, hstats]
  obtain ⟨hle, hworking⟩ := hx.reads
  obtain ⟨front, back, hops, herase, -⟩ := split_of_getElem? hop
  simp only [outstanding, hops, List.countP_append, List.countP_cons] at hle hworking
  rw [herase, List.countP_append]
  refine Rest.allows_after hrest (fun hread => ?_) fun hread => ?_
  · rw [hread, if_pos rfl] at hle
    omega
  · rw [hread, if_neg Bool.false_ne_true, Nat.add_zero] at hle hworking
    exact ⟨hle, hworking⟩

theorem Session.Listens.resume {h : Handling} {rest' : Rest} {env' : Env}
    (hx : x.Listens (some (env, rest)) idle) (hs : rest.step env' ⟨x.conn, []⟩ = .ok (h, rest')) :
    (Session.performAll { x with conn := h.conn } h.effects).Listens (some (env, rest')) idle := by
  have hstepped := Rest.step_stepped hs hx.reads
  obtain ⟨hne, hreads⟩ := performAll_tail_reads (x := { x with conn := h.conn })
    (hstepped.socket.imp_left fun hsock => hstepped.sock ▸ hsock) (hx.busy (Option.some_ne_none _))
  refine ⟨fun _ => hne, ?_⟩
  simp only [Option.map_some, Option.getD_some, outstanding, Session.performAll_conn, hreads]
  exact hstepped.allows

theorem Session.Listens.leave (hx : x.Listens (some (env, .done)) idle) :
    Session.Listens { x with ops := x.ops.tail } none .done :=
  ⟨fun hne => absurd rfl hne, hx.reads⟩

/-- The end of `start()` leaves a working connection with its only read, unless
the tick has marked it meanwhile. -/
theorem Session.Listens.begin {h : Handling} {starting : Starting} (hops : x.ops = [])
    (hs : starting.rest.step env ⟨x.conn, []⟩ = .ok (h, .done)) :
    (Session.performAll { x with conn := h.conn } h.effects).Listens none .done := by
  have hallows : starting.rest.Allows x.conn.stats 0 := by cases starting <;> rfl
  have hstepped := Rest.step_stepped hs hallows
  have hreads : (Session.performAll { x with conn := h.conn } h.effects).ops.countP Op.isRead =
      x.ops.countP Op.isRead + startedReads h.effects :=
    performAll_countP (hstepped.socket.imp_left fun hsock => hstepped.sock ▸ hsock)
  refine ⟨fun hne => absurd rfl hne, ?_⟩
  simp only [Option.map_none, Option.getD_none, outstanding, Session.performAll_conn]
  rw [hreads, hops]
  exact hstepped.allows

private theorem countP_set_write {l : List Op} {i : Nat} {w w' : WriteOp} {sock : SockId}
    (h : l[i]? = some ⟨.write w, sock, false⟩) :
    (l.set i ⟨.write w', sock, false⟩).countP Op.isRead = l.countP Op.isRead := by
  obtain ⟨front, back, hl, -, hset⟩ := split_of_getElem? h
  rw [hset, hl]
  simp

theorem Session.Listens.send {i n : Nat} {effects : List Effect} (hx : x.Listens r idle)
    (hr : x.react (.send i n) = .ok (y, effects)) (hi : ¬ (r.isSome ∧ i = 0)) :
    y.Listens r idle := by
  obtain ⟨-, w, sock, hop, -, -, rfl⟩ := react_send hr
  refine ⟨fun hne hnil => ?_, ?_⟩
  · refine hx.busy hne (List.length_eq_zero_iff.mp ?_)
    rw [← List.length_set, List.length_eq_zero_iff]
    exact hnil
  · cases r with
    | none =>
        have hreads := hx.reads
        simp only [outstanding] at hreads ⊢
        rwa [countP_set_write hop]
    | some p =>
        obtain ⟨op, ops, hcons⟩ := List.exists_cons_of_ne_nil (hx.busy (Option.some_ne_none p))
        obtain ⟨j, rfl⟩ : ∃ j, i = j + 1 := Nat.exists_eq_succ_of_ne_zero fun hz => hi ⟨rfl, hz⟩
        have hreads := hx.reads
        rw [hcons, List.getElem?_cons_succ] at hop
        simp only [outstanding, hcons, List.tail_cons, List.set_cons_succ] at hreads ⊢
        rwa [countP_set_write hop]

end Listens

namespace Listening

variable {conns : ConnId → Session} {running : ConnId → Option (Env × Rest)}
variable {handlers handlers' : Finset ConnId} {cached cached' : List ConnId}
variable {accept accept' : AcceptPc} {manage manage' : ManagePc}
variable {c : ConnId} {x : Session} {r : Option (Env × Rest)}

theorem update (h : Listening conns running handlers cached accept manage)
    (hx : x.Listens (running c) (accept.rest c)) (hops : (conns c).ops = [] → x.ops = []) :
    Listening (Function.update conns c x) running handlers cached accept manage := by
  refine ⟨fun d => ?_, fun d hd => ?_, fun d hd => ?_⟩ <;> by_cases hdc : d = c
  · subst hdc
    rwa [Function.update_self]
  · rw [Function.update_of_ne hdc]
    exact h.listens d
  · subst hdc
    rw [Function.update_self]
    exact ⟨hops (h.retired d hd).1, (h.retired d hd).2⟩
  · rw [Function.update_of_ne hdc]
    exact h.retired d hd
  · subst hdc
    rw [Function.update_self]
    exact hops (h.inserted d hd)
  · rw [Function.update_of_ne hdc]
    exact h.inserted d hd

theorem turn (h : Listening conns running handlers cached accept manage)
    (hne : (conns c).ops ≠ []) (hx : x.Listens r .done)
    (hhandlers : ∀ d ∈ handlers', d ∈ handlers ∨ d = c) :
    Listening (Function.update conns c x) (Function.update running c r) handlers' cached accept
      manage := by
  have haccept : accept ≠ .inserted c := fun hi => hne (h.inserted c hi)
  have hretired : ∀ d, d ∈ cached ∨ manage.Retiring d → d ≠ c := by
    rintro d hd rfl
    exact hne (h.retired d hd).1
  refine ⟨fun d => ?_, fun d hd => ?_, fun d hd => ?_⟩
  · by_cases hdc : d = c
    · subst hdc
      rwa [Function.update_self, Function.update_self, AcceptPc.rest_of_ne haccept]
    · rw [Function.update_of_ne hdc, Function.update_of_ne hdc]
      exact h.listens d
  · have hdc := hretired d hd
    obtain ⟨hops, hhandler, hconn⟩ := h.retired d hd
    rw [Function.update_of_ne hdc]
    exact ⟨hops, fun hmem => (hhandlers d hmem).elim hhandler hdc, hconn⟩
  · have hdc : d ≠ c := by
      rintro rfl
      exact haccept hd
    rw [Function.update_of_ne hdc]
    exact h.inserted d hd

theorem ofAccept (h : Listening conns running handlers cached accept manage)
    (hold : ∀ c, accept ≠ .inserted c) (hnew : accept'.conn = none) :
    Listening conns running handlers cached accept' manage := by
  have hne : ∀ c, accept' ≠ .inserted c := by
    rintro c rfl
    cases hnew
  refine ⟨fun d => ?_, fun d hd => ?_, fun d hd => absurd hd (hne d)⟩
  · rw [AcceptPc.rest_of_ne (hne d), ← AcceptPc.rest_of_ne (hold d)]
    exact h.listens d
  · obtain ⟨hops, hhandler, -⟩ := h.retired d hd
    refine ⟨hops, hhandler, fun heq => ?_⟩
    rw [hnew] at heq
    cases heq

theorem ofManage (h : Listening conns running handlers cached accept manage)
    (hm : ∀ c, manage'.Retiring c → manage.Retiring c ∨
      ((conns c).ops = [] ∧ c ∉ handlers ∧ accept.conn ≠ some c)) :
    Listening conns running handlers cached accept manage' := by
  refine { h with retired := fun d hd => ?_ }
  obtain hd | hd := hd
  · exact h.retired d (.inl hd)
  · exact (hm d hd).elim (fun hret => h.retired d (.inr hret)) id

theorem ofHandlers (h : Listening conns running handlers cached accept manage)
    (hsub : ∀ c ∈ handlers', c ∈ handlers) :
    Listening conns running handlers' cached accept manage := by
  refine { h with retired := fun d hd => ?_ }
  obtain ⟨hops, hhandler, haccept⟩ := h.retired d hd
  exact ⟨hops, fun hmem => hhandler (hsub d hmem), haccept⟩

/-- The accept handler takes a connection without operations,
and has still to start it. -/
theorem emplace {sock : SockId}
    (h : Listening conns running handlers cached (.tested sock) manage)
    (hold : (conns c).ops = []) (hops : x.ops = []) (hfree : manage.item? = none)
    (hsub : ∀ d ∈ cached', d ∈ cached) (hc : c ∉ cached') :
    Listening (Function.update conns c x) running handlers cached' (.inserted c) manage := by
  have hnone := (h.listens c).running_none hold
  refine ⟨fun d => ?_, fun d hd => ?_, fun d hd => ?_⟩
  · by_cases hdc : d = c
    · subst hdc
      rw [Function.update_self, hnone]
      refine .of_nil hops (fun hdone => ?_) (.inl (if_pos rfl))
      rw [AcceptPc.rest, if_pos rfl] at hdone
      cases hdone
    · have hne : AcceptPc.inserted c ≠ .inserted d := fun heq =>
        hdc (AcceptPc.inserted.inj heq).symm
      rw [Function.update_of_ne hdc, AcceptPc.rest_of_ne hne]
      exact h.listens d
  · obtain hd | ⟨stage, hitem, -⟩ := hd
    · have hdc : d ≠ c := by
        rintro rfl
        exact hc hd
      obtain ⟨hnil, hhandler, -⟩ := h.retired d (.inl (hsub d hd))
      rw [Function.update_of_ne hdc]
      exact ⟨hnil, hhandler, fun heq => hdc (Option.some.inj heq).symm⟩
    · rw [hfree] at hitem
      cases hitem
  · cases hd
    rwa [Function.update_self]

theorem started (h : Listening conns running handlers cached (.inserted c) manage)
    (hnone : running c = none) (hx : x.Listens none .done) :
    Listening (Function.update conns c x) running handlers cached (.started c) manage := by
  have hdone : ∀ d, AcceptPc.rest (.started c) d = .done := fun d =>
    AcceptPc.rest_of_ne fun heq => by cases heq
  refine ⟨fun d => ?_, fun d hd => ?_, fun d hd => by cases hd⟩
  · rw [hdone]
    by_cases hdc : d = c
    · subst hdc
      rwa [Function.update_self, hnone]
    · have hlistens := h.listens d
      rw [AcceptPc.rest_of_ne fun heq => hdc (AcceptPc.inserted.inj heq).symm] at hlistens
      rwa [Function.update_of_ne hdc]
  · obtain ⟨hops, hhandler, haccept⟩ := h.retired d hd
    have hdc : d ≠ c := by
      rintro rfl
      exact haccept rfl
    rw [Function.update_of_ne hdc]
    exact ⟨hops, hhandler, haccept⟩

end Listening

namespace Server

variable {cfg : Config} {s t : Server} {running : ConnId → Option (Env × Rest)}

/-- The invariant of a server with these handlers, those inside
`push_to_remove` included. -/
def IsListening (s : Server) (running : ConnId → Option (Env × Rest)) : Prop :=
  Listening s.conns running (s.pushing ∪ s.notifying) s.cachedConns s.accept s.manage

theorem IsListening.action {l : Label} (h : s.IsListening running) (hp : s.Accounted cfg)
    (hv : s.IsSupervised) (hk : s.IsKnown) (hl : s.unsplit l = true) (ha : Action cfg s l t) :
    t.IsListening running := by
  have hmanage := h.ofManage (ha.retires hv)
  cases ha with
  | acceptError ht => exact h.ofAccept (fun c hc => by rw [ht] at hc; cases hc) rfl
  | acceptTested ht _ => exact h.ofAccept (fun c hc => by rw [ht] at hc; cases hc) rfl
  | @recycle sock c cached ht hfree hcached _ =>
      have hnodup := hp.nodup
      rw [hcached] at hnodup
      obtain ⟨hops, -⟩ := h.retired c (.inl (hcached ▸ List.mem_cons_self))
      have htested : Listening s.conns running (s.pushing ∪ s.notifying) s.cachedConns
          (.tested sock) s.manage := ht ▸ h
      exact htested.emplace hops hops (ManagePc.of_unlocked hfree).2
        (fun d hd => hcached ▸ List.mem_cons_of_mem c hd) (List.nodup_cons.mp hnodup).1
  | @create sock ht hfree _ =>
      have hops : (s.conns s.nextConn).ops = [] :=
        by_contra fun hne => absurd (hk.made _ (.inl hne)) (Nat.lt_irrefl _)
      have htested : Listening s.conns running (s.pushing ∪ s.notifying) s.cachedConns
          (.tested sock) s.manage := ht ▸ h
      exact htested.emplace hops rfl (ManagePc.of_unlocked hfree).2 (fun _ hd => hd)
        fun hd => absurd (hp.old.2.1 _ hd) (Nat.lt_irrefl _)
  | start hi _ =>
      rw [unsplit, hi] at hl
      cases hl
  | listen hi => exact h.ofAccept (fun c hc => by rw [hi] at hc; cases hc) rfl
  | io _ _ => cases hl
  | @push c hc _ => exact h.ofHandlers fun d hd => (mem_running_push hc d).mp hd
  | @notify c _ _ =>
      exact hmanage.ofHandlers fun d hd => (Finset.mem_union.mp hd).elim
        (Finset.mem_union_left _)
        fun hd => Finset.mem_union_right _ (Finset.mem_of_mem_erase hd)
  | @shut _ d _ _ _ =>
      exact h.update (h.listens d).shut fun hops => by rw [Session.perform_shutdown_ops, hops]
  | @mark _ d _ _ => exact h.update (h.listens d).mark id
  | @wash _ d todo conn hm hw =>
      have hret : s.manage.Retiring d := ⟨.room, by rw [hm]; rfl, by decide⟩
      obtain ⟨hops, -, haccept⟩ := h.retired d (.inr hret)
      have hne : s.accept ≠ .inserted d := fun hi => haccept (by rw [hi]; rfl)
      simp only [FrontConn.connWashWhite] at hw
      split at hw
      · cases hw
      · obtain rfl := Except.ok.inj hw
        refine hmanage.update ?_ fun _ => hops
        rw [(h.listens d).running_none hops, AcceptPc.rest_of_ne hne]
        exact .of_nil hops (fun _ hs => by cases hs) (.inr rfl)
  | @cache _ d todo hm =>
      have hret : s.manage.Retiring d := ⟨.washed, by rw [hm]; rfl, by decide⟩
      refine { hmanage with retired := fun e he => ?_ }
      obtain he | he := he
      · obtain he | he := List.mem_append.mp he
        · exact h.retired e (.inl he)
        · exact List.mem_singleton.mp he ▸ h.retired d (.inr hret)
      · exact hmanage.retired e (.inr he)
  | _ => exact hmanage

end Server

namespace Threads

open Server (smallConfig)

variable {cfg : Config} {s t : Threads} {c : ConnId}

/-- The invariants under every interleaving of the split handlers. -/
structure Sound (cfg : Config) (s : Threads) : Prop where
  accounted : s.server.Accounted cfg
  supervised : s.server.IsSupervised
  known : s.server.IsKnown
  listening : s.server.IsListening s.running

theorem sound_init : Sound cfg init := by
  refine ⟨Server.accounted_init, Server.isSupervised_init, Server.isKnown_init, fun c => ?_,
    fun c hc => ?_, fun c hc => by cases hc⟩
  · exact .of_nil rfl (fun _ hs => by cases hs) (.inr rfl)
  · obtain hc | ⟨stage, hitem, -⟩ := hc
    · cases hc
    · cases hitem

/-- A turn changes one object that has been made, and perhaps who
is in `push_to_remove`. -/
theorem known_turn {server : Server} {x : Session} {pushing : Finset ConnId} {accept : AcceptPc}
    (h : server.IsKnown) (hc : c < server.nextConn)
    (hpushing : ∀ d ∈ pushing, d ∈ server.pushing ∨ d = c)
    (haccept : ∀ d, accept.conn = some d → server.accept.conn = some d) :
    Server.IsKnown { server.setConn c x with pushing := pushing, accept := accept } := by
  refine { h with made := fun d hd => ?_, running := fun d hd => ?_, accept := fun d hd => ?_ }
  · by_cases hdc : d = c
    · exact hdc ▸ hc
    · simp only [Server.setConn, Function.update_of_ne hdc] at hd
      exact h.made d hd
  · obtain hd | hd := Finset.mem_union.mp hd
    · obtain hd | rfl := hpushing d hd
      · exact h.running d (Finset.mem_union_left _ hd)
      · exact hc
    · exact h.running d (Finset.mem_union_right _ hd)
  · exact h.accept d (haccept d hd)

theorem otherStep_eq_ok {l : Label} (hs : s.step cfg (.other l) = .ok t) :
    s.server.unsplit l = true ∧ ∃ server, Server.Action cfg s.server l server ∧
      t = { s with server := server } := by
  simp only [Threads.step] at hs
  split at hs
  next hl =>
    obtain ⟨server, hstep, rfl⟩ := map_eq_ok hs
    exact ⟨hl, server, Server.step_action hstep, rfl⟩
  · cases hs

theorem enterStep_eq_ok {i : Nat} {ec : ErrorCode} {data : ByteString} {env : Env}
    (hs : s.enterStep c i ec data env = .ok t) : s.running c = none ∧ ∃ op h rest,
      (s.server.conns c).ops[i]? = some op ∧
      op.kind.enter (s.server.conns c).conn ec data { env with now := s.server.now } =
        .ok (h, rest) ∧
      t = (s.setConn c (Session.performAll ⟨h.conn, op :: (s.server.conns c).ops.eraseIdx i,
        (s.server.conns c).trace⟩ h.effects)).setRunning c (some (env, rest)) := by
  simp only [enterStep] at hs
  split at hs
  · cases hs
  next hfree =>
    split at hs
    · cases hs
    next op hop =>
      split at hs
      · cases hs
      · split at hs
        · cases hs
        next h rest he =>
          refine ⟨?_, op, h, rest, hop, he, (Except.ok.inj hs).symm⟩
          exact Option.not_isSome_iff_eq_none.mp fun hr => hfree (.inl hr)

/-- A handler returns, or makes its next access to the status; the object may
be given away with it. -/
theorem resumeStep_cases (hs : s.resumeStep c = .ok t) :
    (∃ env, s.running c = some (env, .done) ∧ t = (s.setConn c { s.server.conns c with
      ops := (s.server.conns c).ops.tail }).setRunning c none) ∨
    ∃ env rest h rest', s.running c = some (env, rest) ∧
      rest.step { env with now := s.server.now } ⟨(s.server.conns c).conn, []⟩ =
        .ok (h, rest') ∧ ∃ x, x = Session.performAll { s.server.conns c with conn := h.conn }
        h.effects ∧
      ((.pushToRemove ∈ h.effects ∧ t = { s with server := {
          s.server.setConn c { x with ops := x.ops.tail } with
          pushing := insert c s.server.pushing } }.setRunning c none) ∨
        t = (s.setConn c x).setRunning c (some (env, rest'))) := by
  simp only [resumeStep] at hs
  split at hs
  · cases hs
  next env hr => exact .inl ⟨env, hr, (Except.ok.inj hs).symm⟩
  next env rest _ hr =>
    split at hs
    · cases hs
    next h rest' hh =>
      refine .inr ⟨env, rest, h, rest', hr, hh, _, rfl, ?_⟩
      split at hs
      next hpush => exact .inl ⟨hpush, (Except.ok.inj hs).symm⟩
      next => exact .inr (Except.ok.inj hs).symm

theorem sendStep_eq_ok {i n : Nat} (hs : s.sendStep c i n = .ok t) :
    ¬ ((s.running c).isSome ∧ i = 0) ∧ ∃ x effects,
      (s.server.conns c).react (.send i n) = .ok (x, effects) ∧ t = s.setConn c x := by
  simp only [sendStep] at hs
  split at hs
  · cases hs
  next hi =>
    split at hs
    · cases hs
    next x effects hr => exact ⟨hi, x, effects, hr, (Except.ok.inj hs).symm⟩

theorem starting_cases {starting : Starting} {env : Env} {x : FrontConn} {h : Handling}
    {rest : Rest} (hs : starting.rest.step env ⟨x, []⟩ = .ok (h, rest)) :
    (h.effects = [] ∧ h.conn.stats = .working ∧
        ∃ next : Starting, (next = .tests ∨ next = .arms) ∧ rest = next.rest) ∨
      rest = .done ∧ starting ≠ .begins ∧ h.conn.stats = x.stats := by
  cases starting with
  | begins =>
      obtain ⟨rfl, rfl⟩ := Prod.mk.inj (Except.ok.inj hs)
      exact .inl ⟨rfl, rfl, .tests, .inl rfl, rfl⟩
  | tests =>
      obtain ⟨hstats, heq⟩ | ⟨hstats, heq⟩ := Handling.testStats_cases env .armHead ⟨x, []⟩
      · obtain ⟨rfl, rfl⟩ := Prod.mk.inj (heq.symm.trans (Except.ok.inj hs))
        exact .inr ⟨rfl, by decide, rfl⟩
      · obtain ⟨rfl, rfl⟩ := Prod.mk.inj (heq.symm.trans (Except.ok.inj hs))
        exact .inl ⟨rfl, hstats, .arms, .inr rfl, rfl⟩
  | arms =>
      obtain ⟨g, hg, heq⟩ := map_eq_ok hs
      obtain ⟨rfl, rfl⟩ := Prod.mk.inj heq
      obtain ⟨-, rfl⟩ := Handling.withSocket_eq_ok hg
      exact .inr ⟨rfl, by decide, rfl⟩

/-- The steps of `start()` in the accept handler: the status,
the test, and the read. -/
theorem startStep_cases (hs : s.startStep = .ok t) : ∃ c h rest,
    s.server.accept = .inserted c ∧
    s.starting.rest.step (.refusing s.server.now) ⟨(s.server.conns c).conn, []⟩ = .ok (h, rest) ∧
    ∃ x, x = Session.performAll { s.server.conns c with conn := h.conn } h.effects ∧
    ((h.effects = [] ∧ h.conn.stats = .working ∧ ∃ next : Starting,
        (next = .tests ∨ next = .arms) ∧ rest = next.rest ∧
        t = { s with server := s.server.setConn c x, starting := next }) ∨
      (rest = .done ∧ s.starting ≠ .begins ∧ t = { s with
        server := { s.server.setConn c x with accept := .started c }, starting := .begins })) := by
  simp only [startStep] at hs
  split at hs
  next c hi =>
    split at hs
    · cases hs
    next h rest hh =>
      refine ⟨c, h, rest, hi, hh, _, rfl, ?_⟩
      obtain ⟨heffects, hstats, next, hnext, rfl⟩ | ⟨rfl, hlate, -⟩ := starting_cases hh
      · refine .inl ⟨heffects, hstats, next, hnext, rfl, ?_⟩
        obtain rfl | rfl := hnext
        · exact (Except.ok.inj hs).symm
        · exact (Except.ok.inj hs).symm
      · exact .inr ⟨rfl, hlate, (Except.ok.inj hs).symm⟩
  · cases hs

theorem Sound.enter {i : Nat} {ec : ErrorCode} {data : ByteString} {env : Env} (h : s.Sound cfg)
    (hs : s.enterStep c i ec data env = .ok t) : t.Sound cfg := by
  obtain ⟨hnone, op, g, rest, hop, he, rfl⟩ := enterStep_eq_ok hs
  have hne : (s.server.conns c).ops ≠ [] := fun hnil => by simp [hnil] at hop
  have haccept : s.server.accept ≠ .inserted c := fun hi => hne (h.listening.inserted c hi)
  have hlistens := h.listening.listens c
  rw [hnone, AcceptPc.rest_of_ne haccept] at hlistens
  exact ⟨h.accounted, h.supervised,
    known_turn h.known (h.known.made c (.inl hne)) (fun _ => .inl) (fun _ => id),
    h.listening.turn hne (hlistens.enter hop he env) fun _ => .inl⟩

theorem Sound.resume (h : s.Sound cfg) (hs : s.resumeStep c = .ok t) : t.Sound cfg := by
  have hlistens := h.listening.listens c
  have hbusy : ∀ {p}, s.running c = some p → (s.server.conns c).ops ≠ [] := fun hp =>
    hlistens.busy (hp ▸ Option.some_ne_none _)
  obtain ⟨env, hr, rfl⟩ | ⟨env, rest, g, rest', hr, hg, x, rfl, hcases⟩ := resumeStep_cases hs
  · have hne := hbusy hr
    rw [hr] at hlistens
    exact ⟨h.accounted, h.supervised,
      known_turn h.known (h.known.made c (.inl hne)) (fun _ => .inl) (fun _ => id),
      h.listening.turn hne hlistens.leave fun _ => .inl⟩
  · have hne := hbusy hr
    have hmade := h.known.made c (.inl hne)
    have haccept : s.server.accept ≠ .inserted c := fun hi => hne (h.listening.inserted c hi)
    rw [hr, AcceptPc.rest_of_ne haccept] at hlistens
    have hnext := hlistens.resume hg
    obtain ⟨hpush, rfl⟩ | rfl := hcases
    · obtain rfl := (Rest.step_stepped hg hlistens.reads).released hpush
      refine ⟨h.accounted, h.supervised, known_turn h.known hmade
        (fun d hd => (Finset.mem_insert.mp hd).symm) (fun _ => id),
        h.listening.turn hne hnext.leave fun d hd => ?_⟩
      obtain hd | hd := Finset.mem_union.mp hd
      · exact (Finset.mem_insert.mp hd).symm.imp_left (Finset.mem_union_left _)
      · exact .inl (Finset.mem_union_right _ hd)
    · exact ⟨h.accounted, h.supervised, known_turn h.known hmade (fun _ => .inl) (fun _ => id),
        h.listening.turn hne hnext fun _ => .inl⟩

theorem Sound.send {i n : Nat} (h : s.Sound cfg) (hs : s.sendStep c i n = .ok t) :
    t.Sound cfg := by
  obtain ⟨hi, x, effects, hr, rfl⟩ := sendStep_eq_ok hs
  have hne := react_ops_ne_nil hr
  exact ⟨h.accounted, h.supervised,
    known_turn h.known (h.known.made c (.inl hne)) (fun _ => .inl) (fun _ => id),
    h.listening.update ((h.listening.listens c).send hr hi) fun hnil => absurd hnil hne⟩

theorem Sound.start (h : s.Sound cfg) (hs : s.startStep = .ok t) : t.Sound cfg := by
  obtain ⟨c, g, rest, hi, hg, x, rfl, hcases⟩ := startStep_cases hs
  have hc : c < s.server.nextConn := h.known.accept c (by rw [hi]; rfl)
  have hops := h.listening.inserted c hi
  have hnone := (h.listening.listens c).running_none hops
  obtain ⟨heffects, -, next, -, -, rfl⟩ | ⟨rfl, -, rfl⟩ := hcases
  · rw [heffects]
    refine ⟨h.accounted, h.supervised, known_turn h.known hc (fun _ => .inl) (fun _ => id),
      h.listening.update ?_ fun _ => hops⟩
    rw [hnone]
    refine .of_nil hops (fun hdone => ?_) (.inl (if_pos hi))
    rw [AcceptPc.rest, if_pos hi] at hdone
    cases hdone
  · have hinserted : Listening s.server.conns s.running
        (s.server.pushing ∪ s.server.notifying) s.server.cachedConns (.inserted c)
        s.server.manage := hi ▸ h.listening
    exact ⟨h.accounted.control (fun _ heq => by cases heq) rfl fun _ _ hm => .inr hm,
      h.supervised, known_turn h.known hc (fun _ => .inl) (fun d hd => by rw [hi]; exact hd),
      hinserted.started hnone (.begin hops hg)⟩

theorem Sound.step {turn : Turn} (h : s.Sound cfg) (hs : s.step cfg turn = .ok t) :
    t.Sound cfg := by
  cases turn with
  | other l =>
      obtain ⟨hl, server, ha, rfl⟩ := otherStep_eq_ok hs
      exact ⟨h.accounted.action ha, h.supervised.action h.accounted ha,
        h.known.action h.supervised ha,
        h.listening.action h.accounted h.supervised h.known hl ha⟩
  | enter c i ec data env => exact h.enter hs
  | resume c => exact h.resume hs
  | send c i n => exact h.send hs
  | start => exact h.start hs

theorem sound_of_run {moves : List (Move Threads Turn)} (hr : Run (Threads.step cfg) init moves s) :
    s.Sound cfg :=
  hr.invariant sound_init fun _ _ _ h hs => h.step hs

/-- No handler of the connection is under way, and it is not inside `start()`.
What is said of reads is said of these states. -/
def Between (s : Threads) (c : ConnId) : Prop :=
  s.running c = none ∧ s.server.accept ≠ .inserted c

/-- A connection that only a pass refers to does not work, so
`conn_wash_white` may assert it. -/
theorem Sound.not_working (h : s.Sound cfg) (hops : (s.server.conns c).ops = [])
    (haccept : s.server.accept.conn ≠ some c) : (s.server.conns c).conn.stats ≠ .working := by
  have hne : s.server.accept ≠ .inserted c := fun hi => haccept (by rw [hi]; rfl)
  have hlistens := h.listening.listens c
  rw [AcceptPc.rest_of_ne hne] at hlistens
  exact hlistens.not_working hops

/-- Between two handlers a connection has at most one read, and one if it
works; a working connection does not pass the use count test; the assertion of
`conn_wash_white` holds. -/
theorem one_read_outstanding {moves : List (Move Threads Turn)}
    (hr : Run (Threads.step cfg) init moves s) :
    (∀ c, s.Between c → (s.server.conns c).ops.countP Op.isRead ≤ 1 ∧
      ((s.server.conns c).conn.stats = .working →
        (s.server.conns c).ops.countP Op.isRead = 1)) ∧
    (∀ c todo, s.server.manage = .item c .picked todo → c ∈ s.server.frontConns →
      (s.server.conns c).conn.stats = .working → 3 < s.server.useCount c) ∧
    ∀ c todo, s.server.manage = .item c .room todo →
      ∃ w, (s.server.conns c).conn.connWashWhite = .ok w := by
  have h := sound_of_run hr
  refine ⟨fun c hc => ?_, fun c todo hm hc hs => ?_, fun c todo hm => ?_⟩
  · have hreads := (h.listening.listens c).reads
    rw [hc.1, AcceptPc.rest_of_ne hc.2] at hreads
    exact hreads
  · by_contra hfew
    have hpending : c ∈ s.server.pendingToRemove := by
      apply h.supervised.pending
      rw [hm]
      exact Finset.mem_insert_self c todo
    obtain ⟨hops, -, haccept, -⟩ :=
      Server.alone_of_useCount_le (Nat.not_lt.mp hfew) hc hpending (by rw [hm]; rfl)
    exact h.not_working hops haccept hs
  · obtain ⟨hops, -, haccept⟩ :=
      h.listening.retired c (.inr ⟨.room, by rw [hm]; rfl, by decide⟩)
    exact ⟨_, if_neg (h.not_working hops haccept)⟩

/-- A connection whose first request has just been refused, with its reply and
its next read outstanding. -/
def refusing : List Turn :=
  [.other (.accepted .peer), .other .accept, .start, .start, .start,
    .enter 0 0 .success (ofString "GET /a HTTP/1.1\r\n\r\n") (.refusing 0),
    .resume 0, .resume 0, .resume 0, .resume 0, .resume 0]

/-- A connection that the tick marks inside its first `start()`, between the
status and the test. -/
def markedInStart : List Turn :=
  [.other (.accepted .peer), .other .accept, .start, .other (.clock 600)] ++
    List.replicate 33 (.other (.tick 0)) ++ [.start]

theorem one_read_outstanding_refusing :
    (∃ moves s, Run (Threads.step smallConfig) init moves s ∧ s.Between 0 ∧
      (s.server.conns 0).conn.stats = .working ∧
      (s.server.conns 0).ops.countP Op.isRead = 1) ∧
    ∃ moves s, Run (Threads.step smallConfig) init moves s ∧ s.Between 0 ∧
      (s.server.conns 0).conn.stats = .error ∧
      (s.server.conns 0).ops.countP Op.isRead ≤ 1 := by
  constructor
  · obtain ⟨moves, s, hr, -, hrunning, haccept, hstats⟩ :=
      run_of_reaches (Threads.step smallConfig) init refusing
        (p := fun s => (s.running 0).isNone = true ∧ s.server.accept ≠ .inserted 0 ∧
          (s.server.conns 0).conn.stats = .working) (by decide +kernel)
    have hbetween : s.Between 0 := ⟨Option.isNone_iff_eq_none.mp hrunning, haccept⟩
    exact ⟨moves, s, hr, hbetween, hstats, ((one_read_outstanding hr).1 0 hbetween).2 hstats⟩
  · obtain ⟨moves, s, hr, -, hrunning, haccept, hstats⟩ :=
      run_of_reaches (Threads.step smallConfig) init markedInStart
        (p := fun s => (s.running 0).isNone = true ∧ s.server.accept ≠ .inserted 0 ∧
          (s.server.conns 0).conn.stats = .error) (by decide +kernel)
    have hbetween : s.Between 0 := ⟨Option.isNone_iff_eq_none.mp hrunning, haccept⟩
    exact ⟨moves, s, hr, hbetween, hstats, ((one_read_outstanding hr).1 0 hbetween).1⟩

end Threads

end Ailawd
