import Ailawd.Connection.Answering
import Ailawd.Server.Isolation
import Ailawd.Server.Reuse

/-!
# A connection among others

What a connection object goes through between `start()` and `conn_wash_white` it could go
through on its own: no other connection, no pass and no tick does more to it than
`timing_wheel_check`'s `sock_shutdown` and `set_stats`. `received` is what its client has sent
it and `traffic` what has happened to it; with these, the rest of the server disappears.
-/

namespace Ailawd

open ByteString Transition

/-- The same connection, up to the shutdowns since a common past. A lone
connection has no tick to shut it down. -/
structure Session.Matches (past : List Effect) (x y : Session) : Prop where
  conn : x.conn = y.conn
  ops : x.ops = y.ops
  trace : ∃ since since', x.trace = past ++ since ∧ y.trace = past ++ since' ∧
    since.filter (· ≠ .shutdown) = since'.filter (· ≠ .shutdown)

theorem lastFill_filter (trace : List Effect) :
    lastFill (trace.filter (· ≠ .shutdown)) = lastFill trace := by
  rw [lastFill, lastFill, List.foldl_filter]
  congr 1
  funext reply e
  cases e <;> rfl

/-- A completion in the terms of the session: it takes its bytes off
what the client has sent. -/
theorem Feed.step_complete_react {d : Feed} {i : Nat} {ec : ErrorCode} {data : ByteString}
    {env : Env} (hdata : data <+: d.unread) : d.step (.event (.complete i ec data env)) =
      (d.session.react (.complete i ec data env)).map fun r =>
        ⟨r.1, d.unread.drop data.length⟩ := by
  simp only [Feed.step]
  rw [if_neg (not_not.mpr hdata), Session.step]
  cases d.session.react (.complete i ec data env) <;> rfl

namespace Session.Matches

variable {past : List Effect} {x x' y : Session} {e : Event} {effects : List Effect}

theorem refl (x : Session) : x.Matches x.trace x :=
  ⟨rfl, rfl, [], [], (List.append_nil _).symm, (List.append_nil _).symm, rfl⟩

theorem filter_trace (h : x.Matches past y) :
    x.trace.filter (· ≠ .shutdown) = y.trace.filter (· ≠ .shutdown) := by
  obtain ⟨since, since', hx, hy, hsince⟩ := h.trace
  rw [hx, hy, List.filter_append, List.filter_append, hsince]

theorem perform (h : x.Matches past y) (e : Effect) :
    (x.perform e).Matches past (y.perform e) := by
  have hlast : lastFill x.trace = lastFill y.trace := by
    rw [← lastFill_filter x.trace, h.filter_trace, lastFill_filter]
  obtain ⟨since, since', hx, hy, hsince⟩ := h.trace
  refine ⟨h.conn, ?_, since ++ [e], since' ++ [e], ?_, ?_, ?_⟩
  · simp only [Session.perform, h.conn, h.ops, hlast]
  · rw [Session.perform_trace, hx, List.append_assoc]
  · rw [Session.perform_trace, hy, List.append_assoc]
  · rw [List.filter_append, List.filter_append, hsince]

theorem performAll (h : x.Matches past y) (effects : List Effect) :
    (x.performAll effects).Matches past (y.performAll effects) := by
  induction effects generalizing x y with
  | nil => exact h
  | cons e es ih => exact ih (h.perform e)

theorem shut (h : x.Matches past y) : (x.perform .shutdown).Matches past y := by
  obtain ⟨since, since', hx, hy, hsince⟩ := h.trace
  refine ⟨h.conn, (x.perform_shutdown_ops).trans h.ops, since ++ [.shutdown], since', ?_, hy, ?_⟩
  · rw [Session.perform_trace, hx, List.append_assoc]
  · rw [List.filter_append, hsince]
    exact List.append_nil _

theorem withConn (h : x.Matches past y) (conn : FrontConn) :
    Session.Matches past { x with conn := conn } { y with conn := conn } :=
  ⟨rfl, h.ops, h.trace⟩

/-- Both go through the same events, and with the same effects. -/
theorem react (h : x.Matches past y) (hr : x.react e = .ok (x', effects)) :
    ∃ y', y.react e = .ok (y', effects) ∧ x'.Matches past y' := by
  cases e with
  | complete i ec data env =>
      simp only [Session.react, h.ops, h.conn] at hr
      simp only [Session.react]
      split at hr
      · cases hr
      next op hop =>
      split at hr
      · cases hr
      next hcancelled =>
      split at hr
      · cases hr
      next g hg =>
        obtain ⟨rfl, rfl⟩ := Prod.mk.inj (Except.ok.inj hr)
        have hbegin : Session.Matches past ⟨g.conn, y.ops.eraseIdx i, x.trace⟩
            ⟨g.conn, y.ops.eraseIdx i, y.trace⟩ := ⟨rfl, rfl, h.trace⟩
        exact ⟨_, if_neg hcancelled, hbegin.performAll g.effects⟩
  | send i n =>
      simp only [Session.react, h.ops, h.conn] at hr
      simp only [Session.react]
      split at hr
      next w sock hop =>
        split at hr
        · cases hr
        next hn =>
        split at hr
        · cases hr
        next hstorage =>
          obtain ⟨rfl, rfl⟩ := Prod.mk.inj (Except.ok.inj hr)
          exact ⟨_, (if_neg hn).trans (if_neg hstorage), ⟨rfl, rfl, h.trace⟩⟩
      · cases hr

/-- Neither can do what the other cannot, so a fault of the one
is a fault of the other. -/
theorem react_error {stop : Stop Fault} (h : x.Matches past y) (hr : x.react e = .error stop) :
    y.react e = .error stop := by
  cases e with
  | complete i ec data env =>
      simp only [Session.react, h.ops, h.conn] at hr
      simp only [Session.react]
      split at hr
      next hop => exact hr
      next op hop =>
      split at hr
      next hcancelled => exact (if_pos hcancelled).trans hr
      next hcancelled =>
      split at hr
      next stop' hstop => exact (if_neg hcancelled).trans hr
      · cases hr
  | send i n =>
      simp only [Session.react, h.ops, h.conn] at hr
      simp only [Session.react]
      split at hr
      next w sock hop =>
        split at hr
        next hn => exact (if_pos hn).trans hr
        next hn =>
        split at hr
        next hstorage => exact ((if_neg hn).trans (if_pos hstorage)).trans hr
        · cases hr
      next => exact hr

theorem replied {d₀ : Feed} {later : ByteString} {calls : List Effect}
    (h : x.Matches d₀.session.trace y) (hy : d₀.Replied ⟨y, later⟩ calls) :
    d₀.Replied ⟨x, later⟩ calls := by
  obtain ⟨since, since', hx, hy', hsince⟩ := h.trace
  obtain ⟨since'', htrace, rfl⟩ := hy
  obtain rfl := List.append_cancel_left (hy'.symm.trans htrace)
  have hreply : ∀ l : List Effect,
      l.filter Effect.isReply = (l.filter (· ≠ .shutdown)).filter Effect.isReply := by
    intro l
    rw [List.filter_filter]
    congr 1
    funext e
    cases e <;> rfl
  exact ⟨since, hx, by rw [hreply, hsince, ← hreply]⟩

/-- So both have answered once, or neither, and what is
proved of the lone one holds. -/
theorem answeredOnce {work : ByteString → Except Fault (Option ByteString)} {d₀ : Feed}
    {later : ByteString} (h : x.Matches d₀.session.trace y)
    (hy : Feed.AnsweredOnce work d₀ ⟨y, later⟩) : Feed.AnsweredOnce work d₀ ⟨x, later⟩ := by
  have hpending : ∀ i, Feed.pending ⟨x, later⟩ i = Feed.pending ⟨y, later⟩ i := by
    intro i
    simp only [Feed.pending, h.ops]
  have hreceives : ∀ {i data env}, Feed.Receives work ⟨x, later⟩ i data env ↔
      Feed.Receives work ⟨y, later⟩ i data env := by
    intro i data env
    simp only [Feed.Receives, hpending]
  refine ⟨fun i data env f hrecv hs => ?_, ?_, fun hstuck => ?_⟩
  · refine hy.survives i data env f (hreceives.mp hrecv) ?_
    rw [Feed.step_complete_react hrecv.2.2] at hs
    rw [Feed.step_complete_react (hreceives.mp hrecv).2.2]
    cases hr : x.react (.complete i .success data env) with
    | error stop =>
        rw [hr] at hs
        rw [h.react_error hr]
        exact hs
    | ok r =>
        rw [hr] at hs
        cases hs
  · refine hy.atMostOnce.imp h.replied ?_
    rintro ⟨reply, hr⟩
    exact ⟨reply, h.replied hr⟩
  · obtain ⟨⟨reply, hr⟩, hstats, op, hop, hkind⟩ := hy.answered fun i data env t hrecv ht => by
      rw [Feed.step_complete_react hrecv.2.2] at ht
      cases hr : x.react (.complete i .success data env) with
      | error stop =>
          rw [h.react_error hr] at ht
          cases ht
      | ok r =>
          refine hstuck i data env ⟨r.1, later.drop data.length⟩ (hreceives.mpr hrecv) ?_
          rw [Feed.step_complete_react (hreceives.mpr hrecv).2.2, hr]
          rfl
    refine ⟨⟨reply, h.replied hr⟩, ?_, op, ?_, hkind⟩
    · exact (congrArg FrontConn.stats h.conn).trans hstats
    · rw [show Feed.session ⟨x, later⟩ = x from rfl, h.ops]
      exact hop

end Session.Matches

namespace Server

variable {cfg : Config} {s t u : Server} {l : Label} {c : ConnId} {sock : SockId}
variable {moves front back : List (Move Server Label)} {m : Move Server Label}

/-- What happens to the connection in a move: its own event,
or the mark of the tick. -/
def traffic (c : ConnId) (m : Move Server Label) : List Traffic :=
  match m.label with
  | .io d e => if d = c then [.event (e.at m.pre.now)] else []
  | .tick _ => match m.pre.tick with
    | .exam d .shut _ => if d = c then [.expire] else []
    | _ => []
  | _ => []

def received (c : ConnId) (m : Move Server Label) : ByteString :=
  match m.label with
  | .io d (.complete _ _ data _) => if d = c then data else []
  | _ => []

/-- A pass calls `conn_wash_white` on it, which ends what the
current client can see. -/
def Washes (m : Move Server Label) (c : ConnId) : Prop :=
  ∃ d todo, m.label = .manage d ∧ m.pre.manage = .item c .room todo

/-- The object exists, is not cached or about to be, and is not waiting for
`start()`. Until it is washed it stays so. -/
structure InLife (s : Server) (c : ConnId) : Prop where
  made : c < s.nextConn
  served : c ∉ s.cachedConns
  kept : s.manage.item? ≠ some (c, .washed)
  started : s.accept ≠ .inserted c

/-- A step of the manage thread that does not come from a wash, and puts
nothing into the cache. -/
private theorem InLife.ofManage (h : s.InLife c) (hnext : t.nextConn = s.nextConn)
    (hcached : t.cachedConns = s.cachedConns) (haccept : t.accept = s.accept)
    (hm : t.manage.item? ≠ some (c, .washed)) : t.InLife c :=
  ⟨hnext ▸ h.made, hcached ▸ h.served, hm, haccept ▸ h.started⟩

/-- Only a pass ends the life of an object. One case for
each action of the server. -/
theorem InLife.action (h : s.InLife c) (hw : ¬ Washes ⟨s, l, t⟩ c) (ha : Action cfg s l t) :
    t.InLife c := by
  have hmanage := h.ofManage (t := t)
  obtain ⟨hmade, hserved, hkept, hstarted⟩ := h
  cases ha with
  | acceptError _ => exact ⟨hmade, hserved, hkept, by rintro ⟨⟩⟩
  | acceptTested _ _ => exact ⟨hmade, hserved, hkept, by rintro ⟨⟩⟩
  | @recycle sock d cached _ _ hcached _ =>
      rw [hcached] at hserved
      refine ⟨hmade, fun hc => hserved (List.mem_cons_of_mem d hc), hkept, fun hd => ?_⟩
      exact hserved (AcceptPc.inserted.inj hd ▸ List.mem_cons_self)
  | create _ _ _ =>
      refine ⟨Nat.lt_succ_of_lt hmade, hserved, hkept, fun hd => ?_⟩
      exact Nat.lt_irrefl _ (AcceptPc.inserted.inj hd ▸ hmade)
  | start _ _ => exact ⟨hmade, hserved, hkept, by rintro ⟨⟩⟩
  | listen _ => exact ⟨hmade, hserved, hkept, by rintro ⟨⟩⟩
  | notify _ _ => exact ⟨hmade, hserved, by rwa [ManagePc.item?_notified], hstarted⟩
  | @tickDone _ b _ _ =>
      refine ⟨hmade, hserved, ?_, hstarted⟩
      change (if b.notify = true then s.manage.notified else s.manage).item? ≠ _
      split
      · rwa [ManagePc.item?_notified]
      · exact hkept
  | @wash d e todo conn hm _ =>
      refine ⟨hmade, hserved, fun hc => hw ?_, hstarted⟩
      cases hc
      exact ⟨d, todo, rfl, hm⟩
  | @cache _ d todo hm =>
      refine ⟨hmade, fun hc => ?_, by rintro ⟨⟩, hstarted⟩
      obtain hc | hc := List.mem_append.mp hc
      · exact hserved hc
      · obtain rfl := List.mem_singleton.mp hc
        exact hkept (by rw [hm]; rfl)
  | wake _ => exact hmanage rfl rfl rfl (by rintro ⟨⟩)
  | timeout _ => exact hmanage rfl rfl rfl (by rintro ⟨⟩)
  | wait _ => exact hmanage rfl rfl rfl (by rintro ⟨⟩)
  | nothing _ _ => exact hmanage rfl rfl rfl (by rintro ⟨⟩)
  | beginPass _ _ => exact hmanage rfl rfl rfl (by rintro ⟨⟩)
  | showConns _ => exact hmanage rfl rfl rfl (by rintro ⟨⟩)
  | shownConns _ => exact hmanage rfl rfl rfl (by rintro ⟨⟩)
  | endPass _ _ => exact hmanage rfl rfl rfl (by rintro ⟨⟩)
  | pick _ _ => exact hmanage rfl rfl rfl (by rintro ⟨⟩)
  | absent _ _ => exact hmanage rfl rfl rfl (by rintro ⟨⟩)
  | skip _ _ _ => exact hmanage rfl rfl rfl (by rintro ⟨⟩)
  | test _ _ _ => exact hmanage rfl rfl rfl (by rintro ⟨⟩)
  | erase _ => exact hmanage rfl rfl rfl (by rintro ⟨⟩)
  | count _ => exact hmanage rfl rfl rfl (by rintro ⟨⟩)
  | room _ _ => exact hmanage rfl rfl rfl (by rintro ⟨⟩)
  | noRoom _ _ => exact hmanage rfl rfl rfl (by rintro ⟨⟩)
  | _ => exact ⟨hmade, hserved, hkept, hstarted⟩

/-- A move of the server is a few steps of the connection on its own: none,
one, or the bytes of its client and one. -/
def StepsAlone (past : List Effect) (c : ConnId) (m : Move Server Label) (y : Session) : Prop :=
  ∀ later, ∃ segment y', Run Feed.step ⟨y, received c m ++ later⟩ segment ⟨y', later⟩ ∧
    segment.map Move.label = traffic c m ∧ (m.post.conns c).Matches past y'

section Step

variable {past : List Effect} {y : Session}

theorem StepsAlone.quiet (hm : (s.conns c).Matches past y) (hconn : t.conns c = s.conns c)
    (htraffic : traffic c ⟨s, l, t⟩ = []) (hreceived : received c ⟨s, l, t⟩ = []) :
    StepsAlone past c ⟨s, l, t⟩ y := by
  intro later
  refine ⟨[], y, ?_, htraffic.symm, by rwa [← hconn] at hm⟩
  rw [hreceived]
  exact .nil

theorem StepsAlone.io {e : Event} {x : Session} {effects : List Effect}
    (hm : (s.conns c).Matches past y) (hr : (s.conns c).react (e.at s.now) = .ok (x, effects))
    (hconn : t.conns c = x) : StepsAlone past c ⟨s, .io c e, t⟩ y := by
  intro later
  obtain ⟨y', hy, hmatches⟩ := hm.react hr
  have hstep : y.step (e.at s.now) = .ok y' := by
    rw [Session.step, hy]
    rfl
  refine ⟨[⟨⟨y, received c ⟨s, .io c e, t⟩ ++ later⟩, .event (e.at s.now), ⟨y', later⟩⟩], y',
    Run.nil.snoc ?_, ?_, hconn ▸ hmatches⟩
  · cases e with
    | complete i ec data env =>
        simp only [received, if_true, Event.at, Feed.step] at hstep ⊢
        rw [if_neg (not_not.mpr (List.prefix_append data later)), hstep]
        simp [Except.map]
    | send i n =>
        simp only [received, List.nil_append, Event.at, Feed.step] at hstep ⊢
        rw [hstep]
        rfl
  · simp [traffic]

theorem Action.alone (ha : Action cfg s l t) (h : s.InLife c) (hw : ¬ Washes ⟨s, l, t⟩ c)
    (hm : (s.conns c).Matches past y) : StepsAlone past c ⟨s, l, t⟩ y := by
  cases ha with
  | @recycle sock d cached _ _ hcached _ =>
      have hdc : c ≠ d := by
        rintro rfl
        exact h.served (hcached ▸ List.mem_cons_self)
      exact .quiet hm (Function.update_of_ne hdc ..) rfl rfl
  | create _ _ _ =>
      have hdc : c ≠ s.nextConn := Nat.ne_of_lt h.made
      exact .quiet hm (Function.update_of_ne hdc ..) rfl rfl
  | @start d _ hi _ =>
      have hdc : c ≠ d := by
        rintro rfl
        exact h.started hi
      exact .quiet hm (Function.update_of_ne hdc ..) rfl rfl
  | @io d e x effects _ hr =>
      by_cases hdc : d = c
      · subst hdc
        exact .io hm hr (Function.update_self ..)
      · refine .quiet hm (Function.update_of_ne (Ne.symm hdc) ..) ?_ ?_
        · simp [traffic, hdc]
        · cases e <;> simp [received, hdc]
  | @shut _ d b ht _ =>
      by_cases hdc : d = c
      · subst hdc
        intro later
        refine ⟨[], y, .nil, by simp [traffic, ht], ?_⟩
        simp only [setConn, Function.update_self]
        exact hm.shut
      · exact .quiet hm (Function.update_of_ne (Ne.symm hdc) ..) (by simp [traffic, ht]) rfl
  | @mark e d b ht =>
      by_cases hdc : d = c
      · subst hdc
        intro later
        refine ⟨_, _, Run.nil.snoc (a := .expire) rfl, by simp [traffic, ht], ?_⟩
        simp only [setConn, Function.update_self]
        rw [hm.conn]
        exact hm.withConn _
      · exact .quiet hm (Function.update_of_ne (Ne.symm hdc) ..) (by simp [traffic, ht, hdc]) rfl
  | @wash e d todo conn hmanage _ =>
      have hdc : c ≠ d := by
        rintro rfl
        exact hw ⟨e, todo, rfl, hmanage⟩
      exact .quiet hm (Function.update_of_ne hdc ..) rfl rfl
  | tickBegin ht => exact .quiet hm rfl (by simp [traffic, ht]) rfl
  | tickDone ht _ => exact .quiet hm rfl (by simp [traffic, ht]) rfl
  | tickDead ht _ _ => exact .quiet hm rfl (by simp [traffic, ht]) rfl
  | tickLock ht _ _ => exact .quiet hm rfl (by simp [traffic, ht]) rfl
  | sawPending ht _ => exact .quiet hm rfl (by simp [traffic, ht]) rfl
  | sawOther ht _ => exact .quiet hm rfl (by simp [traffic, ht]) rfl
  | dropCached ht _ => exact .quiet hm rfl (by simp [traffic, ht]) rfl
  | expire ht _ => exact .quiet hm rfl (by simp [traffic, ht]) rfl
  | keep ht _ => exact .quiet hm rfl (by simp [traffic, ht]) rfl
  | tickPush ht _ => exact .quiet hm rfl (by simp [traffic, ht]) rfl
  | release ht => exact .quiet hm rfl (by simp [traffic, ht]) rfl
  | rotate ht _ => exact .quiet hm rfl (by simp [traffic, ht]) rfl
  | _ => exact .quiet hm rfl rfl rfl

end Step

/-- The run lemma. Induction on the run, with the bytes that are still to be
read as a parameter. -/
theorem alone_of_run (hr : Run (step cfg) u moves s) (hu : u.InLife c)
    (hw : ∀ m ∈ moves, ¬ Washes m c) : s.InLife c ∧ ∀ later, ∃ feed y,
      Run Feed.step ⟨u.conns c, moves.flatMap (received c) ++ later⟩ feed ⟨y, later⟩ ∧
      feed.map Move.label = moves.flatMap (traffic c) ∧
      (s.conns c).Matches (u.conns c).trace y := by
  induction hr with
  | nil => exact ⟨hu, fun later => ⟨[], u.conns c, .nil, rfl, .refl _⟩⟩
  | @snoc moves s l t _ hs ih =>
      obtain ⟨hs', halone⟩ := ih fun m hm => hw m (List.mem_append_left _ hm)
      have hlast : ¬ Washes ⟨s, l, t⟩ c := hw _ (by simp)
      have ha := step_action hs
      refine ⟨hs'.action hlast ha, fun later => ?_⟩
      obtain ⟨feed, y, hfeed, hlabels, hm⟩ := halone (received c ⟨s, l, t⟩ ++ later)
      obtain ⟨segment, y', hsegment, hmore, hm'⟩ := ha.alone hs' hlast hm later
      refine ⟨feed ++ segment, y', ?_, ?_, hm'⟩
      · rw [List.flatMap_append, List.flatMap_singleton, List.append_assoc]
        exact hfeed.append hsegment
      · rw [List.map_append, hlabels, hmore, List.flatMap_append, List.flatMap_singleton]

/-- `conn_wash_white` leaves receive buffers of the first size, and an object
that waits for `start()` has nothing in `request_`. -/
structure Emptied (conns : ConnId → Session) (cached : List ConnId) (accept : AcceptPc)
    (manage : ManagePc) : Prop where
  washed : ∀ c, c ∈ cached ∨ manage.item? = some (c, .washed) →
    (conns c).conn.pBuffer.size = 16 * 1024
  inserted : ∀ c, accept = .inserted c →
    (conns c).conn.pBuffer.size = 16 * 1024 ∧ (conns c).conn.request = []

namespace Emptied

variable {conns : ConnId → Session} {cached : List ConnId} {accept accept' : AcceptPc}
variable {manage : ManagePc} {x : Session}

theorem ofAccept (h : Emptied conns cached accept manage) (ha : ∀ c, accept' ≠ .inserted c) :
    Emptied conns cached accept' manage :=
  ⟨h.washed, fun c hc => absurd hc (ha c)⟩

theorem ofManage (h : Emptied conns cached accept manage) (manage' : ManagePc)
    (hm : ∀ c, manage'.item? = some (c, .washed) → manage.item? = some (c, .washed)) :
    Emptied conns cached accept manage' :=
  ⟨fun c hc => h.washed c (hc.imp_right (hm c)), h.inserted⟩

theorem update (h : Emptied conns cached accept manage)
    (hx : (c ∈ cached ∨ manage.item? = some (c, .washed)) ∨ accept = .inserted c →
      x.conn.pBuffer = (conns c).conn.pBuffer ∧ x.conn.request = (conns c).conn.request) :
    Emptied (Function.update conns c x) cached accept manage := by
  refine ⟨fun d hd => ?_, fun d hd => ?_⟩ <;> by_cases hdc : d = c
  · subst hdc
    rw [Function.update_self, (hx (.inl hd)).1]
    exact h.washed d hd
  · rw [Function.update_of_ne hdc]
    exact h.washed d hd
  · subst hdc
    rw [Function.update_self, (hx (.inr hd)).1, (hx (.inr hd)).2]
    exact h.inserted d hd
  · rw [Function.update_of_ne hdc]
    exact h.inserted d hd

end Emptied

def IsEmptied (s : Server) : Prop := Emptied s.conns s.cachedConns s.accept s.manage

theorem isEmptied_init : IsEmptied init :=
  ⟨fun _ hc => hc.elim nofun nofun, nofun⟩

theorem IsEmptied.action (h : s.IsEmptied) (hs : s.Sound cfg) (ha : Action cfg s l t) :
    t.IsEmptied := by
  have hmanage := h.ofManage
  cases ha with
  | acceptError _ => exact h.ofAccept (by rintro _ ⟨⟩)
  | acceptTested _ _ => exact h.ofAccept (by rintro _ ⟨⟩)
  | @recycle sock d cached _ hfree hcached _ =>
      have hitem := (ManagePc.of_unlocked hfree).2
      have hsize := h.washed d (.inl (hcached ▸ List.mem_cons_self))
      refine ⟨fun c hc => ?_, fun c hc => ?_⟩
      · have hmem := hc.resolve_right fun hi => by
          rw [show s.manage.item? = some (c, .washed) from hi] at hitem
          cases hitem
        by_cases hcd : c = d
        · subst hcd
          simp only [emplace, setConn, Function.update_self]
          exact hsize
        · simp only [emplace, setConn, Function.update_of_ne hcd]
          exact h.washed c (.inl (hcached ▸ List.mem_cons_of_mem d hmem))
      · cases hc
        simp only [emplace, setConn, Function.update_self]
        exact ⟨hsize, rfl⟩
  | create _ hfree hcached =>
      have hitem := (ManagePc.of_unlocked hfree).2
      refine ⟨fun c hc => ?_, fun c hc => ?_⟩
      · obtain hc | hc := hc
        · rw [show s.cachedConns = [] from hcached] at hc
          cases hc
        · rw [show s.manage.item? = some (c, .washed) from hc] at hitem
          cases hitem
      · cases hc
        simp only [emplace, setConn, Function.update_self]
        exact ⟨rfl, rfl⟩
  | @start d g hi hg =>
      obtain ⟨-, rfl⟩ := Handling.start_eq_ok hg
      refine (h.update (c := d) fun _ => ?_).ofAccept (by rintro _ ⟨⟩)
      rw [Session.performAll_conn]
      exact ⟨rfl, rfl⟩
  | listen _ => exact h.ofAccept (by rintro _ ⟨⟩)
  | @io d e x effects _ hr =>
      have hne := react_ops_ne_nil hr
      apply h.update
      rintro ((hd | hd) | hd)
      · exact absurd (hs.lifecycle.retired d (.inl hd)).1 hne
      · exact absurd (hs.lifecycle.retired d (.inr ⟨_, hd, by rintro ⟨⟩⟩)).1 hne
      · exact absurd (hs.lifecycle.inserted d hd) hne
  | notify _ _ => exact hmanage _ fun c hc => by rwa [ManagePc.item?_notified] at hc
  | @tickDone _ b _ _ =>
      refine hmanage _ fun c hc => ?_
      split at hc
      · rwa [ManagePc.item?_notified] at hc
      · exact hc
  | shut _ _ => exact h.update fun _ => ⟨rfl, rfl⟩
  | mark _ => exact h.update fun _ => ⟨rfl, rfl⟩
  | @wash _ d todo conn hm hw =>
      obtain ⟨-, hsize, -⟩ := connWashWhite_eq_ok hw
      have haccept := (hs.lifecycle.retired d (.inr ⟨.room, by rw [hm]; rfl, by rintro ⟨⟩⟩)).2.2
      refine ⟨fun c hc => ?_, fun c hc => ?_⟩ <;> by_cases hcd : c = d
      · subst hcd
        simp only [setConn, Function.update_self]
        exact hsize
      · simp only [setConn, Function.update_of_ne hcd]
        refine h.washed c (.inl (hc.resolve_right fun hi => hcd ?_))
        exact (Prod.mk.inj (Option.some.inj hi)).1.symm
      · refine absurd ?_ haccept
        rw [show s.accept = .inserted c from hc, hcd]
        rfl
      · simp only [setConn, Function.update_of_ne hcd]
        exact h.inserted c hc
  | @cache _ d todo hm =>
      refine ⟨fun c hc => ?_, h.inserted⟩
      obtain hc | hc := hc
      · obtain hc | hc := List.mem_append.mp hc
        · exact h.washed c (.inl hc)
        · obtain rfl := List.mem_singleton.mp hc
          exact h.washed c (.inr (by rw [hm]; rfl))
      · cases hc
  | wake _ => exact hmanage _ (by rintro _ ⟨⟩)
  | timeout _ => exact hmanage _ (by rintro _ ⟨⟩)
  | wait _ => exact hmanage _ (by rintro _ ⟨⟩)
  | nothing _ _ => exact hmanage _ (by rintro _ ⟨⟩)
  | beginPass _ _ => exact hmanage _ (by rintro _ ⟨⟩)
  | showConns _ => exact hmanage _ (by rintro _ ⟨⟩)
  | shownConns _ => exact hmanage _ (by rintro _ ⟨⟩)
  | endPass _ _ => exact hmanage _ (by rintro _ ⟨⟩)
  | pick _ _ => exact hmanage _ (by rintro _ ⟨⟩)
  | absent _ _ => exact hmanage _ (by rintro _ ⟨⟩)
  | skip _ _ _ => exact hmanage _ (by rintro _ ⟨⟩)
  | test _ _ _ => exact hmanage _ (by rintro _ ⟨⟩)
  | erase _ => exact hmanage _ (by rintro _ ⟨⟩)
  | count _ => exact hmanage _ (by rintro _ ⟨⟩)
  | room _ _ => exact hmanage _ (by rintro _ ⟨⟩)
  | noRoom _ _ => exact hmanage _ (by rintro _ ⟨⟩)
  | _ => exact h

theorem isEmptied_of_run (hr : Run (step cfg) init moves s) : s.Sound cfg ∧ s.IsEmptied := by
  refine hr.invariant (I := fun s => s.Sound cfg ∧ s.IsEmptied) ⟨sound_init, isEmptied_init⟩ ?_
  rintro s l t ⟨hs, h⟩ hstep
  exact ⟨hs.action (step_action hstep), h.action hs (step_action hstep)⟩

/-- `accept_handler` starts the connection, on the socket it
was made or reset with. -/
def Restarts (m : Move Server Label) (c : ConnId) : Prop :=
  m.label = .accept ∧ m.pre.accept = .inserted c

/-- `start()` begins a life, with nothing read and nothing to send, on a new
object or on a recycled one. -/
theorem begins_of_restart (hr : Run (step cfg) init front u) (hm : Restarts m c)
    (hpre : m.pre = u) (hs : step cfg m.pre m.label = .ok m.post) :
    m.post.InLife c ∧ ∃ sock, Feed.Begins ⟨m.post.conns c, []⟩ sock := by
  obtain ⟨pre, label, post⟩ := m
  obtain ⟨rfl, hi⟩ := hm
  obtain rfl : pre = u := hpre
  change pre.accept = .inserted c at hi
  obtain ⟨hsound, hemptied⟩ := isEmptied_of_run hr
  have ha := step_action hs
  change Action cfg pre .accept post at ha
  cases ha with
  | @start d g hi' hg =>
      obtain rfl : d = c := AcceptPc.inserted.inj (hi'.symm.trans hi)
      obtain ⟨sock, -, hstarted, -⟩ := start_ok (hsound.lifecycle.inserted d hi) hg
      obtain ⟨hsize, hrequest⟩ := hemptied.inserted d hi
      have hne : ∀ e, pre.accept.conn ≠ some e → e ≠ d := by
        rintro e he rfl
        exact he (by rw [hi]; rfl)
      refine ⟨⟨hsound.known.accept d (by rw [hi]; rfl), fun hc => ?_, fun hk => ?_, nofun⟩,
        sock, ?_⟩
      · exact hne d (hsound.lifecycle.retired d (.inl hc)).2.2 rfl
      · exact hne d (hsound.lifecycle.retired d (.inr ⟨_, hk, nofun⟩)).2.2 rfl
      · simp only [setConn, Function.update_self]
        obtain ⟨-, rfl⟩ := Handling.start_eq_ok hg
        refine ⟨hstarted, ?_, ?_, rfl⟩
        · rw [Feed.request, Session.performAll_conn]
          exact hrequest
        · rw [Session.performAll_conn]
          exact hsize
  | recycle ht _ _ _ =>
      rw [ht] at hi
      cases hi
  | create ht _ _ =>
      rw [ht] at hi
      cases hi
  | listen hl =>
      rw [hl] at hi
      cases hi

/-- In every run, a connection goes from its `start()` up to its
`conn_wash_white` through what it goes through on its own, when its client has
sent it the same bytes. Each handler is one step here. -/
theorem connection_alone (hr : Run (step cfg) init (front ++ m :: back) s) (hm : Restarts m c)
    (hw : ∀ n ∈ back, ¬ Washes n c) :
    (∃ sock, Feed.Begins ⟨m.post.conns c, []⟩ sock) ∧ ∀ later, ∃ feed y,
      Run Feed.step ⟨m.post.conns c, back.flatMap (received c) ++ later⟩ feed ⟨y, later⟩ ∧
      feed.map Move.label = back.flatMap (traffic c) ∧
      (s.conns c).Matches (m.post.conns c).trace y := by
  have hstep := hr.step_of_mem m (by simp)
  obtain ⟨hlife, hbegins⟩ := begins_of_restart hr.before hm rfl hstep
  exact ⟨hbegins, (alone_of_run hr.after hlife hw).2⟩

/-- What a request that comes in on a working connection goes through on its
own, with what it has been through before. -/
theorem exists_feed {r : Message} {work : ByteString → Except Fault (Option ByteString)}
    {later : ByteString} (hu : Run (step cfg) init front u) (hlife : u.InLife c)
    (hworking : (u.conns c).conn.stats = .working) (hreads : (u.conns c).Reads .readHead)
    (hr : Run (step cfg) u back s) (hw : ∀ n ∈ back, ¬ Washes n c)
    (hsmooth : ∀ n ∈ back, ∀ a ∈ traffic c n, a.Smooth work)
    (hbytes : (u.conns c).conn.request ++ (back.flatMap (received c) ++ later) = r.bytes) :
    Feed.Ready r ⟨u.conns c, back.flatMap (received c) ++ later⟩ ∧ ∃ feed y,
      Run Feed.step ⟨u.conns c, back.flatMap (received c) ++ later⟩ feed ⟨y, later⟩ ∧
      (s.conns c).Matches (u.conns c).trace y ∧
      ∀ m ∈ feed, m.label.Smooth work ∧ ∃ n ∈ back, m.label ∈ traffic c n := by
  obtain ⟨feed, y, hfeed, hlabels, hm⟩ := (alone_of_run hr hlife hw).2 later
  refine ⟨⟨(sound_of_run hu).lifecycle.ok c, hworking, hreads, hbytes⟩, feed, y, hfeed, hm, ?_⟩
  intro m hm
  have hmem : m.label ∈ back.flatMap (traffic c) := hlabels ▸ List.mem_map_of_mem hm
  obtain ⟨n, hn, ha⟩ := List.mem_flatMap.mp hmem
  exact ⟨hsmooth n hn m.label ha, n, hn, ha⟩

/-- A request that comes in on a working connection is answered once, whatever
the other connections do, while no operation of its own fails and it is not
marked. -/
theorem answered_among_others {r : Message} {work : ByteString → Except Fault (Option ByteString)}
    {later : ByteString} (hans : r.Answerable work) (hu : Run (step cfg) init front u)
    (hlife : u.InLife c) (hworking : (u.conns c).conn.stats = .working)
    (hreads : (u.conns c).Reads .readHead) (hr : Run (step cfg) u back s)
    (hw : ∀ n ∈ back, ¬ Washes n c) (hsmooth : ∀ n ∈ back, ∀ a ∈ traffic c n, a.Smooth work)
    (hbytes : (u.conns c).conn.request ++ (back.flatMap (received c) ++ later) = r.bytes) :
    Feed.AnsweredOnce work ⟨u.conns c, back.flatMap (received c) ++ later⟩ ⟨s.conns c, later⟩ := by
  obtain ⟨hready, feed, y, hfeed, hm, hfrom⟩ :=
    exists_feed hu hlife hworking hreads hr hw hsmooth hbytes
  exact hm.answeredOnce (hready.answeredOnce hans hfeed fun m hm => (hfrom m hm).1)

section OtherClient

/-- A second client comes and is lost, and then the
first one sends a request. -/
def twoClients : List Label :=
  [.accepted .peer, .accept, .accept, .accept, .io 1 (.complete 0 .other [] (.refusing 0)),
    .handler 1, .io 0 (.complete 0 .success (ofString "GET /a HTTP/1.1\r\n\r\n") (.refusing 0))]

private theorem not_washes {n : Move Server Label} (h : n.label ∈ .accept :: twoClients) :
    ¬ Washes n c := by
  rintro ⟨d, todo, hl, -⟩
  rw [hl] at h
  simp [twoClients] at h

theorem connection_alone_two_clients : ∃ front m back s,
    Run (step smallConfig) init (front ++ m :: back) s ∧ m.label = .accept ∧
      back.map Move.label = .accept :: twoClients ∧
      (∃ sock, Feed.Begins ⟨m.post.conns 0, []⟩ sock) ∧ ∀ later, ∃ feed y,
        Run Feed.step ⟨m.post.conns 0, back.flatMap (received 0) ++ later⟩ feed ⟨y, later⟩ ∧
        feed.map Move.label = back.flatMap (traffic 0) ∧
        (s.conns 0).Matches (m.post.conns 0).trace y := by
  obtain ⟨front, u, hfront, -, haccept, hreaches⟩ :=
    run_of_reaches (step smallConfig) init [.accepted .peer, .accept]
      (p := fun u => u.accept = .inserted 0 ∧ Reaches
        (exec (step smallConfig) u (.accept :: .accept :: twoClients)) fun s => 0 ∈ s.frontConns)
      (by decide +kernel)
  obtain ⟨moves, s, hr, hlabels, -⟩ := run_of_reaches _ _ _ hreaches
  obtain ⟨m, back, rfl, hm, hback⟩ := List.map_eq_cons_iff.mp hlabels
  have hcut : Run (step smallConfig) u ([] ++ m :: back) s := hr
  have hpre : m.pre = u := hcut.before.eq_of_nil
  refine ⟨front, m, back, s, hfront.append hr, hm, hback, ?_⟩
  refine connection_alone (hfront.append hr) ⟨hm, hpre ▸ haccept⟩ fun n hn => not_washes ?_
  exact hback ▸ List.mem_map_of_mem hn

/-- The first client has connected, its connection awaits a head, and then
these steps are taken. -/
structure Joined (labels : List Label) (u : Server) (back : List (Move Server Label))
    (s : Server) : Prop where
  run : Run (step smallConfig) u back s
  labels : back.map Move.label = labels
  life : u.InLife 0
  working : (u.conns 0).conn.stats = .working
  reads : (u.conns 0).Reads .readHead
  request : (u.conns 0).conn.request = []

theorem exists_joined (labels : List Label)
    (h : Reaches (exec (step smallConfig) init [.accepted .peer, .accept, .accept, .accept])
      fun u => 0 < u.nextConn ∧ u.cachedConns = [] ∧ u.manage = .outside ∧
        u.accept = .listening ∧ (u.conns 0).conn.stats = .working ∧
        (u.conns 0).ops = [⟨.readHead, 0, false⟩] ∧ (u.conns 0).conn.request = [] ∧
        Reaches (exec (step smallConfig) u labels) fun s => 0 ∈ s.frontConns) :
    ∃ front u back s, Run (step smallConfig) init front u ∧ Joined labels u back s := by
  obtain ⟨front, u, hfront, -, hmade, hcached, hmanage, haccept, hworking, hops, hrequest, hnext⟩ :=
    run_of_reaches _ _ _ h
  obtain ⟨back, s, hr, hlabels, -⟩ := run_of_reaches _ _ _ hnext
  refine ⟨front, u, back, s, hfront, hr, hlabels, ⟨hmade, ?_, ?_, ?_⟩, hworking, ?_, hrequest⟩
  · rw [hcached]
    exact List.not_mem_nil
  · rw [hmanage]
    rintro ⟨⟩
  · rw [haccept]
    rintro ⟨⟩
  · refine ⟨⟨.readHead, 0, false⟩, ?_, rfl, rfl⟩
    rw [hops]
    exact List.mem_singleton_self _

theorem Joined.received {labels : List Label} (h : Joined labels u back s) :
    back.flatMap (received 0) = labels.flatMap fun l => Server.received 0 ⟨init, l, init⟩ := by
  have hmap := List.flatMap_map Move.label (fun l => Server.received 0 ⟨init, l, init⟩) back
  rw [h.labels] at hmap
  exact hmap.symm

theorem Joined.bytes {labels : List Label} {r : Message} (h : Joined labels u back s)
    (hbytes : (labels.flatMap fun l => Server.received 0 ⟨init, l, init⟩) = r.bytes) :
    (u.conns 0).conn.request ++ (back.flatMap (Server.received 0) ++ []) = r.bytes := by
  rw [h.request, h.received, hbytes, List.append_nil, List.nil_append]

def plainGet : Message :=
  (Message.make? (ofString "GET /a HTTP/1.1\r\n\r\n") []).get (by decide +kernel)

theorem answered_among_others_two_clients : ∃ front u back s,
    Run (step smallConfig) init front u ∧ Run (step smallConfig) u back s ∧
      back.map Move.label = twoClients ∧
      Feed.AnsweredOnce (fun _ => .ok none) ⟨u.conns 0, plainGet.bytes⟩ ⟨s.conns 0, []⟩ := by
  obtain ⟨front, u, back, s, hfront, h⟩ := exists_joined twoClients (by decide +kernel)
  have hsmooth : ∀ n ∈ back, ∀ a ∈ traffic 0 n, a.Smooth fun _ => .ok none := by
    intro n hn a ha
    have hl : n.label ∈ twoClients := h.labels ▸ List.mem_map_of_mem hn
    simp only [twoClients, List.mem_cons, List.not_mem_nil, or_false] at hl
    obtain hl | hl | hl | hl | hl | hl | hl := hl <;> simp [traffic, hl] at ha
    subst ha
    exact ⟨rfl, rfl⟩
  have hanswerable : plainGet.Answerable fun _ => .ok none := by
    rw [Message.Answerable, if_neg (by decide +kernel)]
    decide +kernel
  have hbytes : (u.conns 0).conn.request ++ (back.flatMap (received 0) ++ []) =
      plainGet.bytes := h.bytes (by decide +kernel)
  have hanswered := answered_among_others hanswerable hfront h.life h.working h.reads h.run
    (fun n hn => not_washes (List.mem_cons_of_mem _ (h.labels ▸ List.mem_map_of_mem hn))) hsmooth
    hbytes
  rw [h.request, List.nil_append] at hbytes
  rw [hbytes] at hanswered
  exact ⟨front, u, back, s, hfront, h.run, h.labels, hanswered⟩

end OtherClient

end Server

end Ailawd
