import Ailawd.Connection.Renewal
import Ailawd.Server.Recycling

/-!
# Reusing an object

An accepted socket is given to a cached object or to a new one. `launchAgain` and `launchNew`
are the two ways, up to the end of `start()`. `recycled_differs` compares them after every
history that ends with `conn_wash_white`: nothing that is observed later tells the two apart,
but `TCP_NODELAY` is set on the socket of a new object only.
-/

namespace Ailawd

open Transition ByteString

namespace Session

/-- `start()`, after what was done to the socket before. A new object and a
recycled one differ there only. -/
def launch (x : Session) (effects : List Effect) (env : Env) :
    Except Fault (Session × List Effect) :=
  match Handling.start env ⟨x.conn, effects⟩ with
  | .error e => .error e
  | .ok h => .ok (performAll { x with conn := h.conn } h.effects, h.effects)

def launchNew (pSock : SockId) (env : Env) : Except Fault (Session × List Effect) :=
  let h := FrontConn.make pSock env.now
  launch ⟨h.conn, [], []⟩ h.effects env

/-- An object that has been washed, on another socket, as
`conn_reset_network` leaves it. -/
def launchAgain (x : Session) (pSock : SockId) (env : Env) :
    Except Fault (Session × List Effect) :=
  launch { x with conn := x.conn.connResetNetwork pSock env.now } [] env

end Session

/-- Two launches that nothing tells apart: neither the options of the socket
nor any later sequence of events. -/
structure Interchangeable (r r' : Session × List Effect) : Prop where
  options : Effect.setTcpNodelay ∈ r.2 ↔ Effect.setTcpNodelay ∈ r'.2
  view : r.1.view = r'.1.view
  later : ∀ events, SameUntilFreed (r.1.observe events) (r'.1.observe events)

theorem launch_eq (x : Session) (effects : List Effect) (env : Env) {sock : SockId}
    (hsock : x.conn.pSock = some sock) : x.launch effects env =
      .ok (Session.performAll { x with conn := { x.conn with
        stats := .working, rSize := 0, wSize := 0, wPos := 0, touchTime := env.now } }
          (effects ++ [.asyncReadUntil]), effects ++ [.asyncReadUntil]) := by
  simp only [Session.launch, Handling.start, Handling.doReadHead, Handling.setStats,
    Handling.touchSockTime, Handling.withSocket, hsock, ne_eq, not_true_eq_false, if_false,
    Handling.emit]

/-- What `conn_wash_white` restores, and what it asserts. The contents of the
buffers are not among it. -/
theorem connWashWhite_eq_ok {c w : FrontConn} (h : c.connWashWhite = .ok w) :
    c.stats ≠ .working ∧ w.pBuffer.size = 16 * 1024 ∧ w.pWrite.size = 16 * 1024 := by
  simp only [FrontConn.connWashWhite] at h
  split at h
  · cases h
  next hs =>
    obtain rfl := Except.ok.inj h
    exact ⟨hs, CharVec.resize_size _ _, CharVec.resize_size _ _⟩

/-- The two launches, and the simulation between them. From here on the two
objects are `Renewed`. -/
theorem launches {x : Session} {c : FrontConn} (hw : c.connWashWhite = .ok x.conn)
    (hops : x.ops = []) (pSock : SockId) (env : Env) : ∃ old new a b conn,
      x.launchAgain pSock env = .ok (old, [.asyncReadUntil]) ∧
      Session.launchNew pSock env = .ok (new, [.setTcpNodelay, .asyncReadUntil]) ∧
      Renewed old new conn a b := by
  obtain ⟨-, hbuffer, hwrite⟩ := connWashWhite_eq_ok hw
  set conn : FrontConn := { (FrontConn.make pSock env.now).conn with stats := .working } with hconn
  set again : Session := { x with conn := { x.conn.connResetNetwork pSock env.now with
    stats := .working, rSize := 0, wSize := 0, wPos := 0 } } with hagain
  have hstarted : (again.performAll [.asyncReadUntil]).Started pSock :=
    ⟨rfl, rfl, rfl, rfl, rfl, by simp [Session.performAll, Session.perform, hagain, hops,
      FrontConn.connResetNetwork]⟩
  refine ⟨again.performAll [.asyncReadUntil],
    Session.performAll ⟨conn, [], []⟩ [.setTcpNodelay, .asyncReadUntil],
    ⟨x.conn.pBuffer, x.conn.pWrite, x.conn.parser⟩,
    ⟨CharVec.zeros (16 * 1024), CharVec.zeros (16 * 1024), HttpParser.init⟩, conn,
    launch_eq _ [] env rfl, launch_eq ⟨(FrontConn.make pSock env.now).conn, [], []⟩
      [.setTcpNodelay] env rfl, rfl, rfl, hstarted.ok, ?_, ?_, ?_⟩
  · rw [hstarted.ops]
    rfl
  · exact ⟨hbuffer, hwrite, fun _ hi => absurd hi (Nat.not_lt_zero _),
      fun _ hi => absurd hi (Nat.not_lt_zero _), fun _ hf => hf.elim, by simp⟩
  · rw [hstarted.ops]
    simp [OpKind.Backed]

namespace Server

variable {s t u : Server} {sock : SockId} {c : ConnId} {cached : List ConnId}

theorem acceptStep_inserted (hi : t.accept = .inserted c) (hu : t.acceptStep = .ok u) :
    u.conns c = Session.performAll { t.conns c with conn := { (t.conns c).conn with
      stats := .working, rSize := 0, wSize := 0, wPos := 0, touchTime := t.now } }
        [.asyncReadUntil] := by
  simp only [acceptStep, hi] at hu
  split at hu
  · cases hu
  next h hstart =>
    obtain ⟨-, rfl⟩ := Handling.start_eq_ok hstart
    obtain rfl := Except.ok.inj hu
    simp only [setConn, Function.update_self]
    rfl

/-- The accept handler gives the socket to the first cached object,
in one critical section. -/
theorem accept_recycles (hs : s.accept = .tested sock) (hc : s.cachedConns = c :: cached)
    (ht : s.acceptStep = .ok t) (hu : t.acceptStep = .ok u) :
    (s.conns c).launchAgain sock (.refusing s.now) = .ok (u.conns c, [.asyncReadUntil]) := by
  simp only [acceptStep, hs, hc] at ht
  split at ht
  · cases ht
  · split at ht
    · cases ht
    · obtain rfl := Except.ok.inj ht
      refine (launch_eq _ [] _ rfl).trans ?_
      rw [acceptStep_inserted rfl hu]
      simp only [emplace, setConn, Function.update_self]
      rfl

/-- Without a cached object it makes a new one, whose
constructor sets the option. -/
theorem accept_creates (hs : s.accept = .tested sock) (hc : s.cachedConns = [])
    (ht : s.acceptStep = .ok t) (hu : t.acceptStep = .ok u) :
    Session.launchNew sock (.refusing s.now) =
      .ok (u.conns s.nextConn, [.setTcpNodelay, .asyncReadUntil]) := by
  simp only [acceptStep, hs, hc] at ht
  split at ht
  · cases ht
  · obtain rfl := Except.ok.inj ht
    refine (launch_eq ⟨(FrontConn.make sock s.now).conn, [], []⟩ [.setTcpNodelay] _ rfl).trans ?_
    rw [acceptStep_inserted rfl hu]
    simp only [emplace, setConn, Function.update_self]
    rfl

end Server

/-- What tells two launches apart is the option of the socket, which is
not set the second time. -/
theorem not_interchangeable {old new : Session} :
    ¬ Interchangeable (old, [.asyncReadUntil]) (new, [.setTcpNodelay, .asyncReadUntil]) := by
  intro h
  have hnodelay := h.options.mpr (by simp)
  simp at hnodelay

namespace Server

variable {cfg : Config} {s : Server} {moves : List (Move Server Label)} {c : ConnId}
variable {todo : Finset ConnId} {w : FrontConn}

/-- After every history that ends with its washing, an object that is used
again behaves as a new one on every later sequence of events, but the options
of its socket are not set. -/
theorem recycled_differs (hr : Run (step cfg) init moves s) (hm : s.manage = .item c .room todo)
    (hw : (s.conns c).conn.connWashWhite = .ok w) (pSock : SockId) (env : Env) : ∃ old new,
      Session.launchAgain { s.conns c with conn := w } pSock env = .ok old ∧
      Session.launchNew pSock env = .ok new ∧ ¬ Interchangeable old new ∧
      old.1.view = new.1.view ∧
      ∀ events, SameUntilFreed (old.1.observe events) (new.1.observe events) := by
  have hretiring : s.manage.Retiring c := ⟨.room, by rw [hm]; rfl, by decide⟩
  obtain ⟨hops, -, -⟩ := (sound_of_run hr).lifecycle.retired c (.inr hretiring)
  obtain ⟨old, new, a, b, conn, hold, hnew, hrenewed⟩ :=
    launches (x := { s.conns c with conn := w }) hw hops pSock env
  exact ⟨_, _, hold, hnew, not_interchangeable, hrenewed.view, hrenewed.observe⟩

def aboutToWash : List Label := failedRead ++ List.replicate 6 (.manage 0)

theorem aboutToWash_reaches : ∃ moves s, Run (step smallConfig) init moves s ∧
    s.manage = .item 0 .room ∅ ∧ (s.conns 0).ops = [] ∧
    ∃ w, (s.conns 0).conn.connWashWhite = .ok w := by
  obtain ⟨moves, s, hr, -, hmanage, hops, hstats⟩ :=
    run_of_reaches (step smallConfig) init aboutToWash
      (p := fun s => s.manage = .item 0 .room ∅ ∧ (s.conns 0).ops = [] ∧
        (s.conns 0).conn.stats ≠ .working) (by decide +kernel)
  exact ⟨moves, s, hr, hmanage, hops, _, if_neg hstats⟩

theorem recycled_differs_failed : ∃ moves s w, Run (step smallConfig) init moves s ∧
    s.manage = .item 0 .room ∅ ∧ (s.conns 0).conn.connWashWhite = .ok w ∧ ∃ old new,
      Session.launchAgain { s.conns 0 with conn := w } 1 (.refusing 0) = .ok old ∧
      Session.launchNew 1 (.refusing 0) = .ok new ∧ ¬ Interchangeable old new ∧
      old.1.view = new.1.view ∧
      ∀ events, SameUntilFreed (old.1.observe events) (new.1.observe events) := by
  obtain ⟨moves, s, hr, hm, -, w, hw⟩ := aboutToWash_reaches
  exact ⟨moves, s, w, hr, hm, hw, recycled_differs hr hm hw 1 (.refusing 0)⟩

/-- The second client of an object has no `TCP_NODELAY` on its
socket, unlike the first one. -/
theorem second_client_delayed : ∃ moves s w, Run (step smallConfig) init moves s ∧
    s.manage = .item 0 .room ∅ ∧ (s.conns 0).conn.connWashWhite = .ok w ∧ ∃ old new,
      Session.launchAgain { s.conns 0 with conn := w } 1 (.refusing 0) = .ok old ∧
      Session.launchNew 1 (.refusing 0) = .ok new ∧ ¬ Interchangeable old new := by
  obtain ⟨moves, s, hr, hm, hops, w, hw⟩ := aboutToWash_reaches
  obtain ⟨old, new, a, b, conn, hold, hnew, -⟩ :=
    launches (x := { s.conns 0 with conn := w }) hw hops 1 (.refusing 0)
  exact ⟨moves, s, w, hr, hm, hw, _, _, hold, hnew, not_interchangeable⟩

end Server

end Ailawd
