import Ailawd.Server.Recycling

/-!
# Isolation of the clients that share an object

With every handler, tick and pass taken as one step, a connection is recycled only
when nothing of its client is left: no operation, no handler, no removal request.
`Logged` is the history that this gives a served connection: its latest insertion by
the accept handler, on a socket that the object never had before, and an event of
that socket or an expiry behind every later request for its removal.

The one exception is a request without a body, which `read_body_handler` takes for a
read error; `HasBody` excludes it.
-/

namespace Ailawd

open Transition ByteString

section React

variable {x x' : Session} {i : Nat} {ec : ErrorCode} {data : ByteString} {env : Env}
variable {effects : List Effect} {op : Op}

private theorem acceptedExit_eq_fail {p : HttpParser} {additional : Nat}
    (h : acceptedExit p additional = .fail) : p.contentLength = 0 := by
  simp only [acceptedExit] at h
  split at h
  · cases h
  next hge =>
    split at h
    next hzero =>
      rw [hzero] at hge
      exact Nat.eq_zero_of_not_pos hge
    · cases h

private theorem headExit_eq_fail {c : FrontConn} {n : Nat} (hn : n ≠ 0)
    (h : headExit c .success n = .fail) :
    ∃ p, c.parser.parseRequest c.request = (true, p) ∧ p.isPost = true ∧
      p.acceptsUri = true ∧ p.contentLength = 0 := by
  simp only [headExit, ne_eq, hn, not_false_eq_true, and_self, if_true] at h
  split at h
  next haccepted =>
    simp only [Bool.and_eq_true] at haccepted
    obtain ⟨⟨hparsed, hpost⟩, huri⟩ := haccepted
    exact ⟨_, Prod.ext hparsed rfl, hpost, huri, acceptedExit_eq_fail h⟩
  · cases h

private theorem exit_operationAborted (kind : OpKind) (c : FrontConn) (data : ByteString) :
    kind.exit c .operationAborted data ≠ .fail := by
  cases kind <;> simp [OpKind.exit, headExit, bodyExit, writeExit]

/-- A handler reports an error after an error code, or for an accepted request
that announces no body. -/
theorem exit_eq_fail (hx : x.Ok) (hop : x.ops[i]? = some op)
    (hexit : op.kind.exit x.conn ec data = .fail)
    (hr : x.react (.complete i ec data env) = .ok (x', effects)) :
    ec = .other ∨ ec = .success ∧ op.kind = .readHead ∧
      ∃ p, x.conn.parser.parseRequest (x.conn.request ++ data) = (true, p) ∧
        p.isPost = true ∧ p.acceptsUri = true ∧ p.contentLength = 0 := by
  cases ec with
  | other => exact .inl rfl
  | operationAborted => exact absurd hexit (exit_operationAborted _ _ _)
  | success =>
      refine .inr ⟨rfl, ?_⟩
      have hdeliver := react_complete_deliver hop hr
      have hnonempty := hx.nonempty op (List.mem_of_getElem? hop)
      cases hkind : op.kind with
      | readHead =>
          refine ⟨rfl, ?_⟩
          rw [hkind] at hdeliver hexit
          obtain ⟨j, hj, -⟩ := deliver_readHead hdeliver
          simp only [OpKind.exit, if_true, hj, Option.map_some, Option.getD_some] at hexit
          exact headExit_eq_fail (by omega) hexit
      | readBody offset len =>
          rw [hkind] at hdeliver hexit hnonempty
          obtain ⟨hlength, -⟩ := deliver_readBody hdeliver
          have hne : data.length ≠ 0 := by
            rw [hlength]
            exact Nat.pos_iff_ne_zero.mp hnonempty
          simp only [OpKind.exit, bodyExit, ne_eq, hne, not_false_eq_true, and_self,
            if_true] at hexit
          split at hexit <;> cases hexit
      | write w =>
          rw [hkind] at hdeliver hexit hnonempty
          obtain ⟨-, hlength, -⟩ := deliver_write hdeliver
          have hne : w.wire.length ≠ 0 := by
            rw [hlength]
            exact Nat.pos_iff_ne_zero.mp hnonempty
          simp [OpKind.exit, writeExit, hne] at hexit

end React

/-- The tick has decided to remove the connection and has not yet asked for it.
The shutdown and the mark lie in between. -/
def TickPc.condemned : TickPc → Option ConnId
  | .exam c .expired _ => some c
  | .exam c .shut _ => some c
  | .exam c .marked _ => some c
  | _ => none

theorem TickPc.conn_of_condemned {tick : TickPc} {c : ConnId} (h : tick.condemned = some c) :
    tick.conn = some c := by
  cases tick with
  | exam d stage b => cases stage <;> first | exact h | cases h
  | _ => cases h

def Label.inHandler : Label → Bool
  | .handler _ => true
  | .clock _ => true
  | _ => false

def Label.inTick : Label → Bool
  | .tick _ => true
  | .clock _ => true
  | _ => false

def Label.inPass : Label → Bool
  | .manage _ => true
  | .clock _ => true
  | _ => false

namespace Server

variable {cfg : Config} {s t : Server} {l : Label} {c : ConnId} {sock : SockId}
variable {moves : List (Move Server Label)}

/-- A handler, a tick or a pass that has begun is alone until its end. The
order of these is free. -/
structure Atomic (s : Server) (l : Label) : Prop where
  handler : s.pushing ∪ s.notifying ≠ ∅ → l.inHandler = true
  tick : s.tick ≠ .idle → l.inTick = true
  pass : s.manage.passing = true → l.inPass = true

instance (s : Server) (l : Label) : Decidable (s.Atomic l) :=
  decidable_of_iff ((s.pushing ∪ s.notifying ≠ ∅ → l.inHandler = true) ∧
    (s.tick ≠ .idle → l.inTick = true) ∧ (s.manage.passing = true → l.inPass = true))
    ⟨fun ⟨hh, ht, hp⟩ => ⟨hh, ht, hp⟩, fun ⟨hh, ht, hp⟩ => ⟨hh, ht, hp⟩⟩

theorem Atomic.noRace (h : s.Atomic l) : NoRace cfg s l := by
  constructor
  · rintro sock c cached rfl - - htick
    have hidle : s.tick ≠ .idle := by
      intro heq
      rw [heq] at htick
      cases htick
    cases h.tick hidle
  · rintro d c b rfl - - hwill
    have hpassing : s.manage.passing = true := by
      obtain ⟨stage, hitem, -⟩ := hwill.item
      cases hm : s.manage with
      | item d stage todo => rfl
      | _ => rw [hm] at hitem; cases hitem
    cases h.pass hpassing

/-- No head of an accepted request announces an empty body, which would be
taken for an error. -/
def HasBody (s : Server) (l : Label) : Prop :=
  ∀ c i data env op p, l = .io c (.complete i .success data env) →
    (s.conns c).ops[i]? = some op → op.kind = .readHead →
    (s.conns c).conn.parser.parseRequest ((s.conns c).conn.request ++ data) = (true, p) →
    p.isPost = true → p.acceptsUri = true → p.contentLength ≠ 0

def Inserts (m : Move Server Label) (c : ConnId) (sock : SockId) : Prop :=
  m.label = .accept ∧ m.pre.accept = .tested sock ∧ m.post.accept = .inserted c

/-- A read or write on this socket ends with an error, whatever it is. -/
def SocketFails (m : Move Server Label) (c : ConnId) (sock : SockId) : Prop :=
  ∃ i data env op, m.label = .io c (.complete i .other data env) ∧
    (m.pre.conns c).ops[i]? = some op ∧ op.sock = sock

/-- A tick finds the connection expired, and will remove it. -/
def Expires (cfg : Config) (m : Move Server Label) (c : ConnId) : Prop :=
  ∃ d b, m.label = .tick d ∧ m.pre.tick = .exam c .sawOther b ∧ m.pre.touchedOut cfg c

/-- The removal of the connection is under way up to the pending set. A pass
takes it up from there. -/
def Requested (s : Server) (c : ConnId) : Prop :=
  c ∈ s.pushing ∨ c ∈ s.pendingToRemove ∨ s.tick.condemned = some c

theorem Action.mem_frontConns (ha : Action cfg s l t) (hc : c ∈ t.frontConns) :
    c ∈ s.frontConns ∨ ∃ sock, Inserts ⟨s, l, t⟩ c sock := by
  cases ha with
  | recycle ht _ _ _ =>
      obtain rfl | hc := Finset.mem_insert.mp hc
      · exact .inr ⟨_, rfl, ht, rfl⟩
      · exact .inl hc
  | create ht _ _ =>
      obtain rfl | hc := Finset.mem_insert.mp hc
      · exact .inr ⟨_, rfl, ht, rfl⟩
      · exact .inl hc
  | erase _ => exact .inl (Finset.mem_of_mem_erase hc)
  | _ => exact .inl hc

/-- Only the item that a pass has tested leaves the map, so
it was requested before. -/
theorem Action.erases (ha : Action cfg s l t) (hc : c ∈ s.frontConns) (hgone : c ∉ t.frontConns) :
    ∃ todo, s.manage = .item c .tested todo := by
  cases ha with
  | recycle _ _ _ _ => exact absurd (Finset.mem_insert_of_mem hc) hgone
  | create _ _ _ => exact absurd (Finset.mem_insert_of_mem hc) hgone
  | @erase _ d todo hm =>
      refine ⟨todo, ?_⟩
      by_cases hcd : c = d
      · rw [hcd, hm]
      · exact absurd (Finset.mem_erase.mpr ⟨hcd, hc⟩) hgone
  | _ => exact absurd hc hgone

/-- The socket of an object changes when a pass washes it and when the
accept handler takes it. -/
theorem Action.pSock (ha : Action cfg s l t) (hs : s.Sound cfg) (c : ConnId) :
    (t.conns c).conn.pSock = (s.conns c).conn.pSock ∨
      (t.conns c).conn.pSock = none ∧ c ∉ s.frontConns ∨
      ∃ sock, Inserts ⟨s, l, t⟩ c sock ∧ (t.conns c).conn.pSock = some sock := by
  have hupdate : ∀ {d : ConnId} {x : Session}, x.conn.pSock = (s.conns d).conn.pSock →
      (Function.update s.conns d x c).conn.pSock = (s.conns c).conn.pSock := by
    intro d x hx
    by_cases hcd : c = d
    · rw [hcd, Function.update_self, hx]
    · rw [Function.update_of_ne hcd]
  cases ha with
  | @recycle sock d cached ht _ _ _ =>
      by_cases hcd : c = d
      · refine .inr (.inr ⟨sock, ⟨rfl, ht, congrArg _ hcd.symm⟩, ?_⟩)
        simp [emplace, setConn, hcd, recycled, FrontConn.connResetNetwork]
      · exact .inl (by simp [emplace, setConn, Function.update_of_ne hcd])
  | @create sock ht _ _ =>
      by_cases hcd : c = s.nextConn
      · refine .inr (.inr ⟨sock, ⟨rfl, ht, congrArg _ hcd.symm⟩, ?_⟩)
        simp [emplace, setConn, hcd, fresh, FrontConn.make]
      · exact .inl (by simp [emplace, setConn, Function.update_of_ne hcd])
  | @start d _ hi hg =>
      obtain ⟨sock, hsock, hstarted, -⟩ := start_ok (hs.lifecycle.inserted d hi) hg
      exact .inl (hupdate (hstarted.pSock.trans hsock.symm))
  | @io d e x effects _ hr => exact .inl (hupdate (react_pSock (hs.lifecycle.ok d) hr))
  | shut _ _ => exact .inl (hupdate rfl)
  | mark _ => exact .inl (hupdate rfl)
  | @wash _ d todo conn hm hw =>
      by_cases hcd : c = d
      · refine .inr (.inl ⟨?_, ?_⟩)
        · simp only [FrontConn.connWashWhite] at hw
          split at hw
          · cases hw
          · obtain rfl := Except.ok.inj hw
            simp [setConn, hcd]
        · rw [hcd]
          have hitem : ItemAt cfg s.frontConns s.cachedConns d .room :=
            hs.accounted.item d .room (by rw [hm]; rfl)
          exact hitem.1
      · exact .inl (by simp [setConn, Function.update_of_ne hcd])
  | _ => exact .inl rfl

/-- An inserted connection is on the accepted socket and nobody wants it
removed: what was said of the old socket is done with. -/
theorem Action.inserts (ha : Action cfg s l t) (hs : s.Sound cfg)
    (hins : Inserts ⟨s, l, t⟩ c sock) :
    (t.conns c).conn.pSock = some sock ∧ ¬ t.Requested c := by
  obtain ⟨hlabel, haccept, hpost⟩ := hins
  change l = .accept at hlabel
  change s.accept = .tested sock at haccept
  change t.accept = .inserted c at hpost
  cases ha with
  | @recycle sock' d cached ht _ hcached hone =>
      obtain rfl : sock' = sock := AcceptPc.tested.inj (ht.symm.trans haccept)
      obtain rfl : d = c := AcceptPc.inserted.inj hpost
      obtain ⟨-, hpending, -, hrunning, htick, -⟩ :=
        alone_of_useCount_one hone (hcached ▸ List.mem_cons_self)
      refine ⟨by simp [emplace, setConn, recycled, FrontConn.connResetNetwork], ?_⟩
      rintro (hc | hc | hc)
      · exact hrunning (Finset.mem_union_left _ hc)
      · exact hpending hc
      · exact htick (TickPc.conn_of_condemned hc)
  | @create sock' ht _ _ =>
      obtain rfl : sock' = sock := AcceptPc.tested.inj (ht.symm.trans haccept)
      obtain rfl : s.nextConn = c := AcceptPc.inserted.inj hpost
      refine ⟨by simp [emplace, setConn, fresh, FrontConn.make], ?_⟩
      rintro (hc | hc | hc)
      · exact Nat.lt_irrefl _ (hs.known.running _ (Finset.mem_union_left _ hc))
      · exact Nat.lt_irrefl _ (hs.known.pending _ hc)
      · exact Nat.lt_irrefl _ (hs.known.tick _ (TickPc.conn_of_condemned hc))
  | start hi _ =>
      rw [hi] at haccept
      cases haccept
  | listen hl =>
      rw [hl] at haccept
      cases haccept
  | _ => cases hlabel

/-- Only an error of the current socket or an expiry asks for the removal. One
case for each action. -/
theorem Action.requested (ha : Action cfg s l t) (hs : s.Sound cfg) (hb : s.HasBody l)
    (hsock : (s.conns c).conn.pSock = some sock) (h : t.Requested c) :
    s.Requested c ∨ SocketFails ⟨s, l, t⟩ c sock ∨ Expires cfg ⟨s, l, t⟩ c := by
  simp only [Requested] at h
  cases ha with
  | @io d e x effects _ hr =>
      obtain hc | hc := h
      · change c ∈ (if _ then insert d s.pushing else s.pushing) at hc
        split at hc
        next hpush =>
          obtain rfl | hc := Finset.mem_insert.mp hc
          · obtain ⟨i, ec, data, env, op, he, hop, hexit⟩ :=
              react_pushes (hs.lifecycle.ok c) hr hpush
            cases e with
            | send i n => cases he
            | complete i' ec' data' env' =>
                obtain ⟨rfl, rfl, rfl, rfl⟩ := Event.complete.inj he
                have hcurrent := (hs.lifecycle.ok c).sock op (List.mem_of_getElem? hop)
                obtain rfl : sock = op.sock := Option.some.inj (hsock.symm.trans hcurrent)
                obtain rfl | ⟨rfl, hkind, p, hparse, hpost, huri, hzero⟩ :=
                  exit_eq_fail (hs.lifecycle.ok c) hop hexit hr
                · exact .inr (.inl ⟨i', data', env', op, rfl, hop, rfl⟩)
                · exact absurd hzero
                    (hb c i' data' env' op p rfl hop hkind hparse hpost huri)
          · exact .inl (.inl hc)
        · exact .inl (.inl hc)
      · exact .inl (.inr hc)
  | @push d hd _ =>
      obtain hc | hc | hc := h
      · exact .inl (.inl (Finset.mem_of_mem_erase hc))
      · obtain rfl | hc := Finset.mem_insert.mp hc
        · exact .inl (.inl hd)
        · exact .inl (.inr (.inl hc))
      · exact .inl (.inr (.inr hc))
  | @expire e d b ht hold =>
      obtain hc | hc | hc := h
      · exact .inl (.inl hc)
      · exact .inl (.inr (.inl hc))
      · obtain rfl : d = c := Option.some.inj hc
        exact .inr (.inr ⟨e, b, rfl, ht, hold⟩)
  | shut ht _ => exact .inl (h.imp_right (Or.imp_right fun hc => by rw [ht]; exact hc))
  | mark ht => exact .inl (h.imp_right (Or.imp_right fun hc => by rw [ht]; exact hc))
  | @tickPush _ d b ht _ =>
      obtain hc | hc | hc := h
      · exact .inl (.inl hc)
      · obtain rfl | hc := Finset.mem_insert.mp hc
        · exact .inl (.inr (.inr (by rw [ht]; rfl)))
        · exact .inl (.inr (.inl hc))
      · cases hc
  | endPass _ _ =>
      obtain hc | hc | hc := h
      · exact .inl (.inl hc)
      · exact absurd hc (Finset.notMem_empty c)
      · exact .inl (.inr (.inr hc))
  | tickBegin _ => exact .inl (h.imp_right fun hc => .inl (hc.resolve_right nofun))
  | tickDone _ _ => exact .inl (h.imp_right fun hc => .inl (hc.resolve_right nofun))
  | tickDead _ _ _ => exact .inl (h.imp_right fun hc => .inl (hc.resolve_right nofun))
  | tickLock _ _ _ => exact .inl (h.imp_right fun hc => .inl (hc.resolve_right nofun))
  | sawPending _ _ => exact .inl (h.imp_right fun hc => .inl (hc.resolve_right nofun))
  | sawOther _ _ => exact .inl (h.imp_right fun hc => .inl (hc.resolve_right nofun))
  | dropCached _ _ => exact .inl (h.imp_right fun hc => .inl (hc.resolve_right nofun))
  | keep _ _ => exact .inl (h.imp_right fun hc => .inl (hc.resolve_right nofun))
  | release _ => exact .inl (h.imp_right fun hc => .inl (hc.resolve_right nofun))
  | rotate _ _ => exact .inl (h.imp_right fun hc => .inl (hc.resolve_right nofun))
  | _ => exact .inl h

end Server

def AcceptPc.unused (accept : AcceptPc) (nextSock : SockId) : SockId :=
  match accept with
  | .tested sock => sock
  | _ => nextSock

/-- Sockets are given out in the order of their numbers, so an old
one does not come back. -/
structure SocketsUsed (conns : ConnId → Session) (accept : AcceptPc) (nextSock : SockId) :
    Prop where
  tested : ∀ sock, accept = .tested sock → sock < nextSock
  below : ∀ c k, (conns c).conn.pSock = some k → k < accept.unused nextSock

namespace Server

variable {cfg : Config} {s t : Server} {l : Label} {c : ConnId} {sock : SockId}
variable {moves : List (Move Server Label)}

def UsesSockets (s : Server) : Prop := SocketsUsed s.conns s.accept s.nextSock

/-- The next socket that an object can be given; those
before it have been used. -/
def unusedSock (s : Server) : SockId := s.accept.unused s.nextSock

theorem Action.unusedSock_le (ha : Action cfg s l t) (h : s.UsesSockets) :
    s.unusedSock ≤ t.unusedSock := by
  simp only [Server.unusedSock]
  cases ha with
  | acceptError hl => rw [hl]; exact Nat.le_refl _
  | acceptRefused hl _ => rw [hl]; exact Nat.le_succ _
  | acceptTested hl _ => rw [hl]; exact Nat.le_refl _
  | recycle ht _ _ _ => rw [ht]; exact Nat.le_of_lt (h.tested _ ht)
  | create ht _ _ => rw [ht]; exact Nat.le_of_lt (h.tested _ ht)
  | start hi _ => rw [hi]; exact Nat.le_refl _
  | listen hl => rw [hl]; exact Nat.le_refl _
  | _ => exact Nat.le_refl _

/-- An insertion takes the next socket, and there is a next one after it. -/
theorem Inserts.unusedSock (hins : Inserts ⟨s, l, t⟩ c sock) (ha : Action cfg s l t)
    (h : s.UsesSockets) : s.unusedSock = sock ∧ sock < t.unusedSock := by
  obtain ⟨hlabel, haccept, hpost⟩ := hins
  change l = .accept at hlabel
  change s.accept = .tested sock at haccept
  have hlt := h.tested sock haccept
  refine ⟨by rw [Server.unusedSock, haccept]; rfl, ?_⟩
  cases ha with
  | recycle _ _ _ _ => exact hlt
  | create _ _ _ => exact hlt
  | start hi _ => rw [hi] at haccept; cases haccept
  | listen hl => rw [hl] at haccept; cases haccept
  | _ => cases hlabel

theorem UsesSockets.action (h : s.UsesSockets) (hs : s.Sound cfg) (ha : Action cfg s l t) :
    t.UsesSockets := by
  have hle := ha.unusedSock_le h
  constructor
  · intro k hk
    cases ha with
    | acceptTested _ _ =>
        cases hk
        exact Nat.lt_succ_self _
    | acceptError _ => cases hk
    | acceptRefused hl _ => rw [show s.accept = _ from hk] at hl; cases hl
    | recycle _ _ _ _ => cases hk
    | create _ _ _ => cases hk
    | start _ _ => cases hk
    | listen _ => cases hk
    | _ => exact h.tested k hk
  · intro c k hk
    obtain hsame | ⟨hnone, -⟩ | ⟨sock, hins, hsock⟩ := ha.pSock hs c
    · rw [hsame] at hk
      exact Nat.lt_of_lt_of_le (h.below c k hk) hle
    · rw [hnone] at hk
      cases hk
    · obtain rfl := Option.some.inj (hsock.symm.trans hk)
      exact (hins.unusedSock ha h).2

theorem usesSockets_init : UsesSockets init :=
  ⟨fun _ hk => (nomatch hk), fun _ _ hk => nomatch hk⟩

theorem sockets_of_run (hr : Run (step cfg) init moves s) : s.Sound cfg ∧ s.UsesSockets :=
  hr.invariant (I := fun s => s.Sound cfg ∧ s.UsesSockets) ⟨sound_init, usesSockets_init⟩
    fun _ _ _ h hs => ⟨h.1.action (step_action hs), h.2.action h.1 (step_action hs)⟩

/-- A socket that an object has had is older than the next one, in
whatever state it had it. -/
theorem pSock_lt_of_visits {u : Server} {k : SockId} (hr : Run (step cfg) init moves s)
    (hu : Visits moves s u) (hk : (u.conns c).conn.pSock = some k) : k < s.unusedSock := by
  induction hr with
  | nil =>
      obtain rfl | ⟨m, hm, -⟩ := hu
      · cases hk
      · cases hm
  | @snoc moves s l t hr hs ih =>
      obtain ⟨hsound, huses⟩ := sockets_of_run hr
      have ha := step_action hs
      obtain rfl | ⟨m, hm, rfl⟩ := hu
      · exact (huses.action hsound ha).below c k hk
      · refine Nat.lt_of_lt_of_le (ih ?_) (ha.unusedSock_le huses)
        obtain hm | hm := List.mem_append.mp hm
        · exact .inr ⟨m, hm, rfl⟩
        · exact .inl (congrArg Move.pre (List.mem_singleton.mp hm))

/-- From an insertion on, an object is on its new socket, a later one, or none.
Induction on the run. -/
theorem pSock_ge_of_run {back : List (Move Server Label)} (hr : Run (step cfg) s back t)
    (hs : s.Sound cfg ∧ s.UsesSockets) (hlt : sock < s.unusedSock)
    (hsock : (s.conns c).conn.pSock = some sock) :
    ∀ k, (t.conns c).conn.pSock = some k → sock ≤ k := by
  have hinv : (t.Sound cfg ∧ t.UsesSockets) ∧ sock < t.unusedSock ∧
      ∀ k, (t.conns c).conn.pSock = some k → sock ≤ k := by
    refine hr.invariant (I := fun t => (t.Sound cfg ∧ t.UsesSockets) ∧ sock < t.unusedSock ∧
      ∀ k, (t.conns c).conn.pSock = some k → sock ≤ k) ⟨hs, hlt, fun k hk => ?_⟩ ?_
    · exact Nat.le_of_eq (Option.some.inj (hsock.symm.trans hk))
    · rintro s l t ⟨⟨hsound, huses⟩, hlt, hge⟩ hstep
      have ha := step_action hstep
      refine ⟨⟨hsound.action ha, huses.action hsound ha⟩,
        Nat.lt_of_lt_of_le hlt (ha.unusedSock_le huses), fun k hk => ?_⟩
      obtain hsame | ⟨hnone, -⟩ | ⟨k', hins, hk'⟩ := ha.pSock hsound c
      · exact hge k (hsame ▸ hk)
      · rw [hnone] at hk
        cases hk
      · obtain rfl := Option.some.inj (hk'.symm.trans hk)
        exact Nat.le_of_lt ((hins.unusedSock ha huses).1 ▸ hlt)
  exact hinv.2.2

/-- The accept handler inserted the connection last before
`since`, on this socket. -/
def InsertedBefore (moves : List (Move Server Label)) (c : ConnId) (sock : SockId)
    (since : List (Move Server Label)) : Prop :=
  ∃ before a, moves = before ++ a :: since ∧ Inserts a c sock ∧ ∀ e ∈ since, ∀ k, ¬ Inserts e c k

/-- An error of the socket or an expiry of the connection:
what explains an erasure. -/
def Ends (cfg : Config) (c : ConnId) (sock : SockId) (e : Move Server Label) : Prop :=
  SocketFails e c sock ∨ Expires cfg e c

theorem InsertedBefore.snoc {since : List (Move Server Label)} {m : Move Server Label}
    (h : InsertedBefore moves c sock since) (hm : ∀ k, ¬ Inserts m c k) :
    InsertedBefore (moves ++ [m]) c sock (since ++ [m]) := by
  obtain ⟨before, a, rfl, hins, hlatest⟩ := h
  refine ⟨before, a, by simp, hins, ?_⟩
  exact List.forall_mem_append.mpr ⟨hlatest, List.forall_mem_singleton.mpr hm⟩

/-- Every served connection is on the socket of its insertion, and something
has ended it since then if its removal is requested. -/
def Logged (cfg : Config) (moves : List (Move Server Label)) (s : Server) : Prop :=
  ∀ c ∈ s.frontConns, ∃ sock since, InsertedBefore moves c sock since ∧
    (s.conns c).conn.pSock = some sock ∧ (s.Requested c → ∃ e ∈ since, Ends cfg c sock e)

theorem Logged.action (h : Logged cfg moves s) (hs : s.Sound cfg) (hb : s.HasBody l)
    (ha : Action cfg s l t) : Logged cfg (moves ++ [⟨s, l, t⟩]) t := by
  intro c hc
  by_cases hins : ∃ sock, Inserts ⟨s, l, t⟩ c sock
  · obtain ⟨sock, hins⟩ := hins
    obtain ⟨hsock, hclean⟩ := ha.inserts hs hins
    refine ⟨sock, [], ⟨moves, _, rfl, hins, ?_⟩, hsock, fun hreq => absurd hreq hclean⟩
    exact fun e he => absurd he List.not_mem_nil
  · have hfront : c ∈ s.frontConns := (ha.mem_frontConns hc).resolve_right hins
    obtain ⟨sock, since, hbefore, hsock, hwhy⟩ := h c hfront
    have hsame : (t.conns c).conn.pSock = (s.conns c).conn.pSock := by
      obtain hsame | ⟨-, hgone⟩ | ⟨k, hk, -⟩ := ha.pSock hs c
      · exact hsame
      · exact absurd hfront hgone
      · exact absurd ⟨k, hk⟩ hins
    refine ⟨sock, _, hbefore.snoc fun k hk => hins ⟨k, hk⟩, hsame.trans hsock, fun hreq => ?_⟩
    obtain hold | hnew := ha.requested hs hb hsock hreq
    · obtain ⟨e, he, hends⟩ := hwhy hold
      exact ⟨e, List.mem_append_left _ he, hends⟩
    · exact ⟨_, List.mem_append_right _ (List.mem_singleton_self _), hnew⟩

theorem logged_of_run (hr : Run (step cfg) init moves s)
    (hb : ∀ m ∈ moves, HasBody m.pre m.label) : Logged cfg moves s := by
  induction hr with
  | nil => exact fun c hc => absurd hc (Finset.notMem_empty c)
  | @snoc moves s l t hr hs ih =>
      obtain ⟨hold, hnew⟩ := List.forall_mem_append.mp hb
      exact (ih hold).action (sound_of_run hr) (hnew _ (List.mem_singleton_self _))
        (step_action hs)

/-- No completion of an operation on a socket that the object had
before it was inserted again. -/
def OldSocketsSilent (moves : List (Move Server Label)) : Prop :=
  ∀ front a mid m back c sock i ec data env op u, moves = front ++ a :: (mid ++ m :: back) →
    Inserts a c sock → m.label = .io c (.complete i ec data env) →
    (m.pre.conns c).ops[i]? = some op → Visits front a.pre u →
      (u.conns c).conn.pSock ≠ some op.sock

/-- A connection that leaves the map has failed or expired since it was
inserted, and not in an earlier life. -/
def ErasuresExplained (cfg : Config) (moves : List (Move Server Label)) : Prop :=
  ∀ front m back c, moves = front ++ m :: back → c ∈ m.pre.frontConns → c ∉ m.post.frontConns →
    ∃ sock since, InsertedBefore front c sock since ∧ ∃ e ∈ since, Ends cfg c sock e

theorem oldSocketsSilent_of_run (hr : Run (step cfg) init moves s) : OldSocketsSilent moves := by
  rintro front a mid m back c sock i ec data env op u rfl hins hlabel hop hu hold
  have ha := step_action (hr.step_of_mem a (by simp))
  obtain ⟨hsound, huses⟩ := sockets_of_run hr.before
  obtain ⟨hunused, hlt⟩ := hins.unusedSock ha huses
  have hbelow := pSock_lt_of_visits hr.before hu hold
  have hmid : Run (step cfg) a.post mid m.pre := hr.after.before
  have hafter : a.post.Sound cfg ∧ a.post.UsesSockets :=
    ⟨hsound.action ha, huses.action hsound ha⟩
  obtain ⟨hm, -⟩ := (hmid.invariant (I := fun s => s.Sound cfg ∧ s.UsesSockets) hafter
    fun _ _ _ h hs => ⟨h.1.action (step_action hs), h.2.action h.1 (step_action hs)⟩)
  have hcurrent := (hm.lifecycle.ok c).sock op (List.mem_of_getElem? hop)
  have hge := pSock_ge_of_run hmid hafter hlt (ha.inserts hsound hins).1 op.sock hcurrent
  exact absurd hge (Nat.not_le.mpr (hunused ▸ hbelow))

theorem erasuresExplained_of_run (hr : Run (step cfg) init moves s)
    (hb : ∀ m ∈ moves, HasBody m.pre m.label) : ErasuresExplained cfg moves := by
  rintro front m back c rfl hc hgone
  have hs := sound_of_run hr.before
  obtain ⟨todo, hitem⟩ := (step_action (hr.step_of_mem m (by simp))).erases hc hgone
  have hpending : c ∈ m.pre.pendingToRemove := by
    apply hs.supervised.pending
    rw [hitem]
    exact Finset.mem_insert_self c todo
  obtain ⟨sock, since, hbefore, -, hwhy⟩ :=
    logged_of_run hr.before (fun m hm => hb m (List.mem_append_left _ hm)) c hc
  exact ⟨sock, since, hbefore, hwhy (.inr (.inl hpending))⟩

/-- No state of an earlier client reaches a later one through recycling, as
long as no accepted request announces an empty body. -/
theorem recycling_isolates (hr : Run (step cfg) init moves s)
    (ha : ∀ m ∈ moves, Atomic m.pre m.label) (hb : ∀ m ∈ moves, HasBody m.pre m.label) :
    (∀ c stage todo, s.manage = .item c stage todo → stage = .room ∨ stage = .washed →
      (s.conns c).ops = [] ∧ (s.conns c).conn.stats ≠ .working) ∧
    (s.manage.passing = false → ∀ c ∈ s.cachedConns, c ∉ s.pendingToRemove) ∧
    OldSocketsSilent moves ∧ ErasuresExplained cfg moves := by
  have hs := sound_of_run hr
  refine ⟨fun c stage todo hm hstage => ?_, fun hpass c hc hpending => ?_,
    oldSocketsSilent_of_run hr, erasuresExplained_of_run hr hb⟩
  · have hretiring : s.manage.Retiring c := by
      rw [hm]
      obtain rfl | rfl := hstage
      · exact ⟨.room, rfl, by decide⟩
      · exact ⟨.washed, rfl, by decide⟩
    obtain ⟨hops, -⟩ := hs.lifecycle.retired c (.inr hretiring)
    refine ⟨hops, fun hworking => ?_⟩
    obtain ⟨op, hop, -⟩ := (hs.lifecycle.ok c).reading hworking
    rw [hops] at hop
    cases hop
  · have hx := isExclusive_of_run hr fun m hm => (ha m hm).noRace
    rw [hx.requests c hc hpending] at hpass
    cases hpass

def Quitting (l : Label) : Prop :=
  match l with
  | .io _ (.complete _ ec _ _) => ec ≠ .success
  | _ => True

instance (l : Label) : Decidable (Quitting l) :=
  match l with
  | .io _ (.complete _ _ _ _) => inferInstanceAs (Decidable (_ ≠ _))
  | .io _ (.send _ _) => .isTrue trivial
  | .clock _ | .accepted _ | .accept | .handler _ | .tick _ | .wake | .timeout | .manage _
  | .throws _ | .overlook =>
      .isTrue trivial

theorem Quitting.hasBody (h : Quitting l) : s.HasBody l := by
  rintro c i data env op p rfl
  exact absurd rfl h

/-- The statement for an object that is washed for the second
time, after two clients. -/
theorem recycling_isolates_washed_twice : ∃ moves s, Run (step smallConfig) init moves s ∧
    s.nextConn = 1 ∧ s.nextSock = 2 ∧ s.manage = .item 0 .washed ∅ ∧
    (∀ c stage todo, s.manage = .item c stage todo → stage = .room ∨ stage = .washed →
      (s.conns c).ops = [] ∧ (s.conns c).conn.stats ≠ .working) ∧
    (s.manage.passing = false → ∀ c ∈ s.cachedConns, c ∉ s.pendingToRemove) ∧
    OldSocketsSilent moves ∧ ErasuresExplained smallConfig moves := by
  obtain ⟨moves, s, hr, -, hconn, hsock, hm⟩ :=
    run_of_reaches (guarded (fun s l => Atomic s l ∧ Quitting l) (step smallConfig)) init
      (failedRead ++ List.replicate 9 (.manage 0) ++ failedRead ++ List.replicate 7 (.manage 0))
      (p := fun s => s.nextConn = 1 ∧ s.nextSock = 2 ∧ s.manage = .item 0 .washed ∅)
      (by decide +kernel)
  obtain ⟨hrun, hguard⟩ := hr.of_guarded
  exact ⟨moves, s, hrun, hconn, hsock, hm,
    recycling_isolates hrun (fun m hm => (hguard m hm).1) fun m hm => (hguard m hm).2.hasBody⟩

def bodylessRequest : List Label :=
  endedBy (.complete 0 .success (ofString "POST /analyse HTTP/1.1\r\n\r\n") (.refusing 0))

/-- A recycled object is erased again although no socket of it has failed and
it has not expired: both of its clients have sent a request without a body. -/
theorem bodyless_request_erased : ∃ moves s t,
    Run (step smallConfig) init (moves ++ [⟨s, .manage 0, t⟩]) t ∧
    (∀ m ∈ moves ++ [⟨s, .manage 0, t⟩], Atomic m.pre m.label) ∧
    s.nextConn = 1 ∧ (s.conns 0).conn.pSock = some 1 ∧ 0 ∈ s.frontConns ∧ 0 ∉ t.frontConns ∧
    (∀ m ∈ moves, ∀ sock, ¬ Ends smallConfig 0 sock m) ∧
    ¬ ErasuresExplained smallConfig (moves ++ [⟨s, .manage 0, t⟩]) := by
  obtain ⟨moves, s, hr, hlabels, hm, hlast, hconn, hsock, hfront⟩ :=
    run_of_reaches (guarded Atomic (step smallConfig)) init
      (bodylessRequest ++ List.replicate 9 (.manage 0) ++ bodylessRequest ++
        List.replicate 3 (.manage 0))
      (p := fun s => s.manage = .item 0 .tested ∅ ∧ Atomic s (.manage 0) ∧ s.nextConn = 1 ∧
        (s.conns 0).conn.pSock = some 1 ∧ 0 ∈ s.frontConns) (by decide +kernel)
  obtain ⟨hrun, hatomic⟩ := hr.of_guarded
  have hstep : step smallConfig s (.manage 0) =
      .ok { s with frontConns := s.frontConns.erase 0, manage := .item 0 .erased ∅ } := by
    simp [step, manageStep, passStep, hm]
  have hquiet : ∀ m ∈ moves, ∀ sock, ¬ Ends smallConfig 0 sock m := by
    intro m hmem sock hends
    have hlabel := List.mem_map_of_mem (f := Move.label) hmem
    rw [hlabels] at hlabel
    obtain ⟨i, data, env, op, hfails, -⟩ | ⟨d, b, hticks, -⟩ := hends
    · simp [hfails, bodylessRequest, endedBy] at hlabel
    · simp [hticks, bodylessRequest, endedBy] at hlabel
  have hgone : 0 ∉ s.frontConns.erase 0 := Finset.notMem_erase 0 _
  refine ⟨moves, s, _, hrun.snoc hstep, List.forall_mem_append.mpr
    ⟨hatomic, List.forall_mem_singleton.mpr hlast⟩, hconn, hsock, hfront, hgone, hquiet, ?_⟩
  intro hexplained
  obtain ⟨sock, since, ⟨before, a, rfl, -⟩, e, he, hends⟩ :=
    hexplained moves _ [] 0 rfl hfront hgone
  exact hquiet e (by simp [he]) sock hends

end Server

end Ailawd
