import Ailawd.Library.Simulation
import Ailawd.Server.Listening

/-!
# Handlers that run one at a time

The server with whole handlers and the server with split handlers agree: the states that the
first one reaches are those that the second one reaches by runs in which a handler, once
entered, is resumed until it returns. `Threads.finished` is the server after the rest of the
handler of a connection, and each turn of a handler leaves it as it is.
-/

namespace Ailawd

open ByteString Transition

namespace Handling

variable {env : Env} {h g : Handling} {es : List Effect}

/-- The same object, with earlier effects in front of its own. A turn of a
handler starts with none. -/
def after (es : List Effect) (h : Handling) : Handling := ⟨h.conn, es ++ h.effects⟩

theorem emit_after (e : Effect) : (h.after es).emit e = (h.emit e).after es := by
  simp [after, emit]

theorem withSocket_after (e : Effect) :
    (h.after es).withSocket e = (h.withSocket e).map (after es) := by
  simp only [withSocket]
  rw [show (h.after es).conn = h.conn from rfl]
  cases h.conn.pSock with
  | none => rfl
  | some sock => exact congrArg Except.ok (emit_after e)

theorem doReadHead_after : (h.after es).doReadHead env = (h.doReadHead env).map (after es) := by
  simp only [doReadHead]
  rw [show (h.after es).conn = h.conn from rfl]
  split
  · rfl
  · exact withSocket_after (h := h.touchSockTime env) _

theorem doReadBody_after : (h.after es).doReadBody env = (h.doReadBody env).map (after es) := by
  simp only [doReadBody]
  rw [show (h.after es).conn = h.conn from rfl]
  split
  · rfl
  · exact withSocket_after (h := h.touchSockTime env) _

theorem doWrite_after : (h.after es).doWrite env = (h.doWrite env).map (after es) := by
  simp only [doWrite]
  rw [show (h.after es).conn = h.conn from rfl]
  split
  · rfl
  · split
    · rfl
    · split
      · rfl
      · exact withSocket_after (h := h.touchSockTime env) _

theorem start_after : (h.after es).start env = (h.start env).map (after es) :=
  doReadHead_after (h := { h with conn := { h.conn with
    stats := .working, rSize := 0, wSize := 0, wPos := 0 } })

theorem writeReturn_after : (h.after es).writeReturn env = (h.writeReturn env).map (after es) := by
  simp only [writeReturn, doWrite_after]
  cases h.doWrite env with
  | error e => rfl
  | ok g => exact start_after

end Handling

namespace Rest

variable {env : Env} {h g : Handling} {rest rest' : Rest} {c : FrontConn} {es : List Effect}

/-- What is left of a handler does not look at what it has done, so the effects
of its turns can be put together afterwards. -/
theorem finish_after (rest : Rest) :
    rest.finish env (h.after es) = (rest.finish env h).map (Handling.after es) := by
  cases rest with
  | write => exact Handling.writeReturn_after
  | start => exact Handling.start_after
  | readHead => exact Handling.doReadHead_after
  | readBody => exact Handling.doReadBody_after
  | armHead | armBody => exact Handling.withSocket_after _
  | writeMore => exact Handling.doWrite_after
  | fail => simp [finish, Handling.notifyConnError, Handling.after, Except.map]
  | done => rfl

/-- The turns that are left, at most. Each turn but the last lowers the number,
which carries the inductions below. -/
def turns : Rest → Nat
  | .write => 4
  | .start => 3
  | .readHead => 2
  | .readBody => 2
  | .done => 0
  | _ => 1

theorem step_turns (hs : rest.step env h = .ok (g, rest')) (hne : rest ≠ .done) :
    rest'.turns < rest.turns := by
  cases rest with
  | done => exact absurd rfl hne
  | start =>
      obtain ⟨-, rfl⟩ := Prod.mk.inj (Except.ok.inj hs)
      decide
  | fail =>
      obtain ⟨-, rfl⟩ := Prod.mk.inj (Except.ok.inj hs)
      decide
  | readHead | readBody =>
      obtain ⟨-, heq⟩ | ⟨-, heq⟩ := Handling.testStats_cases env _ h
      all_goals
        obtain ⟨-, rfl⟩ := Prod.mk.inj (heq.symm.trans (Except.ok.inj hs))
        decide
  | _ =>
      obtain ⟨g', -, heq⟩ := map_eq_ok hs
      obtain ⟨-, rfl⟩ := Prod.mk.inj heq
      decide

/-- Induction along the turns of a handler: what holds after the last of them
and is kept backwards holds of every rest. -/
theorem turns_induction {C : Rest → Prop} (done : C .done)
    (step : ∀ rest, rest ≠ .done → (∀ rest', rest'.turns < rest.turns → C rest') → C rest)
    (rest : Rest) : C rest := by
  induction hn : rest.turns using Nat.strong_induction_on generalizing rest with
  | _ n ih =>
      by_cases hdone : rest = .done
      · exact hdone ▸ done
      · exact step rest hdone fun rest' hlt => ih _ (hn ▸ hlt) rest' rfl

theorem step_keeps (hs : rest.step env h = .ok (g, rest')) :
    g.conn.pSock = h.conn.pSock ∧ g.conn.pWrite = h.conn.pWrite := by
  have hwritten : ∀ {g : Handling}, h.doWrite env = .ok g →
      g.conn.pSock = h.conn.pSock ∧ g.conn.pWrite = h.conn.pWrite := by
    intro g hg
    obtain ⟨-, rfl⟩ | ⟨-, -, -, rfl⟩ := Handling.doWrite_cases hg
    · exact ⟨rfl, rfl⟩
    · exact ⟨rfl, rfl⟩
  cases rest with
  | write =>
      obtain ⟨g', hg, heq⟩ := map_eq_ok hs
      obtain ⟨rfl, -⟩ := Prod.mk.inj heq
      exact hwritten hg
  | start =>
      obtain ⟨rfl, -⟩ := Prod.mk.inj (Except.ok.inj hs)
      exact ⟨rfl, rfl⟩
  | readHead | readBody =>
      obtain ⟨-, heq⟩ | ⟨-, heq⟩ := Handling.testStats_cases env _ h
      all_goals
        obtain ⟨rfl, -⟩ := Prod.mk.inj (heq.symm.trans (Except.ok.inj hs))
        exact ⟨rfl, rfl⟩
  | armHead | armBody =>
      obtain ⟨g', hg, heq⟩ := map_eq_ok hs
      obtain ⟨rfl, -⟩ := Prod.mk.inj heq
      obtain ⟨-, rfl⟩ := Handling.withSocket_eq_ok hg
      exact ⟨rfl, rfl⟩
  | writeMore =>
      obtain ⟨g', hg, heq⟩ := map_eq_ok hs
      obtain ⟨rfl, -⟩ := Prod.mk.inj heq
      exact hwritten hg
  | fail =>
      obtain ⟨rfl, -⟩ := Prod.mk.inj (Except.ok.inj hs)
      exact ⟨rfl, rfl⟩
  | done =>
      obtain ⟨rfl, -⟩ := Prod.mk.inj (Except.ok.inj hs)
      exact ⟨rfl, rfl⟩

theorem exists_step (hf : rest.finish env h = .ok g) :
    ∃ h' rest', rest.step env h = .ok (h', rest') ∧ rest'.finish env h' = .ok g := by
  rw [finish_eq_step] at hf
  simp only [Handling.finished] at hf
  split at hf
  · cases hf
  next h' rest' hs => exact ⟨h', rest', hs, hf⟩

theorem finish_keeps (hf : rest.finish env h = .ok g) :
    g.conn.pSock = h.conn.pSock ∧ g.conn.pWrite = h.conn.pWrite := by
  induction rest using turns_induction generalizing h with
  | done =>
      obtain rfl := Except.ok.inj hf
      exact ⟨rfl, rfl⟩
  | step rest hne ih =>
      obtain ⟨h', rest', hs, hf'⟩ := exists_step hf
      have hstep := step_keeps hs
      have hrest := ih rest' (step_turns hs hne) hf'
      exact ⟨hrest.1.trans hstep.1, hrest.2.trans hstep.2⟩

theorem step_pushes (hs : rest.step env ⟨c, []⟩ = .ok (h, rest')) (hp : .pushToRemove ∈ h.effects) :
    rest' = .done := by
  cases rest with
  | write =>
      obtain ⟨g, hg, heq⟩ := map_eq_ok hs
      obtain ⟨rfl, -⟩ := Prod.mk.inj heq
      obtain ⟨-, -, heffects | ⟨offset, len, heffects⟩⟩ := Handling.doWrite_starts hg
      · rw [heffects] at hp
        cases hp
      · rw [heffects] at hp
        simp at hp
  | start =>
      obtain ⟨rfl, -⟩ := Prod.mk.inj (Except.ok.inj hs)
      cases hp
  | done => exact (Prod.mk.inj (Except.ok.inj hs)).2.symm
  | fail => exact (Prod.mk.inj (Except.ok.inj hs)).2.symm
  | readHead | readBody =>
      obtain ⟨-, heq⟩ | ⟨-, heq⟩ := Handling.testStats_cases env _ ⟨c, []⟩
      all_goals
        obtain ⟨rfl, -⟩ := Prod.mk.inj (heq.symm.trans (Except.ok.inj hs))
        cases hp
  | _ =>
      obtain ⟨g, -, heq⟩ := map_eq_ok hs
      exact (Prod.mk.inj heq).2.symm

end Rest

theorem OpKind.enter_not_pushes {kind : OpKind} {c : FrontConn} {ec : ErrorCode}
    {data : ByteString} {env : Env} {h : Handling} {rest : Rest}
    (he : kind.enter c ec data env = .ok (h, rest)) : .pushToRemove ∉ h.effects := by
  have hquiet : ∀ {h₁ h₂ : Handling}, Quiet h₁ h₂ → .pushToRemove ∉ h₁.effects →
      .pushToRemove ∉ h₂.effects := by
    intro h₁ h₂ q hnot hp
    obtain ⟨calls, hcalls, heffects⟩ := q.effects
    rw [heffects] at hp
    obtain hp | hp := List.mem_append.mp hp
    · exact hnot hp
    · exact absurd (hcalls _ hp) (by decide)
  have hemit : ∀ {g : Handling} {e : Effect}, .pushToRemove ∉ g.effects → e ≠ .pushToRemove →
      .pushToRemove ∉ (g.emit e).effects := by
    intro g e hnot hne hp
    obtain hp | hp := List.mem_append.mp hp
    · exact hnot hp
    · exact hne (List.mem_singleton.mp hp).symm
  obtain ⟨-, hread⟩ | ⟨w, n, -, hwrite⟩ := enter_cases he
  · cases hread with
    | wait q => exact hquiet q List.not_mem_nil
    | @fill g _ env content status q q' =>
        exact hquiet q' (hemit (g := g) (hquiet q List.not_mem_nil) (by simp))
    | fail q => exact hemit (hemit (hquiet q List.not_mem_nil) (by simp)) (by simp)
  · simp only [Handling.writeEntry] at hwrite
    split at hwrite
    · split at hwrite
      all_goals
        obtain ⟨rfl, -⟩ := Prod.mk.inj (Except.ok.inj hwrite)
        exact List.not_mem_nil
    · split at hwrite
      · obtain ⟨rfl, -⟩ := Handling.socketErrorEntry_eq_ok hwrite
        exact hemit (hemit List.not_mem_nil (by simp)) (by simp)
      · obtain ⟨rfl, -⟩ := Prod.mk.inj (Except.ok.inj hwrite)
        exact List.not_mem_nil

namespace Session

variable {c c' : FrontConn} {op : Op} {ops : List Op} {trace effects : List Effect}

/-- An effect looks at the socket and at the storage of what is sent, so the
other fields of the object may be set before it or after it. -/
theorem performAll_conn_irrel (hsock : c.pSock = c'.pSock) (hwrite : c.pWrite = c'.pWrite) :
    { performAll ⟨c, ops, trace⟩ effects with conn := c' } =
      performAll ⟨c', ops, trace⟩ effects := by
  induction effects generalizing ops trace with
  | nil => rfl
  | cons e es ih =>
      have hops : (perform ⟨c, ops, trace⟩ e).ops = (perform ⟨c', ops, trace⟩ e).ops := by
        simp only [perform, hsock, hwrite]
      have hrest : { performAll ⟨c, (perform ⟨c, ops, trace⟩ e).ops, trace ++ [e]⟩ es with
          conn := c' } = performAll ⟨c', (perform ⟨c, ops, trace⟩ e).ops, trace ++ [e]⟩ es := ih
      refine hrest.trans ?_
      rw [performAll_cons]
      exact congrArg (fun ops => performAll ⟨c', ops, trace ++ [e]⟩ es) hops

theorem performAll_mk : performAll ⟨c, ops, trace⟩ effects =
    ⟨c, (performAll ⟨c, ops, trace⟩ effects).ops, trace ++ effects⟩ := by
  change Session.mk (performAll ⟨c, ops, trace⟩ effects).conn _
    (performAll ⟨c, ops, trace⟩ effects).trace = _
  rw [performAll_conn, performAll_trace]
  rfl

/-- The operation of the handler that runs stays in front, and the others fare
as without it. The whole handler has taken it out before its first effect. -/
theorem performAll_behind : ∃ op', (performAll ⟨c, op :: ops, trace⟩ effects).ops =
    op' :: (performAll ⟨c, ops, trace⟩ effects).ops := by
  induction effects generalizing op ops trace with
  | nil => exact ⟨op, rfl⟩
  | cons e es ih =>
      have hops : ∃ op', (perform ⟨c, op :: ops, trace⟩ e).ops =
          op' :: (perform ⟨c, ops, trace⟩ e).ops := by
        simp only [perform]
        cases c.pSock with
        | none => exact ⟨op, rfl⟩
        | some sock => cases e <;> exact ⟨_, rfl⟩
      obtain ⟨op', hop'⟩ := hops
      have hcons : performAll ⟨c, op :: ops, trace⟩ (e :: es) =
          performAll ⟨c, op' :: (perform ⟨c, ops, trace⟩ e).ops, trace ++ [e]⟩ es := by
        rw [← hop']
        rfl
      rw [hcons]
      exact ih

end Session

namespace Server

variable {cfg : Config} {s t u r : Server} {c : ConnId} {env : Env} {rest : Rest}

/-- The server after a handler of `c` that ends with these effects. The first
of the outstanding operations is the one that has completed. -/
def finished (s : Server) (c : ConnId) (g : Handling) : Server :=
  let x := Session.performAll { s.conns c with conn := g.conn } g.effects
  { s.setConn c { x with ops := x.ops.tail } with
    pushing := if .pushToRemove ∈ g.effects then insert c s.pushing else s.pushing }

/-- What is left of a handler of `c` takes the server to `r`, with
nothing else in between. -/
def Completes (s : Server) (c : ConnId) (env : Env) (rest : Rest) (r : Server) : Prop :=
  ∃ g, rest.finish { env with now := s.now } ⟨(s.conns c).conn, []⟩ = .ok g ∧ r = s.finished c g

/-- What is left of `start()` in the accept handler takes the server to `r`,
with nothing else in between. -/
def Begins (s : Server) (rest : Rest) (r : Server) : Prop :=
  ∃ c g, s.accept = .inserted c ∧
    rest.finish (.refusing s.now) ⟨(s.conns c).conn, []⟩ = .ok g ∧
    r = { s.setConn c (Session.performAll { s.conns c with conn := g.conn } g.effects) with
      accept := .started c }

/-- The whole of `start()` is what the accept handler does with an inserted
connection in one step. -/
theorem begins_iff (hi : s.accept = .inserted c) : s.Begins .start r ↔ s.acceptStep = .ok r := by
  simp only [acceptStep, hi]
  constructor
  · rintro ⟨d, g, hd, hg, rfl⟩
    obtain rfl := AcceptPc.inserted.inj (hi.symm.trans hd)
    replace hg : Handling.start (.refusing s.now) ⟨(s.conns c).conn, []⟩ = .ok g := hg
    rw [hg]
  · intro hr
    split at hr
    · cases hr
    next g hg => exact ⟨c, g, hi, hg, (Except.ok.inj hr).symm⟩

theorem finished_after {h g : Handling} (hsock : h.conn.pSock = g.conn.pSock)
    (hwrite : h.conn.pWrite = g.conn.pWrite) (hp : .pushToRemove ∉ h.effects) :
    (s.setConn c (Session.performAll { s.conns c with conn := h.conn } h.effects)).finished c g =
      s.finished c (g.after h.effects) := by
  have hsession : Session.performAll { Session.performAll { s.conns c with conn := h.conn }
      h.effects with conn := g.conn } g.effects =
        Session.performAll { s.conns c with conn := g.conn } (h.effects ++ g.effects) := by
    rw [Session.performAll_append]
    exact congrArg (fun x => Session.performAll x g.effects)
      (Session.performAll_conn_irrel hsock hwrite)
  simp only [finished, setConn, Function.update_self, Function.update_idem, hsession,
    Handling.after, List.mem_append, hp, false_or]

end Server

namespace Threads

open Server (smallConfig)

variable {cfg : Config} {s u r : Server} {t : Threads} {c : ConnId} {env : Env} {rest : Rest}

def atRest (s : Server) : Threads := ⟨s, fun _ => none, .begins⟩

def alone (s : Server) (c : ConnId) (env : Env) (rest : Rest) : Threads :=
  ⟨s, Function.update (fun _ => none) c (some (env, rest)), .begins⟩

def midStart (s : Server) (starting : Starting) : Threads := ⟨s, fun _ => none, starting⟩

@[simp] theorem server_atRest : (atRest s).server = s := rfl

@[simp] theorem server_alone : (alone s c env rest).server = s := rfl

/-- A turn that does not come between the turns of a handler. One that is in
`push_to_remove` is still under way for its connection. -/
structure Undisturbed (s : Threads) (turn : Turn) : Prop where
  handler : ∀ c, s.running c ≠ none → turn = .resume c
  start : s.starting ≠ .begins → turn = .start
  push : ∀ c i n, turn = .send c i n → c ∉ s.server.pushing ∪ s.server.notifying

theorem undisturbed_atRest {turn : Turn}
    (hpush : ∀ c i n, turn = .send c i n → c ∉ s.pushing ∪ s.notifying) :
    (atRest s).Undisturbed turn :=
  ⟨fun _ h => absurd rfl h, fun h => absurd rfl h, hpush⟩

theorem undisturbed_resume : (alone s c env rest).Undisturbed (.resume c) := by
  refine ⟨fun d hd => ?_, fun h => absurd rfl h, fun _ _ _ h => nomatch h⟩
  by_cases hdc : d = c
  · rw [hdc]
  · simp [alone, Function.update_of_ne hdc] at hd

theorem undisturbed_start {starting : Starting} : (midStart s starting).Undisturbed .start :=
  ⟨fun _ h => absurd rfl h, fun _ => rfl, fun _ _ _ h => nomatch h⟩

theorem setRunning_alone (x : Session) (rest' : Rest) :
    ((alone s c env rest).setConn c x).setRunning c (some (env, rest')) =
      alone (s.setConn c x) c env rest' := by
  simp [alone, setConn, setRunning]

theorem setRunning_atRest (server : Server) :
    Threads.setRunning { alone s c env rest with server := server } c none = atRest server := by
  simp [alone, atRest, setRunning]

/-- The end of a handler is the end of what its next step leaves, with the
effects of that step carried out. -/
theorem ends_iff_step {h : Handling} {rest' : Rest}
    (hs : rest.step { env with now := s.now } ⟨(s.conns c).conn, []⟩ = .ok (h, rest'))
    (hp : .pushToRemove ∉ h.effects) :
    (s.setConn c (Session.performAll { s.conns c with conn := h.conn } h.effects)).Completes c env
      rest' r ↔ s.Completes c env rest r := by
  have hconn : ((s.setConn c (Session.performAll { s.conns c with conn := h.conn }
      h.effects)).conns c).conn = h.conn := by simp [Server.setConn]
  have hafter : rest.finish { env with now := s.now } ⟨(s.conns c).conn, []⟩ =
      (rest'.finish { env with now := s.now } ⟨h.conn, []⟩).map (Handling.after h.effects) := by
    rw [Rest.finish_eq_step, hs, ← Rest.finish_after]
    simp [Handling.finished, Handling.after]
  simp only [Server.Completes, hconn, hafter]
  constructor
  · rintro ⟨g, hg, rfl⟩
    obtain ⟨hsock, hwrite⟩ := Rest.finish_keeps hg
    refine ⟨g.after h.effects, ?_, Server.finished_after (h := h) hsock.symm hwrite.symm hp⟩
    exact congrArg (Except.map (Handling.after h.effects)) hg
  · rintro ⟨g', hg', rfl⟩
    obtain ⟨g, hg, rfl⟩ := map_eq_ok hg'
    obtain ⟨hsock, hwrite⟩ := Rest.finish_keeps hg
    exact ⟨g, hg, (Server.finished_after (h := h) hsock.symm hwrite.symm hp).symm⟩

/-- A turn ends the handler, or leaves it with less to do and the same end. -/
theorem resume_alone (hs : (alone s c env rest).resumeStep c = .ok t) :
    (∃ r, t = atRest r ∧ s.Completes c env rest r) ∨
      ∃ u rest', t = alone u c env rest' ∧ rest'.turns < rest.turns ∧
        ∀ r, u.Completes c env rest' r ↔ s.Completes c env rest r := by
  have hrunning : (alone s c env rest).running c = some (env, rest) := by simp [alone]
  simp only [resumeStep, hrunning] at hs
  split at hs
  next => cases ‹_›
  next heq =>
    obtain ⟨rfl, rfl⟩ := Prod.mk.inj (Option.some.inj heq)
    obtain rfl := Except.ok.inj hs
    exact .inl ⟨_, setRunning_atRest _, _, rfl, rfl⟩
  next hdone heq =>
    obtain ⟨rfl, rfl⟩ := Prod.mk.inj (Option.some.inj heq)
    split at hs
    · cases hs
    next h rest' hh =>
    replace hh : rest.step { env with now := s.now } ⟨(s.conns c).conn, []⟩ = .ok (h, rest') := hh
    split at hs
    next hp =>
      obtain rfl := Except.ok.inj hs
      obtain rfl := Rest.step_pushes hh hp
      have hfinish := Rest.finish_eq_step { env with now := s.now } ⟨(s.conns c).conn, []⟩ rest
      rw [hh] at hfinish
      refine .inl ⟨s.finished c h, ?_, h, hfinish, rfl⟩
      rw [show s.finished c h = _ from rfl, Server.finished, if_pos hp]
      exact setRunning_atRest _
    next hp =>
      obtain rfl := Except.ok.inj hs
      refine .inr ⟨_, rest', setRunning_alone _ _, Rest.step_turns hh ?_, ?_⟩
      · rintro rfl
        exact hdone rfl
      · exact fun r => ends_iff_step hh hp

theorem exists_resume (h : s.Completes c env rest r) :
    ∃ t, (alone s c env rest).resumeStep c = .ok t := by
  obtain ⟨g, hg, -⟩ := h
  obtain ⟨h', rest', hs, -⟩ := Rest.exists_step hg
  have hrunning : (alone s c env rest).running c = some (env, rest) := by simp [alone]
  simp only [resumeStep, hrunning]
  split
  next hnone => cases hnone
  next => exact ⟨_, rfl⟩
  next heq =>
    obtain ⟨rfl, rfl⟩ := Prod.mk.inj (Option.some.inj heq)
    change rest.step { env with now := (alone s c env rest).server.now }
      ⟨((alone s c env rest).server.conns c).conn, []⟩ = .ok (h', rest') at hs
    rw [hs]
    split
    next herror => cases herror
    next =>
      split
      · exact ⟨_, rfl⟩
      · exact ⟨_, rfl⟩

/-- A handler that is not disturbed gets to its end. Induction on
the turns that are left. -/
theorem run_of_completes (h : s.Completes c env rest r) : ∃ moves,
    Run (Threads.step cfg) (alone s c env rest) moves (atRest r) ∧
      ∀ m ∈ moves, m.pre.Undisturbed m.label := by
  induction hn : rest.turns using Nat.strong_induction_on generalizing s rest with
  | _ n ih =>
      obtain ⟨t, ht⟩ := exists_resume h
      have hstep : Threads.step cfg (alone s c env rest) (.resume c) = .ok t := ht
      obtain ⟨r', rfl, hr'⟩ | ⟨u, rest', rfl, hlt, hends⟩ := resume_alone ht
      · obtain ⟨g, hg, rfl⟩ := h
        obtain ⟨g', hg', rfl⟩ := hr'
        obtain rfl := Except.ok.inj (hg.symm.trans hg')
        exact ⟨_, .one hstep, List.forall_mem_singleton.mpr undisturbed_resume⟩
      · obtain ⟨moves, hr, hquiet⟩ := ih _ (hn ▸ hlt) ((hends r).mpr h) rfl
        refine ⟨_ ++ moves, (Run.one hstep).append hr, ?_⟩
        exact List.forall_mem_append.mpr
          ⟨List.forall_mem_singleton.mpr undisturbed_resume, hquiet⟩

/-- The server after a whole handler, when its first turn, up to the first
access to the status, has been carried out. -/
theorem finished_enter (op : Op) (ops : List Op) {h g : Handling}
    (hsock : h.conn.pSock = g.conn.pSock) (hwrite : h.conn.pWrite = g.conn.pWrite)
    (hp : .pushToRemove ∉ h.effects) :
    (s.setConn c (Session.performAll ⟨h.conn, op :: ops, (s.conns c).trace⟩ h.effects)).finished c
      g = { s.setConn c (Session.performAll ⟨g.conn, ops, (s.conns c).trace⟩
        (h.effects ++ g.effects)) with
          pushing := if .pushToRemove ∈ h.effects ++ g.effects then insert c s.pushing
            else s.pushing } := by
  have hall : Session.performAll { Session.performAll ⟨h.conn, op :: ops, (s.conns c).trace⟩
      h.effects with conn := g.conn } g.effects =
        Session.performAll ⟨g.conn, op :: ops, (s.conns c).trace⟩ (h.effects ++ g.effects) := by
    rw [Session.performAll_append]
    exact congrArg (fun x => Session.performAll x g.effects)
      (Session.performAll_conn_irrel hsock hwrite)
  obtain ⟨op', hops⟩ : ∃ op', (Session.performAll ⟨g.conn, op :: ops, (s.conns c).trace⟩
      (h.effects ++ g.effects)).ops = op' :: (Session.performAll ⟨g.conn, ops,
        (s.conns c).trace⟩ (h.effects ++ g.effects)).ops := Session.performAll_behind
  have htail : { Session.performAll ⟨g.conn, op :: ops, (s.conns c).trace⟩
      (h.effects ++ g.effects) with ops := (Session.performAll ⟨g.conn, op :: ops,
        (s.conns c).trace⟩ (h.effects ++ g.effects)).ops.tail } =
      Session.performAll ⟨g.conn, ops, (s.conns c).trace⟩ (h.effects ++ g.effects) := by
    rw [hops, List.tail_cons, Session.performAll_mk]
    exact Session.performAll_mk.symm
  simp only [Server.finished, Server.setConn, Function.update_self, Function.update_idem, hall,
    htail, List.mem_append, hp, false_or]

/-- A completion enters its handler, whose end is what the whole handler does
to the server in one step. -/
theorem enter_atRest {i : Nat} {ec : ErrorCode} {data : ByteString}
    (hs : (atRest s).enterStep c i ec data env = .ok t) :
    ∃ u rest, t = alone u c env rest ∧
      ∀ r, u.Completes c env rest r ↔ s.ioStep c (.complete i ec data env) = .ok r := by
  simp only [enterStep] at hs
  split at hs
  · cases hs
  next hfree =>
  split at hs
  · cases hs
  next op hop =>
  split at hs
  · cases hs
  next hcancelled =>
  split at hs
  · cases hs
  next h rest he =>
  obtain rfl := Except.ok.inj hs
  rw [server_atRest] at hop he
  refine ⟨s.setConn c (Session.performAll ⟨h.conn, op :: (s.conns c).ops.eraseIdx i,
    (s.conns c).trace⟩ h.effects), rest, rfl, fun r => ?_⟩
  have hdeliver : op.kind.deliver (s.conns c).conn ec data { env with now := s.now } =
      ((rest.finish { env with now := s.now } ⟨h.conn, []⟩).map
        (Handling.after h.effects)).mapError .fault := by
    rw [OpKind.deliver_eq_enter, he, ← Rest.finish_after]
    simp [Handling.after]
  have hp := OpKind.enter_not_pushes he
  have hidle : c ∉ s.pushing ∪ s.notifying := fun hc => hfree (.inr hc)
  have hconn : ((s.setConn c (Session.performAll ⟨h.conn, op :: (s.conns c).ops.eraseIdx i,
      (s.conns c).trace⟩ h.effects)).conns c).conn = h.conn := by simp [Server.setConn]
  simp only [Server.Completes, hconn, Server.ioStep, if_neg hidle, Event.at,
    Session.react, hop, if_neg hcancelled, hdeliver]
  change (∃ g, rest.finish { env with now := s.now } ⟨h.conn, []⟩ = .ok g ∧ _) ↔ _
  cases hg : rest.finish { env with now := s.now } ⟨h.conn, []⟩ with
  | error e => simp [Except.map, Except.mapError]
  | ok g =>
      obtain ⟨hsock, hwrite⟩ := Rest.finish_keeps hg
      have hend := finished_enter (s := s) (c := c) op ((s.conns c).ops.eraseIdx i) (h := h)
        hsock.symm hwrite.symm hp
      constructor
      · rintro ⟨g', hg', rfl⟩
        obtain rfl := Except.ok.inj hg'
        exact congrArg Except.ok hend.symm
      · intro hr
        exact ⟨g, rfl, (Except.ok.inj hr).symm.trans hend.symm⟩

theorem exists_enter {i : Nat} {ec : ErrorCode} {data : ByteString}
    (h : s.ioStep c (.complete i ec data env) = .ok r) :
    ∃ t, (atRest s).enterStep c i ec data env = .ok t := by
  simp only [Server.ioStep] at h
  split at h
  · cases h
  next hidle =>
  simp only [Event.at, Session.react] at h
  split at h
  · cases h
  next x effects hreact =>
  split at hreact
  · cases hreact
  next op hop =>
  split at hreact
  · cases hreact
  next hcancelled =>
  split at hreact
  · cases hreact
  next g hdeliver =>
  have hfree : ¬ (((atRest s).running c).isSome ∨
      c ∈ (atRest s).server.pushing ∪ (atRest s).server.notifying) := by
    rintro (hsome | hmem)
    · cases hsome
    · exact hidle hmem
  rw [OpKind.deliver_eq_enter] at hdeliver
  simp only [enterStep]
  rw [if_neg hfree, server_atRest, hop]
  simp only [if_neg hcancelled]
  cases he : op.kind.enter (s.conns c).conn ec data { env with now := s.now } with
  | error e =>
      rw [he] at hdeliver
      cases hdeliver
  | ok r => exact ⟨_, rfl⟩

theorem send_atRest {i n : Nat} (hidle : c ∉ s.pushing ∪ s.notifying) :
    (atRest s).sendStep c i n = (s.ioStep c (.send i n)).map atRest := by
  simp only [sendStep, Server.ioStep, if_neg hidle, Event.at, server_atRest]
  rw [if_neg (by rintro ⟨hsome, -⟩; cases hsome)]
  cases hr : (s.conns c).react (.send i n) with
  | error e => rfl
  | ok r =>
      obtain ⟨x, effects⟩ := r
      obtain ⟨rfl, -⟩ := react_send hr
      rfl

/-- A turn ends `start()`, or leaves it with less to do and the same end. -/
theorem start_midStart {starting : Starting} (hs : (midStart s starting).startStep = .ok t) :
    (∃ r, t = atRest r ∧ s.Begins starting.rest r) ∨
      ∃ u next, t = midStart u next ∧ next ≠ .begins ∧ next.rest.turns < starting.rest.turns ∧
        ∀ r, u.Begins next.rest r ↔ s.Begins starting.rest r := by
  obtain ⟨c, h, rest, hi, hh, x, rfl, hcases⟩ := startStep_cases hs
  replace hi : s.accept = .inserted c := hi
  replace hh : starting.rest.step (.refusing s.now) ⟨(s.conns c).conn, []⟩ = .ok (h, rest) := hh
  have hfinish := Rest.finish_eq_step (.refusing s.now) ⟨(s.conns c).conn, []⟩ starting.rest
  rw [hh] at hfinish
  obtain ⟨heffects, -, next, hnext, rfl, rfl⟩ | ⟨rfl, -, rfl⟩ := hcases
  · have hlater : next ≠ .begins := by
      rintro rfl
      obtain h | h := hnext <;> cases h
    have hlt : next.rest.turns < starting.rest.turns := by
      refine Rest.step_turns hh ?_
      cases starting <;> rintro ⟨⟩
    have hh' : h = ⟨h.conn, []⟩ := by
      obtain ⟨conn, effects⟩ := h
      exact congrArg _ heffects
    rw [hh'] at hfinish
    refine .inr ⟨_, next, rfl, hlater, hlt, fun r => ?_⟩
    constructor
    · rintro ⟨d, g, hd, hg, rfl⟩
      obtain rfl := AcceptPc.inserted.inj (hi.symm.trans hd)
      rw [heffects] at hg ⊢
      simp only [Server.setConn, Function.update_self, Session.performAll] at hg
      refine ⟨c, g, hi, hfinish.trans hg, ?_⟩
      simp only [Server.setConn, Function.update_self, Function.update_idem]
      rfl
    · rintro ⟨d, g, hd, hg, rfl⟩
      obtain rfl := AcceptPc.inserted.inj (hi.symm.trans hd)
      refine ⟨c, g, hi, ?_, ?_⟩
      · rw [heffects]
        simp only [Server.setConn, Function.update_self]
        exact hfinish.symm.trans hg
      · rw [heffects]
        simp only [Server.setConn, Function.update_self, Function.update_idem]
        rfl
  · exact .inl ⟨_, rfl, c, h, hi, hfinish, rfl⟩

theorem exists_start {starting : Starting} (h : s.Begins starting.rest r) :
    ∃ t, (midStart s starting).startStep = .ok t := by
  obtain ⟨c, g, hi, hg, -⟩ := h
  obtain ⟨h', rest', hs, -⟩ := Rest.exists_step hg
  simp only [startStep, midStart, hi, hs]
  split
  · exact ⟨_, rfl⟩
  · exact ⟨_, rfl⟩
  · exact ⟨_, rfl⟩

theorem run_of_begins {starting : Starting} (h : s.Begins starting.rest r) : ∃ moves,
    Run (Threads.step cfg) (midStart s starting) moves (atRest r) ∧
      ∀ m ∈ moves, m.pre.Undisturbed m.label := by
  induction hn : starting.rest.turns using Nat.strong_induction_on generalizing s starting with
  | _ n ih =>
      obtain ⟨t, ht⟩ := exists_start h
      have hstep : Threads.step cfg (midStart s starting) .start = .ok t := ht
      obtain ⟨r', rfl, hr'⟩ | ⟨u, next, rfl, -, hlt, hends⟩ := start_midStart ht
      · obtain ⟨c, g, hi, hg, rfl⟩ := h
        obtain ⟨c', g', hi', hg', rfl⟩ := hr'
        obtain rfl := AcceptPc.inserted.inj (hi.symm.trans hi')
        obtain rfl := Except.ok.inj (hg.symm.trans hg')
        exact ⟨_, .one hstep, List.forall_mem_singleton.mpr undisturbed_start⟩
      · obtain ⟨moves, hr, hquiet⟩ := ih _ (hn ▸ hlt) ((hends r).mpr h) rfl
        refine ⟨_ ++ moves, (Run.one hstep).append hr, ?_⟩
        exact List.forall_mem_append.mpr
          ⟨List.forall_mem_singleton.mpr undisturbed_start, hquiet⟩

/-- How far the split server is ahead of the one with whole handlers: not at
all, or inside a handler or `start()` whose end the other one is at. -/
inductive Follows : Threads → Server → Prop where
  | rest (s : Server) : Follows (atRest s) s
  | handler {u s : Server} {c : ConnId} {env : Env} {rest : Rest} {e : Event} :
      (∀ r, u.Completes c env rest r → s.ioStep c e = .ok r) → Follows (alone u c env rest) s
  | start {u s : Server} {starting : Starting} : starting ≠ .begins →
      (∀ r, u.Begins starting.rest r → s.acceptStep = .ok r) → Follows (midStart u starting) s

/-- A step of the server is some turns that nothing disturbs: the whole handler
turn by turn, or the one step that is not split. -/
theorem simulates_server : Simulates (fun _ => True)
    (fun _ segment => ∀ m ∈ segment, m.pre.Undisturbed m.label) (Server.step cfg)
    (Threads.step cfg) (fun s t => t = atRest s) := by
  rintro s l t _ rfl - hs
  have hother : s.unsplit l = true → ∃ moves v, Run (Threads.step cfg) (atRest s) moves v ∧
      (∀ m ∈ moves, m.pre.Undisturbed m.label) ∧ v = atRest t := by
    intro hl
    have hstep : Threads.step cfg (atRest s) (.other l) = .ok (atRest t) := by
      simp only [Threads.step]
      split
      · rw [server_atRest, hs]
        rfl
      next hsplit => exact absurd hl hsplit
    refine ⟨_, _, .one hstep, List.forall_mem_singleton.mpr ?_, rfl⟩
    exact undisturbed_atRest (by rintro _ _ _ ⟨⟩)
  cases l with
  | io c e =>
      cases e with
      | complete i ec data env =>
          obtain ⟨v, hv⟩ := exists_enter hs
          obtain ⟨u, rest, rfl, hends⟩ := enter_atRest hv
          obtain ⟨moves, hr, hquiet⟩ : ∃ moves,
              Run (Threads.step cfg) (alone u c env rest) moves (atRest t) ∧
                ∀ m ∈ moves, m.pre.Undisturbed m.label := run_of_completes ((hends t).mpr hs)
          have hstep : Threads.step cfg (atRest s) (.enter c i ec data env) = .ok _ := hv
          refine ⟨_ ++ moves, _, (Run.one hstep).append hr, ?_, rfl⟩
          refine List.forall_mem_append.mpr ⟨List.forall_mem_singleton.mpr ?_, hquiet⟩
          exact undisturbed_atRest (by rintro _ _ _ ⟨⟩)
      | send i n =>
          have hidle : c ∉ s.pushing ∪ s.notifying := by
            intro hc
            simp only [Server.step, Server.ioStep, if_pos hc] at hs
            cases hs
          have hstep : Threads.step cfg (atRest s) (.send c i n) = .ok (atRest t) := by
            change (atRest s).sendStep c i n = _
            rw [send_atRest hidle, show s.ioStep c (.send i n) = .ok t from hs]
            rfl
          refine ⟨_, _, .one hstep, List.forall_mem_singleton.mpr ?_, rfl⟩
          refine undisturbed_atRest fun d j m h => ?_
          cases h
          exact hidle
  | accept =>
      cases haccept : s.accept with
      | inserted c =>
          obtain ⟨moves, hr, hquiet⟩ : ∃ moves,
              Run (Threads.step cfg) (midStart s .begins) moves (atRest t) ∧
                ∀ m ∈ moves, m.pre.Undisturbed m.label :=
            run_of_begins ((Server.begins_iff haccept).mpr hs)
          exact ⟨moves, _, hr, hquiet, rfl⟩
      | _ => exact hother (by simp [Server.unsplit, haccept])
  | _ => exact hother rfl

/-- Turns that nothing disturbs are a step of the server, or part of one: the
step is taken when the handler is entered. -/
theorem simulates_undisturbed : Simulates (fun m => m.pre.Undisturbed m.label)
    (fun _ _ => True) (Threads.step cfg) (Server.step cfg) Follows := by
  intro t turn t' s hf hu hs
  cases hf with
  | rest s =>
      cases turn with
      | other l =>
          simp only [Threads.step] at hs
          split at hs
          · obtain ⟨r, hr, rfl⟩ := map_eq_ok hs
            exact ⟨_, r, .one hr, trivial, .rest r⟩
          · cases hs
      | enter c i ec data env =>
          obtain ⟨u, rest, rfl, hends⟩ := enter_atRest hs
          exact ⟨[], s, .nil, trivial, .handler fun r hr => (hends r).mp hr⟩
      | resume c => cases hs
      | send c i n =>
          have hidle : c ∉ s.pushing ∪ s.notifying := hu.push c i n rfl
          replace hs : (atRest s).sendStep c i n = .ok t' := hs
          rw [send_atRest hidle] at hs
          obtain ⟨r, hr, rfl⟩ := map_eq_ok hs
          have hstep : Server.step cfg s (.io c (.send i n)) = .ok r := hr
          exact ⟨_, r, .one hstep, trivial, .rest r⟩
      | start =>
          obtain ⟨c, -, -, hi, -⟩ := startStep_cases hs
          have hends := fun r => (Server.begins_iff (r := r) hi).mp
          obtain ⟨r, rfl, hr⟩ | ⟨u, next, rfl, hnext, -, hsame⟩ := start_midStart hs
          · have hstep : Server.step cfg s .accept = .ok r := hends r hr
            exact ⟨_, r, .one hstep, trivial, .rest r⟩
          · exact ⟨[], s, .nil, trivial, .start hnext fun r hr => hends r ((hsame r).mp hr)⟩
  | @handler u _ c env rest e hends =>
      obtain rfl := hu.handler c (by simp [alone])
      obtain ⟨r, rfl, hr⟩ | ⟨u', rest', rfl, -, hends'⟩ := resume_alone hs
      · have hstep : Server.step cfg s (.io c e) = .ok r := hends r hr
        exact ⟨_, r, .one hstep, trivial, .rest r⟩
      · exact ⟨[], s, .nil, trivial,
          .handler fun r hr => hends r ((hends' r).mp hr)⟩
  | @start u _ starting hlate hends =>
      obtain rfl := hu.start hlate
      obtain ⟨r, rfl, hr⟩ | ⟨u', next, rfl, hnext, -, hsame⟩ := start_midStart hs
      · have hstep : Server.step cfg s .accept = .ok r := hends r hr
        exact ⟨_, r, .one hstep, trivial, .rest r⟩
      · exact ⟨[], s, .nil, trivial,
          .start hnext fun r hr => hends r ((hsame r).mp hr)⟩

/-- The server with whole handlers reaches the states that the server with
split ones reaches in the runs that leave every handler undisturbed. Nothing is
said of the runs in which another thread gets in between. -/
theorem serial_iff : (∃ moves, Run (Server.step cfg) Server.init moves s) ↔
    ∃ moves, Run (Threads.step cfg) Threads.init moves (atRest s) ∧
      ∀ m ∈ moves, m.pre.Undisturbed m.label := by
  constructor
  · rintro ⟨moves, hr⟩
    obtain ⟨segments, _, hturns, hquiet, rfl⟩ := simulates_server.run hr (fun _ _ => trivial) rfl
    exact ⟨segments.flatten, hturns, forall_mem_segments hquiet⟩
  · rintro ⟨turns, hr, hquiet⟩
    obtain ⟨segments, r, hmoves, -, hf⟩ := simulates_undisturbed.run hr hquiet (.rest Server.init)
    generalize ht : atRest s = t at hf
    cases hf with
    | rest r =>
        obtain rfl : s = r := congrArg Threads.server ht
        exact ⟨segments.flatten, hmoves⟩
    | @handler _ _ c _ _ _ _ =>
        have hrunning := congrFun (congrArg Threads.running ht) c
        simp [atRest, alone] at hrunning
    | start hlate _ => exact absurd (congrArg Threads.starting ht).symm hlate

end Threads

end Ailawd
