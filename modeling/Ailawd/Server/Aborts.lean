import Ailawd.Connection.Aborts
import Ailawd.Server.Passes

/-!
# What can stop the server

`Abort` lists the steps of the server that end the process, with what each of them needs. Every
fault of a reachable server is in the list: the manage thread never fails, `start()` finds its
socket, and of the assertions only those of `accept_handler`, of `timing_wheel_check` and of
`read_head_handler` can. The calls that throw are `remote_endpoint()`, `close()`, the socket
options of a new object and `cancel()`.
-/

namespace Ailawd

open Transition ByteString

/-- No analysis of the step stops the process: `analyse_handler` returns on
every body in its environment. -/
def Label.Survives (l : Label) : Prop :=
  ∀ c i ec data env, l = .io c (.complete i ec data env) → ∀ body f, env.analyse body ≠ .error f

namespace Server

variable {cfg : Config} {s t : Server} {l : Label} {c : ConnId} {f : Fault}

/-- Every step that ends the process, with what it needs of the state before
it. The causes in the handlers of a connection are those of `AbortCause`. -/
inductive Abort (cfg : Config) (s : Server) : Label → Fault → Prop where
  | vanished : s.accept = .listening → Abort cfg s (.accepted .vanished) .exception
  | refused : s.accept = .listening → cfg.maxServe ≤ s.currentConnsCnt →
      Abort cfg s (.throws .close) .exception
  | option {sock} : s.accept = .tested sock → s.manage.locked = false → s.cachedConns = [] →
      Abort cfg s (.throws .option) .exception
  | shared {sock c cached} : s.accept = .tested sock → s.manage.locked = false →
      s.cachedConns = c :: cached → c ∈ s.pendingToRemove ∨ s.tick.conn = some c →
      Abort cfg s .accept .cachedUseCount
  | unparked {c d b} : s.tick = .exam d .sawPending b → d ∉ s.cachedConns →
      Abort cfg s (.tick c) .pendingNotCached
  | overlooked {d b} : s.tick = .exam d .sawPending b → d ∈ s.cachedConns →
      s.cacheChanging = true → Abort cfg s .overlook .pendingNotCached
  | washed {c d b} : s.tick = .exam d .expired b → (s.conns d).conn.pSock = none →
      Abort cfg s (.tick c) .nullSocket
  | cancel {c e x effects} : c ∉ s.pushing ∪ s.notifying →
      (s.conns c).react (e.at s.now) = .ok (x, effects) → .cancel ∈ effects →
      Abort cfg s (.throws (.cancel c e)) .exception
  | handler {c e f} : c ∉ s.pushing ∪ s.notifying → (s.conns c).AbortCause (e.at s.now) f →
      Abort cfg s (.io c e) f

/-- Body reads have their place, and a connection that is
about to start has a socket. -/
structure Armed (s : Server) : Prop where
  placed : ∀ c, (s.conns c).Placed
  inserted : ∀ c, s.accept = .inserted c → (s.conns c).conn.pSock ≠ none

theorem armed_init : Armed init := by
  refine ⟨fun c => Session.placed_of_nil rfl, ?_⟩
  intro c hc
  cases hc

private theorem placed_update {x : Session} (h : ∀ c, (s.conns c).Placed) (hx : x.Placed)
    (d : ConnId) : ∀ c, (Function.update s.conns d x c).Placed := by
  intro c
  by_cases hc : c = d
  · subst hc
    rwa [Function.update_self]
  · rw [Function.update_of_ne hc]
    exact h c

private theorem inserted_update {x : Session} {d : ConnId} (h : s.Armed)
    (hx : s.accept = .inserted d → x.conn.pSock ≠ none) :
    ∀ c, s.accept = .inserted c → (Function.update s.conns d x c).conn.pSock ≠ none := by
  intro c hc
  by_cases hcd : c = d
  · subst hcd
    rw [Function.update_self]
    exact hx hc
  · rw [Function.update_of_ne hcd]
    exact h.inserted c hc

theorem Armed.action (h : s.Armed) (hs : s.Sound cfg) (ha : Action cfg s l t) : t.Armed := by
  cases ha with
  | acceptError _ | acceptTested _ _ | listen _ => exact ⟨h.placed, by rintro c ⟨⟩⟩
  | @recycle sock d cached _ _ hcached hone =>
      obtain ⟨-, -, hops, -⟩ := alone_of_useCount_one hone (hcached ▸ List.mem_cons_self)
      have hplaced : (s.recycled d sock).Placed := Session.placed_of_nil hops
      refine ⟨placed_update h.placed hplaced d, ?_⟩
      intro c hc
      obtain rfl : d = c := AcceptPc.inserted.inj hc
      simp [emplace, setConn, recycled, FrontConn.connResetNetwork]
  | @create sock _ _ _ =>
      have hplaced : (s.fresh sock).Placed := Session.placed_of_nil rfl
      refine ⟨placed_update h.placed hplaced s.nextConn, ?_⟩
      intro c hc
      obtain rfl : s.nextConn = c := AcceptPc.inserted.inj hc
      simp [emplace, setConn, fresh, FrontConn.make]
  | @start d g hi hg =>
      obtain ⟨sock, -, hstarted, -⟩ := start_ok (hs.lifecycle.inserted d hi) hg
      exact ⟨placed_update h.placed hstarted.placed d, by rintro c ⟨⟩⟩
  | @io d e x effects _ hr =>
      refine ⟨placed_update h.placed ((h.placed d).react (hs.lifecycle.ok d) hr) d, ?_⟩
      apply inserted_update h
      intro hi
      exact absurd (hs.lifecycle.inserted d hi) (react_ops_ne_nil hr)
  | @shut _ d _ _ _ =>
      have hplaced : ((s.conns d).perform .shutdown).Placed := by
        intro o ho
        rw [Session.perform_shutdown_ops] at ho
        exact h.placed d o ho
      exact ⟨placed_update h.placed hplaced d, inserted_update h fun hi => h.inserted d hi⟩
  | @mark _ d _ _ =>
      have hplaced : ({ s.conns d with
          conn := { (s.conns d).conn with stats := .error } } : Session).Placed :=
        (h.placed d).marked
      exact ⟨placed_update h.placed hplaced d, inserted_update h fun hi => h.inserted d hi⟩
  | @wash _ d _ conn hm _ =>
      obtain ⟨hops, -, haccept⟩ :=
        hs.lifecycle.retired d (.inr ⟨.room, by rw [hm]; rfl, by decide⟩)
      have hplaced : ({ s.conns d with conn := conn } : Session).Placed :=
        Session.placed_of_nil hops
      refine ⟨placed_update h.placed hplaced d, ?_⟩
      apply inserted_update h
      intro hi
      exact absurd (by rw [hi]; rfl) haccept
  | _ => exact ⟨h.placed, h.inserted⟩

private theorem accepted_abort {r : AcceptResult}
    (hf : s.acceptedStep cfg r = .error (.fault f)) : s.Abort cfg (.accepted r) f := by
  simp only [acceptedStep] at hf
  split at hf
  next ha =>
    cases r with
    | error => cases hf
    | vanished =>
        cases hf
        exact .vanished ha
    | peer =>
        simp only at hf
        split at hf <;> cases hf
  next => cases hf

/-- A cached connection has further owners only in the removals and the tick:
nothing runs for it, and no pass goes on. -/
private theorem shared_of_useCount (hs : s.Sound cfg) (hfree : s.manage.locked = false)
    (haccept : s.accept.conn = none) (hc : c ∈ s.cachedConns) (hcount : s.useCount c ≠ 1) :
    c ∈ s.pendingToRemove ∨ s.tick.conn = some c := by
  by_contra hnot
  obtain ⟨hpending, htick⟩ := not_or.mp hnot
  apply hcount
  obtain ⟨hops, hrunning, -⟩ := hs.lifecycle.retired c (.inl hc)
  have hmanage : s.manage.conn ≠ some c := by
    rw [ManagePc.conn_of_unlocked hfree]
    exact (Option.some_ne_none c).symm
  have hconn : s.accept.conn ≠ some c := by
    rw [haccept]
    exact (Option.some_ne_none c).symm
  rw [useCount, if_neg (hs.accounted.disjoint c hc), if_neg hpending,
    List.count_eq_one_of_mem hs.accounted.nodup hc, hops, if_neg hrunning, if_neg hconn,
    if_neg htick, if_neg hmanage]
  rfl

private theorem accept_abort (hs : s.Sound cfg) (ha : s.Armed)
    (hf : s.acceptStep = .error (.fault f)) : s.Abort cfg .accept f := by
  simp only [acceptStep] at hf
  split at hf
  next sock htested =>
    split at hf
    · cases hf
    next hfree =>
      split at hf
      next c cached hcached =>
        split at hf
        next hcount =>
          cases hf
          have hfree : s.manage.locked = false := Bool.not_eq_true _ ▸ hfree
          refine .shared htested hfree hcached ?_
          apply shared_of_useCount hs hfree _ _ hcount
          · rw [htested]
            rfl
          · rw [hcached]
            exact List.mem_cons_self
        next => cases hf
      next => cases hf
  next c hi =>
    exfalso
    obtain ⟨sock, hsock⟩ := Option.ne_none_iff_exists'.mp (ha.inserted c hi)
    obtain ⟨g, hg⟩ : ∃ g, Handling.start (.refusing s.now) ⟨(s.conns c).conn, []⟩ = .ok g :=
      Handling.start_isOk hsock
    rw [hg] at hf
    cases hf
  next => cases hf
  next => cases hf

private theorem io_abort {e : Event} (hs : s.Sound cfg) (ha : s.Armed)
    (hf : s.ioStep c e = .error (.fault f)) : s.Abort cfg (.io c e) f := by
  simp only [ioStep] at hf
  split at hf
  · cases hf
  next hidle =>
    split at hf
    next stop hstop =>
      obtain rfl := Except.error.inj hf
      exact .handler hidle (Session.react_fault (hs.lifecycle.ok c) (ha.placed c) hstop)
    next => cases hf

private theorem tick_abort (hf : s.tickStep cfg c = .error (.fault f)) :
    s.Abort cfg (.tick c) f := by
  simp only [tickStep] at hf
  split at hf
  · cases hf
  · split at hf
    · cases hf
    · split at hf
      · cases hf
      · split at hf <;> cases hf
  next d stage b ht =>
    cases stage with
    | locked =>
        simp only [examStep] at hf
        split at hf <;> cases hf
    | sawPending =>
        simp only [examStep] at hf
        split at hf
        · cases hf
        next hd =>
          cases hf
          exact .unparked ht hd
    | sawOther =>
        simp only [examStep] at hf
        split at hf <;> cases hf
    | expired =>
        simp only [examStep] at hf
        split at hf
        next hsock =>
          cases hf
          exact .washed ht hsock
        next => cases hf
    | shut => cases hf
    | marked =>
        simp only [examStep] at hf
        split at hf <;> cases hf
    | release => cases hf
  · split at hf <;> cases hf

private theorem throw_abort {call : ThrowingCall}
    (hf : s.throwStep cfg call = .error (.fault f)) : s.Abort cfg (.throws call) f := by
  cases call with
  | close =>
      simp only [throwStep] at hf
      split at hf
      next hfull =>
        cases hf
        exact .refused hfull.1 hfull.2
      next => cases hf
  | option =>
      simp only [throwStep] at hf
      split at hf
      next sock htested =>
        split at hf
        next hnew =>
          cases hf
          exact .option htested hnew.1 hnew.2
        next => cases hf
      next => cases hf
  | cancel c e =>
      simp only [throwStep] at hf
      split at hf
      · cases hf
      next hidle =>
        split at hf
        next => cases hf
        next x effects hreact =>
          split at hf
          next hcancel =>
            cases hf
            exact .cancel hidle hreact hcancel
          next => cases hf

private theorem overlook_abort (hf : s.overlookStep = .error (.fault f)) :
    s.Abort cfg .overlook f := by
  simp only [overlookStep] at hf
  split at hf
  next d b ht =>
    split at hf
    next hd =>
      cases hf
      exact .overlooked ht hd.1 hd.2
    next => cases hf
  next => cases hf

theorem Sound.manage_survives (hs : s.Sound cfg) (c : ConnId) (f : Fault) :
    step cfg s (.manage c) ≠ .error (.fault f) := by
  cases hl : s.manage.locked with
  | true => exact (hs.manage_progress hl).1 c f
  | false =>
      intro hf
      simp only [step, manageStep] at hf
      cases hm : s.manage with
      | scan _ | item _ _ _ | showing =>
          rw [hm] at hl
          cases hl
      | woken =>
          simp only [hm] at hf
          split at hf <;> cases hf
      | outside | waiting | timedOut =>
          simp only [hm] at hf
          cases hf

/-- Outside the handlers of the connections the listed steps do fail, in every
state and not only in some of them. -/
theorem Abort.fails (h : s.Abort cfg l f) (hio : ∀ c e, l ≠ .io c e) :
    step cfg s l = .error (.fault f) := by
  cases h with
  | vanished ha => simp only [step, acceptedStep, ha]
  | refused ha hfull =>
      simp only [step, throwStep]
      rw [if_pos ⟨ha, hfull⟩]
  | option ht hfree hnone =>
      simp only [step, throwStep, ht]
      rw [if_pos ⟨hfree, hnone⟩]
  | overlooked ht hd hchanging =>
      simp only [step, overlookStep, ht]
      rw [if_pos ⟨hd, hchanging⟩]
  | cancel hidle hreact hcancel =>
      simp only [step, throwStep, hreact]
      rw [if_neg hidle, if_pos hcancel]
  | @shared sock c cached htested hfree hcached hshared =>
      have hcount : s.useCount c ≠ 1 := by
        intro hone
        obtain ⟨-, hpending, -, -, htick, -⟩ :=
          alone_of_useCount_one hone (hcached ▸ List.mem_cons_self)
        exact hshared.elim hpending htick
      simp only [step, acceptStep, htested, hfree, hcached, Bool.false_eq_true, if_false]
      rw [if_pos hcount]
  | unparked ht hd =>
      simp only [step, tickStep, ht, examStep]
      rw [if_neg hd]
  | washed ht hsock =>
      simp only [step, tickStep, ht, examStep]
      rw [if_pos hsock]
  | @handler c e _ _ => exact absurd rfl (hio c e)

/-- The faults that do not come out of `analyse_handler`, over all threads. -/
def ownFaults : List Fault :=
  [.exception, .cachedUseCount, .pendingNotCached, .nullSocket, .outOfBounds, .additionalSize,
    .lengthError, .useAfterFree]

theorem Abort.mem_ownFaults (h : s.Abort cfg l f) (hl : l.Survives) : f ∈ ownFaults := by
  cases h with
  | vanished _ | refused _ _ | option _ _ _ | cancel _ _ _ => decide
  | shared _ _ _ _ => decide
  | unparked _ _ | overlooked _ _ _ => decide
  | washed _ _ => decide
  | @handler c e _ _ hcause =>
      cases e with
      | complete i ec data env =>
          have henv := hl c i ec data env rfl
          cases hcause with
          | analysisHead _ _ _ hwork => exact absurd hwork (henv _ _)
          | analysisBody _ _ _ _ hwork => exact absurd hwork (henv _ _)
          | surplus _ _ => decide
          | negative _ _ => decide
          | wrappedHead _ _ => decide
          | wrappedBody _ _ _ => decide
      | send i n =>
          cases hcause
          decide

theorem armed_of_run {moves : List (Move Server Label)} (hr : Run (step cfg) init moves s) :
    s.Armed := by
  have h := hr.invariant (I := fun s => s.Armed ∧ s.Sound cfg) ⟨armed_init, sound_init⟩
    fun s l t hs hstep => ⟨hs.1.action hs.2 (step_action hstep), hs.2.action (step_action hstep)⟩
  exact h.1

/-- A reachable server stops in one of the listed steps only, and of these it
does stop in each that is not a handler of a connection. What stops it is one
of eight faults, unless `analyse_handler` does. -/
theorem aborts {moves : List (Move Server Label)} (hr : Run (step cfg) init moves s) :
    (∀ l f, step cfg s l = .error (.fault f) → s.Abort cfg l f) ∧
    (∀ l f, s.Abort cfg l f → (∀ c e, l ≠ .io c e) → step cfg s l = .error (.fault f)) ∧
    ∀ l f, step cfg s l = .error (.fault f) → l.Survives → f ∈ ownFaults := by
  have hs := sound_of_run hr
  have ha := armed_of_run hr
  have hall : ∀ l f, step cfg s l = .error (.fault f) → s.Abort cfg l f := by
    intro l f hf
    cases l with
    | clock now => cases hf
    | accepted r => exact accepted_abort hf
    | accept => exact accept_abort hs ha hf
    | io c e => exact io_abort hs ha hf
    | handler c =>
        simp only [step, handlerStep] at hf
        split at hf
        · split at hf <;> cases hf
        · split at hf <;> cases hf
    | tick c => exact tick_abort hf
    | wake | timeout =>
        simp only [step] at hf
        split at hf <;> cases hf
    | manage c => exact absurd hf (hs.manage_survives c f)
    | throws call => exact throw_abort hf
    | overlook => exact overlook_abort hf
  exact ⟨hall, fun l f h hio => h.fails hio, fun l f hf hl => (hall l f hf).mem_ownFaults hl⟩

def longRequest : Label :=
  .io 0 (.complete 0 .success
    (ofString "POST /analyse HTTP/1.1\r\nContent-Length: 1\r\n\r\nab") (.refusing 0))

/-- A server with a single client stops at the assertion of `read_head_handler`
when the client sends a byte too many. -/
theorem aborts_long_request : ∃ moves s, Run (step smallConfig) init moves s ∧
    step smallConfig s longRequest = .error (.fault .additionalSize) ∧
    (∀ l f, step smallConfig s l = .error (.fault f) → s.Abort smallConfig l f) ∧
    (∀ l f, s.Abort smallConfig l f → (∀ c e, l ≠ .io c e) →
      step smallConfig s l = .error (.fault f)) ∧
    ∀ l f, step smallConfig s l = .error (.fault f) → l.Survives → f ∈ ownFaults := by
  obtain ⟨moves, s, hr, -, hfault⟩ :=
    run_of_reaches (step smallConfig) init [.accepted .peer, .accept, .accept]
      (p := fun s => Faults (step smallConfig s longRequest) .additionalSize) (by decide +kernel)
  exact ⟨moves, s, hr, hfault.eq_error, aborts hr⟩

end Server

end Ailawd
