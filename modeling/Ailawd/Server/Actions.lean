import Ailawd.Model.HttpServer

/-!
# What a step of the server can do

`Server.Action` lists every step with what it needs and what it changes, one
constructor for each branch of the source that ends without a fault. `step_action`
derives it from the step function; every invariant is a case analysis of it.
-/

namespace Ailawd

open Transition

namespace Server

inductive Action (cfg : Config) (s : Server) : Label → Server → Prop where
  | clock (now : Nat) : Action cfg s (.clock now) { s with now := now }
  -- the accept handler
  | acceptError : s.accept = .listening →
      Action cfg s (.accepted .error) { s with accept := .stopped }
  | acceptRefused : s.accept = .listening → cfg.maxServe ≤ s.currentConnsCnt →
      Action cfg s (.accepted .peer) { s with nextSock := s.nextSock + 1 }
  | acceptTested : s.accept = .listening → s.currentConnsCnt < cfg.maxServe →
      Action cfg s (.accepted .peer)
        { s with accept := .tested s.nextSock, nextSock := s.nextSock + 1 }
  | recycle {sock c cached} : s.accept = .tested sock → s.manage.locked = false →
      s.cachedConns = c :: cached → s.useCount c = 1 →
      Action cfg s .accept (emplace { s with cachedConns := cached } c (s.recycled c sock))
  | create {sock} : s.accept = .tested sock → s.manage.locked = false → s.cachedConns = [] →
      Action cfg s .accept (emplace { s with nextConn := s.nextConn + 1 } s.nextConn (s.fresh sock))
  | start {c h} : s.accept = .inserted c →
      Handling.start (.refusing s.now) ⟨(s.conns c).conn, []⟩ = .ok h →
      Action cfg s .accept
        { s.setConn c (Session.performAll { s.conns c with conn := h.conn } h.effects) with
          accept := .started c }
  | listen {c} : s.accept = .started c → Action cfg s .accept { s with accept := .listening }
  -- completion handlers
  | io {c e x effects} : c ∉ s.pushing ∪ s.notifying →
      (s.conns c).react (e.at s.now) = .ok (x, effects) →
      Action cfg s (.io c e) { s.setConn c x with
        pushing := if .pushToRemove ∈ effects then insert c s.pushing else s.pushing }
  | push {c} : c ∈ s.pushing → s.manage.locked = false →
      Action cfg s (.handler c) { s with
        pendingToRemove := insert c s.pendingToRemove
        pushing := s.pushing.erase c
        notifying := insert c s.notifying }
  | notify {c} : c ∉ s.pushing → c ∈ s.notifying →
      Action cfg s (.handler c) { s with
        notifying := s.notifying.erase c, manage := s.manage.notified }
  -- `timing_wheel_check`
  | tickBegin {c} : s.tick = .idle →
      Action cfg s (.tick c) { s with
        tick := .scan ⟨s.timingWheel.headD ∅, s.timingWheel.headD ∅, false⟩ }
  | tickDone {c b} : s.tick = .scan b → b.rest = ∅ →
      Action cfg s (.tick c) { s with
        tick := .finishing b.modi
        manage := if b.notify then s.manage.notified else s.manage }
  | tickDead {c b} : s.tick = .scan b → c ∈ b.rest → s.useCount c = 0 →
      Action cfg s (.tick c) { s with tick := .scan ⟨b.modi.erase c, b.rest.erase c, b.notify⟩ }
  | tickLock {c b} : s.tick = .scan b → c ∈ b.rest → s.useCount c ≠ 0 →
      Action cfg s (.tick c) { s with tick := .exam c .locked ⟨b.modi, b.rest.erase c, b.notify⟩ }
  | sawPending {c d b} : s.tick = .exam d .locked b → (s.conns d).conn.stats = .pending →
      Action cfg s (.tick c) { s with tick := .exam d .sawPending b }
  | sawOther {c d b} : s.tick = .exam d .locked b → (s.conns d).conn.stats ≠ .pending →
      Action cfg s (.tick c) { s with tick := .exam d .sawOther b }
  | dropCached {c d b} : s.tick = .exam d .sawPending b → d ∈ s.cachedConns →
      Action cfg s (.tick c) { s with tick := .exam d .release (b.eraseModi d) }
  | expire {c d b} : s.tick = .exam d .sawOther b → s.touchedOut cfg d →
      Action cfg s (.tick c) { s with tick := .exam d .expired (b.eraseModi d) }
  | keep {c d b} : s.tick = .exam d .sawOther b → ¬ s.touchedOut cfg d →
      Action cfg s (.tick c) { s with tick := .exam d .release b }
  | shut {c d b} : s.tick = .exam d .expired b → (s.conns d).conn.pSock ≠ none →
      Action cfg s (.tick c)
        { s.setConn d ((s.conns d).perform .shutdown) with tick := .exam d .shut b }
  | mark {c d b} : s.tick = .exam d .shut b →
      Action cfg s (.tick c)
        { s.setConn d { s.conns d with conn := { (s.conns d).conn with stats := .error } } with
          tick := .exam d .marked b }
  | tickPush {c d b} : s.tick = .exam d .marked b → s.manage.locked = false →
      Action cfg s (.tick c) { s with
        pendingToRemove := insert d s.pendingToRemove
        tick := .exam d .release { b with notify := true } }
  | release {c d b} : s.tick = .exam d .release b →
      Action cfg s (.tick c) { s with tick := .scan b }
  | rotate {c modi} : s.tick = .finishing modi → s.manage.locked = false →
      Action cfg s (.tick c) { s with
        timingWheel := Wheel.rotate s.timingWheel modi, tick := .idle }
  -- the manage thread
  | wake : s.manage = .waiting → Action cfg s .wake { s with manage := .woken }
  | timeout : s.manage = .waiting → Action cfg s .timeout { s with manage := .timedOut }
  | wait {c} : s.manage = .outside → Action cfg s (.manage c) { s with manage := .waiting }
  | nothing {c} : s.manage = .woken → s.pendingToRemove = ∅ →
      Action cfg s (.manage c) { s with manage := .outside }
  | beginPass {c} : s.manage = .woken → s.pendingToRemove ≠ ∅ →
      Action cfg s (.manage c) { s with manage := .scan s.pendingToRemove }
  | showConns {c} : s.manage = .timedOut → Action cfg s (.manage c) { s with manage := .showing }
  | shownConns {c} : s.manage = .showing → Action cfg s (.manage c) { s with manage := .outside }
  | endPass {c} : s.manage = .scan ∅ → s.frontConns.card = s.currentConnsCnt →
      Action cfg s (.manage c) { s with pendingToRemove := ∅, manage := .outside }
  | pick {c todo} : s.manage = .scan todo → c ∈ todo →
      Action cfg s (.manage c) { s with manage := .item c .picked (todo.erase c) }
  | absent {c d todo} : s.manage = .item d .picked todo → d ∉ s.frontConns →
      Action cfg s (.manage c) { s with manage := .scan todo }
  | skip {c d todo} : s.manage = .item d .picked todo → d ∈ s.frontConns → 3 < s.useCount d →
      Action cfg s (.manage c) { s with
        timingWheel := Wheel.insertBack s.timingWheel d, manage := .scan todo }
  | test {c d todo} : s.manage = .item d .picked todo → d ∈ s.frontConns → s.useCount d ≤ 3 →
      Action cfg s (.manage c) { s with manage := .item d .tested todo }
  | erase {c d todo} : s.manage = .item d .tested todo →
      Action cfg s (.manage c) { s with
        frontConns := s.frontConns.erase d, manage := .item d .erased todo }
  | count {c d todo} : s.manage = .item d .erased todo →
      Action cfg s (.manage c) { s with
        currentConnsCnt := sizeSub s.currentConnsCnt 1, manage := .item d .counted todo }
  | room {c d todo} : s.manage = .item d .counted todo → s.hasRoom cfg →
      Action cfg s (.manage c) { s with manage := .item d .room todo }
  | noRoom {c d todo} : s.manage = .item d .counted todo → ¬ s.hasRoom cfg →
      Action cfg s (.manage c) { s with manage := .scan todo }
  | wash {c d todo conn} : s.manage = .item d .room todo →
      (s.conns d).conn.connWashWhite = .ok conn →
      Action cfg s (.manage c)
        { s.setConn d { s.conns d with conn := conn } with manage := .item d .washed todo }
  | cache {c d todo} : s.manage = .item d .washed todo →
      Action cfg s (.manage c) { s with
        cachedConns := s.cachedConns ++ [d], manage := .scan todo }

section StepAction

variable {cfg : Config} {s t : Server}

private theorem acceptedStep_action {r : AcceptResult} (h : s.acceptedStep cfg r = .ok t) :
    Action cfg s (.accepted r) t := by
  simp only [acceptedStep] at h
  split at h
  next hl =>
    cases r with
    | error =>
        obtain rfl := Except.ok.inj h
        exact .acceptError hl
    | vanished => cases h
    | peer =>
        simp only at h
        split at h
        next hfull =>
          obtain rfl := Except.ok.inj h
          exact .acceptRefused hl hfull
        next hfree =>
          obtain rfl := Except.ok.inj h
          exact .acceptTested hl (Nat.not_le.mp hfree)
  · cases h

private theorem acceptStep_action (h : s.acceptStep = .ok t) : Action cfg s .accept t := by
  simp only [acceptStep] at h
  split at h
  next sock ht =>
    split at h
    · cases h
    next hfree =>
      split at h
      next c cached hc =>
        split at h
        · cases h
        next hone =>
          obtain rfl := Except.ok.inj h
          exact .recycle ht (Bool.not_eq_true _ ▸ hfree) hc (not_not.mp hone)
      next hc =>
        obtain rfl := Except.ok.inj h
        exact .create ht (Bool.not_eq_true _ ▸ hfree) hc
  next c hi =>
    split at h
    · cases h
    next g hg =>
      obtain rfl := Except.ok.inj h
      exact .start hi hg
  next c hs =>
    obtain rfl := Except.ok.inj h
    exact .listen hs
  · cases h

private theorem ioStep_action {c : ConnId} {e : Event} (h : s.ioStep c e = .ok t) :
    Action cfg s (.io c e) t := by
  simp only [ioStep] at h
  split at h
  · cases h
  next hidle =>
    split at h
    · cases h
    next x effects hx =>
      obtain rfl := Except.ok.inj h
      exact .io hidle hx

private theorem handlerStep_action {c : ConnId} (h : s.handlerStep c = .ok t) :
    Action cfg s (.handler c) t := by
  simp only [handlerStep] at h
  split at h
  next hp =>
    split at h
    · cases h
    next hfree =>
      obtain rfl := Except.ok.inj h
      exact .push hp (Bool.not_eq_true _ ▸ hfree)
  next hp =>
    split at h
    next hn =>
      obtain rfl := Except.ok.inj h
      exact .notify hp hn
    · cases h

private theorem examStep_action {c d : ConnId} {stage : TickStage} {b : TickBatch}
    (ht : s.tick = .exam d stage b) (h : s.examStep cfg d stage b = .ok t) :
    Action cfg s (.tick c) t := by
  cases stage with
  | locked =>
      simp only [examStep] at h
      split at h
      next hp =>
        obtain rfl := Except.ok.inj h
        exact .sawPending ht hp
      next hp =>
        obtain rfl := Except.ok.inj h
        exact .sawOther ht hp
  | sawPending =>
      simp only [examStep] at h
      split at h
      next hc =>
        obtain rfl := Except.ok.inj h
        exact .dropCached ht hc
      · cases h
  | sawOther =>
      simp only [examStep] at h
      split at h
      next he =>
        obtain rfl := Except.ok.inj h
        exact .expire ht he
      next he =>
        obtain rfl := Except.ok.inj h
        exact .keep ht he
  | expired =>
      simp only [examStep] at h
      split at h
      · cases h
      next hsock =>
        obtain rfl := Except.ok.inj h
        exact .shut ht hsock
  | shut =>
      obtain rfl := Except.ok.inj h
      exact .mark ht
  | marked =>
      simp only [examStep] at h
      split at h
      · cases h
      next hfree =>
        obtain rfl := Except.ok.inj h
        exact .tickPush ht (Bool.not_eq_true _ ▸ hfree)
  | release =>
      obtain rfl := Except.ok.inj h
      exact .release ht

private theorem tickStep_action {c : ConnId} (h : s.tickStep cfg c = .ok t) :
    Action cfg s (.tick c) t := by
  simp only [tickStep] at h
  split at h
  next ht =>
    obtain rfl := Except.ok.inj h
    exact .tickBegin ht
  next b ht =>
    split at h
    next hrest =>
      obtain rfl := Except.ok.inj h
      exact .tickDone ht hrest
    · split at h
      · cases h
      next hc =>
        split at h
        next hdead =>
          obtain rfl := Except.ok.inj h
          exact .tickDead ht (not_not.mp hc) hdead
        next halive =>
          obtain rfl := Except.ok.inj h
          exact .tickLock ht (not_not.mp hc) halive
  next d stage b ht => exact examStep_action ht h
  next modi ht =>
    split at h
    · cases h
    next hfree =>
      obtain rfl := Except.ok.inj h
      exact .rotate ht (Bool.not_eq_true _ ▸ hfree)

private theorem passStep_action {c d : ConnId} {stage : PassStage} {todo : Finset ConnId}
    (hm : s.manage = .item d stage todo) (h : s.passStep cfg d stage todo = .ok t) :
    Action cfg s (.manage c) t := by
  cases stage with
  | picked =>
      simp only [passStep] at h
      split at h
      next hd =>
        obtain rfl := Except.ok.inj h
        exact .absent hm hd
      next hd =>
        split at h
        next hmany =>
          obtain rfl := Except.ok.inj h
          exact .skip hm (not_not.mp hd) hmany
        next hfew =>
          obtain rfl := Except.ok.inj h
          exact .test hm (not_not.mp hd) (Nat.not_lt.mp hfew)
  | tested =>
      obtain rfl := Except.ok.inj h
      exact .erase hm
  | erased =>
      obtain rfl := Except.ok.inj h
      exact .count hm
  | counted =>
      simp only [passStep] at h
      split at h
      next hroom =>
        obtain rfl := Except.ok.inj h
        exact .room hm hroom
      next hroom =>
        obtain rfl := Except.ok.inj h
        exact .noRoom hm hroom
  | room =>
      simp only [passStep] at h
      split at h
      · cases h
      next conn hw =>
        obtain rfl := Except.ok.inj h
        exact .wash hm hw
  | washed =>
      obtain rfl := Except.ok.inj h
      exact .cache hm

private theorem manageStep_action {c : ConnId} (h : s.manageStep cfg c = .ok t) :
    Action cfg s (.manage c) t := by
  simp only [manageStep] at h
  split at h
  next hm =>
    obtain rfl := Except.ok.inj h
    exact .wait hm
  · cases h
  next hm =>
    split at h
    next hnone =>
      obtain rfl := Except.ok.inj h
      exact .nothing hm hnone
    next hsome =>
      obtain rfl := Except.ok.inj h
      exact .beginPass hm hsome
  next hm =>
    obtain rfl := Except.ok.inj h
    exact .showConns hm
  next hm =>
    obtain rfl := Except.ok.inj h
    exact .shownConns hm
  next todo hm =>
    split at h
    next hdone =>
      split at h
      next hcount =>
        obtain rfl := Except.ok.inj h
        exact .endPass (hdone ▸ hm) hcount
      · cases h
    · split at h
      · cases h
      next hc =>
        obtain rfl := Except.ok.inj h
        exact .pick hm (not_not.mp hc)
  next d stage todo hm => exact passStep_action hm h

/-- Nothing goes on after an exception. -/
theorem throwStep_ne_ok {call : ThrowingCall} : s.throwStep cfg call ≠ .ok t := by
  intro h
  cases call <;> simp only [throwStep] at h
  · split at h <;> cases h
  · split at h
    · split at h <;> cases h
    · cases h
  · split at h
    · cases h
    · split at h
      · cases h
      · split at h <;> cases h

theorem overlookStep_ne_ok : s.overlookStep ≠ .ok t := by
  intro h
  simp only [overlookStep] at h
  split at h
  · split at h <;> cases h
  · cases h

/-- A step of the server is one of the listed actions. The invariants of the
server are shown along them, so no proof of one unfolds the step function. -/
theorem step_action {l : Label} (h : step cfg s l = .ok t) : Action cfg s l t := by
  cases l with
  | clock now =>
      obtain rfl := Except.ok.inj h
      exact .clock now
  | accepted r => exact acceptedStep_action h
  | accept => exact acceptStep_action h
  | io c e => exact ioStep_action h
  | handler c => exact handlerStep_action h
  | tick c => exact tickStep_action h
  | wake =>
      simp only [step] at h
      split at h
      next hm =>
        obtain rfl := Except.ok.inj h
        exact .wake hm
      · cases h
  | timeout =>
      simp only [step] at h
      split at h
      next hm =>
        obtain rfl := Except.ok.inj h
        exact .timeout hm
      · cases h
  | manage c => exact manageStep_action h
  | throws call => exact absurd h throwStep_ne_ok
  | overlook => exact absurd h overlookStep_ne_ok

end StepAction

end Server

end Ailawd
