import Ailawd.Server.Actions
import Mathlib.Algebra.Order.Field.Rat
import Mathlib.Tactic.Linarith

/-!
# Pool accounting

`Pool` relates the counter, the map of served connections and the cache, for every
point of the accept handler and of a pass of the manage thread: one decrement may be
owed, a slot that the limit test found stays free until it is taken, and the item of
a pass is in exactly the container that its stage says. It holds under any order of
steps, and with any calls of `push_to_remove` besides those the program makes.
-/

namespace Ailawd

open Transition ByteString

namespace ManagePc

/-- Connections that have left `front_conns_` and are still counted: one at
most, between two statements of a removal. -/
def uncounted : ManagePc → Nat
  | .item _ .erased _ => 1
  | _ => 0

def item? : ManagePc → Option (ConnId × PassStage)
  | .item c stage _ => some (c, stage)
  | _ => none

@[simp] theorem uncounted_notified (m : ManagePc) : m.notified.uncounted = m.uncounted := by
  cases m <;> rfl

@[simp] theorem item?_notified (m : ManagePc) : m.notified.item? = m.item? := by
  cases m <;> rfl

@[simp] theorem locked_notified (m : ManagePc) : m.notified.locked = m.locked := by
  cases m <;> rfl

@[simp] theorem conn_notified (m : ManagePc) : m.notified.conn = m.conn := by
  cases m <;> rfl

theorem of_unlocked {m : ManagePc} (h : m.locked = false) : m.uncounted = 0 ∧ m.item? = none := by
  cases m <;> first | exact ⟨rfl, rfl⟩ | cases h

end ManagePc

/-- Where the item of a pass is at each stage: in the map,
and then in no container. -/
def ItemAt (cfg : Config) (front : Finset ConnId) (cached : List ConnId) (c : ConnId) :
    PassStage → Prop
  | .picked => True
  | .tested => c ∈ front
  | .erased => c ∉ front ∧ c ∉ cached
  | .counted => c ∉ front ∧ c ∉ cached
  | .room => c ∉ front ∧ c ∉ cached ∧ 10 * cached.length < 3 * cfg.maxServe
  | .washed => c ∉ front ∧ c ∉ cached ∧ 10 * cached.length < 3 * cfg.maxServe

/-- The accounting invariant, over the parts of the server that it is about.
The two sizes differ by what is uncounted. -/
structure Pool (cfg : Config) (front : Finset ConnId) (cnt : Nat) (cached : List ConnId)
    (accept : AcceptPc) (manage : ManagePc) (nextConn : ConnId) : Prop where
  count : cnt = front.card + manage.uncounted
  bound : cnt ≤ cfg.maxServe
  tested : ∀ sock, accept = .tested sock → cnt < cfg.maxServe
  nodup : cached.Nodup
  disjoint : ∀ c ∈ cached, c ∉ front
  length : 10 * cached.length < 3 * cfg.maxServe + 10
  item : ∀ c stage, manage.item? = some (c, stage) → ItemAt cfg front cached c stage
  old : (∀ c ∈ front, c < nextConn) ∧ (∀ c ∈ cached, c < nextConn) ∧
    ∀ c stage, manage.item? = some (c, stage) → stage ≠ .picked → c < nextConn

namespace Pool

variable {cfg : Config} {front : Finset ConnId} {cnt : Nat} {cached : List ConnId}
variable {accept accept' : AcceptPc} {manage manage' : ManagePc} {nextConn c : ConnId}
variable {todo : Finset ConnId}

/-- A change of program counters that leaves no new item and no new test, and
so nothing to account for. -/
theorem control (h : Pool cfg front cnt cached accept manage nextConn)
    (ha : ∀ sock, accept' = .tested sock → cnt < cfg.maxServe)
    (hu : manage'.uncounted = manage.uncounted)
    (hi : ∀ c stage, manage'.item? = some (c, stage) →
      stage = .picked ∨ manage.item? = some (c, stage)) :
    Pool cfg front cnt cached accept' manage' nextConn := by
  obtain ⟨count, bound, -, nodup, disjoint, length, item, hfront, hcached, hitem⟩ := h
  refine ⟨hu ▸ count, bound, ha, nodup, disjoint, length, ?_, hfront, hcached, ?_⟩
  · intro c stage hc
    obtain rfl | hc := hi c stage hc
    · trivial
    · exact item c stage hc
  · intro c stage hc hstage
    exact hitem c stage ((hi c stage hc).resolve_left hstage) hstage

/-- An accepted connection takes the slot that was tested for; no other one can
have taken it since. -/
theorem emplace {sock : SockId} (h : Pool cfg front cnt cached (.tested sock) manage nextConn)
    (hfree : manage.locked = false) {cached' : List ConnId} {nextConn' : ConnId}
    (hsub : cached'.Sublist cached) (hnext : nextConn ≤ nextConn') (hc : c < nextConn')
    (hfront : c ∉ front) (hcached : c ∉ cached') :
    Pool cfg (insert c front) ((cnt + 1) % sizeMod) cached' (.inserted c) manage nextConn' := by
  obtain ⟨hu, hi⟩ := ManagePc.of_unlocked hfree
  have hlt := h.tested sock rfl
  have hmod : (cnt + 1) % sizeMod = cnt + 1 := by
    have := cfg.maxServe_lt
    rw [Nat.mod_eq_of_lt (by omega)]
  have hcount := h.count
  rw [hu] at hcount
  refine ⟨?_, ?_, ?_, hsub.nodup h.nodup, ?_, ?_, ?_, ?_, ?_, ?_⟩
  · rw [hmod, Finset.card_insert_of_notMem hfront, hu]
    omega
  · omega
  · intro sock' heq
    cases heq
  · intro d hd hmem
    obtain rfl | hmem := Finset.mem_insert.mp hmem
    · exact hcached hd
    · exact h.disjoint d (hsub.subset hd) hmem
  · have := hsub.length_le
    have := h.length
    omega
  · intro d stage hd
    rw [hi] at hd
    cases hd
  · intro d hd
    obtain rfl | hd := Finset.mem_insert.mp hd
    · exact hc
    · exact Nat.lt_of_lt_of_le (h.old.1 d hd) hnext
  · intro d hd
    exact Nat.lt_of_lt_of_le (h.old.2.1 d (hsub.subset hd)) hnext
  · intro d stage hd
    rw [hi] at hd
    cases hd

theorem erase (h : Pool cfg front cnt cached accept (.item c .tested todo) nextConn) :
    Pool cfg (front.erase c) cnt cached accept (.item c .erased todo) nextConn := by
  have hmem : c ∈ front := h.item c .tested rfl
  have hcard := Finset.card_erase_add_one hmem
  have hcount : cnt = front.card := h.count
  refine ⟨hcount.trans hcard.symm, h.bound, h.tested, h.nodup, ?_, h.length, ?_, ?_, h.old.2.1, ?_⟩
  · intro d hd hmem'
    exact h.disjoint d hd (Finset.mem_of_mem_erase hmem')
  · intro d stage hd
    cases hd
    exact ⟨Finset.notMem_erase c front, fun hc => h.disjoint c hc hmem⟩
  · intro d hd
    exact h.old.1 d (Finset.mem_of_mem_erase hd)
  · intro d stage hd _
    cases hd
    exact h.old.1 c hmem

/-- Then the counter, which is positive here, so that the
subtraction does not wrap. -/
theorem decrement (h : Pool cfg front cnt cached accept (.item c .erased todo) nextConn) :
    0 < cnt ∧
      Pool cfg front (sizeSub cnt 1) cached accept (.item c .counted todo) nextConn := by
  have hcount : cnt = front.card + 1 := h.count
  have hbound := h.bound
  have hsub : sizeSub cnt 1 = cnt - 1 := by
    have := cfg.maxServe_lt
    exact sizeSub_of_le (by omega) (by omega)
  refine ⟨by omega, ?_, ?_, ?_, h.nodup, h.disjoint, h.length, ?_, h.old.1, h.old.2.1, ?_⟩
  · rw [hsub]
    exact Nat.sub_eq_of_eq_add hcount
  · omega
  · intro sock hsock
    have := h.tested sock hsock
    omega
  · intro d stage hd
    cases hd
    exact h.item c .erased rfl
  · intro d stage hd _
    cases hd
    exact h.old.2.2 c .erased rfl (by decide)

theorem advance {stage stage' : PassStage}
    (h : Pool cfg front cnt cached accept (.item c stage todo) nextConn)
    (hu : (ManagePc.item c stage todo).uncounted = 0)
    (hu' : (ManagePc.item c stage' todo).uncounted = 0)
    (hat : ItemAt cfg front cached c stage') (hold : c < nextConn) :
    Pool cfg front cnt cached accept (.item c stage' todo) nextConn := by
  refine ⟨?_, h.bound, h.tested, h.nodup, h.disjoint, h.length, ?_, h.old.1, h.old.2.1, ?_⟩
  · rw [hu', ← hu]
    exact h.count
  · intro d stage hd
    cases hd
    exact hat
  · intro d stage hd _
    cases hd
    exact hold

theorem cache (h : Pool cfg front cnt cached accept (.item c .washed todo) nextConn) :
    Pool cfg front cnt (cached ++ [c]) accept (.scan todo) nextConn := by
  obtain ⟨hfront, hcached, hroom⟩ := h.item c .washed rfl
  have hold := h.old.2.2 c .washed rfl (by decide)
  refine ⟨h.count, h.bound, h.tested, ?_, ?_, ?_, ?_, h.old.1, ?_, ?_⟩
  · refine List.nodup_append.mpr ⟨h.nodup, List.nodup_singleton c, ?_⟩
    rintro a ha b hb rfl
    exact hcached (List.mem_singleton.mp hb ▸ ha)
  · intro d hd
    obtain hd | hd := List.mem_append.mp hd
    · exact h.disjoint d hd
    · exact List.mem_singleton.mp hd ▸ hfront
  · rw [List.length_append, List.length_singleton]
    omega
  · intro d stage hd
    cases hd
  · intro d hd
    obtain hd | hd := List.mem_append.mp hd
    · exact h.old.2.1 d hd
    · exact List.mem_singleton.mp hd ▸ hold
  · intro d stage hd
    cases hd

end Pool

namespace Server

/-- The invariant of the server. The containers and the counter in it are
guarded by `front_conns_mutex_`. -/
def Accounted (cfg : Config) (s : Server) : Prop :=
  Pool cfg s.frontConns s.currentConnsCnt s.cachedConns s.accept s.manage s.nextConn

variable {cfg : Config} {s t : Server}

theorem accounted_init : Accounted cfg init := by
  refine ⟨rfl, Nat.zero_le _, ?_, List.nodup_nil, ?_, ?_, ?_, ?_, ?_, ?_⟩
  · intro sock h
    cases h
  · intro c h
    cases h
  · exact Nat.succ_pos _
  · intro c stage h
    cases h
  · intro c h
    exact absurd h (Finset.notMem_empty c)
  · intro c h
    cases h
  · intro c stage h
    cases h

private theorem Accounted.manage {m : ManagePc} (h : s.Accounted cfg)
    (hu : m.uncounted = s.manage.uncounted)
    (hi : ∀ c stage, m.item? = some (c, stage) →
      stage = .picked ∨ s.manage.item? = some (c, stage)) :
    Pool cfg s.frontConns s.currentConnsCnt s.cachedConns s.accept m s.nextConn :=
  h.control h.tested hu hi

private theorem Accounted.manage_none {m : ManagePc} (h : s.Accounted cfg)
    (hu : m.uncounted = s.manage.uncounted) (hi : m.item? = none) :
    Pool cfg s.frontConns s.currentConnsCnt s.cachedConns s.accept m s.nextConn :=
  h.manage hu fun c stage hc => by rw [hi] at hc; cases hc

theorem Accounted.action {l : Label} (h : s.Accounted cfg) (ha : Action cfg s l t) :
    t.Accounted cfg := by
  cases ha with
  | acceptError _ => exact h.control (fun _ heq => by cases heq) rfl fun _ _ hc => .inr hc
  | acceptTested _ hlt => exact h.control (fun _ _ => hlt) rfl fun _ _ hc => .inr hc
  | @recycle sock c cached htested hfree hcached _ =>
      have hpool : Pool cfg s.frontConns s.currentConnsCnt (c :: cached) (.tested sock) s.manage
          s.nextConn := by rw [← hcached, ← htested]; exact h
      exact hpool.emplace hfree (List.sublist_cons_self c cached) (Nat.le_refl _)
        (hpool.old.2.1 c List.mem_cons_self) (hpool.disjoint c List.mem_cons_self)
        (List.nodup_cons.mp hpool.nodup).1
  | @create sock htested hfree hcached =>
      have hpool : Pool cfg s.frontConns s.currentConnsCnt s.cachedConns (.tested sock) s.manage
          s.nextConn := by rw [← htested]; exact h
      exact hpool.emplace hfree (List.Sublist.refl _) (Nat.le_succ _) (Nat.lt_succ_self _)
        (fun hc => absurd (hpool.old.1 _ hc) (Nat.lt_irrefl _))
        (fun hc => absurd (hpool.old.2.1 _ hc) (Nat.lt_irrefl _))
  | start _ _ => exact h.control (fun _ heq => by cases heq) rfl fun _ _ hc => .inr hc
  | listen _ => exact h.control (fun _ heq => by cases heq) rfl fun _ _ hc => .inr hc
  | notify _ _ =>
      refine h.manage (ManagePc.uncounted_notified _) fun _ _ hc => .inr ?_
      rwa [ManagePc.item?_notified] at hc
  | @tickDone _ b _ _ =>
      change Pool cfg s.frontConns s.currentConnsCnt s.cachedConns s.accept
        (if b.notify = true then s.manage.notified else s.manage) s.nextConn
      split
      · refine h.manage (ManagePc.uncounted_notified _) fun _ _ hc => .inr ?_
        rwa [ManagePc.item?_notified] at hc
      · exact h
  | wake hm => exact h.manage_none (by rw [hm]; rfl) rfl
  | timeout hm => exact h.manage_none (by rw [hm]; rfl) rfl
  | wait hm => exact h.manage_none (by rw [hm]; rfl) rfl
  | nothing hm _ => exact h.manage_none (by rw [hm]; rfl) rfl
  | beginPass hm _ => exact h.manage_none (by rw [hm]; rfl) rfl
  | showConns hm => exact h.manage_none (by rw [hm]; rfl) rfl
  | shownConns hm => exact h.manage_none (by rw [hm]; rfl) rfl
  | endPass hm _ => exact h.manage_none (by rw [hm]; rfl) rfl
  | pick hm _ =>
      apply h.manage (by rw [hm]; rfl)
      intro c stage hc
      cases hc
      exact .inl rfl
  | absent hm _ => exact h.manage_none (by rw [hm]; rfl) rfl
  | skip hm _ _ => exact h.manage_none (by rw [hm]; rfl) rfl
  | @test _ d todo hm hd _ =>
      have hpool : Pool cfg s.frontConns s.currentConnsCnt s.cachedConns s.accept
          (.item d .picked todo) s.nextConn := by rw [← hm]; exact h
      exact hpool.advance rfl rfl hd (hpool.old.1 d hd)
  | @erase _ d todo hm =>
      have hpool : Pool cfg s.frontConns s.currentConnsCnt s.cachedConns s.accept
          (.item d .tested todo) s.nextConn := by rw [← hm]; exact h
      exact hpool.erase
  | @count _ d todo hm =>
      have hpool : Pool cfg s.frontConns s.currentConnsCnt s.cachedConns s.accept
          (.item d .erased todo) s.nextConn := by rw [← hm]; exact h
      exact hpool.decrement.2
  | @room _ d todo hm hroom =>
      have hpool : Pool cfg s.frontConns s.currentConnsCnt s.cachedConns s.accept
          (.item d .counted todo) s.nextConn := by rw [← hm]; exact h
      obtain ⟨hfront, hcached⟩ := hpool.item d .counted rfl
      exact hpool.advance rfl rfl ⟨hfront, hcached, hroom⟩
        (hpool.old.2.2 d .counted rfl (by decide))
  | noRoom hm _ => exact h.manage_none (by rw [hm]; rfl) rfl
  | @wash _ d todo _ hm _ =>
      have hpool : Pool cfg s.frontConns s.currentConnsCnt s.cachedConns s.accept
          (.item d .room todo) s.nextConn := by rw [← hm]; exact h
      exact hpool.advance rfl rfl (hpool.item d .room rfl) (hpool.old.2.2 d .room rfl (by decide))
  | @cache _ d todo hm =>
      have hpool : Pool cfg s.frontConns s.currentConnsCnt s.cachedConns s.accept
          (.item d .washed todo) s.nextConn := by rw [← hm]; exact h
      exact hpool.cache
  | _ => exact h

inductive PoolLabel where
  | program (l : Label)
  | pushToRemove (c : ConnId)

/-- The server with callers of `push_to_remove` that it does not have itself,
for any object and at any time. -/
def stepWithPushes (cfg : Config) (s : Server) : PoolLabel → Except (Stop Fault) Server
  | .program l => step cfg s l
  | .pushToRemove c =>
    if s.manage.locked then .error .disabled
    else .ok { s with pendingToRemove := insert c s.pendingToRemove }

theorem Accounted.preserved {l : PoolLabel} (h : s.Accounted cfg)
    (hs : stepWithPushes cfg s l = .ok t) : t.Accounted cfg := by
  cases l with
  | program l => exact h.action (step_action hs)
  | pushToRemove c =>
      simp only [stepWithPushes] at hs
      split at hs
      · cases hs
      · obtain rfl := Except.ok.inj hs
        exact h

theorem accounted_of_run {moves : List (Move Server PoolLabel)}
    (hr : Run (stepWithPushes cfg) init moves s) : s.Accounted cfg :=
  hr.invariant accounted_init fun _ _ _ h hs => h.preserved hs

/-- The assertion at the end of a pass compares numbers that agree, as no
removal is half done then. -/
theorem Accounted.no_poolCount (h : s.Accounted cfg) (c : ConnId) :
    step cfg s (.manage c) ≠ .error (.fault .poolCount) := by
  intro hs
  simp only [Server.step, manageStep] at hs
  split at hs
  · cases hs
  · cases hs
  · split at hs <;> cases hs
  · cases hs
  · cases hs
  next todo hm =>
    have hcount := h.count
    rw [hm] at hcount
    split at hs
    · split at hs
      · cases hs
      next hne => exact hne hcount.symm
    · split at hs <;> cases hs
  next d stage todo hm =>
    cases stage with
    | picked =>
        simp only [passStep] at hs
        split at hs
        · cases hs
        · split at hs <;> cases hs
    | tested => cases hs
    | erased => cases hs
    | counted =>
        simp only [passStep] at hs
        split at hs <;> cases hs
    | room =>
        simp only [passStep, FrontConn.connWashWhite] at hs
        split at hs
        next heq =>
          split at heq
          · cases heq
            cases hs
          · cases heq
        · cases hs
    | washed => cases hs

/-- The counter, the map and the cache agree whenever `front_conns_mutex_`
is free, the assertion of the manage thread holds and its decrement does not
wrap. -/
theorem pool_accounted {moves : List (Move Server PoolLabel)}
    (hr : Run (stepWithPushes cfg) init moves s) :
    (s.manage.locked = false → s.currentConnsCnt = s.frontConns.card ∧
      s.frontConns.card ≤ cfg.maxServe ∧ s.cachedConns.Nodup ∧
      (∀ c ∈ s.cachedConns, c ∉ s.frontConns) ∧
      (s.cachedConns.length : ℚ) < 3 / 10 * cfg.maxServe + 1) ∧
    (∀ c, step cfg s (.manage c) ≠ .error (.fault .poolCount)) ∧
    ∀ c todo, s.manage = .item c .erased todo → 0 < s.currentConnsCnt := by
  have h := accounted_of_run hr
  refine ⟨fun hfree => ?_, fun c => h.no_poolCount c, fun c todo hm => ?_⟩
  · have hcount := h.count
    rw [(ManagePc.of_unlocked hfree).1, Nat.add_zero] at hcount
    refine ⟨hcount, hcount ▸ h.bound, h.nodup, h.disjoint, ?_⟩
    have hlength : (10 * s.cachedConns.length : ℚ) < 3 * cfg.maxServe + 10 := by
      exact_mod_cast h.length
    linarith
  · have hcount := h.count
    rw [hm] at hcount
    exact hcount ▸ Nat.succ_pos _

def smallConfig : Config := ⟨10, 600, by decide, by decide⟩

/-- The statement for a server that has accepted a connection whose
removal was requested twice. -/
theorem pool_accounted_one : ∃ moves s, Run (stepWithPushes smallConfig) init moves s ∧
    s.pendingToRemove = {0} ∧ s.manage.locked = false ∧
    (s.manage.locked = false → s.currentConnsCnt = s.frontConns.card ∧
      s.frontConns.card ≤ smallConfig.maxServe ∧ s.cachedConns.Nodup ∧
      (∀ c ∈ s.cachedConns, c ∉ s.frontConns) ∧
      (s.cachedConns.length : ℚ) < 3 / 10 * smallConfig.maxServe + 1) ∧
    (∀ c, step smallConfig s (.manage c) ≠ .error (.fault .poolCount)) ∧
    ∀ c todo, s.manage = .item c .erased todo → 0 < s.currentConnsCnt := by
  obtain ⟨moves, s, hr, -, hpending, hfree⟩ :=
    run_of_reaches (stepWithPushes smallConfig) init
      [.program (.accepted .peer), .program .accept, .pushToRemove 0, .pushToRemove 0]
      (p := fun s => s.pendingToRemove = {0} ∧ s.manage.locked = false) (by decide +kernel)
  exact ⟨moves, s, hr, hpending, hfree, pool_accounted hr⟩

end Server

end Ailawd
