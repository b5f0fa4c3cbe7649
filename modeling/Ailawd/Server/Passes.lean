import Ailawd.Server.Recycling

/-!
# A pass of the manage thread

While the manage thread holds both mutexes, the containers change only as it changes them,
and the other threads go on with the objects. `ManagePc.rank` bounds what is left of a pass,
so nobody waits for the mutexes for ever, and `PassedOver` is the loop invariant of a pass
over whatever the others do meanwhile.
-/

namespace Ailawd

open Transition ByteString

/-- The steps that a pass still needs for an item, at most. The longest way is
the one into the cache. -/
def PassStage.rank : PassStage → Nat
  | .picked => 6
  | .tested => 5
  | .erased => 4
  | .counted => 3
  | .room => 2
  | .washed => 1

namespace ManagePc

/-- The steps until the thread lets go of the mutexes, at most: those of the
item in hand, seven for each connection behind it, and the printing. -/
def rank : ManagePc → Nat
  | .showing => 1
  | .scan todo => 7 * todo.card + 1
  | .item _ stage todo => stage.rank + 7 * todo.card + 1
  | _ => 0

def toMeet : ManagePc → Finset ConnId
  | .scan todo => todo
  | .item c _ todo => insert c todo
  | _ => ∅

theorem notified_of_locked {m : ManagePc} (h : m.locked = true) : m.notified = m := by
  cases m <;> first | rfl | cases h

theorem toMeet_notified (m : ManagePc) : m.notified.toMeet = m.toMeet := by
  cases m <;> rfl

end ManagePc

def Config.cacheSize (cfg : Config) : Nat := (3 * cfg.maxServe + 9) / 10

def Label.isManage : Label → Bool
  | .manage _ => true
  | _ => false

namespace Server

variable {cfg : Config} {s t u : Server} {l : Label} {c d : ConnId}
variable {moves more : List (Move Server Label)}

/-- What the two mutexes guard is the same, the wheel and the cache among it,
and so is where their holder is. -/
structure SameGuarded (s t : Server) : Prop where
  manage : t.manage = s.manage
  front : t.frontConns = s.frontConns
  count : t.currentConnsCnt = s.currentConnsCnt
  pending : t.pendingToRemove = s.pendingToRemove
  wheel : t.timingWheel = s.timingWheel
  cached : t.cachedConns = s.cachedConns

structure SameOthers (s t : Server) : Prop where
  accept : t.accept = s.accept
  tick : t.tick = s.tick
  pushing : t.pushing = s.pushing
  notifying : t.notifying = s.notifying

theorem SameOthers.trans (h : SameOthers s t) (h' : SameOthers t u) : SameOthers s u :=
  ⟨h'.accept.trans h.accept, h'.tick.trans h.tick, h'.pushing.trans h.pushing,
    h'.notifying.trans h.notifying⟩

/-- The other threads change nothing that the mutexes guard while they cannot
take them; what they do to sockets and operations is not guarded. -/
theorem Action.sameGuarded (ha : Action cfg s l t) (hl : s.manage.locked = true)
    (hother : ∀ c, l ≠ .manage c) : SameGuarded s t := by
  have hfalse : s.manage.locked ≠ false := fun hfree => Bool.noConfusion (hfree.symm.trans hl)
  have hnotified := ManagePc.notified_of_locked hl
  cases ha with
  | recycle _ hfree _ _ => exact absurd hfree hfalse
  | create _ hfree _ => exact absurd hfree hfalse
  | push _ hfree => exact absurd hfree hfalse
  | tickPush _ hfree => exact absurd hfree hfalse
  | rotate _ hfree => exact absurd hfree hfalse
  | notify _ _ => exact ⟨hnotified, rfl, rfl, rfl, rfl, rfl⟩
  | @tickDone _ b _ _ =>
      refine ⟨?_, rfl, rfl, rfl, rfl, rfl⟩
      change (if b.notify = true then s.manage.notified else s.manage) = s.manage
      rw [hnotified, ite_self]
  | wake hm =>
      rw [hm] at hl
      cases hl
  | timeout hm =>
      rw [hm] at hl
      cases hl
  | wait _ | nothing _ _ | beginPass _ _ | showConns _ | shownConns _ | endPass _ _ | pick _ _
  | absent _ _ | skip _ _ _ | test _ _ _ | erase _ | count _ | room _ _ | noRoom _ _ | wash _ _
  | cache _ => exact absurd rfl (hother _)
  | _ => exact ⟨rfl, rfl, rfl, rfl, rfl, rfl⟩

theorem Action.sameOthers (ha : Action cfg s (.manage c) t) : SameOthers s t := by
  cases ha <;> exact ⟨rfl, rfl, rfl, rfl⟩

/-- Every step under the mutexes brings their release closer. One case for
each place of the pass. -/
theorem Action.rank_lt (ha : Action cfg s (.manage c) t) (hl : s.manage.locked = true) :
    t.manage.rank < s.manage.rank := by
  have hfree : ∀ {m : ManagePc}, s.manage = m → m.locked = true := fun hm => hm ▸ hl
  cases ha with
  | wait hm => cases hfree hm
  | nothing hm _ => cases hfree hm
  | beginPass hm _ => cases hfree hm
  | showConns hm => cases hfree hm
  | shownConns hm => simp [hm, ManagePc.rank]
  | endPass hm _ => simp [hm, ManagePc.rank]
  | pick hm hd =>
      have hcard := Finset.card_erase_add_one hd
      simp only [hm, ManagePc.rank, PassStage.rank]
      omega
  | absent hm _ => simp [hm, ManagePc.rank, PassStage.rank]
  | skip hm _ _ => simp [hm, ManagePc.rank, PassStage.rank]
  | test hm _ _ => simp [hm, ManagePc.rank, PassStage.rank]
  | erase hm => simp [hm, ManagePc.rank, PassStage.rank]
  | count hm => simp [hm, ManagePc.rank, PassStage.rank]
  | room hm _ => simp [hm, ManagePc.rank, PassStage.rank]
  | noRoom hm _ => simp [hm, ManagePc.rank, PassStage.rank]
  | wash hm _ => simp [hm, ManagePc.rank, PassStage.rank]
  | cache hm => simp [hm, ManagePc.rank, PassStage.rank]

/-- A pass meets pending connections, each once: it iterates over the set as it
was when it took the mutexes. -/
structure MeetsPending (pending : Finset ConnId) (manage : ManagePc) : Prop where
  pending : manage.toMeet ⊆ pending
  once : ∀ c stage todo, manage = .item c stage todo → c ∉ todo

theorem MeetsPending.ofFree {pending : Finset ConnId} {m : ManagePc} (hm : m.toMeet = ∅) :
    MeetsPending pending m := by
  refine ⟨hm ▸ Finset.empty_subset _, ?_⟩
  rintro c stage todo rfl
  exact absurd hm (Finset.insert_ne_empty c todo)

theorem MeetsPending.push {pending : Finset ConnId} {m : ManagePc}
    (h : MeetsPending pending m) : MeetsPending (insert c pending) m :=
  ⟨h.pending.trans (Finset.subset_insert c pending), h.once⟩

theorem MeetsPending.advance {pending todo : Finset ConnId} {stage stage' : PassStage}
    (h : MeetsPending pending (.item c stage todo)) : MeetsPending pending (.item c stage' todo) :=
  ⟨h.pending, fun _ _ _ heq => by cases heq; exact h.once c stage todo rfl⟩

theorem MeetsPending.next {pending todo : Finset ConnId} {stage : PassStage}
    (h : MeetsPending pending (.item c stage todo)) : MeetsPending pending (.scan todo) :=
  ⟨(Finset.subset_insert c todo).trans h.pending, nofun⟩

theorem MeetsPending.action (h : MeetsPending s.pendingToRemove s.manage)
    (ha : Action cfg s l t) : MeetsPending t.pendingToRemove t.manage := by
  have hnotified : MeetsPending s.pendingToRemove s.manage.notified := by
    refine ⟨by rw [ManagePc.toMeet_notified]; exact h.pending, fun c stage todo hm => ?_⟩
    refine h.once c stage todo ?_
    cases hs : s.manage with
    | item c stage todo => rwa [hs] at hm
    | _ =>
        rw [hs] at hm
        cases hm
  cases ha with
  | push _ _ => exact h.push
  | tickPush _ _ => exact h.push
  | notify _ _ => exact hnotified
  | @tickDone _ b _ _ =>
      change MeetsPending s.pendingToRemove
        (if b.notify = true then s.manage.notified else s.manage)
      split
      · exact hnotified
      · exact h
  | wake _ => exact .ofFree rfl
  | timeout _ => exact .ofFree rfl
  | wait _ => exact .ofFree rfl
  | nothing _ _ => exact .ofFree rfl
  | showConns _ => exact .ofFree rfl
  | shownConns _ => exact .ofFree rfl
  | endPass _ _ => exact .ofFree rfl
  | beginPass _ _ => exact ⟨Finset.Subset.refl _, nofun⟩
  | @pick d todo hm hd =>
      rw [hm] at h
      refine ⟨?_, fun e stage todo' heq => ?_⟩
      · change insert d (todo.erase d) ⊆ s.pendingToRemove
        rw [Finset.insert_erase hd]
        exact h.pending
      · cases heq
        exact Finset.notMem_erase d todo
  | absent hm _ =>
      rw [hm] at h
      exact h.next
  | skip hm _ _ =>
      rw [hm] at h
      exact h.next
  | test hm _ _ =>
      rw [hm] at h
      exact h.advance
  | erase hm =>
      rw [hm] at h
      exact h.advance
  | count hm =>
      rw [hm] at h
      exact h.advance
  | room hm _ =>
      rw [hm] at h
      exact h.advance
  | noRoom hm _ =>
      rw [hm] at h
      exact h.next
  | wash hm _ =>
      rw [hm] at h
      exact h.advance
  | cache hm =>
      rw [hm] at h
      exact h.next
  | _ => exact h

theorem meetsPending_of_run (hr : Run (step cfg) init moves s) :
    MeetsPending s.pendingToRemove s.manage :=
  hr.invariant (I := fun s => MeetsPending s.pendingToRemove s.manage) (.ofFree rfl)
    fun _ _ _ h hs => h.action (step_action hs)

/-- A pass makes at most seven steps for each pending connection, and
one more for the printing. -/
theorem MeetsPending.rank_le {pending : Finset ConnId} {m : ManagePc}
    (h : MeetsPending pending m) : m.rank ≤ 7 * pending.card + 1 := by
  have hcard := Finset.card_le_card h.pending
  cases m with
  | scan todo =>
      simp only [ManagePc.rank, ManagePc.toMeet] at hcard ⊢
      omega
  | item c stage todo =>
      rw [ManagePc.toMeet, Finset.card_insert_of_notMem (h.once c stage todo rfl)] at hcard
      have hstage : stage.rank ≤ 6 := by cases stage <;> decide
      simp only [ManagePc.rank]
      omega
  | showing => exact Nat.le_add_left 1 _
  | outside => exact Nat.zero_le _
  | waiting => exact Nat.zero_le _
  | woken => exact Nat.zero_le _
  | timedOut => exact Nat.zero_le _

theorem Sound.wash_ok {todo : Finset ConnId} (hs : s.Sound cfg)
    (hm : s.manage = .item d .room todo) : ∃ conn, (s.conns d).conn.connWashWhite = .ok conn := by
  have hret : s.manage.Retiring d := ⟨.room, by rw [hm]; rfl, by decide⟩
  obtain ⟨hops, -⟩ := hs.lifecycle.retired d (.inr hret)
  simp only [FrontConn.connWashWhite]
  split
  next hworking =>
    obtain ⟨op, hop, -⟩ := (hs.lifecycle.ok d).reading hworking
    rw [hops] at hop
    cases hop
  · exact ⟨_, rfl⟩

/-- The thread that holds the mutexes can always go on, and does not fail:
`conn_wash_white` finds the status it asserts. -/
theorem Sound.manage_progress (hs : s.Sound cfg) (hl : s.manage.locked = true) :
    (∀ c f, step cfg s (.manage c) ≠ .error (.fault f)) ∧
      ∃ c t, step cfg s (.manage c) = .ok t := by
  have hcount := hs.accounted.count
  simp only [step, manageStep]
  cases hm : s.manage with
  | outside => rw [hm] at hl; cases hl
  | waiting => rw [hm] at hl; cases hl
  | woken => rw [hm] at hl; cases hl
  | timedOut => rw [hm] at hl; cases hl
  | showing => exact ⟨by rintro _ _ ⟨⟩, 0, _, rfl⟩
  | scan todo =>
      rw [hm] at hcount
      have hequal : s.frontConns.card = s.currentConnsCnt := hcount.symm
      by_cases hdone : todo = ∅
      · simp only [if_pos hdone, if_pos hequal]
        exact ⟨by rintro _ _ ⟨⟩, 0, _, rfl⟩
      · obtain ⟨c, hc⟩ := Finset.nonempty_iff_ne_empty.mpr hdone
        simp only [if_neg hdone]
        refine ⟨fun d f hd => ?_, c, _, if_neg (not_not.mpr hc)⟩
        split at hd <;> cases hd
  | item d stage todo =>
      cases stage with
      | picked =>
          simp only [passStep]
          split
          · exact ⟨by rintro _ _ ⟨⟩, 0, _, rfl⟩
          · split <;> exact ⟨by rintro _ _ ⟨⟩, 0, _, rfl⟩
      | tested => exact ⟨by rintro _ _ ⟨⟩, 0, _, rfl⟩
      | erased => exact ⟨by rintro _ _ ⟨⟩, 0, _, rfl⟩
      | counted =>
          simp only [passStep]
          split <;> exact ⟨by rintro _ _ ⟨⟩, 0, _, rfl⟩
      | room =>
          obtain ⟨conn, hconn⟩ := hs.wash_ok hm
          simp only [passStep, hconn]
          exact ⟨by rintro _ _ ⟨⟩, 0, _, rfl⟩
      | washed => exact ⟨by rintro _ _ ⟨⟩, 0, _, rfl⟩

/-- The manage thread alone comes to the end of its critical section, so nobody
has to help it. Induction on the rank. -/
theorem Sound.pass_completes (hs : s.Sound cfg) : ∃ moves t, Run (step cfg) s moves t ∧
    (∀ m ∈ moves, m.label.isManage = true) ∧ t.manage.locked = false ∧ SameOthers s t := by
  induction hn : s.manage.rank using Nat.strong_induction_on generalizing s with
  | _ n ih =>
      cases hl : s.manage.locked with
      | false => exact ⟨[], s, .nil, by simp, hl, ⟨rfl, rfl, rfl, rfl⟩⟩
      | true =>
          obtain ⟨c, t, hstep⟩ := (hs.manage_progress hl).2
          have ha := step_action hstep
          have hlt := ha.rank_lt hl
          obtain ⟨moves, v, hr, hmanage, hfree, hothers⟩ := ih _ (hn ▸ hlt) (hs.action ha) rfl
          refine ⟨_, v, (Run.one hstep).append hr, ?_, hfree, ha.sameOthers.trans hothers⟩
          exact List.forall_mem_append.mpr ⟨List.forall_mem_singleton.mpr rfl, hmanage⟩

/-- While the mutexes stay taken, the rank pays for the steps of their holder,
however many steps of others lie in between. -/
theorem manage_steps_le (hr : Run (step cfg) s more t)
    (hl : ∀ m ∈ more, m.pre.manage.locked = true) :
    (more.filter (·.label.isManage)).length + t.manage.rank ≤ s.manage.rank := by
  apply hr.filter_length_le (fun s => s.manage.rank) (·.label.isManage)
  · rintro ⟨s, l, t⟩ hm hmanage
    have ha := step_action (hr.step_of_mem _ hm)
    cases l with
    | manage c => exact ha.rank_lt (hl _ hm)
    | _ => cases hmanage
  · rintro ⟨s, l, t⟩ hm hmanage
    have ha := step_action (hr.step_of_mem _ hm)
    have hsame := ha.sameGuarded (hl _ hm) (by rintro c rfl; cases hmanage)
    exact Nat.le_of_eq (congrArg ManagePc.rank hsame.manage)

/-- The mutexes are never held for ever: their holder cannot fail, makes at
most seven steps for each pending connection and one more before it lets go,
however the others interleave, and needs nobody to get there. -/
theorem pass_ends (hr : Run (step cfg) init moves s) (hl : s.manage.locked = true) :
    (∀ c f, step cfg s (.manage c) ≠ .error (.fault f)) ∧
    (∀ more t, Run (step cfg) s more t → (∀ m ∈ more, m.pre.manage.locked = true) →
      (more.filter (·.label.isManage)).length ≤ 7 * s.pendingToRemove.card + 1) ∧
    ∃ more t, Run (step cfg) s more t ∧ (∀ m ∈ more, m.label.isManage = true) ∧
      t.manage.locked = false ∧ SameOthers s t := by
  have hs := sound_of_run hr
  refine ⟨(hs.manage_progress hl).1, fun more t hmore hlocked => ?_, hs.pass_completes⟩
  have hsteps := manage_steps_le hmore hlocked
  have hrank := (meetsPending_of_run hr).rank_le
  omega

/-- A pass over one connection, with a handler and a tick waiting
for the mutex it holds. -/
theorem pass_ends_one : ∃ moves s, Run (step smallConfig) init moves s ∧
    s.manage = .scan {0} ∧
    (∀ c f, step smallConfig s (.manage c) ≠ .error (.fault f)) ∧
    (∀ more t, Run (step smallConfig) s more t → (∀ m ∈ more, m.pre.manage.locked = true) →
      (more.filter (·.label.isManage)).length ≤ 7 * s.pendingToRemove.card + 1) ∧
    ∃ more t, Run (step smallConfig) s more t ∧ (∀ m ∈ more, m.label.isManage = true) ∧
      t.manage.locked = false ∧ SameOthers s t := by
  obtain ⟨moves, s, hr, -, hm⟩ :=
    run_of_reaches (step smallConfig) init (failedRead ++ [.manage 0])
      (p := fun s => s.manage = .scan {0}) (by decide +kernel)
  exact ⟨moves, s, hr, hm, pass_ends hr (by rw [hm]; rfl)⟩

/-- Nothing is under way for the connection, except perhaps by the tick, which
drops its reference soon. -/
structure Unused (s : Server) (c : ConnId) : Prop where
  ops : (s.conns c).ops = []
  running : c ∉ s.pushing ∪ s.notifying
  accept : s.accept.conn ≠ some c

/-- A pass has tested the use count of the connection, and the
count it read satisfies `p`. -/
def Tested (moves : List (Move Server Label)) (c : ConnId) (p : Nat → Prop) : Prop :=
  ∃ m ∈ moves, m.pre.manage.item? = some (c, .picked) ∧ p (m.pre.useCount c)

/-- What a pass that began in `u` has done. It has `left` to meet; of the
connections that it `retired`, those that have `settled` are in the cache as
far as there was room, and the `busy` ones are back in the wheel. -/
structure PassedOver (cfg : Config) (u : Server) (moves : List (Move Server Label))
    (left : Finset ConnId) (retired settled : List ConnId) (busy : Finset ConnId)
    (s : Server) : Prop where
  pending : s.pendingToRemove = u.pendingToRemove
  front : s.frontConns = u.frontConns \ retired.toFinset
  wheel : s.timingWheel = Wheel.insertAllBack u.timingWheel busy
  cached : s.cachedConns =
    u.cachedConns ++ settled.take (cfg.cacheSize - u.cachedConns.length)
  nodup : retired.Nodup
  disjoint : ∀ c ∈ retired, c ∉ busy
  met : ∀ c ∈ u.pendingToRemove, c ∈ u.frontConns → c ∈ left ∨ c ∈ retired ∨ c ∈ busy
  known : ∀ c, c ∈ retired ∨ c ∈ busy → c ∈ u.pendingToRemove ∧ c ∈ u.frontConns ∧ c ∉ left
  unused : ∀ c ∈ retired, s.Unused c ∧ Tested moves c (· ≤ 3)
  used : ∀ c ∈ busy, Tested moves c (3 < ·)

structure PassResult (cfg : Config) (u : Server) (moves : List (Move Server Label))
    (retired : List ConnId) (busy : Finset ConnId) (s : Server) : Prop where
  served : u.pendingToRemove ∩ u.frontConns = retired.toFinset ∪ busy
  nodup : retired.Nodup
  disjoint : ∀ c ∈ retired, c ∉ busy
  unused : ∀ c ∈ retired, Tested moves c (· ≤ 3)
  used : ∀ c ∈ busy, Tested moves c (3 < ·)
  pending : s.pendingToRemove = ∅
  front : s.frontConns = u.frontConns \ retired.toFinset
  count : s.currentConnsCnt + retired.length = u.currentConnsCnt
  cached : s.cachedConns =
    u.cachedConns ++ retired.take (cfg.cacheSize - u.cachedConns.length)
  wheel : s.timingWheel = Wheel.insertAllBack u.timingWheel busy
  /-- What is not cached is freed, at the latest when the tick lets go of it. -/
  freed : ∀ c ∈ retired, s.useCount c =
    s.cachedConns.count c + if s.tick.conn = some c then 1 else 0

/-- The loop invariant of a pass, for each place that the manage thread can be
at. It names what has been retired and what has been put back so far. -/
def InPass (cfg : Config) (u : Server) (moves : List (Move Server Label)) (s : Server) :
    ManagePc → Prop
  | .scan todo => ∃ retired busy, PassedOver cfg u moves todo retired retired busy s
  | .item c .picked todo => ∃ retired busy,
      PassedOver cfg u moves (insert c todo) retired retired busy s
  | .item c .tested todo => (∃ retired busy,
      PassedOver cfg u moves (insert c todo) retired retired busy s) ∧
        s.Unused c ∧ Tested moves c (· ≤ 3)
  | .item c _ todo => ∃ settled busy, PassedOver cfg u moves todo (settled ++ [c]) settled busy s
  | .outside => ∃ retired busy, PassResult cfg u moves retired busy s
  | _ => False

theorem hasRoom_iff : s.hasRoom cfg ↔ s.cachedConns.length < cfg.cacheSize := by
  simp only [hasRoom, Config.cacheSize]
  omega

theorem Tested.append {p : Nat → Prop} (h : Tested moves c p) : Tested (moves ++ more) c p := by
  obtain ⟨m, hm, h⟩ := h
  exact ⟨m, List.mem_append_left _ hm, h⟩

theorem Unused.action (h : s.Unused c) (hl : s.manage.locked = true) (ha : Action cfg s l t) :
    t.Unused c := by
  have hfalse : s.manage.locked ≠ false := fun hfree => Bool.noConfusion (hfree.symm.trans hl)
  obtain ⟨hops, hrunning, haccept⟩ := h
  cases ha with
  | acceptError _ => exact ⟨hops, hrunning, by rintro ⟨⟩⟩
  | acceptTested _ _ => exact ⟨hops, hrunning, by rintro ⟨⟩⟩
  | recycle _ hfree _ _ => exact absurd hfree hfalse
  | create _ hfree _ => exact absurd hfree hfalse
  | @start d g hi _ =>
      have hne : c ≠ d := by
        rintro rfl
        exact haccept (by rw [hi]; rfl)
      refine ⟨?_, hrunning, fun hd => hne (Option.some.inj hd).symm⟩
      simp only [setConn, Function.update_of_ne hne]
      exact hops
  | listen _ => exact ⟨hops, hrunning, by rintro ⟨⟩⟩
  | @io d e x effects _ hr =>
      have hne : c ≠ d := by
        rintro rfl
        exact react_ops_ne_nil hr hops
      refine ⟨?_, fun hc => hrunning ?_, haccept⟩
      · simp only [setConn, Function.update_of_ne hne]
        exact hops
      · refine Finset.mem_union.mpr ((Finset.mem_union.mp hc).imp_left fun hc => ?_)
        change c ∈ (if _ then insert d s.pushing else s.pushing) at hc
        split at hc
        · exact (Finset.mem_insert.mp hc).resolve_left hne
        · exact hc
  | push hp _ => exact ⟨hops, fun hc => hrunning ((mem_running_push hp c).mp hc), haccept⟩
  | notify _ _ =>
      refine ⟨hops, fun hc => hrunning ?_, haccept⟩
      exact Finset.union_subset_union_right (Finset.erase_subset _ _) hc
  | @shut _ d b _ _ =>
      refine ⟨?_, hrunning, haccept⟩
      by_cases hcd : c = d
      · subst hcd
        simp only [setConn, Function.update_self]
        rw [Session.perform_shutdown_ops]
        exact hops
      · simp only [setConn, Function.update_of_ne hcd]
        exact hops
  | @mark _ d b _ =>
      refine ⟨?_, hrunning, haccept⟩
      by_cases hcd : c = d
      · subst hcd
        simp only [setConn, Function.update_self]
        exact hops
      · simp only [setConn, Function.update_of_ne hcd]
        exact hops
  | @wash _ d _ _ _ _ =>
      refine ⟨?_, hrunning, haccept⟩
      by_cases hcd : c = d
      · subst hcd
        simp only [setConn, Function.update_self]
        exact hops
      · simp only [setConn, Function.update_of_ne hcd]
        exact hops
  | _ => exact ⟨hops, hrunning, haccept⟩

namespace PassedOver

variable {left todo busy : Finset ConnId} {retired settled : List ConnId}

theorem keep (h : PassedOver cfg u moves left retired settled busy s)
    (hpending : t.pendingToRemove = s.pendingToRemove) (hfront : t.frontConns = s.frontConns)
    (hwheel : t.timingWheel = s.timingWheel) (hcached : t.cachedConns = s.cachedConns)
    (hunused : ∀ c, s.Unused c → t.Unused c) :
    PassedOver cfg u (moves ++ more) left retired settled busy t :=
  ⟨hpending.trans h.pending, hfront.trans h.front, hwheel.trans h.wheel, hcached.trans h.cached,
    h.nodup, h.disjoint, h.met, h.known,
    fun c hc => ⟨hunused c (h.unused c hc).1, (h.unused c hc).2.append⟩,
    fun c hc => (h.used c hc).append⟩

theorem append (h : PassedOver cfg u moves left retired settled busy s) :
    PassedOver cfg u (moves ++ more) left retired settled busy s :=
  h.keep rfl rfl rfl rfl fun _ hc => hc

theorem absent (h : PassedOver cfg u moves (insert d todo) retired settled busy s)
    (hd : d ∉ s.frontConns) : PassedOver cfg u moves todo retired settled busy s := by
  refine { h with met := fun c hc hserved => ?_, known := fun c hc => ?_ }
  · obtain hleft | hmet := h.met c hc hserved
    · obtain rfl | hleft := Finset.mem_insert.mp hleft
      · rw [h.front, Finset.mem_sdiff, List.mem_toFinset] at hd
        exact .inr (.inl (by_contra fun hc => hd ⟨hserved, hc⟩))
      · exact .inl hleft
    · exact .inr hmet
  · obtain ⟨hpending, hserved, hleft⟩ := h.known c hc
    exact ⟨hpending, hserved, fun hc => hleft (Finset.mem_insert_of_mem hc)⟩

/-- The item of a pass is one that it has not met: each pending
connection is met once. -/
theorem item_fresh (h : PassedOver cfg u moves (insert d todo) retired settled busy s) :
    d ∉ retired ∧ d ∉ busy :=
  ⟨fun hd => (h.known d (.inl hd)).2.2 (Finset.mem_insert_self d todo),
    fun hd => (h.known d (.inr hd)).2.2 (Finset.mem_insert_self d todo)⟩

theorem item_served (h : PassedOver cfg u moves left retired settled busy s)
    (hd : d ∈ s.frontConns) : d ∈ u.frontConns :=
  (Finset.mem_sdiff.mp (h.front ▸ hd)).1

/-- What has been met, when the item goes to one of the two sides. Both ways of
an item share this part of the invariant. -/
private theorem met_item {retired' : List ConnId} {busy' : Finset ConnId}
    (h : PassedOver cfg u moves (insert d todo) retired settled busy s)
    (hd : d ∈ retired' ∨ d ∈ busy') (hr : ∀ c ∈ retired, c ∈ retired')
    (hb : ∀ c ∈ busy, c ∈ busy') :
    ∀ c ∈ u.pendingToRemove, c ∈ u.frontConns → c ∈ todo ∨ c ∈ retired' ∨ c ∈ busy' := by
  intro c hc hserved
  obtain hleft | hmet := h.met c hc hserved
  · obtain rfl | hleft := Finset.mem_insert.mp hleft
    · exact .inr hd
    · exact .inl hleft
  · exact .inr (hmet.imp (hr c) (hb c))

theorem skip (h : PassedOver cfg u moves (insert d todo) retired settled busy s)
    (hpending : d ∈ u.pendingToRemove) (honce : d ∉ todo) (hd : d ∈ s.frontConns)
    (htested : Tested moves d (3 < ·)) {m : ManagePc} :
    PassedOver cfg u moves todo retired settled (insert d busy)
      { s with timingWheel := Wheel.insertBack s.timingWheel d, manage := m } := by
  obtain ⟨hretired, -⟩ := h.item_fresh
  refine { h with
    wheel := ?_
    disjoint := fun c hc => ?_
    met := h.met_item (.inr (Finset.mem_insert_self d busy)) (fun _ hc => hc)
      fun c hc => Finset.mem_insert_of_mem hc
    known := fun c hc => ?_
    unused := fun c hc => ⟨⟨(h.unused c hc).1.ops, (h.unused c hc).1.running,
      (h.unused c hc).1.accept⟩, (h.unused c hc).2⟩
    used := fun c hc => ?_ }
  · rw [← Wheel.insertBack_insertAllBack, ← h.wheel]
  · refine fun hmem => (Finset.mem_insert.mp hmem).elim ?_ (h.disjoint c hc)
    rintro rfl
    exact hretired hc
  · have hcases : c = d ∨ (c ∈ retired ∨ c ∈ busy) :=
      hc.elim (fun hc => .inr (.inl hc)) fun hc => (Finset.mem_insert.mp hc).imp_right .inr
    obtain rfl | hc := hcases
    · exact ⟨hpending, h.item_served hd, honce⟩
    · obtain ⟨hp, hserved, hleft⟩ := h.known c hc
      exact ⟨hp, hserved, fun hc => hleft (Finset.mem_insert_of_mem hc)⟩
  · obtain rfl | hc := Finset.mem_insert.mp hc
    · exact htested
    · exact h.used c hc

theorem erase (h : PassedOver cfg u moves (insert d todo) retired settled busy s)
    (hpending : d ∈ u.pendingToRemove) (honce : d ∉ todo) (hd : d ∈ s.frontConns)
    (hunused : s.Unused d) (htested : Tested moves d (· ≤ 3)) {m : ManagePc} :
    PassedOver cfg u moves todo (retired ++ [d]) settled busy
      { s with frontConns := s.frontConns.erase d, manage := m } := by
  obtain ⟨hretired, hbusy⟩ := h.item_fresh
  have hcases : ∀ {c}, c ∈ retired ++ [d] → c ∈ retired ∨ c = d := fun hc =>
    (List.mem_append.mp hc).imp_right List.mem_singleton.mp
  refine { h with
    front := ?_
    nodup := ?_
    disjoint := fun c hc => ?_
    met := h.met_item (.inl (by simp)) (fun _ hc => List.mem_append_left _ hc) fun _ hc => hc
    known := fun c hc => ?_
    unused := fun c hc => ?_ }
  · rw [h.front, List.toFinset_append, List.toFinset_cons, List.toFinset_nil,
      Finset.union_insert, Finset.union_empty, Finset.sdiff_insert]
  · refine List.nodup_append.mpr ⟨h.nodup, List.nodup_singleton d, ?_⟩
    rintro c hc e he rfl
    exact hretired (List.mem_singleton.mp he ▸ hc)
  · obtain hc | rfl := hcases hc
    · exact h.disjoint c hc
    · exact hbusy
  · have hc : c = d ∨ (c ∈ retired ∨ c ∈ busy) :=
      hc.elim (fun hc => (hcases hc).symm.imp_right .inl) fun hc => .inr (.inr hc)
    obtain rfl | hc := hc
    · exact ⟨hpending, h.item_served hd, honce⟩
    · obtain ⟨hp, hserved, hleft⟩ := h.known c hc
      exact ⟨hp, hserved, fun hc => hleft (Finset.mem_insert_of_mem hc)⟩
  · obtain hc | rfl := hcases hc
    · exact ⟨⟨(h.unused c hc).1.ops, (h.unused c hc).1.running, (h.unused c hc).1.accept⟩,
        (h.unused c hc).2⟩
    · exact ⟨⟨hunused.ops, hunused.running, hunused.accept⟩, htested⟩

theorem noRoom (h : PassedOver cfg u moves todo retired settled busy s)
    (hroom : ¬ s.hasRoom cfg) : PassedOver cfg u moves todo retired (settled ++ [d]) busy s := by
  rw [hasRoom_iff, h.cached, List.length_append, List.length_take] at hroom
  refine { h with cached := ?_ }
  rw [List.take_append_of_le_length (by omega)]
  exact h.cached

theorem cache (h : PassedOver cfg u moves todo retired settled busy s)
    (hroom : s.hasRoom cfg) {m : ManagePc} :
    PassedOver cfg u moves todo retired (settled ++ [d]) busy
      { s with cachedConns := s.cachedConns ++ [d], manage := m } := by
  rw [hasRoom_iff, h.cached, List.length_append, List.length_take] at hroom
  refine { h with
    cached := ?_
    unused := fun c hc => ⟨⟨(h.unused c hc).1.ops, (h.unused c hc).1.running,
      (h.unused c hc).1.accept⟩, (h.unused c hc).2⟩ }
  change s.cachedConns ++ [d] = _
  rw [h.cached, List.append_assoc, List.take_of_length_le (by omega),
    List.take_of_length_le (by rw [List.length_append, List.length_singleton]; omega)]

theorem result (h : PassedOver cfg u moves ∅ retired retired busy s)
    (hu : u.Accounted cfg) (hfree : u.manage.locked = false) (hs : s.Accounted cfg)
    (hm : s.manage = .scan ∅) :
    PassResult cfg u moves retired busy { s with pendingToRemove := ∅, manage := .outside } := by
  have hsub : retired.toFinset ⊆ u.frontConns := fun c hc =>
    (h.known c (.inl (List.mem_toFinset.mp hc))).2.1
  have hcount : u.currentConnsCnt = u.frontConns.card := by
    have hcount := hu.count
    rwa [(ManagePc.of_unlocked hfree).1, Nat.add_zero] at hcount
  have hcount' : s.currentConnsCnt = s.frontConns.card := by
    have hcount := hs.count
    rwa [hm] at hcount
  refine ⟨?_, h.nodup, h.disjoint, fun c hc => (h.unused c hc).2, h.used, rfl, h.front, ?_,
    h.cached, h.wheel, fun c hc => ?_⟩
  · ext c
    rw [Finset.mem_inter, Finset.mem_union, List.mem_toFinset]
    constructor
    · rintro ⟨hpending, hserved⟩
      exact (h.met c hpending hserved).resolve_left (Finset.notMem_empty c)
    · exact fun hc => ⟨(h.known c hc).1, (h.known c hc).2.1⟩
  · change s.currentConnsCnt + retired.length = u.currentConnsCnt
    rw [hcount, hcount', h.front, ← List.toFinset_card_of_nodup h.nodup]
    exact Finset.card_sdiff_add_card_eq_card hsub
  · obtain ⟨⟨hops, hrunning, haccept⟩, -⟩ := h.unused c hc
    have hfront : c ∉ s.frontConns := by
      rw [h.front, Finset.mem_sdiff, List.mem_toFinset]
      exact fun hmem => hmem.2 hc
    simp [useCount, hfront, hops, hrunning, haccept, ManagePc.conn]

end PassedOver

/-- Nothing but the manage thread moves a pass on; a step of another thread
leaves the invariant where it was. -/
theorem InPass.other {m : ManagePc} (h : InPass cfg u moves s m) (hm : m.locked = true)
    (hsame : SameGuarded s t) (hunused : ∀ c, s.Unused c → t.Unused c) :
    InPass cfg u (moves ++ more) t m := by
  cases m with
  | scan todo =>
      obtain ⟨retired, busy, h⟩ := h
      exact ⟨retired, busy, h.keep hsame.pending hsame.front hsame.wheel hsame.cached hunused⟩
  | item c stage todo =>
      cases stage with
      | picked =>
          obtain ⟨retired, busy, h⟩ := h
          exact ⟨retired, busy, h.keep hsame.pending hsame.front hsame.wheel hsame.cached hunused⟩
      | tested =>
          obtain ⟨⟨retired, busy, h⟩, hc, htested⟩ := h
          refine ⟨⟨retired, busy, ?_⟩, hunused c hc, htested.append⟩
          exact h.keep hsame.pending hsame.front hsame.wheel hsame.cached hunused
      | _ =>
          obtain ⟨settled, busy, h⟩ := h
          exact ⟨settled, busy, h.keep hsame.pending hsame.front hsame.wheel hsame.cached hunused⟩
  | showing => exact h
  | _ => cases hm

theorem InPass.manage (h : InPass cfg u moves s s.manage) (hu : u.Accounted cfg)
    (hfree : u.manage.locked = false) (hs : s.Sound cfg)
    (hmeets : MeetsPending s.pendingToRemove s.manage) (hl : s.manage.locked = true)
    (ha : Action cfg s (.manage c) t) :
    InPass cfg u (moves ++ [⟨s, .manage c, t⟩]) t t.manage := by
  have hunused : ∀ d, s.Unused d → t.Unused d := fun d hd => hd.action hl ha
  have hlocked : ∀ {m : ManagePc}, s.manage = m → m.locked = true := fun hm => hm ▸ hl
  have hitem : ∀ {stage todo} {d : ConnId}, s.manage = .item d stage todo →
      d ∈ s.pendingToRemove ∧ d ∉ todo := by
    intro stage todo d hm
    refine ⟨hmeets.pending ?_, hmeets.once d stage todo hm⟩
    rw [hm]
    exact Finset.mem_insert_self d todo
  have htested : ∀ {todo} {d : ConnId} {p : Nat → Prop}, s.manage = .item d .picked todo →
      p (s.useCount d) → Tested (moves ++ [⟨s, .manage c, t⟩]) d p := by
    intro todo d p hm hp
    exact ⟨⟨s, .manage c, t⟩, by simp, by rw [hm]; rfl, hp⟩
  cases ha with
  | wait hm => cases hlocked hm
  | nothing hm _ => cases hlocked hm
  | beginPass hm _ => cases hlocked hm
  | showConns hm => cases hlocked hm
  | shownConns hm =>
      rw [hm] at h
      exact h.elim
  | endPass hm _ =>
      have hscan := hm
      rw [hm] at h
      obtain ⟨retired, busy, h⟩ := h
      exact ⟨retired, busy, h.append.result hu hfree hs.accounted hscan⟩
  | @pick _ todo hm hd =>
      rw [hm] at h
      obtain ⟨retired, busy, h⟩ := h
      refine ⟨retired, busy, ?_⟩
      rw [Finset.insert_erase hd]
      exact h.keep rfl rfl rfl rfl hunused
  | absent hm hd =>
      rw [hm] at h
      obtain ⟨retired, busy, h⟩ := h
      exact ⟨retired, busy, (h.absent hd).keep rfl rfl rfl rfl hunused⟩
  | @skip _ d todo hm hd hmany =>
      obtain ⟨hpending, honce⟩ := hitem hm
      have hp := htested (p := (3 < ·)) hm hmany
      rw [hm] at h
      obtain ⟨retired, busy, h⟩ := h
      rw [h.pending] at hpending
      exact ⟨retired, insert d busy, h.append.skip hpending honce hd hp⟩
  | @test _ d todo hm hd hfew =>
      obtain ⟨hpending, -⟩ := hitem hm
      have hp := htested (p := (· ≤ 3)) hm hfew
      obtain ⟨hops, hrunning, haccept, -⟩ :=
        alone_of_useCount_le hfew hd hpending (by rw [hm]; rfl)
      rw [hm] at h
      obtain ⟨retired, busy, h⟩ := h
      exact ⟨⟨retired, busy, h.keep rfl rfl rfl rfl hunused⟩, ⟨hops, hrunning, haccept⟩, hp⟩
  | @erase _ d todo hm =>
      obtain ⟨hpending, honce⟩ := hitem hm
      have hd : d ∈ s.frontConns := hs.accounted.item d .tested (by rw [hm]; rfl)
      rw [hm] at h
      obtain ⟨⟨retired, busy, h⟩, hc, hp⟩ := h
      rw [h.pending] at hpending
      exact ⟨retired, busy, h.append.erase hpending honce hd hc hp.append⟩
  | count hm =>
      rw [hm] at h
      obtain ⟨settled, busy, h⟩ := h
      exact ⟨settled, busy, h.keep rfl rfl rfl rfl hunused⟩
  | room hm _ =>
      rw [hm] at h
      obtain ⟨settled, busy, h⟩ := h
      exact ⟨settled, busy, h.keep rfl rfl rfl rfl hunused⟩
  | @noRoom _ d todo hm hroom =>
      rw [hm] at h
      obtain ⟨settled, busy, h⟩ := h
      exact ⟨settled ++ [d], busy, (h.noRoom hroom).keep rfl rfl rfl rfl hunused⟩
  | wash hm _ =>
      rw [hm] at h
      obtain ⟨settled, busy, h⟩ := h
      exact ⟨settled, busy, h.keep rfl rfl rfl rfl hunused⟩
  | @cache _ d todo hm =>
      have hroom : s.hasRoom cfg := (hs.accounted.item d .washed (by rw [hm]; rfl)).2.2
      rw [hm] at h
      obtain ⟨settled, busy, h⟩ := h
      exact ⟨settled ++ [d], busy, h.append.cache hroom⟩

/-- A pass begins with nothing done, and with everything that
is pending still to meet. -/
theorem PassedOver.begin (hs : s.Sound cfg) : PassedOver cfg s [] s.pendingToRemove [] [] ∅
    { s with manage := .scan s.pendingToRemove } := by
  have hne : s.timingWheel ≠ [] :=
    List.ne_nil_of_length_pos (Nat.lt_of_lt_of_le Nat.zero_lt_two hs.supervised.slots)
  refine ⟨rfl, Finset.sdiff_empty.symm, (Wheel.insertAllBack_empty hne).symm, ?_, List.nodup_nil,
    nofun, fun c hc _ => .inl hc, fun c hc => ?_, nofun, fun c hc => ?_⟩
  · rw [List.take_nil, List.append_nil]
  · exact hc.elim nofun fun hc => absurd hc (Finset.notMem_empty c)
  · exact absurd hc (Finset.notMem_empty c)

/-- The loop invariant holds throughout, whatever the other threads do in
between. Induction on the run, one step lemma for each side. -/
theorem inPass_of_run (hu : u.Accounted cfg) (hfree : u.manage.locked = false)
    (hs : s.Sound cfg) (hmeets : MeetsPending s.pendingToRemove s.manage)
    (h : InPass cfg u [] s s.manage) (hr : Run (step cfg) s moves t)
    (hl : ∀ m ∈ moves, m.pre.manage.locked = true) : InPass cfg u moves t t.manage := by
  suffices t.Sound cfg ∧ MeetsPending t.pendingToRemove t.manage ∧
    InPass cfg u moves t t.manage from this.2.2
  induction hr with
  | nil => exact ⟨hs, hmeets, h⟩
  | @snoc moves s l t _ hstep ih =>
      have hlocked : s.manage.locked = true := hl ⟨s, l, t⟩ (by simp)
      obtain ⟨hs, hmeets, h⟩ := ih fun m hm => hl m (List.mem_append_left _ hm)
      have ha := step_action hstep
      refine ⟨hs.action ha, hmeets.action ha, ?_⟩
      by_cases hmanage : ∃ c, l = .manage c
      · obtain ⟨c, rfl⟩ := hmanage
        exact h.manage hu hfree hs hmeets hlocked ha
      · have hsame := ha.sameGuarded hlocked fun c hc => hmanage ⟨c, hc⟩
        rw [hsame.manage]
        exact h.other hlocked hsame fun c hc => hc.action hlocked ha

/-- The step that takes the mutexes for a pass; a thread whose wait has timed
out takes them only to print. -/
def BeginsPass (m : Move Server Label) : Prop :=
  m.pre.manage = .woken ∧ m.post.manage.locked = true

theorem Action.beginsPass (ha : Action cfg s l t) (hm : s.manage = .woken)
    (hl : t.manage.locked = true) : t = { s with manage := .scan s.pendingToRemove } := by
  have hne : t.manage ≠ .woken := by
    intro h
    rw [h] at hl
    cases hl
  cases ha with
  | beginPass _ _ => rfl
  | notify _ _ =>
      rw [ManagePc.locked_notified, hm] at hl
      cases hl
  | @tickDone _ b _ _ =>
      change (if b.notify = true then s.manage.notified else s.manage).locked = true at hl
      rw [hm] at hl
      split at hl <;> cases hl
  | nothing _ _ => cases hl
  | wake h | timeout h | wait h | showConns h | shownConns h | endPass h _ | pick h _
  | absent h _ | skip h _ _ | test h _ _ | erase h | count h | room h _ | noRoom h _ | wash h _
  | cache h => cases hm.symm.trans h
  | _ => exact absurd hm hne

/-- What a whole pass does, in whatever way the other threads interleave with
it. Every served pending connection goes to exactly one side, by the use count
the pass has read. -/
theorem pass_result {front back : List (Move Server Label)} {m : Move Server Label}
    (hr : Run (step cfg) init (front ++ m :: back) s) (hm : BeginsPass m)
    (hl : ∀ n ∈ back, n.pre.manage.locked = true) (hend : s.manage.locked = false) :
    ∃ retired busy, PassResult cfg m.pre back retired busy s := by
  have hsound := sound_of_run hr.before
  have hmeets := meetsPending_of_run hr.before
  have ha := step_action (hr.step_of_mem m (by simp))
  have hback := hr.after
  have hpost := ha.beginsPass hm.1 hm.2
  have hfree : m.pre.manage.locked = false := by
    rw [hm.1]
    rfl
  have hbegin : InPass cfg m.pre [] m.post m.post.manage := by
    rw [hpost]
    exact ⟨[], ∅, .begin hsound⟩
  have hinv := inPass_of_run hsound.accounted hfree (hsound.action ha) (hmeets.action ha) hbegin
    hback hl
  cases hs : s.manage with
  | outside => rwa [hs] at hinv
  | waiting | woken | timedOut =>
      rw [hs] at hinv
      exact hinv.elim
  | _ =>
      rw [hs] at hend
      cases hend

/-- Two clients are gone, and the handler of the second one has not returned
yet, so its reference still counts. -/
def twoFailedReads : List Label :=
  [.accepted .peer, .accept, .accept, .accept, .accepted .peer, .accept, .accept, .accept,
    .manage 0, .io 0 (.complete 0 .other [] (.refusing 0)),
    .io 1 (.complete 0 .other [] (.refusing 0)), .handler 0, .handler 1, .handler 0]

/-- A pass retires the one and leaves the other to the wheel. -/
theorem pass_result_two : ∃ front m back s,
    Run (step smallConfig) init (front ++ m :: back) s ∧ BeginsPass m ∧
      m.pre.pendingToRemove = {0, 1} ∧ s.cachedConns = [0] ∧ s.frontConns = {1} ∧
      ∃ retired busy, PassResult smallConfig m.pre back retired busy s := by
  obtain ⟨front, u, hfront, -, hwoken, hpending, hbegin⟩ :=
    run_of_reaches (step smallConfig) init twoFailedReads
      (p := fun u => u.manage = .woken ∧ u.pendingToRemove = {0, 1} ∧
        Reaches (step smallConfig u (.manage 0)) fun v => v.manage.locked = true ∧
          Reaches (exec (guarded (fun s _ => s.manage.locked = true) (step smallConfig)) v
            (List.replicate 7 (.manage 0) ++ [.manage 1, .manage 1, .manage 0])) fun s =>
              s.manage.locked = false ∧ s.cachedConns = [0] ∧ s.frontConns = {1})
      (by decide +kernel)
  cases hv : step smallConfig u (.manage 0) with
  | error _ =>
      rw [hv] at hbegin
      cases hbegin
  | ok v =>
      rw [hv] at hbegin
      obtain ⟨hlocked, hpass⟩ := hbegin
      obtain ⟨back, s, hback, -, hend, hcached, hserved⟩ := run_of_reaches _ _ _ hpass
      obtain ⟨hback, hl⟩ := hback.of_guarded
      have hr : Run (step smallConfig) init (front ++ ⟨u, .manage 0, v⟩ :: back) s := by
        have h := (hfront.snoc hv).append hback
        rwa [List.append_assoc, List.singleton_append] at h
      exact ⟨front, _, back, s, hr, ⟨hwoken, hlocked⟩, hpending, hcached, hserved,
        pass_result hr ⟨hwoken, hlocked⟩ hl hend⟩

end Server

end Ailawd
