import Ailawd.Server.Lifecycle

/-!
# Exclusive ownership at recycling

The wheel keeps weak entries of cached connections and `timing_wheel_check` locks
them without a mutex. `NoRace` names the two interleavings that this breaks: the
accept handler takes a cached connection that the tick has locked, and the tick
reads the status of a connection between the use count test of a pass and
`conn_wash_white`. In a run without them `Exclusive` holds: an object belongs to the
cache or to the tick, never to both.
-/

namespace Ailawd

open Transition ByteString

/-- From the status that is not `conn_pending` to the removal request: what
follows is the shutdown and the mark. -/
def TickStage.acts : TickStage → Bool
  | .sawOther => true
  | .expired => true
  | .shut => true
  | .marked => true
  | _ => false

/-- The connection that the tick may shut down and mark. It
should not be in the cache. -/
def TickPc.acting : TickPc → Option ConnId
  | .exam c stage _ => if stage.acts then some c else none
  | _ => none

theorem TickPc.conn_of_acting {tick : TickPc} {c : ConnId} (h : tick.acting = some c) :
    tick.conn = some c := by
  cases tick with
  | exam d stage b =>
      simp only [acting] at h
      split at h
      · exact h
      · cases h
  | _ => cases h

def ManagePc.passing : ManagePc → Bool
  | .scan _ => true
  | .item _ _ _ => true
  | _ => false

/-- The pass has found the connection unused and will wash it: there is room,
or it has been tested that there is. -/
def ManagePc.WillWash (cfg : Config) (cached : List ConnId) (m : ManagePc) (c : ConnId) : Prop :=
  m.item? = some (c, .room) ∨ 10 * cached.length < 3 * cfg.maxServe ∧
    (m.item? = some (c, .tested) ∨ m.item? = some (c, .erased) ∨ m.item? = some (c, .counted))

/-- The recycling invariant, over the parts of the server that it is about:
what the tick acts on is not parked and will not be. -/
structure Exclusive (cfg : Config) (conns : ConnId → Session) (pending : Finset ConnId)
    (cached : List ConnId) (tick : TickPc) (manage : ManagePc) : Prop where
  parked : ∀ c, c ∈ cached ∨ manage.item? = some (c, .washed) →
    (conns c).conn.stats = .pending ∧ (conns c).conn.pSock = none
  requests : ∀ c ∈ cached, c ∈ pending → manage.passing = true
  acting : ∀ c, tick.acting = some c → c ∉ cached ∧ manage.item? ≠ some (c, .washed) ∧
    ¬ manage.WillWash cfg cached c ∧ (conns c).conn.pSock ≠ none
  socket : ∀ c, (conns c).conn.stats ≠ .pending → (conns c).conn.pSock ≠ none

namespace ManagePc

theorem passing_notified (m : ManagePc) : m.notified.passing = m.passing := by
  cases m <;> rfl

theorem passing_of_unlocked {m : ManagePc} (h : m.locked = false) : m.passing = false := by
  cases m <;> first | rfl | cases h

theorem conn_of_unlocked {m : ManagePc} (h : m.locked = false) : m.conn = none := by
  cases m <;> first | rfl | cases h

variable {cfg : Config} {cached : List ConnId} {m : ManagePc} {c : ConnId}

theorem not_willWash_of_none (h : m.item? = none) : ¬ m.WillWash cfg cached c := by
  simp [WillWash, h]

theorem WillWash.item (h : m.WillWash cfg cached c) : m.Retiring c := by
  obtain h | ⟨-, h | h | h⟩ := h
  · exact ⟨.room, h, by decide⟩
  · exact ⟨.tested, h, by decide⟩
  · exact ⟨.erased, h, by decide⟩
  · exact ⟨.counted, h, by decide⟩

end ManagePc

namespace Exclusive

variable {cfg : Config} {conns : ConnId → Session} {pending pending' : Finset ConnId}
variable {cached cached' : List ConnId} {tick tick' : TickPc} {manage manage' : ManagePc}
variable {c : ConnId} {x : Session}

theorem update (h : Exclusive cfg conns pending cached tick manage)
    (hparked : ¬ (c ∈ cached ∨ manage.item? = some (c, .washed)))
    (hsock : (conns c).conn.pSock ≠ none → x.conn.pSock ≠ none)
    (hstats : x.conn.stats ≠ .pending → x.conn.pSock ≠ none) :
    Exclusive cfg (Function.update conns c x) pending cached tick manage := by
  refine ⟨fun d hd => ?_, h.requests, fun d hd => ?_, fun d hd => ?_⟩
  · have hdc : d ≠ c := fun heq => hparked (heq ▸ hd)
    rw [Function.update_of_ne hdc]
    exact h.parked d hd
  · obtain ⟨hcached, hwashed, hwill, hs⟩ := h.acting d hd
    refine ⟨hcached, hwashed, hwill, ?_⟩
    by_cases hdc : d = c
    · subst hdc
      rw [Function.update_self]
      exact hsock hs
    · rwa [Function.update_of_ne hdc]
  · by_cases hdc : d = c
    · subst hdc
      rw [Function.update_self] at hd ⊢
      exact hstats hd
    · rw [Function.update_of_ne hdc] at hd ⊢
      exact h.socket d hd

/-- The accept handler takes a connection that the tick does not act on,
as the cached ones are. -/
theorem emplace (h : Exclusive cfg conns pending cached tick manage)
    (hitem : manage.item? = none) (hsub : ∀ d ∈ cached', d ∈ cached) (hc : c ∉ cached')
    (htick : tick.acting ≠ some c) (hsock : x.conn.pSock ≠ none) :
    Exclusive cfg (Function.update conns c x) pending cached' tick manage := by
  refine ⟨fun d hd => ?_, fun d hd => h.requests d (hsub d hd), fun d hd => ?_, fun d hd => ?_⟩
  · obtain hd | hd := hd
    · have hdc : d ≠ c := fun heq => hc (heq ▸ hd)
      rw [Function.update_of_ne hdc]
      exact h.parked d (.inl (hsub d hd))
    · rw [hitem] at hd
      cases hd
  · obtain ⟨hcached, hwashed, -, hs⟩ := h.acting d hd
    have hdc : d ≠ c := fun heq => htick (heq ▸ hd)
    rw [Function.update_of_ne hdc]
    exact ⟨fun hm => hcached (hsub d hm), hwashed, ManagePc.not_willWash_of_none hitem, hs⟩
  · by_cases hdc : d = c
    · subst hdc
      rwa [Function.update_self]
    · rw [Function.update_of_ne hdc] at hd ⊢
      exact h.socket d hd

theorem ofTick (h : Exclusive cfg conns pending cached tick manage)
    (ht : ∀ c, tick'.acting = some c → tick.acting = some c) :
    Exclusive cfg conns pending cached tick' manage :=
  { h with acting := fun c hc => h.acting c (ht c hc) }

theorem ofManage (h : Exclusive cfg conns pending cached tick manage)
    (hp : manage.passing = true → manage'.passing = true)
    (hi : ∀ c stage, manage'.item? = some (c, stage) →
      stage = .picked ∨ manage.item? = some (c, stage)) :
    Exclusive cfg conns pending cached tick manage' := by
  have hitem : ∀ {c : ConnId} {stage : PassStage}, manage'.item? = some (c, stage) →
      stage ≠ .picked → manage.item? = some (c, stage) := fun hc hne =>
    (hi _ _ hc).resolve_left hne
  refine ⟨fun c hc => ?_, fun c hc hm => hp (h.requests c hc hm), fun c hc => ?_, h.socket⟩
  · exact h.parked c (hc.imp_right fun hw => hitem hw (by decide))
  · obtain ⟨hcached, hwashed, hwill, hs⟩ := h.acting c hc
    refine ⟨hcached, fun hw => hwashed (hitem hw (by decide)), fun hw => hwill ?_, hs⟩
    obtain hr | ⟨hroom, hstage⟩ := hw
    · exact .inl (hitem hr (by decide))
    · refine .inr ⟨hroom, hstage.imp (fun hr => hitem hr (by decide)) ?_⟩
      exact Or.imp (fun hr => hitem hr (by decide)) fun hr => hitem hr (by decide)

theorem ofTick_none (h : Exclusive cfg conns pending cached tick manage)
    (ht : tick'.acting = none) : Exclusive cfg conns pending cached tick' manage := by
  apply h.ofTick
  intro c hc
  rw [ht] at hc
  cases hc

theorem ofManage_none (h : Exclusive cfg conns pending cached tick manage)
    (hp : manage.passing = true → manage'.passing = true) (hi : manage'.item? = none) :
    Exclusive cfg conns pending cached tick manage' :=
  h.ofManage hp fun c stage hc => by rw [hi] at hc; cases hc

/-- The stages of a removal before the object is washed: what is true of the
item that would be acted on was already excluded. -/
theorem advance {d : ConnId} {stage : PassStage} {todo : Finset ConnId}
    (h : Exclusive cfg conns pending cached tick manage) (hstage : stage ≠ .washed)
    (hacting : tick.acting = some d →
      ¬ (ManagePc.item d stage todo).WillWash cfg cached d) :
    Exclusive cfg conns pending cached tick (.item d stage todo) := by
  refine ⟨fun c hc => ?_, fun _ _ _ => rfl, fun c hc => ?_, h.socket⟩
  · obtain hc | hc := hc
    · exact h.parked c (.inl hc)
    · cases hc
      exact absurd rfl hstage
  · obtain ⟨hcached, -, -, hs⟩ := h.acting c hc
    refine ⟨hcached, fun hw => ?_, fun hw => ?_, hs⟩
    · cases hw
      exact hstage rfl
    · obtain ⟨stage', hitem, -⟩ := hw.item
      obtain rfl : d = c := (Prod.mk.inj (Option.some.inj hitem)).1
      exact hacting hc hw

end Exclusive

namespace Server

variable {cfg : Config} {s t : Server} {c : ConnId} {moves : List (Move Server Label)}

def IsExclusive (cfg : Config) (s : Server) : Prop :=
  Exclusive cfg s.conns s.pendingToRemove s.cachedConns s.tick s.manage

/-- The two races: the accept handler takes a connection that the tick has
locked, and the tick reads another status than `conn_pending` of one that a
pass has tested and not washed yet. -/
structure NoRace (cfg : Config) (s : Server) (l : Label) : Prop where
  accept : ∀ sock c cached, l = .accept → s.accept = .tested sock → s.cachedConns = c :: cached →
    s.tick.conn ≠ some c
  status : ∀ d c b, l = .tick d → s.tick = .exam c .locked b → (s.conns c).conn.stats ≠ .pending →
    ¬ s.manage.WillWash cfg s.cachedConns c

theorem isExclusive_init : IsExclusive cfg init := by
  refine ⟨fun c hc => ?_, fun c hc => ?_, fun c hc => ?_, fun c hc => absurd rfl hc⟩
  · obtain hc | hc := hc <;> cases hc
  · cases hc
  · cases hc

theorem IsExclusive.action {l : Label} (h : s.IsExclusive cfg) (hs : s.Sound cfg)
    (hn : NoRace cfg s l) (ha : Action cfg s l t) : t.IsExclusive cfg := by
  have hretiring : ∀ {c : ConnId}, c ∈ s.cachedConns ∨ s.manage.item? = some (c, .washed) →
      c ∈ s.cachedConns ∨ s.manage.Retiring c := fun hc =>
    hc.imp_right fun hw => ⟨.washed, hw, by decide⟩
  cases ha with
  | @recycle sock c cached _ hfree hcached _ =>
      have hnodup := hs.accounted.nodup
      rw [hcached] at hnodup
      refine h.emplace (ManagePc.of_unlocked hfree).2
        (fun d hd => hcached ▸ List.mem_cons_of_mem c hd) (List.nodup_cons.mp hnodup).1
        (fun hacting => ?_) (Option.some_ne_none sock)
      exact (h.acting c hacting).1 (hcached ▸ List.mem_cons_self)
  | create _ hfree hcached =>
      refine h.emplace (ManagePc.of_unlocked hfree).2 (fun _ hd => hd)
        (fun hm => ?_) (fun hacting => ?_) (Option.some_ne_none _)
      · rw [hcached] at hm
        cases hm
      · exact absurd (hs.known.tick _ (TickPc.conn_of_acting hacting)) (Nat.lt_irrefl _)
  | @start c _ hi hg =>
      obtain ⟨sock, -, hstarted, -⟩ := start_ok (hs.lifecycle.inserted c hi) hg
      have hsock := hstarted.pSock
      refine h.update (fun hp => ?_) (fun _ => by rw [hsock]; exact Option.some_ne_none sock)
        fun _ => by rw [hsock]; exact Option.some_ne_none sock
      exact (hs.lifecycle.retired c (hretiring hp)).2.2 (by rw [hi]; rfl)
  | @io c e x effects _ hr =>
      have hne := react_ops_ne_nil hr
      have hsock := react_pSock (hs.lifecycle.ok c) hr
      refine h.update (fun hp => hne (hs.lifecycle.retired c (hretiring hp)).1)
        (fun hp => by rwa [hsock]) fun _ => ?_
      rw [hsock]
      exact h.socket c fun hp => hne (hs.lifecycle.idle c hp)
  | @push c hc _ =>
      refine { h with requests := fun d hd hm => ?_ }
      obtain rfl | hm := Finset.mem_insert.mp hm
      · exact absurd (Finset.mem_union_left _ hc) (hs.lifecycle.retired d (.inl hd)).2.1
      · exact h.requests d hd hm
  | notify _ _ =>
      refine h.ofManage (fun hp => by rwa [ManagePc.passing_notified]) fun _ _ hc => .inr ?_
      rwa [ManagePc.item?_notified] at hc
  | tickBegin _ => exact h.ofTick_none rfl
  | @tickDone _ b _ _ =>
      have htick : Exclusive cfg s.conns s.pendingToRemove s.cachedConns (.finishing b.modi)
          s.manage := h.ofTick_none rfl
      change Exclusive cfg s.conns s.pendingToRemove s.cachedConns (.finishing b.modi)
        (if b.notify = true then s.manage.notified else s.manage)
      split
      · refine htick.ofManage (fun hp => by rwa [ManagePc.passing_notified])
          fun _ _ hc => .inr ?_
        rwa [ManagePc.item?_notified] at hc
      · exact htick
  | tickDead _ _ _ => exact h.ofTick_none rfl
  | tickLock _ _ _ => exact h.ofTick_none rfl
  | sawPending _ _ => exact h.ofTick_none rfl
  | @sawOther _ d b ht hstats =>
      refine { h with acting := fun e he => ?_ }
      cases he
      have hparked : ¬ (d ∈ s.cachedConns ∨ s.manage.item? = some (d, .washed)) := fun hp =>
        hstats (h.parked d hp).1
      exact ⟨fun hd => hparked (.inl hd), fun hd => hparked (.inr hd),
        hn.status _ d b rfl ht hstats, h.socket d hstats⟩
  | dropCached _ _ => exact h.ofTick_none rfl
  | expire ht _ => exact h.ofTick fun _ hc => by rw [ht]; exact hc
  | keep _ _ => exact h.ofTick_none rfl
  | @shut _ d b ht hsock =>
      have hacting : s.tick.acting = some d := by rw [ht]; rfl
      obtain ⟨hcached, hwashed, -⟩ := h.acting d hacting
      have hupdate := h.update (x := (s.conns d).perform .shutdown)
        (fun hp => hp.elim hcached hwashed) (fun _ => hsock) fun _ => hsock
      exact hupdate.ofTick fun _ hc => by rw [hacting]; exact hc
  | @mark _ d b ht =>
      have hacting : s.tick.acting = some d := by rw [ht]; rfl
      obtain ⟨hcached, hwashed, -, hsock⟩ := h.acting d hacting
      have hupdate := h.update
        (x := { s.conns d with conn := { (s.conns d).conn with stats := .error } })
        (fun hp => hp.elim hcached hwashed) (fun _ => hsock) fun _ => hsock
      exact hupdate.ofTick fun _ hc => by rw [hacting]; exact hc
  | @tickPush _ d b ht _ =>
      have hacting : s.tick.acting = some d := by rw [ht]; rfl
      obtain ⟨hcached, -⟩ := h.acting d hacting
      have htick : Exclusive cfg s.conns s.pendingToRemove s.cachedConns
          (.exam d .release { b with notify := true }) s.manage := h.ofTick_none rfl
      refine { htick with requests := fun e he hm => ?_ }
      obtain rfl | hm := Finset.mem_insert.mp hm
      · exact absurd he hcached
      · exact h.requests e he hm
  | release _ => exact h.ofTick_none rfl
  | rotate _ _ => exact h.ofTick_none rfl
  | wake hm => exact h.ofManage_none (by rw [hm]; exact id) rfl
  | timeout hm => exact h.ofManage_none (by rw [hm]; exact id) rfl
  | wait hm => exact h.ofManage_none (by rw [hm]; exact id) rfl
  | nothing hm _ => exact h.ofManage_none (by rw [hm]; exact id) rfl
  | beginPass _ _ => exact h.ofManage_none (fun _ => rfl) rfl
  | showConns hm => exact h.ofManage_none (by rw [hm]; exact id) rfl
  | shownConns hm => exact h.ofManage_none (by rw [hm]; exact id) rfl
  | endPass hm _ =>
      have hmanage : Exclusive cfg s.conns s.pendingToRemove s.cachedConns s.tick (.scan ∅) :=
        h.ofManage_none (fun _ => rfl) rfl
      exact { hmanage with requests := fun _ _ hp => absurd hp (Finset.notMem_empty _) }
  | pick _ _ =>
      refine h.ofManage (fun _ => rfl) fun _ _ hc => .inl ?_
      cases hc
      rfl
  | absent _ _ => exact h.ofManage_none (fun _ => rfl) rfl
  | skip _ _ _ => exact h.ofManage_none (fun _ => rfl) rfl
  | @test _ d todo hm hd hfew =>
      apply h.advance (by decide)
      intro hacting
      have hpending : d ∈ s.pendingToRemove := by
        apply hs.supervised.pending
        rw [hm]
        exact Finset.mem_insert_self d todo
      obtain ⟨-, -, -, htick, -⟩ := alone_of_useCount_le hfew hd hpending (by rw [hm]; rfl)
      exact absurd (TickPc.conn_of_acting hacting) htick
  | @erase _ d todo hm =>
      apply h.advance (by decide)
      intro hacting hwill
      refine (h.acting d hacting).2.2.1 (.inr ⟨?_, .inl (by rw [hm]; rfl)⟩)
      obtain hr | ⟨hroom, -⟩ := hwill
      · cases hr
      · exact hroom
  | @count _ d todo hm =>
      apply h.advance (by decide)
      intro hacting hwill
      refine (h.acting d hacting).2.2.1 (.inr ⟨?_, .inr (.inl (by rw [hm]; rfl))⟩)
      obtain hr | ⟨hroom, -⟩ := hwill
      · cases hr
      · exact hroom
  | @room _ d todo hm hroom =>
      apply h.advance (by decide)
      intro hacting _
      exact (h.acting d hacting).2.2.1 (.inr ⟨hroom, .inr (.inr (by rw [hm]; rfl))⟩)
  | noRoom _ _ => exact h.ofManage_none (fun _ => rfl) rfl
  | @wash _ d todo conn hm hw =>
      have hpool : ItemAt cfg s.frontConns s.cachedConns d .room :=
        hs.accounted.item d .room (by rw [hm]; rfl)
      have hidle : s.tick.acting ≠ some d := fun hacting =>
        (h.acting d hacting).2.2.1 (.inl (by rw [hm]; rfl))
      have hconn : conn.stats = .pending ∧ conn.pSock = none := by
        simp only [FrontConn.connWashWhite] at hw
        split at hw
        · cases hw
        · obtain rfl := Except.ok.inj hw
          exact ⟨rfl, rfl⟩
      refine ⟨fun e he => ?_, fun _ _ _ => rfl, fun e he => ?_, fun e he => ?_⟩
      · obtain he | he := he
        · have hed : e ≠ d := fun heq => hpool.2.1 (heq ▸ he)
          simp only [setConn, Function.update_of_ne hed]
          exact h.parked e (.inl he)
        · cases he
          simp only [setConn, Function.update_self]
          exact hconn
      · have hed : e ≠ d := fun heq => hidle (heq ▸ he)
        obtain ⟨hcached, -, -, hsock⟩ := h.acting e he
        refine ⟨hcached, fun hc => ?_, fun hc => ?_, ?_⟩
        · cases hc
          exact hed rfl
        · obtain ⟨stage, hitem, -⟩ := hc.item
          cases hitem
          exact hed rfl
        · simpa only [setConn, Function.update_of_ne hed] using hsock
      · by_cases hed : e = d
        · subst hed
          simp only [setConn, Function.update_self] at he
          exact absurd hconn.1 he
        · simp only [setConn, Function.update_of_ne hed] at he ⊢
          exact h.socket e he
  | @cache _ d todo hm =>
      have hitem : s.manage.item? = some (d, .washed) := by rw [hm]; rfl
      refine ⟨fun e he => ?_, fun _ _ _ => rfl, fun e he => ?_, h.socket⟩
      · obtain he | he := he
        · obtain he | he := List.mem_append.mp he
          · exact h.parked e (.inl he)
          · exact List.mem_singleton.mp he ▸ h.parked d (.inr hitem)
        · cases he
      · obtain ⟨hcached, hwashed, -, hsock⟩ := h.acting e he
        refine ⟨fun hmem => ?_, (Option.some_ne_none _).symm,
          ManagePc.not_willWash_of_none rfl, hsock⟩
        obtain hmem | hmem := List.mem_append.mp hmem
        · exact hcached hmem
        · exact hwashed (List.mem_singleton.mp hmem ▸ hitem)
  | _ => exact h

theorem isExclusive_of_run (hr : Run (step cfg) init moves s)
    (hn : ∀ m ∈ moves, NoRace cfg m.pre m.label) : s.IsExclusive cfg := by
  have hinv : s.Sound cfg ∧ s.IsExclusive cfg := by
    refine hr.invariant_of (P := fun m => NoRace cfg m.pre m.label)
      (I := fun s => s.Sound cfg ∧ s.IsExclusive cfg) hn ⟨sound_init, isExclusive_init⟩ ?_
    intro s l t h hrace hs
    exact ⟨h.1.action (step_action hs), h.2.action h.1 hrace (step_action hs)⟩
  exact hinv.2

private theorem start_ne_cachedUseCount {env : Env} {h : Handling} :
    h.start env ≠ .error .cachedUseCount := by
  simp only [Handling.start, Handling.setStats, Handling.doReadHead, ne_eq, not_true_eq_false,
    if_false, Handling.withSocket]
  split <;> simp

/-- The cached connection that is taken has no other owner, which is
what the assertion wants. -/
theorem IsExclusive.useCount_eq_one (h : s.IsExclusive cfg) (hs : s.Sound cfg)
    (hfree : s.manage.locked = false) (haccept : s.accept.conn = none) (hc : c ∈ s.cachedConns)
    (htick : s.tick.conn ≠ some c) : s.useCount c = 1 := by
  obtain ⟨hops, hrunning, -⟩ := hs.lifecycle.retired c (.inl hc)
  have hpending : c ∉ s.pendingToRemove := by
    intro hm
    have hpassing := h.requests c hc hm
    rw [ManagePc.passing_of_unlocked hfree] at hpassing
    cases hpassing
  have hmanage : s.manage.conn ≠ some c := by
    rw [ManagePc.conn_of_unlocked hfree]
    exact (Option.some_ne_none c).symm
  have hcount := List.count_eq_one_of_mem hs.accounted.nodup hc
  simp only [useCount, if_neg (hs.accounted.disjoint c hc), if_neg hpending, hcount, hops,
    if_neg hrunning, haccept, if_neg htick, if_neg hmanage]
  rfl

/-- Without the two races the assertion on a cached connection never fails,
and the tick never shuts down or marks a connection that has been washed or
cached. -/
theorem exclusive_recycling (hr : Run (step cfg) init moves s)
    (hn : ∀ m ∈ moves, NoRace cfg m.pre m.label) :
    (NoRace cfg s .accept → step cfg s .accept ≠ .error (.fault .cachedUseCount)) ∧
      ∀ c stage b, s.tick = .exam c stage b → stage = .expired ∨ stage = .shut →
        c ∉ s.cachedConns ∧ (s.conns c).conn.pSock ≠ none := by
  have hs := sound_of_run hr
  have hx := isExclusive_of_run hr hn
  constructor
  · intro hrace hstep
    simp only [step, acceptStep] at hstep
    split at hstep
    next sock ht =>
      split at hstep
      · cases hstep
      next hfree =>
        split at hstep
        next c cached hcached =>
          split at hstep
          next hcount =>
            refine hcount (hx.useCount_eq_one hs (Bool.not_eq_true _ ▸ hfree) (by rw [ht]; rfl)
              (hcached ▸ List.mem_cons_self) ?_)
            exact hrace.accept sock c cached rfl ht hcached
          · cases hstep
        · cases hstep
    next c hi =>
      split at hstep
      next e he =>
        cases hstep
        exact start_ne_cachedUseCount he
      · cases hstep
    · cases hstep
    · cases hstep
  · intro c stage b ht hstage
    have hacting : s.tick.acting = some c := by
      rw [ht]
      obtain rfl | rfl := hstage <;> rfl
    obtain ⟨hcached, -, -, hsock⟩ := hx.acting c hacting
    exact ⟨hcached, hsock⟩

/-- A connection is accepted and ended by one completion while
the manage thread waits. -/
def endedBy (e : Event) : List Label :=
  [.accepted .peer, .accept, .accept, .accept, .manage 0, .io 0 e, .handler 0, .handler 0]

def failedRead : List Label := endedBy (.complete 0 .other [] (.refusing 0))

/-- A server whose only connection is shut down by a tick, and marked, and
waits for its removal. -/
def expiring : List Label :=
  [.accepted .peer, .accept, .accept, .accept, .clock 600] ++ List.replicate 32 (.tick 0)

theorem exclusive_recycling_expiring : ∃ moves s, Run (step smallConfig) init moves s ∧
    s.tick = .exam 0 .shut ⟨∅, ∅, false⟩ ∧
    (NoRace smallConfig s .accept → step smallConfig s .accept ≠ .error (.fault .cachedUseCount)) ∧
      ∀ c stage b, s.tick = .exam c stage b → stage = .expired ∨ stage = .shut →
        c ∉ s.cachedConns ∧ (s.conns c).conn.pSock ≠ none := by
  obtain ⟨moves, s, hr, -, htick⟩ :=
    run_of_reaches (guarded (fun s _ => s.cachedConns = [] ∧ s.manage.item? = none)
      (step smallConfig)) init expiring (p := fun s => s.tick = .exam 0 .shut ⟨∅, ∅, false⟩)
      (by decide +kernel)
  obtain ⟨hrun, hquiet⟩ := hr.of_guarded
  refine ⟨moves, s, hrun, htick, exclusive_recycling hrun fun m hm => ?_⟩
  obtain ⟨hcached, hitem⟩ := hquiet m hm
  refine ⟨fun sock c cached _ _ hc => ?_, fun d c b _ _ _ => ManagePc.not_willWash_of_none hitem⟩
  rw [hcached] at hc
  cases hc

/-- A cached connection that the tick has locked is taken, and one that was
washed after the tick had read its status is shut down. -/
theorem recycling_races :
    (∃ moves s, Run (step smallConfig) init moves s ∧ s.cachedConns = [0] ∧
      step smallConfig s .accept = .error (.fault .cachedUseCount)) ∧
    ∃ moves s, Run (step smallConfig) init moves s ∧ (∃ b, s.tick = .exam 0 .expired b) ∧
      (s.conns 0).conn.pSock = none := by
  constructor
  · obtain ⟨moves, s, hr, -, hcached, hfault⟩ :=
      run_of_reaches (step smallConfig) init
        (failedRead ++ List.replicate 9 (.manage 0) ++ List.replicate 29 (.tick 0) ++
          [.accepted .peer])
        (p := fun s => s.cachedConns = [0] ∧ Faults (step smallConfig s .accept) .cachedUseCount)
        (by decide +kernel)
    exact ⟨moves, s, hr, hcached, hfault.eq_error⟩
  · obtain ⟨moves, s, hr, -, hacting, hsock⟩ :=
      run_of_reaches (step smallConfig) init
        (failedRead ++ List.replicate 28 (.tick 0) ++ List.replicate 3 (.manage 0) ++
          [.tick 0, .tick 0] ++ List.replicate 4 (.manage 0) ++ [.clock 600, .tick 0])
        (p := fun s => s.tick = .exam 0 .expired ⟨∅, ∅, false⟩ ∧ (s.conns 0).conn.pSock = none)
        (by decide +kernel)
    exact ⟨moves, s, hr, ⟨_, hacting⟩, hsock⟩

end Server

end Ailawd
