import Ailawd.Server.Isolation
import Ailawd.Server.PendingEntries

/-!
# Idle connections expire

With a tick and a call of `accept_handler` as one step each, and a clock that does not go
back, a tick asks for the removal of a connection only if it has been idle for the expiry
time less one turn. `Idling` counts the other way: every tick from then on brings the entry
of an idle connection one slot closer to the front of the wheel, where `Meets` says that
the tick does not end without having asked for the removal.
-/

namespace Ailawd

open Transition

/-- The tick has not yet decided about the connection, whose entry is at the
front. Between two ticks it has decided about none. -/
def TickPc.ToMeet (tick : TickPc) (c : ConnId) : Prop :=
  match tick with
  | .idle => True
  | .scan b => c ∈ b.rest
  | .exam d stage b => c ∈ b.rest ∨ d = c ∧ stage ≠ .sawPending ∧ stage ≠ .release
  | .finishing _ => False

def Label.isTick : Label → Bool
  | .tick _ => true
  | _ => false

def Label.isAccept : Label → Bool
  | .accept => true
  | _ => false

namespace Server

variable {cfg : Config} {s t u v : Server} {l : Label} {c : ConnId} {since : Nat}
variable {moves mid : List (Move Server Label)}

/-- A tick and a call of `accept_handler` are alone until their end, and the
clock is monotonic. -/
structure Whole (s : Server) (l : Label) : Prop where
  clock : ∀ now, l = .clock now → s.now ≤ now
  tick : s.tick ≠ .idle → l.isTick = true
  accept : s.accept ≠ .listening → s.accept ≠ .stopped → l.isAccept = true

instance (s : Server) (l : Label) : Decidable (s.Whole l) :=
  have : Decidable (∀ now, l = .clock now → s.now ≤ now) :=
    match l with
    | .clock now => decidable_of_iff (s.now ≤ now)
        ⟨fun h _ heq => Label.clock.inj heq ▸ h, fun h => h now rfl⟩
    | .accepted _ | .accept | .io _ _ | .handler _ | .tick _ | .wake | .timeout | .manage _
    | .throws _ | .overlook =>
      .isTrue fun _ => nofun
  decidable_of_iff ((∀ now, l = .clock now → s.now ≤ now) ∧
    (s.tick ≠ .idle → l.isTick = true) ∧
    (s.accept ≠ .listening → s.accept ≠ .stopped → l.isAccept = true))
    ⟨fun ⟨hc, ht, ha⟩ => ⟨hc, ht, ha⟩, fun ⟨hc, ht, ha⟩ => ⟨hc, ht, ha⟩⟩

def expiry (cfg : Config) : Nat := cfg.expiredTime - cfg.checkSpare

def Pushes (m : Move Server Label) (c : ConnId) : Prop :=
  ∃ d b, m.label = .tick d ∧ m.pre.tick = .exam c .marked b

/-- The tick puts the filtered slot at the back, and with that ends. This is
what ticks are counted by. -/
def endsTick (m : Move Server Label) : Bool :=
  match m.label, m.pre.tick with
  | .tick _, .finishing _ => true
  | _, _ => false

/-- The number of ticks of a run that are executed at some time
or later, by their ends. -/
def ticksFrom (time : Nat) (moves : List (Move Server Label)) : Nat :=
  moves.countP fun m => endsTick m && decide (time ≤ m.pre.now)

/-- Other threads run between two ticks only, so an entry that is met
is judged by one clock. -/
theorem Whole.idle (h : s.Whole l) (hl : l.isTick = false) : s.tick = .idle := by
  by_contra hne
  cases hl.symm.trans (h.tick hne)

/-- A connection whose removal is decided is expired, as the clock
stands still during a tick. -/
def CondemnedExpired (cfg : Config) (s : Server) : Prop :=
  ∀ c, s.tick.condemned = some c → s.touchedOut cfg c

theorem CondemnedExpired.action (h : s.CondemnedExpired cfg) (hw : s.Whole l)
    (ha : Action cfg s l t) : t.CondemnedExpired cfg := by
  have hquiet : l.isTick = false → t.tick = s.tick → t.CondemnedExpired cfg := by
    intro hl hsame c hc
    rw [hsame, hw.idle hl] at hc
    cases hc
  cases ha with
  | tickBegin _ => exact fun c hc => by cases hc
  | tickDone _ _ => exact fun c hc => by cases hc
  | tickDead _ _ _ => exact fun c hc => by cases hc
  | tickLock _ _ _ => exact fun c hc => by cases hc
  | sawPending _ _ => exact fun c hc => by cases hc
  | sawOther _ _ => exact fun c hc => by cases hc
  | dropCached _ _ => exact fun c hc => by cases hc
  | expire _ hold =>
      intro c hc
      cases hc
      exact hold
  | keep _ _ => exact fun c hc => by cases hc
  | @shut _ d b ht _ =>
      intro c hc
      cases hc
      have hold : s.touchedOut cfg d := h d (by rw [ht]; rfl)
      simpa [touchedOut, setConn, Session.perform] using hold
  | @mark _ d b ht =>
      intro c hc
      cases hc
      have hold : s.touchedOut cfg d := h d (by rw [ht]; rfl)
      simpa [touchedOut, setConn] using hold
  | tickPush _ _ => exact fun c hc => by cases hc
  | release _ => exact fun c hc => by cases hc
  | rotate _ _ => exact fun c hc => by cases hc
  | _ => exact hquiet rfl rfl

theorem Action.slots (ha : Action cfg s l t) (h : s.timingWheel.length = 10) :
    t.timingWheel.length = 10 := by
  have hne : s.timingWheel ≠ [] := List.ne_nil_of_length_pos (by omega)
  cases ha with
  | recycle _ _ _ _ => exact (Wheel.length_insertBack hne).trans h
  | create _ _ _ => exact (Wheel.length_insertBack hne).trans h
  | skip _ _ _ => exact (Wheel.length_insertBack hne).trans h
  | rotate _ _ => exact (Wheel.length_rotate hne).trans h
  | _ => exact h

/-- The invariants that every run has, with those of this module,
which need whole ticks. -/
structure Turning (cfg : Config) (s : Server) : Prop where
  sound : s.Sound cfg
  placed : s.Placed
  slots : s.timingWheel.length = 10

theorem turning_init : Turning cfg init := ⟨sound_init, placed_init, rfl⟩

theorem Turning.action (h : s.Turning cfg) (ha : Action cfg s l t) : t.Turning cfg :=
  ⟨h.sound.action ha, h.placed.action h.sound ha, ha.slots h.slots⟩

/-- A served connection that is not about to be removed has an entry in the
wheel, in one of its ten slots. -/
theorem Turning.holds (h : s.Turning cfg) (hfront : c ∈ s.frontConns)
    (hpending : c ∉ s.pendingToRemove) : Wheel.Holds (s.timingWheel.take 10) c := by
  rw [List.take_of_length_le (Nat.le_of_eq h.slots)]
  obtain hwheel | hvisit := h.sound.supervised.watched c hfront
  · exact hwheel.holds
  · exact absurd (h.sound.supervised.pending hvisit) hpending

/-- Between the steps of `accept_handler` no served connection is pending, so
the tick judges it by its time. -/
theorem Turning.not_pending (h : s.Turning cfg) (hfront : c ∈ s.frontConns)
    (haccept : s.accept ≠ .inserted c) : (s.conns c).conn.stats ≠ .pending := by
  intro hp
  obtain hcached | hi | hi := h.placed c (h.sound.known.front c hfront) hp
  · exact h.sound.accounted.disjoint c hcached hfront
  · exact haccept hi
  · have hat : ItemAt cfg s.frontConns s.cachedConns c .washed :=
      h.sound.accounted.item c .washed hi
    exact hat.1 hfront

/-- An entry at the front is met before the tick ends, and then judged. -/
def Meets (s : Server) (c : ConnId) : Prop := c ∈ s.timingWheel.headD ∅ → s.tick.ToMeet c

private theorem Meets.ofTick {tick : TickPc} (h : s.Meets c) (ht : s.tick = tick)
    (hwheel : t.timingWheel = s.timingWheel) (hk : tick.ToMeet c → t.tick.ToMeet c) :
    t.Meets c := by
  intro hc
  rw [hwheel] at hc
  have hm := h hc
  rw [ht] at hm
  exact hk hm

/-- The tick does not pass over a connection that is expired. It has
no other way to judge it. -/
theorem Meets.action (h : s.Meets c) (hs : s.Turning cfg) (hw : s.Whole l)
    (hfront : c ∈ s.frontConns) (hold : s.touchedOut cfg c) (hpending : c ∉ t.pendingToRemove)
    (ha : Action cfg s l t) : t.Meets c := by
  have hidle : l.isTick = false → t.tick = s.tick → t.Meets c := by
    intro hl hsame _
    rw [hsame, hw.idle hl]
    trivial
  cases ha with
  | tickBegin _ => exact id
  | tickDone ht hrest =>
      refine h.ofTick ht rfl fun hm => ?_
      change c ∈ _ at hm
      rw [hrest] at hm
      exact absurd hm (Finset.notMem_empty c)
  | tickDead ht _ hdead =>
      refine h.ofTick ht rfl fun hm => Finset.mem_erase.mpr ⟨?_, hm⟩
      rintro rfl
      exact not_mem_frontConns_of_useCount hdead hfront
  | @tickLock d b ht _ _ =>
      refine h.ofTick ht rfl fun hm => ?_
      by_cases hcd : d = c
      · exact .inr ⟨hcd, by decide, by decide⟩
      · exact .inl (Finset.mem_erase.mpr ⟨fun heq => hcd heq.symm, hm⟩)
  | @sawPending _ d b ht hstats =>
      refine h.ofTick ht rfl fun hm => hm.imp_right fun hd => ?_
      obtain ⟨rfl, -⟩ := hd
      refine absurd hstats (hs.not_pending hfront fun hi => ?_)
      have hl := hw.accept (by simp [hi]) (by simp [hi])
      cases hl
  | sawOther ht _ =>
      exact h.ofTick ht rfl fun hm => hm.imp_right fun hd => ⟨hd.1, by decide, by decide⟩
  | dropCached ht _ =>
      exact h.ofTick ht rfl fun hm => hm.imp_right fun hd => absurd rfl hd.2.1
  | expire ht _ =>
      exact h.ofTick ht rfl fun hm => hm.imp_right fun hd => ⟨hd.1, by decide, by decide⟩
  | keep ht hnot =>
      exact h.ofTick ht rfl fun hm => hm.imp_right fun hd => absurd (hd.1 ▸ hold) hnot
  | shut ht _ =>
      exact h.ofTick ht rfl fun hm => hm.imp_right fun hd => ⟨hd.1, by decide, by decide⟩
  | mark ht =>
      exact h.ofTick ht rfl fun hm => hm.imp_right fun hd => ⟨hd.1, by decide, by decide⟩
  | tickPush ht _ =>
      refine h.ofTick ht rfl fun hm => hm.imp_right fun hd => absurd ?_ hpending
      exact hd.1 ▸ Finset.mem_insert_self _ _
  | release ht => exact h.ofTick ht rfl fun hm => hm.resolve_right fun hd => hd.2.2 rfl
  | rotate _ _ => exact fun _ => trivial
  | _ => exact hidle rfl rfl

/-- A connection that is idle: after `n` ticks at `time` or later at most the
first `10 - n` slots are between its entry and the next tick that meets it. -/
structure Idling (time n : Nat) (c : ConnId) (s : Server) : Prop where
  late : 0 < n → time ≤ s.now
  due : Wheel.Holds (s.timingWheel.take (10 - n)) c
  meets : time ≤ s.now → s.Meets c

theorem Action.wheel (ha : Action cfg s l t) :
    endsTick ⟨s, l, t⟩ = false ∧
        (t.timingWheel = s.timingWheel ∨ ∃ d, t.timingWheel = Wheel.insertBack s.timingWheel d) ∨
      endsTick ⟨s, l, t⟩ = true ∧ ∃ modi, s.tick = .finishing modi ∧
        t.timingWheel = Wheel.rotate s.timingWheel modi := by
  have hnot : ∀ {tick : TickPc}, s.tick = tick → (∀ modi, tick ≠ .finishing modi) →
      endsTick ⟨s, l, t⟩ = false := by
    intro tick ht hne
    simp only [endsTick, ht]
    cases l <;> cases tick <;> first | rfl | exact absurd rfl (hne _)
  cases ha with
  | recycle _ _ _ _ => exact .inl ⟨rfl, .inr ⟨_, rfl⟩⟩
  | create _ _ _ => exact .inl ⟨rfl, .inr ⟨_, rfl⟩⟩
  | skip _ _ _ => exact .inl ⟨rfl, .inr ⟨_, rfl⟩⟩
  | @rotate _ modi ht _ => exact .inr ⟨by simp only [endsTick, ht], modi, ht, rfl⟩
  | tickBegin ht => exact .inl ⟨hnot ht fun _ => nofun, .inl rfl⟩
  | tickDone ht _ => exact .inl ⟨hnot ht fun _ => nofun, .inl rfl⟩
  | tickDead ht _ _ => exact .inl ⟨hnot ht fun _ => nofun, .inl rfl⟩
  | tickLock ht _ _ => exact .inl ⟨hnot ht fun _ => nofun, .inl rfl⟩
  | sawPending ht _ => exact .inl ⟨hnot ht fun _ => nofun, .inl rfl⟩
  | sawOther ht _ => exact .inl ⟨hnot ht fun _ => nofun, .inl rfl⟩
  | dropCached ht _ => exact .inl ⟨hnot ht fun _ => nofun, .inl rfl⟩
  | expire ht _ => exact .inl ⟨hnot ht fun _ => nofun, .inl rfl⟩
  | keep ht _ => exact .inl ⟨hnot ht fun _ => nofun, .inl rfl⟩
  | shut ht _ => exact .inl ⟨hnot ht fun _ => nofun, .inl rfl⟩
  | mark ht => exact .inl ⟨hnot ht fun _ => nofun, .inl rfl⟩
  | tickPush ht _ => exact .inl ⟨hnot ht fun _ => nofun, .inl rfl⟩
  | release ht => exact .inl ⟨hnot ht fun _ => nofun, .inl rfl⟩
  | _ => exact .inl ⟨rfl, .inl rfl⟩

/-- The clock changes between two ticks only, and forwards. So an expired
connection stays expired. -/
theorem Whole.now (hw : s.Whole l) (ha : Action cfg s l t) :
    t.now = s.now ∨ s.now ≤ t.now ∧ s.tick = .idle ∧ t.tick = .idle := by
  cases ha with
  | clock now =>
      exact .inr ⟨hw.clock now rfl, hw.idle rfl, hw.idle rfl⟩
  | _ => exact .inl rfl

/-- One step while the connection stays idle and nobody asks for its removal. A
tick brings its entry one slot closer. -/
theorem Idling.action {n : Nat} (h : Idling (since + expiry cfg) n c s) (hs : s.Turning cfg)
    (hw : s.Whole l) (hfront : c ∈ s.frontConns)
    (htouch : (s.conns c).conn.touchTime ≤ since) (ha : Action cfg s l t)
    (hfront' : c ∈ t.frontConns) (hpending : c ∉ t.pendingToRemove) :
    Idling (since + expiry cfg) (n + if endsTick ⟨s, l, t⟩ && decide (since + expiry cfg ≤ s.now)
      then 1 else 0) c t := by
  have hnow : since + expiry cfg ≤ s.now → since + expiry cfg ≤ t.now := by
    intro hle
    obtain heq | ⟨hle', -⟩ := hw.now ha
    · rwa [heq]
    · exact hle.trans hle'
  have hmeets : since + expiry cfg ≤ t.now → t.Meets c := by
    intro hle
    obtain heq | ⟨-, -, hidle⟩ := hw.now ha
    · rw [heq] at hle
      have hold : s.touchedOut cfg c := by
        simp only [expiry] at hle
        simp only [touchedOut]
        omega
      exact (h.meets hle).action hs hw hfront hold hpending ha
    · rw [Meets, hidle]
      exact fun _ => trivial
  obtain ⟨hend, hwheel⟩ | ⟨hend, modi, htick, hwheel⟩ := ha.wheel
  · rw [hend, Bool.false_and, if_neg (by simp), Nat.add_zero]
    refine ⟨fun hn => hnow (h.late hn), ?_, hmeets⟩
    obtain hwheel | ⟨d, hwheel⟩ := hwheel <;> rw [hwheel]
    · exact h.due
    · exact Wheel.holds_take_insertBack h.due
  · rw [hend, Bool.true_and]
    by_cases hle : since + expiry cfg ≤ s.now
    · rw [if_pos (by simpa using hle)]
      have hnot : c ∉ s.timingWheel.headD ∅ := by
        intro hc
        have hm := h.meets hle hc
        rw [htick] at hm
        exact hm
      refine ⟨fun _ => hnow hle, ?_, hmeets⟩
      rw [hwheel, Nat.sub_add_eq]
      exact Wheel.holds_take_rotate h.due hnot
    · rw [if_neg (by simpa using hle), Nat.add_zero]
      obtain rfl : n = 0 := Nat.eq_zero_of_not_pos fun hn => hle (h.late hn)
      exact ⟨fun hn => absurd hn (Nat.lt_irrefl 0), (hs.action ha).holds hfront' hpending, hmeets⟩

/-- A run during which the connection stays served, idle and not about to be
removed. Induction on the run. -/
private theorem idling_of_run (hu : u.Turning cfg) (hidle : u.tick = .idle)
    (hr : Run (step cfg) u mid v) (hw : ∀ m ∈ mid, Whole m.pre m.label)
    (hstay : ∀ w, Visits mid v w → c ∈ w.frontConns ∧ c ∉ w.pendingToRemove ∧
      (w.conns c).conn.touchTime ≤ since) :
    v.Turning cfg ∧
      Idling (since + expiry cfg) (ticksFrom (since + expiry cfg) mid) c v := by
  induction hr with
  | nil =>
      obtain ⟨hfront, hpending, -⟩ := hstay u (.inl rfl)
      refine ⟨hu, fun hn => absurd hn (Nat.lt_irrefl 0), hu.holds hfront hpending, fun _ => ?_⟩
      rw [Meets, hidle]
      exact fun _ => trivial
  | @snoc mid s l t _ hstep ih =>
      have hbefore : ∀ w, Visits mid s w → Visits (mid ++ [⟨s, l, t⟩]) t w := by
        rintro w (rfl | ⟨m, hm, rfl⟩)
        · exact .inr ⟨_, List.mem_append_right _ (List.mem_singleton_self _), rfl⟩
        · exact .inr ⟨m, List.mem_append_left _ hm, rfl⟩
      obtain ⟨hs, hidling⟩ := ih (fun m hm => hw m (List.mem_append_left _ hm))
        fun w hvisit => hstay w (hbefore w hvisit)
      have ha := step_action hstep
      obtain ⟨hfront, -, htouch⟩ := hstay s (hbefore s (.inl rfl))
      obtain ⟨hfront', hpending, -⟩ := hstay t (.inl rfl)
      refine ⟨hs.action ha, ?_⟩
      rw [ticksFrom, List.countP_append, List.countP_singleton]
      exact hidling.action hs (hw _ (List.mem_append_right _ (List.mem_singleton_self _))) hfront
        htouch ha hfront' hpending

/-- A tick asks for the removal of a connection only if it was last touched the
expiry time less one turn ago; and a served connection that is not touched any
more has left the map or has been pending at the end of the tenth tick from
then on. -/
theorem idle_expiry (hr : Run (step cfg) init moves s) (hw : ∀ m ∈ moves, Whole m.pre m.label) :
    (∀ m ∈ moves, ∀ c, Pushes m c → (m.pre.conns c).conn.touchTime +
      (cfg.expiredTime - cfg.expiredTime / 10) ≤ m.pre.now) ∧
    ∀ front mid back u v c since, moves = front ++ mid ++ back → Run (step cfg) init front u →
      Run (step cfg) u mid v → u.tick = .idle → c ∈ u.frontConns →
      (∀ w, Visits mid v w → (w.conns c).conn.touchTime ≤ since) →
      10 ≤ ticksFrom (since + (cfg.expiredTime - cfg.expiredTime / 10)) mid →
      ∃ w, Visits mid v w ∧ (c ∉ w.frontConns ∨ c ∈ w.pendingToRemove) := by
  constructor
  · rintro m hm c ⟨d, b, -, ht⟩
    have hold : m.pre.CondemnedExpired cfg := by
      refine hr.invariant_of_mem (P := fun m => Whole m.pre m.label)
        (I := CondemnedExpired cfg) hw (fun c hc => by cases hc) ?_ m hm
      exact fun s l t h hw hstep => h.action hw (step_action hstep)
    exact hold c (by rw [ht]; rfl)
  · rintro front mid back u v c since rfl hu hv hidle - htouch hticks
    by_contra hnone
    have hstay : ∀ w, Visits mid v w → c ∈ w.frontConns ∧ c ∉ w.pendingToRemove ∧
        (w.conns c).conn.touchTime ≤ since := by
      intro w hvisit
      refine ⟨by_contra fun hc => hnone ⟨w, hvisit, .inl hc⟩, fun hc => ?_, htouch w hvisit⟩
      exact hnone ⟨w, hvisit, .inr hc⟩
    have hturning : u.Turning cfg := hu.invariant turning_init
      fun _ _ _ h hs => h.action (step_action hs)
    obtain ⟨-, hidling⟩ := idling_of_run hturning hidle hv
      (fun m hm => hw m (List.mem_append_left _ (List.mem_append_right _ hm))) hstay
    have hdone : 10 - ticksFrom (since + expiry cfg) mid = 0 := Nat.sub_eq_zero_of_le hticks
    obtain ⟨slot, hslot, -⟩ := hidling.due
    rw [hdone] at hslot
    exact absurd hslot List.not_mem_nil

/-- A connection that is never touched again, and the
ten ticks that remove it. -/
def expired : List Label :=
  [.accepted .peer, .accept, .accept, .accept, .clock 600] ++ List.replicate 37 (.tick 0)

theorem idle_expiry_expired : ∃ moves s, Run (step smallConfig) init moves s ∧
    moves.map Move.label = expired ∧ s.pendingToRemove = {0} ∧
    (∀ m ∈ moves, ∀ c, Pushes m c → (m.pre.conns c).conn.touchTime +
      (smallConfig.expiredTime - smallConfig.expiredTime / 10) ≤ m.pre.now) ∧
    ∀ front mid back u v c since, moves = front ++ mid ++ back →
      Run (step smallConfig) init front u → Run (step smallConfig) u mid v → u.tick = .idle →
      c ∈ u.frontConns → (∀ w, Visits mid v w → (w.conns c).conn.touchTime ≤ since) →
      10 ≤ ticksFrom (since + (smallConfig.expiredTime - smallConfig.expiredTime / 10)) mid →
      ∃ w, Visits mid v w ∧ (c ∉ w.frontConns ∨ c ∈ w.pendingToRemove) := by
  obtain ⟨moves, s, hr, hlabels, hpending⟩ :=
    run_of_reaches (guarded Whole (step smallConfig)) init expired
      (p := fun s => s.pendingToRemove = {0}) (by decide +kernel)
  obtain ⟨hrun, hwhole⟩ := hr.of_guarded
  exact ⟨moves, s, hrun, hlabels, hpending, idle_expiry hrun hwhole⟩

end Server

end Ailawd
