import Ailawd.Server.IdleExpiry

/-!
# A tick of the timing wheel

`timing_wheel_check` copies the front slot, visits its entries while the other threads go on,
and only then takes the mutex to turn the wheel. `judgement` and `entered` read a run of the
server: which verdict the tick passes on an entry, and which connection a thread enters into
the back slot. `Swept` is the loop invariant of a tick in these terms.
-/

namespace Ailawd

open Transition ByteString

/-- What the tick finds an entry of the front slot to be, in
the order of its tests. -/
inductive Verdict where
  | dead
  | cached
  | expired
  | alive
  deriving DecidableEq, Repr

namespace TickStage

def undecided : TickStage → Bool
  | .locked => true
  | .sawPending => true
  | .sawOther => true
  | _ => false

/-- The steps that the tick still needs for an entry, at most.
Expired ones take longest. -/
def rank : TickStage → Nat
  | .locked => 6
  | .sawPending => 2
  | .sawOther => 5
  | .expired => 4
  | .shut => 3
  | .marked => 2
  | .release => 1

end TickStage

/-- The steps until the wheel has turned, at most: seven for each
entry, and two for the end. -/
def TickPc.rank : TickPc → Nat
  | .idle => 0
  | .scan b => 7 * b.rest.card + 2
  | .exam _ stage b => stage.rank + 7 * b.rest.card + 2
  | .finishing _ => 1

namespace Server

variable {cfg : Config} {s t u : Server} {l : Label} {c d : ConnId} {v : Verdict}
variable {m : Move Server Label} {moves more : List (Move Server Label)}

/-- The verdict that a step passes. Each test of an
entry is a step of its own. -/
def judgement (cfg : Config) (m : Move Server Label) : Option (ConnId × Verdict) :=
  match m.label with
  | .tick c => match m.pre.tick with
    | .scan b => if c ∈ b.rest ∧ m.pre.useCount c = 0 then some (c, .dead) else none
    | .exam d .sawPending _ => if d ∈ m.pre.cachedConns then some (d, .cached) else none
    | .exam d .sawOther _ => some (d, if m.pre.touchedOut cfg d then .expired else .alive)
    | _ => none
  | _ => none

/-- The connection that a step enters into the back slot: a new one, or one
that a pass has found in use. -/
def entered (m : Move Server Label) : Option ConnId :=
  match m.label with
  | .accept => match m.pre.accept with
    | .tested _ => m.post.accept.conn
    | _ => none
  | .manage _ => match m.pre.manage with
    | .item d .picked _ =>
      if d ∈ m.pre.frontConns ∧ 3 < m.pre.useCount d then some d else none
    | _ => none
  | _ => none

/-- The verdicts of a run, in order, with the entries they are about. -/
def judged (cfg : Config) (moves : List (Move Server Label)) : List (ConnId × Verdict) :=
  moves.filterMap (judgement cfg)

/-- The connections that a run enters into the back
slot, by whatever thread. -/
def enteredIn (moves : List (Move Server Label)) : Finset ConnId :=
  (moves.filterMap entered).toFinset

def keptIn (cfg : Config) (moves : List (Move Server Label)) : Finset ConnId :=
  (((judged cfg moves).filter (·.2 = .alive)).map Prod.fst).toFinset

/-- The tick has shut the connection down, has marked it
and asks for its removal. -/
def Condemns (m : Move Server Label) (c : ConnId) : Prop :=
  (∃ b, m.pre.tick = .exam c .marked b) ∧ c ∈ m.post.pendingToRemove

theorem mem_keptIn : c ∈ keptIn cfg moves ↔ (c, .alive) ∈ judged cfg moves := by
  simp [keptIn]

theorem judged_append_of_none (h : judgement cfg m = none) :
    judged cfg (moves ++ [m]) = judged cfg moves := by
  simp [judged, h]

theorem judged_append_of_some (h : judgement cfg m = some (c, v)) :
    judged cfg (moves ++ [m]) = judged cfg moves ++ [(c, v)] := by
  simp [judged, h]

theorem enteredIn_append_of_none (h : entered m = none) :
    enteredIn (moves ++ [m]) = enteredIn moves := by
  simp [enteredIn, h]

theorem enteredIn_append_of_some (h : entered m = some c) :
    enteredIn (moves ++ [m]) = insert c (enteredIn moves) := by
  ext d
  simp [enteredIn, h]

/-- A pass enters a connection only when it has looked it
up, and found it in use. -/
theorem entered_eq_none (hl : m.label ≠ .accept)
    (hm : ∀ d todo, m.pre.manage ≠ .item d .picked todo) : entered m = none := by
  obtain ⟨s, l, t⟩ := m
  cases l with
  | accept => exact absurd rfl hl
  | manage c =>
      simp only [entered]
  | _ => rfl

structure Enters (m : Move Server Label) : Prop where
  unchanged : entered m = none → m.post.timingWheel = m.pre.timingWheel
  inserted : ∀ c, entered m = some c →
    m.post.timingWheel = Wheel.insertBack m.pre.timingWheel c

theorem Enters.of_same (h : t.timingWheel = s.timingWheel) (hm : entered ⟨s, l, t⟩ = none) :
    Enters ⟨s, l, t⟩ := by
  refine ⟨fun _ => h, fun c hc => ?_⟩
  rw [hm] at hc
  cases hc

theorem Enters.of_insert (h : t.timingWheel = Wheel.insertBack s.timingWheel c)
    (hm : entered ⟨s, l, t⟩ = some c) : Enters ⟨s, l, t⟩ := by
  constructor
  · intro hnone
    rw [hm] at hnone
    cases hnone
  · intro d hd
    obtain rfl := Option.some.inj (hm.symm.trans hd)
    exact h

/-- The other threads pass no verdict, let the tick be where it is, and only
enter connections into the back slot. -/
theorem Action.besideTick (ha : Action cfg s l t) (hl : ∀ c, l ≠ .tick c) :
    t.tick = s.tick ∧ judgement cfg ⟨s, l, t⟩ = none ∧ Enters ⟨s, l, t⟩ := by
  cases ha with
  | tickBegin _ | tickDone _ _ | tickDead _ _ _ | tickLock _ _ _ | sawPending _ _ | sawOther _ _
  | dropCached _ _ | expire _ _ | keep _ _ | shut _ _ | mark _ | tickPush _ _ | release _
  | rotate _ _ => exact absurd rfl (hl _)
  | @recycle _ d _ htested _ _ _ =>
      refine ⟨rfl, rfl, .of_insert (c := d) rfl ?_⟩
      simp only [entered, htested]
      rfl
  | create htested _ _ =>
      refine ⟨rfl, rfl, .of_insert (c := s.nextConn) rfl ?_⟩
      simp only [entered, htested]
      rfl
  | start hi _ => exact ⟨rfl, rfl, .of_same rfl (by simp only [entered, hi])⟩
  | listen hi => exact ⟨rfl, rfl, .of_same rfl (by simp only [entered, hi])⟩
  | wait hm | nothing hm _ | beginPass hm _ | showConns hm | shownConns hm | endPass hm _
  | pick hm _ | erase hm | count hm | room hm _ | noRoom hm _ | wash hm _ | cache hm =>
      refine ⟨rfl, rfl, .of_same rfl (entered_eq_none (by rintro ⟨⟩) ?_)⟩
      rintro d todo hitem
      cases hm.symm.trans hitem
  | @absent _ d _ hm hd =>
      refine ⟨rfl, rfl, .of_same rfl ?_⟩
      simp only [entered, hm]
      rw [if_neg fun hc => hd hc.1]
  | @skip _ d _ hm hd hmany =>
      refine ⟨rfl, rfl, .of_insert (c := d) rfl ?_⟩
      simp only [entered, hm]
      rw [if_pos ⟨hd, hmany⟩]
  | @test _ d _ hm hd hfew =>
      refine ⟨rfl, rfl, .of_same rfl ?_⟩
      simp only [entered, hm]
      rw [if_neg fun hc => Nat.not_lt.mpr hfew hc.2]
  | _ => exact ⟨rfl, rfl, .of_same rfl rfl⟩

/-- What a tick that began in `u` has done, with `left` to visit and `modi` to
keep. The other slots are as they were, but for what was entered. -/
structure Swept (cfg : Config) (u : Server) (moves : List (Move Server Label))
    (left modi : Finset ConnId) (s : Server) : Prop where
  wheel : s.timingWheel = Wheel.insertAllBack u.timingWheel (enteredIn moves)
  once : ((judged cfg moves).map Prod.fst).Nodup
  slot : ∀ c, c ∈ u.timingWheel.headD ∅ ↔ c ∈ left ∨ c ∈ (judged cfg moves).map Prod.fst
  fresh : ∀ c ∈ left, c ∉ (judged cfg moves).map Prod.fst
  modi : ∀ c, c ∈ modi ↔ c ∈ left ∨ c ∈ keptIn cfg moves

/-- The expired connections have been condemned, except for the
one that the tick is at. -/
def Condemned (cfg : Config) (moves : List (Move Server Label)) (but : Option ConnId)
    (notify : Bool) : Prop :=
  ∀ c, (c, .expired) ∈ judged cfg moves → but = some c ∨
    notify = true ∧ ∃ m ∈ moves, Condemns m c

/-- The result of a tick that began in `u`, whatever else
has happened meanwhile. -/
structure SweepResult (cfg : Config) (u : Server) (moves : List (Move Server Label))
    (s : Server) : Prop where
  /-- Each entry of the front slot gets one verdict, and nothing else gets any. -/
  once : ((judged cfg moves).map Prod.fst).Nodup
  slot : ((judged cfg moves).map Prod.fst).toFinset = u.timingWheel.headD ∅
  /-- What the other threads have entered stays, and the kept entries follow it. -/
  wheel : s.timingWheel =
    Wheel.rotate (Wheel.insertAllBack u.timingWheel (enteredIn moves)) (keptIn cfg moves)
  condemned : ∀ c, (c, .expired) ∈ judged cfg moves → ∃ m ∈ moves, Condemns m c
  /-- The manage thread is told of them afterwards. -/
  notified : (∃ c, (c, .expired) ∈ judged cfg moves) → ∃ m ∈ moves, ∃ b, m.pre.tick = .scan b ∧
    b.rest = ∅ ∧ m.post.manage = m.pre.manage.notified

namespace Swept

variable {left modi : Finset ConnId}

theorem keep (h : Swept cfg u moves left modi s) (hj : judgement cfg ⟨s, l, t⟩ = none)
    (he : Enters ⟨s, l, t⟩) : Swept cfg u (moves ++ [⟨s, l, t⟩]) left modi t := by
  obtain ⟨hwheel, honce, hslot, hfresh, hmodi⟩ := h
  have hjudged : judged cfg (moves ++ [⟨s, l, t⟩]) = judged cfg moves :=
    judged_append_of_none hj
  refine ⟨?_, ?_, ?_, ?_, ?_⟩
  · cases hentered : entered ⟨s, l, t⟩ with
    | none =>
        rw [enteredIn_append_of_none hentered]
        exact (he.unchanged hentered).trans hwheel
    | some c =>
        rw [enteredIn_append_of_some hentered, ← Wheel.insertBack_insertAllBack, ← hwheel]
        exact he.inserted c hentered
  · rwa [hjudged]
  · rwa [hjudged]
  · rwa [hjudged]
  · intro c
    rw [hmodi, mem_keptIn, mem_keptIn, hjudged]

/-- A verdict on the entry that the tick is at, which is then
no longer left to visit. -/
theorem judge (h : Swept cfg u moves (insert d left) modi s) (hd : d ∉ left)
    (hj : judgement cfg ⟨s, l, t⟩ = some (d, v)) (hm : entered ⟨s, l, t⟩ = none)
    (hw : t.timingWheel = s.timingWheel) :
    Swept cfg u (moves ++ [⟨s, l, t⟩]) left (if v = .alive then modi else modi.erase d) t := by
  obtain ⟨hwheel, honce, hslot, hfresh, hmodi⟩ := h
  have hjudged : judged cfg (moves ++ [⟨s, l, t⟩]) = judged cfg moves ++ [(d, v)] :=
    judged_append_of_some hj
  have hnew := hfresh d (Finset.mem_insert_self d left)
  have hfst : (judged cfg (moves ++ [⟨s, l, t⟩])).map Prod.fst =
      (judged cfg moves).map Prod.fst ++ [d] := by
    rw [hjudged, List.map_append, List.map_singleton]
  have hverdict : ∀ w, (d, w) ∉ judged cfg moves := fun w hw =>
    hnew (List.mem_map.mpr ⟨(d, w), hw, rfl⟩)
  refine ⟨?_, ?_, ?_, ?_, ?_⟩
  · rw [enteredIn_append_of_none hm]
    exact hw.trans hwheel
  · rw [hfst]
    refine List.nodup_append.mpr ⟨honce, List.nodup_singleton d, ?_⟩
    rintro c hc e he rfl
    exact hnew (List.mem_singleton.mp he ▸ hc)
  · intro c
    rw [hslot, hfst, Finset.mem_insert, List.mem_append, List.mem_singleton]
    tauto
  · intro c hc
    rw [hfst, List.mem_append, List.mem_singleton]
    rintro (hmem | rfl)
    · exact hfresh c (Finset.mem_insert_of_mem hc) hmem
    · exact hd hc
  · intro c
    have hkept : c ∈ keptIn cfg (moves ++ [⟨s, l, t⟩]) ↔
        c ∈ keptIn cfg moves ∨ c = d ∧ v = .alive := by
      rw [mem_keptIn, mem_keptIn, hjudged, List.mem_append, List.mem_singleton, Prod.mk.injEq]
      tauto
    have hnotKept : d ∉ keptIn cfg moves := by
      rw [mem_keptIn]
      exact hverdict .alive
    have hbefore := hmodi c
    rw [Finset.mem_insert] at hbefore
    rw [hkept]
    split
    next hv => tauto
    next hv =>
      rw [Finset.mem_erase]
      constructor
      · rintro ⟨hne, hc⟩
        tauto
      · rintro (hc | hc | ⟨-, hv'⟩)
        · exact ⟨fun heq => hd (heq ▸ hc), hbefore.mpr (.inl (.inr hc))⟩
        · exact ⟨fun heq => hnotKept (heq ▸ hc), hbefore.mpr (.inr hc)⟩
        · exact absurd hv' hv

end Swept

/-- The loop invariant of a tick, for each place that it can be at. -/
def InSweep (cfg : Config) (u : Server) (moves : List (Move Server Label)) (s : Server) :
    TickPc → Prop
  | .idle => SweepResult cfg u moves s
  | .scan b => Swept cfg u moves b.rest b.modi s ∧ Condemned cfg moves none b.notify
  | .exam c stage b =>
    if stage.undecided then
      Swept cfg u moves (insert c b.rest) b.modi s ∧ c ∉ b.rest ∧ Condemned cfg moves none b.notify
    else Swept cfg u moves b.rest b.modi s ∧
      Condemned cfg moves (if stage = .release then none else some c) b.notify
  | .finishing modi => Swept cfg u moves ∅ modi s ∧ Condemned cfg moves none true ∧
      ((∃ c, (c, .expired) ∈ judged cfg moves) → ∃ m ∈ moves, ∃ b, m.pre.tick = .scan b ∧
        b.rest = ∅ ∧ m.post.manage = m.pre.manage.notified)

section InSweep

variable {but : Option ConnId} {notify : Bool}

theorem Condemned.keep (h : Condemned cfg moves but notify) (hj : judgement cfg m = none) :
    Condemned cfg (moves ++ [m]) but notify := by
  intro c hc
  rw [judged_append_of_none hj] at hc
  apply (h c hc).imp_right
  rintro ⟨hn, m', hm', hcond⟩
  exact ⟨hn, m', List.mem_append_left _ hm', hcond⟩

theorem Condemned.judge (h : Condemned cfg moves none notify)
    (hj : judgement cfg m = some (d, v)) (hbut : v = .expired → but = some d) :
    Condemned cfg (moves ++ [m]) but notify := by
  intro c hc
  rw [judged_append_of_some hj, List.mem_append, List.mem_singleton, Prod.mk.injEq] at hc
  obtain hc | ⟨rfl, hv⟩ := hc
  · obtain hc | ⟨hn, m', hm', hcond⟩ := h c hc
    · cases hc
    · exact .inr ⟨hn, m', List.mem_append_left _ hm', hcond⟩
  · exact .inl (hbut hv.symm)

theorem Condemned.push (h : Condemned cfg moves (some d) notify) (hj : judgement cfg m = none)
    (hm : Condemns m d) : Condemned cfg (moves ++ [m]) none true := by
  intro c hc
  rw [judged_append_of_none hj] at hc
  right
  refine ⟨rfl, ?_⟩
  obtain hc | ⟨-, m', hm', hcond⟩ := h c hc
  · obtain rfl := Option.some.inj hc
    exact ⟨m, by simp, hm⟩
  · exact ⟨m', List.mem_append_left _ hm', hcond⟩

/-- The other threads do not move the tick on. What they
enter is accounted for. -/
theorem InSweep.other (h : InSweep cfg u moves s s.tick) (hne : s.tick ≠ .idle)
    (ha : Action cfg s l t) (hl : ∀ c, l ≠ .tick c) :
    InSweep cfg u (moves ++ [⟨s, l, t⟩]) t t.tick := by
  obtain ⟨htick, hj, he⟩ := ha.besideTick hl
  rw [htick]
  cases hs : s.tick with
  | idle => exact absurd hs hne
  | scan b =>
      rw [hs] at h
      exact ⟨h.1.keep hj he, h.2.keep hj⟩
  | exam c stage b =>
      rw [hs] at h
      simp only [InSweep] at h ⊢
      split at h
      next hu =>
        rw [if_pos hu]
        exact ⟨h.1.keep hj he, h.2.1, h.2.2.keep hj⟩
      next hu =>
        rw [if_neg hu]
        exact ⟨h.1.keep hj he, h.2.keep hj⟩
  | finishing modi =>
      rw [hs] at h
      obtain ⟨hswept, hcond, hnotified⟩ := h
      refine ⟨hswept.keep hj he, hcond.keep hj, ?_⟩
      intro hc
      rw [judged_append_of_none hj] at hc
      obtain ⟨m, hm, hscan⟩ := hnotified hc
      exact ⟨m, List.mem_append_left _ hm, hscan⟩

theorem Swept.tick {left modi : Finset ConnId} (h : Swept cfg u moves left modi s)
    (hj : judgement cfg ⟨s, .tick c, t⟩ = none) (hw : t.timingWheel = s.timingWheel) :
    Swept cfg u (moves ++ [⟨s, .tick c, t⟩]) left modi t :=
  h.keep hj (.of_same hw rfl)

theorem inSweep_undecided {stage : TickStage} {b : TickBatch} (hu : stage.undecided = true) :
    InSweep cfg u moves s (.exam d stage b) ↔ Swept cfg u moves (insert d b.rest) b.modi s ∧
      d ∉ b.rest ∧ Condemned cfg moves none b.notify := by
  simp only [InSweep, hu, if_true]

theorem inSweep_decided {stage : TickStage} {b : TickBatch} (hu : stage.undecided = false) :
    InSweep cfg u moves s (.exam d stage b) ↔ Swept cfg u moves b.rest b.modi s ∧
      Condemned cfg moves (if stage = .release then none else some d) b.notify := by
  simp only [InSweep, hu, Bool.false_eq_true, if_false]

/-- The wheel turns once every entry has been visited, and
nothing is pushed before. -/
theorem Swept.result {modi : Finset ConnId} (h : Swept cfg u moves ∅ modi s)
    (hcond : Condemned cfg moves none true) (hj : judgement cfg ⟨s, .tick c, t⟩ = none)
    (hnotified : (∃ c, (c, .expired) ∈ judged cfg moves) → ∃ m ∈ moves, ∃ b,
      m.pre.tick = .scan b ∧ b.rest = ∅ ∧ m.post.manage = m.pre.manage.notified)
    (hw : t.timingWheel = Wheel.rotate s.timingWheel modi) :
    SweepResult cfg u (moves ++ [⟨s, .tick c, t⟩]) t := by
  have hjudged : judged cfg (moves ++ [⟨s, .tick c, t⟩]) = judged cfg moves :=
    judged_append_of_none hj
  have hmodi : modi = keptIn cfg (moves ++ [⟨s, .tick c, t⟩]) := by
    ext d
    rw [h.modi, mem_keptIn, mem_keptIn, hjudged]
    exact or_iff_right (Finset.notMem_empty d)
  refine ⟨?_, ?_, ?_, ?_, ?_⟩
  · rw [hjudged]
    exact h.once
  · ext d
    rw [hjudged, List.mem_toFinset, h.slot]
    exact (or_iff_right (Finset.notMem_empty d)).symm
  · rw [enteredIn_append_of_none rfl, ← hmodi, ← h.wheel]
    exact hw
  · intro d hd
    rw [hjudged] at hd
    obtain hd | ⟨-, m, hm, hcondemns⟩ := hcond d hd
    · cases hd
    · exact ⟨m, List.mem_append_left _ hm, hcondemns⟩
  · intro hd
    rw [hjudged] at hd
    obtain ⟨m, hm, hscan⟩ := hnotified hd
    exact ⟨m, List.mem_append_left _ hm, hscan⟩

theorem InSweep.tick (h : InSweep cfg u moves s s.tick) (hne : s.tick ≠ .idle)
    (ha : Action cfg s (.tick c) t) : InSweep cfg u (moves ++ [⟨s, .tick c, t⟩]) t t.tick := by
  cases ha with
  | tickBegin hs => exact absurd hs hne
  | @tickDone _ b hs hrest =>
      have hj : ∀ t, judgement cfg ⟨s, .tick c, t⟩ = none := by
        intro t
        simp only [judgement, hs]
        rw [if_neg]
        rintro ⟨hc, -⟩
        rw [hrest] at hc
        exact absurd hc (Finset.notMem_empty c)
      rw [hs] at h
      obtain ⟨hswept, hcond⟩ := h
      rw [hrest] at hswept
      refine ⟨hswept.tick (hj _) rfl, ?_, ?_⟩
      · apply Condemned.keep _ (hj _)
        intro d hd
        exact (hcond d hd).imp_right fun hc => ⟨rfl, hc.2⟩
      · rintro ⟨d, hd⟩
        rw [judged_append_of_none (hj _)] at hd
        obtain hd | ⟨hnotify, -⟩ := hcond d hd
        · cases hd
        refine ⟨_, List.mem_append_right _ (List.mem_singleton.mpr rfl), b, hs, hrest, ?_⟩
        simp only [hnotify, if_true]
  | @tickDead _ b hs hc hdead =>
      have hj : ∀ t, judgement cfg ⟨s, .tick c, t⟩ = some (c, .dead) := by
        intro t
        simp only [judgement, hs]
        rw [if_pos ⟨hc, hdead⟩]
      rw [hs] at h
      obtain ⟨hswept, hcond⟩ := h
      rw [← Finset.insert_erase hc] at hswept
      have hnext := hswept.judge (Finset.notMem_erase c _) (hj _) (t := { s with
        tick := .scan ⟨b.modi.erase c, b.rest.erase c, b.notify⟩ }) rfl rfl
      exact ⟨hnext, hcond.judge (hj _) (by rintro ⟨⟩)⟩
  | @tickLock _ b hs hc halive =>
      have hj : ∀ t, judgement cfg ⟨s, .tick c, t⟩ = none := by
        intro t
        simp only [judgement, hs]
        rw [if_neg fun hc => halive hc.2]
      rw [hs] at h
      obtain ⟨hswept, hcond⟩ := h
      refine (inSweep_undecided rfl).mpr ⟨?_, Finset.notMem_erase c _, hcond.keep (hj _)⟩
      change Swept _ _ _ (insert c (b.rest.erase c)) _ _
      rw [Finset.insert_erase hc]
      exact hswept.tick (hj _) rfl
  | @sawPending _ d b hs hp =>
      have hj : ∀ t, judgement cfg ⟨s, .tick c, t⟩ = none := by
        intro t
        simp only [judgement, hs]
      rw [hs] at h
      obtain ⟨hswept, hd, hcond⟩ := (inSweep_undecided rfl).mp h
      exact (inSweep_undecided rfl).mpr ⟨hswept.tick (hj _) rfl, hd, hcond.keep (hj _)⟩
  | @sawOther _ d b hs hp =>
      have hj : ∀ t, judgement cfg ⟨s, .tick c, t⟩ = none := by
        intro t
        simp only [judgement, hs]
      rw [hs] at h
      obtain ⟨hswept, hd, hcond⟩ := (inSweep_undecided rfl).mp h
      exact (inSweep_undecided rfl).mpr ⟨hswept.tick (hj _) rfl, hd, hcond.keep (hj _)⟩
  | @dropCached _ d b hs hcached =>
      have hj : ∀ t, judgement cfg ⟨s, .tick c, t⟩ = some (d, .cached) := by
        intro t
        simp only [judgement, hs]
        rw [if_pos hcached]
      rw [hs] at h
      obtain ⟨hswept, hd, hcond⟩ := (inSweep_undecided rfl).mp h
      exact (inSweep_decided rfl).mpr
        ⟨hswept.judge hd (hj _) rfl rfl, hcond.judge (hj _) (by rintro ⟨⟩)⟩
  | @expire _ d b hs hout =>
      have hj : ∀ t, judgement cfg ⟨s, .tick c, t⟩ = some (d, .expired) := by
        intro t
        simp only [judgement, hs]
        rw [if_pos hout]
      rw [hs] at h
      obtain ⟨hswept, hd, hcond⟩ := (inSweep_undecided rfl).mp h
      exact (inSweep_decided rfl).mpr
        ⟨hswept.judge hd (hj _) rfl rfl, hcond.judge (hj _) fun _ => rfl⟩
  | @keep _ d b hs hout =>
      have hj : ∀ t, judgement cfg ⟨s, .tick c, t⟩ = some (d, .alive) := by
        intro t
        simp only [judgement, hs]
        rw [if_neg hout]
      rw [hs] at h
      obtain ⟨hswept, hd, hcond⟩ := (inSweep_undecided rfl).mp h
      exact (inSweep_decided rfl).mpr
        ⟨hswept.judge hd (hj _) rfl rfl, hcond.judge (hj _) (by rintro ⟨⟩)⟩
  | @shut _ d b hs _ =>
      have hj : ∀ t, judgement cfg ⟨s, .tick c, t⟩ = none := by
        intro t
        simp only [judgement, hs]
      rw [hs] at h
      obtain ⟨hswept, hcond⟩ := (inSweep_decided rfl).mp h
      exact (inSweep_decided rfl).mpr ⟨hswept.tick (hj _) rfl, hcond.keep (hj _)⟩
  | @mark _ d b hs =>
      have hj : ∀ t, judgement cfg ⟨s, .tick c, t⟩ = none := by
        intro t
        simp only [judgement, hs]
      rw [hs] at h
      obtain ⟨hswept, hcond⟩ := (inSweep_decided rfl).mp h
      exact (inSweep_decided rfl).mpr ⟨hswept.tick (hj _) rfl, hcond.keep (hj _)⟩
  | @tickPush _ d b hs _ =>
      have hj : ∀ t, judgement cfg ⟨s, .tick c, t⟩ = none := by
        intro t
        simp only [judgement, hs]
      have hcondemns : ∀ tick, Condemns ⟨s, .tick c, { s with
          pendingToRemove := insert d s.pendingToRemove, tick := tick }⟩ d := fun tick =>
        ⟨⟨b, hs⟩, Finset.mem_insert_self d _⟩
      rw [hs] at h
      obtain ⟨hswept, hcond⟩ := (inSweep_decided rfl).mp h
      exact (inSweep_decided rfl).mpr
        ⟨hswept.tick (hj _) rfl, Condemned.push hcond (hj _) (hcondemns _)⟩
  | @release _ d b hs =>
      have hj : ∀ t, judgement cfg ⟨s, .tick c, t⟩ = none := by
        intro t
        simp only [judgement, hs]
      rw [hs] at h
      obtain ⟨hswept, hcond⟩ := (inSweep_decided rfl).mp h
      exact ⟨hswept.tick (hj _) rfl, hcond.keep (hj _)⟩
  | @rotate _ modi hs _ =>
      have hj : ∀ t, judgement cfg ⟨s, .tick c, t⟩ = none := by
        intro t
        simp only [judgement, hs]
      rw [hs] at h
      obtain ⟨hswept, hcond, hnotified⟩ := h
      exact hswept.result hcond (hj _) hnotified rfl

end InSweep

/-- Every step of a tick brings its end closer. One case for each place. -/
theorem Action.tickRank_lt (ha : Action cfg s (.tick c) t) (hne : s.tick ≠ .idle) :
    t.tick.rank < s.tick.rank := by
  cases ha with
  | tickBegin hs => exact absurd hs hne
  | tickDone hs hrest => simp [hs, hrest, TickPc.rank]
  | tickDead hs hc _ =>
      have hcard := Finset.card_erase_add_one hc
      simp only [hs, TickPc.rank]
      omega
  | tickLock hs hc _ =>
      have hcard := Finset.card_erase_add_one hc
      simp only [hs, TickPc.rank, TickStage.rank]
      omega
  | dropCached hs _ => simp [hs, TickPc.rank, TickStage.rank, TickBatch.eraseModi]
  | expire hs _ => simp [hs, TickPc.rank, TickStage.rank, TickBatch.eraseModi]
  | sawPending hs _ | sawOther hs _ | keep hs _ | shut hs _ | mark hs | tickPush hs _ | release hs
  | rotate hs _ => simp [hs, TickPc.rank, TickStage.rank]

theorem tick_steps_le (hr : Run (step cfg) s more t) (hl : ∀ m ∈ more, m.pre.tick ≠ .idle) :
    (more.filter (·.label.isTick)).length + t.tick.rank ≤ s.tick.rank := by
  apply hr.filter_length_le (fun s => s.tick.rank) (·.label.isTick)
  · rintro ⟨s, l, t⟩ hm htick
    have ha := step_action (hr.step_of_mem _ hm)
    cases l with
    | tick c => exact ha.tickRank_lt (hl _ hm)
    | _ => cases htick
  · rintro ⟨s, l, t⟩ hm htick
    have ha := step_action (hr.step_of_mem _ hm)
    obtain ⟨hsame, -⟩ := ha.besideTick (by rintro c rfl; cases htick)
    exact Nat.le_of_eq (congrArg TickPc.rank hsame)

/-- The step that copies the front slot into `front_modi`, and
with that begins a check. -/
def BeginsSweep (m : Move Server Label) : Prop := m.pre.tick = .idle ∧ m.post.tick ≠ .idle

theorem Action.beginsSweep (ha : Action cfg s l t) (hs : s.tick = .idle) (ht : t.tick ≠ .idle) :
    t = { s with tick := .scan ⟨s.timingWheel.headD ∅, s.timingWheel.headD ∅, false⟩ } := by
  by_cases hl : ∃ c, l = .tick c
  · obtain ⟨c, rfl⟩ := hl
    cases ha with
    | tickBegin _ => rfl
    | tickDone hs' _ | tickDead hs' _ _ | tickLock hs' _ _ | sawPending hs' _ | sawOther hs' _
    | dropCached hs' _ | expire hs' _ | keep hs' _ | shut hs' _ | mark hs' | tickPush hs' _
    | release hs' | rotate hs' _ => cases hs.symm.trans hs'
  · obtain ⟨hsame, -⟩ := ha.besideTick fun c hc => hl ⟨c, hc⟩
    exact absurd (hsame.trans hs) ht

/-- A tick begins with nothing done, and with the whole front
slot to visit and to keep. -/
theorem Swept.begin (hne : s.timingWheel ≠ []) {tick : TickPc} :
    Swept cfg s [] (s.timingWheel.headD ∅) (s.timingWheel.headD ∅) { s with tick := tick } := by
  refine ⟨(Wheel.insertAllBack_empty hne).symm, List.nodup_nil, ?_, ?_, ?_⟩
  · intro c
    exact (or_iff_left List.not_mem_nil).symm
  · intro c _
    exact List.not_mem_nil
  · intro c
    exact (or_iff_left (Finset.notMem_empty c)).symm

/-- The loop invariant holds throughout, whatever the other threads do.
Induction on the run. -/
theorem inSweep_of_run (h : InSweep cfg u [] s s.tick) (hr : Run (step cfg) s moves t)
    (hl : ∀ m ∈ moves, m.pre.tick ≠ .idle) : InSweep cfg u moves t t.tick := by
  induction hr with
  | nil => exact h
  | @snoc moves s l t _ hstep ih =>
      have hne : s.tick ≠ .idle := hl ⟨s, l, t⟩ (by simp)
      have hbefore := ih fun m hm => hl m (List.mem_append_left _ hm)
      have ha := step_action hstep
      by_cases htick : ∃ c, l = .tick c
      · obtain ⟨c, rfl⟩ := htick
        exact hbefore.tick hne ha
      · exact hbefore.other hne ha fun c hc => htick ⟨c, hc⟩

/-- A tick that is not interrupted by a fault passes exactly one verdict on
each connection in the front slot, in at most seven steps for each, while the
other threads go on. It keeps those that are alive, asks for the removal of the
expired ones and tells the manage thread, and whatever has been entered into
the back slot meanwhile stays in the wheel. -/
theorem sweep_result {front back : List (Move Server Label)}
    (hr : Run (step cfg) init (front ++ m :: back) s) (hm : BeginsSweep m)
    (hl : ∀ m ∈ back, m.pre.tick ≠ .idle) (hend : s.tick = .idle) :
    SweepResult cfg m.pre back s ∧
      (back.filter (·.label.isTick)).length ≤ 7 * (m.pre.timingWheel.headD ∅).card + 2 := by
  have hsound := sound_of_run hr.before
  have hne : m.pre.timingWheel ≠ [] :=
    List.ne_nil_of_length_pos (Nat.lt_of_lt_of_le Nat.zero_lt_two hsound.supervised.slots)
  have hpost := (step_action (hr.step_of_mem m (by simp))).beginsSweep hm.1 hm.2
  have hbegin : InSweep cfg m.pre [] m.post m.post.tick := by
    rw [hpost]
    refine ⟨.begin hne, ?_⟩
    intro c hc
    cases hc
  have hback := hr.after
  constructor
  · have hinv := inSweep_of_run hbegin hback hl
    rwa [hend] at hinv
  · have hsteps := tick_steps_le hback hl
    rw [hpost] at hsteps
    simp only [TickPc.rank] at hsteps
    omega

/-- Its only connection has expired and is in the front slot, so
the next tick meets it. -/
def expiredInFront : List Label :=
  [.accepted .peer, .accept, .accept, .accept, .clock 600] ++ List.replicate 27 (.tick 0)

theorem sweep_result_two : ∃ front m back s,
    Run (step smallConfig) init (front ++ m :: back) s ∧ BeginsSweep m ∧
      m.pre.timingWheel.headD ∅ = {0} ∧ s.timingWheel[8]? = some {1} ∧ s.pendingToRemove = {0} ∧
      SweepResult smallConfig m.pre back s ∧
      (back.filter (·.label.isTick)).length ≤ 7 * (m.pre.timingWheel.headD ∅).card + 2 := by
  obtain ⟨front, u, hfront, -, hidle, hslot, hbegin⟩ :=
    run_of_reaches (step smallConfig) init expiredInFront
      (p := fun u => u.tick = .idle ∧ u.timingWheel.headD ∅ = {0} ∧
        Reaches (step smallConfig u (.tick 0)) fun v => v.tick ≠ .idle ∧
          Reaches (exec (guarded (fun s _ => s.tick ≠ .idle) (step smallConfig)) v
            ([.tick 0, .tick 0, .accepted .peer, .accept] ++ List.replicate 7 (.tick 0)))
              fun s => s.tick = .idle ∧ s.timingWheel[8]? = some {1} ∧ s.pendingToRemove = {0})
      (by decide +kernel)
  cases hv : step smallConfig u (.tick 0) with
  | error _ =>
      rw [hv] at hbegin
      cases hbegin
  | ok v =>
      rw [hv] at hbegin
      obtain ⟨hbusy, hrest⟩ := hbegin
      obtain ⟨back, s, hback, -, hend, hentered, hpending⟩ := run_of_reaches _ _ _ hrest
      obtain ⟨hback, hl⟩ := hback.of_guarded
      have hr : Run (step smallConfig) init (front ++ ⟨u, .tick 0, v⟩ :: back) s := by
        have h := (hfront.snoc hv).append hback
        rwa [List.append_assoc, List.singleton_append] at h
      exact ⟨front, _, back, s, hr, ⟨hidle, hbusy⟩, hslot, hentered, hpending,
        sweep_result hr ⟨hidle, hbusy⟩ hl hend⟩

end Server

end Ailawd
