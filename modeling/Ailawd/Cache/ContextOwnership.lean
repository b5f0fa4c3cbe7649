import Ailawd.Cache.LiveContext

/-!
# Who owns the Redis context

Whatever the connection attempts come to, the client never frees a context twice, never uses one
that it has freed and never loses one: while `redis_lock_` is free, what hiredis has allocated is
what `context_` points to. What is left is a command on a null context.
-/

namespace Ailawd

open Transition

def RedisPlace.runsCommand : RedisPlace → Bool
  | .redisCommand _ => true
  | _ => false

namespace RedisData

variable {d : RedisData}

/-- `context_` points to the one context that is allocated;
nobody else could free it. -/
def OwnsOne (d : RedisData) : Prop := ∃ c, d.context = some c ∧ d.allocated = [c.id]

def OwnsNone (d : RedisData) : Prop := d.context = none ∧ d.allocated = []

def Owned (d : RedisData) : Prop := d.OwnsNone ∨ d.OwnsOne

/-- What the thread in `initContext` finds at each of its statements. Between
the free and the assignment behind it the pointer dangles. -/
def ownership (d : RedisData) : InitPoint → Prop
  | .check | .test => d.Owned
  | .free | .log | .drop => d.OwnsOne
  | .clear | .null => d.allocated = []
  | .connect => d.OwnsNone

def RunsOnNull (d : RedisData) (p : RedisPlace) : Prop :=
  p.runsCommand = true ∧ d.context = none

instance : DecidableRel RunsOnNull := fun _ _ => inferInstanceAs (Decidable (_ ∧ _))

/-- The turns, without the commands on a null context. Ownership holds whether
those occur or not, so they are set aside. -/
def guardedTurn (d : RedisData) (p : RedisPlace) (a : RedisInput) : RedisTurn :=
  if d.RunsOnNull p then .error .disabled else d.turn p a

theorem OwnsOne.deref (h : d.OwnsOne) :
    ∃ c, d.deref = .ok c ∧ d.allocated.filter (· ≠ c.id) = [] := by
  obtain ⟨c, hc, hall⟩ := h
  refine ⟨c, ?_, ?_⟩
  · simp only [RedisData.deref, hc, hall, List.mem_singleton, if_true]
  · simp [hall]

end RedisData

namespace RedisPlace

/-- Outside the lock a thread relies on nothing; inside, it
owns what is allocated. -/
def owns (p : RedisPlace) (d : RedisData) : Prop :=
  match p with
  | .outside | .ready | .checkInstance | .lockInstance | .lock _ => True
  | .recheckInstance | .redisCommand _ | .unlock => d.Owned
  | .createInstance => d.redisInstance = false ∧ d.Owned
  | .errstr _ => d.OwnsOne
  | .initContext point => d.ownership point

end RedisPlace

namespace RedisThreads

variable {d d' : RedisData} {p q : RedisPlace} {a : RedisInput} {m t : RedisThreads} {i : Nat}
variable {label : Nat × RedisInput} {moves : List (Move RedisThreads (Nat × RedisInput))}

def ownershipOutline : Monitor.Outline RedisPlace RedisData where
  inside := RedisPlace.inside
  free := RedisData.Owned
  assertion := RedisPlace.owns

private theorem owns_of_outside (hp : p.inside = false) (d : RedisData) : p.owns d := by
  cases p with
  | outside => trivial
  | ready => trivial
  | checkInstance => trivial
  | lockInstance => trivial
  | lock op => trivial
  | recheckInstance => cases hp
  | createInstance => cases hp
  | redisCommand op => cases hp
  | errstr op => cases hp
  | initContext point => cases hp
  | unlock => cases hp

private theorem owner_goes (hp : p.inside = true) (hq : q.inside = true) (h : q.owns d') :
    ownershipOutline.Accepts p d (.ok (.goto q d') : RedisTurn) := by
  refine ⟨hq.trans hp.symm, h, fun hout => ?_, fun r hr _ => owns_of_outside hr d'⟩
  cases hp.symm.trans hout

private theorem outsider_goes (hp : p.inside = false) (hq : q.inside = false) :
    ownershipOutline.Accepts p d (.ok (.goto q d) : RedisTurn) :=
  ⟨hq.trans hp.symm, owns_of_outside hq d, fun _ => rfl, fun _ _ hr => hr⟩

/-- `initContext` frees what it drops, and drops
nothing that it has not freed. -/
private theorem initContext_owns {point : InitPoint} (h : d.ownership point) :
    ownershipOutline.Accepts (.initContext point) d (d.initContext point a) := by
  simp only [RedisData.initContext]
  split
  next =>
    refine owner_goes rfl rfl ?_
    split
    next hnone =>
      obtain hn | ⟨c, hc, -⟩ := h
      · exact hn
      · cases hnone.symm.trans hc
    next hsome =>
      obtain hn | hone := h
      · exact absurd hn.1 hsome
      · exact hone
  next =>
    obtain ⟨c, hc, hnil⟩ := h.deref
    simp only [RedisData.redisFree, hc]
    exact owner_goes rfl rfl hnil
  next => exact owner_goes rfl rfl ⟨rfl, h⟩
  next outcome =>
    obtain ⟨-, hnil⟩ := h
    cases outcome with
    | good => exact owner_goes rfl rfl (.inr ⟨_, rfl, congrArg _ hnil⟩)
    | failed => exact owner_goes rfl rfl (.inr ⟨_, rfl, congrArg _ hnil⟩)
    | null => exact owner_goes rfl rfl (.inl ⟨rfl, hnil⟩)
  next =>
    split
    next => exact owner_goes rfl rfl h
    next hsome =>
      have hone : d.OwnsOne := h.resolve_left fun hn => hsome hn.1
      obtain ⟨c, hc, -⟩ := hone.deref
      simp only [hc]
      split
      · exact owner_goes rfl rfl hone
      · exact owner_goes rfl rfl (.inr hone)
  next =>
    obtain ⟨c, hc, -⟩ := h.deref
    rw [hc]
    exact owner_goes rfl rfl h
  next =>
    obtain ⟨c, hc, hnil⟩ := h.deref
    simp only [RedisData.redisFree, hc]
    exact owner_goes rfl rfl hnil
  next => exact owner_goes rfl rfl (.inl ⟨rfl, h⟩)
  next => trivial

/-- One turn that runs no command on a null context. One case for
each place of the client. -/
private theorem turn_owns (hp : p.owns d) (hlive : ¬ d.RunsOnNull p) :
    ownershipOutline.Accepts p d (d.turn p a) := by
  simp only [RedisData.turn]
  split
  next => exact outsider_goes rfl rfl
  next => exact outsider_goes rfl rfl
  next => exact outsider_goes rfl rfl
  next =>
    split
    next => exact outsider_goes rfl rfl
    next => exact outsider_goes rfl rfl
  next => exact ⟨rfl, id⟩
  next =>
    split
    next => exact owner_goes rfl rfl hp
    next hpub => exact owner_goes rfl rfl ⟨by simpa using hpub, hp⟩
  next => exact owner_goes rfl rfl hp.2
  next => exact ⟨rfl, id⟩
  next op replied =>
    have hone : d.OwnsOne := hp.resolve_left fun hn => hlive ⟨rfl, hn.1⟩
    obtain ⟨c, hc, -⟩ := hone.deref
    rw [hc]
    cases replied with
    | true => exact owner_goes rfl rfl (.inr hone)
    | false => exact owner_goes rfl rfl hone
  next =>
    obtain ⟨c, hc, -⟩ := RedisData.OwnsOne.deref hp
    rw [hc]
    exact owner_goes rfl rfl (.inr hp)
  next => exact initContext_owns hp
  next => exact ⟨rfl, rfl, hp, trivial⟩
  next => trivial

theorem ownership_sound : ownershipOutline.Sound RedisData.guardedTurn fun _ => True := by
  intro d p a hp _
  rw [RedisData.guardedTurn]
  split
  · trivial
  next hlive => exact turn_owns hp hlive

private theorem turn_null (h : d.RunsOnNull p) :
    d.turn p a = .error (.fault .nullContext) ∨ d.turn p a = .error .disabled := by
  obtain ⟨hcommand, hnone⟩ := h
  cases p with
  | redisCommand op =>
      cases a with
      | replies replied =>
          left
          simp only [RedisData.turn, RedisData.deref, hnone]
          rfl
      | _ => exact .inr rfl
  | _ => cases hcommand

/-- A turn with another outcome is one of the guarded turns, so the rules of
the monitor apply to it. -/
private theorem guarded_step (h : ¬ m.data.RunsOnNull (m.pc i)) :
    Monitor.step RedisData.guardedTurn m (i, a) = m.step (i, a) := by
  simp only [Monitor.step, step, RedisData.guardedTurn, if_neg h]

private theorem step_null (h : m.data.RunsOnNull (m.pc i)) :
    m.step (i, a) = .error (.fault .nullContext) ∨ m.step (i, a) = .error .disabled := by
  simp only [step, Monitor.step]
  obtain ht | ht := turn_null (a := a) h
  · rw [ht]
    exact .inl rfl
  · rw [ht]
    exact .inr rfl

theorem initial_ownership : ownershipOutline.Holds initial where
  exclusive := by
    intro i
    constructor <;> intro h <;> cases h
  free := fun _ => .inl ⟨rfl, rfl⟩
  assertion := fun _ => trivial

theorem ownership_of_run (hr : Run step initial moves m) :
    ∀ u, Visits moves m u → ownershipOutline.Holds u := by
  refine hr.invariant_of_visits (P := fun _ => True) (fun _ _ => trivial) initial_ownership ?_
  rintro s ⟨i, a⟩ t hs - hstep
  refine ownership_sound.holds_step hs trivial (i := i) (a := a) ?_
  rw [guarded_step, hstep]
  intro hnull
  obtain h | h := step_null (a := a) hnull
  · cases hstep.symm.trans h
  · cases hstep.symm.trans h

/-- What holds in every state: the only fault is a command on a null context;
what is allocated is what `context_` points to; and while the lock is free it
points to nothing else. -/
structure OwnsContext (u : RedisThreads) : Prop where
  faults : ∀ i a f, u.step (i, a) = .error (.fault f) →
    f = .nullContext ∧ u.data.RunsOnNull (u.pc i)
  allocated : u.data.allocated = [] ∨ u.data.OwnsOne
  settled : u.lock = none → u.data.Owned

/-- What the holder of the lock knows of the allocated
contexts: there is at most one. -/
private theorem allocated_of_inside (hp : p.inside = true) (h : p.owns d) :
    d.allocated = [] ∨ d.OwnsOne := by
  have howned : d.Owned → d.allocated = [] ∨ d.OwnsOne := fun h => h.imp_left And.right
  cases p with
  | recheckInstance => exact howned h
  | redisCommand op => exact howned h
  | unlock => exact howned h
  | createInstance => exact howned h.2
  | errstr op => exact .inr h
  | initContext point =>
      cases point with
      | check => exact howned h
      | test => exact howned h
      | free => exact .inr h
      | log => exact .inr h
      | drop => exact .inr h
      | clear => exact .inl h
      | null => exact .inl h
      | connect => exact .inl h.2
  | _ => cases hp

theorem ownsContext_of_holds (h : ownershipOutline.Holds m) : m.OwnsContext where
  faults := by
    intro i a f hfault
    by_cases hnull : m.data.RunsOnNull (m.pc i)
    · obtain heq | heq := step_null (a := a) hnull
      · cases hfault.symm.trans heq
        exact ⟨rfl, hnull⟩
      · cases hfault.symm.trans heq
    · rw [← guarded_step hnull] at hfault
      exact absurd hfault (ownership_sound.step_survives h trivial)
  allocated := by
    cases hlock : m.lock with
    | none => exact (h.free hlock).imp_left And.right
    | some i =>
        have hinside : (m.pc i).inside = true := (h.exclusive i).mpr hlock
        exact allocated_of_inside hinside (h.assertion i)
  settled := h.free

def Creates (v : Move RedisThreads (Nat × RedisInput)) : Prop :=
  v.pre.pc v.label.1 = .createInstance

private theorem deref_goes {place : RedisPlace} {turn : Turn RedisPlace RedisData}
    (ht : (d.deref.map fun _ => Turn.goto place d) = .ok turn) : turn = .goto place d := by
  cases hd : d.deref with
  | error e =>
      rw [hd] at ht
      cases ht
  | ok c =>
      rw [hd] at ht
      exact (Except.ok.inj ht).symm

private theorem initContext_published {point : InitPoint} (h : d.redisInstance = true)
    (ht : d.initContext point a = .ok (.goto q d')) : d'.redisInstance = true := by
  have hfree : ∀ next, d.redisFree next = .ok (.goto q d') → d'.redisInstance = true := by
    intro next hnext
    simp only [RedisData.redisFree] at hnext
    split at hnext
    · cases hnext
    · obtain ⟨-, rfl⟩ := Turn.goto.inj (Except.ok.inj hnext)
      exact h
  simp only [RedisData.initContext] at ht
  split at ht
  next =>
    obtain ⟨-, rfl⟩ := Turn.goto.inj (Except.ok.inj ht)
    exact h
  next => exact hfree _ ht
  next =>
    obtain ⟨-, rfl⟩ := Turn.goto.inj (Except.ok.inj ht)
    exact h
  next outcome =>
    obtain ⟨-, rfl⟩ := Turn.goto.inj (Except.ok.inj ht)
    cases outcome with
    | good => exact h
    | failed => exact h
    | null => exact h
  next =>
    split at ht
    · obtain ⟨-, rfl⟩ := Turn.goto.inj (Except.ok.inj ht)
      exact h
    split at ht
    · cases ht
    split at ht
    · obtain ⟨-, rfl⟩ := Turn.goto.inj (Except.ok.inj ht)
      exact h
    · obtain ⟨-, rfl⟩ := Turn.goto.inj (Except.ok.inj ht)
      exact h
  next =>
    obtain ⟨-, rfl⟩ := Turn.goto.inj (deref_goes ht)
    exact h
  next => exact hfree _ ht
  next =>
    obtain ⟨-, rfl⟩ := Turn.goto.inj (Except.ok.inj ht)
    exact h
  next => cases ht

private theorem turn_published (h : d.redisInstance = true)
    (ht : d.turn p a = .ok (.goto q d')) : d'.redisInstance = true := by
  have hsame : ∀ place, (.ok (.goto place d) : RedisTurn) = .ok (.goto q d') →
      d'.redisInstance = true := by
    intro place heq
    obtain ⟨-, rfl⟩ := Turn.goto.inj (Except.ok.inj heq)
    exact h
  simp only [RedisData.turn] at ht
  split at ht
  next => exact hsame _ ht
  next => exact hsame _ ht
  next => exact hsame _ ht
  next => exact hsame _ ht
  next => cases ht
  next => exact hsame _ ht
  next =>
    obtain ⟨-, rfl⟩ := Turn.goto.inj (Except.ok.inj ht)
    rfl
  next => cases ht
  next =>
    obtain ⟨-, rfl⟩ := Turn.goto.inj (deref_goes ht)
    exact h
  next =>
    obtain ⟨-, rfl⟩ := Turn.goto.inj (deref_goes ht)
    exact h
  next => exact initContext_published h ht
  next => cases ht
  next => cases ht

private theorem step_published (hs : m.step label = .ok t) (h : m.data.redisInstance = true) :
    t.data.redisInstance = true := by
  obtain ⟨i, a⟩ := label
  obtain ⟨q, d, ht, rfl⟩ | ⟨q, -, -, rfl⟩ | ⟨q, -, rfl⟩ := Monitor.step_cases hs
  · exact turn_published h ht
  · exact h
  · exact h

private theorem published_of_creates (hs : m.step label = .ok t)
    (hc : m.pc label.1 = .createInstance) : t.data.redisInstance = true := by
  obtain ⟨i, a⟩ := label
  have hturn : ∀ {turn}, m.data.turn (m.pc i) a = .ok turn →
      turn = .goto (.initContext .check) { m.data with redisInstance := true } := by
    intro turn ht
    rw [show m.pc i = .createInstance from hc] at ht
    cases a with
    | proceed => exact (Except.ok.inj ht).symm
    | _ => cases ht
  obtain ⟨q, d, ht, rfl⟩ | ⟨q, ht, -⟩ | ⟨q, ht, -⟩ := Monitor.step_cases hs
  · obtain ⟨-, rfl⟩ := Turn.goto.inj (hturn ht)
    rfl
  · cases hturn ht
  · cases hturn ht

/-- Whatever hiredis answers and however the threads interleave, no context is
used after it has been freed, freed twice or lost, and the instance is created
at most once. -/
theorem context_owned (hr : Run step initial moves m) :
    (∀ u, Visits moves m u → u.OwnsContext) ∧
      moves.Pairwise fun v v' => ¬ (Creates v ∧ Creates v') := by
  refine ⟨fun u hu => ownsContext_of_holds (ownership_of_run hr u hu), ?_⟩
  suffices ((∃ v ∈ moves, Creates v) → m.data.redisInstance = true) ∧
    moves.Pairwise fun v v' => ¬ (Creates v ∧ Creates v') from this.2
  induction hr with
  | nil => exact ⟨fun h => absurd h (by simp), .nil⟩
  | @snoc moves s label t hr hs ih =>
      obtain ⟨hpub, hpairs⟩ := ih
      refine ⟨?_, List.pairwise_append.mpr ⟨hpairs, List.pairwise_singleton _ _, ?_⟩⟩
      · rintro ⟨v, hv, hcreates⟩
        obtain hv | hv := List.mem_append.mp hv
        · exact step_published hs (hpub ⟨v, hv, hcreates⟩)
        · obtain rfl := List.mem_singleton.mp hv
          exact published_of_creates hs hcreates
      · rintro v hv w hw ⟨hfirst, hagain⟩
        obtain rfl := List.mem_singleton.mp hw
        have hassert := (ownership_of_run hr s (.inl rfl)).assertion label.1
        rw [show s.pc label.1 = .createInstance from hagain] at hassert
        cases hassert.1.symm.trans (hpub ⟨v, hv, hfirst⟩)

/-- A command without a reply: the first context is freed and a
second one takes its place. -/
theorem context_owned_reconnecting : ∃ moves u, Run step initial moves u ∧ u.lock = none ∧
    u.data.attempts = 2 ∧ u.data.allocated = [1] ∧ u.OwnsContext ∧
    moves.Pairwise fun v v' => ¬ (Creates v ∧ Creates v') := by
  obtain ⟨moves, u, hr, -, hlock, hattempts, hallocated⟩ := run_of_reaches step initial
    [(0, .call .getInstance), (0, .proceed), (0, .proceed), (0, .proceed), (0, .proceed),
      (0, .proceed), (0, .connects .good), (0, .proceed), (0, .proceed),
      (0, .call (.operation .getValue)), (0, .proceed), (0, .replies false), (0, .proceed),
      (0, .proceed), (0, .proceed), (0, .proceed), (0, .connects .good), (0, .proceed),
      (0, .proceed)]
    (p := fun u => u.lock = none ∧ u.data.attempts = 2 ∧ u.data.allocated = [1]) (by decide)
  obtain ⟨howns, hpairs⟩ := context_owned hr
  exact ⟨moves, u, hr, hlock, hattempts, hallocated, howns u (.inl rfl), hpairs⟩

end RedisThreads

end Ailawd
