import Ailawd.Model.RedisThreads

/-!
# Commands run on a live context

The instance is published before its context exists, but nothing is done with it until
`redis_lock_` is free, which is after `initContext` has returned. So as long as hiredis
connects, a thread that holds the lock outside `initContext` finds a context there, and
`outline` says what it finds at each point of the code.

`initContext` leaves `context_` null when it does not connect, and its callers do not look.
Each such attempt is followed by a command on the null context in some run.
-/

namespace Ailawd

open Transition

/-- A context that a completed `initContext` has left there, and nobody has
freed. It may still be used. -/
def RedisData.Live (d : RedisData) : Prop :=
  ∃ c, d.context = some c ∧ c.id ∈ d.allocated ∧ c.id ∈ d.obtained

/-- The calls of `redisCommand` and the reads of `context_->errstr`: the places
where the pointer is followed. -/
def RedisPlace.usesContext : RedisPlace → Bool
  | .redisCommand _ | .errstr _ | .initContext .log => true
  | _ => false

/-- A connection attempt gives a good context. Of other
inputs nothing is asked. -/
def RedisInput.Connects : RedisInput → Prop
  | .connects outcome => outcome = .good
  | _ => True

instance : DecidablePred RedisInput.Connects
  | .connects outcome => inferInstanceAs (Decidable (outcome = .good))
  | .call _ | .replies _ | .proceed => .isTrue trivial

namespace RedisThreads

/-- Whoever uses the context uses a live one, and no step is a
fault, whatever its input. -/
structure Safe (m : RedisThreads) : Prop where
  live : ∀ i, (m.pc i).usesContext = true → m.data.Live
  survives : ∀ label f, label.2.Connects → m.step label ≠ .error (.fault f)

end RedisThreads

namespace RedisData

variable {d : RedisData} {c : RedisContext}

def Allocated (d : RedisData) : Prop := ∃ c, d.context = some c ∧ c.id ∈ d.allocated

theorem Live.allocated (h : d.Live) : d.Allocated := by
  obtain ⟨c, hc, hmem, -⟩ := h
  exact ⟨c, hc, hmem⟩

theorem Allocated.deref (h : d.Allocated) :
    ∃ c, d.deref = .ok c ∧ d.context = some c ∧ c.id ∈ d.allocated := by
  obtain ⟨c, hc, hmem⟩ := h
  refine ⟨c, ?_, hc, hmem⟩
  simp only [RedisData.deref, hc]
  rw [if_pos hmem]

/-- What holds while the lock is free: the published instance has a live
context, or there is no instance yet. -/
structure Settled (d : RedisData) : Prop where
  live : d.redisInstance = true → d.Live
  none : d.redisInstance = false → d.context = none

/-- What the thread in `initContext` finds, if every attempt gives a good
context. It may free the old one first. -/
def initAssertion (d : RedisData) : InitPoint → Prop
  | .check => d.context = none ∨ d.Allocated
  | .free => d.Allocated
  | .clear => True
  | .connect => d.context = none
  | .test => ∃ c, d.context = some c ∧ c.id ∈ d.allocated ∧ c.err = false
  | .log | .drop | .null => False

end RedisData

namespace RedisPlace

def inside : RedisPlace → Bool
  | .recheckInstance | .createInstance | .redisCommand _ | .errstr _ | .initContext _ | .unlock =>
    true
  | _ => false

def assertion (p : RedisPlace) (d : RedisData) : Prop :=
  match p with
  | .outside | .checkInstance | .lockInstance => True
  | .ready | .lock _ => d.redisInstance = true
  | .recheckInstance => d.Settled
  | .createInstance => d.context = none
  | .redisCommand _ | .errstr _ | .unlock => d.redisInstance = true ∧ d.Live
  | .initContext point => d.redisInstance = true ∧ d.initAssertion point

end RedisPlace

namespace RedisThreads

def outline : Monitor.Outline RedisPlace RedisData where
  inside := RedisPlace.inside
  free := RedisData.Settled
  assertion := RedisPlace.assertion

end RedisThreads

namespace RedisPlace

variable {d d' : RedisData} {p q : RedisPlace} {a : RedisInput}

/-- Outside the lock only the instance pointer matters, which stays published.
So no thread there can be disturbed. -/
theorem assertion_stable (hkeep : d.redisInstance = true → d'.redisInstance = true)
    (hp : p.inside = false) (h : p.assertion d) : p.assertion d' := by
  cases p with
  | outside => trivial
  | checkInstance => trivial
  | lockInstance => trivial
  | ready => exact hkeep h
  | lock op => exact hkeep h
  | recheckInstance => cases hp
  | createInstance => cases hp
  | redisCommand op => cases hp
  | errstr op => cases hp
  | initContext point => cases hp
  | unlock => cases hp

end RedisPlace

namespace RedisThreads

variable {d d' : RedisData} {p q : RedisPlace} {a : RedisInput}

private theorem accepts_inside (hp : p.inside = true) (hq : q.inside = true)
    (hkeep : d.redisInstance = true → d'.redisInstance = true) (h : q.assertion d') :
    outline.Accepts p d (.ok (.goto q d') : RedisTurn) := by
  refine ⟨hq.trans hp.symm, h, ?_, ?_⟩
  · intro hout
    cases hp.symm.trans hout
  · intro r hr
    exact RedisPlace.assertion_stable hkeep hr

private theorem accepts_outside (hp : p.inside = false) (hq : q.inside = false)
    (h : q.assertion d) : outline.Accepts p d (.ok (.goto q d) : RedisTurn) :=
  ⟨hq.trans hp.symm, h, fun _ => rfl, fun _ _ hr => hr⟩

/-- `initContext` ends with a live context, as each
attempt gives a good one. -/
private theorem initContext_accepts {point : InitPoint} (hpub : d.redisInstance = true)
    (h : d.initAssertion point) (ha : a.Connects) :
    outline.Accepts (.initContext point) d (d.initContext point a) := by
  simp only [RedisData.initContext]
  split
  next =>
    refine accepts_inside rfl rfl id ⟨hpub, ?_⟩
    split
    next hnone => exact hnone
    next hsome => exact h.resolve_left hsome
  next =>
    obtain ⟨c, hc, -⟩ := RedisData.Allocated.deref h
    simp only [RedisData.redisFree, hc]
    exact accepts_inside rfl rfl id ⟨hpub, trivial⟩
  next => exact accepts_inside rfl rfl id ⟨hpub, rfl⟩
  next outcome =>
    obtain rfl : outcome = .good := ha
    exact accepts_inside rfl rfl id ⟨hpub, _, rfl, List.mem_cons_self, rfl⟩
  next =>
    obtain ⟨c, hcontext, hmem, herr⟩ := h
    have hc : d.deref = .ok c := by
      simp only [RedisData.deref, hcontext]
      rw [if_pos hmem]
    rw [if_neg (by simp [hcontext])]
    simp only [hc, herr]
    exact accepts_inside rfl rfl id ⟨hpub, c, hcontext, hmem, List.mem_cons_self⟩
  next => exact h.elim
  next => exact h.elim
  next => exact h.elim
  next => trivial

theorem outline_sound : outline.Sound RedisData.turn RedisInput.Connects := by
  intro d p a hp ha
  simp only [RedisData.turn]
  split
  next => exact accepts_outside rfl rfl trivial
  next => exact accepts_outside rfl rfl trivial
  next => exact accepts_outside rfl rfl hp
  next =>
    split
    next hpub => exact accepts_outside rfl rfl hpub
    next => exact accepts_outside rfl rfl trivial
  next => exact ⟨rfl, id⟩
  next =>
    split
    next hpub => exact accepts_inside rfl rfl id ⟨hpub, hp.live hpub⟩
    next hpub => exact accepts_inside rfl rfl id (hp.none (by simpa using hpub))
  next => exact accepts_inside rfl rfl (fun _ => rfl) ⟨rfl, .inl hp⟩
  next => exact ⟨rfl, fun hfree => ⟨hp, hfree.live hp⟩⟩
  next op replied =>
    obtain ⟨c, hc, -⟩ := hp.2.allocated.deref
    rw [hc]
    cases replied with
    | true => exact accepts_inside rfl rfl id hp
    | false => exact accepts_inside rfl rfl id hp
  next =>
    obtain ⟨c, hc, -⟩ := hp.2.allocated.deref
    rw [hc]
    exact accepts_inside rfl rfl id ⟨hp.1, .inr hp.2.allocated⟩
  next => exact initContext_accepts hp.1 hp.2 ha
  next =>
    refine ⟨rfl, rfl, ⟨fun _ => hp.2, ?_⟩, hp.1⟩
    intro hunpublished
    cases hp.1.symm.trans hunpublished
  next => trivial

variable {m t : RedisThreads} {i : Nat} {outcome : ConnectOutcome}

private theorem connect_cases (hs : m.step (i, .connects outcome) = .ok t) :
    t.pc i = .initContext .test ∧ t.data = m.data.redisConnectWithTimeout outcome := by
  have hturn : ∀ {d p tn}, RedisData.turn d p (.connects outcome) = .ok tn →
      tn = .goto (.initContext .test) (d.redisConnectWithTimeout outcome) := by
    intro d p tn ht
    cases p with
    | initContext point =>
        cases point with
        | connect => exact (Except.ok.inj ht).symm
        | _ => cases ht
    | _ => cases ht
  obtain ⟨q, d, ht, rfl⟩ | ⟨q, ht, -⟩ | ⟨q, ht, -⟩ := Monitor.step_cases hs
  · obtain ⟨rfl, rfl⟩ := Turn.goto.inj (hturn ht)
    exact ⟨Function.update_self .., rfl⟩
  · cases hturn ht
  · cases hturn ht

/-- A thread that leaves with a null context may run a command next: no method
looks at the pointer before. -/
private theorem reaches_null_command (hpc : m.pc i = .unlock) (hnone : m.data.context = none) :
    Reaches (exec step m [(i, .proceed), (i, .call (.operation .getValue)), (i, .proceed)])
      fun u => u.pc i = .redisCommand .getValue ∧ u.data.context = none := by
  simp [exec, step, Monitor.step, RedisData.turn, hpc, hnone, Reaches]

/-- A connection attempt without a good context leaves a null one: it is freed,
or was never there. -/
private theorem reaches_unlock (hpc : t.pc i = .initContext .test)
    (hdata : t.data = m.data.redisConnectWithTimeout outcome) (hne : outcome ≠ .good) :
    ∃ labels, Reaches (exec step t labels) fun u => u.pc i = .unlock ∧ u.data.context = none := by
  cases outcome with
  | good => exact absurd rfl hne
  | null =>
      refine ⟨[(i, .proceed)], ?_⟩
      simp [exec, step, Monitor.step, RedisData.turn, RedisData.initContext, hpc, hdata,
        RedisData.redisConnectWithTimeout, Reaches]
  | failed =>
      refine ⟨[(i, .proceed), (i, .proceed), (i, .proceed), (i, .proceed)], ?_⟩
      simp [exec, step, Monitor.step, RedisData.turn, RedisData.initContext, hpc, hdata,
        RedisData.redisConnectWithTimeout, RedisData.deref, RedisData.redisFree, Except.map,
        Reaches]

private theorem not_safe_of_null {op : RedisOperation} (hpc : m.pc i = .redisCommand op)
    (hnone : m.data.context = none) : ¬ m.Safe := by
  intro h
  obtain ⟨c, hc, -⟩ := h.live i (by rw [hpc]; rfl)
  cases hnone.symm.trans hc

/-- Some run goes on to a command on the null context, by steps of the one
thread that has tried to connect. -/
private theorem exists_null_command (hs : m.step (i, .connects outcome) = .ok t)
    (hne : outcome ≠ .good) : ∃ more u, Run step t more u ∧ u.pc i = .redisCommand .getValue ∧
      u.data.context = none := by
  obtain ⟨hpc, hdata⟩ := connect_cases hs
  obtain ⟨labels, hreach⟩ := reaches_unlock hpc hdata hne
  obtain ⟨first, v, hfirst, -, hv, hnone⟩ := run_of_reaches step t labels hreach
  obtain ⟨more, u, hmore, -, hu⟩ := run_of_reaches step v _ (reaches_null_command hv hnone)
  exact ⟨first ++ more, u, hfirst.append hmore, hu⟩

theorem initial_holds : outline.Holds initial where
  exclusive := by
    intro i
    constructor <;> intro h <;> cases h
  free := fun _ => ⟨nofun, fun _ => rfl⟩
  assertion := fun _ => trivial

theorem safe_of_holds (h : outline.Holds m) : m.Safe where
  live := by
    intro i huses
    have hi : (m.pc i).assertion m.data := h.assertion i
    cases hpc : m.pc i with
    | redisCommand op =>
        rw [hpc] at hi
        exact hi.2
    | errstr op =>
        rw [hpc] at hi
        exact hi.2
    | initContext point =>
        rw [hpc] at hi huses
        cases point with
        | log => exact hi.2.elim
        | _ => cases huses
    | _ =>
        rw [hpc] at huses
        cases huses
  survives := fun _ _ hlabel => outline_sound.step_survives h hlabel

/-- If every connection attempt of a run gives a good context, every state is
safe; and after any other attempt of a run, a command on a null context may
follow. -/
theorem commands_run_on_live_context {moves : List (Move RedisThreads (Nat × RedisInput))}
    (hr : Run step initial moves m) :
    ((∀ v ∈ moves, v.label.2.Connects) → ∀ u, Visits moves m u → u.Safe) ∧
    ∀ v ∈ moves, ¬ v.label.2.Connects → ∃ i more u, Run step v.post more u ∧
      u.pc i = .redisCommand .getValue ∧ u.data.context = none ∧ ¬ u.Safe := by
  constructor
  · intro hconnects u hu
    exact safe_of_holds (outline_sound.holds_run hr hconnects initial_holds u hu)
  · rintro ⟨s, ⟨i, a⟩, t⟩ hv hfails
    have hs := hr.step_of_mem _ hv
    cases a with
    | connects outcome =>
        obtain ⟨more, u, hmore, hpc, hnone⟩ := exists_null_command hs hfails
        exact ⟨i, more, u, hmore, hpc, hnone, not_safe_of_null hpc hnone⟩
    | _ => exact absurd trivial hfails

def firstLookup : List (Nat × RedisInput) :=
  [(0, .call .getInstance), (0, .proceed), (0, .proceed), (0, .proceed), (0, .proceed),
    (0, .proceed), (0, .connects .good), (0, .proceed), (0, .proceed),
    (0, .call (.operation .getValue)), (0, .proceed)]

theorem first_lookup_on_live_context : ∃ moves u, Run step initial moves u ∧
    moves.map Move.label = firstLookup ∧ u.pc 0 = .redisCommand .getValue ∧ u.Safe := by
  obtain ⟨moves, u, hr, hlabels, hpc⟩ := run_of_reaches step initial firstLookup
    (p := fun u => u.pc 0 = .redisCommand .getValue) (by decide)
  have hconnects : ∀ label ∈ firstLookup, label.2.Connects := by decide
  refine ⟨moves, u, hr, hlabels, hpc, ?_⟩
  apply (commands_run_on_live_context hr).1 ?_ u (.inl rfl)
  intro v hv
  apply hconnects
  rw [← hlabels]
  exact List.mem_map_of_mem hv

/-- With Redis down, the first lookup runs its command on a null context,
which ends the process. -/
theorem refused_lookup_crashes : ∃ moves u, Run step initial moves u ∧
    u.pc 0 = .redisCommand .getValue ∧ u.data.context = none ∧
      u.step (0, .replies false) = .error (.fault .nullContext) ∧ ¬ u.Safe := by
  obtain ⟨moves, u, hr, -, hpc, hnone⟩ := run_of_reaches step initial
    [(0, .call .getInstance), (0, .proceed), (0, .proceed), (0, .proceed), (0, .proceed),
      (0, .proceed), (0, .connects .failed), (0, .proceed), (0, .proceed), (0, .proceed),
      (0, .proceed), (0, .proceed), (0, .call (.operation .getValue)), (0, .proceed)]
    (p := fun u => u.pc 0 = .redisCommand .getValue ∧ u.data.context = none) (by decide)
  refine ⟨moves, u, hr, hpc, hnone, ?_, not_safe_of_null hpc hnone⟩
  simp [step, Monitor.step, RedisData.turn, hpc, RedisData.deref, hnone, Except.map]

end RedisThreads

end Ailawd
