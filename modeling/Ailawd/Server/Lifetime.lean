import Ailawd.Server.Recycling

/-!
# References to connections

Whoever works on a connection finds it in `front_conns_`, an object without references never gets
one again, and between two passes the objects that exist are the served and the cached ones.
-/

namespace Ailawd

open Transition ByteString

namespace Server

variable {cfg : Config} {s t : Server} {l : Label} {c : ConnId}

/-- An operation is outstanding, a handler runs, or the accept handler has not
finished with it. Something will still be done for it. -/
def Busy (s : Server) (c : ConnId) : Prop :=
  (s.conns c).ops ≠ [] ∨ c ∈ s.pushing ∪ s.notifying ∨ s.accept.conn = some c

/-- The object has been made and has been destroyed, as its
last `shared_ptr` is gone. -/
def Dead (s : Server) (c : ConnId) : Prop := c < s.nextConn ∧ s.useCount c = 0

private theorem busy_served_of_one {d : ConnId} (h : ∀ c, s.Busy c → c ∈ s.frontConns)
    (hd : d ∈ t.frontConns) (hops : ∀ e, e ≠ d → (t.conns e).ops = (s.conns e).ops)
    (hrunning : ∀ e, e ≠ d → e ∈ t.pushing ∪ t.notifying → e ∈ s.pushing ∪ s.notifying)
    (haccept : ∀ e, e ≠ d → t.accept.conn = some e → s.accept.conn = some e)
    (hfront : s.frontConns ⊆ t.frontConns) : ∀ c, t.Busy c → c ∈ t.frontConns := by
  intro c hc
  by_cases hcd : c = d
  · exact hcd ▸ hd
  · apply hfront
    apply h c
    obtain hc | hc | hc := hc
    · exact .inl (hops c hcd ▸ hc)
    · exact .inr (.inl (hrunning c hcd hc))
    · exact .inr (.inr (haccept c hcd hc))

private theorem busy_served_of_same (h : ∀ c, s.Busy c → c ∈ s.frontConns)
    (hops : ∀ e, (t.conns e).ops = (s.conns e).ops)
    (hrunning : t.pushing ∪ t.notifying ⊆ s.pushing ∪ s.notifying)
    (haccept : ∀ e, t.accept.conn = some e → s.accept.conn = some e)
    (hfront : ∀ c, s.Busy c → c ∈ s.frontConns → c ∈ t.frontConns) :
    ∀ c, t.Busy c → c ∈ t.frontConns := by
  intro c hc
  have hbusy : s.Busy c := by
    obtain hc | hc | hc := hc
    · exact .inl (hops c ▸ hc)
    · exact .inr (.inl (hrunning hc))
    · exact .inr (.inr (haccept c hc))
  exact hfront c hbusy (h c hbusy)

private theorem ops_update {x : Session} (hx : x.ops = (s.conns c).ops) (e : ConnId) :
    (Function.update s.conns c x e).ops = (s.conns e).ops := by
  by_cases he : e = c
  · subst he
    rwa [Function.update_self]
  · rw [Function.update_of_ne he]

theorem Action.busy_served (h : ∀ c, s.Busy c → c ∈ s.frontConns) (hs : s.Sound cfg)
    (ha : Action cfg s l t) : ∀ c, t.Busy c → c ∈ t.frontConns := by
  have hsame := busy_served_of_same (t := t) h
  have hone := fun d => busy_served_of_one (d := d) (t := t) h
  cases ha with
  | acceptError _ =>
      apply hsame (fun _ => rfl) (Finset.Subset.refl _)
      · intro e he
        cases he
      · exact fun _ _ hc => hc
  | acceptTested _ _ =>
      apply hsame (fun _ => rfl) (Finset.Subset.refl _)
      · intro e he
        cases he
      · exact fun _ _ hc => hc
  | @recycle _ d _ _ _ _ _ =>
      apply hone d (Finset.mem_insert_self d _)
      · exact fun e he => congrArg Session.ops (Function.update_of_ne he _ _)
      · exact fun _ _ he => he
      · exact fun e he hconn => absurd (Option.some.inj hconn).symm he
      · exact Finset.subset_insert _ _
  | create _ _ _ =>
      apply hone s.nextConn (Finset.mem_insert_self s.nextConn _)
      · exact fun e he => congrArg Session.ops (Function.update_of_ne he _ _)
      · exact fun _ _ he => he
      · exact fun e he hconn => absurd (Option.some.inj hconn).symm he
      · exact Finset.subset_insert _ _
  | @start d g hi _ =>
      have hd : d ∈ s.frontConns := h d (.inr (.inr (by rw [hi]; rfl)))
      apply hone d hd
      · exact fun e he => congrArg Session.ops (Function.update_of_ne he _ _)
      · exact fun _ _ he => he
      · exact fun e he hconn => absurd (Option.some.inj hconn).symm he
      · exact Finset.Subset.refl _
  | listen _ =>
      apply hsame (fun _ => rfl) (Finset.Subset.refl _)
      · intro e he
        cases he
      · exact fun _ _ hc => hc
  | @io d e x effects _ hr =>
      have hd : d ∈ s.frontConns := h d (.inl (react_ops_ne_nil hr))
      apply hone d hd
      · exact fun e he => congrArg Session.ops (Function.update_of_ne he _ _)
      · intro e he hmem
        obtain hmem | hmem := Finset.mem_union.mp hmem
        · apply Finset.mem_union_left
          change e ∈ (if _ then insert d s.pushing else s.pushing) at hmem
          split at hmem
          · exact (Finset.mem_insert.mp hmem).resolve_left he
          · exact hmem
        · exact Finset.mem_union_right _ hmem
      · exact fun _ _ hconn => hconn
      · exact Finset.Subset.refl _
  | push hc _ =>
      exact hsame (fun _ => rfl) (fun e he => (mem_running_push hc e).mp he) (fun _ he => he)
        fun _ _ he => he
  | notify _ _ =>
      apply hsame (fun _ => rfl)
      · exact Finset.union_subset_union (Finset.Subset.refl _) (Finset.erase_subset _ _)
      · exact fun _ he => he
      · exact fun _ _ he => he
  | shut _ _ =>
      exact hsame (ops_update (Session.perform_shutdown_ops _)) (Finset.Subset.refl _)
        (fun _ he => he) fun _ _ he => he
  | mark _ =>
      exact hsame (ops_update rfl) (Finset.Subset.refl _) (fun _ he => he) fun _ _ he => he
  | wash _ _ =>
      exact hsame (ops_update rfl) (Finset.Subset.refl _) (fun _ he => he) fun _ _ he => he
  | @erase _ d _ hm =>
      -- the use count test has found that nobody works on the item
      obtain ⟨hops, hrunning, haccept⟩ :=
        hs.lifecycle.retired d (.inr ⟨.tested, by rw [hm]; rfl, by decide⟩)
      apply hsame (fun _ => rfl) (Finset.Subset.refl _) (fun _ he => he)
      intro c hbusy hc
      apply Finset.mem_erase_of_ne_of_mem _ hc
      rintro rfl
      obtain hbusy | hbusy | hbusy := hbusy
      · exact hbusy hops
      · exact hrunning hbusy
      · exact haccept hbusy
  | _ => exact hsame (fun _ => rfl) (Finset.Subset.refl _) (fun _ he => he) fun _ _ he => he

/-- A step leaves a destroyed object alone; numbers are not used
again, as addresses may be. -/
theorem Action.dead (h : s.Dead c) (hs : s.Sound cfg) (ha : Action cfg s l t) : t.Dead c := by
  obtain ⟨hmade, hzero⟩ := h
  obtain ⟨hfront, hpending, hcached, hops, hrunning, haccept, htick, hmanage⟩ :=
    useCount_eq_zero_iff.mp hzero
  have hother : ∀ {d : ConnId} {x : Session}, c ≠ d →
      (Function.update s.conns d x c).ops = [] := by
    intro d x hne
    rwa [Function.update_of_ne hne]
  have hsame : ∀ {d : ConnId} {x : Session}, x.ops = (s.conns d).ops →
      (Function.update s.conns d x c).ops = [] := fun hx => (ops_update hx c).trans hops
  cases ha with
  | acceptError _ =>
      exact ⟨hmade, useCount_eq_zero_iff.mpr ⟨hfront, hpending, hcached, hops, hrunning,
        by rintro ⟨⟩, htick, hmanage⟩⟩
  | acceptTested _ _ =>
      exact ⟨hmade, useCount_eq_zero_iff.mpr ⟨hfront, hpending, hcached, hops, hrunning,
        by rintro ⟨⟩, htick, hmanage⟩⟩
  | @recycle _ d cached _ _ hqueue _ =>
      have hne : c ≠ d := by
        rintro rfl
        exact hcached (hqueue ▸ List.mem_cons_self)
      refine ⟨hmade, useCount_eq_zero_iff.mpr ⟨?_, hpending, ?_, hother hne, hrunning, ?_, htick,
        hmanage⟩⟩
      · exact fun hc => (Finset.mem_insert.mp hc).elim hne hfront
      · exact fun hc => hcached (hqueue ▸ List.mem_cons_of_mem d hc)
      · exact fun hc => hne (Option.some.inj hc).symm
  | create _ _ _ =>
      have hne : c ≠ s.nextConn := Nat.ne_of_lt hmade
      refine ⟨Nat.lt_succ_of_lt hmade, useCount_eq_zero_iff.mpr ⟨?_, hpending, hcached,
        hother hne, hrunning, ?_, htick, hmanage⟩⟩
      · exact fun hc => (Finset.mem_insert.mp hc).elim hne hfront
      · exact fun hc => hne (Option.some.inj hc).symm
  | @start d _ hi _ =>
      have hne : c ≠ d := by
        rintro rfl
        exact haccept (by rw [hi]; rfl)
      exact ⟨hmade, useCount_eq_zero_iff.mpr ⟨hfront, hpending, hcached, hother hne, hrunning,
        fun hc => hne (Option.some.inj hc).symm, htick, hmanage⟩⟩
  | listen _ =>
      exact ⟨hmade, useCount_eq_zero_iff.mpr ⟨hfront, hpending, hcached, hops, hrunning,
        by rintro ⟨⟩, htick, hmanage⟩⟩
  | @io d _ _ _ _ hr =>
      have hne : c ≠ d := by
        rintro rfl
        exact react_ops_ne_nil hr hops
      refine ⟨hmade, useCount_eq_zero_iff.mpr ⟨hfront, hpending, hcached, hother hne, ?_,
        haccept, htick, hmanage⟩⟩
      intro hc
      apply hrunning
      obtain hc | hc := Finset.mem_union.mp hc
      · apply Finset.mem_union_left
        change c ∈ (if _ then insert d s.pushing else s.pushing) at hc
        split at hc
        · exact (Finset.mem_insert.mp hc).resolve_left hne
        · exact hc
      · exact Finset.mem_union_right _ hc
  | @push d hd _ =>
      have hne : c ≠ d := by
        rintro rfl
        exact hrunning (Finset.mem_union_left _ hd)
      exact ⟨hmade, useCount_eq_zero_iff.mpr ⟨hfront,
        fun hc => (Finset.mem_insert.mp hc).elim hne hpending, hcached, hops,
        fun hc => hrunning ((mem_running_push hd c).mp hc), haccept, htick, hmanage⟩⟩
  | notify _ _ =>
      refine ⟨hmade, useCount_eq_zero_iff.mpr ⟨hfront, hpending, hcached, hops, ?_, haccept,
        htick, by rwa [ManagePc.conn_notified]⟩⟩
      exact fun hc => hrunning
        (Finset.union_subset_union (Finset.Subset.refl _) (Finset.erase_subset _ _) hc)
  | tickBegin _ =>
      exact ⟨hmade, useCount_eq_zero_iff.mpr ⟨hfront, hpending, hcached, hops, hrunning, haccept,
        by rintro ⟨⟩, hmanage⟩⟩
  | @tickDone _ b _ _ =>
      refine ⟨hmade, useCount_eq_zero_iff.mpr ⟨hfront, hpending, hcached, hops, hrunning, haccept,
        by rintro ⟨⟩, ?_⟩⟩
      change (if b.notify = true then s.manage.notified else s.manage).conn ≠ some c
      split
      · rwa [ManagePc.conn_notified]
      · exact hmanage
  | tickDead _ _ _ =>
      exact ⟨hmade, useCount_eq_zero_iff.mpr ⟨hfront, hpending, hcached, hops, hrunning, haccept,
        by rintro ⟨⟩, hmanage⟩⟩
  | tickLock _ _ halive =>
      refine ⟨hmade, useCount_eq_zero_iff.mpr ⟨hfront, hpending, hcached, hops, hrunning, haccept,
        ?_, hmanage⟩⟩
      rintro ⟨⟩
      exact halive hzero
  | sawPending ht _ | sawOther ht _ | dropCached ht _ | expire ht _ | keep ht _ =>
      exact ⟨hmade, useCount_eq_zero_iff.mpr ⟨hfront, hpending, hcached, hops, hrunning, haccept,
        fun hc => htick (by rw [ht]; exact hc), hmanage⟩⟩
  | shut ht _ =>
      exact ⟨hmade, useCount_eq_zero_iff.mpr ⟨hfront, hpending, hcached,
        hsame (Session.perform_shutdown_ops _), hrunning, haccept,
        fun hc => htick (by rw [ht]; exact hc), hmanage⟩⟩
  | mark ht =>
      exact ⟨hmade, useCount_eq_zero_iff.mpr ⟨hfront, hpending, hcached,
        hsame rfl, hrunning, haccept,
        fun hc => htick (by rw [ht]; exact hc), hmanage⟩⟩
  | @tickPush _ d _ ht _ =>
      have hne : c ≠ d := by
        rintro rfl
        exact htick (by rw [ht]; rfl)
      exact ⟨hmade, useCount_eq_zero_iff.mpr ⟨hfront,
        fun hc => (Finset.mem_insert.mp hc).elim hne hpending, hcached, hops, hrunning, haccept,
        fun hc => htick (by rw [ht]; exact hc), hmanage⟩⟩
  | release _ | rotate _ _ =>
      exact ⟨hmade, useCount_eq_zero_iff.mpr ⟨hfront, hpending, hcached, hops, hrunning, haccept,
        by rintro ⟨⟩, hmanage⟩⟩
  | pick hm hd =>
      refine ⟨hmade, useCount_eq_zero_iff.mpr ⟨hfront, hpending, hcached, hops, hrunning, haccept,
        htick, ?_⟩⟩
      rintro ⟨⟩
      exact hpending (hs.supervised.pending (by rw [hm]; exact hd))
  | wake _ | timeout _ | wait _ | nothing _ _ | beginPass _ _ | showConns _ | shownConns _
  | absent _ _ | skip _ _ _ | noRoom _ _ =>
      exact ⟨hmade, useCount_eq_zero_iff.mpr ⟨hfront, hpending, hcached, hops, hrunning, haccept,
        htick, by rintro ⟨⟩⟩⟩
  | endPass _ _ =>
      exact ⟨hmade, useCount_eq_zero_iff.mpr ⟨hfront, Finset.notMem_empty c, hcached, hops,
        hrunning, haccept, htick, by rintro ⟨⟩⟩⟩
  | test hm _ _ | count hm | room hm _ =>
      exact ⟨hmade, useCount_eq_zero_iff.mpr ⟨hfront, hpending, hcached, hops, hrunning, haccept,
        htick, fun hc => hmanage (by rw [hm]; exact hc)⟩⟩
  | erase hm =>
      exact ⟨hmade, useCount_eq_zero_iff.mpr ⟨fun hc => hfront (Finset.mem_of_mem_erase hc),
        hpending, hcached, hops, hrunning, haccept, htick,
        fun hc => hmanage (by rw [hm]; exact hc)⟩⟩
  | wash hm _ =>
      exact ⟨hmade, useCount_eq_zero_iff.mpr ⟨hfront, hpending, hcached,
        hsame rfl, hrunning, haccept, htick,
        fun hc => hmanage (by rw [hm]; exact hc)⟩⟩
  | @cache _ d _ hm =>
      refine ⟨hmade, useCount_eq_zero_iff.mpr ⟨hfront, hpending, ?_, hops, hrunning, haccept,
        htick, by rintro ⟨⟩⟩⟩
      intro hc
      obtain hc | hc := List.mem_append.mp hc
      · exact hcached hc
      · exact hmanage (by rw [hm, List.mem_singleton.mp hc]; rfl)
  | _ => exact ⟨hmade, hzero⟩

variable {before after : List (Move Server Label)}

theorem busy_served (hr : Run (step cfg) init before s) : ∀ c, s.Busy c → c ∈ s.frontConns := by
  have hinit : ∀ c, init.Busy c → c ∈ init.frontConns := by
    rintro c (hc | hc | hc)
    · exact absurd rfl hc
    · exact absurd hc (Finset.notMem_empty c)
    · cases hc
  have h := hr.invariant (I := fun s => (∀ c, s.Busy c → c ∈ s.frontConns) ∧ s.Sound cfg)
    ⟨hinit, sound_init⟩ fun s l t hs hstep =>
      ⟨(step_action hstep).busy_served hs.1 hs.2, hs.2.action (step_action hstep)⟩
  exact h.1

theorem dead_of_run (hs : s.Sound cfg) (hr : Run (step cfg) s after t) (hc : s.Dead c) :
    t.Dead c := by
  have h := hr.invariant (I := fun s => s.Dead c ∧ s.Sound cfg) ⟨hc, hs⟩ fun s l t hs hstep =>
    ⟨(step_action hstep).dead hs.1 hs.2, hs.2.action (step_action hstep)⟩
  exact h.1

/-- Operations, handlers and the accept handler keep nothing alive that is not
served. So the containers decide. -/
theorem useCount_ne_zero_iff (hbusy : s.Busy c → c ∈ s.frontConns) :
    s.useCount c ≠ 0 ↔ c ∈ s.frontConns ∨ c ∈ s.cachedConns ∨ c ∈ s.pendingToRemove ∨
      s.tick.conn = some c ∨ s.manage.conn = some c := by
  rw [ne_eq, useCount_eq_zero_iff]
  constructor
  · intro hne
    by_contra hnot
    obtain ⟨hfront, hcached, hpending, htick, hmanage⟩ := by simpa only [not_or] using hnot
    apply hne
    have hidle : ¬ s.Busy c := fun hc => hfront (hbusy hc)
    obtain ⟨hops, hrest⟩ := not_or.mp hidle
    obtain ⟨hrunning, haccept⟩ := not_or.mp hrest
    exact ⟨hfront, hpending, hcached, not_not.mp hops, hrunning, haccept, htick, hmanage⟩
  · rintro h ⟨hfront, hpending, hcached, -, -, -, htick, hmanage⟩
    obtain hc | hc | hc | hc | hc := h
    · exact hfront hc
    · exact hcached hc
    · exact hpending hc
    · exact htick hc
    · exact hmanage hc

/-- No pass is going on, nothing waits for one, and the
tick holds no connection. -/
def Settled (s : Server) : Prop :=
  s.manage.locked = false ∧ s.pendingToRemove = ∅ ∧ s.tick.conn = none

theorem Settled.useCount_ne_zero_iff (h : s.Settled) (hbusy : s.Busy c → c ∈ s.frontConns) :
    s.useCount c ≠ 0 ↔ c ∈ s.frontConns ∪ s.cachedConns.toFinset := by
  obtain ⟨hfree, hpending, htick⟩ := h
  rw [Server.useCount_ne_zero_iff hbusy, hpending, htick, ManagePc.conn_of_unlocked hfree,
    Finset.mem_union, List.mem_toFinset]
  simp

/-- What is served and cached fits into the maximum and the share of the
cache, with rounding up. -/
theorem Accounted.card_le (h : s.Accounted cfg) (hfree : s.manage.locked = false) :
    10 * (s.frontConns ∪ s.cachedConns.toFinset).card < 13 * cfg.maxServe + 10 := by
  have hcount := h.count
  rw [(ManagePc.of_unlocked hfree).1, Nat.add_zero] at hcount
  have hbound := h.bound
  have hlength := h.length
  have hunion := Finset.card_union_le s.frontConns s.cachedConns.toFinset
  have hcached := List.toFinset_card_le s.cachedConns
  omega

/-- Only served connections have operations, handlers or the accept handler
working on them, so the containers, the tick and the pass decide which objects
exist. A destroyed object stays destroyed and no handler of it runs. Whenever
the removals are done, the objects that exist are at most thirteen tenths of
the connections that may be served, and one. -/
theorem objects_owned (hr : Run (step cfg) init before s) (hr' : Run (step cfg) s after t) :
    (∀ c, t.Busy c → c ∈ t.frontConns) ∧
    (∀ c, t.useCount c ≠ 0 ↔ c ∈ t.frontConns ∨ c ∈ t.cachedConns ∨ c ∈ t.pendingToRemove ∨
      t.tick.conn = some c ∨ t.manage.conn = some c) ∧
    (∀ c, s.Dead c → t.Dead c ∧ ∀ e u, step cfg t (.io c e) ≠ .ok u) ∧
    (t.Settled → ∃ living : Finset ConnId, (∀ c, c ∈ living ↔ t.useCount c ≠ 0) ∧
      10 * living.card < 13 * cfg.maxServe + 10) := by
  have hall := hr.append hr'
  have hbusy := busy_served hall
  refine ⟨hbusy, fun c => useCount_ne_zero_iff (hbusy c), ?_, ?_⟩
  · intro c hc
    have hdead := dead_of_run (sound_of_run hr) hr' hc
    obtain ⟨-, -, -, hops, -⟩ := useCount_eq_zero_iff.mp hdead.2
    refine ⟨hdead, fun e u hstep => ?_⟩
    cases step_action hstep with
    | io _ hreact => exact react_ops_ne_nil hreact hops
  · intro hsettled
    refine ⟨t.frontConns ∪ t.cachedConns.toFinset, fun c => ?_, ?_⟩
    · exact (hsettled.useCount_ne_zero_iff (hbusy c)).symm
    · exact (sound_of_run hall).accounted.card_le hsettled.1

def tinyConfig : Config := ⟨2, 60, by decide, by decide⟩

def twoRemoved : List Label :=
  [.accepted .peer, .accept, .accept, .accept, .accepted .peer, .accept, .accept, .accept,
    .manage 0, .io 0 (.complete 0 .other [] (.refusing 0)),
    .io 1 (.complete 0 .other [] (.refusing 0)), .handler 0, .handler 1, .handler 0,
    .handler 1] ++ List.replicate 8 (.manage 0) ++ List.replicate 5 (.manage 1) ++ [.manage 0]

/-- The second object of the two is destroyed; the first one
serves the next client. -/
theorem objects_owned_two : ∃ before s after t, Run (step tinyConfig) init before s ∧
    Run (step tinyConfig) s after t ∧ s.Dead 1 ∧ s.Settled ∧ t.frontConns = {0} ∧
    (∀ c, t.Busy c → c ∈ t.frontConns) ∧
    (∀ c, t.useCount c ≠ 0 ↔ c ∈ t.frontConns ∨ c ∈ t.cachedConns ∨ c ∈ t.pendingToRemove ∨
      t.tick.conn = some c ∨ t.manage.conn = some c) ∧
    (∀ c, s.Dead c → t.Dead c ∧ ∀ e u, step tinyConfig t (.io c e) ≠ .ok u) ∧
    (t.Settled → ∃ living : Finset ConnId, (∀ c, c ∈ living ↔ t.useCount c ≠ 0) ∧
      10 * living.card < 13 * tinyConfig.maxServe + 10) := by
  obtain ⟨before, s, hr, -, hmade, hzero, hfree, hpending, htick, hnext⟩ :=
    run_of_reaches (step tinyConfig) init twoRemoved
      (p := fun s => 1 < s.nextConn ∧ s.useCount 1 = 0 ∧ s.manage.locked = false ∧
        s.pendingToRemove = ∅ ∧ s.tick.conn = none ∧
        Reaches (exec (step tinyConfig) s [.accepted .peer, .accept])
          fun t => t.frontConns = {0})
      (by decide +kernel)
  obtain ⟨after, t, hr', -, hserved⟩ := run_of_reaches _ _ _ hnext
  exact ⟨before, s, after, t, hr, hr', ⟨hmade, hzero⟩, ⟨hfree, hpending, htick⟩, hserved,
    objects_owned hr hr'⟩

end Server

end Ailawd
