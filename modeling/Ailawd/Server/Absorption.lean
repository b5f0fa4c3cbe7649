import Ailawd.Server.Listening

/-!
# When the error status is final

`conn_error` should be left only by recycling the object. The tests of the status in
`do_read_head()` and `do_read_body()` keep to that, but `write_return` calls `start()`, which
sets `conn_working` again, and between a test and the read that follows it the co_worker
thread may set `conn_error`. `conn_error_absorbing_iff` says that these are the only ways back:
a read is answered on a failed connection, or the tick marks a connection whose handler has
passed the last test of the status before a read.
-/

namespace Ailawd

open Transition ByteString HttpProto

/-- The rest of the handler starts a read, whatever becomes of the status
before it does: it sets `conn_working` itself, or tests nothing any more. -/
def Rest.commits : Rest → Bool
  | .write | .start | .armHead | .armBody => true
  | .readHead | .readBody | .writeMore | .fail | .done => false

/-- What one access to the status does to a connection with this status before
it, as far as a later read is concerned. -/
structure Rest.Resumed (stats : ConnectionStats) (rest : Rest) (h : Handling) (rest' : Rest) :
    Prop where
  pending : h.conn.stats = .pending → stats = .pending
  commits : rest'.commits = true →
    h.conn.stats = .working ∨ (rest.commits = true ∧ h.conn.stats = stats)
  dead : rest.commits = false → stats ≠ .working →
    h.conn.stats ≠ .working ∧ ∀ e ∈ h.effects, e.starts = false
  doomed : rest.commits = true →
    rest'.commits = true ∨ h.conn.stats = .working ∨ ∃ e ∈ h.effects, e.starts = true

section Step

variable {env : Env} {c : FrontConn} {h : Handling} {rest rest' : Rest}

private theorem quiet_of_written (hw : Handling.doWrite env ⟨c, []⟩ = .ok h) :
    h.conn.stats = c.stats ∧ ∀ e ∈ h.effects, e.starts = false := by
  obtain ⟨hstats, -, heffects | ⟨offset, len, heffects⟩⟩ := Handling.doWrite_starts hw
  · rw [heffects]
    exact ⟨hstats, fun e he => absurd he List.not_mem_nil⟩
  · rw [heffects]
    exact ⟨hstats, by simp [Effect.starts]⟩

/-- The test lets only a working connection through, and leaves
any other one as it is. -/
private theorem resumed_of_tested (arm : Rest) (hrest : rest.commits = false)
    (ht : Handling.testStats env arm ⟨c, []⟩ = (h, rest')) : rest.Resumed c.stats h rest' := by
  obtain ⟨hs, heq⟩ | ⟨hs, heq⟩ := Handling.testStats_cases env arm ⟨c, []⟩
  · obtain ⟨rfl, rfl⟩ := Prod.mk.inj (heq.symm.trans ht)
    refine ⟨id, fun hdone => (by cases hdone), fun _ _ => ⟨hs, ?_⟩, fun hcommits => ?_⟩
    · exact fun e he => absurd he List.not_mem_nil
    · rw [hrest] at hcommits
      cases hcommits
  · obtain ⟨rfl, rfl⟩ := Prod.mk.inj (heq.symm.trans ht)
    refine ⟨id, fun _ => .inl hs, fun _ hne => absurd hs hne, fun hcommits => ?_⟩
    rw [hrest] at hcommits
    cases hcommits

private theorem resumed_of_armed {e : Effect} (hrest : rest.commits = true)
    (he : e.starts = true) (hr : (⟨c, []⟩ : Handling).withSocket e = .ok h) :
    rest.Resumed c.stats h .done := by
  obtain ⟨-, rfl⟩ := Handling.withSocket_eq_ok hr
  refine ⟨id, fun hdone => (by cases hdone), fun hcommits => ?_,
    fun _ => .inr (.inr ⟨e, ?_, he⟩)⟩
  · rw [hrest] at hcommits
    cases hcommits
  · exact List.mem_singleton_self e

theorem Rest.step_resumed (hs : rest.step env ⟨c, []⟩ = .ok (h, rest')) :
    rest.Resumed c.stats h rest' := by
  cases rest with
  | write =>
      obtain ⟨g, hg, heq⟩ := map_eq_ok hs
      obtain ⟨rfl, rfl⟩ := Prod.mk.inj heq
      obtain ⟨hstats, -⟩ := quiet_of_written hg
      exact ⟨fun hp => hstats.symm.trans hp, fun _ => .inr ⟨rfl, hstats⟩,
        fun hcommits => (by cases hcommits), fun _ => .inl rfl⟩
  | start =>
      obtain ⟨rfl, rfl⟩ := Prod.mk.inj (Except.ok.inj hs)
      exact ⟨fun hp => (by cases hp), fun _ => .inl rfl, fun hcommits => (by cases hcommits),
        fun _ => .inr (.inl rfl)⟩
  | readHead => exact resumed_of_tested .armHead rfl (Except.ok.inj hs)
  | readBody => exact resumed_of_tested .armBody rfl (Except.ok.inj hs)
  | armHead =>
      obtain ⟨g, hg, heq⟩ := map_eq_ok hs
      obtain ⟨rfl, rfl⟩ := Prod.mk.inj heq
      exact resumed_of_armed rfl rfl hg
  | armBody =>
      obtain ⟨g, hg, heq⟩ := map_eq_ok hs
      obtain ⟨rfl, rfl⟩ := Prod.mk.inj heq
      exact resumed_of_armed rfl rfl hg
  | writeMore =>
      obtain ⟨g, hg, heq⟩ := map_eq_ok hs
      obtain ⟨rfl, rfl⟩ := Prod.mk.inj heq
      obtain ⟨hstats, hquiet⟩ := quiet_of_written hg
      refine ⟨fun hp => hstats.symm.trans hp, fun hdone => (by cases hdone),
        fun _ hne => ⟨?_, hquiet⟩, fun hcommits => ?_⟩
      · rwa [hstats]
      · cases hcommits
  | fail =>
      obtain ⟨rfl, rfl⟩ := Prod.mk.inj (Except.ok.inj hs)
      refine ⟨fun hp => (by cases hp), fun hdone => (by cases hdone), fun _ _ => ⟨?_, ?_⟩,
        fun hcommits => ?_⟩
      · rintro ⟨⟩
      · simp [Handling.notifyConnError, Effect.starts]
      · cases hcommits
  | done =>
      obtain ⟨rfl, rfl⟩ := Prod.mk.inj (Except.ok.inj hs)
      refine ⟨id, fun hdone => (by cases hdone), fun _ hne => ⟨hne, ?_⟩, fun hcommits => ?_⟩
      · exact fun e he => absurd he List.not_mem_nil
      · cases hcommits

/-- A handler that has just been entered is committed to a read only in
`write_return`; the other ways lead to a test, or to the end. -/
theorem Rest.eq_write_of_entered {kind : OpKind} (hafter : rest ∈ kind.after)
    (hcommits : rest.commits = true) : rest = .write := by
  cases kind <;> cases rest <;> first
    | rfl
    | exact absurd hcommits (by decide)
    | exact absurd hafter (by simp [OpKind.after, Rest.afterRead, Rest.afterWrite])

end Step

theorem Server.Action.nextConn_le {cfg : Config} {s t : Server} {l : Label}
    (ha : Action cfg s l t) : s.nextConn ≤ t.nextConn := by
  cases ha <;> first | exact Nat.le_refl _ | exact Nat.le_succ _

namespace Threads

open Server (smallConfig)

variable {cfg : Config} {s t u : Threads} {c : ConnId} {turn : Turn}
variable {moves : List (Move Threads Turn)}

/-- A step outside the handlers, as one connection sees it: the tick may mark
it, and it is reset only where nobody uses it. -/
inductive Touched (s t : Server) (l : Label) (c : ConnId) : Prop where
  | kept : (t.conns c = s.conns c ∨ t.conns c = (s.conns c).perform .shutdown) →
      (t.accept = .inserted c ↔ s.accept = .inserted c) → Touched s t l c
  | marked {n : ConnId} {b : TickBatch} : l = .tick n → s.tick = .exam c .shut b →
      t.conns c = { s.conns c with conn := { (s.conns c).conn with stats := .error } } →
      (t.accept = .inserted c ↔ s.accept = .inserted c) → Touched s t l c
  -- nothing but a container refers to it, or it is new
  | reset : (s.conns c).ops = [] → s.accept ≠ .inserted c →
      (t.accept = .inserted c → ∀ d, s.accept ≠ .inserted d) → (t.conns c).conn.stats ≠ .working →
      (t.conns c).ops = [] → (c < s.nextConn → (t.conns c).trace = (s.conns c).trace) →
      Touched s t l c

/-- The object that `accept_handler` puts into the containers has nobody else
that uses it, and the others stay as they are. -/
theorem touched_of_insert {s t : Server} {l : Label} {d : ConnId} {x : Session}
    (hconns : t.conns = Function.update s.conns d x) (hinserted : t.accept = .inserted d)
    (hold : ∀ e, s.accept ≠ .inserted e) (hops : (s.conns d).ops = [])
    (hstats : x.conn.stats ≠ .working) (hnone : x.ops = [])
    (htrace : d < s.nextConn → x.trace = (s.conns d).trace) (c : ConnId) : Touched s t l c := by
  by_cases hd : c = d
  · subst hd
    have hx : t.conns c = x := by rw [hconns, Function.update_self]
    exact .reset hops (hold c) (fun _ => hold) (hx ▸ hstats) (hx ▸ hnone) (hx ▸ htrace)
  · refine .kept (.inl ?_) (iff_of_false ?_ (hold c))
    · rw [hconns, Function.update_of_ne hd]
    · rw [hinserted]
      rintro ⟨⟩
      exact hd rfl

theorem Sound.touched {t : Server} {l : Label} (h : s.Sound cfg)
    (hl : s.server.unsplit l = true) (ha : Server.Action cfg s.server l t) (c : ConnId) :
    Touched s.server t l c := by
  have hsame : t.conns c = s.server.conns c → t.accept = s.server.accept →
      Touched s.server t l c := fun hconns haccept => .kept (.inl hconns) (by rw [haccept])
  have hmoved : t.conns c = s.server.conns c → (∀ d, s.server.accept ≠ .inserted d) →
      (∀ d, t.accept ≠ .inserted d) → Touched s.server t l c := fun hconns hold hnew =>
    .kept (.inl hconns) (iff_of_false (hnew c) (hold c))
  cases ha with
  | acceptError ht | acceptTested ht _ =>
      refine hmoved rfl (fun d hd => ?_) fun d hd => by cases hd
      rw [ht] at hd
      cases hd
  | @recycle sock d cached ht _ hcached _ =>
      have hold : ∀ e, s.server.accept ≠ .inserted e := fun e he => by rw [ht] at he; cases he
      obtain ⟨hops, -, haccept⟩ := h.listening.retired d (.inl (hcached ▸ List.mem_cons_self))
      have hidle := h.not_working hops haccept
      apply touched_of_insert (d := d) (x := s.server.recycled d sock) rfl rfl hold hops
      · simpa [Server.recycled, FrontConn.connResetNetwork]
      · simpa [Server.recycled]
      · simp [Server.recycled]
  | @create sock ht _ _ =>
      have hold : ∀ e, s.server.accept ≠ .inserted e := fun e he => by rw [ht] at he; cases he
      have hops : (s.server.conns s.server.nextConn).ops = [] :=
        by_contra fun hne => absurd (h.known.made _ (.inl hne)) (Nat.lt_irrefl _)
      apply touched_of_insert (d := s.server.nextConn) (x := s.server.fresh sock) rfl rfl hold hops
      · simp [Server.fresh, FrontConn.make]
      · simp [Server.fresh, FrontConn.make]
        rfl
      · exact fun hlt => absurd hlt (Nat.lt_irrefl _)
  | start hi _ =>
      rw [Server.unsplit, hi] at hl
      cases hl
  | listen hi =>
      refine hmoved rfl (fun d hd => ?_) fun d hd => by cases hd
      rw [hi] at hd
      cases hd
  | io _ _ => cases hl
  | @shut _ d _ _ _ =>
      by_cases hd : c = d
      · subst hd
        exact .kept (.inr (by simp [Server.setConn])) Iff.rfl
      · exact hsame (by simp [Server.setConn, Function.update_of_ne hd]) rfl
  | @mark _ d _ ht =>
      by_cases hd : c = d
      · subst hd
        exact .marked rfl ht (by simp [Server.setConn]) Iff.rfl
      · exact hsame (by simp [Server.setConn, Function.update_of_ne hd]) rfl
  | @wash _ d todo conn hm hw =>
      by_cases hd : c = d
      · subst hd
        obtain ⟨hops, -, haccept⟩ :=
          h.listening.retired c (.inr ⟨.room, by rw [hm]; rfl, by decide⟩)
        simp only [FrontConn.connWashWhite] at hw
        split at hw
        · cases hw
        · obtain rfl := Except.ok.inj hw
          have hnot : s.server.accept ≠ .inserted c := fun hi => haccept (by rw [hi]; rfl)
          refine .reset hops hnot (fun hi => absurd hi hnot) ?_ ?_ fun _ => ?_
          · simp [Server.setConn]
          · simpa [Server.setConn]
          · simp [Server.setConn]
      · exact hsame (by simp [Server.setConn, Function.update_of_ne hd]) rfl
  | _ => exact hsame rfl rfl

/-- A pending connection has no operations, and the accept handler is inside
`start()` only for a connection that it has put into the containers. -/
structure Settled (s : Threads) : Prop where
  pending : ∀ c, (s.server.conns c).conn.stats = .pending → (s.server.conns c).ops = []
  starting : s.starting ≠ .begins →
    ∃ c, s.server.accept = .inserted c ∧ (s.server.conns c).conn.stats ≠ .pending

theorem Settled.update {x : Session} {running : ConnId → Option (Env × Rest)}
    {pushing : Finset ConnId} (h : s.Settled) (hne : (s.server.conns c).ops ≠ [])
    (hinserted : s.server.accept ≠ .inserted c) (hx : x.conn.stats ≠ .pending) :
    Settled { s with
      server := { s.server.setConn c x with pushing := pushing }, running := running } := by
  refine ⟨fun d hd => ?_, fun hstarting => ?_⟩
  · by_cases hdc : d = c
    · subst hdc
      exact absurd (by simpa [Server.setConn] using hd) hx
    · simp only [Server.setConn, Function.update_of_ne hdc] at hd ⊢
      exact h.pending d hd
  · obtain ⟨d, hd, hstats⟩ := h.starting hstarting
    have hdc : d ≠ c := by
      rintro rfl
      exact hinserted hd
    refine ⟨d, hd, ?_⟩
    simpa [Server.setConn, Function.update_of_ne hdc] using hstats

theorem Settled.other {l : Label} (h : s.Settled) (hsound : s.Sound cfg)
    (hs : s.step cfg (.other l) = .ok t) : t.Settled := by
  obtain ⟨hl, server, ha, rfl⟩ := otherStep_eq_ok hs
  have htouched := hsound.touched hl ha
  refine ⟨fun c hp => ?_, fun hstarting => ?_⟩
  · cases htouched c with
    | kept hconns _ =>
        obtain hconns | hconns := hconns
        · rw [hconns] at hp ⊢
          exact h.pending c hp
        · rw [hconns, Session.perform_conn] at hp
          rw [hconns, Session.perform_shutdown_ops]
          exact h.pending c hp
    | marked _ _ hconns _ =>
        rw [hconns] at hp
        cases hp
    | reset _ _ _ _ hops _ => exact hops
  · obtain ⟨c, hi, hstats⟩ := h.starting hstarting
    refine ⟨c, ?_⟩
    cases htouched c with
    | kept hconns haccept =>
        refine ⟨haccept.mpr hi, ?_⟩
        obtain hconns | hconns := hconns
        · rwa [hconns]
        · rwa [hconns, Session.perform_conn]
    | marked _ _ hconns haccept =>
        refine ⟨haccept.mpr hi, ?_⟩
        rw [hconns]
        rintro ⟨⟩
    | reset _ hnew _ _ _ _ => exact absurd hi hnew

/-- The first turn of `start()` sets `conn_working`; in the
later ones nobody sets it back to `conn_pending`. -/
theorem Settled.start (h : s.Settled) (hs : s.startStep = .ok t) : t.Settled := by
  obtain ⟨c, g, rest, hi, hg, x, hx, hcases⟩ := startStep_cases hs
  have hconn : x.conn = g.conn := by rw [hx, Session.performAll_conn]
  have hpending : x.conn.stats ≠ .pending → ∀ d,
      ((s.server.setConn c x).conns d).conn.stats = .pending →
      ((s.server.setConn c x).conns d).ops = [] := fun hne d hd => by
    by_cases hdc : d = c
    · subst hdc
      exact absurd (by simpa [Server.setConn] using hd) hne
    · simp only [Server.setConn, Function.update_of_ne hdc] at hd ⊢
      exact h.pending d hd
  obtain ⟨-, hstats, next, -, -, rfl⟩ | ⟨-, hlate, rfl⟩ := hcases
  · have hne : x.conn.stats ≠ .pending := by
      rw [hconn, hstats]
      rintro ⟨⟩
    refine ⟨hpending hne, fun _ => ⟨c, hi, ?_⟩⟩
    simpa [Server.setConn] using hne
  · refine ⟨hpending ?_, fun hbegins => absurd rfl hbegins⟩
    obtain ⟨d, hd, hne⟩ := h.starting hlate
    obtain rfl := AcceptPc.inserted.inj (hi.symm.trans hd)
    rw [hconn]
    exact fun hp => hne ((Rest.step_resumed hg).pending hp)

theorem Settled.step (h : s.Settled) (hsound : s.Sound cfg) (hs : s.step cfg turn = .ok t) :
    t.Settled := by
  have hnot : ∀ {c}, (s.server.conns c).ops ≠ [] → s.server.accept ≠ .inserted c ∧
      (s.server.conns c).conn.stats ≠ .pending := fun {c} hne =>
    ⟨fun hi => hne (hsound.listening.inserted c hi), fun hp => hne (h.pending c hp)⟩
  cases turn with
  | other l => exact h.other hsound hs
  | enter c i ec data env =>
      obtain ⟨-, op, g, rest, hop, he, rfl⟩ := enterStep_eq_ok hs
      have hne : (s.server.conns c).ops ≠ [] := fun hnil => by simp [hnil] at hop
      obtain ⟨hinserted, hstats⟩ := hnot hne
      obtain ⟨hsame, -, -⟩ := OpKind.enter_entered he
      refine h.update hne hinserted ?_
      rwa [Session.performAll_conn, hsame]
  | resume c =>
      have hbusy : ∀ {p}, s.running c = some p → (s.server.conns c).ops ≠ [] := fun hp =>
        (hsound.listening.listens c).busy (hp ▸ Option.some_ne_none _)
      obtain ⟨env, hr, rfl⟩ | ⟨env, rest, g, rest', hr, hg, x, rfl, hcases⟩ := resumeStep_cases hs
      · obtain ⟨hinserted, hstats⟩ := hnot (hbusy hr)
        exact h.update (hbusy hr) hinserted hstats
      · obtain ⟨hinserted, hstats⟩ := hnot (hbusy hr)
        have hstats' : (Session.performAll { s.server.conns c with conn := g.conn }
            g.effects).conn.stats ≠ .pending := by
          rw [Session.performAll_conn]
          exact fun hp => hstats ((Rest.step_resumed hg).pending hp)
        obtain ⟨-, rfl⟩ | rfl := hcases
        · exact h.update (hbusy hr) hinserted hstats'
        · exact h.update (hbusy hr) hinserted hstats'
  | send c i n =>
      obtain ⟨-, x, effects, hr, rfl⟩ := sendStep_eq_ok hs
      have hne := react_ops_ne_nil hr
      obtain ⟨hinserted, hstats⟩ := hnot hne
      obtain ⟨-, w, sock, -, -, -, rfl⟩ := react_send hr
      exact h.update hne hinserted hstats
  | start => exact h.start hs

/-- A handler of the connection, or `start()` in the accept handler, has passed
the last test of the status before it starts a read. -/
def Committed (s : Threads) (c : ConnId) : Prop :=
  (∃ r ∈ s.running c, r.2.commits = true) ∨ (s.server.accept = .inserted c ∧ s.starting = .arms)

instance : Decidable (s.Committed c) :=
  inferInstanceAs (Decidable ((∃ r ∈ s.running c, r.2.commits = true) ∨ _))

/-- `accept_handler` starts the connection, on the socket it was made or reset
with. This is the only legitimate way back. -/
def Restarts (m : Move Threads Turn) (c : ConnId) : Prop :=
  m.label = .start ∧ m.pre.server.accept = .inserted c ∧ m.pre.starting = .begins

/-- After this turn a connection has the status `conn_error` and is about to
start a read: the handler of a read will answer it, or the tick marks a
connection that is committed to a read. -/
def Revives (s : Threads) : Turn → Prop
  | .enter c i ec data _ => (s.server.conns c).conn.stats = .error ∧
      ∃ op ∈ (s.server.conns c).ops[i]?, op.kind.exit (s.server.conns c).conn ec data = .answer
  | .other (.tick _) => match s.server.tick with
    | .exam c .shut _ => s.Committed c
    | _ => False
  | _ => False

instance : Decidable (s.Revives turn) := by
  unfold Revives
  split
  · infer_instance
  · split <;> infer_instance
  · infer_instance

/-- What a turn does to one connection, and to the handler that runs for it.
The lemmas about runs go through these cases. -/
inductive Turned (s : Threads) (turn : Turn) (t : Threads) (c : ConnId) : Prop where
  | kept : (t.Committed c ↔ s.Committed c) →
      (t.server.conns c).conn.stats = (s.server.conns c).conn.stats →
      (∃ since, (t.server.conns c).trace = (s.server.conns c).trace ++ since ∧
        ∀ e ∈ since, e.starts = false) → Turned s turn t c
  | marked : (s.Committed c → s.Revives turn) → (t.Committed c ↔ s.Committed c) →
      (t.server.conns c).conn.stats = .error →
      (t.server.conns c).trace = (s.server.conns c).trace → Turned s turn t c
  | reset : ¬ s.Committed c → ¬ t.Committed c → (t.server.conns c).conn.stats ≠ .working →
      (c < s.server.nextConn → (t.server.conns c).trace = (s.server.conns c).trace) →
      Turned s turn t c
  | entered : ¬ s.Committed c →
      (t.Committed c → (s.server.conns c).conn.stats ≠ .working → s.Revives turn) →
      (t.server.conns c).conn.stats = (s.server.conns c).conn.stats →
      (∃ since, (t.server.conns c).trace = (s.server.conns c).trace ++ since ∧
        ∀ e ∈ since, e.starts = false) → Turned s turn t c
  | resumed {rest rest' : Rest} {h : Handling} : (s.Committed c ↔ rest.commits = true) →
      (t.Committed c ↔ rest'.commits = true) →
      rest.Resumed (s.server.conns c).conn.stats h rest' →
      (t.server.conns c).conn.stats = h.conn.stats →
      (t.server.conns c).trace = (s.server.conns c).trace ++ h.effects → Turned s turn t c
  | restarted : Restarts ⟨s, turn, t⟩ c → ¬ t.Committed c →
      (t.server.conns c).conn.stats = .working → Turned s turn t c

theorem turned_of_eq (hrunning : t.running c = s.running c)
    (haccept : t.server.accept = s.server.accept) (hstarting : t.starting = s.starting)
    (hconns : t.server.conns c = s.server.conns c) :
    Turned s turn t c := by
  refine .kept ?_ (by rw [hconns]) ⟨[], by rw [hconns, List.append_nil], by simp⟩
  simp only [Committed, hrunning, haccept, hstarting]

theorem Sound.turned_other {l : Label} (h : s.Sound cfg) (hset : s.Settled)
    (hs : s.step cfg (.other l) = .ok t) (c : ConnId) : Turned s (.other l) t c := by
  obtain ⟨hl, server, ha, rfl⟩ := otherStep_eq_ok hs
  cases h.touched hl ha c with
  | kept hconns haccept =>
      refine .kept (by simp only [Committed, haccept]) ?_ ?_
      · obtain hconns | hconns := hconns
        · rw [hconns]
        · rw [hconns, Session.perform_conn]
      · obtain hconns | hconns := hconns
        · exact ⟨[], by rw [hconns, List.append_nil], by simp⟩
        · exact ⟨[.shutdown], by rw [hconns, Session.perform_trace], by simp [Effect.starts]⟩
  | @marked n b hlabel htick hconns haccept =>
      subst hlabel
      refine .marked (fun hcommitted => ?_) (by simp only [Committed, haccept]) ?_ ?_
      · simp only [Revives, htick]
        exact hcommitted
      · rw [hconns]
      · rw [hconns]
  | reset hops hold hnew hstats _ htrace =>
      have hnone := (h.listening.listens c).running_none hops
      refine .reset ?_ ?_ hstats htrace
      · rintro (⟨r, hr, -⟩ | ⟨hi, -⟩)
        · rw [hnone] at hr
          cases hr
        · exact hold hi
      · rintro (⟨r, hr, -⟩ | ⟨hi, harms⟩)
        · rw [show s.running c = none from hnone] at hr
          cases hr
        · have hne : s.starting ≠ .begins := by
            intro hb
            rw [show s.starting = .arms from harms] at hb
            cases hb
          obtain ⟨d, hd, -⟩ := hset.starting hne
          exact hnew hi d hd

theorem committed_of_running {r : Env × Rest} (hi : s.server.accept ≠ .inserted c)
    (hr : s.running c = some r) : s.Committed c ↔ r.2.commits = true := by
  constructor
  · rintro (⟨r', hr', hcommits⟩ | ⟨hi', -⟩)
    · obtain rfl := Option.some.inj (hr.symm.trans hr')
      exact hcommits
    · exact absurd hi' hi
  · exact fun hcommits => .inl ⟨r, hr, hcommits⟩

theorem not_committed (hi : s.server.accept ≠ .inserted c) (hr : s.running c = none) :
    ¬ s.Committed c := by
  rintro (⟨r, hr', -⟩ | ⟨hi', -⟩)
  · rw [hr] at hr'
    cases hr'
  · exact hi hi'

theorem Sound.turned_enter {i : Nat} {ec : ErrorCode} {data : ByteString} {env : Env}
    (h : s.Sound cfg) (hset : s.Settled) (hs : s.enterStep c i ec data env = .ok t) (d : ConnId) :
    Turned s (.enter c i ec data env) t d := by
  obtain ⟨hnone, op, g, rest, hop, he, rfl⟩ := enterStep_eq_ok hs
  by_cases hd : d = c
  · subst hd
    have hne : (s.server.conns d).ops ≠ [] := fun hnil => by simp [hnil] at hop
    have hinserted : s.server.accept ≠ .inserted d := fun hi =>
      hne (h.listening.inserted d hi)
    obtain ⟨hstats, hquiet, hafter⟩ := OpKind.enter_entered he
    refine .entered (not_committed hinserted hnone) (fun hcommitted hdead => ?_) ?_ ?_
    · have hcommits : rest.commits = true := (committed_of_running (r := (env, rest))
        (by exact hinserted) (by simp [setRunning])).mp hcommitted
      have hwrite := Rest.eq_write_of_entered hafter hcommits
      have herror : (s.server.conns d).conn.stats = .error := by
        cases hcases : (s.server.conns d).conn.stats with
        | working => exact absurd hcases hdead
        | pending => exact absurd (hset.pending d hcases) hne
        | error => rfl
      exact ⟨herror, op, hop, (OpKind.enter_exit he).mp hwrite⟩
    · simp [setConn, setRunning, Server.setConn, hstats]
    · exact ⟨g.effects, by simp [setConn, setRunning, Server.setConn], hquiet⟩
  · exact turned_of_eq (by simp [setRunning, setConn, Function.update_of_ne hd]) rfl rfl
      (by simp [setConn, setRunning, Server.setConn, Function.update_of_ne hd])

theorem Sound.turned_resume (h : s.Sound cfg) (hs : s.resumeStep c = .ok t) (d : ConnId) :
    Turned s (.resume c) t d := by
  have hinserted : ∀ {p}, s.running c = some p → s.server.accept ≠ .inserted c := fun hp hi =>
    (h.listening.listens c).busy (hp ▸ Option.some_ne_none _) (h.listening.inserted c hi)
  obtain ⟨env, hr, rfl⟩ | ⟨env, rest, g, rest', hr, hg, x, rfl, hcases⟩ := resumeStep_cases hs
  · by_cases hd : d = c
    · subst hd
      refine .kept (iff_of_false ?_ ?_) ?_ ⟨[], ?_, by simp⟩
      · exact not_committed (hinserted hr) (by simp [setRunning])
      · rw [committed_of_running (hinserted hr) hr]
        rintro ⟨⟩
      · simp [setConn, setRunning, Server.setConn]
      · simp [setConn, setRunning, Server.setConn]
    · exact turned_of_eq (by simp [setRunning, setConn, Function.update_of_ne hd]) rfl rfl
        (by simp [setConn, setRunning, Server.setConn, Function.update_of_ne hd])
  · by_cases hd : d = c
    · subst hd
      have hbefore := committed_of_running (hinserted hr) hr
      obtain ⟨hpush, rfl⟩ | rfl := hcases
      · have hlistens := h.listening.listens d
        rw [hr, AcceptPc.rest_of_ne (hinserted hr)] at hlistens
        obtain rfl := (Rest.step_stepped hg hlistens.reads).released hpush
        refine @Turned.resumed _ _ _ _ _ .done _ hbefore (iff_of_false ?_ (by decide))
          (Rest.step_resumed hg) ?_ ?_
        · exact not_committed (hinserted hr) (by simp [setRunning])
        · simp [setRunning, Server.setConn]
        · simp [setRunning, Server.setConn]
      · refine @Turned.resumed _ _ _ _ _ rest' _ hbefore ?_ (Rest.step_resumed hg) ?_ ?_
        · exact committed_of_running (r := (env, rest')) (hinserted hr) (by simp [setRunning])
        · simp [setRunning, setConn, Server.setConn]
        · simp [setRunning, setConn, Server.setConn]
    · obtain ⟨-, rfl⟩ | rfl := hcases <;>
        exact turned_of_eq (by simp [setRunning, setConn, Function.update_of_ne hd]) rfl rfl
          (by simp [setConn, setRunning, Server.setConn, Function.update_of_ne hd])

theorem turned_send {i n : Nat} (hs : s.sendStep c i n = .ok t) (d : ConnId) :
    Turned s (.send c i n) t d := by
  obtain ⟨-, x, effects, hr, rfl⟩ := sendStep_eq_ok hs
  obtain ⟨-, w, sock, -, -, -, rfl⟩ := react_send hr
  by_cases hd : d = c
  · subst hd
    refine .kept Iff.rfl ?_ ⟨[], ?_, by simp⟩
    · simp [setConn, Server.setConn]
    · simp [setConn, Server.setConn]
  · exact turned_of_eq rfl rfl rfl (by simp [setConn, Server.setConn, Function.update_of_ne hd])

theorem Sound.turned_start (h : s.Sound cfg) (hs : s.startStep = .ok t) (d : ConnId) :
    Turned s .start t d := by
  obtain ⟨c, g, rest, hi, hg, x, rfl, hcases⟩ := startStep_cases hs
  have hnone := (h.listening.listens c).running_none (h.listening.inserted c hi)
  by_cases hd : d = c
  · subst hd
    have hnot : ∀ {u : Threads}, u.running = s.running → u.starting ≠ .arms →
        ¬ u.Committed d := by
      rintro u hrunning harms (⟨r, hr, -⟩ | ⟨-, hu⟩)
      · rw [hrunning, hnone] at hr
        cases hr
      · exact harms hu
    by_cases hbegins : s.starting = .begins
    · rw [hbegins] at hg
      obtain ⟨rfl, rfl⟩ := Prod.mk.inj (Except.ok.inj hg)
      obtain ⟨-, -, next, -, hnext, rfl⟩ | ⟨hdone, -, -⟩ := hcases
      · refine .restarted ⟨rfl, hi, hbegins⟩ (hnot rfl ?_) ?_
        · rintro rfl
          cases hnext
        · simp [Server.setConn, Handling.setStats]
      · cases hdone
    · have hbefore : s.Committed d ↔ s.starting.rest.commits = true := by
        cases hstarting : s.starting with
        | begins => exact absurd hstarting hbegins
        | tests =>
            refine iff_of_false (hnot rfl ?_) (by decide)
            rw [hstarting]
            decide
        | arms => exact iff_of_true (.inr ⟨hi, hstarting⟩) rfl
      obtain ⟨-, -, next, hnext, rfl, rfl⟩ | ⟨rfl, -, rfl⟩ := hcases
      · refine .resumed hbefore ?_ (Rest.step_resumed hg) ?_ ?_
        · obtain rfl | rfl := hnext
          · exact iff_of_false (hnot rfl (by rintro ⟨⟩)) (by decide)
          · exact iff_of_true (.inr ⟨hi, rfl⟩) rfl
        · simp [Server.setConn]
        · simp [Server.setConn]
      · refine .resumed hbefore (iff_of_false (hnot rfl ?_) (by decide)) (Rest.step_resumed hg)
          ?_ ?_
        · rintro ⟨⟩
        · simp [Server.setConn]
        · simp [Server.setConn]
  · have hother : s.server.accept ≠ .inserted d := by
      rw [hi]
      rintro ⟨⟩
      exact hd rfl
    have hconns : ∀ x, (s.server.setConn c x).conns d = s.server.conns d := fun x => by
      simp [Server.setConn, Function.update_of_ne hd]
    obtain ⟨-, -, next, -, -, rfl⟩ | ⟨-, -, rfl⟩ := hcases
    · refine .kept ?_ (by rw [hconns]) ⟨[], by rw [hconns, List.append_nil], by simp⟩
      exact or_congr Iff.rfl (iff_of_false (fun h => hother h.1) fun h => hother h.1)
    · refine .kept ?_ (congrArg (fun x => x.conn.stats) (hconns _)) ⟨[], ?_, by simp⟩
      · exact or_congr Iff.rfl (iff_of_false (fun h => by cases h.1) fun h => hother h.1)
      · rw [List.append_nil]
        exact congrArg Session.trace (hconns _)

theorem Sound.turned (h : s.Sound cfg) (hset : s.Settled) (hs : s.step cfg turn = .ok t)
    (c : ConnId) : Turned s turn t c := by
  cases turn with
  | other l => exact h.turned_other hset hs c
  | enter d i ec data env => exact h.turned_enter hset hs c
  | resume d => exact h.turned_resume hs c
  | send d i n => exact turned_send hs c
  | start => exact h.turned_start hs c

/-- Between two states a connection is not working and no read is started on
it. The states in between are covered by their own instances. -/
structure StaysDead (c : ConnId) (s t : Threads) : Prop where
  stats : (t.server.conns c).conn.stats ≠ .working
  reads : ∃ since, (t.server.conns c).trace = (s.server.conns c).trace ++ since ∧
    ∀ e ∈ since, e.starts = false

/-- From every state in which the status is `conn_error`, up to a restart,
whatever turns are taken. -/
def Absorbing (cfg : Config) (moves : List (Move Threads Turn)) : Prop :=
  ∀ front mid back u t c, moves = front ++ mid ++ back → Run (step cfg) init front u →
    Run (step cfg) u mid t → (u.server.conns c).conn.stats = .error →
      (∀ m ∈ mid, ¬ Restarts m c) → StaysDead c u t

theorem StaysDead.trans {r : Threads} (h : StaysDead c r s) (h' : StaysDead c s t) :
    StaysDead c r t := by
  obtain ⟨since, htrace, hquiet⟩ := h.reads
  obtain ⟨since', htrace', hquiet'⟩ := h'.reads
  refine ⟨h'.stats, since ++ since', ?_, List.forall_mem_append.mpr ⟨hquiet, hquiet'⟩⟩
  rw [htrace', htrace, List.append_assoc]

theorem StaysDead.of_trace (hstats : (t.server.conns c).conn.stats ≠ .working)
    (htrace : (t.server.conns c).trace = (s.server.conns c).trace) : StaysDead c s t :=
  ⟨hstats, [], by rw [htrace, List.append_nil], by simp⟩

/-- A turn that does not revive keeps the connections that do not work from
committing. This is the invariant's step. -/
theorem Turned.not_committed (h : Turned s turn t c) (hturn : ¬ s.Revives turn)
    (hs : (s.server.conns c).conn.stats ≠ .working → ¬ s.Committed c) :
    (t.server.conns c).conn.stats ≠ .working → ¬ t.Committed c := by
  cases h with
  | kept hiff hstats _ =>
      rw [hiff, hstats]
      exact hs
  | marked hmark hiff _ _ => exact fun _ hc => hturn (hmark (hiff.mp hc))
  | reset _ hnot _ _ => exact fun _ => hnot
  | entered _ hanswer hstats _ => exact fun hdead hc => hturn (hanswer hc (hstats ▸ hdead))
  | resumed hbefore hafter hresumed hstats _ =>
      intro hdead hc
      obtain hworking | ⟨hcommits, hsame⟩ := hresumed.commits (hafter.mp hc)
      · exact hdead (hstats.trans hworking)
      · exact hs (hsame ▸ hstats ▸ hdead) (hbefore.mpr hcommits)
  | restarted _ hnot _ => exact fun _ => hnot

/-- No turn but a restart brings back a connection that is not committed, even
one that marks or resets it. -/
theorem Turned.staysDead (h : Turned s turn t c) (hc : c < s.server.nextConn)
    (hdead : (s.server.conns c).conn.stats ≠ .working) (hfree : ¬ s.Committed c)
    (hstart : ¬ Restarts ⟨s, turn, t⟩ c) : StaysDead c s t := by
  cases h with
  | kept _ hstats hreads => exact ⟨hstats ▸ hdead, hreads⟩
  | marked _ _ hstats htrace => exact .of_trace (by rw [hstats]; rintro ⟨⟩) htrace
  | reset _ _ hstats htrace => exact .of_trace hstats (htrace hc)
  | entered _ _ hstats hreads => exact ⟨hstats ▸ hdead, hreads⟩
  | resumed hbefore _ hresumed hstats htrace =>
      have hrest := Bool.eq_false_iff.mpr fun hcommits => hfree (hbefore.mpr hcommits)
      obtain ⟨hworking, hquiet⟩ := hresumed.dead hrest hdead
      exact ⟨hstats ▸ hworking, _, htrace, hquiet⟩
  | restarted hrestarts _ _ => exact absurd hrestarts hstart

/-- A committed connection stays so until its handler sets `conn_working` or
starts the read; no other thread can hold it back. -/
theorem Turned.committed (h : Turned s turn t c) (hs : s.Committed c) (hdead : StaysDead c s t) :
    t.Committed c := by
  cases h with
  | kept hiff _ _ => exact hiff.mpr hs
  | marked _ hiff _ _ => exact hiff.mpr hs
  | reset hnot _ _ _ => exact absurd hs hnot
  | entered hnot _ _ _ => exact absurd hs hnot
  | resumed hbefore hafter hresumed hstats htrace =>
      obtain hcommits | hworking | ⟨e, he, hstarts⟩ := hresumed.doomed (hbefore.mp hs)
      · exact hafter.mpr hcommits
      · exact absurd (hstats.trans hworking) hdead.stats
      · obtain ⟨since, hsince, hquiet⟩ := hdead.reads
        obtain rfl := List.append_cancel_left (htrace.symm.trans hsince)
        rw [hquiet e he] at hstarts
        cases hstarts
  | restarted _ _ hworking => exact absurd hworking hdead.stats

theorem settled_of_run (hr : Run (step cfg) init moves s) : s.Sound cfg ∧ s.Settled := by
  refine hr.invariant (I := fun s => s.Sound cfg ∧ s.Settled)
    ⟨sound_init, fun _ _ => rfl, fun hne => absurd rfl hne⟩ ?_
  exact fun _ _ _ h hs => ⟨h.1.step hs, h.2.step h.1 hs⟩

/-- The committed connections of a run without revivals
work. Induction on the run. -/
theorem not_committed_of_run (hr : Run (step cfg) init moves s)
    (hturns : ∀ m ∈ moves, ¬ m.pre.Revives m.label) (c : ConnId) :
    (s.server.conns c).conn.stats ≠ .working → ¬ s.Committed c := by
  have hinv := hr.invariant_of (P := fun m => ¬ m.pre.Revives m.label)
    (I := fun s => (s.Sound cfg ∧ s.Settled) ∧
      ((s.server.conns c).conn.stats ≠ .working → ¬ s.Committed c)) hturns ?_ ?_
  · exact hinv.2
  · refine ⟨settled_of_run .nil, fun _ => ?_⟩
    exact Threads.not_committed (by rintro ⟨⟩) rfl
  · rintro s turn t ⟨⟨hsound, hset⟩, hfree⟩ hturn hs
    exact ⟨⟨hsound.step hs, hset.step hsound hs⟩,
      (hsound.turned hset hs c).not_committed hturn hfree⟩

/-- A committed connection is not pending, and is not
started before its read. -/
theorem Settled.of_committed (h : s.Settled) (hsound : s.Sound cfg) (hc : s.Committed c) :
    (s.server.conns c).conn.stats ≠ .pending ∧ ∀ turn t, ¬ Restarts ⟨s, turn, t⟩ c := by
  obtain ⟨r, hr, -⟩ | ⟨hi, harms⟩ := hc
  · have hne := (hsound.listening.listens c).busy (hr ▸ Option.some_ne_none r)
    exact ⟨fun hp => hne (h.pending c hp),
      fun _ _ hrestarts => hne (hsound.listening.inserted c hrestarts.2.1)⟩
  · have hbegins : s.starting ≠ .begins := by
      rw [harms]
      rintro ⟨⟩
    obtain ⟨d, hd, hstats⟩ := h.starting hbegins
    obtain rfl := AcceptPc.inserted.inj (hi.symm.trans hd)
    exact ⟨hstats, fun _ _ hrestarts => hbegins hrestarts.2.2⟩

/-- In a run that keeps to the error status, a failed connection that is
committed to a read never gets to it. -/
theorem committed_of_absorbing {front mid : List (Move Threads Turn)}
    (back : List (Move Threads Turn)) (hu : Run (step cfg) init front u)
    (ht : Run (step cfg) u mid t) (habsorbing : Absorbing cfg (front ++ mid ++ back))
    (herror : (u.server.conns c).conn.stats = .error) (hc : u.Committed c) :
    (t.server.conns c).conn.stats = .error ∧ t.Committed c := by
  induction ht generalizing back with
  | nil => exact ⟨herror, hc⟩
  | @snoc mid s turn t hr hs ih =>
      have hbefore := hu.append hr
      obtain ⟨hstats, hcommitted⟩ := ih (⟨s, turn, t⟩ :: back) (by simpa using habsorbing)
      obtain ⟨hsound, hset⟩ := settled_of_run hbefore
      have hdead : StaysDead c s t := by
        refine habsorbing (front ++ mid) [⟨s, turn, t⟩] back s t c (by simp) hbefore (.one hs)
          hstats (List.forall_mem_singleton.mpr ?_)
        exact (hset.of_committed hsound hcommitted).2 turn t
      have hafter := (hsound.turned hset hs c).committed hcommitted hdead
      refine ⟨?_, hafter⟩
      cases hcases : (t.server.conns c).conn.stats with
      | error => rfl
      | working => exact absurd hcases hdead.stats
      | pending =>
          exact absurd hcases ((hset.step hsound hs).of_committed (hsound.step hs) hafter).1

/-- What `Revives` says of the turn holds of the state after
it, for some connection. -/
theorem revived_of_step (hs : s.step cfg turn = .ok t)
    (hrevives : s.Revives turn) :
    ∃ c, (t.server.conns c).conn.stats = .error ∧ t.Committed c := by
  cases turn with
  | other l =>
      obtain ⟨-, server, ha, rfl⟩ := otherStep_eq_ok hs
      cases l with
      | tick n =>
          simp only [Revives] at hrevives
          split at hrevives
          next c b htick =>
            refine ⟨c, ?_⟩
            cases ha with
            | @mark _ d _ ht =>
                obtain ⟨rfl, -, -⟩ := TickPc.exam.inj (ht.symm.trans htick)
                exact ⟨by simp [Server.setConn], hrevives⟩
            | _ => simp_all
          · exact hrevives.elim
      | _ => exact hrevives.elim
  | enter c i ec data env =>
      obtain ⟨herror, op, hop, hexit⟩ := hrevives
      obtain ⟨-, op', g, rest, hop', he, rfl⟩ := enterStep_eq_ok hs
      obtain rfl := Option.some.inj (hop'.symm.trans hop)
      obtain rfl := (OpKind.enter_exit he).mpr hexit
      obtain ⟨hstats, -, -⟩ := OpKind.enter_entered he
      refine ⟨c, ?_, .inl ⟨(env, .write), ?_, rfl⟩⟩
      · simpa [setRunning, setConn, Server.setConn, hstats] using herror
      · simp [setRunning]
  | _ => exact hrevives.elim

theorem step_nextConn_le (hs : s.step cfg turn = .ok t) :
    s.server.nextConn ≤ t.server.nextConn := by
  cases turn with
  | other l =>
      obtain ⟨-, server, ha, rfl⟩ := otherStep_eq_ok hs
      exact ha.nextConn_le
  | enter c i ec data env =>
      obtain ⟨-, op, g, rest, -, -, rfl⟩ := enterStep_eq_ok hs
      rfl
  | resume c =>
      obtain ⟨env, -, rfl⟩ | ⟨env, rest, g, rest', -, -, x, rfl, ⟨-, rfl⟩ | rfl⟩ :=
        resumeStep_cases hs
      all_goals rfl
  | send c i n =>
      obtain ⟨-, x, effects, -, rfl⟩ := sendStep_eq_ok hs
      rfl
  | start =>
      obtain ⟨c, g, rest, -, -, x, rfl, ⟨-, -, next, -, -, rfl⟩ | ⟨-, -, rfl⟩⟩ :=
        startStep_cases hs
      all_goals rfl

/-- A run without restarts and revivals leaves a failed
connection where it is. -/
theorem staysDead_of_run {mid : List (Move Threads Turn)} (hu : Run (step cfg) init moves u)
    (ht : Run (step cfg) u mid t) (herror : (u.server.conns c).conn.stats = .error)
    (hstart : ∀ m ∈ mid, ¬ Restarts m c)
    (hturns : ∀ m ∈ moves ++ mid, ¬ m.pre.Revives m.label) : StaysDead c u t := by
  have hdead : (u.server.conns c).conn.stats ≠ .working := by
    rw [herror]
    rintro ⟨⟩
  obtain ⟨hsound, hset⟩ := settled_of_run hu
  have hfree := not_committed_of_run hu (fun m hm => hturns m (List.mem_append_left mid hm)) c
  have hmade : c < u.server.nextConn := hsound.known.made c (.inr (by rw [herror]; decide))
  have hinv := ht.invariant_of (P := fun m => ¬ Restarts m c ∧ ¬ m.pre.Revives m.label)
    (I := fun s => (s.Sound cfg ∧ s.Settled) ∧ c < s.server.nextConn ∧
      ((s.server.conns c).conn.stats ≠ .working → ¬ s.Committed c) ∧ StaysDead c u s) ?_ ?_ ?_
  · exact hinv.2.2.2
  · exact fun m hm => ⟨hstart m hm, hturns m (List.mem_append_right moves hm)⟩
  · exact ⟨⟨hsound, hset⟩, hmade, hfree, .of_trace hdead rfl⟩
  · rintro s turn t ⟨⟨hsound, hset⟩, hc, hfree, hstays⟩ ⟨hstart, hturn⟩ hs
    have hturned := hsound.turned hset hs c
    exact ⟨⟨hsound.step hs, hset.step hsound hs⟩, Nat.lt_of_lt_of_le hc (step_nextConn_le hs),
      hturned.not_committed hturn hfree,
      hstays.trans (hturned.staysDead hc hstays.stats (hfree hstays.stats) hstart)⟩

/-- The status `conn_error` is left only by recycling the object, and no
handler under way is about to leave it, exactly in the runs in which no turn
revives a connection. -/
theorem conn_error_absorbing_iff (hr : Run (step cfg) init moves s) :
    (∀ m ∈ moves, ¬ m.pre.Revives m.label) ↔
      Absorbing cfg moves ∧
        ∀ c, (s.server.conns c).conn.stats = .error → ¬ s.Committed c := by
  constructor
  · intro hturns
    refine ⟨?_, fun c herror => not_committed_of_run hr hturns c (by rw [herror]; rintro ⟨⟩)⟩
    rintro front mid back u t c rfl hu ht herror hstart
    refine staysDead_of_run hu ht herror hstart fun m hm => hturns m ?_
    exact List.mem_append_left back hm
  · rintro ⟨habsorbing, hend⟩ m hm hrevives
    obtain ⟨front, back, rfl⟩ := List.append_of_mem hm
    have hstep := hr.step_of_mem m hm
    obtain ⟨c, herror, hcommitted⟩ := revived_of_step hstep hrevives
    have hfront : Run (step cfg) init (front ++ [m]) m.post := hr.before.snoc hstep
    obtain ⟨hstats, hlast⟩ := committed_of_absorbing [] hfront hr.after
      (by simpa using habsorbing) herror hcommitted
    exact hend c hstats hlast

/-- A connection that its client has left alone too long: the tick shuts it
down, marks it and hands it over, and its read then fails. -/
def expired : List Turn :=
  [.other (.accepted .peer), .other .accept, .start, .start, .start, .other (.clock 600)] ++
    List.replicate 34 (.other (.tick 0)) ++
    [.enter 0 0 .other [] (.refusing 600), .resume 0, .other (.handler 0), .other (.handler 0)]

theorem conn_error_absorbing_iff_expired : ∃ moves s, Run (step smallConfig) init moves s ∧
    (s.server.conns 0).conn.stats = .error ∧ (s.server.conns 0).ops = [] ∧
    0 ∈ s.server.pendingToRemove ∧ (∀ m ∈ moves, ¬ m.pre.Revives m.label) ∧
    Absorbing smallConfig moves := by
  obtain ⟨moves, s, hguarded, -, herror, hops, hpending⟩ :=
    run_of_reaches (guarded (fun s turn => ¬ Revives s turn) (step smallConfig)) init expired
      (p := fun s => (s.server.conns 0).conn.stats = .error ∧ (s.server.conns 0).ops = [] ∧
        0 ∈ s.server.pendingToRemove) (by decide +kernel)
  obtain ⟨hr, hturns⟩ := hguarded.of_guarded
  exact ⟨moves, s, hr, herror, hops, hpending, hturns, ((conn_error_absorbing_iff hr).mp hturns).1⟩

/-- The first request has been answered, and the write of the answer fails,
which cancels the next read and gives the connection up. -/
def writeFailed : List Turn :=
  refusing ++ [.enter 0 0 .other [] (.refusing 0), .resume 0, .other (.handler 0),
    .other (.handler 0)]

/-- The cancelled read then sets the connection working again, and it is
reading from the broken socket. -/
theorem aborted_read_revives : ∃ front mid u t, Run (step smallConfig) init front u ∧
    Run (step smallConfig) u mid t ∧ ¬ Absorbing smallConfig (front ++ mid) ∧
    (u.server.conns 0).conn.stats = .error ∧ 0 ∈ u.server.pendingToRemove ∧
    (∀ m ∈ mid, ¬ Restarts m 0) ∧ (t.server.conns 0).conn.stats = .working ∧
    (t.server.conns 0).ops = [⟨.readHead, 0, false⟩] := by
  obtain ⟨front, u, hu, -, ⟨herror, hpending⟩, hreaches⟩ :=
    run_of_reaches (step smallConfig) init writeFailed
      (p := fun u => ((u.server.conns 0).conn.stats = .error ∧ 0 ∈ u.server.pendingToRemove) ∧
        Reaches (exec (step smallConfig) u
          (.enter 0 0 .operationAborted [] (.refusing 0) :: List.replicate 5 (.resume 0)))
          fun t => (t.server.conns 0).conn.stats = .working ∧
            (t.server.conns 0).ops = [⟨.readHead, 0, false⟩])
      (by decide +kernel)
  obtain ⟨mid, t, ht, hlabels, hworking, hops⟩ := run_of_reaches _ _ _ hreaches
  have hstart : ∀ m ∈ mid, ¬ Restarts m 0 := by
    intro m hm hrestarts
    have hl := List.mem_map_of_mem (f := Move.label) hm
    rw [hlabels, hrestarts.1] at hl
    simp at hl
  refine ⟨front, mid, u, t, hu, ht, fun habsorbing => ?_, herror, hpending, hstart, hworking, hops⟩
  have hdead := habsorbing front mid [] u t 0 (List.append_nil _).symm hu ht herror hstart
  exact hdead.stats hworking

end Threads

end Ailawd
