import Ailawd.Server.Listening

/-!
# The write offsets

`fill_for_http` sets `w_pos_` and `w_size_`, `do_write` reads them, and the `start()` after it
resets both before the handler returns. So a connection between two handlers has nothing left
to write, whatever was sent before; `Rest.Offsets` says what the offsets are where a handler may
be interrupted. A write that completes adds its bytes to offsets that have been reset, and
`write_handler` never comes to its own `do_write`.
-/

namespace Ailawd

open Transition

/-- The offsets in front of the rest of a handler: in order before a
write, and reset in the end. -/
def Rest.Offsets (c : FrontConn) : Rest → Prop
  | .write => c.wPos = 0 ∧ 0 < c.wSize ∧ c.wSize ≤ c.pWrite.size
  | .start => c.wPos ≤ c.wSize ∧ c.wSize ≤ c.pWrite.size
  | .writeMore => False
  | _ => c.wPos = 0 ∧ c.wSize = 0

/-- The rest of the handler begins with `do_write`, so the
assertions there are next. -/
def Rest.writes : Rest → Bool
  | .write => true
  | .writeMore => true
  | _ => false

/-- `do_write` has something to write: its assertions hold, and the range that
it hands on is one of `p_write_`. -/
structure FrontConn.Writable (c : FrontConn) : Prop where
  size : 0 < c.wSize
  pos : c.wPos < c.wSize
  asserts : ∀ env, Handling.doWrite env ⟨c, []⟩ ≠ .error .writeSize ∧
    Handling.doWrite env ⟨c, []⟩ ≠ .error .writePos
  range : ∀ env h, Handling.doWrite env ⟨c, []⟩ = .ok h → ∀ offset len,
    .asyncWrite offset len ∈ h.effects → 0 < len ∧ offset + len ≤ c.pWrite.size

section Offsets

variable {c c' : FrontConn} {rest rest' : Rest} {h h' : Handling} {env : Env}

theorem Rest.Offsets.congr (ho : rest.Offsets c) (hpos : c'.wPos = c.wPos)
    (hsize : c'.wSize = c.wSize) (hwrite : c'.pWrite = c.pWrite) : rest.Offsets c' := by
  cases rest with
  | writeMore => exact ho
  | _ => simpa only [Offsets, hpos, hsize, hwrite] using ho

theorem Rest.Offsets.of_quiet (ho : rest.Offsets h.conn) (q : Quiet h h') :
    rest.Offsets h'.conn :=
  ho.congr q.wPos q.wSize q.pWrite

/-- The offsets are in order wherever a handler may be interrupted,
not only between handlers. -/
theorem Rest.Offsets.le (ho : rest.Offsets c) :
    c.wPos ≤ c.wSize ∧ c.wSize ≤ c.pWrite.size := by
  cases rest with
  | write => exact ⟨by rw [ho.1]; exact Nat.zero_le _, ho.2.2⟩
  | start => exact ho
  | writeMore => exact absurd ho id
  | _ =>
      obtain ⟨hpos, hsize⟩ := ho
      rw [hpos, hsize]
      exact ⟨Nat.le_refl 0, Nat.zero_le _⟩

theorem Handling.doWrite_ne_assert (hsize : 0 < h.conn.wSize) (hpos : h.conn.wPos < h.conn.wSize) :
    h.doWrite env ≠ .error .writeSize ∧ h.doWrite env ≠ .error .writePos := by
  have hfault : ∀ e, h.doWrite env = .error e → e = .nullSocket := by
    intro e he
    simp only [doWrite] at he
    split at he
    · cases he
    · split at he
      next hzero => exact absurd hzero (Nat.ne_of_gt hsize)
      · simp only [withSocket] at he
        split at he
        · exact (Except.error.inj he).symm
        · cases he
  refine ⟨fun he => ?_, fun he => ?_⟩
  · cases hfault _ he
  · cases hfault _ he

theorem Rest.Offsets.writable (ho : rest.Offsets c) (hw : rest.writes = true) : c.Writable := by
  cases rest with
  | write =>
      obtain ⟨hpos, hsize, hle⟩ := ho
      have hlt : c.wPos < c.wSize := hpos ▸ hsize
      refine ⟨hsize, hlt, fun env => Handling.doWrite_ne_assert hsize hlt,
        fun env h hr offset len hmem => ?_⟩
      obtain ⟨-, rfl⟩ | ⟨-, -, -, rfl⟩ := Handling.doWrite_cases hr
      · cases hmem
      · obtain ⟨rfl, rfl⟩ := Effect.asyncWrite.inj (List.mem_singleton.mp hmem)
        exact ⟨Nat.sub_pos_of_lt hlt, (Nat.add_sub_of_le hlt.le).trans_le hle⟩
  | writeMore => exact absurd ho id
  | _ => cases hw

theorem Handling.fillForHttp_offsets (env : Env) (content status : ByteString) (h : Handling) :
    Rest.write.Offsets (h.fillForHttp env content status).conn := by
  refine ⟨rfl, Reply.replyGenerate_length_pos _ _ _, ?_⟩
  simp only [Handling.fillForHttp, CharVec.write_size]
  split
  · rw [CharVec.resize_size]
    exact Nat.le_succ _
  · omega

theorem ReadEntered.offsets (e : ReadEntered h h' rest) (ho : Rest.done.Offsets h.conn) :
    rest.Offsets h'.conn := by
  cases e with
  | wait hq => exact ho.of_quiet hq
  | @fill g _ env content status _ hfilled =>
      exact (Handling.fillForHttp_offsets env content status g).of_quiet hfilled
  | fail hq => exact ho.congr hq.wPos hq.wSize hq.pWrite

/-- The bytes of a write are added to offsets that have
been reset, so they end it. -/
theorem Handling.writeEntry_offsets {ec : ErrorCode} {n : Nat}
    (hr : h.writeEntry ec n = .ok (h', rest)) (ho : Rest.done.Offsets h.conn) :
    rest.Offsets h'.conn := by
  simp only [writeEntry] at hr
  split at hr
  · split at hr
    next hmore =>
      rw [ho.2] at hmore
      exact absurd hmore (Nat.not_lt_zero _)
    next =>
      obtain ⟨rfl, rfl⟩ := Prod.mk.inj (Except.ok.inj hr)
      exact ⟨rfl, rfl⟩
  · split at hr
    · obtain ⟨rfl, rfl⟩ := socketErrorEntry_eq_ok hr
      exact ho
    · obtain ⟨rfl, rfl⟩ := Prod.mk.inj (Except.ok.inj hr)
      exact ho

theorem OpKind.enter_offsets {kind : OpKind} {ec : ErrorCode} {data : ByteString}
    (he : kind.enter c ec data env = .ok (h, rest)) (ho : Rest.done.Offsets c) :
    rest.Offsets h.conn := by
  obtain ⟨-, hread⟩ | ⟨w, n, -, hwrite⟩ := enter_cases he
  · exact hread.offsets ho
  · exact Handling.writeEntry_offsets hwrite ho

/-- One access to the status. The mark of another thread changes no offset. -/
theorem Rest.step_offsets (hs : rest.step env ⟨c, []⟩ = .ok (h, rest'))
    (ho : rest.Offsets c) : rest'.Offsets h.conn := by
  cases rest with
  | write =>
      obtain ⟨g, hg, heq⟩ := map_eq_ok hs
      obtain ⟨rfl, rfl⟩ := Prod.mk.inj heq
      have hstart : Rest.start.Offsets c := ho.le
      obtain ⟨-, rfl⟩ | ⟨-, -, -, rfl⟩ := Handling.doWrite_cases hg
      · exact hstart
      · exact hstart
  | start =>
      obtain ⟨rfl, rfl⟩ := Prod.mk.inj (Except.ok.inj hs)
      exact ⟨rfl, rfl⟩
  | readHead | readBody =>
      obtain ⟨-, heq⟩ | ⟨-, heq⟩ := Handling.testStats_cases env _ ⟨c, []⟩
      all_goals
        obtain ⟨rfl, rfl⟩ := Prod.mk.inj (heq.symm.trans (Except.ok.inj hs))
        exact ho
  | armHead | armBody =>
      obtain ⟨g, hg, heq⟩ := map_eq_ok hs
      obtain ⟨rfl, rfl⟩ := Prod.mk.inj heq
      obtain ⟨-, rfl⟩ := Handling.withSocket_eq_ok hg
      exact ho
  | writeMore => exact absurd ho id
  | fail =>
      obtain ⟨rfl, rfl⟩ := Prod.mk.inj (Except.ok.inj hs)
      exact ⟨ho.1, rfl⟩
  | done =>
      obtain ⟨rfl, rfl⟩ := Prod.mk.inj (Except.ok.inj hs)
      exact ho

end Offsets

def Rest.left : Option (Env × Rest) → Rest
  | none => .done
  | some (_, rest) => rest

namespace Threads

variable {cfg : Config} {s t : Threads} {c : ConnId} {x : Session} {r : Option (Env × Rest)}

/-- The offsets of every connection, with the rest of
its handler, if one runs. -/
def HasOffsets (conns : ConnId → Session) (running : ConnId → Option (Env × Rest)) : Prop :=
  ∀ c, (Rest.left (running c)).Offsets (conns c).conn

section Update

variable {conns : ConnId → Session} {running : ConnId → Option (Env × Rest)}

theorem HasOffsets.update (h : HasOffsets conns running)
    (hx : (Rest.left (running c)).Offsets x.conn) :
    HasOffsets (Function.update conns c x) running := by
  intro d
  by_cases hdc : d = c
  · subst hdc
    rwa [Function.update_self]
  · rw [Function.update_of_ne hdc]
    exact h d

theorem HasOffsets.turn (h : HasOffsets conns running) (hx : (Rest.left r).Offsets x.conn) :
    HasOffsets (Function.update conns c x) (Function.update running c r) := by
  intro d
  by_cases hdc : d = c
  · subst hdc
    rwa [Function.update_self, Function.update_self]
  · rw [Function.update_of_ne hdc, Function.update_of_ne hdc]
    exact h d

theorem HasOffsets.idle (h : HasOffsets conns running) (hr : running c = none) :
    Rest.done.Offsets (conns c).conn := by
  have hc := h c
  rwa [hr] at hc

end Update

/-- The other threads leave the offsets of a connection alone, or reset them
when no handler runs. -/
theorem Sound.action_offsets {l : Label} {t : Server} (h : s.Sound cfg)
    (ho : HasOffsets s.server.conns s.running) (hl : s.server.unsplit l = true)
    (ha : Server.Action cfg s.server l t) : HasOffsets t.conns s.running := by
  cases ha with
  | @recycle sock c cached _ _ _ _ => exact ho.update ((ho c).congr rfl rfl rfl)
  | create _ _ _ =>
      have hops : (s.server.conns s.server.nextConn).ops = [] :=
        by_contra fun hne => absurd (h.known.made _ (.inl hne)) (Nat.lt_irrefl _)
      refine ho.update ?_
      rw [(h.listening.listens _).running_none hops]
      exact ⟨rfl, rfl⟩
  | start hi _ =>
      rw [Server.unsplit, hi] at hl
      cases hl
  | io _ _ => cases hl
  | @shut _ d _ _ _ => exact ho.update (ho d)
  | @mark _ d _ _ => exact ho.update ((ho d).congr rfl rfl rfl)
  | @wash _ d todo conn hm hw =>
      obtain ⟨hops, -, -⟩ := h.listening.retired d (.inr ⟨.room, by rw [hm]; rfl, by decide⟩)
      simp only [FrontConn.connWashWhite] at hw
      split at hw
      · cases hw
      · obtain rfl := Except.ok.inj hw
        refine ho.update ?_
        rw [(h.listening.listens d).running_none hops]
        exact ⟨rfl, rfl⟩
  | _ => exact ho

theorem enter_offsets {i : Nat} {ec : ErrorCode} {data : ByteString} {env : Env}
    (ho : HasOffsets s.server.conns s.running) (hs : s.enterStep c i ec data env = .ok t) :
    HasOffsets t.server.conns t.running := by
  obtain ⟨hnone, op, g, rest, -, he, rfl⟩ := enterStep_eq_ok hs
  refine ho.turn ?_
  rw [Session.performAll_conn]
  exact OpKind.enter_offsets he (ho.idle hnone)

theorem Sound.resume_offsets (h : s.Sound cfg) (ho : HasOffsets s.server.conns s.running)
    (hs : s.resumeStep c = .ok t) : HasOffsets t.server.conns t.running := by
  have hc := ho c
  have hlistens := h.listening.listens c
  obtain ⟨env, hr, rfl⟩ | ⟨env, rest, g, rest', hr, hg, x, rfl, hcases⟩ := resumeStep_cases hs
  · rw [hr] at hc
    exact ho.turn hc
  · rw [hr] at hc hlistens
    have hnext : rest'.Offsets
        (Session.performAll { s.server.conns c with conn := g.conn } g.effects).conn := by
      rw [Session.performAll_conn]
      exact Rest.step_offsets hg hc
    obtain ⟨hpush, rfl⟩ | rfl := hcases
    · -- only `notify_conn_error` gives the connection away, and nothing follows it
      obtain rfl := (Rest.step_stepped hg hlistens.reads).released hpush
      exact ho.turn hnext
    · exact ho.turn hnext

theorem send_offsets {i n : Nat} (ho : HasOffsets s.server.conns s.running)
    (hs : s.sendStep c i n = .ok t) : HasOffsets t.server.conns t.running := by
  obtain ⟨-, x, effects, hr, rfl⟩ := sendStep_eq_ok hs
  obtain ⟨-, w, sock, -, -, -, rfl⟩ := react_send hr
  exact ho.update (ho c)

theorem Sound.start_offsets (h : s.Sound cfg) (ho : HasOffsets s.server.conns s.running)
    (hs : s.startStep = .ok t) : HasOffsets t.server.conns t.running := by
  obtain ⟨c, g, rest, hi, hg, x, rfl, hcases⟩ := startStep_cases hs
  have hnone := (h.listening.listens c).running_none (h.listening.inserted c hi)
  have hkept (hreset : Rest.done.Offsets g.conn) : HasOffsets (Function.update s.server.conns c
      (Session.performAll { s.server.conns c with conn := g.conn } g.effects)) s.running := by
    refine ho.update ?_
    rw [hnone, Session.performAll_conn]
    exact hreset
  have hreset : Rest.done.Offsets g.conn := by
    cases hstarting : s.starting <;> rw [hstarting] at hg
    · obtain ⟨rfl, -⟩ := Prod.mk.inj (Except.ok.inj hg)
      exact ⟨rfl, rfl⟩
    all_goals
      have hoffsets := Rest.step_offsets hg (ho.idle hnone)
      obtain ⟨-, -, next, rfl | rfl, rfl⟩ | ⟨rfl, -, -⟩ := starting_cases hg <;> exact hoffsets
  obtain ⟨-, -, next, -, -, rfl⟩ | ⟨-, -, rfl⟩ := hcases
  · exact hkept hreset
  · exact hkept hreset

theorem Sound.step_offsets {turn : Turn} (h : s.Sound cfg)
    (ho : HasOffsets s.server.conns s.running) (hs : s.step cfg turn = .ok t) :
    HasOffsets t.server.conns t.running := by
  cases turn with
  | other l =>
      obtain ⟨hl, server, ha, rfl⟩ := otherStep_eq_ok hs
      exact h.action_offsets ho hl ha
  | enter c i ec data env => exact enter_offsets ho hs
  | resume c => exact h.resume_offsets ho hs
  | send c i n => exact send_offsets ho hs
  | start => exact h.start_offsets ho hs

theorem offsets_of_run {moves : List (Move Threads Turn)}
    (hr : Run (Threads.step cfg) init moves s) : HasOffsets s.server.conns s.running := by
  have hinit : HasOffsets init.server.conns init.running := fun _ => ⟨rfl, rfl⟩
  have hboth : s.Sound cfg ∧ HasOffsets s.server.conns s.running :=
    hr.invariant (I := fun s => s.Sound cfg ∧ HasOffsets s.server.conns s.running)
      ⟨sound_init, hinit⟩ fun _ _ _ h hs => ⟨h.1.step hs, h.1.step_offsets h.2 hs⟩
  exact hboth.2

/-- Whatever the orders of the completions, the other threads and the
recyclings, the offsets are in order, and in front of every `do_write` there is
something to write. -/
theorem write_offsets {moves : List (Move Threads Turn)}
    (hr : Run (Threads.step cfg) init moves s) :
    (∀ c, (s.server.conns c).conn.wPos ≤ (s.server.conns c).conn.wSize ∧
      (s.server.conns c).conn.wSize ≤ (s.server.conns c).conn.pWrite.size) ∧
    ∀ c env rest, s.running c = some (env, rest) → rest.writes = true →
      (s.server.conns c).conn.Writable := by
  have h := offsets_of_run hr
  refine ⟨fun c => (h c).le, fun c env rest hrunning hwrites => ?_⟩
  have hc := h c
  rw [hrunning] at hc
  exact hc.writable hwrites

/-- A request has been refused, and the reply is about to be sent. -/
theorem write_offsets_refusing : ∃ moves s env, Run (Threads.step Server.smallConfig) init moves s ∧
    s.running 0 = some (env, .write) ∧ (s.server.conns 0).conn.Writable := by
  obtain ⟨moves, s, hr, -, hrest⟩ :=
    run_of_reaches (Threads.step Server.smallConfig) init (refusing.take 6)
      (p := fun s => (s.running 0).map Prod.snd = some .write) (by decide +kernel)
  obtain ⟨⟨env, rest⟩, hrunning, rfl⟩ := Option.map_eq_some_iff.mp hrest
  exact ⟨moves, s, env, hr, hrunning, (write_offsets hr).2 0 env .write hrunning rfl⟩

end Threads

end Ailawd
