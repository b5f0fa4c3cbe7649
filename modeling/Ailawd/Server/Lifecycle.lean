import Ailawd.Connection.Reactions
import Ailawd.Server.Supervision

/-!
# The life of a connection object

`Lifecycle` says what every interleaving leaves true of the objects: each one keeps
the invariant of its handlers, and one that has been recycled, or that a pass has
found unused, has no outstanding operation and no running handler. `Known` says that
only objects that have been made are referred to, so a new one is alone.
-/

namespace Ailawd

open Transition ByteString

section React

variable {x x' : Session} {e : Event} {effects : List Effect}

/-- An event needs an outstanding operation, so nothing happens to
an object that has none. -/
theorem react_ops_ne_nil (hr : x.react e = .ok (x', effects)) : x.ops ≠ [] := by
  intro hnil
  cases e with
  | complete i ec data env => simp [Session.react, hnil] at hr
  | send i n => simp [Session.react, hnil] at hr

theorem react_pSock (hx : x.Ok) (hr : x.react e = .ok (x', effects)) :
    x'.conn.pSock = x.conn.pSock := by
  cases e with
  | complete i ec data env =>
      obtain ⟨op, hc⟩ := react_complete hx.wSize hr
      have hexit := hc.exit
      cases hkind : op.kind.exit x.conn ec data <;> rw [hkind] at hexit
      · exact hexit.sock
      · exact hexit.sock
      · exact hexit.sock
      · exact hexit.2.2.1
  | send i n =>
      obtain ⟨-, w, sock, -, -, -, rfl⟩ := react_send hr
      rfl

theorem react_not_pending (hx : x.Ok) (hs : x.conn.stats ≠ .pending)
    (hr : x.react e = .ok (x', effects)) : x'.conn.stats ≠ .pending := by
  cases e with
  | complete i ec data env =>
      obtain ⟨op, hc⟩ := react_complete hx.wSize hr
      have hexit := hc.exit
      cases hkind : op.kind.exit x.conn ec data <;> rw [hkind] at hexit
      · rw [show x'.conn.stats = _ from hexit.stats]
        decide
      · rwa [show x'.conn.stats = _ from hexit.stats]
      · rw [show x'.conn.stats = _ from hexit.stats]
        decide
      · rwa [show x'.conn.stats = _ from hexit.2.1]
  | send i n =>
      obtain ⟨-, w, sock, -, -, -, rfl⟩ := react_send hr
      exact hs

/-- Only the error exit pushes the connection, so a pushed one has failed or
has been taken for failed. -/
theorem react_pushes (hx : x.Ok) (hr : x.react e = .ok (x', effects))
    (hp : .pushToRemove ∈ effects) :
    ∃ i ec data env op, e = .complete i ec data env ∧ x.ops[i]? = some op ∧
      op.kind.exit x.conn ec data = .fail := by
  cases e with
  | complete i ec data env =>
      obtain ⟨op, hc⟩ := react_complete hx.wSize hr
      refine ⟨i, ec, data, env, op, rfl, hc.found, ?_⟩
      have hafter := hc.ops _ (hx.sock op (List.mem_of_getElem? hc.found))
      cases hkind : op.kind.exit x.conn ec data with
      | answer =>
          rw [hkind] at hafter
          obtain ⟨calls, reply, hcalls, -, rfl, -⟩ := hafter
          obtain hp | hp := List.mem_append.mp hp
          · exact absurd (hcalls _ hp) (by decide)
          · split at hp <;> simp at hp
      | wait =>
          rw [hkind] at hafter
          obtain ⟨calls, offset, len, hcalls, -, rfl, -⟩ := hafter
          obtain hp | hp := List.mem_append.mp hp
          · exact absurd (hcalls _ hp) (by decide)
          · split at hp <;> simp at hp
      | fail => rfl
      | quiet =>
          rw [hkind] at hafter
          rw [hafter.1] at hp
          cases hp
  | send i n =>
      obtain ⟨rfl, -⟩ := react_send hr
      cases hp

end React

/-- Every reference is to a connection that has been made. New ones get
numbers that nobody holds. -/
structure Known (conns : ConnId → Session) (front pending : Finset ConnId)
    (cached : List ConnId) (running : Finset ConnId) (accept tick manage : Option ConnId)
    (nextConn : ConnId) : Prop where
  made : ∀ c, (conns c).ops ≠ [] ∨ (conns c).conn.stats ≠ .pending → c < nextConn
  front : ∀ c ∈ front, c < nextConn
  pending : ∀ c ∈ pending, c < nextConn
  cached : ∀ c ∈ cached, c < nextConn
  running : ∀ c ∈ running, c < nextConn
  accept : ∀ c, accept = some c → c < nextConn
  tick : ∀ c, tick = some c → c < nextConn
  manage : ∀ c, manage = some c → c < nextConn

namespace Server

variable {cfg : Config} {s t : Server} {c : ConnId}

/-- What refers to a connection, one holder at a time. The counts
below follow from this. -/
theorem useCount_eq_zero_iff : s.useCount c = 0 ↔
    c ∉ s.frontConns ∧ c ∉ s.pendingToRemove ∧ c ∉ s.cachedConns ∧ (s.conns c).ops = [] ∧
      c ∉ s.pushing ∪ s.notifying ∧ s.accept.conn ≠ some c ∧ s.tick.conn ≠ some c ∧
      s.manage.conn ≠ some c := by
  simp only [useCount, Nat.add_eq_zero_iff, List.count_eq_zero, List.length_eq_zero_iff,
    ite_eq_right_iff, Nat.one_ne_zero, imp_false, and_assoc]

/-- The item of a pass that is found in the map and has no other holder: map,
pending set and item are the three. -/
theorem alone_of_useCount_le (h : s.useCount c ≤ 3) (hfront : c ∈ s.frontConns)
    (hpending : c ∈ s.pendingToRemove) (hmanage : s.manage.conn = some c) :
    (s.conns c).ops = [] ∧ c ∉ s.pushing ∪ s.notifying ∧ s.accept.conn ≠ some c ∧
      s.tick.conn ≠ some c ∧ c ∉ s.cachedConns := by
  simp only [useCount, if_pos hfront, if_pos hpending, if_pos hmanage] at h
  refine ⟨List.length_eq_zero_iff.mp (by omega), fun hr => ?_, fun ha => ?_, fun ht => ?_,
    List.count_eq_zero.mp (by omega)⟩
  · rw [if_pos hr] at h
    omega
  · rw [if_pos ha] at h
    omega
  · rw [if_pos ht] at h
    omega

/-- A cached object that only the cache refers to. Nothing runs for it, and the
tick does not hold it. -/
theorem alone_of_useCount_one (h : s.useCount c = 1) (hcached : c ∈ s.cachedConns) :
    c ∉ s.frontConns ∧ c ∉ s.pendingToRemove ∧ (s.conns c).ops = [] ∧
      c ∉ s.pushing ∪ s.notifying ∧ s.tick.conn ≠ some c ∧ s.manage.conn ≠ some c := by
  have hpos := List.count_pos_iff.mpr hcached
  simp only [useCount] at h
  refine ⟨fun hf => ?_, fun hp => ?_, List.length_eq_zero_iff.mp (by omega), fun hr => ?_,
    fun ht => ?_, fun hm => ?_⟩
  · rw [if_pos hf] at h
    omega
  · rw [if_pos hp] at h
    omega
  · rw [if_pos hr] at h
    omega
  · rw [if_pos ht] at h
    omega
  · rw [if_pos hm] at h
    omega

def IsKnown (s : Server) : Prop :=
  Known s.conns s.frontConns s.pendingToRemove s.cachedConns (s.pushing ∪ s.notifying)
    s.accept.conn s.tick.conn s.manage.conn s.nextConn

theorem isKnown_init : IsKnown init := by
  refine ⟨fun c h => ?_, ?_, ?_, ?_, ?_, ?_, ?_, ?_⟩
  · exact h.elim (fun hops => absurd rfl hops) fun hstats => absurd rfl hstats
  all_goals
    intro c h
    cases h

theorem IsKnown.lt_of_useCount (h : s.IsKnown) (hc : s.useCount c ≠ 0) : c < s.nextConn := by
  by_contra hge
  refine hc (useCount_eq_zero_iff.mpr ⟨?_, ?_, ?_, ?_, ?_, ?_, ?_, ?_⟩)
  · exact fun hf => hge (h.front c hf)
  · exact fun hp => hge (h.pending c hp)
  · exact fun hm => hge (h.cached c hm)
  · exact by_contra fun ho => hge (h.made c (.inl ho))
  · exact fun hr => hge (h.running c hr)
  · exact fun ha => hge (h.accept c ha)
  · exact fun ht => hge (h.tick c ht)
  · exact fun hm => hge (h.manage c hm)

theorem mem_running_push (hc : c ∈ s.pushing) (d : ConnId) :
    d ∈ s.pushing.erase c ∪ insert c s.notifying ↔ d ∈ s.pushing ∪ s.notifying := by
  simp only [Finset.mem_union, Finset.mem_erase, Finset.mem_insert]
  by_cases hd : d = c
  · simp [hd, hc]
  · simp [hd]

theorem IsKnown.action {l : Label} (h : s.IsKnown) (hv : s.IsSupervised)
    (ha : Action cfg s l t) : t.IsKnown := by
  have hupdate : ∀ {c : ConnId} {x : Session}, c < s.nextConn →
      ∀ d, (Function.update s.conns c x d).ops ≠ [] ∨
        (Function.update s.conns c x d).conn.stats ≠ .pending → d < s.nextConn := by
    intro c x hc d hd
    by_cases hdc : d = c
    · exact hdc ▸ hc
    · rw [Function.update_of_ne hdc] at hd
      exact h.made d hd
  cases ha with
  | acceptError _ => exact { h with accept := fun _ hc => nomatch hc }
  | acceptTested _ _ => exact { h with accept := fun _ hc => nomatch hc }
  | @recycle _ c cached _ _ hcached _ =>
      have hc : c < s.nextConn := h.cached c (hcached ▸ List.mem_cons_self)
      refine { h with made := hupdate hc, front := ?_, cached := ?_, accept := ?_ }
      · intro d hd
        obtain rfl | hd := Finset.mem_insert.mp hd
        · exact hc
        · exact h.front d hd
      · exact fun d hd => h.cached d (hcached ▸ List.mem_cons_of_mem c hd)
      · intro d hd
        cases hd
        exact hc
  | create _ _ _ =>
      have hlt : ∀ {d : ConnId}, d < s.nextConn → d < s.nextConn + 1 := Nat.lt_succ_of_lt
      refine ⟨?_, ?_, fun d hd => hlt (h.pending d hd), fun d hd => hlt (h.cached d hd),
        fun d hd => hlt (h.running d hd), ?_, fun d hd => hlt (h.tick d hd),
        fun d hd => hlt (h.manage d hd)⟩
      · intro d hd
        by_cases hdc : d = s.nextConn
        · exact hdc ▸ Nat.lt_succ_self _
        · simp only [emplace, setConn, Function.update_of_ne hdc] at hd
          exact hlt (h.made d hd)
      · intro d hd
        obtain rfl | hd := Finset.mem_insert.mp hd
        · exact Nat.lt_succ_self _
        · exact hlt (h.front d hd)
      · intro d hd
        cases hd
        exact Nat.lt_succ_self _
  | @start c _ hi _ =>
      have hc : c < s.nextConn := h.accept c (by rw [hi]; rfl)
      refine { h with made := hupdate hc, accept := ?_ }
      intro d hd
      cases hd
      exact hc
  | listen _ => exact { h with accept := fun _ hc => nomatch hc }
  | @io c e x effects _ hr =>
      have hc : c < s.nextConn := h.made c (.inl (react_ops_ne_nil hr))
      refine { h with made := hupdate hc, running := ?_ }
      intro d hd
      obtain hd | hd := Finset.mem_union.mp hd
      · by_cases hdc : d = c
        · exact hdc ▸ hc
        · refine h.running d (Finset.mem_union_left _ ?_)
          change d ∈ (if _ then insert c s.pushing else s.pushing) at hd
          split at hd
          · exact (Finset.mem_insert.mp hd).resolve_left hdc
          · exact hd
      · exact h.running d (Finset.mem_union_right _ hd)
  | @push c hc _ =>
      refine { h with pending := ?_, running := ?_ }
      · intro d hd
        obtain rfl | hd := Finset.mem_insert.mp hd
        · exact h.running d (Finset.mem_union_left _ hc)
        · exact h.pending d hd
      · exact fun d hd => h.running d ((mem_running_push hc d).mp hd)
  | @notify c _ _ =>
      refine { h with running := ?_, manage := ?_ }
      · intro d hd
        apply h.running d
        obtain hd | hd := Finset.mem_union.mp hd
        · exact Finset.mem_union_left _ hd
        · exact Finset.mem_union_right _ (Finset.mem_of_mem_erase hd)
      · exact fun d hd => h.manage d (by rwa [← ManagePc.conn_notified])
  | tickBegin _ => exact { h with tick := fun _ hc => nomatch hc }
  | @tickDone _ b _ _ =>
      refine { h with tick := fun _ hc => (nomatch hc), manage := ?_ }
      intro d hd
      apply h.manage d
      change (if b.notify = true then s.manage.notified else s.manage).conn = some d at hd
      split at hd
      · rwa [← ManagePc.conn_notified]
      · exact hd
  | tickDead _ _ _ => exact { h with tick := fun _ hc => nomatch hc }
  | tickLock _ _ halive =>
      refine { h with tick := fun d hd => ?_ }
      cases hd
      exact h.lt_of_useCount halive
  | sawPending ht _ => exact { h with tick := fun d hd => h.tick d (by rw [ht]; exact hd) }
  | sawOther ht _ => exact { h with tick := fun d hd => h.tick d (by rw [ht]; exact hd) }
  | dropCached ht _ => exact { h with tick := fun d hd => h.tick d (by rw [ht]; exact hd) }
  | expire ht _ => exact { h with tick := fun d hd => h.tick d (by rw [ht]; exact hd) }
  | keep ht _ => exact { h with tick := fun d hd => h.tick d (by rw [ht]; exact hd) }
  | @shut _ d _ ht _ =>
      have hd : d < s.nextConn := h.tick d (by rw [ht]; rfl)
      exact { h with made := hupdate hd, tick := fun e he => h.tick e (by rw [ht]; exact he) }
  | @mark _ d _ ht =>
      have hd : d < s.nextConn := h.tick d (by rw [ht]; rfl)
      exact { h with made := hupdate hd, tick := fun e he => h.tick e (by rw [ht]; exact he) }
  | @tickPush _ d _ ht _ =>
      refine { h with pending := ?_, tick := fun e he => h.tick e (by rw [ht]; exact he) }
      intro e he
      obtain rfl | he := Finset.mem_insert.mp he
      · exact h.tick e (by rw [ht]; rfl)
      · exact h.pending e he
  | release _ => exact { h with tick := fun _ hc => nomatch hc }
  | rotate _ _ => exact { h with tick := fun _ hc => nomatch hc }
  | wake _ => exact { h with manage := fun _ hc => nomatch hc }
  | timeout _ => exact { h with manage := fun _ hc => nomatch hc }
  | wait _ => exact { h with manage := fun _ hc => nomatch hc }
  | nothing _ _ => exact { h with manage := fun _ hc => nomatch hc }
  | beginPass _ _ => exact { h with manage := fun _ hc => nomatch hc }
  | showConns _ => exact { h with manage := fun _ hc => nomatch hc }
  | shownConns _ => exact { h with manage := fun _ hc => nomatch hc }
  | endPass _ _ =>
      exact { h with pending := fun c hc => absurd hc (Finset.notMem_empty c),
                     manage := fun _ hc => nomatch hc }
  | pick hm hc =>
      refine { h with manage := fun d hd => ?_ }
      cases hd
      refine h.pending _ (hv.pending ?_)
      rw [hm]
      exact hc
  | absent _ _ => exact { h with manage := fun _ hc => nomatch hc }
  | skip _ _ _ => exact { h with manage := fun _ hc => nomatch hc }
  | test hm _ _ => exact { h with manage := fun d hd => h.manage d (by rw [hm]; exact hd) }
  | erase hm =>
      exact { h with front := fun d hd => h.front d (Finset.mem_of_mem_erase hd),
                     manage := fun d hd => h.manage d (by rw [hm]; exact hd) }
  | count hm => exact { h with manage := fun d hd => h.manage d (by rw [hm]; exact hd) }
  | room hm _ => exact { h with manage := fun d hd => h.manage d (by rw [hm]; exact hd) }
  | noRoom _ _ => exact { h with manage := fun _ hc => nomatch hc }
  | @wash _ d _ _ hm _ =>
      have hd : d < s.nextConn := h.manage d (by rw [hm]; rfl)
      exact { h with made := hupdate hd, manage := fun e he => h.manage e (by rw [hm]; exact he) }
  | @cache _ d _ hm =>
      refine { h with cached := ?_, manage := fun _ hc => nomatch hc }
      intro e he
      obtain he | he := List.mem_append.mp he
      · exact h.cached e he
      · exact h.manage e (by rw [hm, List.mem_singleton.mp he]; rfl)
  | _ => exact h

end Server

/-- A pass has found the connection unused, and is taking it out of
the map or has done so. -/
def ManagePc.Retiring (m : ManagePc) (c : ConnId) : Prop :=
  ∃ stage, m.item? = some (c, stage) ∧ stage ≠ .picked

/-- Only the use count test of a pass retires a connection, one that
nothing else refers to. -/
theorem Server.Action.retires {cfg : Config} {s t : Server} {l : Label} (hv : s.IsSupervised)
    (ha : Server.Action cfg s l t) : ∀ c, t.manage.Retiring c → s.manage.Retiring c ∨
      ((s.conns c).ops = [] ∧ c ∉ s.pushing ∪ s.notifying ∧ s.accept.conn ≠ some c) := by
  intro c hc
  have hnotified : s.manage.notified.Retiring c → s.manage.Retiring c := by
    rintro ⟨stage, hitem, hstage⟩
    rw [ManagePc.item?_notified] at hitem
    exact ⟨stage, hitem, hstage⟩
  cases ha with
  | notify _ _ => exact .inl (hnotified hc)
  | @tickDone _ b _ _ =>
      change (if b.notify = true then s.manage.notified else s.manage).Retiring c at hc
      split at hc
      · exact .inl (hnotified hc)
      · exact .inl hc
  | @test _ d todo hm hd hfew =>
      have hpending : d ∈ s.pendingToRemove := by
        apply hv.pending
        rw [hm]
        exact Finset.mem_insert_self d todo
      obtain ⟨hops, hrunning, haccept, -⟩ :=
        Server.alone_of_useCount_le hfew hd hpending (by rw [hm]; rfl)
      obtain ⟨stage, hitem, -⟩ := hc
      cases hitem
      exact .inr ⟨hops, hrunning, haccept⟩
  | pick _ _ =>
      obtain ⟨stage, hitem, hstage⟩ := hc
      cases hitem
      exact absurd rfl hstage
  | erase hm =>
      obtain ⟨stage, hitem, -⟩ := hc
      cases hitem
      exact .inl ⟨.tested, by rw [hm]; rfl, by decide⟩
  | count hm =>
      obtain ⟨stage, hitem, -⟩ := hc
      cases hitem
      exact .inl ⟨.erased, by rw [hm]; rfl, by decide⟩
  | room hm _ =>
      obtain ⟨stage, hitem, -⟩ := hc
      cases hitem
      exact .inl ⟨.counted, by rw [hm]; rfl, by decide⟩
  | wash hm _ =>
      obtain ⟨stage, hitem, -⟩ := hc
      cases hitem
      exact .inl ⟨.room, by rw [hm]; rfl, by decide⟩
  | wake _ | timeout _ | wait _ | nothing _ _ | beginPass _ _ | showConns _ | shownConns _
  | endPass _ _ | absent _ _ | skip _ _ _ | noRoom _ _ | cache _ =>
      obtain ⟨stage, hitem, -⟩ := hc
      cases hitem
  | _ => exact .inl hc

/-- What holds of every object under every interleaving: one that is cached or
retired has no operations, and no handler runs for it. -/
structure Lifecycle (conns : ConnId → Session) (running : Finset ConnId) (cached : List ConnId)
    (accept : AcceptPc) (manage : ManagePc) : Prop where
  ok : ∀ c, (conns c).Ok
  idle : ∀ c, (conns c).conn.stats = .pending → (conns c).ops = []
  retired : ∀ c, c ∈ cached ∨ manage.Retiring c →
    (conns c).ops = [] ∧ c ∉ running ∧ accept.conn ≠ some c
  inserted : ∀ c, accept = .inserted c → (conns c).ops = []

namespace Lifecycle

variable {conns : ConnId → Session} {running running' : Finset ConnId}
variable {cached cached' : List ConnId} {accept accept' : AcceptPc} {manage manage' : ManagePc}
variable {c : ConnId} {x : Session}

theorem update (h : Lifecycle conns running cached accept manage) (hok : x.Ok)
    (hidle : x.conn.stats = .pending → x.ops = [])
    (hretired : (c ∈ cached ∨ manage.Retiring c) ∨ accept = .inserted c → x.ops = []) :
    Lifecycle (Function.update conns c x) running cached accept manage := by
  refine ⟨fun d => ?_, fun d => ?_, fun d hd => ?_, fun d hd => ?_⟩ <;> by_cases hdc : d = c
  · subst hdc
    rwa [Function.update_self]
  · rw [Function.update_of_ne hdc]
    exact h.ok d
  · subst hdc
    rwa [Function.update_self]
  · rw [Function.update_of_ne hdc]
    exact h.idle d
  · subst hdc
    rw [Function.update_self]
    exact ⟨hretired (.inl hd), (h.retired d hd).2⟩
  · rw [Function.update_of_ne hdc]
    exact h.retired d hd
  · subst hdc
    rw [Function.update_self]
    exact hretired (.inr hd)
  · rw [Function.update_of_ne hdc]
    exact h.inserted d hd

theorem ofAccept (h : Lifecycle conns running cached accept manage) (ha : accept'.conn = none) :
    Lifecycle conns running cached accept' manage := by
  refine ⟨h.ok, h.idle, fun d hd => ?_, fun d hd => ?_⟩
  · obtain ⟨hops, hrunning, -⟩ := h.retired d hd
    exact ⟨hops, hrunning, fun hconn => by rw [ha] at hconn; cases hconn⟩
  · rw [hd] at ha
    cases ha

theorem ofManage (h : Lifecycle conns running cached accept manage)
    (hm : ∀ c, manage'.Retiring c → manage.Retiring c ∨
      ((conns c).ops = [] ∧ c ∉ running ∧ accept.conn ≠ some c)) :
    Lifecycle conns running cached accept manage' := by
  refine { h with retired := fun d hd => ?_ }
  obtain hd | hd := hd
  · exact h.retired d (.inl hd)
  · exact (hm d hd).elim (fun hret => h.retired d (.inr hret)) id

theorem ofRunning (h : Lifecycle conns running cached accept manage)
    (hr : ∀ c ∈ running', c ∈ running ∨ (conns c).ops ≠ []) :
    Lifecycle conns running' cached accept manage := by
  refine { h with retired := fun d hd => ?_ }
  obtain ⟨hops, hrunning, haccept⟩ := h.retired d hd
  refine ⟨hops, fun hmem => ?_, haccept⟩
  exact (hr d hmem).elim hrunning fun hne => hne hops

/-- The accept handler takes a connection that nothing else refers to, a new
one or one from the cache. -/
theorem emplace (h : Lifecycle conns running cached accept manage) (hok : x.Ok)
    (hops : x.ops = []) (hfree : manage.item? = none) (hsub : ∀ d ∈ cached', d ∈ cached)
    (hc : c ∉ cached') :
    Lifecycle (Function.update conns c x) running cached' (.inserted c) manage := by
  have hupdate := h.update (c := c) hok (fun _ => hops) fun _ => hops
  refine ⟨hupdate.ok, hupdate.idle, fun d hd => ?_, fun d hd => ?_⟩
  · obtain hd | ⟨stage, hitem, -⟩ := hd
    · obtain ⟨hnil, hrunning, -⟩ := hupdate.retired d (.inl (hsub d hd))
      refine ⟨hnil, hrunning, fun heq => hc ?_⟩
      exact Option.some.inj heq ▸ hd
    · rw [hfree] at hitem
      cases hitem
  · cases hd
    rw [Function.update_self]
    exact hops

end Lifecycle

theorem Session.Ok.of_nil {x : Session} (hops : x.ops = []) (hstats : x.conn.stats ≠ .working)
    (hsize : x.conn.wSize = 0) (hpos : x.conn.wPos = 0) : x.Ok := by
  refine ⟨hsize, hpos, ?_, ?_, fun hs => absurd hs hstats, ?_⟩ <;> rw [hops] <;> simp

namespace Server

variable {cfg : Config} {s t : Server} {c : ConnId}

def HasLifecycle (s : Server) : Prop :=
  Lifecycle s.conns (s.pushing ∪ s.notifying) s.cachedConns s.accept s.manage

theorem hasLifecycle_init : HasLifecycle init := by
  refine ⟨fun c => Session.Ok.of_nil rfl (fun hs => by cases hs) rfl rfl, fun _ _ => rfl,
    fun c hc => ?_, fun c hc => by cases hc⟩
  obtain hc | ⟨stage, hitem, -⟩ := hc
  · cases hc
  · cases hitem

/-- `start()` on an object without operations. It leaves a working connection
with one head read. -/
theorem start_ok {h : Handling} (hops : (s.conns c).ops = [])
    (hs : Handling.start (.refusing s.now) ⟨(s.conns c).conn, []⟩ = .ok h) :
    ∃ sock, (s.conns c).conn.pSock = some sock ∧
      (Session.performAll { s.conns c with conn := h.conn } h.effects).Started sock ∧
      (Session.performAll { s.conns c with conn := h.conn } h.effects).trace =
        (s.conns c).trace ++ [.asyncReadUntil] := by
  obtain ⟨⟨sock, hsock⟩, rfl⟩ := Handling.start_eq_ok hs
  change (s.conns c).conn.pSock = some sock at hsock
  refine ⟨sock, hsock, ⟨hsock, rfl, rfl, rfl, rfl, ?_⟩, rfl⟩
  simp [Session.perform, hsock, hops]

theorem HasLifecycle.action {l : Label} (h : s.HasLifecycle) (hp : s.Accounted cfg)
    (hv : s.IsSupervised) (ha : Action cfg s l t) : t.HasLifecycle := by
  have hmanage := h.ofManage (ha.retires hv)
  cases ha with
  | acceptError _ => exact h.ofAccept rfl
  | acceptTested _ _ => exact h.ofAccept rfl
  | @recycle sock c cached ht hfree hcached hone =>
      obtain ⟨-, -, hops, -⟩ :=
        alone_of_useCount_one hone (hcached ▸ List.mem_cons_self)
      have hnodup := hp.nodup
      rw [hcached] at hnodup
      have hok := h.ok c
      refine h.emplace ?_ hops (ManagePc.of_unlocked hfree).2
        (fun d hd => hcached ▸ List.mem_cons_of_mem c hd) (List.nodup_cons.mp hnodup).1
      refine ⟨hok.wSize, hok.wPos, ?_, ?_, fun hs => ?_, ?_⟩ <;> simp only [recycled, hops]
      · simp
      · simp
      · obtain ⟨op, hop, -⟩ := hok.reading hs
        rw [hops] at hop
        cases hop
      · simp
  | create _ hfree _ =>
      exact h.emplace (Session.Ok.of_nil rfl (fun hs => by cases hs) rfl rfl) rfl
        (ManagePc.of_unlocked hfree).2 (fun _ hd => hd)
        fun hd => absurd (hp.old.2.1 _ hd) (Nat.lt_irrefl _)
  | @start c g hi hg =>
      obtain ⟨sock, -, hstarted, -⟩ := start_ok (h.inserted c hi) hg
      have hnot : ∀ d, d ∈ s.cachedConns ∨ s.manage.Retiring d → d ≠ c := by
        rintro d hd rfl
        exact (h.retired d hd).2.2 (by rw [hi]; rfl)
      refine ⟨fun d => ?_, fun d => ?_, fun d hd => ?_, fun d hd => by cases hd⟩
      · by_cases hdc : d = c
        · subst hdc
          simp only [setConn, Function.update_self]
          exact hstarted.ok
        · simp only [setConn, Function.update_of_ne hdc]
          exact h.ok d
      · by_cases hdc : d = c
        · subst hdc
          simp only [setConn, Function.update_self]
          intro hs
          rw [hstarted.stats] at hs
          cases hs
        · simp only [setConn, Function.update_of_ne hdc]
          exact h.idle d
      · obtain ⟨hops, hrunning, -⟩ := h.retired d hd
        simp only [setConn, Function.update_of_ne (hnot d hd)]
        exact ⟨hops, hrunning, fun heq => hnot d hd (Option.some.inj heq).symm⟩
  | listen _ => exact h.ofAccept rfl
  | @io c e x effects _ hr =>
      have hne := react_ops_ne_nil hr
      have hupdate := h.update (c := c) ((h.ok c).react hr)
        (fun hs => absurd hs (react_not_pending (h.ok c) (fun hs' => hne (h.idle c hs')) hr))
        fun hret => absurd (hret.elim (fun hr => (h.retired c hr).1) (h.inserted c)) hne
      refine { hupdate with retired := fun d hd => ?_ }
      obtain ⟨hops, hrunning, haccept⟩ := hupdate.retired d hd
      refine ⟨hops, fun hmem => hrunning ?_, haccept⟩
      have hdc : d ≠ c := by
        rintro rfl
        exact hne (h.retired d hd).1
      obtain hmem | hmem := Finset.mem_union.mp hmem
      · apply Finset.mem_union_left _
        change d ∈ (if _ then insert c s.pushing else s.pushing) at hmem
        split at hmem
        · exact (Finset.mem_insert.mp hmem).resolve_left hdc
        · exact hmem
      · exact Finset.mem_union_right _ hmem
  | @push c hc _ => exact h.ofRunning fun d hd => .inl ((mem_running_push hc d).mp hd)
  | @notify c _ _ =>
      exact hmanage.ofRunning fun d hd => .inl ((Finset.mem_union.mp hd).elim
        (Finset.mem_union_left _)
        fun hd => Finset.mem_union_right _ (Finset.mem_of_mem_erase hd))
  | @shut _ d _ _ _ =>
      refine h.update (h.ok d).perform_shutdown (fun hs => ?_) fun hret => ?_ <;>
        rw [Session.perform_shutdown_ops]
      · exact h.idle d hs
      · exact hret.elim (fun hr => (h.retired d hr).1) (h.inserted d)
  | @mark _ d _ _ =>
      have hok := h.ok d
      refine h.update ⟨hok.wSize, hok.wPos, hok.sock, hok.oneRead, fun hs => ?_, hok.nonempty⟩
        (fun hs => ?_) fun hret => hret.elim (fun hr => (h.retired d hr).1) (h.inserted d)
      · cases hs
      · cases hs
  | @wash _ d todo conn hm hw =>
      have hret : s.manage.Retiring d := ⟨.room, by rw [hm]; rfl, by decide⟩
      obtain ⟨hops, -⟩ := h.retired d (.inr hret)
      simp only [FrontConn.connWashWhite] at hw
      split at hw
      · cases hw
      · obtain rfl := Except.ok.inj hw
        refine hmanage.update ?_ ?_ ?_
        · exact Session.Ok.of_nil hops (fun hs => by cases hs) rfl rfl
        · exact fun _ => hops
        · exact fun _ => hops
  | @cache _ d todo hm =>
      have hret : s.manage.Retiring d := ⟨.washed, by rw [hm]; rfl, by decide⟩
      refine { hmanage with retired := fun e he => ?_ }
      obtain he | he := he
      · obtain he | he := List.mem_append.mp he
        · exact h.retired e (.inl he)
        · exact List.mem_singleton.mp he ▸ h.retired d (.inr hret)
      · exact hmanage.retired e (.inr he)
  | _ => exact hmanage

/-- The invariants that hold under every interleaving. Each of them is kept by
every action, given all of them. -/
structure Sound (cfg : Config) (s : Server) : Prop where
  accounted : s.Accounted cfg
  supervised : s.IsSupervised
  known : s.IsKnown
  lifecycle : s.HasLifecycle

theorem Sound.action {l : Label} (h : s.Sound cfg) (ha : Action cfg s l t) : t.Sound cfg :=
  ⟨h.accounted.action ha, h.supervised.action h.accounted ha, h.known.action h.supervised ha,
    h.lifecycle.action h.accounted h.supervised ha⟩

theorem sound_init : Sound cfg init :=
  ⟨accounted_init, isSupervised_init, isKnown_init, hasLifecycle_init⟩

theorem sound_of_run {moves : List (Move Server Label)} (hr : Run (step cfg) init moves s) :
    s.Sound cfg :=
  hr.invariant sound_init fun _ _ _ h hs => h.action (step_action hs)

end Server

end Ailawd
