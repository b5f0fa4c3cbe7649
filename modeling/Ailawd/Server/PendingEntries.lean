import Ailawd.Server.Recycling

/-!
# Pending connections in the wheel

`timing_wheel_check` takes `conn_pending` for the mark of a cached connection and asserts
it. There are two more places where a connection can have this status: between the critical
section of `accept_handler` and `start()`, and between `conn_wash_white` and the end of the
cache. `Placed` says that these are all, and `pending_is_cached_iff` that the assertion holds
exactly in the runs whose ticks never read the status there.
-/

namespace Ailawd

open Transition ByteString

namespace Server

variable {cfg : Config} {s t : Server} {l : Label} {c : ConnId}
variable {moves : List (Move Server Label)}

/-- The connection has been put into the map and not been started, or it has
been washed and is not in the cache yet. -/
def Underway (s : Server) (c : ConnId) : Prop :=
  s.accept = .inserted c ∨ s.manage.item? = some (c, .washed)

/-- The tick reads `conn_pending` from a connection that is underway, as no
lock keeps it from doing so. -/
def ReadsUnderway (s : Server) (l : Label) : Prop :=
  ∃ d c b, l = .tick d ∧ s.tick = .exam c .locked b ∧ (s.conns c).conn.stats = .pending ∧
    s.Underway c

/-- Where a connection with `conn_pending` can be: in
the cache, or underway. -/
def Placed (s : Server) : Prop :=
  ∀ c, c < s.nextConn → (s.conns c).conn.stats = .pending → c ∈ s.cachedConns ∨ s.Underway c

theorem placed_init : Placed init := fun _ hc => absurd hc (Nat.not_lt_zero _)

private theorem Placed.keep (h : s.Placed)
    (hstats : ∀ c, (t.conns c).conn.stats = (s.conns c).conn.stats)
    (hnext : t.nextConn = s.nextConn) (hcached : t.cachedConns = s.cachedConns)
    (hway : ∀ c, s.Underway c → t.Underway c) : t.Placed := by
  intro c hc hp
  rw [hnext] at hc
  rw [hstats] at hp
  rw [hcached]
  exact (h c hc hp).imp_right (hway c)

private theorem Placed.update {x : Session} (h : s.Placed)
    (hconns : t.conns = Function.update s.conns c x) (hx : x.conn.stats ≠ .pending)
    (hnext : t.nextConn = s.nextConn) (hcached : t.cachedConns = s.cachedConns)
    (hway : ∀ d, d ≠ c → s.Underway d → t.Underway d) : t.Placed := by
  intro d hd hp
  rw [hnext] at hd
  rw [hconns] at hp
  rw [hcached]
  by_cases hdc : d = c
  · subst hdc
    rw [Function.update_self] at hp
    exact absurd hp hx
  · rw [Function.update_of_ne hdc] at hp
    exact (h d hd hp).imp_right (hway d hdc)

private theorem Placed.manage {m : ManagePc} (h : s.Placed)
    (hm : ∀ c, s.manage.item? = some (c, .washed) → m.item? = some (c, .washed)) :
    Placed { s with manage := m } :=
  h.keep (fun _ => rfl) rfl rfl fun c hw => hw.imp_right (hm c)

theorem Placed.action (h : s.Placed) (hs : s.Sound cfg) (ha : Action cfg s l t) : t.Placed := by
  have hitem : ∀ {m : ManagePc} {c : ConnId}, s.manage = m → m.item? ≠ some (c, .washed) →
      s.manage.item? ≠ some (c, .washed) := fun hm hne => hm ▸ hne
  have hdone : ∀ {m m' : ManagePc}, s.manage = m → (∀ c, m.item? ≠ some (c, .washed)) →
      Placed { s with manage := m' } := fun hm hne =>
    h.manage fun c hw => absurd hw (hitem hm (hne c))
  cases ha with
  | acceptError hl =>
      refine h.keep (fun _ => rfl) rfl rfl fun c hw => hw.imp_left fun hi => ?_
      rw [hl] at hi
      cases hi
  | acceptTested hl _ =>
      refine h.keep (fun _ => rfl) rfl rfl fun c hw => hw.imp_left fun hi => ?_
      rw [hl] at hi
      cases hi
  | @recycle sock c cached ht hfree hcached _ =>
      intro d hd hp
      by_cases hdc : d = c
      · exact .inr (.inl (congrArg _ hdc.symm))
      · simp only [emplace, setConn, Function.update_of_ne hdc] at hp
        obtain hmem | hi | hi := h d hd hp
        · rw [hcached] at hmem
          exact .inl ((List.mem_cons.mp hmem).resolve_left hdc)
        · rw [ht] at hi
          cases hi
        · rw [(ManagePc.of_unlocked hfree).2] at hi
          cases hi
  | @create sock ht hfree hcached =>
      intro d hd hp
      by_cases hdc : d = s.nextConn
      · exact .inr (.inl (congrArg _ hdc.symm))
      · simp only [emplace, setConn, Function.update_of_ne hdc] at hp
        obtain hmem | hi | hi := h d (Nat.lt_of_le_of_ne (Nat.lt_succ_iff.mp hd) hdc) hp
        · rw [hcached] at hmem
          cases hmem
        · rw [ht] at hi
          cases hi
        · rw [(ManagePc.of_unlocked hfree).2] at hi
          cases hi
  | @start c g hi hg =>
      obtain ⟨sock, -, hstarted, -⟩ := start_ok (hs.lifecycle.inserted c hi) hg
      refine h.update rfl (by rw [hstarted.stats]; decide) rfl rfl fun d hdc hw => ?_
      refine hw.imp_left fun hd => absurd ?_ hdc
      exact (AcceptPc.inserted.inj (hi.symm.trans hd)).symm
  | listen hl =>
      refine h.keep (fun _ => rfl) rfl rfl fun c hw => hw.imp_left fun hi => ?_
      rw [hl] at hi
      cases hi
  | @io c e x effects _ hr =>
      have hne := react_ops_ne_nil hr
      refine h.update rfl ?_ rfl rfl fun _ _ hw => hw
      exact react_not_pending (hs.lifecycle.ok c) (fun hp => hne (hs.lifecycle.idle c hp)) hr
  | notify _ _ => exact h.manage fun c hw => by rwa [ManagePc.item?_notified]
  | @tickDone _ b _ _ =>
      refine h.keep (fun _ => rfl) rfl rfl fun c hw => hw.imp_right fun hi => ?_
      change (if b.notify = true then s.manage.notified else s.manage).item? = some (c, .washed)
      split
      · rwa [ManagePc.item?_notified]
      · exact hi
  | @shut _ d b _ _ =>
      refine h.keep (fun c => ?_) rfl rfl fun _ hw => hw
      by_cases hcd : c = d
      · simp [setConn, hcd, Session.perform]
      · simp [setConn, Function.update_of_ne hcd]
  | mark _ => exact h.update rfl (fun hp => by cases hp) rfl rfl fun _ _ hw => hw
  | wake hm => exact hdone hm fun c hw => by cases hw
  | timeout hm => exact hdone hm fun c hw => by cases hw
  | wait hm => exact hdone hm fun c hw => by cases hw
  | nothing hm _ => exact hdone hm fun c hw => by cases hw
  | beginPass hm _ => exact hdone hm fun c hw => by cases hw
  | showConns hm => exact hdone hm fun c hw => by cases hw
  | shownConns hm => exact hdone hm fun c hw => by cases hw
  | endPass hm _ =>
      exact (hdone hm fun c hw => by cases hw).keep (fun _ => rfl) rfl rfl fun _ hw => hw
  | pick hm _ => exact hdone hm fun c hw => by cases hw
  | absent hm _ => exact hdone hm fun c hw => by cases hw
  | skip hm _ _ =>
      exact (hdone hm fun c hw => by cases hw).keep (fun _ => rfl) rfl rfl fun _ hw => hw
  | test hm _ _ => exact hdone hm fun c hw => by cases hw
  | erase hm =>
      exact (hdone hm fun c hw => by cases hw).keep (fun _ => rfl) rfl rfl fun _ hw => hw
  | count hm =>
      refine h.keep (fun _ => rfl) rfl rfl fun c hw => hw.imp_right fun hi => ?_
      rw [hm] at hi
      cases hi
  | room hm _ => exact hdone hm fun c hw => by cases hw
  | noRoom hm _ => exact hdone hm fun c hw => by cases hw
  | @wash _ d todo conn hm _ =>
      intro e he hp
      by_cases hed : e = d
      · exact .inr (.inr (congrArg (fun x => some (x, PassStage.washed)) hed.symm))
      · simp only [setConn, Function.update_of_ne hed] at hp
        refine (h e he hp).imp_right fun hw => hw.imp_right fun hi => ?_
        rw [hm] at hi
        cases hi
  | @cache _ d todo hm =>
      intro e he hp
      obtain hmem | hi | hi := h e he hp
      · exact .inl (List.mem_append_left _ hmem)
      · exact .inr (.inl hi)
      · rw [hm] at hi
        cases hi
        exact .inl (List.mem_append_right _ (List.mem_singleton_self d))
  | _ => exact h

/-- A connection that the tick has found pending is
cached, up to the assertion. -/
def FoundCached (s : Server) : Prop :=
  ∀ c b, s.tick = .exam c .sawPending b → c ∈ s.cachedConns

/-- The accept handler does not take a connection that the tick holds:
its use count is not one. -/
theorem FoundCached.action (h : s.FoundCached) (hs : s.Sound cfg) (hp : s.Placed)
    (hread : ¬ s.ReadsUnderway l) (ha : Action cfg s l t) : t.FoundCached := by
  cases ha with
  | @recycle sock c cached _ _ hcached hone =>
      intro d b ht
      obtain ⟨-, -, -, -, htick, -⟩ := alone_of_useCount_one hone (hcached ▸ List.mem_cons_self)
      have hmem := h d b ht
      rw [hcached] at hmem
      refine (List.mem_cons.mp hmem).resolve_left fun hdc => htick ?_
      change s.tick = .exam d .sawPending b at ht
      rw [ht, hdc]
      rfl
  | @sawPending d c b ht hstats =>
      intro e b' he
      cases he
      obtain hc | hway := hp c (hs.known.tick c (by rw [ht]; rfl)) hstats
      · exact hc
      · exact absurd ⟨d, c, b, rfl, ht, hstats, hway⟩ hread
  | @cache _ d _ _ => exact fun c b ht => List.mem_append_left _ (h c b ht)
  | tickBegin _ => exact fun c b ht => by cases ht
  | tickDone _ _ => exact fun c b ht => by cases ht
  | tickDead _ _ _ => exact fun c b ht => by cases ht
  | tickLock _ _ _ => exact fun c b ht => by cases ht
  | sawOther _ _ => exact fun c b ht => by cases ht
  | dropCached _ _ => exact fun c b ht => by cases ht
  | expire _ _ => exact fun c b ht => by cases ht
  | keep _ _ => exact fun c b ht => by cases ht
  | shut _ _ => exact fun c b ht => by cases ht
  | mark _ => exact fun c b ht => by cases ht
  | tickPush _ _ => exact fun c b ht => by cases ht
  | release _ => exact fun c b ht => by cases ht
  | rotate _ _ => exact fun c b ht => by cases ht
  | _ => exact fun c b ht => h c b ht

end Server

end Ailawd
