import Ailawd.Server.Pool

/-!
# Supervision

Every served connection is met by the timing wheel again or is waiting for the
manage thread. While a tick filters its copy of the front slot, that slot is still
in the wheel; what counts is that the copy, the entry under examination or another
slot has the connection. While a pass runs, the pending set is about to be cleared;
what counts is that the connection is still to be visited, or has been put back into
the wheel.
-/

namespace Ailawd

open Transition ByteString

/-- What the next push of the wheel keeps of the front slot, once the entry
under examination has been dealt with. -/
def TickPc.Keeps (tick : TickPc) (c : ConnId) : Prop :=
  match tick with
  | .idle => True
  | .scan b => c ∈ b.modi
  | .exam d stage b => c ∈ b.modi ∨ d = c ∧ (stage = .expired ∨ stage = .shut ∨ stage = .marked)
  | .finishing modi => c ∈ modi

/-- The pending connections that a pass has not dealt with. Outside a pass
these are all of them. -/
def ManagePc.toVisit (pending : Finset ConnId) : ManagePc → Finset ConnId
  | .scan todo => todo
  | .item c .picked todo => insert c todo
  | .item c .tested todo => insert c todo
  | .item _ _ todo => todo
  | _ => pending

/-- The wheel will meet the connection: in a later slot, or in the front slot
if the tick keeps it or has still to meet it. -/
def InWheel (wheel : List (Finset ConnId)) (tick : TickPc) (c : ConnId) : Prop :=
  Wheel.Holds wheel.tail c ∨ c ∈ wheel.headD ∅ ∧ tick.Keeps c

/-- The supervision invariant, over the parts of the server that it is about:
in the wheel, or among the removals to come. -/
structure Supervised (front pending : Finset ConnId) (wheel : List (Finset ConnId))
    (tick : TickPc) (manage : ManagePc) : Prop where
  slots : 2 ≤ wheel.length
  watched : ∀ c ∈ front, InWheel wheel tick c ∨ c ∈ manage.toVisit pending
  pending : manage.toVisit pending ⊆ pending

section InWheel

variable {wheel : List (Finset ConnId)} {tick tick' : TickPc} {c d : ConnId}

theorem InWheel.holds (h : InWheel wheel tick c) : Wheel.Holds wheel c :=
  Wheel.holds_iff.mpr (h.elim .inr fun h => .inl h.1)

theorem InWheel.mono (h : InWheel wheel tick c) (hk : tick.Keeps c → tick'.Keeps c) :
    InWheel wheel tick' c :=
  h.imp_right fun h => ⟨h.1, hk h.2⟩

theorem InWheel.of_holds (h : Wheel.Holds wheel c) : InWheel wheel .idle c :=
  (Wheel.holds_iff.mp h).elim (fun h => .inr ⟨h, trivial⟩) .inl

/-- A connection entered at the back is met in a later turn, and the others
stay where they are. -/
theorem inWheel_insertBack (hslots : 2 ≤ wheel.length) :
    InWheel (Wheel.insertBack wheel d) tick c ↔ c = d ∨ InWheel wheel tick c := by
  cases wheel with
  | nil => exact absurd hslots (by decide)
  | cons front back =>
      have hback : back ≠ [] := by
        rintro rfl
        exact absurd hslots (Nat.not_succ_le_self 1)
      simp only [InWheel, Wheel.insertBack_cons hback, List.tail_cons, List.headD_cons,
        Wheel.holds_insertBack]
      exact or_assoc

/-- The push at the end of a tick keeps what the tick kept, and drops the
rest of the front slot. -/
theorem inWheel_rotate {modi : Finset ConnId} (h : InWheel wheel (.finishing modi) c) :
    InWheel (Wheel.rotate wheel modi) .idle c :=
  InWheel.of_holds (Wheel.holds_rotate.mpr (h.imp_right And.right))

end InWheel

namespace ManagePc

theorem toVisit_of_unlocked {m : ManagePc} (h : m.locked = false) (pending : Finset ConnId) :
    m.toVisit pending = pending := by
  cases m <;> first | rfl | cases h

theorem toVisit_notified (m : ManagePc) (pending : Finset ConnId) :
    m.notified.toVisit pending = m.toVisit pending := by
  cases m <;> rfl

end ManagePc

namespace Supervised

variable {front front' pending pending' : Finset ConnId} {wheel : List (Finset ConnId)}
variable {tick tick' : TickPc} {manage manage' : ManagePc} {c : ConnId}

theorem ofTick (h : Supervised front pending wheel tick manage)
    (hk : ∀ c ∈ front, tick.Keeps c → tick'.Keeps c) :
    Supervised front pending wheel tick' manage :=
  ⟨h.slots, fun c hc => (h.watched c hc).imp_left fun hw => hw.mono (hk c hc), h.pending⟩

theorem ofManage (h : Supervised front pending wheel tick manage) (hfront : front' ⊆ front)
    (hv : ∀ c ∈ front', c ∈ manage.toVisit pending → c ∈ manage'.toVisit pending)
    (hp : manage'.toVisit pending ⊆ pending) :
    Supervised front' pending wheel tick manage' :=
  ⟨h.slots, fun c hc => (h.watched c (hfront hc)).imp_right (hv c hc), hp⟩

theorem congrManage (h : Supervised front pending wheel tick manage)
    (hv : manage'.toVisit pending = manage.toVisit pending) :
    Supervised front pending wheel tick manage' :=
  ⟨h.slots, hv ▸ h.watched, hv ▸ h.pending⟩

theorem insertFront (h : Supervised front pending wheel tick manage) :
    Supervised (insert c front) pending (Wheel.insertBack wheel c) tick manage := by
  have hne : wheel ≠ [] := List.ne_nil_of_length_pos (Nat.lt_of_lt_of_le Nat.zero_lt_two h.slots)
  refine ⟨(Wheel.length_insertBack hne).symm ▸ h.slots, fun d hd => ?_, h.pending⟩
  rw [inWheel_insertBack h.slots]
  obtain rfl | hd := Finset.mem_insert.mp hd
  · exact .inl (.inl rfl)
  · exact (h.watched d hd).imp_left .inr

theorem push (h : Supervised front pending wheel tick manage) (hfree : manage.locked = false)
    (hk : ∀ d ∈ front, tick.Keeps d → d = c ∨ tick'.Keeps d) :
    Supervised front (insert c pending) wheel tick' manage := by
  have hvisit := ManagePc.toVisit_of_unlocked hfree
  refine ⟨h.slots, fun d hd => ?_, (hvisit _).subset⟩
  have hw := h.watched d hd
  rw [hvisit] at hw ⊢
  obtain (htail | ⟨hhead, hkeeps⟩) | hpending := hw
  · exact .inl (.inl htail)
  · obtain rfl | hkeeps := hk d hd hkeeps
    · exact .inr (Finset.mem_insert_self d pending)
    · exact .inl (.inr ⟨hhead, hkeeps⟩)
  · exact .inr (Finset.mem_insert_of_mem hpending)

end Supervised

namespace Server

variable {cfg : Config} {s t : Server}

/-- The invariant of the server. Entries may be stale, but no served connection
is without one whose removal nobody has asked for. -/
def IsSupervised (s : Server) : Prop :=
  Supervised s.frontConns s.pendingToRemove s.timingWheel s.tick s.manage

theorem isSupervised_init : IsSupervised init :=
  ⟨by decide, fun c hc => absurd hc (Finset.notMem_empty c), Finset.Subset.refl _⟩

theorem not_mem_frontConns_of_useCount {c : ConnId} (h : s.useCount c = 0) : c ∉ s.frontConns := by
  intro hc
  simp only [useCount, if_pos hc] at h
  omega

theorem IsSupervised.action {l : Label} (h : s.IsSupervised) (hp : s.Accounted cfg)
    (ha : Action cfg s l t) : t.IsSupervised := by
  cases ha with
  | recycle _ _ _ _ => exact h.insertFront
  | create _ _ _ => exact h.insertFront
  | push _ hfree => exact h.push hfree fun _ _ hk => .inr hk
  | notify _ _ => exact h.congrManage (ManagePc.toVisit_notified _ _)
  | tickBegin _ =>
      refine ⟨h.slots, fun c hc => ?_, h.pending⟩
      exact (h.watched c hc).imp_left fun hw =>
        (Wheel.holds_iff.mp hw.holds).elim (fun hhead => .inr ⟨hhead, hhead⟩) .inl
  | @tickDone _ b ht _ =>
      have hs : Supervised s.frontConns s.pendingToRemove s.timingWheel (.finishing b.modi)
          s.manage := h.ofTick fun c _ hk => by rw [ht] at hk; exact hk
      change Supervised s.frontConns s.pendingToRemove s.timingWheel (.finishing b.modi)
        (if b.notify = true then s.manage.notified else s.manage)
      split
      · exact hs.congrManage (ManagePc.toVisit_notified _ _)
      · exact hs
  | tickDead ht _ hdead =>
      apply h.ofTick
      intro d hd hk
      rw [ht] at hk
      refine Finset.mem_erase.mpr ⟨?_, hk⟩
      rintro rfl
      exact not_mem_frontConns_of_useCount hdead hd
  | tickLock ht _ _ =>
      apply h.ofTick
      intro d _ hk
      rw [ht] at hk
      exact .inl hk
  | sawPending ht _ =>
      apply h.ofTick
      intro d _ hk
      rw [ht] at hk
      exact hk.imp_right fun hd => by simp at hd
  | sawOther ht _ =>
      apply h.ofTick
      intro d _ hk
      rw [ht] at hk
      exact hk.imp_right fun hd => by simp at hd
  | dropCached ht hcached =>
      apply h.ofTick
      intro d hd hk
      rw [ht] at hk
      obtain hk | hk := hk
      · refine .inl (Finset.mem_erase.mpr ⟨?_, hk⟩)
        rintro rfl
        exact hp.disjoint _ hcached hd
      · simp at hk
  | @expire _ e b ht _ =>
      apply h.ofTick
      intro d _ hk
      rw [ht] at hk
      obtain hk | hk := hk
      · by_cases hde : e = d
        · exact .inr ⟨hde, .inl rfl⟩
        · exact .inl (Finset.mem_erase.mpr ⟨fun heq => hde heq.symm, hk⟩)
      · simp at hk
  | keep ht _ =>
      apply h.ofTick
      intro d _ hk
      rw [ht] at hk
      exact hk.imp_right fun hd => by simp at hd
  | shut ht _ =>
      apply h.ofTick
      intro d _ hk
      rw [ht] at hk
      exact hk.imp_right fun hd => ⟨hd.1, .inr (.inl rfl)⟩
  | mark ht =>
      apply h.ofTick
      intro d _ hk
      rw [ht] at hk
      exact hk.imp_right fun hd => ⟨hd.1, .inr (.inr rfl)⟩
  | tickPush ht hfree =>
      apply h.push hfree
      intro d _ hk
      rw [ht] at hk
      obtain hk | ⟨heq, -⟩ := hk
      · exact .inr (.inl hk)
      · exact .inl heq.symm
  | release ht =>
      apply h.ofTick
      intro d _ hk
      rw [ht] at hk
      obtain hk | hk := hk
      · exact hk
      · simp at hk
  | @rotate _ modi ht _ =>
      have hne : s.timingWheel ≠ [] :=
        List.ne_nil_of_length_pos (Nat.lt_of_lt_of_le Nat.zero_lt_two h.slots)
      refine ⟨(Wheel.length_rotate hne).symm ▸ h.slots, fun c hc => ?_, h.pending⟩
      refine (h.watched c hc).imp_left fun hw => inWheel_rotate ?_
      rwa [ht] at hw
  | wake hm => exact h.congrManage (by rw [hm]; rfl)
  | timeout hm => exact h.congrManage (by rw [hm]; rfl)
  | wait hm => exact h.congrManage (by rw [hm]; rfl)
  | nothing hm _ => exact h.congrManage (by rw [hm]; rfl)
  | beginPass hm _ => exact h.congrManage (by rw [hm]; rfl)
  | showConns hm => exact h.congrManage (by rw [hm]; rfl)
  | shownConns hm => exact h.congrManage (by rw [hm]; rfl)
  | endPass hm _ =>
      refine ⟨h.slots, fun c hc => .inl ?_, Finset.Subset.refl _⟩
      have hw := h.watched c hc
      rw [hm] at hw
      exact hw.resolve_right (Finset.notMem_empty c)
  | pick hm hc =>
      apply h.congrManage
      rw [hm]
      exact Finset.insert_erase hc
  | @absent _ d todo hm hd =>
      have hpending := h.pending
      rw [hm] at hpending
      refine h.ofManage (Finset.Subset.refl _) (fun c hc hv => ?_)
        ((Finset.subset_insert d todo).trans hpending)
      rw [hm] at hv
      obtain rfl | hv := Finset.mem_insert.mp hv
      · exact absurd hc hd
      · exact hv
  | @skip _ d todo hm hd _ =>
      have hpending := h.pending
      rw [hm] at hpending
      have hins := h.insertFront (c := d)
      rw [Finset.insert_eq_of_mem hd] at hins
      refine ⟨hins.slots, fun c hc => ?_, (Finset.subset_insert d todo).trans hpending⟩
      change InWheel (Wheel.insertBack s.timingWheel d) s.tick c ∨ c ∈ todo
      rw [inWheel_insertBack h.slots]
      have hw := h.watched c hc
      rw [hm] at hw
      obtain hw | hw := hw
      · exact .inl (.inr hw)
      · exact (Finset.mem_insert.mp hw).imp_left .inl
  | test hm _ _ => exact h.congrManage (by rw [hm]; rfl)
  | @erase _ d todo hm =>
      have hpending := h.pending
      rw [hm] at hpending
      refine h.ofManage (Finset.erase_subset d s.frontConns) (fun c hc hv => ?_)
        ((Finset.subset_insert d todo).trans hpending)
      rw [hm] at hv
      exact (Finset.mem_insert.mp hv).resolve_left (Finset.ne_of_mem_erase hc)
  | count hm => exact h.congrManage (by rw [hm]; rfl)
  | room hm _ => exact h.congrManage (by rw [hm]; rfl)
  | noRoom hm _ => exact h.congrManage (by rw [hm]; rfl)
  | wash hm _ => exact h.congrManage (by rw [hm]; rfl)
  | cache hm => exact h.congrManage (by rw [hm]; rfl)
  | _ => exact h

/-- No connection escapes supervision: each served one is in the wheel, or its
removal is under way. -/
theorem connections_supervised {moves : List (Move Server Label)}
    (hr : Run (step cfg) init moves s) :
    ∀ c ∈ s.frontConns, (∃ slot ∈ s.timingWheel, c ∈ slot) ∨ c ∈ s.pendingToRemove := by
  have hinv : s.Accounted cfg ∧ s.IsSupervised := by
    refine hr.invariant (I := fun s => s.Accounted cfg ∧ s.IsSupervised)
      ⟨accounted_init, isSupervised_init⟩ fun s l t h hs => ?_
    exact ⟨h.1.action (step_action hs), h.2.action h.1 (step_action hs)⟩
  intro c hc
  exact (hinv.2.watched c hc).imp InWheel.holds fun hv => hinv.2.pending hv

theorem connections_supervised_one : ∃ moves s, Run (step smallConfig) init moves s ∧
    s.frontConns = {0} ∧ s.tick.conn = some 0 ∧
    ∀ c ∈ s.frontConns, (∃ slot ∈ s.timingWheel, c ∈ slot) ∨ c ∈ s.pendingToRemove := by
  obtain ⟨moves, s, hr, -, hfront, htick⟩ :=
    run_of_reaches (step smallConfig) init
      ([.accepted .peer, .accept, .accept, .accept] ++ List.replicate 29 (.tick 0))
      (p := fun s => s.frontConns = {0} ∧ s.tick.conn = some 0) (by decide +kernel)
  exact ⟨moves, s, hr, hfront, htick, connections_supervised hr⟩

end Server

end Ailawd
