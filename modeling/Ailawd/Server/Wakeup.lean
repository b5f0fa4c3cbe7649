import Ailawd.Server.Pool

/-!
# Wakeups of the manage thread

`push_to_remove` takes `conn_notify_mutex`, but `notify_one` is called after it has
been released, and the manage thread waits without looking at `pending_to_remove_`
first. A notification that comes while the thread is outside its wait is lost.

`Attended` is what the code relies on: while the thread waits and connections are
pending, somebody still owes it a notification. `no_lost_wakeup_iff` says that this
holds in every continuation by the manage thread exactly of the runs in which no
last owed notification is `Wasted`.
-/

namespace Ailawd

open Transition

/-- `notify_flag` is set, and `notify_one` has not been called yet,
as it is after the scan. -/
def TickPc.owes : TickPc → Bool
  | .scan b => b.notify
  | .exam _ _ b => b.notify
  | _ => false

namespace ManagePc

/-- The thread does not wait, and it will not look at `pending_to_remove_`
before it waits again. -/
def deaf : ManagePc → Bool
  | .outside => true
  | .timedOut => true
  | .showing => true
  | _ => false

/-- The thread is about to visit all of `pending_to_remove_`, or does so
with both mutexes held. -/
def attentive : ManagePc → Bool
  | .woken => true
  | .scan _ => true
  | .item _ _ _ => true
  | _ => false

theorem attentive_notified {m : ManagePc} (h : m.deaf = false) : m.notified.attentive = true := by
  cases m <;> first | rfl | cases h

theorem notified_of_deaf {m : ManagePc} (h : m.deaf = true) : m.notified = m := by
  cases m <;> first | rfl | cases h

end ManagePc

namespace Server

variable {cfg : Config} {s t u : Server} {l : Label} {moves : List (Move Server Label)}

/-- Some thread has finished `push_to_remove` and has not
called `notify_one` yet. -/
def Owed (s : Server) : Prop := s.notifying ≠ ∅ ∨ s.tick.owes = true

/-- No wakeup is lost in this state: a thread that waits for pending
connections has a notification coming. -/
def Attended (s : Server) : Prop :=
  s.manage = .waiting → s.pendingToRemove ≠ ∅ → s.Owed

/-- The step calls `notify_one`, and no other thread owes a notification. What
it does not reach nobody will. -/
inductive LastNotice (s : Server) : Label → Prop where
  | handler {c} : c ∉ s.pushing → s.notifying = {c} → s.tick.owes = false →
      LastNotice s (.handler c)
  | tick {c b} : s.notifying = ∅ → s.tick = .scan b → b.rest = ∅ → b.notify = true →
      LastNotice s (.tick c)

/-- The last owed notification comes while connections are pending and the
manage thread neither waits nor is going to look at them. -/
def Wasted (s : Server) (l : Label) : Prop :=
  s.LastNotice l ∧ s.pendingToRemove ≠ ∅ ∧ s.manage.deaf = true

/-- The invariant behind `Attended`: pending connections have a notification
under way, or the manage thread is about to visit them. -/
def Heard (s : Server) : Prop :=
  s.pendingToRemove ≠ ∅ → s.Owed ∨ s.manage.attentive = true

theorem Heard.attended (h : s.Heard) : s.Attended := by
  intro hwaiting hpending
  obtain howed | hbusy := h hpending
  · exact howed
  · rw [hwaiting] at hbusy
    cases hbusy

private theorem Heard.of_eq (h : s.Heard) (hpending : t.pendingToRemove = s.pendingToRemove)
    (howed : s.Owed → t.Owed)
    (hmanage : s.manage.attentive = true → t.manage.attentive = true) : t.Heard := by
  intro hp
  rw [hpending] at hp
  exact (h hp).imp howed hmanage

private theorem Heard.of_tick (h : s.Heard) (hpending : t.pendingToRemove = s.pendingToRemove)
    (hnotifying : t.notifying = s.notifying) (hmanage : t.manage = s.manage)
    (htick : t.tick.owes = s.tick.owes) : t.Heard := by
  apply h.of_eq hpending
  · rintro (hn | ht)
    · exact .inl (hnotifying ▸ hn)
    · exact .inr (htick.trans ht)
  · rw [hmanage]
    exact id

/-- A notification reaches a thread that waits, and one that is not going to
look has another one coming. -/
private theorem heard_notified (hmanage : t.manage = s.manage.notified)
    (hspare : t.pendingToRemove ≠ ∅ → s.manage.deaf = true → t.Owed) : t.Heard := by
  intro hp
  cases hdeaf : s.manage.deaf with
  | true => exact .inl (hspare hp hdeaf)
  | false =>
      rw [hmanage]
      exact .inr (ManagePc.attentive_notified hdeaf)

theorem Heard.action (h : s.Heard) (hkept : ¬ s.Wasted l) (ha : Action cfg s l t) : t.Heard := by
  cases ha with
  | push _ _ => exact fun _ => .inl (.inl (Finset.insert_ne_empty _ _))
  | @notify c hp hn =>
      apply heard_notified (s := s) rfl
      intro hpending hdeaf
      by_contra hlast
      obtain ⟨hlast, htick⟩ := not_or.mp hlast
      have honly : s.notifying = {c} := by
        have hempty := Finset.erase_eq_empty_iff _ _ |>.mp (not_not.mp hlast)
        exact hempty.resolve_left (Finset.ne_empty_of_mem hn)
      exact hkept ⟨.handler hp honly (Bool.not_eq_true _ ▸ htick), hpending, hdeaf⟩
  | tickBegin ht =>
      refine h.of_eq rfl (fun howed => .inl ?_) id
      obtain hn | htick := howed
      · exact hn
      · rw [ht] at htick
        cases htick
  | @tickDone c b ht hrest =>
      cases hb : b.notify with
      | true =>
          apply heard_notified (s := s) (by simp)
          intro hpending hdeaf
          by_contra hlast
          have hnone := not_not.mp (not_or.mp hlast).1
          exact hkept ⟨.tick hnone ht hrest hb, hpending, hdeaf⟩
      | false =>
          refine h.of_eq rfl (fun howed => .inl ?_) (by simp)
          obtain hn | htick := howed
          · exact hn
          · rw [ht] at htick
            exact absurd (hb.symm.trans htick) (by decide)
  | tickPush _ _ => exact fun _ => .inl (.inr rfl)
  | tickDead ht _ _ => exact h.of_tick rfl rfl rfl (by rw [ht]; rfl)
  | tickLock ht _ _ => exact h.of_tick rfl rfl rfl (by rw [ht]; rfl)
  | sawPending ht _ => exact h.of_tick rfl rfl rfl (by rw [ht]; rfl)
  | sawOther ht _ => exact h.of_tick rfl rfl rfl (by rw [ht]; rfl)
  | dropCached ht _ => exact h.of_tick rfl rfl rfl (by rw [ht]; rfl)
  | expire ht _ => exact h.of_tick rfl rfl rfl (by rw [ht]; rfl)
  | keep ht _ => exact h.of_tick rfl rfl rfl (by rw [ht]; rfl)
  | shut ht _ => exact h.of_tick rfl rfl rfl (by rw [ht]; rfl)
  | mark ht => exact h.of_tick rfl rfl rfl (by rw [ht]; rfl)
  | release ht => exact h.of_tick rfl rfl rfl (by rw [ht]; rfl)
  | rotate ht _ => exact h.of_tick rfl rfl rfl (by rw [ht]; rfl)
  | wake hm => exact fun _ => .inr rfl
  | timeout hm => exact h.of_eq rfl id (by rw [hm]; exact id)
  | wait hm => exact h.of_eq rfl id (by rw [hm]; exact id)
  | nothing _ hnone => exact fun hp => absurd hnone hp
  | showConns hm => exact h.of_eq rfl id (by rw [hm]; exact id)
  | shownConns hm => exact h.of_eq rfl id (by rw [hm]; exact id)
  | endPass _ _ => exact fun hp => absurd rfl hp
  | beginPass _ _ => exact fun _ => .inr rfl
  | pick _ _ => exact fun _ => .inr rfl
  | absent _ _ => exact fun _ => .inr rfl
  | skip _ _ _ => exact fun _ => .inr rfl
  | test _ _ _ => exact fun _ => .inr rfl
  | erase _ => exact fun _ => .inr rfl
  | count _ => exact fun _ => .inr rfl
  | room _ _ => exact fun _ => .inr rfl
  | noRoom _ _ => exact fun _ => .inr rfl
  | wash _ _ => exact fun _ => .inr rfl
  | cache _ => exact fun _ => .inr rfl
  | _ => exact h

theorem heard_of_run (hr : Run (step cfg) init moves s)
    (hkept : ∀ m ∈ moves, ¬ Wasted m.pre m.label) : s.Heard := by
  apply hr.invariant_of (P := fun m => ¬ Wasted m.pre m.label) hkept
  · exact fun hp => absurd rfl hp
  · exact fun _ _ _ h hkept hs => h.action hkept (step_action hs)

/-- Connections are pending and no notification is coming. Whoever waits then
waits for another failure. -/
def Abandoned (s : Server) : Prop := s.pendingToRemove ≠ ∅ ∧ ¬ s.Owed

theorem Abandoned.not_attended (h : s.Abandoned) (hm : s.manage = .waiting) : ¬ s.Attended :=
  fun ha => h.2 (ha hm h.1)

/-- The last notification is gone after the step, and the
thread is where it was. -/
theorem Wasted.abandoned (h : s.Wasted l) (hs : step cfg s l = .ok t) :
    t.Abandoned ∧ t.manage.deaf = true := by
  obtain ⟨hlast, hpending, hdeaf⟩ := h
  have hnotified : s.manage.notified = s.manage := ManagePc.notified_of_deaf hdeaf
  cases hlast with
  | @handler c hp honly htick =>
      have hc : c ∈ s.notifying := by simp [honly]
      simp only [step, handlerStep, if_neg hp, if_pos hc, hnotified] at hs
      obtain rfl := Except.ok.inj hs
      refine ⟨⟨hpending, ?_⟩, hdeaf⟩
      rintro (hn | ht)
      · exact hn (by simp [honly])
      · exact absurd (htick.symm.trans ht) (by decide)
  | tick hnone hscan hrest hnotify =>
      simp only [step, tickStep, hscan, if_pos hrest, hnotify, if_true, hnotified] at hs
      obtain rfl := Except.ok.inj hs
      refine ⟨⟨hpending, ?_⟩, hdeaf⟩
      rintro (hn | ht)
      · exact hn hnone
      · cases ht

def IsManage (l : Label) : Prop := ∃ c, l = .manage c

theorem IsManage.not_wasted (h : IsManage l) : ¬ s.Wasted l := by
  obtain ⟨c, rfl⟩ := h
  rintro ⟨hlast, -⟩
  cases hlast

/-- A wakeup is lost if the manage thread alone goes on: it comes to a state
that is not attended. -/
def Lost (cfg : Config) (s : Server) : Prop :=
  ∃ more t, Run (step cfg) s more t ∧ (∀ m ∈ more, IsManage m.label) ∧ ¬ t.Attended

theorem Lost.of_step {c : ConnId} (h : Lost cfg t) (hs : step cfg s (.manage c) = .ok t) :
    Lost cfg s := by
  obtain ⟨more, u, hu, hmore, hlost⟩ := h
  refine ⟨_, u, (Run.nil.snoc hs).append hu, ?_, hlost⟩
  exact List.forall_mem_append.mpr ⟨List.forall_mem_singleton.mpr ⟨c, rfl⟩, hmore⟩

/-- Left alone, the thread goes on to wait, by a few steps of its own. -/
theorem Abandoned.lost (h : s.Abandoned) (hdeaf : s.manage.deaf = true) : Lost cfg s := by
  have waits : Lost cfg { s with manage := .waiting } :=
    ⟨[], _, .nil, fun _ hm => absurd hm List.not_mem_nil,
      Abandoned.not_attended (s := { s with manage := .waiting }) h rfl⟩
  have begins : Lost cfg { s with manage := .outside } := waits.of_step (c := 0) rfl
  have shows : Lost cfg { s with manage := .showing } := begins.of_step (c := 0) rfl
  cases hm : s.manage with
  | outside => exact waits.of_step (c := 0) (by simp only [step, manageStep, hm])
  | timedOut => exact shows.of_step (c := 0) (by simp only [step, manageStep, hm])
  | showing => exact begins.of_step (c := 0) (by simp only [step, manageStep, hm])
  | _ =>
      rw [hm] at hdeaf
      cases hdeaf

/-- No wakeup is lost in a state of the run, nor if the manage
thread goes on alone from it. -/
def NoLostWakeup (cfg : Config) (moves : List (Move Server Label)) : Prop :=
  ∀ front back u, moves = front ++ back → Run (step cfg) init front u →
    u.Attended ∧ ¬ Lost cfg u

/-- The manage thread misses no wakeup in exactly the runs in which it never is
on its way to the wait when the last notification for pending connections
comes. -/
theorem no_lost_wakeup_iff (hr : Run (step cfg) init moves s) :
    (∀ m ∈ moves, ¬ Wasted m.pre m.label) ↔ NoLostWakeup cfg moves := by
  constructor
  · rintro hkept front back u rfl hu
    have hfront := fun m hm => hkept m (List.mem_append_left back hm)
    refine ⟨(heard_of_run hu hfront).attended, ?_⟩
    rintro ⟨more, v, hv, hmore, hlost⟩
    refine hlost (heard_of_run (hu.append hv) (List.forall_mem_append.mpr ⟨hfront, ?_⟩)).attended
    exact fun m hm => (hmore m hm).not_wasted
  · rintro hnone ⟨pre, l, post⟩ hm hwasted
    obtain ⟨front, back, rfl⟩ := List.append_of_mem hm
    have hstep : step cfg pre l = .ok post := hr.step_of_mem _ hm
    obtain ⟨habandoned, hdeaf⟩ := hwasted.abandoned hstep
    have hlost := (hnone (front ++ [⟨pre, l, post⟩]) back post (by simp) (hr.before.snoc hstep)).2
    exact hlost (habandoned.lost hdeaf)

/-- A connection is accepted while the manage thread
waits, and its read fails. -/
def heardFailure : List Label :=
  [.manage 0, .accepted .peer, .accept, .accept, .accept,
    .io 0 (.complete 0 .other [] (.refusing 0)), .handler 0, .handler 0]

theorem no_lost_wakeup_iff_heard : ∃ moves s, Run (step smallConfig) init moves s ∧
    moves.map Move.label = heardFailure ∧ s.pendingToRemove = {0} ∧ s.manage = .woken ∧
    ((∀ m ∈ moves, ¬ Wasted m.pre m.label) ↔ NoLostWakeup smallConfig moves) := by
  obtain ⟨moves, s, hr, hlabels, hpending, hwoken⟩ :=
    run_of_reaches (step smallConfig) init heardFailure
      (p := fun s => s.pendingToRemove = {0} ∧ s.manage = .woken) (by decide +kernel)
  exact ⟨moves, s, hr, hlabels, hpending, hwoken, no_lost_wakeup_iff hr⟩

/-- The same failure just before the manage thread gets to its wait: the
connection is pending, nobody is going to notify, and the thread waits. -/
theorem wakeup_lost_before_wait : ∃ moves s, Run (step smallConfig) init moves s ∧
    s.manage = .waiting ∧ 0 ∈ s.pendingToRemove ∧ s.notifying = ∅ ∧ s.tick = .idle ∧
    ¬ s.Attended := by
  obtain ⟨moves, s, hr, -, hwaiting, hpending, hnotifying, htick⟩ :=
    run_of_reaches (step smallConfig) init
      [.accepted .peer, .accept, .accept, .accept,
        .io 0 (.complete 0 .other [] (.refusing 0)), .handler 0, .handler 0, .manage 0]
      (p := fun s => s.manage = .waiting ∧ 0 ∈ s.pendingToRemove ∧ s.notifying = ∅ ∧
        s.tick = .idle) (by decide +kernel)
  refine ⟨moves, s, hr, hwaiting, hpending, hnotifying, htick, fun hattended => ?_⟩
  have hne : s.pendingToRemove ≠ ∅ := Finset.ne_empty_of_mem hpending
  obtain hn | ht := hattended hwaiting hne
  · exact hn hnotifying
  · rw [htick] at ht
    cases ht

end Server

end Ailawd
