import Ailawd.Connection.Reactions
import Ailawd.Model.Listener
import Ailawd.Server.Actions

/-!
# One accept at a time

An accept is outstanding, or one handler still has its `do_accept()` to call: `pending` counts
both. It never exceeds one; an error code or an exception brings it to none, and then no accept
is ever started again. `exists_listener_run` says that the accept thread of `Server` is such a
listener.
-/

namespace Ailawd

open Transition

/-- The handler comes to its `do_accept()` if nothing throws. The first test of
an error code leaves without it. -/
def AcceptPoint.owes : AcceptPoint → Bool
  | .entered ec => ec = .success
  | .leave => false
  | _ => true

/-- The accept completes without an error, and no call throws. Refusing a
client continues as well. -/
def ListenerLabel.Continues : ListenerLabel → Prop
  | .complete ec => ec = .success
  | .handler _ outcome => outcome ≠ .throws

instance (l : ListenerLabel) : Decidable l.Continues := by
  cases l <;> unfold ListenerLabel.Continues <;> infer_instance

def AcceptNext.owed : AcceptNext → Nat
  | .goto p => p.owes.toNat
  | .acceptAgain => 1
  | .exit => 0
  | .terminate => 0

/-- A statement that returns hands the duty on to the next
one, or starts the accept. -/
theorem AcceptPoint.owed_next {p : AcceptPoint} {outcome : AcceptOutcome} {n : AcceptNext}
    (h : p.next outcome = some n) (hreturns : outcome ≠ .throws) : n.owed = p.owes.toNat := by
  cases p with
  | entered ec =>
      cases outcome with
      | returns =>
          simp only [next] at h
          split at h
          next hec =>
            obtain rfl := Option.some.inj h
            simp [AcceptNext.owed, owes, hec]
          next hec =>
            obtain rfl := Option.some.inj h
            simp [AcceptNext.owed, owes, hec]
      | full => cases h
      | throws => exact absurd rfl hreturns
  | limitTest => cases outcome <;> cases h <;> rfl
  | _ =>
      cases outcome with
      | returns =>
          obtain rfl := Option.some.inj h
          rfl
      | full => cases h
      | throws => exact absurd rfl hreturns

/-- Only an exception ends the process; every other statement leads
on, or out of the handler. -/
theorem AcceptPoint.next_eq_terminate {p : AcceptPoint} {outcome : AcceptOutcome}
    (h : p.next outcome = some .terminate) : outcome = .throws := by
  cases outcome with
  | throws => rfl
  | full => cases p <;> cases h
  | returns =>
      cases p with
      | entered ec =>
          simp only [next] at h
          split at h <;> cases h
      | _ => cases h

theorem AcceptPoint.next_throws {p : AcceptPoint} {n : AcceptNext}
    (h : p.next .throws = some n) : n = .terminate := by
  cases p <;> cases h <;> rfl

namespace Listener

/-- The accepts that are outstanding or will be started by a handler under
way, over all handlers. -/
def pending (s : Listener) : Nat := s.outstanding + s.handlers.countP AcceptPoint.owes

section Pending

variable {s t : Listener} {l : ListenerLabel}
variable {moves : List (Move Listener ListenerLabel)}

private theorem countP_cons_owes (p : AcceptPoint) (ps : List AcceptPoint) :
    (p :: ps).countP AcceptPoint.owes = ps.countP AcceptPoint.owes + p.owes.toNat := by
  cases hp : p.owes <;> simp [hp]

private theorem pending_handler {i : Nat} {p : AcceptPoint} (hp : s.handlers[i]? = some p) :
    (∀ q, (⟨s.outstanding, s.handlers.set i q⟩ : Listener).pending + p.owes.toNat =
        s.pending + q.owes.toNat) ∧
      (⟨s.outstanding, s.handlers.eraseIdx i⟩ : Listener).pending + p.owes.toNat = s.pending := by
  obtain ⟨front, back, hlist, herase, hset⟩ := split_of_getElem? hp
  have hcount : s.handlers.countP AcceptPoint.owes =
      front.countP AcceptPoint.owes + back.countP AcceptPoint.owes + p.owes.toNat := by
    rw [hlist, List.countP_append, countP_cons_owes, Nat.add_assoc]
  refine ⟨fun q => ?_, ?_⟩
  · simp only [pending, hcount, hset, List.countP_append, countP_cons_owes]
    omega
  · simp only [pending, hcount, herase, List.countP_append]
    omega

/-- A step keeps what is pending, or loses an accept,
which nothing gives back. -/
theorem pending_step (hs : s.step l = .ok t) : (l.Continues → t.pending = s.pending) ∧
    (¬ l.Continues → t.pending ≤ s.pending - 1) := by
  cases l with
  | complete ec =>
      simp only [step] at hs
      split at hs
      · cases hs
      next n hn =>
        obtain rfl := Except.ok.inj hs
        have hcount : (s.handlers ++ [AcceptPoint.entered ec]).countP AcceptPoint.owes =
            s.handlers.countP AcceptPoint.owes + (AcceptPoint.entered ec).owes.toNat := by
          rw [List.countP_append, countP_cons_owes, List.countP_nil, Nat.zero_add]
        simp only [pending, hcount, hn]
        refine ⟨fun hec => ?_, fun hec => ?_⟩
        · have howes : (AcceptPoint.entered ec).owes.toNat = 1 := by
            obtain rfl : ec = .success := hec
            rfl
          omega
        · have howes : (AcceptPoint.entered ec).owes.toNat = 0 := by
            simpa [AcceptPoint.owes, ListenerLabel.Continues] using hec
          omega
  | handler i outcome =>
      simp only [step] at hs
      split at hs
      · cases hs
      next p hp =>
        obtain ⟨hset, herase⟩ := pending_handler hp
        by_cases hthrows : outcome = .throws
        · subst hthrows
          refine ⟨fun hc => absurd rfl hc, fun _ => ?_⟩
          split at hs
          · cases hs
          next hnext => cases AcceptPoint.next_throws hnext
          next hnext => cases AcceptPoint.next_throws hnext
          next hnext => cases AcceptPoint.next_throws hnext
          next =>
            obtain rfl := Except.ok.inj hs
            exact Nat.zero_le _
        · refine ⟨fun _ => ?_, fun hc => absurd hthrows hc⟩
          split at hs
          · cases hs
          next q hnext =>
            obtain rfl := Except.ok.inj hs
            have howed : q.owes.toNat = p.owes.toNat := AcceptPoint.owed_next hnext hthrows
            have := hset q
            omega
          next hnext =>
            obtain rfl := Except.ok.inj hs
            have howed : 1 = p.owes.toNat := AcceptPoint.owed_next hnext hthrows
            have hleave : (AcceptPoint.leave).owes.toNat = 0 := rfl
            have := hset .leave
            simp only [pending] at this ⊢
            omega
          next hnext =>
            obtain rfl := Except.ok.inj hs
            have howed : 0 = p.owes.toNat := AcceptPoint.owed_next hnext hthrows
            omega
          next hnext => exact absurd (AcceptPoint.next_eq_terminate hnext) hthrows

/-- One accept is pending until one completes with an error or a call throws,
and none is from then on. -/
theorem pending_run (h : Run step init moves s) :
    s.pending ≤ 1 ∧ (s.pending = 1 ↔ ∀ m ∈ moves, m.label.Continues) := by
  induction h with
  | nil => exact ⟨Nat.le_refl 1, by simp [pending, init]⟩
  | @snoc moves s l t _ hs ih =>
      obtain ⟨hle, hiff⟩ := ih
      obtain ⟨hkeeps, hloses⟩ := pending_step hs
      rw [List.forall_mem_append, List.forall_mem_singleton, ← hiff]
      by_cases hc : l.Continues
      · have := hkeeps hc
        exact ⟨by omega, by simp [hc, this]⟩
      · have := hloses hc
        refine ⟨by omega, ?_⟩
        simp only [hc, and_false, iff_false]
        omega

/-- At no time are two accepts outstanding. When no handler runs one is,
exactly if every accept so far completed without an error and no call of a
handler threw. -/
theorem accepting_iff (h : Run step init moves s) : s.outstanding ≤ 1 ∧
    (s.handlers = [] → (s.outstanding = 1 ↔ ∀ m ∈ moves, m.label.Continues)) := by
  obtain ⟨hle, hiff⟩ := pending_run h
  refine ⟨Nat.le_trans (Nat.le_add_right _ _) hle, fun hidle => ?_⟩
  have hpending : s.pending = s.outstanding := by simp [pending, hidle]
  rwa [hpending] at hiff

end Pending

/-- The process has no descriptor left for one client, and
takes no further one either. -/
theorem one_error_ends_service : ∃ moves s, Run step init moves s ∧
    moves.map Move.label = [.complete .other, .handler 0 .returns] ∧
    s.handlers = [] ∧ s.outstanding = 0 :=
  run_of_reaches step init [.complete .other, .handler 0 .returns]
    (p := fun s => s.handlers = [] ∧ s.outstanding = 0) (by decide)

def twoClients : List ListenerLabel :=
  .complete .success :: List.replicate 6 (.handler 0 .returns) ++
  .complete .success :: List.replicate 3 (.handler 0 .returns) ++
  .handler 0 .full :: List.replicate 3 (.handler 0 .returns)

theorem accepting_iff_two_clients : ∃ moves s, Run step init moves s ∧
    moves.map Move.label = twoClients ∧ s.outstanding = 1 := by
  obtain ⟨moves, s, hr, hlabels, hidle⟩ :=
    run_of_reaches step init twoClients (p := fun s => s.handlers = []) (by decide)
  have hall : ∀ l ∈ moves.map Move.label, l.Continues := by
    rw [hlabels]
    decide
  have hcontinues : ∀ m ∈ moves, m.label.Continues := List.forall_mem_map.mp hall
  exact ⟨moves, s, hr, hlabels, ((accepting_iff hr).2 hidle).mpr hcontinues⟩

/-- Where the accept thread of the server is, in the
terms of its statements. -/
def ofAccept : AcceptPc → Listener
  | .listening => ⟨1, []⟩
  | .tested _ => ⟨0, [.emplace]⟩
  | .inserted _ => ⟨0, [.start]⟩
  | .started _ => ⟨0, [.doAccept]⟩
  | .stopped => ⟨0, []⟩

section Server

variable {cfg : Config} {s t : Server} {moves : List (Move Server Label)}

theorem exists_listener_run_of_action {l : Label} (h : Server.Action cfg s l t) :
    ∃ steps, Run step (ofAccept s.accept) steps (ofAccept t.accept) := by
  have go {u : Listener} (labels : List ListenerLabel)
      (he : exec step (ofAccept s.accept) labels = .ok u) :
      ∃ steps, Run step (ofAccept s.accept) steps u :=
    (run_of_exec he).imp fun _ hr => hr.1
  cases h with
  | acceptError hl => exact go [.complete .other, .handler 0 .returns] (by rw [hl]; rfl)
  | acceptRefused hl _ =>
      refine go [.complete .success, .handler 0 .returns, .handler 0 .returns, .handler 0 .full,
        .handler 0 .returns, .handler 0 .returns, .handler 0 .returns] ?_
      simp only [hl]
      rfl
  | acceptTested hl _ =>
      exact go [.complete .success, .handler 0 .returns, .handler 0 .returns, .handler 0 .returns]
        (by rw [hl]; rfl)
  | recycle ht _ _ _ => exact go [.handler 0 .returns] (by rw [ht]; rfl)
  | create ht _ _ => exact go [.handler 0 .returns] (by rw [ht]; rfl)
  | start hi _ => exact go [.handler 0 .returns] (by rw [hi]; rfl)
  | listen hs => exact go [.handler 0 .returns, .handler 0 .returns] (by rw [hs]; rfl)
  | _ => exact ⟨[], .nil⟩

/-- The accept thread of the server is a listener, so what holds
of listeners holds of it. -/
theorem exists_listener_run (h : Run (Server.step cfg) Server.init moves s) :
    ∃ steps, Run step init steps (ofAccept s.accept) := by
  induction h with
  | nil => exact ⟨[], .nil⟩
  | snoc _ hs ih =>
      obtain ⟨steps, hr⟩ := ih
      obtain ⟨more, hr'⟩ := exists_listener_run_of_action (Server.step_action hs)
      exact ⟨steps ++ more, hr.append hr'⟩

end Server

end Listener

end Ailawd
