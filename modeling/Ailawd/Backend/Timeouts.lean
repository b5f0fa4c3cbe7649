import Ailawd.Model.TimedOps

/-!
# Timeouts

A timer whose call has not returned shuts the socket of that call. Its handler is due from the
expiry on, and neither `cancel` nor the destructor of the timer takes it back, so the call may
return first; the handler then shuts a socket that its caller is using for something else, or
reaches for one that is gone. `aimed_iff_inTime` says which steps lead there.
-/

namespace Ailawd

open Transition

namespace TimedOps

/-- A handler of the call will call `shutdown`: it is queued with success, or
it has passed its test. -/
def Due (s : TimedOps) (c : CallId) : Prop :=
  (∃ handler ∈ s.queue, handler.1 = c ∧ handler.2 ≠ .operationAborted) ∨ s.cancelling = some c

instance (s : TimedOps) (c : CallId) : Decidable (s.Due c) := inferInstanceAs (Decidable (_ ∨ _))

/-- The guarded call has not returned, and its socket is
still there to be shut. -/
def Guards (s : TimedOps) (c : CallId) : Prop :=
  (s.calls c).pc = .guarded ∧ s.socks (s.calls c).sock ≠ .destroyed

instance (s : TimedOps) (c : CallId) : Decidable (s.Guards c) :=
  inferInstanceAs (Decidable (_ ∧ _))

/-- Where the co_worker is about to call `shutdown`, the call it does this for
is guarded, so it is the call that is interrupted. -/
def Aimed (s : TimedOps) : Prop := ∀ c, s.cancelling = some c → s.Guards c

/-- A call returns while no handler of it is due, and a timer expires only
before its call has returned. -/
def InTime (s : TimedOps) : TimedLabel → Prop
  | .returns c _ => ¬ s.Due c
  | .expire c => (s.calls c).pc = .guarded
  | _ => True

instance (s : TimedOps) (l : TimedLabel) : Decidable (s.InTime l) := by
  cases l <;> unfold InTime <;> infer_instance

/-- What holds of every run: a call that has not been made has no handler, and
its caller keeps the socket until the call has returned. -/
structure Held (s : TimedOps) : Prop where
  fresh : ∀ c, s.nextCall ≤ c →
    (s.calls c).pc = .finished ∧ (s.calls c).waiting = false ∧ ¬ s.Due c
  owned : ∀ c, (s.calls c).pc ≠ .finished → s.socks (s.calls c).sock ≠ .destroyed

section Due

variable {s : TimedOps} {c d : CallId}

@[simp] theorem due_setCall {call : TimedCall} : (s.setCall d call).Due c ↔ s.Due c := .rfl

@[simp] theorem due_goto {pc : CallPc} : (s.goto d pc).Due c ↔ s.Due c := .rfl

/-- A wait that is cut short leaves no more to do: its handler is queued, and
drops out at its test. -/
@[simp] theorem due_endWait_aborted : (s.endWait d .operationAborted).Due c ↔ s.Due c := by
  unfold endWait
  split
  · simp [Due, setCall, or_and_right, exists_or]
  · rfl

theorem due_endWait_success (hw : (s.calls d).waiting = true) :
    (s.endWait d .success).Due c ↔ s.Due c ∨ c = d := by
  simp [endWait, hw, Due, setCall, or_and_right, exists_or, or_right_comm, eq_comm]

theorem due_of_queue {ec : ErrorCode} {queue : List (CallId × ErrorCode)}
    (hqueue : s.queue = (d, ec) :: queue) :
    s.Due c ↔ (c = d ∧ ec ≠ .operationAborted) ∨ { s with queue := queue }.Due c := by
  simp [Due, hqueue, or_assoc, eq_comm]

@[simp] theorem endWait_pc {ec : ErrorCode} :
    ((s.endWait d ec).calls c).pc = (s.calls c).pc := by
  unfold endWait
  split
  · obtain rfl | hcd := eq_or_ne c d <;> simp_all [setCall]
  · rfl

@[simp] theorem endWait_sock {ec : ErrorCode} :
    ((s.endWait d ec).calls c).sock = (s.calls c).sock := by
  unfold endWait
  split
  · obtain rfl | hcd := eq_or_ne c d <;> simp_all [setCall]
  · rfl

theorem endWait_calls_of_ne {ec : ErrorCode} (hcd : c ≠ d) :
    (s.endWait d ec).calls c = s.calls c := by
  unfold endWait
  split
  · simp [setCall, hcd]
  · rfl

@[simp] theorem endWait_nextCall {ec : ErrorCode} :
    (s.endWait d ec).nextCall = s.nextCall := by
  unfold endWait
  split <;> rfl

@[simp] theorem endWait_socks {ec : ErrorCode} : (s.endWait d ec).socks = s.socks := by
  unfold endWait
  split <;> rfl

end Due

/-- A step of the call `d` after its start: it leaves the guarded
call or goes on behind it. -/
structure Advances (s t : TimedOps) (d : CallId) : Prop where
  started : (s.calls d).pc ≠ .finished
  left : (t.calls d).pc ≠ .guarded
  sock : (t.calls d).sock = (s.calls d).sock
  others : ∀ c ≠ d, t.calls c = s.calls c
  nextCall : t.nextCall = s.nextCall
  socks : t.socks = s.socks
  due : ∀ c, t.Due c ↔ s.Due c

structure Aside (s t : TimedOps) : Prop where
  calls : t.calls = s.calls
  nextCall : t.nextCall = s.nextCall
  destroyed : ∀ sock, t.socks sock = .destroyed → s.socks sock = .destroyed ∨ s.Unused sock
  due : ∀ c, t.Due c ↔ s.Due c

/-- The steps by what they do to the calls and to the handlers that are due.
Each invariant below is shown along these cases. -/
inductive Stepped (s : TimedOps) : TimedLabel → TimedOps → Prop where
  | advances {l t d} : s.Advances t d →
      ((s.calls d).pc = .guarded → ∃ result, l = .returns d result) → Stepped s l t
  | enters {kind sock timeMs expiresAt waiting} : s.Unused sock →
      Stepped s (.call kind sock timeMs)
        { s.setCall s.nextCall ⟨kind, sock, expiresAt, waiting, .guarded, none⟩ with
          nextCall := s.nextCall + 1 }
  | expires {d} : (s.calls d).waiting = true → Stepped s (.expire d) (s.endWait d .success)
  | aside {l t} : s.Aside t → Stepped s l t
  | shuts {d} : s.cancelling = some d → s.socks (s.calls d).sock ≠ .destroyed →
      Stepped s .worker { s with
        socks := Function.update s.socks (s.calls d).sock .shut, cancelling := none }

section Steps

variable {s t : TimedOps} {l : TimedLabel} {c d : CallId} {pc : CallPc}
variable {result : Option (Nat × ErrorCode)} {moves : List (Move TimedOps TimedLabel)}

theorem advances_goto (hs : (s.calls d).pc ≠ .finished) (hpc : pc ≠ .guarded) :
    s.Advances (s.goto d pc) d where
  started := hs
  left := by simpa [goto, setCall] using hpc
  sock := by simp [goto, setCall]
  others c hcd := by simp [goto, setCall, hcd]
  nextCall := rfl
  socks := rfl
  due _ := .rfl

theorem advances_endWait (hs : (s.calls d).pc ≠ .finished) (hpc : pc ≠ .guarded) :
    s.Advances ((s.endWait d .operationAborted).goto d pc) d where
  started := hs
  left := by simpa [goto, setCall] using hpc
  sock := by simp [goto, setCall]
  others c hcd := by simpa [goto, setCall, hcd] using endWait_calls_of_ne hcd
  nextCall := endWait_nextCall
  socks := endWait_socks
  due _ := due_endWait_aborted

theorem expire_cases (hs : s.step (.expire d) = .ok t) :
    (s.calls d).waiting = true ∧ t = s.endWait d .success := by
  simp only [step] at hs
  split at hs
  · split at hs
    next hwaits => exact ⟨hwaits.1, (Except.ok.inj hs).symm⟩
    next => cases hs
  · cases hs

theorem returnsStep_cases (hs : s.returnsStep d result = .ok t) :
    (s.calls d).pc = .guarded ∧ ∃ pc ≠ CallPc.guarded,
      t = s.setCall d { s.calls d with pc := pc, result := result } := by
  simp only [returnsStep] at hs
  split at hs
  · cases hs
  next hat =>
    obtain rfl := Except.ok.inj hs
    refine ⟨by simpa using not_or.mp hat |>.1, _, ?_, rfl⟩
    split <;> decide

theorem testStep_cases (hs : s.testStep d = .ok t) :
    (s.calls d).pc = .returned ∧ ∃ pc ≠ CallPc.guarded, t = s.goto d pc := by
  simp only [testStep] at hs
  split at hs
  next hat _ =>
    split at hs
    · exact ⟨hat, .passed, by decide, (Except.ok.inj hs).symm⟩
    · exact ⟨hat, .leaving, by decide, (Except.ok.inj hs).symm⟩
  next => cases hs

/-- The co_worker takes a handler or drops it, or it shuts the socket of the
handler it has taken. -/
theorem workerStep_cases (hs : s.workerStep = .ok t) : Stepped s .worker t := by
  simp only [workerStep] at hs
  split at hs
  next d hd =>
    split at hs
    · cases hs
    next hsock =>
      obtain rfl := Except.ok.inj hs
      exact .shuts hd hsock
  next hnone =>
    split at hs
    next => cases hs
    next d ec queue hqueue =>
      split at hs
      next hec =>
        obtain rfl := Except.ok.inj hs
        refine .aside ⟨rfl, rfl, fun _ => .inl, fun c => ?_⟩
        simp [due_of_queue hqueue, hec]
      next hec =>
        obtain rfl := Except.ok.inj hs
        refine .aside ⟨rfl, rfl, fun _ => .inl, fun c => ?_⟩
        rw [due_of_queue hqueue]
        simp [Due, hnone, hec, or_comm, eq_comm]

theorem step_cases (hs : s.step l = .ok t) : Stepped s l t := by
  cases l with
  | clock now =>
      obtain rfl := Except.ok.inj hs
      exact .aside ⟨rfl, rfl, fun _ => .inl, fun _ => .rfl⟩
  | «open» =>
      obtain rfl := Except.ok.inj hs
      refine .aside ⟨rfl, rfl, fun sock hsock => ?_, fun _ => .rfl⟩
      obtain rfl | hne := eq_or_ne sock s.nextSock
      · simp at hsock
      · exact .inl (by simpa [hne] using hsock)
  | call kind sock timeMs =>
      simp only [step, callStep] at hs
      split at hs
      · cases hs
      next hunused =>
        obtain rfl := Except.ok.inj hs
        exact .enters (not_not.mp hunused)
  | expire d =>
      obtain ⟨hw, rfl⟩ := expire_cases hs
      exact .expires hw
  | returns d result =>
      obtain ⟨hat, pc, hpc, rfl⟩ := returnsStep_cases hs
      refine .advances (d := d) ⟨by simp [hat], by simpa [setCall] using hpc, by simp [setCall],
        fun c hcd => by simp [setCall, hcd], rfl, rfl, fun _ => .rfl⟩ fun _ => ⟨result, rfl⟩
  | test d =>
      obtain ⟨hat, pc, hpc, rfl⟩ := testStep_cases hs
      exact .advances (advances_goto (by simp [hat]) hpc) (by simp [hat])
  | cancel d =>
      simp only [step] at hs
      split at hs
      next hat =>
        obtain rfl := Except.ok.inj hs
        exact .advances (advances_endWait (by simp [hat]) (by decide)) (by simp [hat])
      next => cases hs
  | destroyTimer d =>
      simp only [step] at hs
      split at hs
      next hat =>
        obtain rfl := Except.ok.inj hs
        exact .advances (advances_endWait (by simp [hat]) (by decide)) (by simp [hat])
      next => cases hs
  | finish d =>
      simp only [step] at hs
      split at hs
      next hat =>
        obtain rfl := Except.ok.inj hs
        exact .advances (advances_goto (by simp [hat]) (by decide)) (by simp [hat])
      next => cases hs
  | destroySocket sock =>
      simp only [step] at hs
      split at hs
      next hunused =>
        obtain rfl := Except.ok.inj hs
        refine .aside ⟨rfl, rfl, fun k hk => ?_, fun _ => .rfl⟩
        obtain rfl | hne := eq_or_ne k sock
        · exact .inr hunused
        · exact .inl (by simpa [hne] using hk)
      next => cases hs
  | worker => exact workerStep_cases hs

end Steps

section Runs

variable {s t : TimedOps} {l : TimedLabel} {c : CallId}
variable {moves : List (Move TimedOps TimedLabel)}

theorem held_init : init.Held where
  fresh _ _ := ⟨rfl, rfl, by simp [Due, init]⟩
  owned _ hpc := absurd rfl hpc

theorem held_step (hs : s.step l = .ok t) (hi : s.Held) : t.Held := by
  cases step_cases hs with
  | @advances _ _ d ha _ =>
      refine ⟨fun c hc => ?_, fun c hpc => ?_⟩
      · rw [ha.nextCall] at hc
        have hcd : c ≠ d := by
          rintro rfl
          exact ha.started (hi.fresh c hc).1
        rw [ha.others c hcd, ha.due]
        exact hi.fresh c hc
      · rw [ha.socks]
        obtain rfl | hcd := eq_or_ne c d
        · rw [ha.sock]
          exact hi.owned c ha.started
        · rw [ha.others c hcd] at hpc ⊢
          exact hi.owned c hpc
  | enters hunused =>
      refine ⟨fun c hc => ?_, fun c hpc => ?_⟩
      · have hne : c ≠ s.nextCall := by
          rintro rfl
          exact Nat.lt_irrefl _ hc
        obtain ⟨hpc, hw, hdue⟩ := hi.fresh c (Nat.le_of_succ_le hc)
        exact ⟨by simpa [setCall, hne] using hpc, by simpa [setCall, hne] using hw, hdue⟩
      · obtain rfl | hne := eq_or_ne c s.nextCall
        · obtain husable | hshut := hunused.1 <;> simp [setCall, *]
        · simp only [setCall, Function.update_of_ne hne] at hpc ⊢
          exact hi.owned c hpc
  | @expires d hw =>
      refine ⟨fun c hc => ?_, fun c hpc => ?_⟩
      · rw [endWait_nextCall] at hc
        have hcd : c ≠ d := by
          rintro rfl
          simp [(hi.fresh c hc).2.1] at hw
        rw [endWait_calls_of_ne hcd, due_endWait_success hw, or_iff_left hcd]
        exact hi.fresh c hc
      · rw [endWait_pc] at hpc
        rw [endWait_socks, endWait_sock]
        exact hi.owned c hpc
  | aside ha =>
      refine ⟨fun c hc => ?_, fun c hpc => ?_⟩
      · rw [ha.nextCall] at hc
        rw [ha.calls, ha.due]
        exact hi.fresh c hc
      · rw [ha.calls] at hpc ⊢
        intro hdestroyed
        obtain hbefore | hunused := ha.destroyed _ hdestroyed
        · exact hi.owned c hpc hbefore
        -- an unused socket has no call under way, so `c` would be one that was never made
        · obtain hlt | hge := Nat.lt_or_ge c s.nextCall
          · exact hpc (hunused.2 c hlt rfl)
          · exact hpc (hi.fresh c hge).1
  | @shuts d hd _ =>
      refine ⟨fun c hc => ?_, fun c hpc => ?_⟩
      · obtain ⟨hpc, hw, hdue⟩ := hi.fresh c hc
        exact ⟨hpc, hw, fun h => hdue (.inl (h.resolve_right nofun))⟩
      · change Function.update s.socks (s.calls d).sock .shut (s.calls c).sock ≠ .destroyed
        obtain heq | hne := eq_or_ne (s.calls c).sock (s.calls d).sock
        · simp [heq]
        · rw [Function.update_of_ne hne]
          exact hi.owned c hpc

/-- Every handler that is due has a guarded call. This is the invariant of the
runs whose steps are in time. -/
def Prompt (s : TimedOps) : Prop := ∀ c, s.Due c → (s.calls c).pc = .guarded

theorem prompt_step (hs : s.step l = .ok t) (hin : s.InTime l)
    (hp : s.Prompt) : t.Prompt := by
  intro c hdue
  cases step_cases hs with
  | @advances _ _ d ha hreturns =>
      rw [ha.due] at hdue
      have hcd : c ≠ d := by
        rintro rfl
        obtain ⟨result, rfl⟩ := hreturns (hp c hdue)
        exact hin hdue
      rw [ha.others c hcd]
      exact hp c hdue
  | enters =>
      obtain rfl | hne := eq_or_ne c s.nextCall
      · simp [setCall]
      · simpa [setCall, hne] using hp c hdue
  | @expires d hw =>
      rw [endWait_pc]
      obtain hbefore | rfl := (due_endWait_success hw).mp hdue
      · exact hp c hbefore
      · exact hin
  | aside ha =>
      rw [ha.calls]
      exact hp c ((ha.due c).mp hdue)
  | shuts _ _ => exact hp c (.inl (hdue.resolve_right nofun))

theorem aimed_of_prompt (hi : s.Held) (hp : s.Prompt) : s.Aimed := by
  intro c hc
  have hpc := hp c (.inr hc)
  exact ⟨hpc, hi.owned c (by simp [hpc])⟩

/-- A handler is due and its call has left the guarded call: nothing
can take the handler back. -/
structure Late (s : TimedOps) (c : CallId) : Prop where
  made : c < s.nextCall
  due : s.Due c
  left : (s.calls c).pc ≠ .guarded

theorem late_of_not_inTime (hs : s.step l = .ok t) (hi : s.Held) (hlate : ¬ s.InTime l) :
    ∃ c, t.Late c := by
  have made : ∀ c, s.Due c → c < s.nextCall := fun c hdue =>
    Nat.lt_of_not_le fun hc => (hi.fresh c hc).2.2 hdue
  cases l with
  | returns c result =>
      have hdue : s.Due c := not_not.mp hlate
      obtain ⟨-, pc, hpc, rfl⟩ := returnsStep_cases hs
      exact ⟨c, made c hdue, due_setCall.mpr hdue, by simpa [setCall] using hpc⟩
  | expire c =>
      obtain ⟨hw, rfl⟩ := expire_cases hs
      have hmade : c < s.nextCall := Nat.lt_of_not_le fun hc => by
        simp [(hi.fresh c hc).2.1] at hw
      refine ⟨c, by rwa [endWait_nextCall], (due_endWait_success hw).mpr (.inr rfl), ?_⟩
      rwa [endWait_pc]
  | _ => exact absurd trivial hlate

/-- A late handler stays late until it is at its call of `shutdown`. The
callers cannot cancel it any more. -/
theorem late_step (hs : s.step l = .ok t) (hl : s.Late c) (ha : s.Aimed) : t.Late c := by
  cases step_cases hs with
  | @advances _ _ d had _ =>
      refine ⟨had.nextCall ▸ hl.made, (had.due c).mpr hl.due, ?_⟩
      obtain rfl | hcd := eq_or_ne c d
      · exact had.left
      · rw [had.others c hcd]
        exact hl.left
  | enters =>
      refine ⟨Nat.lt_succ_of_lt hl.made, hl.due, ?_⟩
      simpa [setCall, Nat.ne_of_lt hl.made] using hl.left
  | expires hw =>
      refine ⟨by simpa using hl.made, (due_endWait_success hw).mpr (.inl hl.due), ?_⟩
      simpa using hl.left
  | aside has =>
      exact ⟨has.nextCall ▸ hl.made, (has.due c).mpr hl.due, has.calls ▸ hl.left⟩
  | shuts hd _ =>
      -- the handler at its `shutdown` is in time, so it is another one
      exact ⟨hl.made, .inl (hl.due.resolve_right fun hc => hl.left (ha c hc).1), hl.left⟩

/-- What the co_worker has still to do for the handlers it has. Each
of its steps lowers it. -/
def work (s : TimedOps) : Nat := 2 * s.queue.length + if s.cancelling.isSome then 1 else 0

/-- With a late handler there is something to do, and the next step of the
co_worker does some of it. -/
theorem worker_step (hl : s.Late c) (ha : s.Aimed) :
    ∃ t, s.step .worker = .ok t ∧ t.work < s.work := by
  cases hd : s.cancelling with
  | some d =>
      refine ⟨{ s with socks := Function.update s.socks (s.calls d).sock .shut
                       cancelling := none }, ?_, by simp [work, hd]⟩
      simp only [step, workerStep, hd]
      split
      next hsock => exact absurd hsock (ha d hd).2
      next => rfl
  | none =>
      obtain ⟨handler, hmem, -⟩ := hl.due.resolve_right (by simp [hd])
      obtain ⟨⟨d, ec⟩, queue, hqueue⟩ := List.exists_cons_of_ne_nil (List.ne_nil_of_mem hmem)
      by_cases hec : ec = .operationAborted
      · refine ⟨{ s with queue := queue }, ?_, ?_⟩
        · simp [step, workerStep, hd, hqueue, hec]
        · simp [work, hd, hqueue]
      · refine ⟨{ s with queue := queue, cancelling := some d }, ?_, ?_⟩
        · simp [step, workerStep, hd, hqueue, hec]
        · simp [work, hd, hqueue]
          omega

/-- The co_worker gets to a late handler, whatever the callers do or leave
undone. Induction on its work. -/
theorem exists_not_aimed (hl : s.Late c) :
    ∃ more t, Run step s more t ∧ (∀ m ∈ more, m.label = .worker) ∧ ¬ t.Aimed := by
  induction hwork : s.work using Nat.strong_induction_on generalizing s with
  | _ n ih =>
      by_cases ha : s.Aimed
      · obtain ⟨t, hs, hlt⟩ := worker_step hl ha
        obtain ⟨more, u, hr, hworker, hu⟩ := ih t.work (hwork ▸ hlt) (late_step hs hl ha) rfl
        refine ⟨⟨s, .worker, t⟩ :: more, u, (Run.nil.snoc hs).append hr, ?_, hu⟩
        exact List.forall_mem_cons.mpr ⟨rfl, hworker⟩
      · exact ⟨[], s, .nil, nofun, ha⟩

/-- A run whose steps are all in time is one in which each call of `shutdown`
hits a guarded call, also when the co_worker then works off the handlers that
are left. -/
theorem inTime_iff_aimed (h : Run step init moves s) :
    (∀ m ∈ moves, m.pre.InTime m.label) ↔
      ∀ more t, Run step s more t → (∀ m ∈ more, m.label = .worker) →
        ∀ u, Visits (moves ++ more) t u → u.Aimed := by
  constructor
  · intro hin more t hmore hworker u hu
    have inTime : ∀ m ∈ moves ++ more, m.pre.InTime m.label := by
      refine List.forall_mem_append.mpr ⟨hin, fun m hm => ?_⟩
      rw [hworker m hm]
      trivial
    have hstart : init.Prompt := fun c hdue =>
      absurd hdue (held_init.fresh c (Nat.zero_le c)).2.2
    obtain ⟨hheld, hprompt⟩ : u.Held ∧ u.Prompt :=
      (h.append hmore).invariant_of_visits (I := fun u => u.Held ∧ u.Prompt) inTime
        ⟨held_init, hstart⟩
        (fun _ _ _ hi hin hs => ⟨held_step hs hi.1, prompt_step hs hin hi.2⟩) u hu
    exact aimed_of_prompt hheld hprompt
  · intro haimed m hm
    by_contra hlate
    have visited : ∀ u, Visits moves s u → u.Aimed := fun u hu =>
      haimed [] s .nil nofun u (by simpa using hu)
    obtain ⟨front, back, rfl⟩ := List.append_of_mem hm
    have hheld : m.pre.Held :=
      h.before.invariant held_init fun _ _ _ hi hs => held_step hs hi
    obtain ⟨c, hc⟩ := late_of_not_inTime (h.step_of_mem m hm) hheld hlate
    -- the handler that `m` left behind is still late at the end of the run
    have hlast : s.Late c :=
      h.after.invariant_of (P := fun m' => m'.pre.Aimed)
        (fun m' hm' => visited m'.pre (.inr ⟨m', by simp [hm'], rfl⟩)) hc
        fun _ _ _ hl ha hs => late_step hs hl ha
    obtain ⟨more, t, hr, hworker, ht⟩ := exists_not_aimed hlast
    exact ht (haimed more t hr hworker t (.inl rfl))

end Runs

/-- A connect that succeeds just after its second, and the
handler it leaves behind. -/
def lateConnect : List TimedLabel :=
  [.open, .call .connect 0 1000, .clock 1000000, .expire 0, .returns 0 (some (0, .success)),
    .test 0, .destroyTimer 0, .finish 0]

/-- The handler shuts the socket that its caller has connected; where the
caller has gone, it reaches for a socket that is no more. -/
theorem late_connect_shut :
    (∃ moves s t, Run step init moves s ∧ s.cancelling = some 0 ∧
      (s.calls 0).pc = .finished ∧ (s.calls 0).result = some (0, .success) ∧
      s.socks 0 = .usable ∧ s.step .worker = .ok t ∧ t.socks 0 = .shut) ∧
    ∃ moves s, Run step init moves s ∧ s.cancelling = some 0 ∧
      s.socks 0 = .destroyed ∧ s.step .worker = .error (.fault .useAfterFree) := by
  constructor
  · obtain ⟨moves, s, hr, -, hc, hpc, hresult, hsock, hshut⟩ :=
      run_of_reaches step init (lateConnect ++ [.worker])
        (p := fun s => s.cancelling = some 0 ∧ (s.calls 0).pc = .finished ∧
          (s.calls 0).result = some (0, .success) ∧ s.socks 0 = .usable ∧
          Reaches (s.step .worker) fun t => t.socks 0 = .shut) (by decide)
    cases hs : s.step .worker with
    | error => simp [hs, Reaches] at hshut
    | ok t =>
        rw [hs] at hshut
        exact ⟨moves, s, t, hr, hc, hpc, hresult, hsock, hs, hshut⟩
  · obtain ⟨moves, s, hr, -, hc, hsock, hfault⟩ :=
      run_of_reaches step init (lateConnect ++ [.destroySocket 0, .worker])
        (p := fun s => s.cancelling = some 0 ∧ s.socks 0 = .destroyed ∧
          Faults (s.step .worker) .useAfterFree) (by decide)
    exact ⟨moves, s, hr, hc, hsock, hfault.eq_error⟩

/-- A connect that its timer ends, before the kernel would have. -/
def timedOut : List TimedLabel :=
  [.open, .call .connect 0 1000, .clock 1000000, .expire 0, .worker, .worker,
    .returns 0 (some (0, .other)), .test 0, .destroyTimer 0, .finish 0, .destroySocket 0]

theorem inTime_iff_aimed_timedOut : ∃ moves s, Run step init moves s ∧
    moves.map Move.label = timedOut ∧ s.socks 0 = .destroyed ∧
    (∀ m ∈ moves, m.pre.InTime m.label) ∧ ∀ u, Visits moves s u → u.Aimed := by
  obtain ⟨moves, s, hr, hlabels, hsock⟩ :=
    run_of_reaches (guarded InTime step) init timedOut
      (p := fun s => s.socks 0 = .destroyed) (by decide)
  obtain ⟨hrun, hin⟩ := hr.of_guarded
  refine ⟨moves, s, hrun, hlabels, hsock, hin, fun u hu => ?_⟩
  exact (inTime_iff_aimed hrun).mp hin [] s .nil nofun u (by simpa using hu)

end TimedOps

end Ailawd
