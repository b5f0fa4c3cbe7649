import Ailawd.Connection.Reactions
import Ailawd.Model.Interruption

/-!
# What an interrupted handler has left to do

A handler that is not interrupted does what the handler of the source does: the entry
functions and `Rest.step` lose nothing (`deliver_eq_enter`). When it is interrupted, the
status may change between any two of its steps. `Rest.Allows` says what the rest of a handler
needs of the reads that are outstanding beside it, whatever the status does in between.
-/

namespace Ailawd

open ByteString HttpProto Transition

/-- The rest of a handler at one go, by the functions of the atomic model. -/
def Rest.finish (env : Env) (h : Handling) : Rest → Except Fault Handling
  | .write => h.writeReturn env
  | .start => h.start env
  | .readHead => h.doReadHead env
  | .readBody => h.doReadBody env
  | .armHead => h.withSocket .asyncReadUntil
  | .armBody => h.withSocket (.asyncRead h.conn.rSize
      (sizeSub h.conn.parser.contentLength h.conn.rSize))
  | .writeMore => h.doWrite env
  | .fail => .ok h.notifyConnError
  | .done => .ok h

def Handling.finished (env : Env) (r : Except Fault (Handling × Rest)) : Except Fault Handling :=
  match r with
  | .error e => .error e
  | .ok (h, rest) => rest.finish env h

/-- Step by step is the same as at one go, as long as
nothing comes in between. -/
theorem Rest.finish_eq_step (env : Env) (h : Handling) (rest : Rest) :
    rest.finish env h = Handling.finished env (rest.step env h) := by
  cases rest with
  | write =>
      simp only [finish, step, Handling.writeReturn, Handling.finished]
      cases h.doWrite env <;> rfl
  | readHead =>
      simp only [finish, step, Handling.finished, Handling.doReadHead, Handling.testStats]
      split <;> rfl
  | readBody =>
      simp only [finish, step, Handling.finished, Handling.doReadBody, Handling.testStats]
      split <;> rfl
  | armHead =>
      simp only [finish, step, Handling.finished]
      cases h.withSocket .asyncReadUntil <;> rfl
  | armBody =>
      simp only [finish, step, Handling.finished]
      cases h.withSocket (.asyncRead h.conn.rSize
        (sizeSub h.conn.parser.contentLength h.conn.rSize)) <;> rfl
  | writeMore =>
      simp only [finish, step, Handling.finished]
      cases h.doWrite env <;> rfl
  | _ => rfl

namespace Handling

variable (env : Env) (ec : ErrorCode) (n : Nat) (h : Handling)

theorem socketError_eq_entry : h.socketError = finished env h.socketErrorEntry := by
  simp only [socketError, socketErrorEntry, finished]
  cases h.withSocket .shutdown with
  | error e => rfl
  | ok h =>
      simp only
      cases h.withSocket .cancel <;> rfl

theorem readBodyHandler_eq_entry :
    readBodyHandler env ec n h = finished env (readBodyEntry env ec n h) := by
  simp only [readBodyHandler, readBodyEntry]
  split
  · split
    · rfl
    · split
      · cases analyseHandler env { h with conn := { h.conn with rSize := h.conn.rSize + n } } with
        | error e => rfl
        | ok r =>
            obtain ⟨done, h⟩ := r
            cases done <;> rfl
      · rfl
  · split
    · exact socketError_eq_entry env h
    · rfl

theorem receiveBody_eq_entry : receiveBody env h = finished env (receiveBodyEntry env h) := by
  simp only [receiveBody, receiveBodyEntry]
  split
  · rfl
  · cases growBuffer h.conn.parser.contentLength
      { h with conn := { h.conn with rSize := 0 } } with
    | error e => rfl
    | ok h₁ =>
        cases ht : h₁.takeAdditional with
        | error e => simp [ht, finished]
        | ok h₂ =>
            simp only [ht]
            split
            · rfl
            · exact readBodyHandler_eq_entry env _ _ h₂

theorem readHeadHandler_eq_entry :
    readHeadHandler env ec n h = finished env (readHeadEntry env ec n h) := by
  simp only [readHeadHandler, readHeadEntry]
  split
  · split
    · rfl
    · split
      · rfl
      · split
        · exact receiveBody_eq_entry env _
        · rfl
  · split
    · exact socketError_eq_entry env h
    · rfl

theorem writeHandler_eq_entry : writeHandler env ec n h = finished env (writeEntry ec n h) := by
  simp only [writeHandler, writeEntry]
  split
  · split <;> rfl
  · split
    · exact socketError_eq_entry env h
    · rfl

end Handling

/-- A completion that is not interrupted is the one of the
atomic model, fault by fault. -/
theorem OpKind.deliver_eq_enter (kind : OpKind) (c : FrontConn) (ec : ErrorCode)
    (data : ByteString) (env : Env) : kind.deliver c ec data env =
      match kind.enter c ec data env with
      | .error e => .error e
      | .ok (h, rest) => (rest.finish env h).mapError .fault := by
  have hfinished : ∀ r : Except Fault (Handling × Rest),
      (Handling.finished env r).mapError Stop.fault = match r.mapError Stop.fault with
        | .error e => .error e
        | .ok (h, rest) => (rest.finish env h).mapError .fault := by
    intro r
    cases r <;> rfl
  cases kind with
  | readHead =>
      simp only [deliver, enter, Handling.readHeadHandler_eq_entry, hfinished]
      split
      · split
        · rfl
        · cases find crlf2 (c.request ++ data) <;> rfl
      · rfl
  | readBody offset len =>
      simp only [deliver, enter, Handling.readBodyHandler_eq_entry, hfinished]
      split
      · rfl
      · split <;> rfl
  | write w =>
      simp only [deliver, enter, Handling.writeHandler_eq_entry, hfinished]
      split <;> rfl

/-- Whether an effect starts a read. Writes may be
outstanding in any number. -/
def Effect.starts : Effect → Bool
  | .asyncReadUntil => true
  | .asyncRead _ _ => true
  | _ => false

/-- What the rest of a handler needs of the reads that are outstanding beside
it: before it starts one there is none. -/
def Rest.Allows (stats : ConnectionStats) (reads : Nat) : Rest → Prop
  | .write => reads = 0
  | .start => reads = 0
  | .readHead => reads = 0
  | .readBody => reads = 0
  | .armHead => reads = 0
  | .armBody => reads = 0
  | .fail => reads ≤ 1
  | .writeMore => reads ≤ 1 ∧ (stats = .working → reads = 1)
  | .done => reads ≤ 1 ∧ (stats = .working → reads = 1)

/-- An error that is set from outside needs no read, so the tick
may set it at any time. -/
theorem Rest.Allows.mark {rest : Rest} {stats : ConnectionStats} {reads : Nat}
    (h : rest.Allows stats reads) : rest.Allows .error reads := by
  cases rest with
  | writeMore => exact ⟨h.1, fun hs => by cases hs⟩
  | done => exact ⟨h.1, fun hs => by cases hs⟩
  | _ => exact h

/-- What an entry function leaves: the status as it
was, and no read started. -/
structure Entered (h h' : Handling) : Prop where
  stats : h'.conn.stats = h.conn.stats
  effects : (∀ e ∈ h.effects, e.starts = false) → ∀ e ∈ h'.effects, e.starts = false

theorem Entered.trans {h₁ h₂ h₃ : Handling} (a : Entered h₁ h₂) (b : Entered h₂ h₃) :
    Entered h₁ h₃ :=
  ⟨b.stats.trans a.stats, fun h => b.effects (a.effects h)⟩

theorem Entered.emit {h h' : Handling} (a : Entered h h') {e : Effect} (he : e.starts = false) :
    Entered h (h'.emit e) :=
  ⟨a.stats, fun h => List.forall_mem_append.mpr ⟨a.effects h, List.forall_mem_singleton.mpr he⟩⟩

theorem Quiet.entered {h h' : Handling} (q : Quiet h h') : Entered h h' := by
  obtain ⟨calls, hcalls, heffects⟩ := q.effects
  refine ⟨q.stats, fun h => ?_⟩
  rw [heffects]
  refine List.forall_mem_append.mpr ⟨h, fun e he => ?_⟩
  have hcall := hcalls e he
  cases e <;> first | rfl | cases hcall

def Rest.afterRead : List Rest := [.write, .readBody, .fail]

def Rest.afterWrite : List Rest := [.writeMore, .done, .fail]

/-- A read handler up to its first access to the status: it waits for more, has
filled `p_write_`, or has given the connection up. -/
inductive ReadEntered (h : Handling) : Handling → Rest → Prop
  | wait {g : Handling} : Quiet h g → ReadEntered h g .readBody
  | fill {g g' : Handling} (env : Env) (content status : ByteString) : Quiet h g →
      Quiet (g.fillForHttp env content status) g' → ReadEntered h g' .write
  | fail {g : Handling} : Quiet h g → ReadEntered h ((g.emit .shutdown).emit .cancel) .fail

theorem ReadEntered.of_quiet {h₁ h₂ h₃ : Handling} {rest : Rest} (q : Quiet h₁ h₂)
    (e : ReadEntered h₂ h₃ rest) : ReadEntered h₁ h₃ rest := by
  cases e with
  | wait hq => exact .wait (q.trans hq)
  | fill env content status hq hfilled => exact .fill env content status (q.trans hq) hfilled
  | fail hq => exact .fail (q.trans hq)

theorem ReadEntered.entered {h h' : Handling} {rest : Rest} (e : ReadEntered h h' rest) :
    Entered h h' ∧ rest ∈ Rest.afterRead := by
  cases e with
  | wait hq => exact ⟨hq.entered, by decide⟩
  | @fill g _ env content status hq hfilled =>
      have hself : Entered g (g.fillForHttp env content status) :=
        ⟨rfl, fun hs => List.forall_mem_append.mpr ⟨hs, List.forall_mem_singleton.mpr rfl⟩⟩
      exact ⟨(hq.entered.trans hself).trans hfilled.entered, by decide⟩
  | fail hq => exact ⟨(hq.entered.emit rfl).emit rfl, by decide⟩

namespace Handling

variable {env : Env} {ec : ErrorCode} {n : Nat} {h h' : Handling} {rest : Rest}

theorem dropAndFill_entered (h : Handling) : ReadEntered h (h.dropAndFill env) .write :=
  .fill env _ _ (.refl h) ⟨⟨[], by simp [dropAndFill]⟩, rfl, rfl, rfl, rfl, rfl⟩

theorem socketErrorEntry_eq_ok (hr : h.socketErrorEntry = .ok (h', rest)) :
    h' = (h.emit .shutdown).emit .cancel ∧ rest = .fail := by
  simp only [socketErrorEntry] at hr
  split at hr
  · cases hr
  next h₁ hs =>
    obtain ⟨-, rfl⟩ := withSocket_eq_ok hs
    split at hr
    · cases hr
    next h₂ hc =>
      obtain ⟨-, rfl⟩ := withSocket_eq_ok hc
      obtain ⟨rfl, rfl⟩ := Prod.mk.inj (Except.ok.inj hr)
      exact ⟨rfl, rfl⟩

theorem readBodyEntry_entered (hr : h.readBodyEntry env ec n = .ok (h', rest)) :
    ReadEntered h h' rest := by
  simp only [readBodyEntry] at hr
  split at hr
  · set g : Handling := { h with conn := { h.conn with rSize := h.conn.rSize + n } } with hg
    have hq : Quiet h g := ⟨⟨[], by simp [hg]⟩, rfl, rfl, rfl, rfl, rfl⟩
    split at hr
    · obtain ⟨rfl, rfl⟩ := Prod.mk.inj (Except.ok.inj hr)
      exact .wait hq
    · split at hr
      · split at hr
        · cases hr
        next g' hg' =>
          obtain ⟨rfl, rfl⟩ := Prod.mk.inj (Except.ok.inj hr)
          obtain ⟨hb, -⟩ | ⟨k, text, -, hk, rfl⟩ := analyseHandler_eq_ok hg'
          · cases hb
          · exact .fill env text _ (hq.trans hk) (.refl _)
        next g' hg' =>
          obtain ⟨rfl, rfl⟩ := Prod.mk.inj (Except.ok.inj hr)
          obtain ⟨-, hk⟩ | ⟨k, text, hb, -⟩ := analyseHandler_eq_ok hg'
          · exact .fill env _ _ (hq.trans hk) (.refl _)
          · cases hb
      · obtain ⟨rfl, rfl⟩ := Prod.mk.inj (Except.ok.inj hr)
        exact .fill env _ _ hq (.refl _)
  · split at hr
    · obtain ⟨rfl, rfl⟩ := socketErrorEntry_eq_ok hr
      exact .fail (.refl h)
    · obtain ⟨rfl, rfl⟩ := Prod.mk.inj (Except.ok.inj hr)
      exact .fill env _ _ (.refl h) (.refl _)

theorem receiveBodyEntry_entered (hr : h.receiveBodyEntry env = .ok (h', rest)) :
    ReadEntered h h' rest := by
  simp only [receiveBodyEntry] at hr
  split at hr
  · cases hr
  split at hr
  · cases hr
  next h₁ hg =>
  split at hr
  · cases hr
  next h₂ ht =>
    have hstart : Quiet h { h with conn := { h.conn with rSize := 0 } } :=
      ⟨⟨[], by simp⟩, rfl, rfl, rfl, rfl, rfl⟩
    have hq := (hstart.trans (growBuffer_quiet hg)).trans (takeAdditional_quiet ht)
    split at hr
    · obtain ⟨rfl, rfl⟩ := Prod.mk.inj (Except.ok.inj hr)
      exact .wait (hq.trans ⟨⟨[], by simp⟩, rfl, rfl, rfl, rfl, rfl⟩)
    · exact (readBodyEntry_entered hr).of_quiet hq

theorem readHeadEntry_entered (hr : h.readHeadEntry env ec n = .ok (h', rest)) :
    ReadEntered h h' rest := by
  simp only [readHeadEntry] at hr
  split at hr
  · have hq : Quiet h (Handling.emit { h with conn := { h.conn with
        request := h.conn.request.drop n
        parser := (h.conn.parser.parseRequest h.conn.request).2 } }
        (.parse h.conn.request)) :=
      ⟨⟨[_], by simp [Effect.isCall], rfl⟩, rfl, rfl, rfl, rfl, rfl⟩
    split at hr
    · obtain ⟨rfl, rfl⟩ := Prod.mk.inj (Except.ok.inj hr)
      exact (dropAndFill_entered _).of_quiet hq
    · split at hr
      · obtain ⟨rfl, rfl⟩ := Prod.mk.inj (Except.ok.inj hr)
        exact .fill env _ _ hq (.refl _)
      · split at hr
        · exact (receiveBodyEntry_entered hr).of_quiet hq
        · obtain ⟨rfl, rfl⟩ := Prod.mk.inj (Except.ok.inj hr)
          exact .fill env _ _ hq (.refl _)
  · split at hr
    · obtain ⟨rfl, rfl⟩ := socketErrorEntry_eq_ok hr
      exact .fail (.refl h)
    · obtain ⟨rfl, rfl⟩ := Prod.mk.inj (Except.ok.inj hr)
      exact dropAndFill_entered h

theorem writeEntry_entered (hr : h.writeEntry ec n = .ok (h', rest)) :
    Entered h h' ∧ rest ∈ Rest.afterWrite := by
  have hself : Entered h h := ⟨rfl, id⟩
  simp only [writeEntry] at hr
  split at hr
  · split at hr
    · obtain ⟨rfl, rfl⟩ := Prod.mk.inj (Except.ok.inj hr)
      exact ⟨⟨rfl, id⟩, by decide⟩
    · obtain ⟨rfl, rfl⟩ := Prod.mk.inj (Except.ok.inj hr)
      exact ⟨⟨rfl, id⟩, by decide⟩
  · split at hr
    · obtain ⟨rfl, rfl⟩ := socketErrorEntry_eq_ok hr
      exact ⟨(hself.emit rfl).emit rfl, by decide⟩
    · obtain ⟨rfl, rfl⟩ := Prod.mk.inj (Except.ok.inj hr)
      exact ⟨hself, by decide⟩

end Handling

/-- Where the handler of an operation may stop first, before its
first access to the status. -/
def OpKind.after : OpKind → List Rest
  | .write _ => Rest.afterWrite
  | _ => Rest.afterRead

theorem map_eq_ok {ε α β : Type} {r : Except ε α} {f : α → β} {b : β} (h : r.map f = .ok b) :
    ∃ a, r = .ok a ∧ f a = b := by
  cases r with
  | error e => cases h
  | ok a => exact ⟨a, rfl, Except.ok.inj h⟩

/-- The handler of a read, or the one of a write. Both
leave the status alone. -/
theorem OpKind.enter_cases {kind : OpKind} {c : FrontConn} {ec : ErrorCode} {data : ByteString}
    {env : Env} {h : Handling} {rest : Rest} (he : kind.enter c ec data env = .ok (h, rest)) :
    (kind.after = Rest.afterRead ∧ ReadEntered ⟨c, []⟩ h rest) ∨
      ∃ w n, kind = .write w ∧ Handling.writeEntry ec n ⟨c, []⟩ = .ok (h, rest) := by
  cases kind with
  | readHead =>
      have hq : Quiet ⟨c, []⟩ ⟨{ c with request := c.request ++ data }, []⟩ :=
        ⟨⟨[], by simp⟩, rfl, rfl, rfl, rfl, rfl⟩
      refine .inl ⟨rfl, .of_quiet hq ?_⟩
      simp only [enter] at he
      split at he
      · split at he
        · cases he
        · split at he
          · cases he
          · exact Handling.readHeadEntry_entered (mapError_eq_ok he)
      · exact Handling.readHeadEntry_entered (mapError_eq_ok he)
  | readBody offset len =>
      simp only [enter] at he
      split at he
      · cases he
      · split at he
        · cases he
        · have hq : Quiet ⟨c, []⟩ ⟨{ c with pBuffer := c.pBuffer.write offset data }, []⟩ :=
            ⟨⟨[], by simp⟩, rfl, rfl, rfl, rfl, rfl⟩
          exact .inl ⟨rfl, (Handling.readBodyEntry_entered (mapError_eq_ok he)).of_quiet hq⟩
  | write w =>
      simp only [enter] at he
      split at he
      · cases he
      · exact .inr ⟨w, _, rfl, mapError_eq_ok he⟩

theorem OpKind.enter_entered {kind : OpKind} {c : FrontConn} {ec : ErrorCode} {data : ByteString}
    {env : Env} {h : Handling} {rest : Rest} (he : kind.enter c ec data env = .ok (h, rest)) :
    h.conn.stats = c.stats ∧ (∀ e ∈ h.effects, e.starts = false) ∧ rest ∈ kind.after := by
  have hnone : ∀ e ∈ ([] : List Effect), e.starts = false := by simp
  obtain ⟨hafter, hread⟩ | ⟨w, n, rfl, hwrite⟩ := enter_cases he
  · obtain ⟨hentered, hrest⟩ := hread.entered
    exact ⟨hentered.stats, hentered.effects hnone, hafter ▸ hrest⟩
  · obtain ⟨hentered, hrest⟩ := Handling.writeEntry_entered hwrite
    exact ⟨hentered.stats, hentered.effects hnone, hrest⟩

namespace Handling

variable {env : Env} {ec : ErrorCode} {n : Nat} {h h' : Handling} {rest : Rest}

theorem readBodyEntry_exit (hr : h.readBodyEntry env ec n = .ok (h', rest)) :
    rest = .write ↔ bodyExit h.conn ec n = .answer := by
  rw [readBodyEntry] at hr
  rw [bodyExit]
  split at hr
  next hok =>
    rw [if_pos hok]
    simp only at hr
    split at hr
    next hlt =>
      obtain ⟨-, rfl⟩ := Prod.mk.inj (Except.ok.inj hr)
      rw [if_pos (show h.conn.rSize + n < _ from hlt)]
      decide
    next hlt =>
      rw [if_neg (show ¬ h.conn.rSize + n < _ from hlt)]
      split at hr
      · split at hr
        · cases hr
        · obtain ⟨-, rfl⟩ := Prod.mk.inj (Except.ok.inj hr)
          decide
        · obtain ⟨-, rfl⟩ := Prod.mk.inj (Except.ok.inj hr)
          decide
      · obtain ⟨-, rfl⟩ := Prod.mk.inj (Except.ok.inj hr)
        decide
  next hok =>
    rw [if_neg hok]
    split at hr
    next hne =>
      obtain ⟨-, rfl⟩ := socketErrorEntry_eq_ok hr
      rw [if_pos hne]
      decide
    next hne =>
      obtain ⟨-, rfl⟩ := Prod.mk.inj (Except.ok.inj hr)
      rw [if_neg hne]
      decide

theorem receiveBodyEntry_exit (hr : h.receiveBodyEntry env = .ok (h', rest)) :
    rest = .write ↔ acceptedExit h.conn.parser h.conn.request.length = .answer := by
  rw [receiveBodyEntry] at hr
  simp only at hr
  split at hr
  · cases hr
  split at hr
  · cases hr
  next g₁ hg₁ =>
  split at hr
  · cases hr
  next g₂ hg₂ =>
    have hparser : g₂.conn.parser = h.conn.parser :=
      (takeAdditional_conn hg₂).1.trans (growBuffer_conn hg₁).1
    have hsize : g₂.conn.rSize = 0 :=
      (takeAdditional_conn hg₂).2.2.trans (growBuffer_conn hg₁).2.2
    rw [acceptedExit]
    split at hr
    next hlt =>
      obtain ⟨-, rfl⟩ := Prod.mk.inj (Except.ok.inj hr)
      rw [if_pos hlt]
      decide
    next hlt =>
      rw [if_neg hlt, readBodyEntry_exit hr, bodyExit]
      by_cases hz : h.conn.request.length = 0
      · simp [hz]
      · rw [if_pos ⟨rfl, hz⟩, if_neg hz, hparser, hsize, if_neg (by omega)]

theorem readHeadEntry_exit (hr : h.readHeadEntry env ec n = .ok (h', rest)) :
    rest = .write ↔ headExit h.conn ec n = .answer := by
  simp only [readHeadEntry] at hr
  rw [headExit]
  split at hr
  next hok =>
    rw [if_pos hok]
    generalize h.conn.parser.parseRequest h.conn.request = result at hr ⊢
    obtain ⟨parsed, parser⟩ := result
    cases hparsed : parsed with
    | false =>
      simp only [hparsed, Bool.not_false, if_true] at hr
      obtain ⟨-, rfl⟩ := Prod.mk.inj (Except.ok.inj hr)
      simp
    | true =>
      simp only [hparsed, Bool.not_true, Bool.false_eq_true, if_false] at hr
      cases hpost : parser.isPost with
      | false =>
        simp only [hpost, Bool.not_false, if_true] at hr
        obtain ⟨-, rfl⟩ := Prod.mk.inj (Except.ok.inj hr)
        simp [hpost]
      | true =>
        simp only [hpost, Bool.not_true, Bool.false_eq_true, if_false] at hr
        cases huri : parser.acceptsUri with
        | false =>
          simp only [huri, Bool.false_eq_true, if_false] at hr
          obtain ⟨-, rfl⟩ := Prod.mk.inj (Except.ok.inj hr)
          simp [huri]
        | true =>
          simp only [huri, if_true] at hr
          rw [receiveBodyEntry_exit hr]
          simp [hpost, huri, Handling.emit]
  next hok =>
    rw [if_neg hok]
    split at hr
    next hne =>
      obtain ⟨-, rfl⟩ := socketErrorEntry_eq_ok hr
      rw [if_pos hne]
      decide
    next hne =>
      obtain ⟨-, rfl⟩ := Prod.mk.inj (Except.ok.inj hr)
      rw [if_neg hne]
      decide

end Handling

/-- The handlers of the reads come to `write_return` exactly where they answer
in the atomic model. -/
theorem OpKind.enter_exit {kind : OpKind} {c : FrontConn} {ec : ErrorCode} {data : ByteString}
    {env : Env} {h : Handling} {rest : Rest} (he : kind.enter c ec data env = .ok (h, rest)) :
    rest = .write ↔ kind.exit c ec data = .answer := by
  cases kind with
  | readHead =>
      simp only [enter] at he
      split at he
      next hok =>
        split at he
        · cases he
        · split at he
          · cases he
          next i hi =>
            rw [Handling.readHeadEntry_exit (mapError_eq_ok he), exit, if_pos hok, hi]
            rfl
      next hok =>
        rw [Handling.readHeadEntry_exit (mapError_eq_ok he), exit, if_neg hok]
  | readBody offset len =>
      simp only [enter] at he
      split at he
      · cases he
      · split at he
        · cases he
        · rw [Handling.readBodyEntry_exit (mapError_eq_ok he)]
          rfl
  | write w =>
      simp only [enter] at he
      split at he
      · cases he
      · obtain ⟨-, hrest⟩ := Handling.writeEntry_entered (mapError_eq_ok he)
        have hnot : rest ≠ .write := by
          rintro rfl
          exact absurd hrest (by decide)
        refine iff_of_false hnot ?_
        rw [exit, writeExit]
        split
        · decide
        · split <;> decide

/-- What a read handler may stop at needs no read beside its own, what the
write handler may stop at needs what was there before. -/
theorem Rest.allows_after {op : Op} {rest : Rest} {stats : ConnectionStats} {reads : Nat}
    (hrest : rest ∈ op.kind.after) (hop : op.isRead = true → reads = 0)
    (hdone : op.isRead = false → Rest.done.Allows stats reads) : rest.Allows stats reads := by
  obtain ⟨kind, sock, cancelled⟩ := op
  cases kind with
  | write w =>
      obtain ⟨hle, hworking⟩ := hdone rfl
      simp only [OpKind.after, afterWrite, List.mem_cons, List.not_mem_nil, or_false] at hrest
      obtain rfl | rfl | rfl := hrest
      · exact ⟨hle, hworking⟩
      · exact ⟨hle, hworking⟩
      · exact hle
  | _ =>
      obtain rfl := hop rfl
      simp only [OpKind.after, afterRead, List.mem_cons, List.not_mem_nil, or_false] at hrest
      obtain rfl | rfl | rfl := hrest
      · rfl
      · rfl
      · exact Nat.zero_le 1

section Step

variable {env : Env} {h h' : Handling} {e : Effect} {c : FrontConn} {rest rest' : Rest}

/-- The test of the status in front of a read: it ends the handler,
or lets the read through. -/
theorem Handling.testStats_cases (env : Env) (arm : Rest) (h : Handling) :
    (h.conn.stats ≠ .working ∧ h.testStats env arm = (h, .done)) ∨
      (h.conn.stats = .working ∧ h.testStats env arm = (h.touchSockTime env, arm)) := by
  by_cases hs : h.conn.stats = .working
  · exact .inr ⟨hs, if_neg (not_not.mpr hs)⟩
  · exact .inl ⟨hs, if_pos hs⟩

theorem Handling.doWrite_starts (hr : h.doWrite env = .ok h') :
    h'.conn.stats = h.conn.stats ∧ h'.conn.pSock = h.conn.pSock ∧
      (h'.effects = h.effects ∨
        ∃ offset len, h'.effects = h.effects ++ [.asyncWrite offset len]) := by
  obtain ⟨-, rfl⟩ | ⟨-, -, -, rfl⟩ := Handling.doWrite_cases hr
  · exact ⟨rfl, rfl, .inl rfl⟩
  · exact ⟨rfl, rfl, .inr ⟨_, _, rfl⟩⟩

def startedReads (effects : List Effect) : Nat := effects.countP Effect.starts

/-- What one step of a handler does to the reads, and to the
reference of the handler. -/
structure Rest.Stepped (c : FrontConn) (reads : Nat) (h : Handling) (rest' : Rest) : Prop where
  allows : rest'.Allows h.conn.stats (reads + startedReads h.effects)
  sock : h.conn.pSock = c.pSock
  socket : c.pSock ≠ none ∨ startedReads h.effects = 0
  released : .pushToRemove ∈ h.effects → rest' = .done

/-- A test that does not let the read through has not seen `conn_working`;
otherwise the read is next. -/
private theorem stepped_of_tested {reads : Nat} (arm : Rest)
    (harm : arm.Allows c.stats reads)
    (ht : Handling.testStats env arm ⟨c, []⟩ = (h, rest')) (hreads : reads = 0) :
    Rest.Stepped c reads h rest' := by
  subst hreads
  obtain ⟨hs, heq⟩ | ⟨hs, heq⟩ := Handling.testStats_cases env arm ⟨c, []⟩
  · obtain ⟨rfl, rfl⟩ := Prod.mk.inj (heq.symm.trans ht)
    exact ⟨⟨Nat.zero_le 1, fun hw => absurd hw hs⟩, rfl, .inr rfl, fun _ => rfl⟩
  · obtain ⟨rfl, rfl⟩ := Prod.mk.inj (heq.symm.trans ht)
    exact ⟨harm, rfl, .inr rfl, fun hmem => absurd hmem List.not_mem_nil⟩

/-- A read that is started is the only one. This is what
the invariant is about. -/
private theorem stepped_of_armed {reads : Nat} (he : e.starts = true)
    (hr : (⟨c, []⟩ : Handling).withSocket e = .ok h) (hreads : reads = 0) :
    Rest.Stepped c reads h .done := by
  subst hreads
  obtain ⟨⟨sock, hsock⟩, rfl⟩ := Handling.withSocket_eq_ok hr
  have hone : 0 + startedReads [e] = 1 := by simp [startedReads, he]
  have hne : c.pSock ≠ none := by
    have hsome : c.pSock = some sock := hsock
    rw [hsome]
    exact Option.some_ne_none sock
  exact ⟨⟨hone.le, fun _ => hone⟩, rfl, .inl hne, fun _ => rfl⟩

theorem Rest.step_stepped {reads : Nat} (hs : rest.step env ⟨c, []⟩ = .ok (h, rest'))
    (ha : rest.Allows c.stats reads) : Rest.Stepped c reads h rest' := by
  have hwritten : ∀ {h : Handling}, Handling.doWrite env ⟨c, []⟩ = .ok h →
      h.conn.stats = c.stats ∧ h.conn.pSock = c.pSock ∧ startedReads h.effects = 0 ∧
        .pushToRemove ∉ h.effects := by
    intro h hr
    obtain ⟨hstats, hsock, heffects | ⟨offset, len, heffects⟩⟩ := Handling.doWrite_starts hr
    · rw [heffects]
      exact ⟨hstats, hsock, rfl, List.not_mem_nil⟩
    · rw [heffects]
      exact ⟨hstats, hsock, rfl, by simp⟩
  cases rest with
  | write =>
      obtain ⟨g, hg, heq⟩ := map_eq_ok hs
      obtain ⟨rfl, rfl⟩ := Prod.mk.inj heq
      obtain ⟨hstats, hsock, hzero, hpush⟩ := hwritten hg
      refine ⟨?_, hsock, .inr hzero, fun hmem => absurd hmem hpush⟩
      rw [hzero]
      exact ha
  | start =>
      obtain ⟨rfl, rfl⟩ := Prod.mk.inj (Except.ok.inj hs)
      exact ⟨ha, rfl, .inr rfl, fun hmem => absurd hmem List.not_mem_nil⟩
  | readHead => exact stepped_of_tested .armHead ha (Except.ok.inj hs) ha
  | readBody => exact stepped_of_tested .armBody ha (Except.ok.inj hs) ha
  | armHead =>
      obtain ⟨g, hg, heq⟩ := map_eq_ok hs
      obtain ⟨rfl, rfl⟩ := Prod.mk.inj heq
      exact stepped_of_armed rfl hg ha
  | armBody =>
      obtain ⟨g, hg, heq⟩ := map_eq_ok hs
      obtain ⟨rfl, rfl⟩ := Prod.mk.inj heq
      exact stepped_of_armed rfl hg ha
  | writeMore =>
      obtain ⟨g, hg, heq⟩ := map_eq_ok hs
      obtain ⟨rfl, rfl⟩ := Prod.mk.inj heq
      obtain ⟨hstats, hsock, hzero, hpush⟩ := hwritten hg
      refine ⟨?_, hsock, .inr hzero, fun _ => rfl⟩
      rw [hzero, hstats]
      exact ha
  | fail =>
      obtain ⟨rfl, rfl⟩ := Prod.mk.inj (Except.ok.inj hs)
      exact ⟨⟨ha, fun hw => by cases hw⟩, rfl, .inr rfl, fun _ => rfl⟩
  | done =>
      obtain ⟨rfl, rfl⟩ := Prod.mk.inj (Except.ok.inj hs)
      exact ⟨ha, rfl, .inr rfl, fun _ => rfl⟩

end Step

theorem perform_reads (x : Session) (e : Effect)
    (hsock : x.conn.pSock ≠ none ∨ startedReads [e] = 0) :
    ∃ f new, (∀ op : Op, (f op).isRead = op.isRead) ∧ (x.perform e).ops = x.ops.map f ++ new ∧
      new.countP Op.isRead = startedReads [e] := by
  have hsame : x.ops = x.ops.map id ++ [] := by simp
  simp only [Session.perform]
  cases hs : x.conn.pSock with
  | none =>
      have hzero := hsock.resolve_left (not_not.mpr hs)
      exact ⟨id, [], fun _ => rfl, hsame, hzero.symm⟩
  | some sock =>
      cases e with
      | asyncReadUntil => exact ⟨id, _, fun _ => rfl, by rw [List.map_id], rfl⟩
      | asyncRead offset len => exact ⟨id, _, fun _ => rfl, by rw [List.map_id], rfl⟩
      | asyncWrite offset len => exact ⟨id, _, fun _ => rfl, by rw [List.map_id], rfl⟩
      | cancel =>
          refine ⟨_, [], fun op => ?_, (List.append_nil _).symm, rfl⟩
          split <;> rfl
      | _ => exact ⟨id, [], fun _ => rfl, hsame, rfl⟩

/-- The operations that were outstanding keep their places,
and the new ones follow. -/
theorem performAll_reads (x : Session) (effects : List Effect)
    (hsock : x.conn.pSock ≠ none ∨ startedReads effects = 0) :
    ∃ f new, (∀ op : Op, (f op).isRead = op.isRead) ∧
      (x.performAll effects).ops = x.ops.map f ++ new ∧
      new.countP Op.isRead = startedReads effects := by
  induction effects generalizing x with
  | nil => exact ⟨id, [], fun _ => rfl, by simp, rfl⟩
  | cons e rest ih =>
      have hsum : startedReads (e :: rest) = startedReads [e] + startedReads rest := by
        rw [startedReads, ← List.singleton_append, List.countP_append]
        rfl
      rw [hsum] at hsock
      obtain ⟨f, new, hf, hops, hnew⟩ := perform_reads x e (hsock.imp_right fun h => by omega)
      obtain ⟨g, more, hg, hall, hmore⟩ := ih (x.perform e) (hsock.imp_right fun h => by omega)
      refine ⟨g ∘ f, new.map g ++ more, fun op => (hg _).trans (hf op), ?_, ?_⟩
      · rw [Session.performAll_cons, hall, hops]
        simp
      · rw [List.countP_append, hmore, List.countP_map, hsum, ← hnew]
        congr 1
        exact List.countP_congr fun op _ => by simp [hg]

theorem performAll_tail_reads {x : Session} {effects : List Effect}
    (hsock : x.conn.pSock ≠ none ∨ startedReads effects = 0) (hne : x.ops ≠ []) :
    (x.performAll effects).ops ≠ [] ∧ (x.performAll effects).ops.tail.countP Op.isRead =
      x.ops.tail.countP Op.isRead + startedReads effects := by
  obtain ⟨f, new, hf, hops, hnew⟩ := performAll_reads x effects hsock
  obtain ⟨op, ops, hcons⟩ := List.exists_cons_of_ne_nil hne
  rw [hops, hcons]
  refine ⟨by simp, ?_⟩
  rw [List.map_cons, List.cons_append, List.tail_cons, List.tail_cons, List.countP_append, hnew,
    List.countP_map]
  congr 1
  exact List.countP_congr fun op _ => by simp [hf]

theorem performAll_countP {x : Session} {effects : List Effect}
    (hsock : x.conn.pSock ≠ none ∨ startedReads effects = 0) :
    (x.performAll effects).ops.countP Op.isRead =
      x.ops.countP Op.isRead + startedReads effects := by
  obtain ⟨f, new, hf, hops, hnew⟩ := performAll_reads x effects hsock
  rw [hops, List.countP_append, hnew, List.countP_map]
  congr 1
  exact List.countP_congr fun op _ => by simp [hf]

end Ailawd
