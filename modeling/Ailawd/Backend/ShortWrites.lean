import Ailawd.Backend.Containment

/-!
# Short writes to the backend

`redirect_to_win` calls `write_some` once and reads the reply at once, so the backend has what
this one call took of the request. `analyse_handler` hands it the body up to the first NUL.
-/

namespace Ailawd

open ByteString

/-- What the calls have sent to the backend, in the order of the calls. -/
def sentBytes (calls : List Call) : ByteString :=
  calls.flatMap fun
    | .writeSome sent => sent
    | _ => []

namespace Services

/-- Whatever the backend replies, `redirect_to_win` fails or has sent exactly
these bytes when it reads the reply. -/
def SendsAll (v : Services) (x : Exchange) (store : RedisStore) (body question : ByteString) :
    Prop :=
  ∀ reads out store', v.analyseHandler { x with reads := reads } store body = .ok (out, store') →
    out.text ≠ none → sentBytes out.calls = question

section Sending

variable {v : Services} {x : Exchange} {store : RedisStore} {body question text : ByteString}

theorem redirectToWin_sent {b : Backend} {calls : List Call}
    (h : b.redirectToWin body = .ok ⟨some text, calls⟩) : b.connects = true ∧
      ∃ n, b.writeSome body = some n ∧ calls = [.writeSome (body.take n)] := by
  simp only [Backend.redirectToWin] at h
  split at h
  · cases h
  next hconnects =>
    split at h
    · cases h
    next n hn =>
      refine ⟨by simpa using hconnects, n, hn, ?_⟩
      split at h
      · cases h
      · split at h
        · cases h
        · split at h
          · cases h
          · exact (Outcome.mk.inj (Except.ok.inj h)).2.symm

/-- A miss sends what the exchange with the backend sends; the calls to Redis
send nothing there. -/
theorem analyseHandler_of_miss (hmiss : v.Misses x store body) : ∃ key,
    v.analyseHandler x store body =
      match (v.backend x store).redirectToWin (cString body) with
      | .error e => .error e
      | .ok ⟨none, calls⟩ => .ok (⟨none, .getValue key none :: calls⟩, store)
      | .ok ⟨some text, calls⟩ => .ok (⟨some text, .getValue key none ::
          (calls ++ [.setValue key text])⟩, RedisClient.setValueBinary x store key text) := by
  obtain ⟨q, hq, hget⟩ := hmiss
  have hnone : (v.backend x store).getValue (v.key q) = none := hget
  refine ⟨v.key q, ?_⟩
  rw [analyseHandler_eq, analyse_of_query hq, Backend.query, hnone]
  cases hr : (v.backend x store).redirectToWin (cString body) with
  | error e => rfl
  | ok out =>
      obtain ⟨text, calls⟩ := out
      have hcalls : calls.foldl (Call.apply x) store = store :=
        Call.foldl_apply_writes (Backend.redirectToWin_calls hr)
      cases text with
      | none => simp [Except.map, Call.apply, hcalls]
      | some text => simp [Except.map, Call.apply, hcalls]

theorem sendsAll_iff_take (hmiss : v.Misses x store body) : v.SendsAll x store body question ↔
    ∀ n, x.connects = true → x.writeSome (cString body) = some n →
      (cString body).take n = question := by
  have hmisses : ∀ reads, v.Misses { x with reads := reads } store body := fun _ => hmiss
  constructor
  · intro hsends n hconnects hn
    -- the backend answers with one byte
    obtain ⟨key, hkey⟩ := analyseHandler_of_miss (hmisses [decimal 1 ++ 58 :: [97]])
    have hone : ([97] : ByteString).length = 1 := rfl
    rw [redirectToWin_single hone (Nat.le_refl 1) (by decide) (by decide) hconnects hn rfl]
      at hkey
    have hsent := hsends _ _ _ hkey (by simp)
    simpa [sentBytes] using hsent
  · intro htake reads out store' hout htext
    obtain ⟨key, hkey⟩ := analyseHandler_of_miss (hmisses reads)
    rw [hkey] at hout
    split at hout
    · cases hout
    · obtain rfl := (Prod.mk.inj (Except.ok.inj hout)).1
      exact absurd rfl htext
    next text calls hr =>
      obtain rfl := (Prod.mk.inj (Except.ok.inj hout)).1
      obtain ⟨hconnects, n, hn, rfl⟩ := redirectToWin_sent hr
      simpa [sentBytes] using htake n hconnects hn

/-- A question reaches the backend exactly if `write_some` takes it whole, when
it is called at all and does not throw. For the body as it was received it must
also have no NUL. -/
theorem sends_all_iff (hmiss : v.Misses x store body) :
    (v.SendsAll x store body (cString body) ↔ ∀ n, x.connects = true →
      x.writeSome (cString body) = some n → (cString body).length ≤ n) ∧
    (v.SendsAll x store body body ↔ ∀ n, x.connects = true →
      x.writeSome (cString body) = some n → 0 ∉ body ∧ body.length ≤ n) := by
  rw [sendsAll_iff_take hmiss, sendsAll_iff_take hmiss]
  refine ⟨by simp only [List.take_eq_self_iff], ?_⟩
  refine forall_congr' fun n => imp_congr_right fun _ => imp_congr_right fun _ => ?_
  constructor
  · intro htake
    have hlen := congrArg List.length htake
    have hle := (cString_isPrefix body).length_le
    rw [List.length_take] at hlen
    have hself : cString body = body := (cString_isPrefix body).eq_of_length (by omega)
    exact ⟨cString_eq_self_iff.mp hself, by omega⟩
  · rintro ⟨hplain, hle⟩
    rw [cString_eq_self hplain, List.take_of_length_le hle]

end Sending

/-- A backend of which one `write_some` takes at most so many bytes, as
a full send buffer does. -/
def taking (limit : Nat) : Exchange :=
  ⟨true, fun text => some (min limit text.length), [], true, true⟩

theorem taking_misses (limit : Nat) : uuidServices.Misses (taking limit) (fun _ => none) uuidBody :=
  ⟨.uuid (ofString "7"), by decide +kernel, rfl⟩

theorem sends_all_iff_one_segment :
    uuidServices.SendsAll (taking 1460) (fun _ => none) uuidBody uuidBody := by
  refine (sends_all_iff (taking_misses 1460)).2.mpr fun n _ hn => ?_
  obtain rfl := Option.some.inj hn
  decide +kernel

/-- Ten bytes are taken, and the reply to them is returned and stored: the rest
of the question is never sent. -/
theorem ten_bytes_taken : uuidServices.Misses (taking 10) (fun _ => none) uuidBody ∧
    (∃ out store', uuidServices.analyseHandler { taking 10 with reads := [ofString "5:hello"] }
        (fun _ => none) uuidBody = .ok (out, store') ∧ out.text = some (ofString "hello") ∧
      sentBytes out.calls = uuidBody.take 10 ∧ store' (ofString "7") = some (ofString "hello")) ∧
    ¬ uuidServices.SendsAll (taking 10) (fun _ => none) uuidBody uuidBody := by
  have hout : (uuidServices.backend { taking 10 with reads := [ofString "5:hello"] }
      (fun _ => none)).analyse uuidBody = .ok ⟨some (ofString "hello"),
        [.getValue (ofString "7") none, .writeSome (uuidBody.take 10),
          .setValue (ofString "7") (ofString "hello")]⟩ := by
    decide +kernel
  have hanswer := analyseHandler_eq uuidServices { taking 10 with reads := [ofString "5:hello"] }
    (fun _ => none) uuidBody
  rw [hout] at hanswer
  refine ⟨taking_misses 10, ⟨_, _, hanswer, rfl, rfl, by decide +kernel⟩, fun hsends => ?_⟩
  have hlen := congrArg List.length (hsends _ _ _ hanswer (by simp))
  exact absurd hlen (by decide +kernel)

end Services

end Ailawd
