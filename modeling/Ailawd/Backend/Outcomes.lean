import Ailawd.Backend.Exchange
import Ailawd.Cache.History

/-!
# What comes of an exchange with the backend

`connect` and `read_some` report errors through an error code, `write_some` throws, a
wrapped length makes `resize` throw or lets a read overrun the buffer, and a reply that
ends early is returned as if it were whole. `Exchange.Returns` and `Exchange.Delivers` say
from the steps of an exchange alone whether `redirect_to_win` returns and whether it
returns a text; `analyse_handler` adds only the faults of rapidjson.
-/

namespace Ailawd

open ByteString

namespace Exchange

variable (x : Exchange) (sent : ByteString)

/-- No step throws, and no read overruns the buffer. This is about what is sent
and about the head of what comes. -/
def Returns : Prop :=
  x.connects = true → x.writeSome sent ≠ none ∧
    ∀ start length, ClientOps.announced x.reads = some (start, length) →
      0 < length ∨ -256 ≤ length ∧ (ClientOps.firstRead x.reads : Int) ≤ start + length + 256

/-- A head is acted on, and something follows it, so that
`sync_read_from` does not return 0. -/
def Delivers : Prop :=
  x.connects = true ∧ ∃ start length, ClientOps.announced x.reads = some (start, length) ∧
    x.reads.flatten.length ≠ start ∧ length ≠ -256

/-- No step fails: all that a positive length announces arrives,
as far as the reads get. -/
def Succeeds : Prop :=
  x.connects = true ∧ x.writeSome sent ≠ none ∧
    ∃ start length, ClientOps.announced x.reads = some (start, length) ∧ 0 < length ∧
      start + length ≤ x.reads.flatten.length

variable {x sent}

theorem Succeeds.returns (h : x.Succeeds sent) : x.Returns sent := by
  obtain ⟨-, hsent, start, length, hhead, hpos, -⟩ := h
  intro _
  refine ⟨hsent, ?_⟩
  intro start' length' hhead'
  obtain ⟨rfl, rfl⟩ := Prod.mk.inj (Option.some.inj (hhead.symm.trans hhead'))
  exact .inl hpos

end Exchange

namespace Services

variable {v : Services} {x : Exchange} {store : RedisStore} {body : ByteString}

private theorem redirectToWin_of_read {sent len : Nat} {buff : CharVec}
    (hconnects : x.connects = true) (hsent : x.writeSome body = some sent)
    (hsync : ClientOps.syncReadFrom x.reads (CharVec.zeros (32 * 1024)) = .ok (len, buff))
    (hle : len ≤ buff.size) :
    ∃ out, (v.backend x store).redirectToWin body = .ok out ∧ (out.text = none ↔ len = 0) := by
  simp only [Backend.redirectToWin, backend, hconnects, hsent, hsync, Bool.true_eq_false, if_false]
  by_cases hlen : len = 0
  · rw [if_pos hlen]
    exact ⟨_, rfl, by simp [hlen]⟩
  · rw [if_neg hlen, if_neg (Nat.not_lt.mpr hle)]
    exact ⟨_, rfl, by simp [hlen]⟩

theorem redirectToWin_of_returns (v : Services) (store : RedisStore)
    (hne : ∀ seg ∈ x.reads, seg ≠ []) (h : x.Returns body) :
    ∃ out, (v.backend x store).redirectToWin body = .ok out ∧ (out.text = none ↔ ¬ x.Delivers) := by
  by_cases hconnects : x.connects = true
  · obtain ⟨hsend, hhead⟩ := h hconnects
    obtain ⟨sent, hsent⟩ := Option.ne_none_iff_exists'.mp hsend
    cases hannounced : ClientOps.announced x.reads with
    | none =>
        obtain ⟨buff, hsync⟩ := ClientOps.syncReadFrom_of_none hannounced
        obtain ⟨out, hout, htext⟩ := redirectToWin_of_read hconnects hsent hsync (Nat.zero_le _)
        refine ⟨out, hout, htext.trans ?_⟩
        simp [Exchange.Delivers, hannounced]
    | some head =>
        obtain ⟨start, length⟩ := head
        obtain ⟨len, buff, hsync, hle, hlen⟩ : ∃ len buff,
            ClientOps.syncReadFrom x.reads (CharVec.zeros (32 * 1024)) = .ok (len, buff) ∧
              len ≤ buff.size ∧ (len = 0 ↔ x.reads.flatten.length = start ∨ length = -256) := by
          obtain hpos | ⟨hlo, hfits⟩ := hhead start length hannounced
          · obtain ⟨len, buff, hsync, hle, hlen, -⟩ :=
              ClientOps.syncReadFrom_of_pos hne hannounced hpos
            exact ⟨len, buff, hsync, hle, by rw [hlen]; omega⟩
          · by_cases hpos : 0 < length
            · obtain ⟨len, buff, hsync, hle, hlen, -⟩ :=
                ClientOps.syncReadFrom_of_pos hne hannounced hpos
              exact ⟨len, buff, hsync, hle, by rw [hlen]; omega⟩
            · have hzero := (ClientOps.announced_spec hannounced).choose_spec.choose_spec.2.2.1
              have hback := ClientOps.syncReadFrom_of_wrapped hne hannounced (by omega) hlo
              rwa [if_pos hfits] at hback
        obtain ⟨out, hout, htext⟩ := redirectToWin_of_read hconnects hsent hsync hle
        refine ⟨out, hout, htext.trans (hlen.trans ?_)⟩
        simp only [Exchange.Delivers, hconnects, hannounced, true_and]
        constructor
        · rintro hnone ⟨_, _, hsome, hmore, hfull⟩
          obtain ⟨rfl, rfl⟩ := Prod.mk.inj (Option.some.inj hsome)
          exact hnone.elim hmore hfull
        · intro hnot
          by_contra hnone
          push Not at hnone
          exact hnot ⟨start, length, rfl, hnone.1, hnone.2⟩
  · have hfalse : x.connects = false := by simpa using hconnects
    refine ⟨⟨none, []⟩, ?_, by simp [Exchange.Delivers, hfalse]⟩
    simp only [Backend.redirectToWin, backend, hfalse, if_true]

theorem redirectToWin_of_not_returns (v : Services) (store : RedisStore)
    (hne : ∀ seg ∈ x.reads, seg ≠ []) (h : ¬ x.Returns body) :
    ∃ e, (v.backend x store).redirectToWin body = .error e := by
  simp only [Exchange.Returns, not_forall] at h
  obtain ⟨hconnects, h⟩ := h
  simp only [Backend.redirectToWin, backend, hconnects, Bool.true_eq_false, if_false]
  cases hsent : x.writeSome body with
  | none => exact ⟨_, rfl⟩
  | some sent =>
      simp only [hsent, ne_eq, reduceCtorEq, not_false_eq_true, true_and, not_forall] at h
      obtain ⟨start, length, hannounced, hbad⟩ := h
      have hzero := (ClientOps.announced_spec hannounced).choose_spec.choose_spec.2.2.1
      by_cases hlo : -256 ≤ length
      · have hback := ClientOps.syncReadFrom_of_wrapped hne hannounced (by omega) hlo
        rw [if_neg (by omega)] at hback
        obtain hsync | ⟨len, buff, hsync, hover⟩ := hback
        · simp only [hsync]
          exact ⟨_, rfl⟩
        · simp only [hsync]
          rw [if_neg (by omega), if_pos hover]
          exact ⟨_, rfl⟩
      · simp only [ClientOps.syncReadFrom_of_lt hannounced (by omega)]
        exact ⟨_, rfl⟩

variable (v x store body)

/-- An authorised query that Redis does not answer, so
that the backend is asked. -/
def Misses : Prop :=
  ∃ q, v.query body = some q ∧ RedisClient.getValueBinary x store (v.key q) = none

/-- An authorised query that Redis or the backend answers, so that
the client gets a text. -/
def Answers : Prop :=
  ∃ q, v.query body = some q ∧
    (RedisClient.getValueBinary x store (v.key q) ≠ none ∨ x.Delivers)

variable {v x store body}

theorem answers_iff {q : Query} (hq : v.query body = some q) : v.Answers x store body ↔
    RedisClient.getValueBinary x store (v.key q) ≠ none ∨ x.Delivers := by
  constructor
  · rintro ⟨q', hq', h⟩
    obtain rfl := Option.some.inj (hq.symm.trans hq')
    exact h
  · intro h
    exact ⟨q, hq, h⟩

/-- The work on a body, given that the exchange returns if there is one. It has
a text exactly if somebody answers. -/
theorem analyseHandler_of_returns (store : RedisStore) (hne : ∀ seg ∈ x.reads, seg ≠ [])
    (hread : v.readable body = true) (h : v.Misses x store body → x.Returns (cString body)) :
    ∃ out store', v.analyseHandler x store body = .ok (out, store') ∧
      (out.text = none ↔ ¬ v.Answers x store body) ∧ (out.text = none → store' = store) := by
  rw [analyseHandler_eq, analyse_eq]
  cases hq : v.query body with
  | none =>
      simp only [hread, if_true]
      exact ⟨_, _, rfl, by simp [Answers, hq], fun _ => rfl⟩
  | some q =>
      simp only [answers_iff hq, Backend.query]
      rw [show (v.backend x store).getValue (v.key q) =
        RedisClient.getValueBinary x store (v.key q) from rfl]
      cases hget : RedisClient.getValueBinary x store (v.key q) with
      | some text => exact ⟨_, _, rfl, by simp, by simp⟩
      | none =>
          obtain ⟨⟨text, calls⟩, hout, htext⟩ :=
            redirectToWin_of_returns v store hne (h ⟨q, hq, hget⟩)
          have hcalls : calls.foldl (Call.apply x) store = store :=
            Call.foldl_apply_writes (Backend.redirectToWin_calls hout)
          rw [hout]
          simp only [ne_eq, not_true_eq_false, false_or]
          cases text with
          | none => exact ⟨_, _, rfl, htext, fun _ => hcalls⟩
          | some text => exact ⟨_, _, rfl, htext, by simp⟩

theorem analyseHandler_returns_iff (hne : ∀ seg ∈ x.reads, seg ≠ []) :
    (∃ r, v.analyseHandler x store body = .ok r) ↔
      v.readable body = true ∧ (v.Misses x store body → x.Returns (cString body)) := by
  constructor
  · rintro ⟨r, hr⟩
    rw [analyseHandler_eq, analyse_eq] at hr
    cases hq : v.query body with
    | none =>
        refine ⟨?_, by simp [Misses, hq]⟩
        by_contra hread
        simp only [hq, hread, if_false] at hr
        cases hr
    | some q =>
        refine ⟨readable_of_query hq, ?_⟩
        rintro ⟨q', hq', hget⟩
        obtain rfl := Option.some.inj (hq.symm.trans hq')
        by_contra hthrows
        obtain ⟨e, he⟩ := redirectToWin_of_not_returns v store hne hthrows
        simp only [hq, Backend.query, he] at hr
        rw [show (v.backend x store).getValue (v.key q) =
          RedisClient.getValueBinary x store (v.key q) from rfl, hget] at hr
        cases hr
  · rintro ⟨hread, hback⟩
    obtain ⟨out, store', hout, -⟩ := analyseHandler_of_returns store hne hread hback
    exact ⟨_, hout⟩

end Services

end Ailawd
