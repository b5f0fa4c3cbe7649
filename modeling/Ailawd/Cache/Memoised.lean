import Ailawd.Cache.Values
import Ailawd.Library.Memo
import Ailawd.Library.Simulation

/-!
# The cache is a memo table

`analyse_handler` over the Redis store is the memoised query of the backend: the entries are the
table, an answer of the backend is kept as a C string, and a `GET` or `SET` that Redis does not
execute is a lookup or an insertion that fails. The simulation carries over what is known of
every memo table.
-/

namespace Ailawd

open ByteString Transition

namespace Cache

variable {v : Services} {m n : Move RedisStore AnalyseRequest} {out out' : Outcome}
variable {key text : ByteString} {s : RedisStore} {moves : List (Move RedisStore AnalyseRequest)}

def Asked (v : Services) (m : Move RedisStore AnalyseRequest) (key text : ByteString) : Prop :=
  ∃ out, Returns v m out ∧ out.text = some text ∧ .getValue key none ∈ out.calls

/-- A request as the memo table sees it: a hit, a question to the backend with
what Redis lost of it, or nothing. -/
def asRequest (v : Services) (store : RedisStore) (r : AnalyseRequest) :
    Memo.Request ByteString ByteString :=
  match v.analyseHandler r.exchange store r.body with
  | .ok (⟨some text, .getValue key (some _) :: _⟩, _) => .hit key text
  | .ok (⟨some text, .getValue key none :: _⟩, _) =>
    .asked key text r.exchange.getAnswered r.exchange.setExecuted
  | _ => .nothing

theorem Returns.unique (h : Returns v m out) (h' : Returns v m out') : out = out' :=
  (Prod.mk.inj (Except.ok.inj (h.symm.trans h'))).1

/-- What Redis finds is the answer, and the backend is not asked. -/
theorem Returns.eq_of_found {q : Query} {found : ByteString} (h : Returns v m out)
    (hq : v.query m.label.body = some q)
    (hfound : RedisClient.getValueBinary m.label.exchange m.pre (v.key q) = some found) :
    out = ⟨some found, [.getValue (v.key q) (some found)]⟩ := by
  simp only [Returns, Services.analyseHandler_eq, Services.analyse_of_query hq,
    Backend.query] at h
  rw [show (v.backend m.label.exchange m.pre).getValue (v.key q) = some found from hfound] at h
  exact (Prod.mk.inj (Except.ok.inj h)).1.symm

/-- How a request that is answered from the backend has found nothing: the key
was absent, or its `GET` was lost. -/
theorem Returns.miss {q : Query} {calls : List Call} (h : Returns v m ⟨some text, calls⟩)
    (hq : v.query m.label.body = some q) (hcalls : calls.head? = some (.getValue (v.key q) none))
    (hget : m.label.exchange.getAnswered = true) : m.pre (v.key q) = none := by
  cases hkey : m.pre (v.key q) with
  | none => rfl
  | some raw =>
      have hfound : RedisClient.getValueBinary m.label.exchange m.pre (v.key q) =
          some (cString raw) := by
        rw [RedisClient.getValueBinary, if_pos hget, hkey]
        rfl
      obtain ⟨-, rfl⟩ := Outcome.mk.inj (h.eq_of_found hq hfound)
      cases hcalls

/-- The store as a memo table: its entries are C strings, so that reading them
cuts nothing more off. -/
def IsTable (store table : RedisStore) : Prop :=
  table = store ∧ ∀ key entry, store key = some entry → cString entry = entry

/-- The cache is a memo table of the backend's answers, one request for each
step. What it keeps of an answer is its C string. -/
theorem simulates_memo : Simulates (fun _ => True)
    (fun (m : Move RedisStore AnalyseRequest) segment =>
      segment.map Move.label = [asRequest v m.pre m.label])
    (step v) (Memo.step cString) IsTable := by
  rintro store r t s ⟨rfl, hs⟩ - hstep
  obtain ⟨out, hout⟩ := exists_returns hstep
  have hhandler : v.analyseHandler r.exchange s r.body = .ok (out, t) := hout
  suffices Memo.step cString s (asRequest v s r) = .ok t ∧
      ∀ key entry, t key = some entry → cString entry = entry from
    ⟨_, t, Run.one this.1, rfl, rfl, this.2⟩
  cases hout.served with
  | refused _ hpost =>
      obtain rfl : t = s := hpost
      rw [show asRequest v t r = .nothing by rw [asRequest, hhandler]]
      exact ⟨rfl, hs⟩
  | failed _ _ hpost =>
      obtain rfl : t = s := hpost
      rw [show asRequest v t r = .nothing by rw [asRequest, hhandler]]
      exact ⟨rfl, hs⟩
  | @hit q text hq hget hpost =>
      obtain rfl : t = s := hpost
      rw [show asRequest v t r = .hit (v.key q) text by rw [asRequest, hhandler]]
      refine ⟨if_pos ?_, hs⟩
      rw [RedisClient.getValueBinary] at hget
      split at hget
      · obtain ⟨raw, hraw, rfl⟩ := Option.map_eq_some_iff.mp hget
        exact hraw.trans (congrArg some (hs _ raw hraw).symm)
      · cases hget
  | @answered q text calls hq hcalls hpost =>
      rw [show asRequest v s r = .asked (v.key q) text r.exchange.getAnswered
        r.exchange.setExecuted by rw [asRequest, hhandler]]
      have hmiss := hout.miss hq rfl
      have hnot : ¬ (r.exchange.getAnswered = true ∧ s (v.key q) ≠ none) := fun h =>
        h.2 (hmiss h.1)
      obtain rfl : t = RedisClient.setValueBinary r.exchange s (v.key q) text := hpost
      refine ⟨if_neg hnot, fun key entry hkey => ?_⟩
      rw [RedisClient.setValueBinary] at hkey
      split at hkey
      · by_cases hk : key = v.key q
        · rw [hk, Function.update_self] at hkey
          rw [← Option.some.inj hkey]
          exact cString_cString text
        · rw [Function.update_of_ne hk] at hkey
          exact hs key entry hkey
      · exact hs key entry hkey

theorem memo_of_run (hr : Run (step v) init moves s) :
    ∃ moves', Run (Memo.step cString) Memo.empty moves' s ∧
      moves'.map Move.label = moves.map fun m => asRequest v m.pre m.label := by
  have hempty : IsTable init Memo.empty := ⟨rfl, nofun⟩
  obtain ⟨segments, t, hr', hlabels, rfl, -⟩ := simulates_memo.run hr (fun _ _ => trivial) hempty
  refine ⟨_, hr', ?_⟩
  have hsegments := map_label_segments hlabels
  rwa [← List.map_eq_flatMap] at hsegments

/-- What the backend has answered is a request that asks, with
what Redis did about it. -/
theorem Asked.eq (h : Asked v m key text) : asRequest v m.pre m.label =
    .asked key text m.label.exchange.getAnswered m.label.exchange.setExecuted := by
  obtain ⟨out, hout, htext, hmem⟩ := h
  have hhandler : v.analyseHandler m.label.exchange m.pre m.label.body = .ok (out, m.post) := hout
  cases hout.served with
  | refused _ _ => cases htext
  | hit _ _ _ => simp at hmem
  | failed _ _ _ => cases htext
  | @answered q found calls _ hcalls _ =>
      have hkey : key = v.key q ∨ .getValue key none ∈ calls := by simpa using hmem
      obtain rfl | hcall := hkey
      · obtain rfl := Option.some.inj htext
        rw [asRequest, hhandler]
      · obtain ⟨sent, hsent⟩ := hcalls _ hcall
        cases hsent

theorem Stored.asked (h : Stored v m key text) : Asked v m key text := by
  obtain ⟨-, out, hout, hmem⟩ := h
  refine ⟨out, hout, ?_⟩
  cases hout.served with
  | refused _ _ => cases hmem
  | hit _ _ _ => simp at hmem
  | failed _ hcalls _ =>
      obtain ⟨sent, hsent⟩ := hcalls _ (by simpa using hmem)
      cases hsent
  | @answered q found calls _ hcalls _ =>
      have hlast : .setValue key text ∈ calls ∨ key = v.key q ∧ text = found := by
        simpa using hmem
      obtain hcall | ⟨rfl, rfl⟩ := hlast
      · obtain ⟨sent, hsent⟩ := hcalls _ hcall
        cases hsent
      · exact ⟨rfl, List.mem_cons_self⟩

theorem asked_of_eq {looked kept : Bool} (hout : Returns v m out)
    (h : asRequest v m.pre m.label = .asked key text looked kept) : Asked v m key text ∧
      looked = m.label.exchange.getAnswered ∧ kept = m.label.exchange.setExecuted := by
  have hhandler : v.analyseHandler m.label.exchange m.pre m.label.body = .ok (out, m.post) := hout
  rw [asRequest, hhandler] at h
  cases hout.served with
  | refused _ _ => cases h
  | hit _ _ _ => cases h
  | failed _ _ _ => cases h
  | answered _ _ _ =>
      obtain ⟨rfl, rfl, rfl, rfl⟩ := Memo.Request.asked.inj h
      exact ⟨⟨_, hout, rfl, List.mem_cons_self⟩, rfl, rfl⟩

/-- A request with an answer is one about the key of its query,
and about no other one. -/
theorem Returns.answer {q : Query} (hout : Returns v m out) (hq : v.query m.label.body = some q)
    (htext : out.text = some text) :
    (asRequest v m.pre m.label).answer? = some (v.key q, text) := by
  have hhandler : v.analyseHandler m.label.exchange m.pre m.label.body = .ok (out, m.post) := hout
  rw [asRequest, hhandler]
  cases hout.served with
  | refused _ _ => cases htext
  | hit hq' _ _ =>
      obtain rfl := Option.some.inj (hq.symm.trans hq')
      obtain rfl := Option.some.inj htext
      rfl
  | failed _ _ _ => cases htext
  | answered hq' _ _ =>
      obtain rfl := Option.some.inj (hq.symm.trans hq')
      obtain rfl := Option.some.inj htext
      rfl

/-- If the backend answers as a function of the key does, and without NUL
bytes, then every client gets the value of that function, whatever Redis loses.
While Redis loses nothing, the backend answers once for each key. -/
theorem memoised {f : ByteString → ByteString} (hf : ∀ key, (0 : UInt8) ∉ f key)
    (hr : Run (step v) init moves s)
    (hasked : ∀ m ∈ moves, ∀ key text, Asked v m key text → text = f key) :
    (∀ m ∈ moves, ∀ q out text, v.query m.label.body = some q → Returns v m out →
        out.text = some text → text = f (v.key q)) ∧
      ((∀ m ∈ moves, m.label.exchange.getAnswered = true ∧ m.label.exchange.setExecuted = true) →
        moves.Pairwise fun m m' => ∀ key text text', Asked v m key text →
          ¬ Asked v m' key text') := by
  obtain ⟨moves', hr', hlabels⟩ := memo_of_run hr
  have hreturns : ∀ m ∈ moves, ∃ out, Returns v m out := fun m hm =>
    exists_returns (hr.step_of_mem m hm)
  refine ⟨fun m hm q out text hq hout htext => ?_, fun hall => ?_⟩
  · refine Memo.answers_sound (fun key => cString_eq_self_iff.mpr (hf key)) hr' ?_
      (asRequest v m.pre m.label) ?_ _ _ (hout.answer hq htext)
    · rw [hlabels]
      refine List.forall_mem_map.mpr fun m hm key answer looked kept heq => ?_
      obtain ⟨out, hout⟩ := hreturns m hm
      exact hasked m hm key answer (asked_of_eq hout heq).1
    · rw [hlabels]
      exact List.mem_map_of_mem hm
  · have hpairs := Memo.asked_once hr' ?_
    · rw [hlabels, List.pairwise_map] at hpairs
      refine hpairs.imp fun {m m'} hmm key text text' h h' => ?_
      refine hmm key ?_ ?_
      · rw [h.eq]
        rfl
      · rw [h'.eq]
        rfl
    · rw [hlabels]
      refine List.forall_mem_map.mpr fun m hm key answer looked kept heq => ?_
      obtain ⟨out, hout⟩ := hreturns m hm
      obtain ⟨-, rfl, rfl⟩ := asked_of_eq hout heq
      exact hall m hm

theorem Asked.eq_of_responds {answer : ByteString} (h : Asked v m key text)
    (hanswer : Responds v m answer) : text = answer := by
  obtain ⟨out, hout, htext, -⟩ := h
  obtain ⟨out', hout', htext'⟩ := hanswer
  obtain rfl := hout.unique hout'
  exact Option.some.inj (htext.symm.trans htext')

/-- The same request twice: the backend answers the first, Redis the second,
with the same two letters. -/
theorem memoised_letters : ∃ m m' s, Run (step sevenServices) init [m, m'] s ∧
    Asked sevenServices m (ofString "7") (ofString "ab") ∧
    Hit sevenServices m' (ofString "7") (ofString "ab") ∧
    (∀ n ∈ [m, m'], ∀ q out text, sevenServices.query n.label.body = some q →
      Returns sevenServices n out → out.text = some text → text = ofString "ab") ∧
    [m, m'].Pairwise fun n n' => ∀ key text text', Asked sevenServices n key text →
      ¬ Asked sevenServices n' key text' := by
  let store := Function.update init (ofString "7") (some (cString (ofString "ab")))
  have hentry : store (ofString "7") = some (cString (ofString "ab")) := Function.update_self ..
  have hempty : init (ofString "7") = none := rfl
  obtain ⟨calls, hmiss, hset⟩ := analyse_miss (ofString "ab") query_seven hempty (by decide)
    (by decide) (by decide)
  have hhit := analyse_hit (ofString "ab") query_seven hentry
  let m : Move RedisStore AnalyseRequest := ⟨init, ⟨sevenRequest, replying (ofString "ab")⟩, store⟩
  let m' : Move RedisStore AnalyseRequest :=
    ⟨store, ⟨sevenRequest, replying (ofString "ab")⟩, store⟩
  have hr : Run (step sevenServices) init [m, m'] store := by
    refine (Run.nil.snoc ?_).snoc ?_
    · simp only [step, hmiss]
      rfl
    · simp only [step, hhit]
  have hresponds : ∀ n ∈ [m, m'], Responds sevenServices n (ofString "ab") := by
    simp only [List.forall_mem_cons]
    exact ⟨⟨_, hmiss, rfl⟩, ⟨_, hhit, rfl⟩, fun _ hn => absurd hn List.not_mem_nil⟩
  have hall : ∀ n ∈ [m, m'],
      n.label.exchange.getAnswered = true ∧ n.label.exchange.setExecuted = true := by
    simp only [List.forall_mem_cons]
    exact ⟨⟨rfl, rfl⟩, ⟨rfl, rfl⟩, fun _ hn => absurd hn List.not_mem_nil⟩
  obtain ⟨hanswers, hpairs⟩ := memoised (f := fun _ => ofString "ab") (fun _ => by decide) hr
    fun n hn key text h => h.eq_of_responds (hresponds n hn)
  exact ⟨m, m', store, hr, Stored.asked ⟨rfl, _, hmiss, hset⟩,
    ⟨_, hhit, List.mem_singleton.mpr rfl⟩, hanswers, hpairs hall⟩

end Cache

end Ailawd
