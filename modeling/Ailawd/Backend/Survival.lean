import Ailawd.Backend.Containment
import Ailawd.Model.Blocking
import Ailawd.Model.Interruption

/-!
# Which bodies the analysis survives

`analyse_handler` comes back from a body if no accessor of rapidjson is used outside its
precondition, every Redis command it sends has a context and an end, and the exchange with the
backend neither throws nor waits for more than comes. `asked` is how much an exchange waits for.
`analyse_survives_iff` puts this together with the one 500 reply that a false result is
answered with, which a connection that the tick has marked in the meantime does not get.
-/

namespace Ailawd

open ByteString HttpProto

/-- How far into the stream an exchange reads before it stops to wait: to its
first byte, to the end of what a positive length announces, or until the buffer
is full that a wrapped one leaves. -/
def ClientOps.asked (reads : List ByteString) : Int :=
  match announced reads with
  | none => 1
  | some (start, length) => if 0 < length then start + length else start + length + 256

/-- An exchange does not wait for bytes that never come: its stream ends, or is
as long as what it asks for. -/
def Outside.Fed (x : Outside) : Prop :=
  x.connects = true → x.ends = true ∨ ClientOps.asked x.reads ≤ x.reads.flatten.length

theorem CommandEnd.command_eq_ok {α : Type} {e : CommandEnd} {result r : α}
    (h : e.command result = .ok r) : e = .returns ∧ result = r := by
  cases e with
  | returns => exact ⟨rfl, Except.ok.inj h⟩
  | _ => cases h

namespace Blocking

/-- The end of the stream is seen only where there is one. A
silent backend is no end. -/
theorem readSome_eq_none {ends : Bool} {window : Nat} {segments : List ByteString}
    (h : readSome ends window segments = .ok none) : segments = [] ∧ ends = true := by
  have hnone := readSome_eq_ok h
  cases segments with
  | cons seg more =>
      simp only [ClientOps.readSome] at hnone
      split at hnone <;> cases hnone
  | nil =>
      simp only [ClientOps.readSome] at hnone
      split at hnone
      · cases hnone
      next hwindow =>
        refine ⟨rfl, ?_⟩
        by_contra hends
        rw [readSome, if_pos ⟨rfl, hwindow, Bool.eq_false_iff.mpr hends⟩] at h
        cases h

section ReadLoop

variable {ends : Bool} {realLen actualLen : Nat} {segments : List ByteString} {readBuff : CharVec}

/-- A loop that returns does not notice that it could have waited: its reads
are those of a stream that ends. -/
theorem readLoop_eq_ok {r : Nat × CharVec}
    (h : readLoop ends realLen segments readBuff actualLen = .ok r) :
    ClientOps.readLoop realLen segments readBuff actualLen = .ok r := by
  fun_induction readLoop ends realLen segments readBuff actualLen with
  | case1 segments readBuff actualLen hlt e hread => cases h
  | case2 segments readBuff actualLen hlt hread =>
      rw [ClientOps.readLoop, if_pos hlt]
      split
      · exact congrArg Except.ok (Except.ok.inj h)
      next data rest hread' =>
        cases (readSome_eq_ok hread).symm.trans hread'
  | case3 segments readBuff actualLen hlt rest hread =>
      rw [ClientOps.readLoop, if_pos hlt]
      split
      · exact congrArg Except.ok (Except.ok.inj h)
      next data rest' hread' =>
        have hsame := (readSome_eq_ok hread).symm.trans hread'
        obtain ⟨rfl, rfl⟩ := Prod.mk.inj (Option.some.inj hsame)
        rw [dif_pos rfl]
        exact congrArg Except.ok (Except.ok.inj h)
  | case4 segments readBuff actualLen hlt data rest hread hd hbig => cases h
  | case5 segments readBuff actualLen hlt data rest hread hd hbig ih =>
      rw [ClientOps.readLoop, if_pos hlt]
      split
      next hread' => cases (readSome_eq_ok hread).symm.trans hread'
      next data' rest' hread' =>
        have hsame := (readSome_eq_ok hread).symm.trans hread'
        obtain ⟨rfl, rfl⟩ := Prod.mk.inj (Option.some.inj hsame)
        rw [dif_neg hd, if_neg hbig]
        exact ih h
  | case6 segments readBuff actualLen hge =>
      rw [ClientOps.readLoop, if_neg hge]
      exact congrArg Except.ok (Except.ok.inj h)

/-- The loop returns unless it waits for bytes that neither come nor fill the
buffer. Induction along the passes. -/
theorem readLoop_returns_iff (hroom : actualLen ≤ readBuff.size) (hmod : readBuff.size < sizeMod)
    (hne : ∀ seg ∈ segments, seg ≠ []) :
    (∃ r, readLoop ends realLen segments readBuff actualLen = .ok r) ↔
      ends = true ∨ min realLen readBuff.size ≤ actualLen + segments.flatten.length := by
  fun_induction readLoop ends realLen segments readBuff actualLen with
  | case1 segments readBuff actualLen hlt e hread =>
      rw [readSome] at hread
      split at hread
      next hwaits =>
        obtain ⟨rfl, hwindow, hends⟩ := hwaits
        rw [sizeSub_of_le hroom hmod] at hwindow
        refine iff_of_false (by rintro ⟨r, ⟨⟩⟩) ?_
        rw [hends, List.flatten_nil, List.length_nil]
        simp only [Bool.false_eq_true, false_or]
        omega
      · cases hread
  | case2 segments readBuff actualLen hlt hread =>
      exact iff_of_true ⟨_, rfl⟩ (.inl (readSome_eq_none hread).2)
  | case3 segments readBuff actualLen hlt rest hread =>
      have hzero := (ClientOps.readSome_nonempty (readSome_eq_ok hread) hne).1 rfl
      rw [sizeSub_of_le hroom hmod] at hzero
      refine iff_of_true ⟨_, rfl⟩ (.inr ?_)
      omega
  | case4 segments readBuff actualLen hlt data rest hread hd hbig =>
      have hle := (ClientOps.readSome_eq_some (readSome_eq_ok hread)).2
      rw [sizeSub_of_le hroom hmod] at hle
      omega
  | case5 segments readBuff actualLen hlt data rest hread hd hbig ih =>
      have hread' := readSome_eq_ok hread
      obtain ⟨hstream, hle⟩ := ClientOps.readSome_eq_some hread'
      rw [sizeSub_of_le hroom hmod] at hle
      have htotal := congrArg List.length hstream
      rw [List.length_append] at htotal
      rw [ih (by rw [CharVec.write_size]; omega) hmod (ClientOps.readSome_nonempty hread' hne).2,
        CharVec.write_size]
      refine or_congr Iff.rfl ?_
      omega
  | case6 segments readBuff actualLen hge =>
      exact iff_of_true ⟨_, rfl⟩ (.inr (by omega))

end ReadLoop

section SyncReadFrom

variable {ends : Bool} {reads rest : List ByteString} {data : ByteString}

theorem syncReadFrom_error {e : Halt} (h : readSome ends (32 * 1024) reads = .error e) :
    syncReadFrom ends reads (CharVec.zeros (32 * 1024)) = .error e := by
  simp only [syncReadFrom]
  rw [show (CharVec.zeros (32 * 1024)).size = 32 * 1024 from rfl, h]

theorem syncReadFrom_none (h : readSome ends (32 * 1024) reads = .ok none) :
    syncReadFrom ends reads (CharVec.zeros (32 * 1024)) =
      .ok (0, CharVec.zeros (32 * 1024)) := by
  simp only [syncReadFrom]
  rw [show (CharVec.zeros (32 * 1024)).size = 32 * 1024 from rfl, h]

theorem syncReadFrom_some (h : readSome ends (32 * 1024) reads = .ok (some (data, rest))) :
    syncReadFrom ends reads (CharVec.zeros (32 * 1024)) =
      match ClientOps.replyHead data with
      | none => .ok (0, (CharVec.zeros (32 * 1024)).write 0 data)
      | some (start, length) =>
        if length = 0 then .ok (0, (CharVec.zeros (32 * 1024)).write 0 data)
        else match ClientOps.growReadBuff (sizeT length) (ClientOps.afterHead start data) with
        | .error e => .error (.fault e)
        | .ok readBuff => readLoop ends (sizeT length) rest readBuff (data.length - start) := by
  have hlong := (ClientOps.readSome_eq_some (readSome_eq_ok h)).2
  simp only [syncReadFrom, ClientOps.afterHead]
  rw [show (CharVec.zeros (32 * 1024)).size = 32 * 1024 from rfl, h]
  simp only [CharVec.write_size, ClientOps.cString_slice_zeros]
  rw [if_neg (by decide)]
  cases hpos : find [58] (cString (data.take 20)) with
  | none => simp only [ClientOps.replyHead, hpos, Option.map_none]
  | some pos =>
      obtain ⟨hhead, hzero, hwindow⟩ := ClientOps.replyHead_of_find hlong hpos
      cases hgrow : ClientOps.growReadBuff (sizeT (atoi ((cString (data.take 20)).take pos)))
          (((CharVec.zeros (32 * 1024)).write 0 data).eraseFront (pos + 1)) with
      | error e => simp only [hhead, hzero, hgrow]
      | ok readBuff => simp only [hhead, hzero, hwindow, hgrow]

theorem syncReadFrom_eq_ok {r : Nat × CharVec}
    (h : syncReadFrom ends reads (CharVec.zeros (32 * 1024)) = .ok r) :
    ClientOps.syncReadFrom reads (CharVec.zeros (32 * 1024)) = .ok r := by
  cases hread : readSome ends (32 * 1024) reads with
  | error e => cases (syncReadFrom_error hread).symm.trans h
  | ok result =>
      cases result with
      | none =>
          rw [ClientOps.syncReadFrom_none (readSome_eq_ok hread)]
          rw [syncReadFrom_none hread] at h
          exact congrArg Except.ok (Except.ok.inj h)
      | some read =>
          obtain ⟨data, rest⟩ := read
          rw [ClientOps.syncReadFrom_some (readSome_eq_ok hread)]
          rw [syncReadFrom_some hread] at h
          cases hhead : ClientOps.replyHead data with
          | none =>
              simp only [hhead] at h ⊢
              exact congrArg Except.ok (Except.ok.inj h)
          | some head =>
              obtain ⟨start, length⟩ := head
              simp only [hhead, ClientOps.afterHead] at h ⊢
              split at h
              next hzero =>
                rw [if_pos hzero]
                exact congrArg Except.ok (Except.ok.inj h)
              next hzero =>
                rw [if_neg hzero]
                cases hgrow : ClientOps.growReadBuff (sizeT length)
                    (((CharVec.zeros (32 * 1024)).write 0 data).eraseFront start) with
                | error e =>
                    simp only [hgrow] at h
                    cases h
                | ok readBuff =>
                    simp only [hgrow] at h ⊢
                    exact readLoop_eq_ok h

/-- A backend that announces nothing is read once, and that
read has come back. -/
private theorem syncReadFrom_headless
    (hread : readSome ends (32 * 1024) reads = .ok (some (data, rest)))
    (hannounced : ClientOps.announced reads = none) :
    ∃ r, syncReadFrom ends reads (CharVec.zeros (32 * 1024)) = .ok r := by
  rw [syncReadFrom_some hread]
  simp only [ClientOps.announced, readSome_eq_ok hread] at hannounced
  cases hhead : ClientOps.replyHead data with
  | none => exact ⟨_, rfl⟩
  | some head =>
      obtain ⟨start, length⟩ := head
      have hzero : length = 0 := by simpa [hhead] using hannounced
      exact ⟨_, if_pos hzero⟩

/-- With a head it waits for what is announced, or for the end of the buffer
where the announced length has wrapped. -/
private theorem syncReadFrom_headed {start : Nat} {length : Int}
    (hne : ∀ seg ∈ reads, seg ≠ [])
    (hread : readSome ends (32 * 1024) reads = .ok (some (data, rest)))
    (hannounced : ClientOps.announced reads = some (start, length))
    (hfits : 0 < length ∨
      -256 ≤ length ∧ (ClientOps.firstRead reads : Int) ≤ start + length + 256) :
    (∃ r, syncReadFrom ends reads (CharVec.zeros (32 * 1024)) = .ok r) ↔
      ends = true ∨ ClientOps.asked reads ≤ reads.flatten.length := by
  have hread' := readSome_eq_ok hread
  obtain ⟨hstream, hlong⟩ := ClientOps.readSome_eq_some hread'
  have hrest := (ClientOps.readSome_nonempty hread' hne).2
  have htotal := congrArg List.length hstream
  rw [List.length_append] at htotal
  obtain ⟨data', rest', hsame, hhead, hzero, hfirst⟩ := ClientOps.announced_spec hannounced
  obtain ⟨rfl, rfl⟩ := Prod.mk.inj (Option.some.inj (hread'.symm.trans hsame))
  obtain ⟨-, hstart, -, hlower, hupper⟩ := ClientOps.replyHead_spec hhead
  rw [syncReadFrom_some hread]
  simp only [hhead, ClientOps.asked, hannounced]
  rw [if_neg hzero]
  by_cases hlength : 0 < length
  · obtain ⟨readBuff, hgrow, hreal, hroom, hbound, -⟩ :=
      ClientOps.grown_of_pos hlong hstart hlength hupper
    have hwanted := (ClientOps.wanted_of_pos hlength hupper).1
    rw [if_pos hlength]
    simp only [hgrow]
    rw [readLoop_returns_iff hroom hbound hrest]
    refine or_congr Iff.rfl ?_
    omega
  · obtain ⟨hlo, hroom⟩ := hfits.resolve_left hlength
    obtain ⟨readBuff, hgrow, hsize, -⟩ :=
      ClientOps.grown_of_wrapped hlong hstart (by omega) hlo
    have hwanted := (ClientOps.wanted_of_neg (by omega) hlower).1
    have hmod : sizeMod = 2 ^ 64 := rfl
    rw [if_neg hlength]
    simp only [hgrow]
    rw [readLoop_returns_iff (by omega) (by omega) hrest]
    refine or_congr Iff.rfl ?_
    omega

theorem syncReadFrom_returns_iff (hne : ∀ seg ∈ reads, seg ≠ [])
    (hheads : ∀ start length, ClientOps.announced reads = some (start, length) →
      0 < length ∨ -256 ≤ length ∧ (ClientOps.firstRead reads : Int) ≤ start + length + 256) :
    (∃ r, syncReadFrom ends reads (CharVec.zeros (32 * 1024)) = .ok r) ↔
      ends = true ∨ ClientOps.asked reads ≤ reads.flatten.length := by
  cases hread : readSome ends (32 * 1024) reads with
  | error e =>
      have hstuck : reads = [] ∧ ends = false := by
        rw [readSome] at hread
        split at hread
        next hwaits => exact ⟨hwaits.1, hwaits.2.2⟩
        · cases hread
      obtain ⟨rfl, rfl⟩ := hstuck
      refine iff_of_false ?_ (by decide)
      rintro ⟨r, hr⟩
      cases (syncReadFrom_error hread).symm.trans hr
  | ok result =>
      cases result with
      | none => exact iff_of_true ⟨_, syncReadFrom_none hread⟩ (.inl (readSome_eq_none hread).2)
      | some read =>
          obtain ⟨data, rest⟩ := read
          cases hannounced : ClientOps.announced reads with
          | none =>
              refine iff_of_true (syncReadFrom_headless hread hannounced) (.inr ?_)
              obtain ⟨hdata, -⟩ := ClientOps.readSome_nonempty (readSome_eq_ok hread) hne
              have hpos : 0 < data.length :=
                List.length_pos_iff.mpr fun hnil => absurd (hdata hnil) (by decide)
              have htotal :=
                congrArg List.length (ClientOps.readSome_eq_some (readSome_eq_ok hread)).1
              rw [List.length_append] at htotal
              simp only [ClientOps.asked, hannounced]
              omega
          | some head =>
              exact syncReadFrom_headed hne hread hannounced (hheads head.1 head.2 hannounced)

end SyncReadFrom

section RedirectToWin

variable {x : Outside} {body : ByteString} {out : Outcome}

theorem redirectToWin_eq_ok (v : Services) (store : RedisStore)
    (h : redirectToWin x body = .ok out) :
    (v.backend x.toExchange store).redirectToWin body = .ok out := by
  by_cases hconnects : x.connects = true
  · simp only [redirectToWin, hconnects, Bool.true_eq_false, if_false] at h
    simp only [Backend.redirectToWin, Services.backend, hconnects, Bool.true_eq_false, if_false]
    cases hsent : x.writeSome body with
    | none =>
        simp only [hsent] at h
        cases h
    | some sent =>
        cases hsync : syncReadFrom x.ends x.reads (CharVec.zeros (32 * 1024)) with
        | error e =>
            simp only [hsent, hsync] at h
            cases h
        | ok read =>
            obtain ⟨readLen, response⟩ := read
            simp only [hsent, hsync] at h
            simp only [syncReadFrom_eq_ok hsync]
            split at h
            next hzero =>
              rw [if_pos hzero]
              exact congrArg Except.ok (Except.ok.inj h)
            next hzero =>
              rw [if_neg hzero]
              split at h
              · cases h
              next hover =>
                rw [if_neg hover]
                exact congrArg Except.ok (Except.ok.inj h)
  · have hfalse : x.connects = false := Bool.eq_false_iff.mpr hconnects
    simp only [redirectToWin, hfalse, if_true] at h
    simp only [Backend.redirectToWin, Services.backend, hfalse, if_true]
    exact congrArg Except.ok (Except.ok.inj h)

theorem redirectToWin_returns_iff (v : Services) (store : RedisStore)
    (hne : ∀ seg ∈ x.reads, seg ≠ []) :
    (∃ out, redirectToWin x body = .ok out) ↔ x.Returns body ∧ x.Fed := by
  constructor
  · rintro ⟨out, hout⟩
    have hreturns : x.Returns body := by
      by_contra hthrows
      obtain ⟨e, he⟩ := Services.redirectToWin_of_not_returns v store hne hthrows
      cases he.symm.trans (redirectToWin_eq_ok v store hout)
    refine ⟨hreturns, fun hconnects => ?_⟩
    rw [← syncReadFrom_returns_iff hne (hreturns hconnects).2]
    simp only [redirectToWin, hconnects, Bool.true_eq_false, if_false] at hout
    split at hout
    · cases hout
    · split at hout
      · cases hout
      next hsync => exact ⟨_, hsync⟩
  · rintro ⟨hreturns, hfed⟩
    by_cases hconnects : x.connects = true
    · obtain ⟨hsend, hheads⟩ := hreturns hconnects
      obtain ⟨sent, hsent⟩ := Option.ne_none_iff_exists'.mp hsend
      obtain ⟨⟨len, buff⟩, hsync⟩ := (syncReadFrom_returns_iff hne hheads).mpr (hfed hconnects)
      obtain ⟨out, hout, -⟩ := Services.redirectToWin_of_returns v store hne hreturns
      simp only [Backend.redirectToWin, Services.backend, hconnects, Bool.true_eq_false, if_false,
        hsent, syncReadFrom_eq_ok hsync] at hout
      simp only [redirectToWin, hconnects, Bool.true_eq_false, if_false, hsent, hsync]
      split
      · exact ⟨_, rfl⟩
      next hzero =>
        rw [if_neg hzero] at hout
        split
        next hover =>
          rw [if_pos hover] at hout
          cases hout
        · exact ⟨_, rfl⟩
    · have hfalse : x.connects = false := Bool.eq_false_iff.mpr hconnects
      exact ⟨_, if_pos hfalse⟩

end RedirectToWin

section AnalyseHandler

variable {v : Services} {x : Outside} {store : RedisStore} {body : ByteString}

/-- An authorised request goes to the branch of its query; any other one is
refused if the handler can read it. -/
theorem analyseHandler_eq (v : Services) (x : Outside) (store : RedisStore) (body : ByteString) :
    analyseHandler v x store body =
      match v.query body with
      | some q => answerQuery x (v.key q)
          (RedisClient.getValueBinary x.toExchange store (v.key q))
          (RedisClient.setValueBinary x.toExchange store (v.key q)) (cString body) store
      | none => if v.readable body then .ok (⟨none, []⟩, store)
          else .error (.fault .notObject) := by
  simp only [analyseHandler, Services.query]
  cases hparse : v.parse (cString body) with
  | none =>
      have hread : v.readable body = true := by rw [Services.readable, hparse]
      simp only [hread, if_true]
      rfl
  | some doc =>
      cases doc with
      | string text =>
          have hread : v.readable body = false := by rw [Services.readable, hparse]
          simp only [hread, Bool.false_eq_true, if_false]
          rfl
      | other =>
          have hread : v.readable body = false := by rw [Services.readable, hparse]
          simp only [hread, Bool.false_eq_true, if_false]
          rfl
      | object members =>
          have hread : v.readable body = true := by rw [Services.readable, hparse]
          simp only [hread, if_true, Services.wrongAccess_object, Json.hasString_object]
          by_cases hid : Json.stringMember members "access_id" ≠ some Backend.accessIdCode
          · rw [decide_eq_true hid, if_pos hid]
            rfl
          · rw [decide_eq_false hid, if_neg hid]
            cases huuid : Json.rawMember members "uuid" with
            | some uuid =>
                have hmember : Json.stringMember members "uuid" = some (cString uuid) := by
                  rw [Json.stringMember_eq_rawMember, huuid, Option.map_some]
                simp only [hmember, Json.stringOf_object hmember]
                -- the key has lost its NUL bytes already, so both forms of the calls agree
                change answerQuery x (cString uuid)
                  (RedisClient.getValueBinary x.toExchange store (cString (cString uuid)))
                  (RedisClient.setValueBinary x.toExchange store (cString (cString uuid))) _ _ = _
                rw [cString_cString]
                rfl
            | none =>
                have hmember : Json.stringMember members "uuid" = none := by
                  rw [Json.stringMember_eq_rawMember, huuid, Option.map_none]
                simp only [hmember]
                cases hcontent : Json.rawMember members "content" with
                | some content =>
                    have hmember' : Json.stringMember members "content" =
                        some (cString content) := by
                      rw [Json.stringMember_eq_rawMember, hcontent, Option.map_some]
                    simp only [hmember', Json.stringOf_object hmember']
                    rfl
                | none =>
                    have hmember' : Json.stringMember members "content" = none := by
                      rw [Json.stringMember_eq_rawMember, hcontent, Option.map_none]
                    simp only [hmember']
                    rfl

/-- A call that comes back does what it does where every call comes back, so
its text is known from there. -/
theorem analyseHandler_eq_ok {r : Outcome × RedisStore}
    (h : analyseHandler v x store body = .ok r) :
    v.analyseHandler x.toExchange store body = .ok r := by
  rw [analyseHandler_eq] at h
  rw [Services.analyseHandler_eq, Services.analyse_eq]
  cases hq : v.query body with
  | none =>
      simp only [hq] at h
      split at h
      next hread =>
        obtain rfl := Except.ok.inj h
        simp only [hread, if_true]
        rfl
      · cases h
  | some q =>
      simp only [hq] at h ⊢
      rw [← Services.answerQuery_eq rfl]
      simp only [answerQuery] at h
      split at h
      · cases h
      next text hget =>
        obtain ⟨-, hcached⟩ := CommandEnd.command_eq_ok hget
        simp only [Services.answerQuery, hcached]
        exact congrArg Except.ok (Except.ok.inj h)
      next hget =>
        obtain ⟨-, hcached⟩ := CommandEnd.command_eq_ok hget
        simp only [Services.answerQuery, hcached]
        split at h
        · cases h
        next calls hout =>
          simp only [redirectToWin_eq_ok v store hout]
          exact congrArg Except.ok (Except.ok.inj h)
        next text calls hout =>
          simp only [redirectToWin_eq_ok v store hout]
          split at h
          · cases h
          next hset =>
            obtain ⟨-, hcache⟩ := CommandEnd.command_eq_ok hset
            rw [hcache]
            exact congrArg Except.ok (Except.ok.inj h)

/-- Without a text in Redis the query comes back if the exchange does, and the
`SET` of a text that it delivers. -/
private theorem answerQuery_missed_returns_iff (v : Services) {key : ByteString}
    {cache : ByteString → RedisStore} {body : ByteString} (hne : ∀ seg ∈ x.reads, seg ≠ [])
    (hget : x.get = .returns) :
    (∃ r, answerQuery x key none cache body store = .ok r) ↔
      (x.Returns body ∧ x.Fed) ∧ (x.Delivers → x.set = .returns) := by
  simp only [answerQuery, hget, CommandEnd.command]
  by_cases hback : x.Returns body ∧ x.Fed
  · obtain ⟨⟨text, calls⟩, hout⟩ := (redirectToWin_returns_iff v store hne).mpr hback
    obtain ⟨out, hout', htext⟩ := Services.redirectToWin_of_returns v store hne hback.1
    obtain rfl := Except.ok.inj ((redirectToWin_eq_ok v store hout).symm.trans hout')
    simp only [hout]
    cases text with
    | none =>
        refine iff_of_true ⟨_, rfl⟩ ⟨hback, fun hdelivers => ?_⟩
        exact absurd hdelivers (htext.mp rfl)
    | some text =>
        have hdelivers : x.Delivers := by
          by_contra hnot
          cases htext.mpr hnot
        cases hset : x.set with
        | returns => exact iff_of_true ⟨_, rfl⟩ ⟨hback, fun _ => rfl⟩
        | nullContext | waits =>
            refine iff_of_false (by rintro ⟨r, ⟨⟩⟩) fun h => ?_
            cases h.2 hdelivers
  · refine iff_of_false ?_ fun h => hback h.1
    rintro ⟨r, hr⟩
    split at hr
    · cases hr
    next hout => exact hback ((redirectToWin_returns_iff v store hne).mp ⟨_, hout⟩)
    next hout => exact hback ((redirectToWin_returns_iff v store hne).mp ⟨_, hout⟩)

/-- The handler comes back if it reads the document as one may, and each call
that it comes to comes back. -/
theorem analyseHandler_returns_iff (hne : ∀ seg ∈ x.reads, seg ≠ []) :
    (∃ r, analyseHandler v x store body = .ok r) ↔
      v.readable body = true ∧ (v.query body ≠ none → x.get = .returns) ∧
        (v.Misses x.toExchange store body → (x.Returns (cString body) ∧ x.Fed) ∧
          (x.Delivers → x.set = .returns)) := by
  rw [analyseHandler_eq]
  cases hq : v.query body with
  | none =>
      have hmisses : ¬ v.Misses x.toExchange store body := by
        rintro ⟨q, hq', -⟩
        cases hq.symm.trans hq'
      by_cases hread : v.readable body = true
      · simp only [hread, if_true]
        exact iff_of_true ⟨_, rfl⟩ ⟨trivial, fun hne => absurd rfl hne, fun h => absurd h hmisses⟩
      · simp only [hread]
        exact iff_of_false (by rintro ⟨r, ⟨⟩⟩) fun h => absurd h.1 (by decide)
  | some q =>
      have hread := Services.readable_of_query hq
      cases hget : x.get with
      | nullContext | waits =>
          simp only [answerQuery, hget, CommandEnd.command]
          refine iff_of_false (by rintro ⟨r, ⟨⟩⟩) fun h => ?_
          cases h.2.1 (by rintro ⟨⟩)
      | returns =>
          cases hcached : RedisClient.getValueBinary x.toExchange store (v.key q) with
          | some text =>
              simp only [answerQuery, hget, hcached, CommandEnd.command]
              refine iff_of_true ⟨_, rfl⟩ ⟨hread, fun _ => trivial, ?_⟩
              rintro ⟨q', hq', hmiss⟩
              obtain rfl := Option.some.inj (hq.symm.trans hq')
              cases hcached.symm.trans hmiss
          | none =>
              have hmisses : v.Misses x.toExchange store body := ⟨q, hq, hcached⟩
              simp only [hcached, answerQuery_missed_returns_iff v hne hget]
              simp only [hread, true_and, hmisses, true_implies, implies_true]

end AnalyseHandler

end Blocking

/-- The environment of a handler whose analysis has come back with this text.
The blocking itself is not seen by the connection. -/
def Env.returning (now : Nat) (date : ByteString) (text : Option ByteString) : Env :=
  ⟨now, date, fun _ => .ok text⟩

namespace Handling

/-- The tick sets `conn_error` between the analysis and the test in
`do_write()`; no lock keeps it from doing so. -/
def markedBy (marked : Bool) (h : Handling) : Handling :=
  if marked then h.setStats .error else h

/-- The body handler makes exactly one reply, a 500 that is sent as a whole,
and then listens for the next head. -/
def RefusesMarked (env : Env) (marked : Bool) (h : Handling) (n : Nat) (body : ByteString) :
    Prop :=
  ∃ g h', h.readBodyEntry env .success n = .ok (g, .write) ∧
    (g.markedBy marked).writeReturn env = .ok h' ∧ h'.conn.stats = .working ∧
    h'.effects = h.effects ++ [.analyse body, .fill env.errorReply,
      .asyncWrite 0 env.errorReply.length, .asyncReadUntil]

variable {env : Env} {h : Handling} {marked : Bool} {n : Nat} {body : ByteString}

theorem HoldsBody.refusesMarked_iff (hr : h.HoldsBody n body)
    (henv : env.analyse body = .ok none) :
    h.RefusesMarked env marked n body ↔ h.conn.stats = .working ∧ marked = false := by
  obtain ⟨s, hsock⟩ := hr.sock
  set read : Handling := Handling.emit
    { h with conn := { h.conn with rSize := h.conn.rSize + n } } (.analyse body) with hread
  have hentry : h.readBodyEntry env .success n =
      .ok (read.fillForHttp env contentError Status.internalServerError, .write) := by
    rw [readBodyEntry, if_pos ⟨rfl, hr.nonempty⟩]
    simp only [hr.complete, if_false, hr.uri, if_true, analyseHandler, Nat.not_lt.mpr hr.room,
      hr.body, henv, hread]
  have hmarked : (read.fillForHttp env contentError Status.internalServerError).markedBy marked =
      (read.markedBy marked).fillForHttp env contentError Status.internalServerError := by
    cases marked <;> rfl
  have hsock' : (read.markedBy marked).conn.pSock = some s := by
    cases marked <;> exact hsock
  have hstats : (read.markedBy marked).conn.stats = .working ↔
      h.conn.stats = .working ∧ marked = false := by
    cases marked with
    | true => exact iff_of_false (by rintro ⟨⟩) fun h => by cases h.2
    | false => exact ⟨fun hs => ⟨hs, rfl⟩, And.left⟩
  obtain ⟨h', hh', hworking, heffects⟩ := fillForHttp_writeReturn_effects env hsock' contentError
    Status.internalServerError
  have hbefore : (read.markedBy marked).effects = h.effects ++ [.analyse body] := by
    cases marked <;> rfl
  rw [hbefore, ← Env.errorReply] at heffects
  rw [← hstats]
  constructor
  · rintro ⟨g, g', hg, hg', -, heffects'⟩
    obtain ⟨rfl, -⟩ := Prod.mk.inj (Except.ok.inj (hentry.symm.trans hg))
    rw [hmarked] at hg'
    obtain rfl := Except.ok.inj (hh'.symm.trans hg')
    by_contra hw
    rw [heffects', if_neg hw] at heffects
    have hlength := congrArg List.length heffects
    simp at hlength
  · intro hw
    refine ⟨_, h', hentry, hmarked ▸ hh', hworking, ?_⟩
    rw [heffects, if_pos hw]
    simp

end Handling

namespace Services

variable (v : Services) (x : Outside) (store : RedisStore) (marked : Bool) (now : Nat)
variable (date : ByteString) (h : Handling) (n : Nat) (body : ByteString)

/-- `analyse_handler` returns true or false on the body, which includes that no
accessor is used outside its precondition, and false is followed by exactly one
500 reply. -/
structure Survives : Prop where
  returns : ∃ out store', Blocking.analyseHandler v x store body = .ok (out, store')
  refused : ∀ out store', Blocking.analyseHandler v x store body = .ok (out, store') →
    out.text = none → h.RefusesMarked (.returning now date out.text) marked n body

variable {v x store marked now date h n body}

/-- A body is survived exactly if it is an object or no JSON at all; an
authorised query finds Redis connected and answering at its `GET`, and where
that has no text for it the exchange returns, and its text finds Redis
connected and answering at the `SET`; and a false result finds the connection
working. -/
theorem analyse_survives_iff (hr : h.HoldsBody n body) (hne : ∀ seg ∈ x.reads, seg ≠ []) :
    v.Survives x store marked now date h n body ↔
      v.readable body = true ∧ (v.query body ≠ none → x.get = .returns) ∧
        (v.Misses x.toExchange store body → (x.Returns (cString body) ∧ x.Fed) ∧
          (x.Delivers → x.set = .returns)) ∧
        ((h.conn.stats = .working ∧ marked = false) ∨ v.Answers x.toExchange store body) := by
  have htext : ∀ {out store'}, Blocking.analyseHandler v x store body = .ok (out, store') →
      (out.text = none ↔ ¬ v.Answers x.toExchange store body) := fun {out store'} hout => by
    obtain ⟨hread, -, hback⟩ := (Blocking.analyseHandler_returns_iff hne).mp ⟨_, hout⟩
    obtain ⟨out', store'', hout', htext, -⟩ :=
      analyseHandler_of_returns store hne hread fun hmiss => (hback hmiss).1.1
    obtain ⟨rfl, rfl⟩ := Prod.mk.inj
      (Except.ok.inj ((Blocking.analyseHandler_eq_ok hout).symm.trans hout'))
    exact htext
  constructor
  · rintro ⟨⟨out, store', hout⟩, hrefused⟩
    obtain ⟨hread, hget, hback⟩ := (Blocking.analyseHandler_returns_iff hne).mp ⟨_, hout⟩
    refine ⟨hread, hget, hback, ?_⟩
    by_cases hanswers : v.Answers x.toExchange store body
    · exact .inr hanswers
    · have hnone := (htext hout).mpr hanswers
      have hrefuses := hrefused out store' hout hnone
      rw [hnone] at hrefuses
      exact .inl ((hr.refusesMarked_iff rfl).mp hrefuses)
  · rintro ⟨hread, hget, hback, hstats⟩
    obtain ⟨⟨out, store'⟩, hout⟩ :=
      (Blocking.analyseHandler_returns_iff hne).mpr ⟨hread, hget, hback⟩
    refine ⟨⟨out, store', hout⟩, fun out' store'' hout' hnone => ?_⟩
    obtain ⟨rfl, rfl⟩ := Prod.mk.inj (Except.ok.inj (hout.symm.trans hout'))
    rw [hnone]
    exact (hr.refusesMarked_iff rfl).mpr (hstats.resolve_right ((htext hout).mp hnone))

/-- Redis has no text for the query, and the backend sends two bytes and stays
silent. They are all that it announces. -/
def twoBytes : Outside :=
  ⟨⟨true, fun sent => some sent.length, [ofString "2:ab"], true, true⟩, false, .returns, .returns⟩

theorem analyse_survives_iff_query : uuidServices.Survives twoBytes (fun _ => none) false 0 []
    (.ofBody uuidBody) uuidBody.length uuidBody := by
  have hhead : ClientOps.announced twoBytes.reads = some (2, 2) := by decide +kernel
  apply (analyse_survives_iff uuidBody_received (by decide)).mpr
  refine ⟨by decide +kernel, fun _ => rfl, fun _ => ⟨⟨fun _ => ⟨by decide, ?_⟩, fun _ => ?_⟩,
    fun _ => rfl⟩, .inl ⟨rfl, rfl⟩⟩
  · intro start length h
    obtain ⟨rfl, rfl⟩ := Prod.mk.inj (Option.some.inj (hhead.symm.trans h))
    exact .inl (by decide)
  · right
    rw [ClientOps.asked, hhead]
    decide

/-- rapidjson on an empty array, which is a document, but not an object. -/
def emptyArray : Services where
  parse body := if body = ofString "[]" then some .other else none
  md5 text := text

/-- The first accessor is called on an array, before the access check. Nobody
needs the access code for this. -/
theorem array_body_aborts : (Handling.ofBody (ofString "[]")).HoldsBody 2 (ofString "[]") ∧
    ∀ x store marked now date,
      Blocking.analyseHandler emptyArray x store (ofString "[]") = .error (.fault .notObject) ∧
      ¬ emptyArray.Survives x store marked now date (.ofBody (ofString "[]")) 2
        (ofString "[]") := by
  refine ⟨Handling.ofBody_holdsBody (by decide) (by decide) (by decide +kernel)
    (by decide +kernel), ?_⟩
  intro x store marked now date
  have hfault : Blocking.analyseHandler emptyArray x store (ofString "[]") =
      .error (.fault .notObject) := by
    have hquery : emptyArray.query (ofString "[]") = none := by decide
    have hread : emptyArray.readable (ofString "[]") = false := by decide
    rw [Blocking.analyseHandler_eq, hquery, hread]
    rfl
  refine ⟨hfault, ?_⟩
  rintro ⟨⟨out, store', hout⟩, -⟩
  cases hfault.symm.trans hout

end Services

end Ailawd
