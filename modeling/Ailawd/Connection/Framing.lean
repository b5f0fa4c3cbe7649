import Ailawd.Connection.Phases

/-!
# Request framing on a keep-alive connection

A request that is answered from its head alone leaves its body in the stream, and
the next head read takes it for the beginning of a request. Everything received is
either consumed or still in `request_`, so the text that the next `parse_request`
call gets starts `request_.size()` bytes before the last byte received.
-/

namespace Ailawd

open ByteString Transition

/-- The next text for `parse_request` begins at the first byte of the request
that the client sent with that number. -/
structure Dialogue.InSync (requests : List Request) (d : Dialogue) : Prop where
  request : ∃ r, requests[d.session.heads]? = some r
  position : d.received = startOf requests d.session.heads + d.request.length

section Phases

variable {requests : List Request} {d : Dialogue}

private theorem not_awaitsBody {k offset len : Nat} {r : Request} (hok : d.session.Ok)
    (h : AwaitsBody requests d k r offset len) : ¬ d.HeadReady := by
  rintro ⟨⟨op, hop, hkind⟩, -⟩
  obtain ⟨i, hi⟩ := List.getElem?_of_mem hop
  have hread : op.isRead = true := by
    rw [Op.isRead]
    rw [hkind]
  have := hok.kind_eq hi hread h.reads.reading (by simp)
  simp [hkind] at this

private theorem OutOfStep.not_inSync {k : Nat} (h : OutOfStep requests d k) :
    ¬ d.InSync requests := by
  rintro ⟨-, hposition⟩
  rw [h.heads] at hposition
  exact h.position hposition

private theorem OutOfStep.not_served {k : Nat} (h : OutOfStep requests d k) :
    ¬ ∀ j < d.session.heads, Served requests j := fun hserved =>
  h.rejected.not_served (hserved k (by rw [h.heads]; exact Nat.lt_succ_self k))

/-- In any phase, a head is about to be parsed at the right place exactly if
every request before it was served. -/
private theorem Phase.inSync_iff (hok : d.session.Ok) (hp : Phase requests d)
    (hready : d.HeadReady) : d.InSync requests ↔ ∀ k < d.session.heads, Served requests k := by
  cases hp with
  | head h =>
      refine ⟨fun _ => h.served, fun _ => ⟨?_, h.position⟩⟩
      obtain ⟨-, hnone⟩ | ⟨r, hreq, -, -⟩ := h.pending
      · have := hready.complete
        rw [hnone] at this
        cases this
      · exact ⟨r, hreq⟩
  | body h => exact absurd hready (not_awaitsBody hok h)
  | outOfStep h => exact ⟨fun hs => absurd hs h.not_inSync, fun hs => absurd hs h.not_served⟩
  | dead h =>
      obtain ⟨op, hop, hkind⟩ := hready.reads
      have hwrite := h.idle op hop
      rw [Op.isRead, hkind] at hwrite
      cases hwrite

/-- A run in which no head is parsed out of step stays in
phases. Induction on the run. -/
private theorem phases_of_guard {d₀ : Dialogue} {sock : SockId}
    {moves : List (Move Dialogue Signal)} (hd : d₀.Begins sock)
    (hr : Run (Dialogue.step requests) d₀ moves d)
    (hguard : ∀ s, Visits moves d s → s.HeadReady → ∀ k, ¬ OutOfStep requests s k) :
    ∀ s, Visits moves d s → s.session.Ok ∧ Phase requests s := by
  refine hr.invariant_of_visits (P := fun m => ∀ k, OutOfStep requests m.pre k → ¬ m.pre.HeadReady)
    (fun m hm k hk hready => hguard m.pre (.inr ⟨m, hm, rfl⟩) hready k hk)
    ⟨hd.started.ok, hd.phase⟩ ?_
  rintro s a t ⟨hok, hp⟩ hg hs
  exact hp.step hok hg hs

end Phases

/-- In every run, each head is parsed at the first byte of its request exactly
if every request parsed before it was served: a POST with a URI whose body is
read, and with a length that `atoi` does not truncate. -/
theorem framing_in_sync_iff {requests : List Request} {d₀ d : Dialogue} {sock : SockId}
    {moves : List (Move Dialogue Signal)} (hd : d₀.Begins sock)
    (hr : Run (Dialogue.step requests) d₀ moves d) :
    (∀ s, Visits moves d s → s.HeadReady → s.InSync requests) ↔
      ∀ s, Visits moves d s → s.HeadReady → ∀ k < s.session.heads, Served requests k := by
  constructor
  · intro hsync s hs hready
    have hphase := phases_of_guard hd hr
      (fun s hs hready k hk => hk.not_inSync (hsync s hs hready)) s hs
    exact (hphase.2.inSync_iff hphase.1 hready).mp (hsync s hs hready)
  · intro hserved s hs hready
    have hphase := phases_of_guard hd hr
      (fun s hs hready k hk => hk.not_served (hserved s hs hready)) s hs
    exact (hphase.2.inSync_iff hphase.1 hready).mpr (hserved s hs hready)

private def getRequest : Request :=
  (Request.make? (ofString "GET /a HTTP/1.1\r\nContent-Length: 1\r\n\r\n")
    (ofString "x")).get (by decide +kernel)

/-- A client sends one request, which is answered, and then another one. -/
theorem framing_in_sync_iff_two_requests : ∃ d₀ moves d, d₀.Begins 7 ∧
    Run (Dialogue.step [getRequest, getRequest]) d₀ moves d ∧ moves.length = 3 ∧
    ((∀ s, Visits moves d s → s.HeadReady → s.InSync [getRequest, getRequest]) ↔
      ∀ s, Visits moves d s → s.HeadReady →
        ∀ k < s.session.heads, Served [getRequest, getRequest] k) := by
  obtain ⟨d₀, moves, d, hd, hr, hl, -⟩ := Dialogue.run_of_started_reaches 7 (.refusing 0)
    [getRequest, getRequest]
    [.request, .event (.complete 0 .success getRequest.bytes (.refusing 0)), .request]
    (fun _ => True) (by decide +kernel)
  exact ⟨d₀, moves, d, hd, hr, by simpa using congrArg List.length hl, framing_in_sync_iff hd hr⟩

/-- The body of a GET request stays in `request_`: the next text for
`parse_request` begins with it, one byte before the second request. -/
theorem rejected_body_is_parsed_as_head : ∃ d₀ moves d, d₀.Begins 7 ∧
    Run (Dialogue.step [getRequest, getRequest]) d₀ moves d ∧
    ¬ ∀ s, Visits moves d s → s.HeadReady → s.InSync [getRequest, getRequest] := by
  obtain ⟨d₀, moves, d, hd, hr, hl, hreads, hcomplete, hheads, hposition⟩ :=
    Dialogue.run_of_started_reaches 7 (.refusing 0) [getRequest, getRequest]
      [.request, .event (.complete 0 .success getRequest.bytes (.refusing 0)), .request]
      (fun d => (d.session.ops.any fun op => op.kind = .readHead) = true ∧
        (find crlf2 (d.request ++ d.unread)).isSome = true ∧ d.session.heads = 1 ∧
        d.received ≠ startOf [getRequest, getRequest] 1 + d.request.length)
      (by decide +kernel)
  refine ⟨d₀, moves, d, hd, hr, fun hsync => hposition ?_⟩
  obtain ⟨op, hop, hkind⟩ := List.any_eq_true.mp hreads
  have := (hsync d (.inl rfl) ⟨⟨op, hop, of_decide_eq_true hkind⟩, hcomplete⟩).position
  rwa [hheads] at this

end Ailawd
