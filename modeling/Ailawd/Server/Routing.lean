import Ailawd.Connection.Routing
import Ailawd.Server.Alone

/-!
# The right reply among others

A request that comes in on a working connection of the server gets the reply of its route,
whatever the accept handler, the other connections, the tick and the manage thread do.
-/

namespace Ailawd

open ByteString Transition

namespace Server

variable {cfg : Config} {s u : Server} {c : ConnId} {front back : List (Move Server Label)}

/-- A read of the connection has completed in this environment, which is then
the one that its reply is dated by. -/
def ReadIn (c : ConnId) (moves : List (Move Server Label)) (env : Env) : Prop :=
  ∃ m ∈ moves, ∃ i data, .event (.complete i .success data env) ∈ traffic c m

/-- The only reply to a request is the one of its method, its URI and its body,
however the threads interleave, while no operation of its connection fails and
it is not marked. -/
theorem routed_among_others {r : Message} {work : ByteString → Except Fault (Option ByteString)}
    {later : ByteString} (hans : r.Answerable work) (hu : Run (step cfg) init front u)
    (hlife : u.InLife c) (hworking : (u.conns c).conn.stats = .working)
    (hreads : (u.conns c).Reads .readHead) (hr : Run (step cfg) u back s)
    (hw : ∀ n ∈ back, ¬ Washes n c) (hsmooth : ∀ n ∈ back, ∀ a ∈ traffic c n, a.Smooth work)
    (hbytes : (u.conns c).conn.request ++ (back.flatMap (received c) ++ later) = r.bytes) :
    Feed.AnsweredBy r work (ReadIn c back) ⟨u.conns c, back.flatMap (received c) ++ later⟩
      ⟨s.conns c, later⟩ := by
  obtain ⟨hready, feed, y, hfeed, hm, hfrom⟩ :=
    exists_feed hu hlife hworking hreads hr hw hsmooth hbytes
  have hsmoothFeed : ∀ m ∈ feed, m.label.Smooth work := fun m hm => (hfrom m hm).1
  have honce := hm.answeredOnce (hready.answeredOnce hans hfeed hsmoothFeed)
  have hrouted : Feed.Replied ⟨u.conns c, back.flatMap (received c) ++ later⟩
      ⟨s.conns c, later⟩ [] ∨ ∃ env, ReadIn c back env ∧
        Feed.RepliedBy r env ⟨u.conns c, back.flatMap (received c) ++ later⟩
          ⟨s.conns c, later⟩ := by
    obtain hnone | ⟨m, hmem, i, data, env, hl, reply, hroute, hreply⟩ :=
      (hready.routed hans hfeed hsmoothFeed).2
    · exact .inl (hm.replied hnone)
    · obtain ⟨-, n, hn, ha⟩ := hfrom m hmem
      exact .inr ⟨env, ⟨n, hn, i, data, hl ▸ ha⟩, reply, hroute, hm.replied hreply⟩
  refine ⟨hrouted, fun hstuck => ?_⟩
  obtain ⟨⟨bytes, hbegun⟩, -⟩ := honce.answered hstuck
  obtain hnone | hby := hrouted
  · cases hnone.unique hbegun
  · exact hby

section Analysed

def okEnv : Env := { Env.refusing 0 with analyse := fun _ => .ok (some (ofString "ok")) }

def shortAnalysis : Message :=
  (Message.make? (ofString "POST /analyse HTTP/1.1\r\nContent-Length: 3\r\n\r\n")
    (ofString "law")).get (by decide +kernel)

/-- The request comes in two parts, and between them a second
client comes and is lost. -/
def inTwoParts : List Label :=
  [.io 0 (.complete 0 .success (shortAnalysis.head ++ ofString "l") okEnv), .accepted .peer,
    .accept, .accept, .accept, .io 1 (.complete 0 .other [] (.refusing 0)), .handler 1,
    .io 0 (.complete 0 .success (ofString "aw") okEnv)]

theorem routed_among_others_in_two_parts : ∃ front u back s,
    Run (step smallConfig) init front u ∧ Run (step smallConfig) u back s ∧
      back.map Move.label = inTwoParts ∧
      Feed.AnsweredBy shortAnalysis okEnv.analyse (ReadIn 0 back)
        ⟨u.conns 0, shortAnalysis.bytes⟩ ⟨s.conns 0, []⟩ := by
  obtain ⟨front, u, back, s, hfront, h⟩ := exists_joined inTwoParts (by decide +kernel)
  have hlabel : ∀ n ∈ back, n.label ∈ inTwoParts :=
    fun n hn => h.labels ▸ List.mem_map_of_mem hn
  have hwash : ∀ n ∈ back, ¬ Washes n 0 := by
    rintro n hn ⟨d, todo, hl, -⟩
    have hmem := hlabel n hn
    rw [hl] at hmem
    simp [inTwoParts] at hmem
  have hsmooth : ∀ n ∈ back, ∀ a ∈ traffic 0 n, a.Smooth okEnv.analyse := by
    intro n hn a ha
    have hl := hlabel n hn
    simp only [inTwoParts, List.mem_cons, List.not_mem_nil, or_false] at hl
    obtain hl | hl | hl | hl | hl | hl | hl | hl := hl <;> simp [traffic, hl] at ha
    all_goals
      subst ha
      exact ⟨rfl, rfl⟩
  have hanswerable : shortAnalysis.Answerable okEnv.analyse := by
    rw [Message.Answerable, if_pos (by decide +kernel)]
    exact ⟨by decide +kernel, by decide +kernel, fun _ => ⟨_, rfl⟩⟩
  have hbytes : (u.conns 0).conn.request ++ (back.flatMap (received 0) ++ []) =
      shortAnalysis.bytes := h.bytes (by decide +kernel)
  have hanswered := routed_among_others hanswerable hfront h.life h.working h.reads h.run hwash
    hsmooth hbytes
  rw [h.request, List.nil_append] at hbytes
  rw [hbytes] at hanswered
  exact ⟨front, u, back, s, hfront, h.run, h.labels, hanswered⟩

end Analysed

end Server

end Ailawd
