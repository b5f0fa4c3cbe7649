import Mathlib.Data.List.DropRight
import Ailawd.Connection.HeaderRoundTrip
import Ailawd.Library.Run

/-!
# The slashes at the end of a URI

`slashStep` is one pass of the loop that removes them, and `stripSlashes_run` says that
`stripSlashes` is a run of such passes. Each pass needs a last character, so the loop stays
inside the string exactly if it meets one that is not a slash; on a URI of slashes it comes
to the empty string, and the index of the next pass is outside it.
-/

namespace Ailawd

open ByteString Transition HttpProto

/-- The longest of the prefixes that do not end in a slash: all
others are prefixes of it. -/
structure LongestUnslashed (uri rest : ByteString) : Prop where
  isPrefix : rest <+: uri
  last : rest.getLast? ≠ some 47
  longest : ∀ other, other <+: uri → other.getLast? ≠ some 47 → other <+: rest

namespace HttpParser

/-- `while (uri[uri.size()-1] == '/') uri = uri.substr(0,
uri.size()-1);`, one pass. -/
def slashStep (uri : ByteString) (_ : Unit) : Except (Stop Fault) ByteString :=
  match uri.getLast? with
  | none => .error (.fault .outOfBounds)
  | some b => if b = 47 then .ok uri.dropLast else .error .disabled

/-- The loop is left with this URI: its passes lead there, and its
condition is false of it. -/
def Leaves (uri rest : ByteString) : Prop :=
  ∃ moves, Run slashStep uri moves rest ∧ slashStep rest () = .error .disabled

/-- The URI group of a line, trimmed, when the line matches the regex. It may
be empty after the trim. -/
def matchedUri (item : ByteString) : Option ByteString :=
  (matchRequestLine item).map fun m => trim m.2.1

/-- Every pass reads the last character of a non-empty string, the passes come
to an end, and what they leave is the longest prefix that does not end in a
slash. -/
structure StripsSafely (item uri : ByteString) : Prop where
  inside : ∀ moves rest, Run slashStep uri moves rest → rest ≠ []
  ends : ∀ moves rest, Run slashStep uri moves rest → moves.length ≤ uri.length
  leaves : ∃ rest, Leaves uri rest ∧ stripSlashes uri = rest ∧ LongestUnslashed uri rest ∧
    (58 ∉ item → (HeaderOptions.requestUri, rest) ∈ lineFields item)

section Loop

variable {item uri rest : ByteString} {moves : List (Move ByteString Unit)} {a : Unit}

theorem slashStep_eq_ok (h : slashStep uri a = .ok rest) : uri = rest ++ [47] := by
  simp only [slashStep] at h
  split at h
  · cases h
  next b hb =>
    split at h
    next hslash =>
      obtain rfl := Except.ok.inj h
      rw [List.getLast?_eq_some_iff] at hb
      obtain ⟨front, rfl⟩ := hb
      rw [hslash, List.dropLast_concat]
    next => cases h

/-- Each pass has removed one slash, so a run of the loop is
determined by its length. -/
theorem eq_append_of_run (h : Run slashStep uri moves rest) :
    uri = rest ++ List.replicate moves.length 47 := by
  induction h with
  | nil => simp
  | snoc _ hs ih =>
      rw [ih, slashStep_eq_ok hs, List.length_append, List.length_singleton, Nat.add_comm,
        List.replicate_add, List.append_assoc]
      rfl

theorem slashStep_disabled_iff : slashStep uri a = .error .disabled ↔
    ∃ b, uri.getLast? = some b ∧ b ≠ 47 := by
  rw [slashStep]
  cases uri.getLast? with
  | none => simp
  | some b => by_cases hb : b = 47 <;> simp [hb]

/-- Slashes are removed down to the last character that is none.
Induction on their number. -/
theorem run_of_eq_append (rest : ByteString) (n : Nat) :
    ∃ moves, Run slashStep (rest ++ List.replicate n 47) moves rest := by
  induction n with
  | zero => exact ⟨[], by simpa using Run.nil⟩
  | succ n ih =>
      obtain ⟨moves, hr⟩ := ih
      have hs : slashStep (rest ++ List.replicate (n + 1) 47) () =
          .ok (rest ++ List.replicate n 47) := by
        rw [List.replicate_succ', ← List.append_assoc, slashStep, List.getLast?_concat]
        simp
      exact ⟨_, (Run.nil.snoc hs).append hr⟩

theorem stripped_append (uri : ByteString) :
    ∃ n, uri = stripped uri ++ List.replicate n 47 := by
  have htail : ∀ b ∈ uri.rtakeWhile (· = 47), b = 47 := fun b hb => by
    simpa using List.mem_rtakeWhile_imp hb
  refine ⟨(uri.rtakeWhile (· = 47)).length, ?_⟩
  rw [← List.eq_replicate_of_mem htail]
  exact (List.rdropWhile_append_rtakeWhile (p := (· = 47)) (l := uri)).symm

/-- A prefix that does not end in a slash ends before
the slashes at the end. -/
theorem longestUnslashed_of_append {n : Nat} (hlast : rest.getLast? ≠ some 47) :
    LongestUnslashed (rest ++ List.replicate n 47) rest where
  isPrefix := List.prefix_append _ _
  last := hlast
  longest := by
    intro other hother hend
    obtain hle | hle := List.prefix_or_prefix_of_prefix hother (List.prefix_append rest _)
    · exact hle
    · obtain ⟨slashes, rfl⟩ := hle
      have hslashes : slashes <+: List.replicate n 47 :=
        (List.prefix_append_right_inj rest).mp hother
      obtain rfl | ⟨front, b, rfl⟩ := List.eq_nil_or_concat slashes
      · simp
      · have hb := List.eq_of_mem_replicate (hslashes.subset (a := b) (by simp))
        simp [hb] at hend

theorem stripped_getLast? (hne : stripped uri ≠ []) :
    ∃ b, (stripped uri).getLast? = some b ∧ b ≠ 47 := by
  have hlast := List.rdropWhile_last_not (· = (47 : UInt8)) uri hne
  exact ⟨_, List.getLast?_eq_some_getLast hne, fun hslash => hlast (decide_eq_true hslash)⟩

/-- Whatever the URI is, its slashes go in passes of the loop, also where the
last of them leaves nothing. -/
theorem stripSlashes_run (uri : ByteString) :
    ∃ moves, Run slashStep uri moves (stripSlashes uri) := by
  obtain ⟨n, hn⟩ := stripped_append uri
  obtain ⟨moves, hr⟩ := run_of_eq_append (stripped uri) n
  rw [← hn, ← stripSlashes_eq] at hr
  exact ⟨moves, hr⟩

/-- What the parser stores for a line that matches and
is not taken for a field. -/
theorem mem_lineFields (h : matchedUri item = some uri) (hcolon : 58 ∉ item) :
    (HeaderOptions.requestUri, stripSlashes uri) ∈ lineFields item := by
  obtain ⟨⟨method, target, version⟩, hmatch, rfl⟩ := Option.map_eq_some_iff.mp h
  rw [lineFields, if_neg hcolon, hmatch]
  simp

/-- The loop is safe exactly on a URI that has a character other than a slash:
slashes are all that it tests for. -/
theorem strips_safely_iff (h : matchedUri item = some uri) :
    StripsSafely item uri ↔ ∃ b ∈ uri, b ≠ 47 := by
  constructor
  · intro hsafe
    obtain ⟨rest, ⟨moves, hr, hend⟩, -⟩ := hsafe.leaves
    obtain ⟨b, hb, hne⟩ := slashStep_disabled_iff.mp hend
    have hmem : b ∈ uri := by
      rw [eq_append_of_run hr]
      exact List.mem_append_left _ (List.mem_of_getLast? hb)
    exact ⟨b, hmem, hne⟩
  · rintro ⟨b, hb, hne⟩
    obtain ⟨n, hn⟩ := stripped_append uri
    have hkeep : ∀ moves rest, Run slashStep uri moves rest → rest ≠ [] := by
      rintro moves rest hr rfl
      rw [eq_append_of_run hr] at hb
      exact hne (List.eq_of_mem_replicate hb)
    have hstrip := stripSlashes_eq uri
    obtain ⟨moves, hr⟩ := stripSlashes_run uri
    rw [hstrip] at hr
    obtain ⟨c, hlast, hc⟩ := stripped_getLast? (hkeep _ _ hr)
    refine ⟨hkeep, fun moves rest hr => ?_, stripped uri, ?_, hstrip, ?_,
      hstrip ▸ mem_lineFields h⟩
    · rw [eq_append_of_run hr, List.length_append, List.length_replicate]
      exact Nat.le_add_left _ _
    · exact ⟨moves, hr, slashStep_disabled_iff.mpr ⟨c, hlast, hc⟩⟩
    · have hend : (stripped uri).getLast? ≠ some 47 := by simpa [hlast] using hc
      have hlongest := longestUnslashed_of_append (n := n) hend
      rwa [← hn] at hlongest

end Loop

def analyseLine : ByteString := ofString "POST /analyse/ HTTP/1.1\r"

theorem strips_safely_iff_analyse : matchedUri analyseLine = some (ofString "/analyse/") ∧
    StripsSafely analyseLine (ofString "/analyse/") := by
  have hmatch : matchedUri analyseLine = some (ofString "/analyse/") := by decide +kernel
  exact ⟨hmatch, (strips_safely_iff hmatch).mpr ⟨97, by decide +kernel, by decide⟩⟩

/-- A request for `/` is read outside the string, and so is one
whose URI trims to nothing. -/
theorem slash_reads_outside :
    matchedUri (ofString "GET / HTTP/1.1\r") = some [47] ∧
      (∃ moves, Run slashStep [47] moves [] ∧
        slashStep [] () = .error (.fault .outOfBounds)) ∧
      ¬ StripsSafely (ofString "GET / HTTP/1.1\r") [47] ∧
    matchedUri (ofString "GET \t\r") = some [] ∧ ¬ StripsSafely (ofString "GET \t\r") [] := by
  refine ⟨by decide +kernel, ⟨_, Run.nil.snoc (a := ()) rfl, rfl⟩, fun hsafe => ?_,
    by decide +kernel, fun hsafe => ?_⟩
  · exact hsafe.inside _ _ (Run.nil.snoc (a := ()) rfl) rfl
  · exact hsafe.inside _ _ .nil rfl

end HttpParser

end Ailawd
