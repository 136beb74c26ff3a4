import ForkRedis.Words
import ForkRedis.Lib.Loop

set_option autoImplicit false

/- `RawCommandToRequest` by its iterators. They are positions in the raw command, of which
the last is its end. The scanners of the server and of the client differ in
`isTokenMember`. -/
namespace ForkRedis.Scanner

open Fallible

variable (isTokenMember : UInt8 → Bool) (raw : Bytes)

/-- `*it`, which is undefined at the end. -/
def deref (it : Nat) : Except Fault UInt8 :=
  match raw[it]? with
  | none => .error .undefined
  | some c => .ok c

/-- A round of the first loop of `nextToken`, which moves `it`. It is left at a token member,
or by the `return` at the end. -/
def skip (it : Nat) : Except Fault (Nat ⊕ Option Nat) := do
  let c ← deref raw it
  if isTokenMember c then return .inr (some it)
  else if it + 1 = raw.length then return .inr none
  else return .inl (it + 1)

/-- A round of its second loop, which moves `end`. -/
def advance (stop : Nat) : Except Fault (Nat ⊕ Nat) := do
  let c ← deref raw stop
  if !isTokenMember c then return .inr stop
  else if stop + 1 = raw.length then return .inr (stop + 1)
  else return .inl (stop + 1)

/-- The token, and where `it` is then. -/
def nextToken (rounds it : Nat) : Except Fault (Bytes × Nat) :=
  if it = raw.length then .ok ([], it)
  else do
    match ← Loop.run .endless (skip isTokenMember raw) rounds it with
    | none => return ([], raw.length)
    | some first =>
        let stop ← Loop.run .endless (advance isTokenMember raw) rounds first
        return ((raw.drop first).take (stop - first), stop)

/-- A round of the loop over the tokens: an empty one ends it. -/
def push (rounds : Nat) (state : Nat × Request) : Except Fault ((Nat × Request) ⊕ Request) := do
  let (token, it) ← nextToken isTokenMember raw rounds state.1
  if token = [] then return .inr state.2
  else return .inl (it, state.2 ++ [token])

/-- All loops, for at most so many rounds each. -/
def rawCommandToRequest (rounds : Nat) : Except Fault Request :=
  Loop.run .endless (push isTokenMember raw rounds) rounds (0, [])

/-- The scanner ends with a request, whatever rounds it is given beyond one for each place
in the raw command. -/
def Returns (request : Request) : Prop :=
  ∀ rounds > raw.length, rawCommandToRequest isTokenMember raw rounds = .ok request

/-- The first place from `it` on whose byte fails a test, or the end. -/
def reach (test : UInt8 → Bool) (it : Nat) : Nat := it + ((raw.drop it).takeWhile test).length

variable {isTokenMember} {raw}

theorem deref_eq {it : Nat} (inside : it < raw.length) :
    ∃ c, deref raw it = .ok c ∧ raw.drop it = c :: raw.drop (it + 1) := by
  refine ⟨raw[it], ?_, List.drop_eq_getElem_cons inside⟩
  simp only [deref, List.getElem?_eq_getElem inside]

theorem reach_of_pos {test : UInt8 → Bool} {it : Nat} {c : UInt8}
    (split : raw.drop it = c :: raw.drop (it + 1)) (passes : test c = true) :
    reach raw test it = reach raw test (it + 1) := by
  rw [reach, reach, split, List.takeWhile_cons_of_pos passes, List.length_cons]
  omega

theorem reach_of_neg {test : UInt8 → Bool} {it : Nat} {c : UInt8}
    (split : raw.drop it = c :: raw.drop (it + 1)) (fails : test c = false) :
    reach raw test it = it := by
  have stops : ¬ test c = true := by simp [fails]
  rw [reach, split, List.takeWhile_cons_of_neg stops]
  rfl

theorem reach_end (test : UInt8 → Bool) : reach raw test raw.length = raw.length := by
  rw [reach, List.drop_length]
  rfl

theorem drop_reach (raw : Bytes) (test : UInt8 → Bool) (it : Nat) :
    raw.drop (reach raw test it) = (raw.drop it).dropWhile test := by
  have halves := List.takeWhile_append_dropWhile (p := test) (l := raw.drop it)
  rw [reach, ← List.drop_drop]
  nth_rewrite 2 [← halves]
  rw [List.drop_left]

theorem take_reach (test : UInt8 → Bool) (it : Nat) :
    (raw.drop it).take (reach raw test it - it) = (raw.drop it).takeWhile test := by
  have halves := List.takeWhile_append_dropWhile (p := test) (l := raw.drop it)
  rw [reach, Nat.add_sub_cancel_left]
  nth_rewrite 2 [← halves]
  rw [List.take_left]

theorem reach_le {it : Nat} (inside : it ≤ raw.length) (test : UInt8 → Bool) :
    reach raw test it ≤ raw.length := by
  have sizes := (List.takeWhile_sublist (l := raw.drop it) test).length_le
  rw [List.length_drop] at sizes
  rw [reach]
  omega

/-- The first loop of `nextToken` goes to the next token member. -/
theorem run_skip {rounds it : Nat} (inside : it < raw.length) (enough : raw.length < rounds) :
    Loop.run .endless (skip isTokenMember raw) rounds it =
      .ok (if reach raw (fun c => !isTokenMember c) it = raw.length then none
        else some (reach raw (fun c => !isTokenMember c) it)) := by
  refine Loop.run_eq (fun it => it < raw.length) (fun it => raw.length - it)
    (fun it => if reach raw (fun c => !isTokenMember c) it = raw.length then none
      else some (reach raw (fun c => !isTokenMember c) it)) ?_ inside (by omega)
  intro it inside
  obtain ⟨c, read, split⟩ := deref_eq inside
  simp only [skip, read, ok_bind]
  by_cases found : isTokenMember c = true
  · left
    have stays : reach raw (fun c => !isTokenMember c) it = it :=
      reach_of_neg split (by simp [found])
    rw [if_pos found, stays, if_neg (by omega)]
    rfl
  · have moves : reach raw (fun c => !isTokenMember c) it =
        reach raw (fun c => !isTokenMember c) (it + 1) := reach_of_pos split (by simp [found])
    rw [if_neg found, moves]
    by_cases last : it + 1 = raw.length
    · left
      rw [if_pos last, last, reach_end, if_pos rfl]
      rfl
    · right
      rw [if_neg last]
      exact ⟨it + 1, rfl, by omega, by omega, rfl⟩

/-- The second one goes to the end of the token. -/
theorem run_advance {rounds stop : Nat} (inside : stop < raw.length)
    (enough : raw.length < rounds) :
    Loop.run .endless (advance isTokenMember raw) rounds stop =
      .ok (reach raw isTokenMember stop) := by
  refine Loop.run_eq (fun stop => stop < raw.length) (fun stop => raw.length - stop)
    (reach raw isTokenMember) ?_ inside (by omega)
  intro stop inside
  obtain ⟨c, read, split⟩ := deref_eq inside
  simp only [advance, read, ok_bind, Bool.not_eq_true']
  by_cases outside : isTokenMember c = false
  · left
    rw [if_pos outside, reach_of_neg split outside]
    rfl
  · rw [if_neg outside, reach_of_pos split (by simpa using outside)]
    by_cases last : stop + 1 = raw.length
    · left
      rw [if_pos last, last, reach_end]
      rfl
    · right
      rw [if_neg last]
      exact ⟨stop + 1, rfl, by omega, by omega, rfl⟩

/-- `nextToken` takes the next run from what is left, and leaves `it` behind it. -/
theorem nextToken_eq (isTokenMember : UInt8 → Bool) {rounds it : Nat} (inside : it ≤ raw.length)
    (enough : raw.length < rounds) :
    ∃ stop, nextToken isTokenMember raw rounds it =
        .ok ((Scan.next isTokenMember (raw.drop it)).1, stop) ∧
      raw.drop stop = (Scan.next isTokenMember (raw.drop it)).2 ∧ stop ≤ raw.length := by
  by_cases at_end : it = raw.length
  · refine ⟨it, ?_, ?_, inside⟩
    · rw [nextToken, if_pos at_end, at_end, List.drop_length]
      rfl
    · rw [at_end, List.drop_length]
      rfl
  · rw [nextToken, if_neg at_end, run_skip (by omega) enough, ok_bind]
    have bounded := reach_le inside fun c => !isTokenMember c
    have start := drop_reach raw (fun c => !isTokenMember c) it
    rw [Scan.next, ← start]
    generalize reach raw (fun c => !isTokenMember c) it = first at *
    by_cases none_left : first = raw.length
    · refine ⟨raw.length, ?_, ?_, Nat.le_refl _⟩
      · rw [if_pos none_left, none_left, List.drop_length]
        rfl
      · rw [none_left, List.drop_length]
        rfl
    · refine ⟨reach raw isTokenMember first, ?_, drop_reach raw isTokenMember first,
        reach_le bounded isTokenMember⟩
      rw [if_neg none_left]
      dsimp only
      rw [run_advance (by omega) enough, ok_bind, take_reach]
      rfl

/-- The scanner returns the runs of token members. -/
theorem returns_runs (isTokenMember : UInt8 → Bool) (raw : Bytes) :
    Returns isTokenMember raw (Scan.runs isTokenMember raw) := by
  intro rounds enough
  refine Loop.run_eq (fun state : Nat × Request => state.1 ≤ raw.length)
    (fun state => (raw.drop state.1).length)
    (fun state => state.2 ++ Scan.runs isTokenMember (raw.drop state.1)) ?_ (Nat.zero_le _) enough
  rintro ⟨it, request⟩ inside
  obtain ⟨stop, called, behind, bounded⟩ := nextToken_eq isTokenMember inside enough
  have found : Scan.runs isTokenMember (raw.drop it) = _ := Scan.runs_step _
  simp only [push, called, ok_bind]
  by_cases none_left : (Scan.next isTokenMember (raw.drop it)).1 = []
  · left
    rw [if_pos none_left] at found ⊢
    rw [found, List.append_nil]
    rfl
  · right
    rw [if_neg none_left] at found ⊢
    refine ⟨_, rfl, bounded, ?_, ?_⟩
    · show (raw.drop stop).length < _
      rw [behind]
      exact Scan.next_length none_left
    · show request ++ [_] ++ Scan.runs isTokenMember (raw.drop stop) = _
      rw [found, behind, List.append_assoc, List.singleton_append]

theorem returns_iff {isTokenMember : UInt8 → Bool} {raw : Bytes} {request : Request} :
    Returns isTokenMember raw request ↔ Scan.runs isTokenMember raw = request := by
  constructor
  · intro returns
    have returned := returns (raw.length + 1) (Nat.lt_succ_self _)
    rw [returns_runs isTokenMember raw (raw.length + 1) (Nat.lt_succ_self _)] at returned
    exact Except.ok.inj returned
  · rintro rfl
    exact returns_runs isTokenMember raw

example : rawCommandToRequest ForkRedis.isTokenMember (bytes " SET k-1") 9 =
    .ok [bytes "SET", bytes "k", bytes "1"] := by decide +kernel

/-- The server's scanner returns what the other modules take it to return. -/
theorem returns_rawCommandToRequest (raw : Bytes) :
    Returns ForkRedis.isTokenMember raw (ForkRedis.rawCommandToRequest raw) :=
  returns_iff.mpr (rawCommandToRequest_eq_runs raw).symm

/-- The scanner of the server ends on every raw command without a look behind its end, and
returns the maximal runs of letters and digits from left to right. Texts that are joined by
blanks are found again exactly if each of them is a word. -/
theorem returns_maximal_runs :
    (∀ raw, ∃ spans, Scan.MaximalRuns ForkRedis.isTokenMember raw spans ∧
      Returns ForkRedis.isTokenMember raw (spans.map (Scan.text raw))) ∧
    ∀ texts : List Bytes,
      Returns ForkRedis.isTokenMember ([space].intercalate texts) texts ↔
        ∀ text ∈ texts, Word text := by
  constructor
  · intro raw
    obtain ⟨spans, maximal, found⟩ := Scan.runs_maximal ForkRedis.isTokenMember raw
    exact ⟨spans, maximal, returns_iff.mpr found⟩
  · intro texts
    rw [returns_iff]
    exact Scan.runs_intercalate_iff isTokenMember_space texts

end ForkRedis.Scanner
