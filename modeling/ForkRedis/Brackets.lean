import ForkRedis.Framing

set_option autoImplicit false

/- The frames of a stream, read off its brackets from left to right, and what
`ExportMessages` finds of them. -/
namespace ForkRedis

open Json11

variable {buffer before : Bytes} {exported : List Request × Bytes} {stray : Bytes → Bool}

/-- The complete frames of a stream, when the bytes of an open frame are given: each goes
from a `[` outside of a frame to the next `]`. -/
def framesFrom : Option Bytes → Bytes → List Bytes
  | _, [] => []
  | none, c :: rest => if c = 91 then framesFrom (some [91]) rest else framesFrom none rest
  | some frame, c :: rest =>
      if c = 93 then (frame ++ [93]) :: framesFrom none rest
      else framesFrom (some (frame ++ [c])) rest

def frames (stream : Bytes) : List Bytes := framesFrom none stream

/-- A scan of the brackets, outside or inside of a frame, up to the first `]` that closes
nothing. What is behind that decides. -/
def scan (stray : Bytes → Bool) : Bool → Bytes → Bool
  | _, [] => true
  | false, c :: rest => if c = 93 then stray rest else scan stray (c == 91) rest
  | true, c :: rest => scan stray (c != 93) rest

/-- Every `]` closes a frame. -/
def wellClosed (stream : Bytes) : Bool := scan (fun _ => false) false stream

/-- No frame is behind a `]` that closes nothing. -/
def unblocked (stream : Bytes) : Bool := scan (fun rest => (frames rest).isEmpty) false stream

theorem framesFrom_none_append (plain : 91 ∉ before) (rest : Bytes) :
    framesFrom none (before ++ rest) = framesFrom none rest := by
  induction before with
  | nil => rfl
  | cons c before ih =>
      rw [List.mem_cons, not_or] at plain
      rw [List.cons_append, framesFrom, if_neg (Ne.symm plain.1), ih plain.2]

theorem framesFrom_some_append {inner : Bytes} (unclosed : 93 ∉ inner) (frame rest : Bytes) :
    framesFrom (some frame) (inner ++ rest) = framesFrom (some (frame ++ inner)) rest := by
  induction inner generalizing frame with
  | nil => rw [List.nil_append, List.append_nil]
  | cons c inner ih =>
      rw [List.mem_cons, not_or] at unclosed
      rw [List.cons_append, framesFrom, if_neg (Ne.symm unclosed.1), ih unclosed.2,
        List.append_assoc, List.singleton_append]

theorem scan_true_append {inner : Bytes} (unclosed : 93 ∉ inner) (rest : Bytes) :
    scan stray true (inner ++ rest) = scan stray true rest := by
  induction inner with
  | nil => rfl
  | cons c inner ih =>
      rw [List.mem_cons, not_or] at unclosed
      rw [List.cons_append, scan, bne_iff_ne.mpr (Ne.symm unclosed.1), ih unclosed.2]

theorem scan_false_append (unopened : 91 ∉ before) (unclosed : 93 ∉ before) (rest : Bytes) :
    scan stray false (before ++ rest) = scan stray false rest := by
  induction before with
  | nil => rfl
  | cons c before ih =>
      rw [List.mem_cons, not_or] at unopened unclosed
      rw [List.cons_append, scan, if_neg (Ne.symm unclosed.1),
        beq_eq_false_iff_ne.mpr (Ne.symm unopened.1), ih unopened.2 unclosed.2]

/-- Without a `]` there is nothing to close. -/
theorem scan_of_unclosed {stream : Bytes} (unclosed : 93 ∉ stream) (inside : Bool) :
    scan stray inside stream = true := by
  induction stream generalizing inside with
  | nil => cases inside <;> rfl
  | cons c stream ih =>
      rw [List.mem_cons, not_or] at unclosed
      cases inside with
      | false => rw [scan, if_neg (Ne.symm unclosed.1), ih unclosed.2]
      | true => rw [scan, ih unclosed.2]

theorem framesFrom_of_unclosed {stream : Bytes} (unclosed : 93 ∉ stream) (frame : Option Bytes) :
    framesFrom frame stream = [] := by
  induction stream generalizing frame with
  | nil => cases frame <;> rfl
  | cons c stream ih =>
      rw [List.mem_cons, not_or] at unclosed
      cases frame with
      | none =>
          rw [framesFrom]
          split
          · exact ih unclosed.2 _
          · exact ih unclosed.2 _
      | some frame => rw [framesFrom, if_neg (Ne.symm unclosed.1), ih unclosed.2]

theorem findByte_append {c : UInt8} (absent : c ∉ before) (rest : Bytes) :
    findByte c (before ++ c :: rest) = before.length := by
  rw [findByte, List.idxOf_append_of_notMem absent, List.idxOf_cons_self, Nat.add_zero]

/-- A buffer without a `]`. -/
theorem nextMessage_of_unclosed (unclosed : 93 ∉ buffer) : nextMessage buffer = none := by
  have missing : findByte 93 buffer = buffer.length := List.idxOf_of_notMem unclosed
  simp only [nextMessage, missing, true_or, or_true, ↓reduceIte]

/-- A buffer whose first bracket is a `]`. -/
theorem nextMessage_of_stray (unopened : 91 ∉ before) (unclosed : 93 ∉ before) (rest : Bytes) :
    nextMessage (before ++ 93 :: rest) = none := by
  have closed := findByte_append unclosed rest
  have opened : before.length ≤ findByte 91 (before ++ 93 :: rest) := by
    rw [findByte, List.idxOf_append_of_notMem unopened]
    exact Nat.le_add_right _ _
  simp only [nextMessage, closed, opened, or_true, ↓reduceIte]

/-- A buffer that starts with a frame, up to bytes that are no brackets. -/
theorem nextMessage_of_frame {before inner : Bytes} (unopened : 91 ∉ before)
    (unclosed : 93 ∉ before) (plain : 93 ∉ inner) (rest : Bytes) :
    nextMessage (before ++ 91 :: (inner ++ 93 :: rest)) = some (91 :: (inner ++ [93]), rest) := by
  have absent : 93 ∉ before ++ 91 :: inner := by
    simp only [List.mem_append, List.mem_cons, not_or]
    exact ⟨unclosed, by decide, plain⟩
  have opened := findByte_append unopened (inner ++ 93 :: rest)
  have shape : before ++ 91 :: (inner ++ 93 :: rest) = (before ++ 91 :: inner) ++ 93 :: rest := by
    rw [List.append_assoc, List.cons_append]
  have closed : findByte 93 (before ++ 91 :: (inner ++ 93 :: rest)) =
      (before ++ 91 :: inner).length := by
    rw [shape, findByte_append absent]
  have cut : before ++ 91 :: (inner ++ 93 :: rest) = (before ++ 91 :: (inner ++ [93])) ++ rest := by
    simp only [List.append_assoc, List.cons_append, List.nil_append]
  have ended : (before ++ 91 :: inner).length + 1 = (before ++ 91 :: (inner ++ [93])).length := by
    simp only [List.length_append, List.length_cons, List.length_nil]
    omega
  have inside : ¬ (before.length = (before ++ 91 :: (inner ++ 93 :: rest)).length ∨
      (before ++ 91 :: inner).length = (before ++ 91 :: (inner ++ 93 :: rest)).length ∨
      (before ++ 91 :: inner).length ≤ before.length) := by
    simp only [List.length_append, List.length_cons]
    omega
  simp only [nextMessage, opened, closed, if_neg inside, ended]
  rw [cut, List.take_left, List.drop_left, List.drop_left]

/-- The first bracket that matters: there is no `]`, or the first one closes nothing, or it
closes a frame. -/
theorem bracket_cases (buffer : Bytes) :
    93 ∉ buffer ∨
      (∃ before rest, buffer = before ++ 93 :: rest ∧ 91 ∉ before ∧ 93 ∉ before) ∨
      ∃ before inner rest, buffer = before ++ 91 :: (inner ++ 93 :: rest) ∧ 91 ∉ before ∧
        93 ∉ before ∧ 93 ∉ inner := by
  by_cases closed : 93 ∈ buffer
  · obtain ⟨front, rest, rfl, first⟩ := List.eq_append_cons_of_mem closed
    right
    by_cases opened : 91 ∈ front
    · obtain ⟨before, inner, rfl, unopened⟩ := List.eq_append_cons_of_mem opened
      simp only [List.mem_append, List.mem_cons, not_or] at first
      refine Or.inr ⟨before, inner, rest, ?_, unopened, first.1, first.2.2⟩
      rw [List.append_assoc, List.cons_append]
    · exact Or.inl ⟨front, rest, rfl, opened, first⟩
  · exact Or.inl closed

/-- What a message is cut from. -/
theorem nextMessage_some {buffer element rest : Bytes}
    (cut : nextMessage buffer = some (element, rest)) :
    ∃ before inner, buffer = before ++ 91 :: (inner ++ 93 :: rest) ∧ 91 ∉ before ∧ 93 ∉ before ∧
      93 ∉ inner ∧ element = 91 :: (inner ++ [93]) := by
  rcases bracket_cases buffer with unclosed | ⟨before, later, rfl, unopened, unclosed⟩ |
    ⟨before, inner, later, rfl, unopened, unclosed, plain⟩
  · rw [nextMessage_of_unclosed unclosed] at cut
    cases cut
  · rw [nextMessage_of_stray unopened unclosed] at cut
    cases cut
  · rw [nextMessage_of_frame unopened unclosed plain] at cut
    cases cut
    exact ⟨before, inner, rfl, unopened, unclosed, plain, rfl⟩

/-- What `ExportMessages` leaves: nothing is closed in it, or its first bracket is a `]`. -/
theorem nextMessage_none (uncut : nextMessage buffer = none) :
    93 ∉ buffer ∨ ∃ before rest, buffer = before ++ 93 :: rest ∧ 91 ∉ before ∧ 93 ∉ before := by
  rcases bracket_cases buffer with unclosed | stray |
    ⟨before, inner, rest, rfl, unopened, unclosed, plain⟩
  · exact Or.inl unclosed
  · exact Or.inr stray
  · rw [nextMessage_of_frame unopened unclosed plain] at uncut
    cases uncut

theorem frames_of_frame {before inner : Bytes} (unopened : 91 ∉ before) (plain : 93 ∉ inner)
    (rest : Bytes) :
    frames (before ++ 91 :: (inner ++ 93 :: rest)) = (91 :: (inner ++ [93])) :: frames rest := by
  rw [frames, framesFrom_none_append unopened, framesFrom, if_pos rfl,
    framesFrom_some_append plain, framesFrom, if_pos rfl]
  rfl

theorem frames_of_stray (unopened : 91 ∉ before) (rest : Bytes) :
    frames (before ++ 93 :: rest) = frames rest := by
  rw [frames, framesFrom_none_append unopened, framesFrom, if_neg (by decide)]
  rfl

theorem scan_of_frame {before inner : Bytes} (unopened : 91 ∉ before) (unclosed : 93 ∉ before)
    (plain : 93 ∉ inner) (rest : Bytes) :
    scan stray false (before ++ 91 :: (inner ++ 93 :: rest)) = scan stray false rest := by
  rw [scan_false_append unopened unclosed, scan, if_neg (by decide)]
  show scan stray true (inner ++ 93 :: rest) = _
  rw [scan_true_append plain, scan]
  rfl

theorem scan_of_stray (unopened : 91 ∉ before) (unclosed : 93 ∉ before) (rest : Bytes) :
    scan stray false (before ++ 93 :: rest) = stray rest := by
  rw [scan_false_append unopened unclosed, scan, if_pos rfl]

/-- The scan passes over all that is exported. -/
theorem ExportRun.scan_eq (run : ExportRun buffer exported) (stray : Bytes → Bool) :
    scan stray false buffer = scan stray false exported.2 := by
  induction run with
  | stop _ => rfl
  | round cut _ ih =>
      obtain ⟨before, inner, rfl, unopened, unclosed, plain, _⟩ := nextMessage_some cut
      rw [scan_of_frame unopened unclosed plain, ih]

/-- The frames of a buffer are those that are exported and those that are left. -/
theorem ExportRun.frames_eq (run : ExportRun buffer exported) :
    (frames buffer).map parse = exported.1 ++ (frames exported.2).map parse := by
  induction run with
  | stop _ => rfl
  | round cut _ ih =>
      obtain ⟨before, inner, rfl, unopened, _, plain, rfl⟩ := nextMessage_some cut
      rw [frames_of_frame unopened plain, List.map_cons, ih, List.cons_append]

theorem ExportRun.uncut (run : ExportRun buffer exported) : nextMessage exported.2 = none := by
  induction run with
  | stop uncut => exact uncut
  | round _ _ ih => exact ih

/-- A frame is left behind only by a `]` that closes nothing in front of it. -/
theorem ExportRun.unblocked_iff (run : ExportRun buffer exported) :
    unblocked buffer = true ↔ frames exported.2 = [] := by
  rw [unblocked, run.scan_eq]
  rcases nextMessage_none run.uncut with unclosed | ⟨before, rest, shape, unopened, unclosed⟩
  · exact iff_of_true (scan_of_unclosed unclosed false) (framesFrom_of_unclosed unclosed none)
  · rw [shape, scan_of_stray unopened unclosed, frames_of_stray unopened, List.isEmpty_iff]

theorem exportMessages_of_uncut (uncut : nextMessage buffer = none) :
    exportMessages buffer = ([], buffer) :=
  (exportRun_exportMessages buffer).unique (.stop uncut)

theorem exportMessages_of_cut {buffer element rest : Bytes}
    (cut : nextMessage buffer = some (element, rest)) : (exportMessages buffer).1 ≠ [] := by
  intro none
  have run := exportRun_exportMessages buffer
  generalize exportMessages buffer = exported at run none
  cases run with
  | stop uncut =>
      rw [uncut] at cut
      cases cut
  | round => cases none

/-- A buffer without a `]` needs one more, and perhaps a `[` before it. -/
theorem nextMessage_completed (unclosed : 93 ∉ buffer) :
    ∃ element rest, nextMessage (buffer ++ bytes "[]") = some (element, rest) := by
  by_cases opened : 91 ∈ buffer
  · obtain ⟨before, inner, rfl, unopened⟩ := List.eq_append_cons_of_mem opened
    simp only [List.mem_append, List.mem_cons, not_or] at unclosed
    have plain : 93 ∉ inner ++ [91] := by
      rw [List.mem_append, List.mem_singleton, not_or]
      exact ⟨unclosed.2.2, by decide⟩
    have shape : (before ++ 91 :: inner) ++ bytes "[]" =
        before ++ 91 :: ((inner ++ [91]) ++ 93 :: []) := by
      rw [List.append_assoc, List.cons_append, List.append_assoc]
      rfl
    rw [shape]
    exact ⟨_, _, nextMessage_of_frame unopened unclosed.1 plain []⟩
  · exact ⟨_, _, nextMessage_of_frame opened unclosed List.not_mem_nil []⟩

/-- Some continuation of what is left gives a message unless its first bracket is a `]`. -/
theorem continues_iff (uncut : nextMessage buffer = none) :
    (∃ more, (exportMessages (buffer ++ more)).1 ≠ []) ↔ wellClosed buffer = true := by
  rw [wellClosed]
  rcases nextMessage_none uncut with unclosed | ⟨before, rest, rfl, unopened, unclosed⟩
  · obtain ⟨element, rest, cut⟩ := nextMessage_completed unclosed
    exact iff_of_true ⟨_, exportMessages_of_cut cut⟩ (scan_of_unclosed unclosed false)
  · rw [scan_of_stray unopened unclosed]
    refine iff_of_false ?_ Bool.false_ne_true
    rintro ⟨more, exported⟩
    rw [List.append_assoc, List.cons_append,
      exportMessages_of_uncut (nextMessage_of_stray unopened unclosed _)] at exported
    exact exported rfl

/-- However its bytes arrived, a connection can still give a message exactly when each `]`
among them closes a frame. -/
theorem unwedged_iff (chunks : List Bytes) :
    (∃ more, (exportMessages ((chunks.foldl receive ([], [])).2 ++ more)).1 ≠ []) ↔
      wellClosed chunks.flatten = true := by
  have run : ExportRun chunks.flatten (chunks.foldl receive ([], [])) :=
    exportRun_receive (.stop rfl : ExportRun [] ([], [])) chunks
  rw [continues_iff run.uncut, wellClosed, wellClosed, run.scan_eq]

/-- One byte is enough. -/
theorem wedged_by_bracket :
    ¬ ∃ more, (exportMessages (([bytes "]"].foldl receive ([], [])).2 ++ more)).1 ≠ [] := by
  rintro ⟨more, message⟩
  have left : ([bytes "]"].foldl receive ([], [])).2 = [93] := by decide
  have uncut : nextMessage ([93] ++ more) = none :=
    nextMessage_of_stray List.not_mem_nil List.not_mem_nil more
  rw [left, exportMessages_of_uncut uncut] at message
  exact message rfl

end ForkRedis
