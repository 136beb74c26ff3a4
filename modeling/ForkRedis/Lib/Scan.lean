import Mathlib.Data.List.Basic

set_option autoImplicit false

/- The runs of members in a list: what a scanner finds that skips to the next member and
takes all up to the next that is none. -/
namespace Scan

variable {α : Type} {member : α → Bool}

/-- The next run, empty if there is none, and what is behind it. -/
def next (member : α → Bool) (raw : List α) : List α × List α :=
  let start := raw.dropWhile fun c => !member c
  (start.takeWhile member, start.dropWhile member)

def rounds (member : α → Bool) : Nat → List α → List (List α)
  | 0, _ => []
  | n + 1, raw =>
      if (next member raw).1 = [] then []
      else (next member raw).1 :: rounds member n (next member raw).2

/-- A run takes a place at least, so there are no more rounds than places. -/
def runs (member : α → Bool) (raw : List α) : List (List α) := rounds member raw.length raw

/-- What the scanner takes as one run. -/
def Run (member : α → Bool) (text : List α) : Prop := text ≠ [] ∧ ∀ c ∈ text, member c = true

theorem next_length {raw : List α} (found : (next member raw).1 ≠ []) :
    (next member raw).2.length < raw.length := by
  have split := List.takeWhile_append_dropWhile (p := member)
    (l := raw.dropWhile fun c => !member c)
  have sizes := congrArg List.length split
  have shorter := (List.dropWhile_sublist (l := raw) fun c => !member c).length_le
  have filled : 0 < (next member raw).1.length := List.length_pos_iff.mpr found
  rw [List.length_append] at sizes
  change 0 < ((raw.dropWhile fun c => !member c).takeWhile member).length at filled
  change ((raw.dropWhile fun c => !member c).dropWhile member).length < _
  omega

/-- The scan ends for want of runs, never for want of rounds. -/
theorem rounds_of_enough {n : Nat} {raw : List α} (enough : raw.length ≤ n) :
    rounds member n raw = runs member raw := by
  have general : ∀ (n m : Nat) (raw : List α), raw.length ≤ n → raw.length ≤ m →
      rounds member n raw = rounds member m raw := by
    intro n
    induction n with
    | zero =>
        intro m raw short _
        cases List.length_eq_zero_iff.mp (Nat.le_zero.mp short)
        cases m <;> rfl
    | succ n ih =>
        intro m raw short long
        cases m with
        | zero =>
            cases List.length_eq_zero_iff.mp (Nat.le_zero.mp long)
            rfl
        | succ m =>
            rw [rounds, rounds]
            by_cases none_left : (next member raw).1 = []
            · rw [if_pos none_left, if_pos none_left]
            · have shorter := next_length none_left
              rw [if_neg none_left, if_neg none_left, ih m _ (by omega) (by omega)]
  exact general n raw.length raw enough (Nat.le_refl _)

/-- A round of the scan. -/
theorem runs_step (raw : List α) :
    runs member raw =
      if (next member raw).1 = [] then []
      else (next member raw).1 :: runs member (next member raw).2 := by
  rw [← rounds_of_enough (Nat.le_succ raw.length), rounds]
  by_cases none_left : (next member raw).1 = []
  · rw [if_pos none_left, if_pos none_left]
  · have shorter := next_length none_left
    rw [if_neg none_left, if_neg none_left, rounds_of_enough (by omega)]

theorem runs_separator {c : α} (separates : member c = false) (rest : List α) :
    runs member (c :: rest) = runs member rest := by
  have skipped : next member (c :: rest) = next member rest := by
    simp only [next, List.dropWhile_cons, separates, Bool.not_false, ↓reduceIte]
  rw [runs_step, skipped, ← runs_step]

theorem next_run {text : List α} (run : Run member text) {rest : List α}
    (stops : ∀ c ∈ rest.head?, member c = false) : next member (text ++ rest) = (text, rest) := by
  obtain ⟨filled, members⟩ := run
  have start : (text ++ rest).dropWhile (fun c => !member c) = text ++ rest := by
    cases text with
    | nil => exact absurd rfl filled
    | cons c text =>
        rw [List.cons_append, List.dropWhile_cons_of_neg]
        simp only [members c List.mem_cons_self, Bool.not_true, Bool.false_eq_true,
          not_false_eq_true]
  have halted : rest.takeWhile member = [] ∧ rest.dropWhile member = rest := by
    cases rest with
    | nil => exact ⟨rfl, rfl⟩
    | cons c rest =>
        have stop := stops c rfl
        simp only [List.takeWhile_cons, List.dropWhile_cons, stop, Bool.false_eq_true, ↓reduceIte,
          and_self]
  simp only [next, start]
  rw [List.takeWhile_append_of_pos members, List.dropWhile_append_of_pos members, halted.1,
    halted.2, List.append_nil]

theorem runs_run_rest {text : List α} (run : Run member text) {rest : List α}
    (stops : ∀ c ∈ rest.head?, member c = false) :
    runs member (text ++ rest) = text :: runs member rest := by
  rw [runs_step, next_run run stops, if_neg run.1]

theorem runs_run {text : List α} (run : Run member text) : runs member text = [text] := by
  have alone : runs member (text ++ []) = text :: runs member [] := by
    apply runs_run_rest run
    intro c inside
    cases inside
  rw [List.append_nil] at alone
  exact alone

theorem runs_run_separator {text : List α} (run : Run member text) {c : α}
    (separates : member c = false) (rest : List α) :
    runs member (text ++ c :: rest) = text :: runs member rest := by
  have found : runs member (text ++ c :: rest) = text :: runs member (c :: rest) := by
    apply runs_run_rest run
    intro d first
    cases first
    exact separates
  rw [found, runs_separator separates]

theorem runs_gap {gap : List α} (skipped : ∀ c ∈ gap, member c = false) (rest : List α) :
    runs member (gap ++ rest) = runs member rest := by
  induction gap with
  | nil => rfl
  | cons c gap ih =>
      rw [List.forall_mem_cons] at skipped
      rw [List.cons_append, runs_separator skipped.1, ih skipped.2]

/-- Induction along the runs: a list is a gap, or a gap, a run and a rest that does not go
on with a member. -/
theorem split_induction (member : α → Bool) {motive : List α → Prop}
    (gap : ∀ gap, (∀ c ∈ gap, member c = false) → motive gap)
    (run : ∀ gap text rest, (∀ c ∈ gap, member c = false) → Run member text →
      (∀ c ∈ rest.head?, member c = false) → motive rest → motive (gap ++ (text ++ rest)))
    (raw : List α) : motive raw := by
  induction length : raw.length using Nat.strongRecOn generalizing raw with
  | ind n ih =>
      subst length
      have skipped : ∀ c ∈ raw.takeWhile (fun c => !member c), member c = false := by
        intro c inside
        simpa using List.all_eq_true.mp List.all_takeWhile c inside
      have halves := List.takeWhile_append_dropWhile (p := fun c => !member c) (l := raw)
      cases start : raw.dropWhile (fun c => !member c) with
      | nil =>
          rw [start, List.append_nil] at halves
          rw [halves] at skipped
          exact gap raw skipped
      | cons first behind =>
          -- the gap ends at a member, which begins the run
          have inside : member first = true := by
            have head := List.head_dropWhile_not (fun c => !member c) (l := raw)
              (by rw [start]; exact List.cons_ne_nil _ _)
            simpa only [start, List.head_cons, Bool.not_eq_false'] using head
          have parts := List.takeWhile_append_dropWhile (p := member) (l := first :: behind)
          rw [start, ← parts] at halves
          rw [← halves]
          apply run _ _ _ skipped
          · refine ⟨?_, fun c within => List.all_eq_true.mp List.all_takeWhile c within⟩
            rw [List.takeWhile_cons_of_pos inside]
            exact List.cons_ne_nil _ _
          · intro c left
            have stop := List.head?_dropWhile_not member (first :: behind)
            rw [Option.mem_def.mp left] at stop
            exact stop
          · refine ih _ ?_ _ rfl
            have sizes := congrArg List.length halves
            have positive : 0 < ((first :: behind).takeWhile member).length := by
              rw [List.takeWhile_cons_of_pos inside]
              exact Nat.succ_pos _
            rw [List.length_append, List.length_append] at sizes
            omega

/-- The runs on the two sides of a separator are scanned apart. -/
theorem runs_append (left : List α) {c : α} (separates : member c = false) (right : List α) :
    runs member (left ++ c :: right) = runs member left ++ runs member right := by
  induction left using split_induction member with
  | gap gap skipped =>
      have none := runs_gap skipped ([] : List α)
      rw [List.append_nil] at none
      rw [runs_gap skipped, runs_separator separates, none]
      rfl
  | run gap text rest skipped run stops ih =>
      have stops' : ∀ d ∈ (rest ++ c :: right).head?, member d = false := by
        cases rest with
        | nil =>
            intro d first
            cases first
            exact separates
        | cons first rest => exact stops
      rw [List.append_assoc, List.append_assoc, runs_gap skipped, runs_gap skipped,
        runs_run_rest run stops', runs_run_rest run stops, ih, List.cons_append]

theorem run_of_mem_runs {raw text : List α} (listed : text ∈ runs member raw) :
    Run member text := by
  have general : ∀ (n : Nat) (raw : List α), text ∈ rounds member n raw → Run member text := by
    intro n
    induction n with
    | zero =>
        intro raw inside
        cases inside
    | succ n ih =>
        intro raw inside
        rw [rounds] at inside
        split at inside
        · cases inside
        · rename_i filled
          rcases List.mem_cons.mp inside with rfl | later
          · exact ⟨filled, fun c within => List.all_eq_true.mp List.all_takeWhile c within⟩
          · exact ih _ later
  exact general raw.length raw listed

/-- Texts that are joined by a separator are found again exactly if they are runs. -/
theorem runs_intercalate_iff {c : α} (separates : member c = false) (texts : List (List α)) :
    runs member ([c].intercalate texts) = texts ↔ ∀ text ∈ texts, Run member text := by
  constructor
  · intro found text listed
    rw [← found] at listed
    exact run_of_mem_runs listed
  · intro all
    induction texts with
    | nil => rfl
    | cons text texts ih =>
        rw [List.forall_mem_cons] at all
        cases texts with
        | nil => rw [List.intercalate_singleton, runs_run all.1]
        | cons second texts =>
            rw [List.intercalate_cons_cons, List.append_assoc, List.singleton_append,
              runs_run_separator all.1 separates, ih all.2]

/- The runs by their places in the list. -/

/-- There is a member at a place of the list. -/
def memberAt (member : α → Bool) (raw : List α) (place : Nat) : Bool := raw[place]?.any member

/-- All places from `first` on and before `stop` have members, and the places next to them
on either side have none, or are not in the list. -/
structure MaximalRun (member : α → Bool) (raw : List α) (first stop : Nat) : Prop where
  filled : first < stop
  members : ∀ place, first ≤ place → place < stop → memberAt member raw place = true
  left : ∀ place, place + 1 = first → memberAt member raw place = false
  right : memberAt member raw stop = false

/-- The maximal runs of a list, each once, from left to right. -/
structure MaximalRuns (member : α → Bool) (raw : List α) (spans : List (Nat × Nat)) : Prop where
  ordered : spans.Pairwise fun earlier later => earlier.2 < later.1
  exact : ∀ first stop, (first, stop) ∈ spans ↔ MaximalRun member raw first stop

def text (raw : List α) (span : Nat × Nat) : List α := (raw.drop span.1).take (span.2 - span.1)

theorem memberAt_append (front back : List α) (place : Nat) :
    memberAt member (front ++ back) place =
      if place < front.length then memberAt member front place
      else memberAt member back (place - front.length) := by
  rw [memberAt, memberAt, memberAt, List.getElem?_append]
  split <;> rfl

theorem memberAt_of_gap {gap : List α} (skipped : ∀ c ∈ gap, member c = false) (place : Nat) :
    memberAt member gap place = false := by
  rw [memberAt]
  cases there : gap[place]? with
  | none => rfl
  | some c => exact skipped c (List.mem_of_getElem? there)

theorem memberAt_of_run {text : List α} (run : Run member text) {place : Nat}
    (inside : place < text.length) : memberAt member text place = true := by
  rw [memberAt, List.getElem?_eq_getElem inside]
  exact run.2 _ (List.getElem_mem inside)

theorem memberAt_zero {rest : List α} (stops : ∀ c ∈ rest.head?, member c = false) :
    memberAt member rest 0 = false := by
  cases rest with
  | nil => rfl
  | cons c rest => exact stops c rfl

theorem memberAt_split {gap text : List α} (skipped : ∀ c ∈ gap, member c = false)
    (run : Run member text) (rest : List α) (place : Nat) :
    memberAt member (gap ++ (text ++ rest)) place =
      if place < gap.length then false
      else if place < gap.length + text.length then true
      else memberAt member rest (place - (gap.length + text.length)) := by
  rw [memberAt_append, memberAt_append, memberAt_of_gap skipped]
  split
  · rfl
  · rename_i above
    by_cases inside : place - gap.length < text.length
    · rw [if_pos inside, if_pos (by omega), memberAt_of_run run inside]
    · rw [if_neg inside, if_neg (by omega), Nat.sub_sub]

/-- A list that does not begin with a member does not begin with a run. -/
theorem MaximalRun.first_pos {raw : List α} {first stop : Nat}
    (maximal : MaximalRun member raw first stop) (zero : memberAt member raw 0 = false) :
    0 < first := by
  apply Nat.pos_of_ne_zero
  rintro rfl
  have there := maximal.members 0 (Nat.le_refl 0) maximal.filled
  exact absurd (zero.symm.trans there) Bool.false_ne_true

/-- What is put in front of a list that does not begin with a member moves its runs. -/
theorem maximalRun_behind_iff {rest : List α} (stops : memberAt member rest 0 = false)
    (front : List α) (first stop : Nat) :
    MaximalRun member (front ++ rest) (front.length + first) (front.length + stop) ↔
      MaximalRun member rest first stop := by
  have behind (place : Nat) : memberAt member (front ++ rest) (front.length + place) =
      memberAt member rest place := by
    rw [memberAt_append, if_neg (by omega), Nat.add_sub_cancel_left]
  constructor
  · intro maximal
    have filled := maximal.filled
    refine ⟨by omega, ?_, ?_, (behind stop).symm.trans maximal.right⟩
    · intro place above below
      rw [← behind]
      exact maximal.members _ (by omega) (by omega)
    · intro place next
      rw [← behind]
      exact maximal.left _ (by omega)
  · intro maximal
    have filled := maximal.filled
    have later := maximal.first_pos stops
    refine ⟨by omega, ?_, ?_, (behind stop).trans maximal.right⟩
    · intro place above below
      obtain ⟨place, rfl⟩ := Nat.exists_eq_add_of_le (show front.length ≤ place by omega)
      rw [behind]
      exact maximal.members place (by omega) (by omega)
    · intro place next
      obtain ⟨place, rfl⟩ := Nat.exists_eq_add_of_le (show front.length ≤ place by omega)
      rw [behind]
      exact maximal.left place (by omega)

/-- The first run begins behind the gap, and ends where the rest begins. -/
theorem maximalRun_first_iff {gap text rest : List α} (skipped : ∀ c ∈ gap, member c = false)
    (run : Run member text) (stops : memberAt member rest 0 = false) {first : Nat}
    (before : first < gap.length + text.length) (stop : Nat) :
    MaximalRun member (gap ++ (text ++ rest)) first stop ↔
      first = gap.length ∧ stop = gap.length + text.length := by
  have at_ := memberAt_split skipped run rest
  have edge : memberAt member (gap ++ (text ++ rest)) (gap.length + text.length) = false := by
    rw [at_, if_neg (by omega), if_neg (by omega), Nat.sub_self, stops]
  constructor
  · intro maximal
    have filled := maximal.filled
    have begins : first = gap.length := by
      by_contra other
      by_cases below : first < gap.length
      · have there := maximal.members first (Nat.le_refl first) filled
        rw [at_, if_pos below] at there
        cases there
      · have outside := maximal.left (first - 1) (by omega)
        rw [at_, if_neg (by omega), if_pos (by omega)] at outside
        cases outside
    refine ⟨begins, ?_⟩
    by_contra other
    by_cases short : stop < gap.length + text.length
    · have outside := maximal.right
      rw [at_, if_neg (by omega), if_pos short] at outside
      cases outside
    · have inside := maximal.members (gap.length + text.length) (by omega) (by omega)
      rw [edge] at inside
      cases inside
  · rintro ⟨rfl, rfl⟩
    refine ⟨before, ?_, ?_, edge⟩
    · intro place above below
      rw [at_, if_neg (by omega), if_pos below]
    · intro place next
      rw [at_, if_pos (by omega)]

/-- Behind a gap and a run the maximal runs are that run, and those of the rest. -/
theorem maximalRun_split_iff {gap text rest : List α} (skipped : ∀ c ∈ gap, member c = false)
    (run : Run member text) (stops : memberAt member rest 0 = false) (first stop : Nat) :
    MaximalRun member (gap ++ (text ++ rest)) first stop ↔
      first = gap.length ∧ stop = gap.length + text.length ∨
        ∃ first' stop', MaximalRun member rest first' stop' ∧
          first = gap.length + text.length + first' ∧ stop = gap.length + text.length + stop' := by
  have moved := maximalRun_behind_iff stops (gap ++ text)
  rw [List.length_append, List.append_assoc] at moved
  by_cases before : first < gap.length + text.length
  · rw [maximalRun_first_iff skipped run stops before]
    constructor
    · exact Or.inl
    · rintro (own | ⟨first', stop', _, rfl, _⟩)
      · exact own
      · omega
  · constructor
    · intro maximal
      have filled := maximal.filled
      obtain ⟨first', rfl⟩ := Nat.exists_eq_add_of_le (Nat.le_of_not_lt before)
      obtain ⟨stop', rfl⟩ := Nat.exists_eq_add_of_le
        (show gap.length + text.length ≤ stop by omega)
      exact Or.inr ⟨first', stop', (moved first' stop').mp maximal, rfl, rfl⟩
    · rintro (⟨rfl, _⟩ | ⟨first', stop', maximal, rfl, rfl⟩)
      · have positive : 0 < text.length := List.length_pos_iff.mpr run.1
        omega
      · exact (moved first' stop').mpr maximal

/-- A span moved behind what was put in front of its list. -/
def shift (places : Nat) (span : Nat × Nat) : Nat × Nat := (places + span.1, places + span.2)

theorem text_shift (front back : List α) (span : Nat × Nat) :
    text (front ++ back) (shift front.length span) = text back span := by
  simp only [text, shift, List.drop_length_add_append, Nat.add_sub_add_left]

/-- The scanner finds the maximal runs. -/
theorem runs_maximal (member : α → Bool) (raw : List α) :
    ∃ spans, MaximalRuns member raw spans ∧ runs member raw = spans.map (text raw) := by
  induction raw using split_induction member with
  | gap gap skipped =>
      refine ⟨[], ⟨List.Pairwise.nil, fun first stop => ?_⟩, ?_⟩
      · refine iff_of_false List.not_mem_nil fun maximal => ?_
        have there := maximal.members first (Nat.le_refl first) maximal.filled
        exact absurd ((memberAt_of_gap skipped first).symm.trans there) Bool.false_ne_true
      · have none := runs_gap skipped ([] : List α)
        rw [List.append_nil] at none
        exact none
  | run gap found rest skipped run stops ih =>
      obtain ⟨spans, maximal, listed⟩ := ih
      have zero := memberAt_zero stops
      have front : gap.length + found.length = (gap ++ found).length := (List.length_append ..).symm
      refine ⟨(gap.length, gap.length + found.length) ::
        spans.map (shift (gap.length + found.length)), ⟨?_, ?_⟩, ?_⟩
      · refine List.pairwise_cons.mpr ⟨?_, ?_⟩
        · intro span shifted
          obtain ⟨⟨first, stop⟩, inside, rfl⟩ := List.mem_map.mp shifted
          have later := ((maximal.exact first stop).mp inside).first_pos zero
          show gap.length + found.length < gap.length + found.length + first
          omega
        · refine List.pairwise_map.mpr (maximal.ordered.imp fun before => ?_)
          exact Nat.add_lt_add_left before _
      · intro first stop
        rw [maximalRun_split_iff skipped run zero, List.mem_cons, List.mem_map, Prod.mk.injEq]
        refine or_congr Iff.rfl ?_
        simp only [← maximal.exact, Prod.exists, shift, Prod.mk.injEq]
        exact exists_congr fun a => exists_congr fun b =>
          and_congr_right fun _ => and_congr eq_comm eq_comm
      · have own : text (gap ++ (found ++ rest)) (gap.length, gap.length + found.length) =
            found := by
          rw [text, List.drop_left, Nat.add_sub_cancel_left, List.take_left]
        have others (span : Nat × Nat) :
            text rest span =
              text (gap ++ (found ++ rest)) (shift (gap.length + found.length) span) := by
          rw [front, ← List.append_assoc, text_shift]
        rw [runs_gap skipped, runs_run_rest run stops, listed, List.map_cons, List.map_map, own]
        exact congrArg (found :: ·) (List.map_congr_left fun span _ => others span)

end Scan
