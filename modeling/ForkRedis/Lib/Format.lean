import ForkRedis.Lib.Wire
import ForkRedis.Lib.Fallible

set_option autoImplicit false

/- Formats of byte strings, beside the readers that take them apart. A format says which
inputs are whole, with what is seen in them, and which ones are reported as broken. Of the
other inputs nothing good can be said. -/
namespace Wire

open Fallible

structure Format (β ω : Type) where
  whole : List β → ω → Prop
  reports : List β → Prop

namespace Format

variable {β ω υ : Type}

def done (seen : ω) : Format β ω where
  whole code saw := code = [] ∧ saw = seen
  reports _ := False

/-- Every input is reported. -/
def refusal : Format β ω where
  whole _ _ := False
  reports _ := True

/-- No input is right, and none is reported. -/
def void : Format β ω where
  whole _ _ := False
  reports _ := False

def one : Format β β where
  whole code seen := code = [seen]
  reports _ := False

/-- So many items, without a check that they are there. -/
def block (size : Nat) : Format β (List β) where
  whole code seen := code.length = size ∧ seen = code
  reports _ := False

/-- So many items; when there are fewer, that is reported. -/
def field (size : Nat) : Format β (List β) where
  whole code seen := code.length = size ∧ seen = code
  reports input := input.length < size

def map (see : ω → υ) (format : Format β ω) : Format β υ where
  whole code saw := ∃ seen, format.whole code seen ∧ saw = see seen
  reports := format.reports

def andThen (first : Format β ω) (next : ω → Format β υ) : Format β υ where
  whole code saw := ∃ front seen back,
    code = front ++ back ∧ first.whole front seen ∧ (next seen).whole back saw
  reports input := first.reports input ∨ ∃ front seen back,
    input = front ++ back ∧ first.whole front seen ∧ (next seen).reports back

def times (item : Format β ω) : Nat → Format β (List ω)
  | 0 => done []
  | count + 1 => item.andThen fun seen => (item.times count).map (seen :: ·)

/-- Items up to the end of the input. -/
inductive Series (item : Format β ω) : List β → List ω → Prop where
  | nil : Series item [] []
  | cons {code rest : List β} {seen : ω} {others : List ω} (whole : item.whole code seen)
      (series : Series item rest others) : Series item (code ++ rest) (seen :: others)

/-- Items up to one that is reported. -/
inductive BrokenSeries (item : Format β ω) : List β → Prop where
  | here {input : List β} (more : input ≠ []) (reports : item.reports input) :
      BrokenSeries item input
  | later {code rest : List β} {seen : ω} (whole : item.whole code seen)
      (broken : BrokenSeries item rest) : BrokenSeries item (code ++ rest)

end Format

variable {β ε α γ ω υ : Type} {raised : ε → Prop}

theorem run_bind_ok {reader : Reader β ε α} {next : α → Reader β ε γ} {input rest : List β}
    {value : γ} (returned : (reader >>= next).run input = .ok (value, rest)) :
    ∃ first middle, reader.run input = .ok (first, middle) ∧
      (next first).run middle = .ok (value, rest) := by
  rw [StateT.run_bind] at returned
  obtain ⟨⟨first, middle⟩, read, returned⟩ := bind_eq_ok.mp returned
  exact ⟨first, middle, read, returned⟩

theorem run_bind_error {reader : Reader β ε α} {next : α → Reader β ε γ} {input : List β}
    {fault : ε} (failed : (reader >>= next).run input = .error fault) :
    reader.run input = .error fault ∨ ∃ first middle, reader.run input = .ok (first, middle) ∧
      (next first).run middle = .error fault := by
  rw [StateT.run_bind] at failed
  cases read : reader.run input with
  | error fault' =>
      rw [read] at failed
      cases failed
      exact Or.inl rfl
  | ok result =>
      rw [read] at failed
      exact Or.inr ⟨result.1, result.2, rfl, failed⟩

/-- A reader returns on the inputs that begin with a whole one, with a value that `R`
relates to what is seen in it, and it raises a fault of the given kind on those that are
reported. -/
structure Follows (raised : ε → Prop) (reader : Reader β ε α) (format : Format β ω)
    (R : α → ω → Prop) : Prop where
  returns : ∀ {input value rest}, reader.run input = .ok (value, rest) →
    ∃ code seen, input = code ++ rest ∧ format.whole code seen ∧ R value seen
  reads : ∀ {code seen} rest, format.whole code seen →
    ∃ value, reader.run (code ++ rest) = .ok (value, rest) ∧ R value seen
  raises : ∀ {input fault}, reader.run input = .error fault → raised fault → format.reports input
  reported : ∀ {input}, format.reports input →
    ∃ fault, reader.run input = .error fault ∧ raised fault

namespace Follows

variable {reader : Reader β ε α} {format : Format β ω} {R : α → ω → Prop} {input : List β}
  {fault : ε} {rounds : Nat}

theorem imp {R S : α → ω → Prop} (follows : Follows raised reader format R)
    (weaker : ∀ value seen, R value seen → S value seen) :
    Follows raised reader format S where
  returns := by
    intro input value rest returned
    obtain ⟨code, seen, split, whole, related⟩ := follows.returns returned
    exact ⟨code, seen, split, whole, weaker value seen related⟩
  reads := by
    intro code seen rest whole
    obtain ⟨value, read, related⟩ := follows.reads rest whole
    exact ⟨value, read, weaker value seen related⟩
  raises := follows.raises
  reported := follows.reported

theorem pure {value : α} {seen : ω} (related : R value seen) :
    Follows raised (pure value : Reader β ε α) (.done seen) R where
  returns := by
    intro input result rest returned
    cases returned
    exact ⟨[], seen, rfl, ⟨rfl, rfl⟩, related⟩
  reads := by
    rintro code saw rest ⟨rfl, rfl⟩
    exact ⟨value, rfl, related⟩
  raises := by
    intro input fault failed
    cases failed
  reported := False.elim

theorem refusal (kind : raised fault) :
    Follows raised (throw fault : Reader β ε α) .refusal R where
  returns := by
    intro input result rest returned
    cases returned
  reads := by
    intro code seen rest whole
    exact whole.elim
  raises := fun _ _ => trivial
  reported := fun _ => ⟨fault, rfl, kind⟩

theorem void (kind : ¬ raised fault) :
    Follows raised (throw fault : Reader β ε α) .void R where
  returns := by
    intro input result rest returned
    cases returned
  reads := by
    intro code seen rest whole
    exact whole.elim
  raises := by
    intro input other failed
    cases failed
    exact kind
  reported := False.elim

/-- The reader of a block or a field. -/
theorem take {size : Nat} {format : Format β (List β)}
    (whole : ∀ code seen, format.whole code seen ↔ code.length = size ∧ seen = code)
    (reports : ∀ input, format.reports input ↔ input.length < size ∧ raised fault) :
    Follows raised (fun input => if input.length < size then .error fault
      else .ok (input.take size, input.drop size) : Reader β ε (List β)) format Eq where
  returns := by
    intro input value rest returned
    simp only [StateT.run] at returned
    split at returned
    · cases returned
    · rename_i enough
      cases returned
      refine ⟨input.take size, input.take size, (List.take_append_drop size input).symm, ?_, rfl⟩
      refine (whole _ _).mpr ⟨?_, rfl⟩
      rw [List.length_take]
      omega
  reads := by
    intro code seen rest read
    obtain ⟨rfl, rfl⟩ := (whole code seen).mp read
    have enough : ¬ (seen ++ rest).length < seen.length := by
      rw [List.length_append]
      omega
    exact ⟨seen, by simp only [StateT.run, if_neg enough, List.take_left, List.drop_left], rfl⟩
  raises := by
    intro input other failed kind
    simp only [StateT.run] at failed
    split at failed
    · rename_i short
      cases failed
      exact (reports input).mpr ⟨short, kind⟩
    · cases failed
  reported := by
    intro input reported
    obtain ⟨short, kind⟩ := (reports input).mp reported
    exact ⟨fault, by simp only [StateT.run, if_pos short], kind⟩

theorem map (see : ω → υ) {R : α → υ → Prop}
    (follows : Follows raised reader format fun value seen => R value (see seen)) :
    Follows raised reader (format.map see) R where
  returns := by
    intro input value rest returned
    obtain ⟨code, seen, split, whole, related⟩ := follows.returns returned
    exact ⟨code, see seen, split, ⟨seen, whole, rfl⟩, related⟩
  reads := by
    rintro code saw rest ⟨seen, whole, rfl⟩
    exact follows.reads rest whole
  raises := follows.raises
  reported := follows.reported

theorem bind {next : α → Reader β ε γ} {after : ω → Format β υ} {S : γ → υ → Prop}
    (first : Follows raised reader format R)
    (second : ∀ value seen, R value seen → Follows raised (next value) (after seen) S) :
    Follows raised (reader >>= next) (format.andThen after) S where
  returns := by
    intro input result rest returned
    obtain ⟨value, middle, read, returned⟩ := run_bind_ok returned
    obtain ⟨front, seen, split, whole, related⟩ := first.returns read
    obtain ⟨back, saw, split', whole', related'⟩ := (second value seen related).returns returned
    refine ⟨front ++ back, saw, ?_, ⟨front, seen, back, rfl, whole, whole'⟩, related'⟩
    rw [split, split', List.append_assoc]
  reads := by
    rintro code saw rest ⟨front, seen, back, rfl, whole, whole'⟩
    obtain ⟨value, read, related⟩ := first.reads (back ++ rest) whole
    obtain ⟨result, read', related'⟩ := (second value seen related).reads rest whole'
    refine ⟨result, ?_, related'⟩
    rw [List.append_assoc, StateT.run_bind, read]
    exact read'
  raises := by
    intro input fault failed kind
    rcases run_bind_error failed with failed | ⟨value, middle, read, failed⟩
    · exact Or.inl (first.raises failed kind)
    · obtain ⟨front, seen, split, whole, related⟩ := first.returns read
      exact Or.inr ⟨front, seen, middle, split, whole,
        (second value seen related).raises failed kind⟩
  reported := by
    rintro input (reports | ⟨front, seen, back, rfl, whole, reports⟩)
    · obtain ⟨fault, failed, kind⟩ := first.reported reports
      exact ⟨fault, by rw [StateT.run_bind, failed]; rfl, kind⟩
    · obtain ⟨value, read, related⟩ := first.reads back whole
      obtain ⟨fault, failed, kind⟩ := (second value seen related).reported reports
      exact ⟨fault, by rw [StateT.run_bind, read]; exact failed, kind⟩

/-- A reader is followed by a step that only computes. -/
theorem bind_pure {R : γ → ω → Prop} (next : α → γ)
    (first : Follows raised reader format fun value seen => R (next value) seen) :
    Follows raised (reader >>= fun value => Pure.pure (next value)) format R where
  returns := by
    intro input result rest returned
    obtain ⟨value, middle, read, returned⟩ := run_bind_ok returned
    cases returned
    exact first.returns read
  reads := by
    intro code seen rest whole
    obtain ⟨value, read, related⟩ := first.reads rest whole
    exact ⟨next value, by rw [StateT.run_bind, read]; rfl, related⟩
  raises := by
    intro input fault failed kind
    rcases run_bind_error failed with failed | ⟨value, middle, read, failed⟩
    · exact first.raises failed kind
    · cases failed
  reported := by
    intro input reports
    obtain ⟨fault, failed, kind⟩ := first.reported reports
    exact ⟨fault, by rw [StateT.run_bind, failed]; rfl, kind⟩

/-- A reader whose value carries more than is compared. -/
theorem of_map {R : γ → ω → Prop} {forget : α → γ}
    (follows : Follows raised (forget <$> reader) format R) :
    Follows raised reader format fun value seen => R (forget value) seen where
  returns := by
    intro input value rest returned
    apply follows.returns
    rw [StateT.run_map, returned]
    rfl
  reads := by
    intro code seen rest whole
    obtain ⟨less, read, related⟩ := follows.reads rest whole
    rw [StateT.run_map] at read
    cases run : reader.run (code ++ rest) with
    | error fault =>
        rw [run] at read
        cases read
    | ok result =>
        rw [run] at read
        cases read
        exact ⟨result.1, rfl, related⟩
  raises := by
    intro input fault failed
    apply follows.raises
    rw [StateT.run_map, failed]
    rfl
  reported := by
    intro input reports
    obtain ⟨fault, failed, kind⟩ := follows.reported reports
    rw [StateT.run_map] at failed
    cases run : reader.run input with
    | error other =>
        rw [run] at failed
        cases failed
        exact ⟨fault, rfl, kind⟩
    | ok result =>
        rw [run] at failed
        cases failed

/-- A counted loop follows as many items as it has rounds. The accumulator is related to the
items that were read so far. -/
theorem loop {round : α → Reader β ε α} {item : Format β ω} {R : α → List ω → Prop}
    (step : ∀ acc seen, R acc seen →
      Follows raised (round acc) item fun acc' last => R acc' (seen ++ [last]))
    (count : Nat) (acc : α) (seen : List ω) (start : R acc seen) :
    Follows raised (loop round count acc) (item.times count)
      fun acc' others => R acc' (seen ++ others) := by
  induction count generalizing acc seen with
  | zero =>
      apply pure
      rwa [List.append_nil]
  | succ count ih =>
      apply bind (step acc seen start)
      intro acc' last related
      apply map
      have rest := ih acc' (seen ++ [last]) related
      simpa only [List.append_assoc, List.singleton_append] using rest

end Follows

/-- A reader applied again and again up to the end of the input, for so many rounds. -/
def drain (reader : Reader β ε α) : Nat → Reader β ε (List α)
  | 0 => pure []
  | rounds + 1 => fun input =>
      match input with
      | [] => .ok ([], [])
      | c :: input => do
          let (value, rest) ← reader (c :: input)
          let (values, rest) ← drain reader rounds rest
          return (value :: values, rest)

section Drain

variable {reader : Reader β ε α} {item : Format β ω} {R : α → ω → Prop}

/-- One round of the loop. -/
theorem run_drain_of_ok {input rest : List β} {value : α} (filled : input ≠ [])
    (read : reader.run input = .ok (value, rest)) (rounds : Nat) :
    (drain reader (rounds + 1)).run input =
      (do
        let (values, rest) ← (drain reader rounds).run rest
        return (value :: values, rest)) := by
  cases input with
  | nil => exact absurd rfl filled
  | cons c input =>
      simp only [StateT.run] at read
      simp only [StateT.run, drain, read]
      rfl

theorem run_drain_of_error {input : List β} {fault : ε} (filled : input ≠ [])
    (failed : reader.run input = .error fault) (rounds : Nat) :
    (drain reader (rounds + 1)).run input = .error fault := by
  cases input with
  | nil => exact absurd rfl filled
  | cons c input =>
      simp only [StateT.run] at failed
      simp only [StateT.run, drain, failed]
      rfl

/-- The loop ends at the end of the input, not for want of rounds. -/
theorem drain_returns (follows : Follows raised reader item R)
    (filled : ∀ code seen, item.whole code seen → code ≠ []) {rounds : Nat} {input : List β}
    (enough : input.length ≤ rounds) {values : List α} {rest : List β}
    (returned : (drain reader rounds).run input = .ok (values, rest)) :
    rest = [] ∧ ∃ seen, item.Series input seen ∧ List.Forall₂ R values seen := by
  induction rounds generalizing input values rest with
  | zero =>
      cases returned
      exact ⟨List.length_eq_zero_iff.mp (Nat.le_zero.mp enough), [],
        List.length_eq_zero_iff.mp (Nat.le_zero.mp enough) ▸ .nil, .nil⟩
  | succ rounds ih =>
      by_cases ended : input = []
      · subst ended
        cases returned
        exact ⟨rfl, [], .nil, .nil⟩
      · cases read : reader.run input with
        | error fault =>
            rw [run_drain_of_error ended read] at returned
            cases returned
        | ok result =>
            obtain ⟨value, middle⟩ := result
            rw [run_drain_of_ok ended read] at returned
            obtain ⟨⟨others, last⟩, drained, returned⟩ := bind_eq_ok.mp returned
            cases returned
            obtain ⟨code, seen, split, whole, related⟩ := follows.returns read
            have consumed := List.length_pos_iff.mpr (filled code seen whole)
            have shorter : middle.length ≤ rounds := by
              rw [split, List.length_append] at enough
              omega
            obtain ⟨atEnd, saw, series, all⟩ := ih shorter drained
            exact ⟨atEnd, seen :: saw, split ▸ .cons whole series, .cons related all⟩

theorem drain_reads (follows : Follows raised reader item R)
    (filled : ∀ code seen, item.whole code seen → code ≠ []) {rounds : Nat} {input : List β}
    (enough : input.length ≤ rounds) {seen : List ω} (series : item.Series input seen) :
    ∃ values, (drain reader rounds).run input = .ok (values, []) ∧ List.Forall₂ R values seen := by
  induction series generalizing rounds with
  | nil => cases rounds <;> exact ⟨[], rfl, .nil⟩
  | @cons code rest saw others whole series ih =>
      have consumed := List.length_pos_iff.mpr (filled code saw whole)
      rw [List.length_append] at enough
      obtain ⟨rounds, rfl⟩ : ∃ fewer, rounds = fewer + 1 := ⟨rounds - 1, by omega⟩
      obtain ⟨value, read, related⟩ := follows.reads rest whole
      obtain ⟨values, drained, all⟩ := ih (by omega : rest.length ≤ rounds)
      refine ⟨value :: values, ?_, .cons related all⟩
      rw [run_drain_of_ok (List.append_ne_nil_of_left_ne_nil (filled code saw whole) rest) read,
        drained]
      rfl

theorem drain_raises (follows : Follows raised reader item R) {rounds : Nat} {input : List β}
    {fault : ε} (failed : (drain reader rounds).run input = .error fault) (kind : raised fault) :
    item.BrokenSeries input := by
  induction rounds generalizing input with
  | zero => cases failed
  | succ rounds ih =>
      by_cases ended : input = []
      · subst ended
        cases failed
      · cases read : reader.run input with
        | error other =>
            rw [run_drain_of_error ended read] at failed
            cases failed
            exact .here ended (follows.raises read kind)
        | ok result =>
            obtain ⟨value, middle⟩ := result
            obtain ⟨code, seen, split, whole, -⟩ := follows.returns read
            rw [run_drain_of_ok ended read] at failed
            cases drained : (drain reader rounds).run middle with
            | error other =>
                rw [drained] at failed
                cases failed
                exact split ▸ .later whole (ih drained)
            | ok others =>
                rw [drained] at failed
                cases failed

theorem drain_reported (follows : Follows raised reader item R)
    (filled : ∀ code seen, item.whole code seen → code ≠ []) {rounds : Nat} {input : List β}
    (enough : input.length ≤ rounds) (broken : item.BrokenSeries input) :
    ∃ fault, (drain reader rounds).run input = .error fault ∧ raised fault := by
  induction broken generalizing rounds with
  | @here input more reports =>
      have positive := List.length_pos_iff.mpr more
      obtain ⟨rounds, rfl⟩ : ∃ fewer, rounds = fewer + 1 := ⟨rounds - 1, by omega⟩
      obtain ⟨fault, failed, kind⟩ := follows.reported reports
      exact ⟨fault, run_drain_of_error more failed rounds, kind⟩
  | @later code rest seen whole broken ih =>
      have consumed := List.length_pos_iff.mpr (filled code seen whole)
      rw [List.length_append] at enough
      obtain ⟨rounds, rfl⟩ : ∃ fewer, rounds = fewer + 1 := ⟨rounds - 1, by omega⟩
      obtain ⟨value, read, -⟩ := follows.reads rest whole
      obtain ⟨fault, failed, kind⟩ := ih (by omega : rest.length ≤ rounds)
      refine ⟨fault, ?_, kind⟩
      rw [run_drain_of_ok (List.append_ne_nil_of_left_ne_nil (filled code seen whole) rest) read,
        failed]
      rfl

end Drain

end Wire
