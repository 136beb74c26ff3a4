import ForkRedis.Fork
import ForkRedis.Lib.Scan

set_option autoImplicit false

/- What `RawCommandToRequest` makes of a raw command: its words, which are the runs of
letters and digits, whatever separates them. -/
namespace ForkRedis

open Decimal

/-- A string that the scanner takes as one token. -/
def Word (text : Bytes) : Prop := text ≠ [] ∧ ∀ c ∈ text, isTokenMember c = true

instance (text : Bytes) : Decidable (Word text) :=
  decidable_of_iff (text ≠ [] ∧ text.all isTokenMember = true)
    (and_congr_right fun _ => List.all_eq_true)

/-- The scanner of the library, with the server's token members. -/
theorem rawCommandToRequest_eq_runs (raw : Bytes) :
    rawCommandToRequest raw = Scan.runs isTokenMember raw := by
  have general : ∀ (rounds : Nat) (raw : Bytes),
      tokens rounds raw = Scan.rounds isTokenMember rounds raw := by
    intro rounds
    induction rounds with
    | zero => exact fun _ => rfl
    | succ rounds ih =>
        intro raw
        have unfolded : tokens (rounds + 1) raw = if (nextToken raw).1 = [] then []
            else (nextToken raw).1 :: tokens rounds (nextToken raw).2 := rfl
        rw [unfolded, ih]
        rfl
  exact general raw.length raw

theorem rawCommandToRequest_separator {c : UInt8} (separates : isTokenMember c = false)
    (rest : Bytes) : rawCommandToRequest (c :: rest) = rawCommandToRequest rest := by
  rw [rawCommandToRequest_eq_runs, rawCommandToRequest_eq_runs, Scan.runs_separator separates]

theorem rawCommandToRequest_word {text : Bytes} (word : Word text) :
    rawCommandToRequest text = [text] := by
  rw [rawCommandToRequest_eq_runs, Scan.runs_run word]

theorem rawCommandToRequest_word_separator {text : Bytes} (word : Word text) {c : UInt8}
    (separates : isTokenMember c = false) (rest : Bytes) :
    rawCommandToRequest (text ++ c :: rest) = text :: rawCommandToRequest rest := by
  rw [rawCommandToRequest_eq_runs, rawCommandToRequest_eq_runs,
    Scan.runs_run_separator word separates]

/-- The words on the two sides of a separator are scanned apart. -/
theorem rawCommandToRequest_append (left : Bytes) {c : UInt8} (separates : isTokenMember c = false)
    (right : Bytes) :
    rawCommandToRequest (left ++ c :: right) =
      rawCommandToRequest left ++ rawCommandToRequest right := by
  simp only [rawCommandToRequest_eq_runs]
  exact Scan.runs_append left separates right

theorem word_of_mem_rawCommandToRequest {raw text : Bytes}
    (member : text ∈ rawCommandToRequest raw) : Word text := by
  rw [rawCommandToRequest_eq_runs] at member
  exact Scan.run_of_mem_runs member

/-- A string is found again exactly if it is a word. -/
theorem rawCommandToRequest_eq_singleton_iff (text : Bytes) :
    rawCommandToRequest text = [text] ↔ Word text :=
  ⟨fun alone => word_of_mem_rawCommandToRequest (alone ▸ List.mem_singleton_self text),
    rawCommandToRequest_word⟩

theorem isTokenMember_space : isTokenMember space = false := rfl

theorem rawCommandToRequest_spaced (texts : List Bytes) :
    rawCommandToRequest (spaced texts) = texts.flatMap rawCommandToRequest := by
  induction texts with
  | nil => rfl
  | cons text texts ih =>
      have shape : spaced (text :: texts) = text ++ space :: spaced texts := by
        rw [spaced, List.flatMap_cons, List.append_assoc, List.singleton_append, ← spaced]
      rw [shape, rawCommandToRequest_append _ isTokenMember_space, ih, List.flatMap_cons]

theorem flatMap_words {texts : List Bytes} (words : ∀ text ∈ texts, Word text) :
    texts.flatMap rawCommandToRequest = texts := by
  induction texts with
  | nil => rfl
  | cons text texts ih =>
      rw [List.flatMap_cons, rawCommandToRequest_word (words text List.mem_cons_self),
        ih fun other member => words other (List.mem_cons_of_mem _ member), List.singleton_append]

/-- A digit is a token member, so a number without a sign is a word. -/
theorem word_numeral (n : Nat) : Word (numeral n) := by
  refine ⟨numeral_ne_nil n, ?_⟩
  intro c member
  have digit : isDigit c = true := List.all_eq_true.mp (numeral_digits n) c member
  rw [isTokenMember, digit, Bool.true_or, Bool.true_or]

theorem word_toStringInt {n : Int32} (sign : 0 ≤ n) : Word (toStringInt n) := by
  have positive : 0 ≤ n.toInt := Int32.le_iff_toInt_le.mp sign
  rw [toStringInt, render_of_nonneg positive]
  exact word_numeral _

end ForkRedis
