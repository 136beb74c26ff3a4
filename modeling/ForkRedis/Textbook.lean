import ForkRedis.Exec
import Mathlib.Data.Finmap
import Mathlib.Data.Finset.Card

set_option autoImplicit false

/- What sets and hashes are for: finite sets of texts and finite maps between texts under
keys, the operations on them, and what each operation answers. -/
namespace ForkRedis

namespace Textbook

open Decimal

abbrev FieldMap := Finmap fun _ : Bytes => Bytes

/-- What a key holds. Values of the other types are not looked into. -/
inductive Value where
  | set (elements : Finset Bytes)
  | map (fields : FieldMap)
  | other

abbrev Space := Bytes → Option Value

inductive Answer where
  | error
  | done
  /-- How many there are. -/
  | count (n : Nat)
  /-- How many came or went. -/
  | changed (n : Nat)
  | flags (flags : List Bool)
  | elements (elements : Finset Bytes)
  | values (values : List (Option Bytes))
  | fields (fields : FieldMap)

inductive Operation where
  | sadd (key : Bytes) (elements : List Bytes)
  | srem (key : Bytes) (elements : List Bytes)
  | sismember (key : Bytes) (elements : List Bytes)
  | scard (key : Bytes)
  | smembers (key : Bytes)
  | sinter (key another : Bytes)
  | sdiff (key another : Bytes)
  | hset (key : Bytes) (fields : List (Bytes × Bytes))
  | hget (key : Bytes) (fields : List Bytes)
  | hexist (key : Bytes) (fields : List Bytes)
  | hdel (key : Bytes) (fields : List Bytes)
  | hlen (key : Bytes)
  | hgetall (key : Bytes)
  deriving DecidableEq

/-- A kind of value: a fresh one, and how it is kept under a key. -/
structure Kind (β : Type) where
  fresh : β
  wrap : β → Value
  unwrap : Value → Option β

def Kind.set : Kind (Finset Bytes) where
  fresh := ∅
  wrap := .set
  unwrap | .set elements => some elements | _ => none

def Kind.map : Kind FieldMap where
  fresh := ∅
  wrap := .map
  unwrap | .map fields => some fields | _ => none

/-- A key that is missing is created or gives an error, and so does one of another kind. -/
def Space.update {β : Type} (space : Space) (kind : Kind β) (key : Bytes) (creates : Bool)
    (operation : β → β × Answer) : Space × Answer :=
  let apply (value : β) :=
    (Function.update space key (some (kind.wrap (operation value).1)), (operation value).2)
  match space key with
  | none => if creates then apply kind.fresh else (space, .error)
  | some held =>
      match kind.unwrap held with
      | none => (space, .error)
      | some value => apply value

/-- The set under a second key, and what is answered with it. -/
def Space.withSet (space : Space) (another : Bytes) (answer : Finset Bytes → Answer) : Answer :=
  match space another with
  | some (.set elements) => answer elements
  | _ => .error

def Operation.apply (operation : Operation) (space : Space) : Space × Answer :=
  match operation with
  | .sadd key elements => space.update .set key true fun s =>
      (s ∪ elements.toFinset, .changed (elements.toFinset \ s).card)
  | .srem key elements => space.update .set key false fun s =>
      (s \ elements.toFinset, .changed (elements.toFinset ∩ s).card)
  | .sismember key elements => space.update .set key false fun s =>
      (s, .flags (elements.map fun element => decide (element ∈ s)))
  | .scard key => space.update .set key false fun s => (s, .count s.card)
  | .smembers key => space.update .set key false fun s => (s, .elements s)
  | .sinter key another => space.update .set key false fun s =>
      (s, space.withSet another fun t => .elements (s ∩ t))
  | .sdiff key another => space.update .set key false fun s =>
      (s, space.withSet another fun t => .elements (s \ t))
  | .hset key fields => space.update .map key true fun m =>
      (fields.foldl (fun m field => m.insert field.1 field.2) m, .done)
  | .hget key fields => space.update .map key false fun m =>
      (m, .values (fields.map fun field => m.lookup field))
  | .hexist key fields => space.update .map key false fun m =>
      (m, .flags (fields.map fun field => decide (field ∈ m)))
  | .hdel key fields => space.update .map key false fun m =>
      (fields.foldl (fun m field => m.erase field) m, .done)
  | .hlen key => space.update .map key false fun m => (m, .count m.keys.card)
  | .hgetall key => space.update .map key false fun m => (m, .fields m)

namespace Answer

/-- The text for a value that is asked for. -/
def valueText (value : Option Bytes) : Bytes :=
  quoted (if value.getD [] = [] then bytes "(nil)" else value.getD [])

/-- A reply shows an answer: elements and fields come in some order, with or without quotes,
and an answer that is empty is the marker `(nil)`. -/
def ShownAs (answer : Answer) (reply : Reply) : Prop :=
  match answer with
  | .error => reply = refused
  | .done => reply = okReply
  | .count n | .changed n => reply = [toStringSize n]
  | .flags all => reply = all.map fun flag => if flag then bytes "1" else bytes "0"
  | .elements s => ∃ order : List Bytes, order.Nodup ∧ order.toFinset = s ∧
      (reply = orNil order ∨ reply = orNil (order.map quoted))
  | .values all => reply = all.map valueText
  | .fields m => ∃ order : List (Bytes × Bytes), (order.map Prod.fst).Nodup ∧
      (∀ field value, (field, value) ∈ order ↔ m.lookup field = some value) ∧
      reply = orNil (order.flatMap fun pair => [quoted pair.1, quoted pair.2])

/-- An `int` can count what came or went. -/
def Countable (answer : Answer) : Prop :=
  match answer with
  | .changed n => n < 2 ^ 31
  | _ => True

end Answer

/-- An `int` can count what an operation adds to or takes from the set under its key. -/
def Operation.Few (operation : Operation) (space : Space) : Prop :=
  match operation with
  | .sadd key elements =>
      match space key with
      | none => elements.toFinset.card < 2 ^ 31
      | some (.set s) => (elements.toFinset \ s).card < 2 ^ 31
      | some _ => True
  | .srem key elements =>
      match space key with
      | some (.set s) => (elements.toFinset ∩ s).card < 2 ^ 31
      | _ => True
  | _ => True

theorem Space.update_countable {β : Type} {space : Space} {kind : Kind β} {key : Bytes}
    {creates : Bool} {operation : β → β × Answer}
    (countable : ∀ value, (operation value).2.Countable) :
    (space.update kind key creates operation).2.Countable := by
  rw [update]
  dsimp only
  split
  · split
    · exact countable _
    · trivial
  · split
    · trivial
    · exact countable _

theorem Operation.countable_apply (operation : Operation) (space : Space) :
    (operation.apply space).2.Countable ↔ operation.Few space := by
  cases operation with
  | sadd key elements =>
      rw [apply, Space.update, Few]
      rcases space key with _ | _ | _ | _
      · change (elements.toFinset \ ∅).card < 2 ^ 31 ↔ _
        rw [Finset.sdiff_empty]
      all_goals exact Iff.rfl
  | srem key elements =>
      rw [apply, Space.update, Few]
      rcases space key with _ | _ | _ | _
      all_goals exact Iff.rfl
  | sinter key another | sdiff key another =>
      refine iff_of_true (Space.update_countable fun s => ?_) trivial
      rw [Space.withSet]
      split
      · trivial
      · trivial
  | _ => exact iff_of_true (Space.update_countable fun _ => trivial) trivial

/-- How many elements an operation names to add or to take. -/
def Operation.named : Operation → Nat
  | .sadd _ elements | .srem _ elements => elements.length
  | _ => 0

theorem Operation.few_of_named {operation : Operation} (short : operation.named < 2 ^ 31)
    (space : Space) : operation.Few space := by
  have bound {elements : List Bytes} {changed : Finset Bytes} (short : elements.length < 2 ^ 31)
      (inside : changed ⊆ elements.toFinset) : changed.card < 2 ^ 31 :=
    lt_of_le_of_lt ((Finset.card_le_card inside).trans elements.toFinset_card_le) short
  cases operation with
  | sadd key elements =>
      rw [Few]
      split
      · exact bound short (Finset.Subset.refl _)
      · exact bound short Finset.sdiff_subset
      · trivial
  | srem key elements =>
      rw [Few]
      split
      · exact bound short Finset.inter_subset_left
      · trivial
  | _ => trivial

/-- What each operation of a run answers, and the spaces it leaves behind. An operation
works on one of several spaces. -/
def run (spaces : Nat → Space) : List (Nat × Operation) → (Nat → Space) × List Answer
  | [] => (spaces, [])
  | (index, operation) :: rest =>
      let result := operation.apply (spaces index)
      let later := run (Function.update spaces index result.1) rest
      (later.1, result.2 :: later.2)

/-- Each operation of a run finds a space in which it adds or takes few. -/
def RunsFew (spaces : Nat → Space) : List (Nat × Operation) → Prop
  | [] => True
  | (index, operation) :: rest => operation.Few (spaces index) ∧
      RunsFew (Function.update spaces index (operation.apply (spaces index)).1) rest

theorem runsFew_of_named {steps : List (Nat × Operation)}
    (short : ∀ step ∈ steps, step.2.named < 2 ^ 31) (spaces : Nat → Space) :
    RunsFew spaces steps := by
  induction steps generalizing spaces with
  | nil => trivial
  | cons step steps ih =>
      exact ⟨Operation.few_of_named (short step List.mem_cons_self) _,
        ih (fun later listed => short later (List.mem_cons_of_mem _ listed)) _⟩

end Textbook

end ForkRedis
