import ForkRedis.Textbook
import ForkRedis.Locality
import ForkRedis.Arity
import Mathlib.Data.Nat.Digits.Defs

set_option autoImplicit false

/- Runs of the commands on sets and hashes against the textbook. What is stored is what the
textbook says in every run; what is answered is, as long as an `int` can count what one
command adds or removes. -/
namespace ForkRedis

open Decimal Lists Fallible Textbook

variable {server : Server} {db : Db}

/- `Set::Diff` and `Set::Inter` lock the object with the smaller address first, and have a
copy of their loop for either order. -/

namespace StrSet

def diffAt (thisAddress sAddress : Nat) (this s : StrSet) : List Str :=
  if thisAddress < sAddress then this.items.filter fun str => s.find str.data == none
  else if thisAddress > sAddress then this.items.filter fun str => s.find str.data == none
  else []

def interAt (thisAddress sAddress : Nat) (this s : StrSet) : List Str :=
  if thisAddress < sAddress then this.items.filter fun str => s.find str.data != none
  else if thisAddress > sAddress then this.items.filter fun str => s.find str.data != none
  else this.items

/-- The two orders of locking give one result, and equal addresses another. -/
theorem byAddress_eq {γ : Type} (thisAddress sAddress : Nat) (other same : γ) :
    (if thisAddress < sAddress then other else if thisAddress > sAddress then other else same) =
      if sAddress == thisAddress then same else other := by
  rcases Nat.lt_trichotomy thisAddress sAddress with less | equal | more
  · rw [if_pos less, beq_eq_false_iff_ne.mpr (by omega), if_neg Bool.false_ne_true]
  · rw [equal, if_neg (Nat.lt_irrefl _), if_neg (Nat.lt_irrefl _), beq_self_eq_true, if_pos rfl]
  · rw [if_neg (by omega), if_pos more, beq_eq_false_iff_ne.mpr (by omega),
      if_neg Bool.false_ne_true]

theorem diffAt_eq (thisAddress sAddress : Nat) (this s : StrSet) :
    diffAt thisAddress sAddress this s = diff this s (sAddress == thisAddress) :=
  byAddress_eq thisAddress sAddress _ _

theorem interAt_eq (thisAddress sAddress : Nat) (this s : StrSet) :
    interAt thisAddress sAddress this s = inter this s (sAddress == thisAddress) :=
  byAddress_eq thisAddress sAddress _ _

end StrSet

namespace SetCommand

/-- `SINTER` and `SDIFF` with the addresses of the objects under the keys. -/
def combineAt (method : Nat → Nat → StrSet → StrSet → List Str) (address : Bytes → Nat)
    (get : Bytes → Option Object) (c : SetCommand) (st : StrSet) :
    Except Fault (StrSet × Reply) := do
  let another ← valueAt c.values 0
  match get another.data with
  | some (.set other) =>
      return (st, orNil ((method (address c.objName) (address another.data) st other).map
        Str.getRaw))
  | _ => return (st, refused)

def onSetAt (address : Bytes → Nat) (random : Nat) (get : Bytes → Option Object) (c : SetCommand)
    (st : StrSet) : Except Fault (StrSet × Reply) :=
  match c.command with
  | .sinter => combineAt StrSet.interAt address get c st
  | .sdiff => combineAt StrSet.diffAt address get c st
  | .sadd | .scard | .sismember | .smembers | .srandmember | .spop | .srem =>
      onSet random get c st

theorem combineAt_eq {method : Nat → Nat → StrSet → StrSet → List Str}
    {plain : StrSet → StrSet → Bool → List Str}
    (branches : ∀ a b this s, method a b this s = plain this s (b == a)) {address : Bytes → Nat}
    (distinct : Function.Injective address) (get : Bytes → Option Object) (c : SetCommand)
    (st : StrSet) : combineAt method address get c st = combine plain get c st := by
  have same (another : Bytes) : (address another == address c.objName) = (another == c.objName) := by
    rw [Bool.eq_iff_iff, beq_iff_eq, beq_iff_eq]
    exact distinct.eq_iff
  rw [combineAt, combine]
  refine bind_congr fun another => ?_
  cases get another.data with
  | none => rfl
  | some object =>
      cases object with
      | str _ | list _ | hash _ | zset _ => rfl
      | set other =>
          dsimp only
          rw [branches, same]

theorem onSetAt_eq {address : Bytes → Nat} (distinct : Function.Injective address) (random : Nat)
    (get : Bytes → Option Object) (c : SetCommand) (st : StrSet) :
    onSetAt address random get c st = onSet random get c st := by
  unfold onSetAt
  split
  · rename_i named
    rw [onSet, named]
    exact combineAt_eq StrSet.interAt_eq distinct get c st
  · rename_i named
    rw [onSet, named]
    exact combineAt_eq StrSet.diffAt_eq distinct get c st
  all_goals rfl

end SetCommand

namespace Command

/-- `Exec` of a command, with the objects of the keys at some addresses. -/
def execAt (address : Bytes → Nat) (env : Env) (server : Server) (client : Nat)
    (command : Command) : Except Fault Outcome :=
  match command with
  | .set c => server.execValid client c.valid fun db =>
      untimed (db.execOn .set c.objName (c.command == .sadd)
        (SetCommand.onSetAt address env.random db.get c))
  | _ => command.exec env server client

theorem execAt_eq {address : Bytes → Nat} (distinct : Function.Injective address) (env : Env)
    (server : Server) (client : Nat) (command : Command) :
    command.execAt address env server client = command.exec env server client := by
  cases command with
  | set c =>
      have methods (db : Db) : SetCommand.onSetAt address env.random db.get c =
          SetCommand.onSet env.random db.get c :=
        funext (SetCommand.onSetAt_eq distinct env.random db.get c)
      simp only [execAt, exec, valid, methods]
      rfl
  | server c | cli c | db c | str c | list c | hash c | zset c => rfl

end Command

/- The finite sets and maps that the containers stand for. -/

namespace StrSet

def elements (s : StrSet) : Finset Bytes := (s.items.map Str.data).toFinset

theorem mem_elements {s : StrSet} {element : Bytes} : element ∈ s.elements ↔ s.find element ≠ none := by
  rw [elements, List.mem_toFinset, List.mem_map, ne_eq, s.find_eq_none_iff]
  push Not
  rfl

theorem card_elements (s : StrSet) : s.elements.card = s.items.length := by
  rw [elements, List.toFinset_card_of_nodup s.distinct, List.length_map]

theorem elements_insert (s : StrSet) (str : Str) :
    elements (s.insert str) = insert str.data s.elements := by
  ext element
  rw [Finset.mem_insert, mem_elements, mem_elements, Keyed.find_insert]
  by_cases same : str.data = element
  · simp only [same, ↓reduceIte, ne_eq, reduceCtorEq, not_false_eq_true, true_or]
  · simp only [if_neg same, Ne.symm same, false_or]

theorem elements_erase (s : StrSet) (element : Bytes) :
    elements (s.erase element) = s.elements.erase element := by
  ext other
  rw [Finset.mem_erase, mem_elements, mem_elements, Keyed.find_erase]
  by_cases same : element = other
  · simp only [same, ↓reduceIte, ne_eq, not_true_eq_false, false_and]
  · simp only [if_neg same, ne_eq, Ne.symm same, not_false_eq_true, true_and]

theorem elements_filter (s : StrSet) (p : Bytes → Bool) :
    ((s.items.filter fun str => p str.data).map Str.data).toFinset =
      s.elements.filter fun element => p element = true := by
  rw [elements, ← List.toFinset_filter, List.filter_map]
  rfl

end StrSet

namespace StrHash

def fields (h : StrHash) : FieldMap :=
  (h.items.map fun field => (⟨field.1.data, field.2.data⟩ : Sigma fun _ : Bytes => Bytes)).toFinmap

theorem find_map_eq_some_iff {h : StrHash} {key value : Bytes} :
    (h.find key).map (fun field => field.2.data) = some value ↔
      ∃ field ∈ h.items, field.1.data = key ∧ field.2.data = value := by
  rw [Option.map_eq_some_iff]
  constructor
  · rintro ⟨field, found, rfl⟩
    obtain ⟨listed, rfl⟩ := h.find_eq_some_iff.mp found
    exact ⟨field, listed, rfl, rfl⟩
  · rintro ⟨field, listed, rfl, rfl⟩
    exact ⟨field, h.find_of_mem listed, rfl⟩

theorem lookup_fields (h : StrHash) (key : Bytes) :
    h.fields.lookup key = (h.find key).map fun field => field.2.data := by
  have distinct : (h.items.map fun field =>
      (⟨field.1.data, field.2.data⟩ : Sigma fun _ : Bytes => Bytes)).NodupKeys := by
    rw [List.NodupKeys, List.keys, List.map_map]
    exact h.distinct
  rw [fields, Finmap.dlookup_list_toFinmap]
  refine Option.ext fun value => ?_
  rw [← Option.mem_def, List.mem_dlookup_iff distinct, List.mem_map, find_map_eq_some_iff]
  simp only [Sigma.mk.injEq, heq_eq_eq]

theorem mem_fields {h : StrHash} {key : Bytes} : key ∈ h.fields ↔ h.find key ≠ none := by
  rw [← Finmap.lookup_isSome, lookup_fields, Option.isSome_map, Option.isSome_iff_ne_none]

theorem card_fields (h : StrHash) : h.fields.keys.card = h.items.length := by
  have listed : h.fields.keys = (h.items.map fun field => field.1.data).toFinset := by
    ext key
    rw [Finmap.mem_keys, mem_fields, List.mem_toFinset, List.mem_map, ne_eq, h.find_eq_none_iff]
    push Not
    rfl
  rw [listed, List.toFinset_card_of_nodup h.distinct, List.length_map]

theorem fields_set (h : StrHash) (key value : Str) :
    fields (h.set key value) = h.fields.insert key.data value.data := by
  refine Finmap.ext_lookup fun other => ?_
  rw [lookup_fields, set]
  by_cases same : key.data = other
  · subst same
    rw [Finmap.lookup_insert]
    cases found : h.find key.data with
    | none =>
        dsimp only
        rw [Keyed.find_insert, if_pos rfl, found]
        rfl
    | some field =>
        dsimp only
        rw [put, Keyed.find_modify, if_pos rfl, found]
        rfl
  · rw [Finmap.lookup_insert_of_ne _ (Ne.symm same), lookup_fields]
    cases h.find key.data with
    | none =>
        dsimp only
        rw [Keyed.find_insert, if_neg same]
    | some field =>
        dsimp only
        rw [put, Keyed.find_modify, if_neg same]

theorem fields_del (h : StrHash) (key : Str) : fields (h.del key) = h.fields.erase key.data := by
  refine Finmap.ext_lookup fun other => ?_
  rw [lookup_fields, del, Keyed.find_erase]
  by_cases same : key.data = other
  · rw [if_pos same, ← same, Finmap.lookup_erase]
    rfl
  · rw [if_neg same, Finmap.lookup_erase_ne (Ne.symm same), lookup_fields]

end StrHash

namespace Object

/-- What an object stands for. -/
def value : Object → Value
  | .set s => .set (StrSet.elements s)
  | .hash h => .map (StrHash.fields h)
  | .str _ | .list _ | .zset _ => .other

end Object

def Db.space (db : Db) : Space := fun key => (db.get key).map Object.value

/-- A call returns, and leaves and answers what is expected; an `int` has to be able to count
for the answer. -/
def Gives {α β : Type} (stands : α → β) (expected : β × Answer)
    (result : Except Fault (α × Reply)) : Prop :=
  ∃ after reply, result = .ok (after, reply) ∧ stands after = expected.1 ∧
    (expected.2.ShownAs reply ↔ expected.2.Countable)

/-- A method does to an object what an operation says. -/
def Does {α β : Type} (stands : α → β) (operation : β → β × Answer)
    (method : α → Except Fault (α × Reply)) (object : α) : Prop :=
  Gives stands (operation (stands object)) (method object)

namespace Db

theorem space_store {key : Bytes} {old : Object} (held : db.get key = some old) (object : Object) :
    (db.store key object).space = Function.update db.space key (some object.value) := by
  funext k
  by_cases same : key = k
  · subst same
    rw [Function.update_self, space, get_store, held]
    rfl
  · rw [Function.update_of_ne (Ne.symm same), space, space, get, find_store, if_neg same]
    rfl

theorem space_create {key : Bytes} (missing : db.get key = none) (first object : Object) :
    ((db.newObject key first).store key object).space =
      Function.update db.space key (some object.value) := by
  rw [space_store (get_newObject missing first)]
  funext k
  by_cases same : key = k
  · subst same
    rw [Function.update_self, Function.update_self]
  · have named : Entry.name (⟨Str.ofData key, first, none⟩ : KeyValue) = key := rfl
    rw [Function.update_of_ne (Ne.symm same), Function.update_of_ne (Ne.symm same), space, space,
      get, newObject, Keyed.find_insert, named, if_neg same]
    rfl

/-- What a method does to its object, the frame does to the database. -/
theorem execOn_space {α β : Type} {kind : ObjectKind α} {textKind : Kind β} {stands : α → β}
    (fresh : stands kind.fresh = textKind.fresh)
    (wraps : ∀ value, (kind.wrap value).value = textKind.wrap (stands value))
    (unwraps : ∀ object : Object, textKind.unwrap object.value = (kind.unwrap object).map stands)
    {operation : β → β × Answer} {method : α → Except Fault (α × Reply)}
    (db : Db) (key : Bytes) {creates : Bool}
    (created : creates = true → Does stands operation method kind.fresh)
    (called : ∀ object, db.get key = some (kind.wrap object) → Does stands operation method object) :
    Gives space (db.space.update textKind key creates operation)
      (db.execOn kind key creates method) := by
  have refusal : Answer.error.ShownAs refused ↔ Answer.error.Countable := iff_of_true rfl trivial
  cases held : db.get key with
  | none =>
      have missing : db.space key = none := by rw [space, held, Option.map_none]
      rw [execOn, held, Space.update, missing]
      dsimp only
      cases creates with
      | false => exact ⟨db, refused, rfl, rfl, refusal⟩
      | true =>
          obtain ⟨value, reply, called, stored, shown⟩ := created rfl
          rw [fresh] at stored shown
          refine ⟨_, reply, by rw [called]; rfl, ?_, shown⟩
          rw [space_create held, wraps, stored]
          rfl
  | some object =>
      have there : db.space key = some object.value := by rw [space, held, Option.map_some]
      rw [execOn, held, Space.update, there]
      dsimp only
      rw [unwraps]
      cases unwrapped : kind.unwrap object with
      | none => exact ⟨db, refused, rfl, rfl, refusal⟩
      | some old =>
          obtain ⟨value, reply, called, stored, shown⟩ :=
            called old (by rw [held, kind.unwrap_eq_some.mp unwrapped])
          refine ⟨_, reply, by dsimp only; rw [called]; rfl, ?_, shown⟩
          rw [space_store held, wraps, stored]
          rfl

end Db

/- Each command does what its operation says. -/

theorem changed_shown_iff (n : Nat) :
    (Answer.changed n).ShownAs [toStringInt (Int32.ofNat n)] ↔ (Answer.changed n).Countable := by
  rw [Answer.ShownAs, Answer.Countable, List.singleton_inj, toStringInt, toStringSize,
    render_eq_numeral_iff]
  constructor
  · intro same
    have bounded := (Int32.ofNat n).toInt_lt
    omega
  · intro small
    exact Int32.toInt_ofNat_of_lt small

/-- A command that only answers. -/
theorem reads_does {α β : Type} {stands : α → β} {answer : β → Answer}
    {method : α → Except Fault (α × Reply)}
    {object : α} {reply : Reply} (answered : method object = .ok (object, reply))
    (shown : (answer (stands object)).ShownAs reply)
    (countable : (answer (stands object)).Countable) :
    Does stands (fun value => (value, answer value)) method object :=
  ⟨object, reply, answered, rfl, iff_of_true shown countable⟩

theorem orNil_of_ne_nil {texts : List Bytes} (some_ : texts ≠ []) : orNil texts = texts := by
  rw [orNil, if_neg some_]

namespace StrSet

/-- The loop of `SADD`: each round adds an element, and counts it if it is new. -/
theorem foldl_add (values : List Str) (s : StrSet) (cnt : Int32) :
    elements (values.foldl (fun acc m => counted acc.2 (add acc.1 m)) (s, cnt)).1 =
      s.elements ∪ (values.map Str.data).toFinset ∧
    (values.foldl (fun acc m => counted acc.2 (add acc.1 m)) (s, cnt)).2 =
      cnt + Int32.ofNat ((values.map Str.data).toFinset \ s.elements).card := by
  induction values generalizing s cnt with
  | nil =>
      refine ⟨(Finset.union_empty _).symm, ?_⟩
      rw [List.map_nil, List.toFinset_nil, Finset.empty_sdiff]
      exact (Int32.add_zero cnt).symm
  | cons m values ih =>
      rw [List.foldl_cons, List.map_cons, List.toFinset_cons]
      by_cases found : s.find m.data = none
      · have new : m.data ∉ s.elements := fun old => mem_elements.mp old found
        have round : counted cnt (add s m) = (s.insert m, cnt + 1) := by
          rw [counted, add, found]
          rfl
        rw [round, (ih _ _).1, (ih _ _).2, elements_insert]
        refine ⟨by rw [Finset.insert_union, Finset.union_insert], ?_⟩
        have more : insert m.data (values.map Str.data).toFinset \ s.elements =
            insert m.data ((values.map Str.data).toFinset \ insert m.data s.elements) := by
          ext element
          simp only [Finset.mem_sdiff, Finset.mem_insert]
          by_cases same : element = m.data
          · simp only [same, true_or, new, not_false_eq_true, and_self]
          · simp only [same, false_or]
        have absent : m.data ∉ (values.map Str.data).toFinset \ insert m.data s.elements :=
          fun inside => (Finset.mem_sdiff.mp inside).2 (Finset.mem_insert_self _ _)
        rw [more, Finset.card_insert_of_notMem absent, Int32.ofNat_add, Int32.add_assoc,
          Int32.add_comm 1]
        rfl
      · have old : m.data ∈ s.elements := mem_elements.mpr found
        have round : counted cnt (add s m) = (s.insert m, cnt) := by
          have none_ : (s.find m.data == none) = false := beq_eq_false_iff_ne.mpr found
          rw [counted, add, none_]
          rfl
        rw [round, (ih _ _).1, (ih _ _).2, elements_insert, Finset.insert_eq_of_mem old,
          Finset.union_insert, Finset.insert_sdiff_of_mem _ old]
        exact ⟨(Finset.insert_eq_of_mem (Finset.mem_union_left _ old)).symm, rfl⟩

/-- The loop of `SREM`. -/
theorem foldl_rem (values : List Str) (s : StrSet) (cnt : Int32) :
    elements (values.foldl (fun acc m => counted acc.2 (rem acc.1 m)) (s, cnt)).1 =
      s.elements \ (values.map Str.data).toFinset ∧
    (values.foldl (fun acc m => counted acc.2 (rem acc.1 m)) (s, cnt)).2 =
      cnt + Int32.ofNat ((values.map Str.data).toFinset ∩ s.elements).card := by
  induction values generalizing s cnt with
  | nil =>
      refine ⟨(Finset.sdiff_empty).symm, ?_⟩
      rw [List.map_nil, List.toFinset_nil, Finset.empty_inter]
      exact (Int32.add_zero cnt).symm
  | cons m values ih =>
      rw [List.foldl_cons, List.map_cons, List.toFinset_cons]
      have erased : s.elements.erase m.data \ (values.map Str.data).toFinset =
          s.elements \ insert m.data (values.map Str.data).toFinset := by
        rw [Finset.sdiff_insert, Finset.erase_sdiff_comm]
      by_cases found : s.find m.data = none
      · have absent : m.data ∉ s.elements := fun old => mem_elements.mp old found
        have round : counted cnt (rem s m) = (s.erase m.data, cnt) := by
          rw [counted, rem, found]
          rfl
        rw [round, (ih _ _).1, (ih _ _).2, elements_erase, Finset.insert_inter_of_notMem absent,
          Finset.erase_eq_of_notMem absent]
        rw [Finset.erase_eq_of_notMem absent] at erased
        exact ⟨erased, rfl⟩
      · have old : m.data ∈ s.elements := mem_elements.mpr found
        have round : counted cnt (rem s m) = (s.erase m.data, cnt + 1) := by
          have some_ : (s.find m.data != none) = true := bne_iff_ne.mpr found
          rw [counted, rem, some_]
          rfl
        rw [round, (ih _ _).1, (ih _ _).2, elements_erase]
        refine ⟨erased, ?_⟩
        have more : insert m.data (values.map Str.data).toFinset ∩ s.elements =
            insert m.data ((values.map Str.data).toFinset ∩ s.elements.erase m.data) := by
          ext element
          simp only [Finset.mem_inter, Finset.mem_insert, Finset.mem_erase, ne_eq]
          by_cases same : element = m.data
          · simp only [same, true_or, old, and_self]
          · simp only [same, false_or, not_false_eq_true, true_and]
        have absent : m.data ∉ (values.map Str.data).toFinset ∩ s.elements.erase m.data :=
          fun inside => Finset.notMem_erase _ _ (Finset.mem_inter.mp inside).2
        rw [more, Finset.card_insert_of_notMem absent, Int32.ofNat_add, Int32.add_assoc,
          Int32.add_comm 1]
        rfl

end StrSet

namespace Textbook

/-- Fields and values, taken two by two. -/
def pairsOf : List Bytes → List (Bytes × Bytes)
  | field :: value :: rest => (field, value) :: pairsOf rest
  | _ => []

end Textbook

namespace SetCommand

/-- The operation a command stands for; `SRANDMEMBER` and `SPOP` leave the choice to the
table. -/
def operation (c : SetCommand) : Option Operation :=
  match c.command with
  | .sadd => some (.sadd c.objName (c.values.map Str.data))
  | .srem => some (.srem c.objName (c.values.map Str.data))
  | .sismember => some (.sismember c.objName (c.values.map Str.data))
  | .scard => some (.scard c.objName)
  | .smembers => some (.smembers c.objName)
  | .sinter => c.values.head?.map fun another => .sinter c.objName another.data
  | .sdiff => c.values.head?.map fun another => .sdiff c.objName another.data
  | .srandmember | .spop => none

variable {c : SetCommand} {random : Nat} {get : Bytes → Option Object} {st : StrSet}

theorem sadd_does (named : c.command = .sadd) :
    Does StrSet.elements (fun s => (s ∪ (c.values.map Str.data).toFinset,
      .changed ((c.values.map Str.data).toFinset \ s).card)) (onSet random get c) st := by
  obtain ⟨stored, cnt⟩ := StrSet.foldl_add c.values st 0
  rw [Int32.zero_add] at cnt
  refine ⟨_, _, by rw [onSet, named], stored, ?_⟩
  rw [cnt]
  exact changed_shown_iff _

theorem srem_does (named : c.command = .srem) :
    Does StrSet.elements (fun s => (s \ (c.values.map Str.data).toFinset,
      .changed ((c.values.map Str.data).toFinset ∩ s).card)) (onSet random get c) st := by
  obtain ⟨stored, cnt⟩ := StrSet.foldl_rem c.values st 0
  rw [Int32.zero_add] at cnt
  refine ⟨_, _, by rw [onSet, named], stored, ?_⟩
  rw [cnt]
  exact changed_shown_iff _

theorem sismember_does (named : c.command = .sismember) (given : c.values ≠ []) :
    Does StrSet.elements (fun s => (s, .flags ((c.values.map Str.data).map fun element =>
      decide (element ∈ s)))) (onSet random get c) st := by
  refine reads_does (by rw [onSet, named]) ?_ trivial
  rw [orNil_of_ne_nil (mt List.map_eq_nil_iff.mp given), Answer.ShownAs, List.map_map, List.map_map]
  refine List.map_congr_left fun m _ => ?_
  have asked : StrSet.isMember st m = decide (m.data ∈ StrSet.elements st) := by
    rw [StrSet.isMember, Bool.eq_iff_iff, bne_iff_ne, decide_eq_true_iff, StrSet.mem_elements]
  rw [Function.comp_apply, Function.comp_apply, asked]

/-- The sets that `SINTER` and `SDIFF` answer with. -/
theorem inter_elements {this s : StrSet} {sameObject : Bool} (same : sameObject = true → s = this) :
    ((StrSet.inter this s sameObject).map Str.data).Nodup ∧
      ((StrSet.inter this s sameObject).map Str.data).toFinset =
        StrSet.elements this ∩ StrSet.elements s := by
  rw [StrSet.inter]
  split
  · rename_i equal
    rw [same equal, Finset.inter_self]
    exact ⟨this.distinct, rfl⟩
  · refine ⟨this.distinct.sublist (List.filter_sublist.map _), ?_⟩
    rw [StrSet.elements_filter this fun element => s.find element != none]
    ext element
    rw [Finset.mem_filter, Finset.mem_inter, bne_iff_ne, StrSet.mem_elements (s := s)]

theorem diff_elements {this s : StrSet} {sameObject : Bool} (same : sameObject = true → s = this) :
    ((StrSet.diff this s sameObject).map Str.data).Nodup ∧
      ((StrSet.diff this s sameObject).map Str.data).toFinset =
        StrSet.elements this \ StrSet.elements s := by
  rw [StrSet.diff]
  split
  · rename_i equal
    rw [same equal, Finset.sdiff_self]
    exact ⟨List.nodup_nil, rfl⟩
  · refine ⟨this.distinct.sublist (List.filter_sublist.map _), ?_⟩
    rw [StrSet.elements_filter this fun element => s.find element == none]
    ext element
    rw [Finset.mem_filter, Finset.mem_sdiff, beq_iff_eq, StrSet.mem_elements (s := s), not_not]

theorem combine_does {method : StrSet → StrSet → Bool → List Str}
    {textbook : Finset Bytes → Finset Bytes → Finset Bytes}
    (lists : ∀ {this s : StrSet} {sameObject : Bool}, (sameObject = true → s = this) →
      ((method this s sameObject).map Str.data).Nodup ∧
        ((method this s sameObject).map Str.data).toFinset =
          textbook (StrSet.elements this) (StrSet.elements s))
    {db : Db} {another : Str} (first : c.values.head? = some another)
    (held : db.get c.objName = some (.set st)) :
    Does StrSet.elements (fun s => (s, db.space.withSet another.data fun t =>
      .elements (textbook s t))) (combine method db.get c) st := by
  have given : valueAt c.values 0 = .ok another := by
    rw [valueAt_eq_ok, ← List.head?_eq_getElem?, first]
  have called : combine method db.get c st = match db.get another.data with
      | some (.set other) =>
          .ok (st, orNil ((method st other (another.data == c.objName)).map Str.getRaw))
      | _ => .ok (st, refused) := by
    rw [combine, given]
    rfl
  rw [Does, Gives, called, Space.withSet, Db.space]
  cases found : db.get another.data with
  | none => exact ⟨st, refused, rfl, rfl, iff_of_true rfl trivial⟩
  | some object =>
      cases object with
      | str _ | list _ | hash _ | zset _ =>
          exact ⟨st, refused, rfl, rfl, iff_of_true rfl trivial⟩
      | set other =>
          have same (equal : (another.data == c.objName) = true) : other = st := by
            rw [eq_of_beq equal, held] at found
            cases found
            rfl
          obtain ⟨distinct, elements⟩ := lists same
          exact ⟨st, _, rfl, rfl, iff_of_true ⟨_, distinct, elements, Or.inl rfl⟩ trivial⟩

theorem sinter_does {another : Str} (named : c.command = .sinter)
    (first : c.values.head? = some another) (held : db.get c.objName = some (.set st)) :
    Does StrSet.elements (fun s => (s, db.space.withSet another.data fun t => .elements (s ∩ t)))
      (onSet random db.get c) st := by
  rw [Does, onSet, named]
  exact combine_does inter_elements first held

theorem sdiff_does {another : Str} (named : c.command = .sdiff)
    (first : c.values.head? = some another) (held : db.get c.objName = some (.set st)) :
    Does StrSet.elements (fun s => (s, db.space.withSet another.data fun t => .elements (s \ t)))
      (onSet random db.get c) st := by
  rw [Does, onSet, named]
  exact combine_does diff_elements first held

theorem scard_does (named : c.command = .scard) :
    Does StrSet.elements (fun s => (s, .count s.card)) (onSet random get c) st := by
  refine reads_does (by rw [onSet, named]) ?_ trivial
  rw [Answer.ShownAs, StrSet.card_elements, StrSet.card]

theorem smembers_does (named : c.command = .smembers) :
    Does StrSet.elements (fun s => (s, .elements s)) (onSet random get c) st := by
  refine reads_does (by rw [onSet, named]) ?_ trivial
  refine ⟨st.items.map Str.data, st.distinct, rfl, Or.inr ?_⟩
  rw [List.map_map]
  rfl

/-- `Exec` on the database, against the operation on the space. -/
theorem exec_gives {operation : Operation} (asked : c.operation = some operation)
    (fit : c.Fit SetName.bare fun _ _ => true) (random : Nat) (db : Db) :
    Gives Db.space (operation.apply db.space) (exec random c db) := by
  have unwraps (object : Object) :
      Kind.set.unwrap object.value = (ObjectKind.set.unwrap object).map StrSet.elements := by
    cases object <;> rfl
  have frame {creates : Bool} {operation : Finset Bytes → Finset Bytes × Answer} :=
    @Db.execOn_space _ _ ObjectKind.set Kind.set StrSet.elements rfl (fun _ => rfl) unwraps operation
      (onSet random db.get c) db c.objName creates
  rw [SetCommand.operation] at asked
  split at asked
  case h_1 named =>
      cases asked
      rw [exec, named]
      exact frame (fun _ => sadd_does named) fun _ _ => sadd_does named
  case h_2 named =>
      cases asked
      rw [exec, named]
      exact frame nofun fun _ _ => srem_does named
  case h_3 named =>
      cases asked
      rw [exec, named]
      exact frame nofun fun _ _ => sismember_does named (fit (by rw [named]; rfl)).1
  case h_4 named =>
      cases asked
      rw [exec, named]
      exact frame nofun fun _ _ => scard_does named
  case h_5 named =>
      cases asked
      rw [exec, named]
      exact frame nofun fun _ _ => smembers_does named
  case h_6 named =>
      obtain ⟨another, first, rfl⟩ := Option.map_eq_some_iff.mp asked
      rw [exec, named]
      exact frame nofun fun _ held => sinter_does named first held
  case h_7 named =>
      obtain ⟨another, first, rfl⟩ := Option.map_eq_some_iff.mp asked
      rw [exec, named]
      exact frame nofun fun _ held => sdiff_does named first held
  all_goals cases asked

end SetCommand

namespace StrHash

/-- The loop of `HSET` over fields and values that come in pairs. -/
theorem eachPair_set {values : List Str} (even : values.length % 2 = 0) (h : StrHash) :
    ∃ result, eachPair (fun tbl key value => .ok (set tbl key value)) h values = .ok result ∧
      fields result = (pairsOf (values.map Str.data)).foldl
        (fun m field => m.insert field.1 field.2) h.fields := by
  match values with
  | [] => exact ⟨h, rfl, rfl⟩
  | [_] => cases even
  | key :: value :: rest =>
      have fewer : rest.length % 2 = 0 := by
        rw [List.length_cons, List.length_cons] at even
        omega
      obtain ⟨result, looped, stored⟩ := eachPair_set fewer (h.set key value)
      refine ⟨result, looped, ?_⟩
      rw [stored, fields_set]
      rfl

/-- The loop of `HDEL`. -/
theorem foldl_del (values : List Str) (h : StrHash) :
    fields (values.foldl del h) =
      (values.map Str.data).foldl (fun m field => m.erase field) h.fields := by
  induction values generalizing h with
  | nil => rfl
  | cons key values ih => rw [List.foldl_cons, List.map_cons, List.foldl_cons, ih, fields_del]

end StrHash

namespace HashCommand

/-- The operation a command stands for; `HINCRBY` and `HDECRBY` are no operations on maps. -/
def operation (c : HashCommand) : Option Operation :=
  match c.command with
  | .hset => some (.hset c.objName (pairsOf (c.values.map Str.data)))
  | .hget => some (.hget c.objName (c.values.map Str.data))
  | .hexist => some (.hexist c.objName (c.values.map Str.data))
  | .hdel => some (.hdel c.objName (c.values.map Str.data))
  | .hlen => some (.hlen c.objName)
  | .hgetall => some (.hgetall c.objName)
  | .hincrby | .hdecrby => none

variable {c : HashCommand} {tbl : StrHash}

theorem hset_does (named : c.command = .hset) (even : c.values.length % 2 = 0) :
    Does StrHash.fields (fun m => ((pairsOf (c.values.map Str.data)).foldl
      (fun m field => m.insert field.1 field.2) m, .done)) (onHash c) tbl := by
  obtain ⟨result, looped, stored⟩ := StrHash.eachPair_set even tbl
  refine ⟨result, okReply, ?_, stored, iff_of_true rfl trivial⟩
  rw [onHash, named]
  dsimp only
  rw [looped]
  rfl

theorem hdel_does (named : c.command = .hdel) :
    Does StrHash.fields (fun m => ((c.values.map Str.data).foldl
      (fun m field => m.erase field) m, .done)) (onHash c) tbl :=
  ⟨_, okReply, by rw [onHash, named], StrHash.foldl_del c.values tbl, iff_of_true rfl trivial⟩

theorem hget_does (named : c.command = .hget) (given : c.values ≠ []) :
    Does StrHash.fields (fun m => (m, .values ((c.values.map Str.data).map fun field =>
      m.lookup field))) (onHash c) tbl := by
  refine reads_does (by rw [onHash, named]) ?_ trivial
  rw [orNil_of_ne_nil (mt List.map_eq_nil_iff.mp given), Answer.ShownAs, List.map_map, List.map_map]
  refine List.map_congr_left fun key _ => ?_
  rw [Function.comp_apply, Function.comp_apply, StrHash.lookup_fields, Answer.valueText, StrHash.get]
  cases tbl.find key.data with
  | none => rfl
  | some field => rfl

theorem hexist_does (named : c.command = .hexist) :
    Does StrHash.fields (fun m => (m, .flags ((c.values.map Str.data).map fun field =>
      decide (field ∈ m)))) (onHash c) tbl := by
  refine reads_does (by rw [onHash, named]) ?_ trivial
  rw [Answer.ShownAs, List.map_map, List.map_map]
  refine List.map_congr_left fun key _ => ?_
  have asked : StrHash.exist tbl key = decide (key.data ∈ StrHash.fields tbl) := by
    rw [StrHash.exist, Bool.eq_iff_iff, bne_iff_ne, decide_eq_true_iff, StrHash.mem_fields]
  rw [Function.comp_apply, Function.comp_apply, asked]

theorem hlen_does (named : c.command = .hlen) :
    Does StrHash.fields (fun m => (m, .count m.keys.card)) (onHash c) tbl := by
  refine reads_does (by rw [onHash, named]) ?_ trivial
  rw [Answer.ShownAs, StrHash.card_fields, StrHash.len]

theorem hgetall_does (named : c.command = .hgetall) :
    Does StrHash.fields (fun m => (m, .fields m)) (onHash c) tbl := by
  refine reads_does (by rw [onHash, named]) ?_ trivial
  refine ⟨tbl.items.map fun field => (field.1.data, field.2.data), ?_, fun key value => ?_, ?_⟩
  · rw [List.map_map]
    exact tbl.distinct
  · rw [StrHash.lookup_fields, StrHash.find_map_eq_some_iff, List.mem_map]
    simp only [Prod.mk.injEq]
  · rw [List.flatMap_map]
    rfl

theorem exec_gives {operation : Operation} (asked : c.operation = some operation)
    (fit : c.Fit HashName.bare HashName.arity) (db : Db) :
    Gives Db.space (operation.apply db.space) (exec c db) := by
  have unwraps (object : Object) :
      Kind.map.unwrap object.value = (ObjectKind.hash.unwrap object).map StrHash.fields := by
    cases object <;> rfl
  have frame {creates : Bool} {operation : FieldMap → FieldMap × Answer} :=
    @Db.execOn_space _ _ ObjectKind.hash Kind.map StrHash.fields rfl (fun _ => rfl) unwraps operation
      (onHash c) db c.objName creates
  rw [HashCommand.operation] at asked
  split at asked
  case h_1 named =>
      cases asked
      rw [exec, named]
      have even := (fit.pairs named rfl rfl).1
      exact frame (fun _ => hset_does named even) fun _ _ => hset_does named even
  case h_2 named =>
      cases asked
      rw [exec, named]
      exact frame nofun fun _ _ => hget_does named (fit (by rw [named]; rfl)).1
  case h_3 named =>
      cases asked
      rw [exec, named]
      exact frame nofun fun _ _ => hexist_does named
  case h_4 named =>
      cases asked
      rw [exec, named]
      exact frame nofun fun _ _ => hdel_does named
  case h_5 named =>
      cases asked
      rw [exec, named]
      exact frame nofun fun _ _ => hlen_does named
  case h_6 named =>
      cases asked
      rw [exec, named]
      exact frame nofun fun _ _ => hgetall_does named
  all_goals cases asked

end HashCommand

/- Runs: clients that are in databases send requests for the operations. -/

namespace Command

/-- The operation a well-formed command stands for. -/
def operation (command : Command) : Option Operation :=
  match command with
  | .set c => if c.valid then c.operation else none
  | .hash c => if c.valid then c.operation else none
  | _ => none

theorem operation_valid {command : Command} {operation : Operation}
    (asked : command.operation = some operation) :
    command.valid = true ∧ command.isKeyed = true := by
  cases command with
  | set c =>
      obtain ⟨valid, asked⟩ := Option.ite_none_right_eq_some.mp asked
      refine ⟨valid, bne_iff_ne.mpr fun named => ?_⟩
      rw [SetCommand.operation, named] at asked
      cases asked
  | hash c => exact ⟨(Option.ite_none_right_eq_some.mp asked).1, rfl⟩
  | server c | cli c | db c | str c | list c | zset c => cases asked

theorem onDb_gives {command : Command} {operation : Operation}
    (asked : command.operation = some operation) (fit : command.Fit) (env : Env) (db : Db) :
    ∃ result, Gives Db.space (operation.apply db.space) result ∧
      command.onDb env db = untimed result := by
  cases command with
  | set c =>
      exact ⟨_, SetCommand.exec_gives (Option.ite_none_right_eq_some.mp asked).2 fit env.random db,
        rfl⟩
  | hash c => exact ⟨_, HashCommand.exec_gives (Option.ite_none_right_eq_some.mp asked).2 fit db, rfl⟩
  | server c | cli c | db c | str c | list c | zset c => cases asked

end Command

namespace Server

/-- What the databases stand for. -/
def spaces (server : Server) (index : Nat) : Space :=
  fun key => (server.entry index key).map fun entry => entry.value.value

theorem spaces_eq {index : Nat} (there : server.databases[index]? = some db) :
    server.spaces index = db.space := by
  funext key
  rw [spaces, entry_eq there, Db.space, Db.get, Option.map_map]
  rfl

theorem spaces_setDatabase {index : Nat} (there : server.databases[index]? = some db) (db' : Db) :
    (server.setDatabase index db').spaces = Function.update server.spaces index db'.space := by
  funext i key
  rw [spaces, entry_setDatabase there]
  by_cases same : index = i
  · subst same
    rw [if_pos rfl, Function.update_self, Db.space, Db.get, Option.map_map]
    rfl
  · rw [if_neg same, Function.update_of_ne (Ne.symm same), spaces]

end Server

/-- A request of a client, with the time and the addresses of the objects when it is
executed. -/
structure Call where
  env : Env
  client : Nat
  address : Bytes → Nat
  distinct : Function.Injective address
  request : Request

namespace Call

/-- The request is read and executed. -/
def perform (call : Call) (server : Server) : Except Fault (Server × Option Reply) := do
  match ← requestToCommandExec call.request with
  | none => return (server, none)
  | some command =>
      let outcome ← command.execAt call.address call.env server call.client
      return (outcome.server, outcome.reply)

/-- The database and the operation a call asks for. -/
def asks (call : Call) (server : Server) : Option (Nat × Operation) := do
  let index ← server.clients call.client
  match requestToCommandExec call.request with
  | .ok (some command) => command.operation.map (index, ·)
  | _ => none

theorem perform_gives {call : Call} {index : Nat} {operation : Operation}
    (asked : call.asks server = some (index, operation)) :
    ∃ server' reply, call.perform server = .ok (server', some reply) ∧
      server'.clients = server.clients ∧
      server'.spaces =
        Function.update server.spaces index (operation.apply (server.spaces index)).1 ∧
      ((operation.apply (server.spaces index)).2.ShownAs reply ↔
        operation.Few (server.spaces index)) := by
  obtain ⟨i, attached, asked⟩ := Option.bind_eq_some_iff.mp asked
  split at asked
  · rename_i command parsed
    obtain ⟨_, named, same⟩ := Option.map_eq_some_iff.mp asked
    cases same
    obtain ⟨db, there⟩ := Server.attached_there attached
    obtain ⟨valid, keyed⟩ := Command.operation_valid named
    obtain ⟨_, ⟨db', reply, rfl, stored, shown⟩, run⟩ :=
      Command.onDb_gives named (Command.requestToCommandExec_fit parsed valid) call.env db
    refine ⟨server.setDatabase index db', reply, ?_, rfl, ?_, ?_⟩
    · rw [perform, parsed, ok_bind]
      dsimp only
      rw [Command.execAt_eq call.distinct, Command.exec_attached call.env keyed attached there,
        if_pos valid, run]
      rfl
    · rw [Server.spaces_setDatabase there, stored, Server.spaces_eq there]
    · rw [← Operation.countable_apply, Server.spaces_eq there]
      exact shown
  · cases asked

theorem asks_congr {server server' : Server} (same : server'.clients = server.clients)
    (call : Call) : call.asks server' = call.asks server := by
  rw [asks, asks, same]

end Call

namespace Server

/-- Calls in the order their commands are executed, and the replies to them. -/
def runCalls (server : Server) : List Call → Except Fault (Server × List (Option Reply))
  | [] => .ok (server, [])
  | call :: rest => do
      let (server, reply) ← call.perform server
      let (server, replies) ← server.runCalls rest
      return (server, reply :: replies)

/-- The reply to a call shows an answer. -/
def Answered (answer : Answer) (reply : Option Reply) : Prop :=
  ∃ texts, reply = some texts ∧ answer.ShownAs texts

/-- The run returns, and stores and answers what the textbook says. -/
def KeepsTextbook (server : Server) (calls : List Call) (steps : List (Nat × Operation)) : Prop :=
  ∃ server' replies, server.runCalls calls = .ok (server', replies) ∧
    server'.spaces = (Textbook.run server.spaces steps).1 ∧
    List.Forall₂ Answered (Textbook.run server.spaces steps).2 replies

theorem runCalls_gives {calls : List Call} {steps : List (Nat × Operation)}
    (asked : calls.map (·.asks server) = steps.map some) :
    ∃ server' replies, server.runCalls calls = .ok (server', replies) ∧
      server'.spaces = (Textbook.run server.spaces steps).1 ∧
      (List.Forall₂ Answered (Textbook.run server.spaces steps).2 replies ↔
        RunsFew server.spaces steps) := by
  induction steps generalizing server calls with
  | nil =>
      obtain rfl := List.map_eq_nil_iff.mp asked
      exact ⟨server, [], rfl, rfl, iff_of_true .nil trivial⟩
  | cons step steps ih =>
      obtain ⟨index, operation⟩ := step
      obtain ⟨call, rest, rfl, first, later⟩ := List.map_eq_cons_iff.mp asked
      obtain ⟨next, reply, performed, clients, stored, shown⟩ := Call.perform_gives first
      have later : rest.map (·.asks next) = steps.map some := by
        rw [← later]
        exact List.map_congr_left fun call _ => Call.asks_congr clients call
      obtain ⟨server', replies, run, spaces, answered⟩ := ih later
      refine ⟨server', some reply :: replies, ?_, ?_, ?_⟩
      · rw [runCalls, performed, ok_bind]
        dsimp only
        rw [run]
        rfl
      · rw [spaces, stored]
        rfl
      · rw [stored] at answered
        rw [Textbook.run, RunsFew, ← answered, ← shown, List.forall₂_cons]
        refine and_congr_left fun _ => ⟨?_, fun texts => ⟨reply, rfl, texts⟩⟩
        rintro ⟨texts, same, given⟩
        cases same
        exact given

theorem KeepsTextbook.runsFew {calls : List Call} {steps : List (Nat × Operation)}
    (kept : server.KeepsTextbook calls steps) (asked : calls.map (·.asks server) = steps.map some) :
    RunsFew server.spaces steps := by
  obtain ⟨server', replies, run, -, answered⟩ := runCalls_gives asked
  obtain ⟨other, others, run', -, given⟩ := kept
  rw [run] at run'
  cases run'
  exact answered.mp given

/-- A run keeps to the textbook as long as no command adds or removes more elements than an
`int` can count. -/
theorem keepsTextbook_iff {server : Server} {calls : List Call} {steps : List (Nat × Operation)}
    (asked : calls.map (·.asks server) = steps.map some) :
    server.KeepsTextbook calls steps ↔ RunsFew server.spaces steps := by
  refine ⟨fun kept => kept.runsFew asked, fun few => ?_⟩
  obtain ⟨server', replies, run, spaces, answered⟩ := runCalls_gives asked
  exact ⟨server', replies, run, spaces, answered.mpr few⟩

end Server

/-- Addresses that tell every two keys apart. -/
def spread (key : Bytes) : Nat := Nat.ofDigits 257 (key.map fun byte => byte.toNat + 1)

theorem spread_injective : Function.Injective spread := by
  have digits (key : Bytes) : Nat.digits 257 (spread key) = key.map fun byte => byte.toNat + 1 := by
    refine Nat.digits_ofDigits 257 (by decide) _ (fun digit listed => ?_) fun nonempty => ?_
    · obtain ⟨byte, -, rfl⟩ := List.mem_map.mp listed
      have small := byte.toNat_lt
      omega
    · obtain ⟨byte, -, last⟩ := List.mem_map.mp (List.getLast_mem nonempty)
      omega
  intro key other same
  have mapped := congrArg (Nat.digits 257) same
  rw [digits, digits] at mapped
  refine List.map_injective_iff.mpr (fun byte byte' equal => ?_) mapped
  exact UInt8.toNat_inj.mp (Nat.succ_injective equal)

/-- A request of the first client. -/
def Call.first (request : Request) : Call := ⟨quietEnv, 0, spread, spread_injective, request⟩

namespace Server

/-- Elements named twice, a set combined with itself, a field written twice and a key that is
missing. -/
def mixedCalls : List Call := [
  .first [bytes "SADD", bytes "a", bytes "x", bytes "y", bytes "x"],
  .first [bytes "SADD", bytes "b", bytes "y"],
  .first [bytes "SINTER", bytes "a", bytes "b"],
  .first [bytes "SDIFF", bytes "a", bytes "a"],
  .first [bytes "HSET", bytes "h", bytes "f", bytes "v", bytes "f", bytes "w"],
  .first [bytes "HGET", bytes "h", bytes "f"],
  .first [bytes "SCARD", bytes "c"]]

def mixedSteps : List (Nat × Operation) := [
  (0, .sadd (bytes "a") [bytes "x", bytes "y", bytes "x"]),
  (0, .sadd (bytes "b") [bytes "y"]),
  (0, .sinter (bytes "a") (bytes "b")),
  (0, .sdiff (bytes "a") (bytes "a")),
  (0, .hset (bytes "h") [(bytes "f", bytes "v"), (bytes "f", bytes "w")]),
  (0, .hget (bytes "h") [bytes "f"]),
  (0, .scard (bytes "c"))]

theorem keepsTextbook_iff_mixed :
    mixedCalls.map (·.asks oneClient) = mixedSteps.map some ∧
    oneClient.KeepsTextbook mixedCalls mixedSteps ∧
    (oneClient.runCalls mixedCalls).toOption.map Prod.snd = some [some [bytes "2"],
      some [bytes "1"], some [bytes "y"], some [bytes "(nil)"], some [bytes "OK"],
      some [quoted (bytes "w")], some [bytes " "]] := by
  have asked : mixedCalls.map (·.asks oneClient) = mixedSteps.map some := by decide +kernel
  have short : ∀ step ∈ mixedSteps, step.2.named < 2 ^ 31 := by decide
  exact ⟨asked, (keepsTextbook_iff asked).mpr (runsFew_of_named short _), by decide +kernel⟩

/-- `SADD` of different elements under a new key. -/
def manyElements (n : Nat) : Call := .first (bytes "SADD" :: bytes "k" :: (List.range n).map numeral)

theorem manyElements_parsed {n : Nat} (some_ : 0 < n) :
    requestToCommandExec (manyElements n).request =
      .ok (some (.set ⟨true, .sadd, bytes "k", ((List.range n).map numeral).map Str.ofData⟩)) := by
  have filled : (bytes "SADD" :: bytes "k" :: (List.range n).map numeral).any List.isEmpty = false := by
    rw [List.any_cons, List.any_cons, List.any_map, Bool.or_eq_false_iff, Bool.or_eq_false_iff]
    refine ⟨rfl, rfl, List.any_eq_false.mpr fun i _ => ?_⟩
    rw [Function.comp_apply, List.isEmpty_iff]
    exact numeral_ne_nil i
  have given : ((List.range n).map numeral).isEmpty = false := by
    rw [List.isEmpty_map, List.isEmpty_eq_false_iff, ne_eq, List.range_eq_nil]
    omega
  have taken := jsonToValuesCommand_eq SetName.sadd false (fun _ => true)
    (bytes "SADD" :: bytes "k" :: (List.range n).map numeral)
  rw [accepted, if_neg (by rw [filled]; exact Bool.false_ne_true), given] at taken
  exact congrArg (fun c => Except.ok (some (Command.set c))) taken

theorem manyElements_asks {n : Nat} (some_ : 0 < n) :
    (manyElements n).asks oneClient =
      some (0, .sadd (bytes "k") ((List.range n).map numeral)) := by
  rw [Call.asks, manyElements_parsed some_]
  change some (0, Operation.sadd (bytes "k")
    ((((List.range n).map numeral).map Str.ofData).map Str.data)) = _
  rw [Str.map_data_ofData]

theorem card_numerals (n : Nat) : ((List.range n).map numeral).toFinset.card = n := by
  rw [List.toFinset_card_of_nodup (List.nodup_range.map fun _ _ => numeral_inj), List.length_map,
    List.length_range]

/-- The `int` is answered, whatever it counted up to. -/
theorem manyElements_reply {n : Nat} (some_ : 0 < n) :
    ((manyElements n).perform oneClient).map Prod.snd = .ok (some [toStringInt (Int32.ofNat n)]) := by
  have counted := (StrSet.foldl_add (((List.range n).map numeral).map Str.ofData) Keyed.empty 0).2
  rw [Str.map_data_ofData, Int32.zero_add] at counted
  have fresh : (((List.range n).map numeral).toFinset \ StrSet.elements Keyed.empty).card = n := by
    rw [show StrSet.elements Keyed.empty = ∅ from rfl, Finset.sdiff_empty, card_numerals]
  rw [fresh] at counted
  rw [← counted, Call.perform, manyElements_parsed some_, ok_bind]
  dsimp only
  rw [Command.execAt_eq (manyElements n).distinct]
  rfl

theorem manyElements_few {n : Nat} (some_ : 0 < n)
    (kept : oneClient.KeepsTextbook [manyElements n]
      [(0, .sadd (bytes "k") ((List.range n).map numeral))]) : n < 2 ^ 31 := by
  have asked : [manyElements n].map (·.asks oneClient) =
      [(0, Operation.sadd (bytes "k") ((List.range n).map numeral))].map some := by
    rw [List.map_singleton, List.map_singleton, manyElements_asks some_]
  have few : ((List.range n).map numeral).toFinset.card < 2 ^ 31 := (kept.runsFew asked).1
  rwa [card_numerals] at few

/-- The reply to `SADD` of `2 ^ 31` elements is negative. -/
theorem not_keepsTextbook_many :
    (manyElements (2 ^ 31)).asks oneClient =
      some (0, .sadd (bytes "k") ((List.range (2 ^ 31)).map numeral)) ∧
    ((manyElements (2 ^ 31)).perform oneClient).map Prod.snd = .ok (some [bytes "-2147483648"]) ∧
    ¬ oneClient.KeepsTextbook [manyElements (2 ^ 31)]
      [(0, .sadd (bytes "k") ((List.range (2 ^ 31)).map numeral))] := by
  have some_ : 0 < 2 ^ 31 := by decide
  have wrapped : toStringInt (Int32.ofNat (2 ^ 31)) = bytes "-2147483648" := by decide +kernel
  refine ⟨manyElements_asks some_, by rw [manyElements_reply some_, wrapped], fun kept => ?_⟩
  exact absurd (manyElements_few some_ kept) (Nat.lt_irrefl _)

end Server

end ForkRedis
