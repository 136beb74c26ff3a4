import ForkRedis.Util
import ForkRedis.Lib.Fallible
import Mathlib.Data.Rat.Init

set_option autoImplicit false

/- `LoadConf`, `DefaultConf` and what the constructor of `MainLoop` computes from the
configuration. -/
namespace ForkRedis

open Fallible

/-- The numbers of json11: an `int`, or a double by its value, which can be infinite. -/
inductive JsonNumber where
  | int (value : Int32)
  | double (value : Option Rat)

inductive Json where
  | null
  | bool (value : Bool)
  | number (value : JsonNumber)
  | string (value : Bytes)
  | array (items : List Json)
  | object (members : List (Bytes × Json))

namespace Json

/-- The items of an object; other values have none. -/
def objectItems : Json → List (Bytes × Json)
  | .object members => members
  | _ => []

def stringValue : Json → Bytes
  | .string value => value
  | _ => []

def boolValue : Json → Bool
  | .bool value => value
  | _ => false

/-- A number without its fractional part, unless it is infinite; other values count as 0. -/
def truncated : Json → Option Int
  | .number (.int value) => some value.toInt
  | .number (.double value) => value.map fun value => value.num.tdiv value.den
  | _ => some 0

/-- The integer is one of the values of `int`. -/
def IsInt (value : Int) : Prop := -2 ^ 31 ≤ value ∧ value < 2 ^ 31

instance (value : Int) : Decidable (IsInt value) := inferInstanceAs (Decidable (_ ∧ _))

/-- The conversion of a double is undefined when the result is not an `int`. -/
def intValue (json : Json) : Except Fault Int32 :=
  match json.truncated with
  | none => .error .undefined
  | some value => if IsInt value then .ok (Int32.ofInt value) else .error .undefined

end Json

structure RedisConf where
  fileName : Bytes
  ip : Bytes
  port : Int16
  compress : Bool
  enableAof : Bool
  everyNSec : UInt64
  saveNTimes : UInt64
  memSizeMbytes : UInt64
  cpuNum : Int32
  password : Bytes
  aofMode : Bytes
  deriving DecidableEq

namespace RedisConf

/-- `return {}`. -/
def zero : RedisConf :=
  { fileName := [], ip := [], port := 0, compress := false, enableAof := false, everyNSec := 0,
    saveNTimes := 0, memSizeMbytes := 0, cpuNum := 0, password := [], aofMode := [] }

def default : RedisConf :=
  { fileName := bytes "dump.db", ip := bytes "127.0.0.1", port := 8080, compress := true,
    enableAof := false, everyNSec := 1, saveNTimes := 1, memSizeMbytes := 4096, cpuNum := 2,
    password := bytes "yeah", aofMode := [] }

end RedisConf

def confFields : List Bytes :=
  ["dbfile", "ip", "port", "compress", "aof", "aof_mode", "sec", "time", "memsiz_mb", "cpu",
    "password"].map bytes

/-- The fields that are read as an `int`. -/
def intFields : List Bytes := ["port", "sec", "time", "memsiz_mb", "cpu"].map bytes

/-- `obj_value[field]`, where a field that is missing reads as null. -/
def confField (items : List (Bytes × Json)) (field : Bytes) : Json :=
  (items.lookup field).getD .null

/-- An `int` as a `std::size_t`. -/
def sizeOfInt (value : Int32) : UInt64 := UInt64.ofInt value.toInt

def readConf (items : List (Bytes × Json)) : Except Fault RedisConf := do
  let port ← (confField items (bytes "port")).intValue
  let sec ← (confField items (bytes "sec")).intValue
  let time ← (confField items (bytes "time")).intValue
  let memsiz ← (confField items (bytes "memsiz_mb")).intValue
  let cpu ← (confField items (bytes "cpu")).intValue
  return {
    fileName := (confField items (bytes "dbfile")).stringValue
    ip := (confField items (bytes "ip")).stringValue
    port := port.toInt16
    compress := (confField items (bytes "compress")).boolValue
    enableAof := (confField items (bytes "aof")).boolValue
    everyNSec := sizeOfInt sec
    saveNTimes := sizeOfInt time
    memSizeMbytes := sizeOfInt memsiz
    cpuNum := cpu
    password := (confField items (bytes "password")).stringValue
    aofMode := (confField items (bytes "aof_mode")).stringValue }

section

variable (parse : Bytes → Option Json)

/-- `LoadConf` on the contents of `redis-conf.json`, if it can be opened. `parse` is
`json11::Json::parse`, which gives nothing when it sets `err`. -/
def loadConf (file : Option Bytes) : Except Fault RedisConf :=
  match file with
  | none => .ok .zero
  | some content =>
      match parse content with
      | none => .ok .default
      | some json =>
          if confFields.all fun field => (json.objectItems.lookup field).isSome then
            readConf json.objectItems
          else .ok .default

/-- `rdb_timer_.after_`, which is set when there is no AOF. -/
def rdbAfter (conf : RedisConf) : Except Fault (Option UInt64) :=
  if conf.enableAof then .ok none
  else if conf.saveNTimes = 0 then .error .undefined
  else .ok (some (conf.everyNSec * 1000000 / conf.saveNTimes))

/-- The file is there. Unless it is malformed or lacks a field, its numbers are values of
`int`, and it turns AOF on or has a time that is not cut down to 0. -/
def Startable : Option Bytes → Prop
  | none => False
  | some content =>
      ∀ json ∈ parse content, (∀ field ∈ confFields, (json.objectItems.lookup field).isSome) →
        (∀ field ∈ intFields, ∃ value ∈ (confField json.objectItems field).truncated,
          Json.IsInt value) ∧
        ((confField json.objectItems (bytes "aof")).boolValue = true ∨
          (confField json.objectItems (bytes "time")).truncated ≠ some 0)

end

theorem intValue_eq_ok_iff {json : Json} {result : Int32} :
    json.intValue = .ok result ↔
      ∃ value ∈ json.truncated, Json.IsInt value ∧ Int32.ofInt value = result := by
  unfold Json.intValue
  cases json.truncated with
  | none => simp
  | some value =>
      simp only [Option.mem_some_iff, exists_eq_left']
      split
      · rename_i fits
        simp [fits]
      · rename_i large
        simp [large]

theorem intValue_returns_iff {json : Json} :
    (∃ result, json.intValue = .ok result) ↔ ∃ value ∈ json.truncated, Json.IsInt value := by
  simp only [intValue_eq_ok_iff]
  constructor
  · rintro ⟨_, value, truncates, fits, _⟩
    exact ⟨value, truncates, fits⟩
  · rintro ⟨value, truncates, fits⟩
    exact ⟨_, value, truncates, fits, rfl⟩

/-- A full file is read when all its numbers are values of `int`. -/
theorem readConf_returns_iff (items : List (Bytes × Json)) :
    (∃ conf, readConf items = .ok conf) ↔
      ∀ field ∈ intFields, ∃ value ∈ (confField items field).truncated, Json.IsInt value := by
  simp only [← intValue_returns_iff, intFields, List.map_cons, List.map_nil, List.forall_mem_cons]
  constructor
  · rintro ⟨conf, read⟩
    obtain ⟨port, portRead, read⟩ := bind_eq_ok.mp read
    obtain ⟨sec, secRead, read⟩ := bind_eq_ok.mp read
    obtain ⟨time, timeRead, read⟩ := bind_eq_ok.mp read
    obtain ⟨memsiz, memsizRead, read⟩ := bind_eq_ok.mp read
    obtain ⟨cpu, cpuRead, _⟩ := bind_eq_ok.mp read
    exact ⟨⟨port, portRead⟩, ⟨sec, secRead⟩, ⟨time, timeRead⟩, ⟨memsiz, memsizRead⟩,
      ⟨cpu, cpuRead⟩, fun _ none => absurd none List.not_mem_nil⟩
  · rintro ⟨⟨port, portRead⟩, ⟨sec, secRead⟩, ⟨time, timeRead⟩, ⟨memsiz, memsizRead⟩,
      ⟨cpu, cpuRead⟩, _⟩
    simp only [readConf, portRead, secRead, timeRead, memsizRead, cpuRead, ok_bind, pure_eq_ok]
    exact ⟨_, rfl⟩

theorem sizeOfInt_eq_zero_iff {value : Int} (fits : Json.IsInt value) :
    sizeOfInt (Int32.ofInt value) = 0 ↔ value = 0 := by
  obtain ⟨low, high⟩ := fits
  have exact : (Int32.ofInt value).toInt = value :=
    Int32.toInt_ofInt_of_le low high
  rw [sizeOfInt, exact, ← UInt64.toNat_inj, UInt64.ofInt, UInt64.toNat_ofNat', UInt64.toNat_zero]
  omega

/-- What of a full file decides about the division. -/
theorem readConf_divisor {items : List (Bytes × Json)} {conf : RedisConf}
    (read : readConf items = .ok conf) :
    conf.enableAof = (confField items (bytes "aof")).boolValue ∧
      (conf.saveNTimes = 0 ↔ (confField items (bytes "time")).truncated = some 0) := by
  obtain ⟨port, _, read⟩ := bind_eq_ok.mp read
  obtain ⟨sec, _, read⟩ := bind_eq_ok.mp read
  obtain ⟨time, timeRead, read⟩ := bind_eq_ok.mp read
  obtain ⟨memsiz, _, read⟩ := bind_eq_ok.mp read
  obtain ⟨cpu, _, read⟩ := bind_eq_ok.mp read
  cases read
  obtain ⟨value, truncates, fits, rfl⟩ := intValue_eq_ok_iff.mp timeRead
  rw [Option.mem_def.mp truncates, Option.some_inj]
  exact ⟨rfl, sizeOfInt_eq_zero_iff fits⟩

/-- When a full file is read and leads to no division by zero. -/
theorem readConf_divides_iff (items : List (Bytes × Json)) :
    (∃ conf, readConf items = .ok conf ∧ (conf.enableAof = true ∨ conf.saveNTimes ≠ 0)) ↔
      (∀ field ∈ intFields, ∃ value ∈ (confField items field).truncated, Json.IsInt value) ∧
        ((confField items (bytes "aof")).boolValue = true ∨
          (confField items (bytes "time")).truncated ≠ some 0) := by
  rw [← readConf_returns_iff]
  constructor
  · rintro ⟨conf, read, right⟩
    obtain ⟨aof, divisor⟩ := readConf_divisor read
    rw [aof, Ne, divisor] at right
    exact ⟨⟨conf, read⟩, right⟩
  · rintro ⟨⟨conf, read⟩, right⟩
    obtain ⟨aof, divisor⟩ := readConf_divisor read
    refine ⟨conf, read, ?_⟩
    rw [aof, Ne, divisor]
    exact right

theorem rdbAfter_returns_iff (conf : RedisConf) :
    (∃ after, rdbAfter conf = .ok after) ↔ conf.enableAof = true ∨ conf.saveNTimes ≠ 0 := by
  unfold rdbAfter
  split
  · rename_i aof
    exact iff_of_true ⟨none, rfl⟩ (Or.inl aof)
  · rename_i aof
    split
    · rename_i zero
      simp [aof, zero]
    · rename_i nonzero
      exact iff_of_true ⟨_, rfl⟩ (Or.inr nonzero)

/-- The configuration loads, and the interval of the saves is computed without a division
by zero, exactly when the file is startable. -/
theorem rdbAfter_defined_iff (parse : Bytes → Option Json) (file : Option Bytes) :
    (∃ conf after, loadConf parse file = .ok conf ∧ rdbAfter conf = .ok after) ↔
      Startable parse file := by
  have split : (∃ conf after, loadConf parse file = .ok conf ∧ rdbAfter conf = .ok after) ↔
      ∃ conf, loadConf parse file = .ok conf ∧ (conf.enableAof = true ∨ conf.saveNTimes ≠ 0) := by
    simp only [← rdbAfter_returns_iff, exists_and_left]
  have started : RedisConf.default.enableAof = true ∨ RedisConf.default.saveNTimes ≠ 0 :=
    Or.inr (by decide)
  rw [split]
  cases file with
  | none =>
      refine iff_of_false ?_ id
      rintro ⟨conf, loaded, right⟩
      cases loaded
      revert right
      decide
  | some content =>
      simp only [Startable, loadConf]
      cases parse content with
      | none =>
          refine iff_of_true ⟨_, rfl, started⟩ fun json absent => ?_
          cases absent
      | some json =>
          simp only [Option.mem_some_iff, forall_eq']
          split
          · rename_i full
            rw [readConf_divides_iff]
            exact ⟨fun right _ => right, fun startable => startable (List.all_eq_true.mp full)⟩
          · rename_i lacking
            refine iff_of_true ⟨_, rfl, started⟩ (fun present => absurd ?_ lacking)
            exact List.all_eq_true.mpr present

/-- A complete file, with a time of 0. -/
def timeZero : Json :=
  .object ((bytes "dbfile", .string (bytes "dump.db")) ::
    confFields.map fun field => (field, .number (.int 0)))

/-- Without a file everything is zero, whatever the parser, though the constructor does not come
to the division: opening a dump without a name, it throws. With a time of 0 it divides. -/
theorem no_file_divides_by_zero :
    (RedisConf.zero.enableAof = false ∧ RedisConf.zero.saveNTimes = 0 ∧
      ¬ ∃ parse conf after, loadConf parse none = .ok conf ∧ rdbAfter conf = .ok after) ∧
    ∃ conf, loadConf (fun _ => some timeZero) (some []) = .ok conf ∧
      conf.fileName = bytes "dump.db" ∧ conf.enableAof = false ∧
      rdbAfter conf = .error .undefined := by
  refine ⟨⟨rfl, rfl, ?_⟩, _, rfl, rfl, rfl, rfl⟩
  rintro ⟨parse, conf, after, loaded, computed⟩
  cases loaded
  cases computed

end ForkRedis
