import ForkRedis.Framing
import ForkRedis.Str
import ForkRedis.Lib.Fallible

set_option autoImplicit false

/- From a request to a command: the `JsonTo...` functions and `RequestToCommandExec`. -/
namespace ForkRedis

open Decimal

inductive ServerName where
  | fork
  | endForking
  deriving DecidableEq, Repr

inductive CliName where
  | select
  | create
  | showAll
  deriving DecidableEq, Repr

inductive DbName where
  | del
  | expire
  | when
  | rewrite
  deriving DecidableEq, Repr

inductive StrName where
  | set
  | get
  | append
  | len
  | incrBy
  | decrBy
  deriving DecidableEq, Repr

inductive ListName where
  | lpushf
  | lpushb
  | lpopf
  | lpopb
  | lindex
  | lrem
  | ltrim
  | llen
  | lset
  deriving DecidableEq, Repr

inductive HashName where
  | hget
  | hset
  | hexist
  | hdel
  | hlen
  | hgetall
  | hincrby
  | hdecrby
  deriving DecidableEq, Repr

inductive SetName where
  | sadd
  | scard
  | sismember
  | smembers
  | srandmember
  | spop
  | srem
  | sinter
  | sdiff
  deriving DecidableEq, Repr

inductive ZSetName where
  | zadd
  | zcard
  | zcount
  | zlexcount
  | zincrby
  | zdecrby
  | zrem
  | zrange
  | zrangebyscore
  | zrangebylex
  | zrank
  | zscore
  deriving DecidableEq, Repr

/-- The eight families of commands, each with its names. -/
inductive CommandName where
  | server (name : ServerName)
  | cli (name : CliName)
  | db (name : DbName)
  | str (name : StrName)
  | list (name : ListName)
  | hash (name : HashName)
  | set (name : SetName)
  | zset (name : ZSetName)
  deriving DecidableEq, Repr

/-- `isServerCommand` to `isHashCommand`. -/
def commandTable : List (Bytes × CommandName) :=
  [(bytes "FORK", .server .fork), (bytes "ENDFORKING", .server .endForking),
    (bytes "SELECT", .cli .select), (bytes "CREATE", .cli .create), (bytes "SHOW", .cli .showAll),
    (bytes "DEL", .db .del), (bytes "EXPIRE", .db .expire), (bytes "WHEN", .db .when),
    (bytes "REWRITE", .db .rewrite),
    (bytes "SET", .str .set), (bytes "GET", .str .get), (bytes "APPEND", .str .append),
    (bytes "LEN", .str .len), (bytes "INCRBY", .str .incrBy), (bytes "DECRBY", .str .decrBy),
    (bytes "LPUSHF", .list .lpushf), (bytes "LPUSHB", .list .lpushb),
    (bytes "LPOPF", .list .lpopf), (bytes "LPOPB", .list .lpopb),
    (bytes "LINDEX", .list .lindex), (bytes "LREM", .list .lrem), (bytes "LTRIM", .list .ltrim),
    (bytes "LLEN", .list .llen), (bytes "LSET", .list .lset),
    (bytes "SADD", .set .sadd), (bytes "SCARD", .set .scard),
    (bytes "SISMEMBER", .set .sismember), (bytes "SMEMBERS", .set .smembers),
    (bytes "SRANDMEMBER", .set .srandmember), (bytes "SPOP", .set .spop),
    (bytes "SREM", .set .srem), (bytes "SINTER", .set .sinter), (bytes "SDIFF", .set .sdiff),
    (bytes "ZADD", .zset .zadd), (bytes "ZCARD", .zset .zcard), (bytes "ZCOUNT", .zset .zcount),
    (bytes "ZLEXCOUNT", .zset .zlexcount), (bytes "ZINCRBY", .zset .zincrby),
    (bytes "ZDECRBY", .zset .zdecrby), (bytes "ZREM", .zset .zrem),
    (bytes "ZRANGE", .zset .zrange), (bytes "ZRANGEBYSCORE", .zset .zrangebyscore),
    (bytes "ZRANGEBYLEX", .zset .zrangebylex), (bytes "ZRANK", .zset .zrank),
    (bytes "ZSCORE", .zset .zscore),
    (bytes "HGET", .hash .hget), (bytes "HSET", .hash .hset), (bytes "HEXIST", .hash .hexist),
    (bytes "HDEL", .hash .hdel), (bytes "HLEN", .hash .hlen), (bytes "HGETALL", .hash .hgetall),
    (bytes "HINCRBY", .hash .hincrby), (bytes "HDECRBY", .hash .hdecrby)]

def commandName (cmd : Bytes) : Option CommandName := commandTable.lookup cmd

/-- A command on one key with at most one argument: `StrCommand` and `DbCommand`. -/
structure KeyCommand (Name : Type) where
  valid : Bool
  command : Name
  objName : Bytes
  value : Option Bytes
  deriving DecidableEq, Repr

/-- A command on one key with a vector of arguments: the four containers' commands. -/
structure ValuesCommand (Name : Type) where
  valid : Bool
  command : Name
  objName : Bytes
  values : List Str
  deriving DecidableEq

abbrev StrCommand := KeyCommand StrName
abbrev DbCommand := KeyCommand DbName
abbrev ListCommand := ValuesCommand ListName
abbrev HashCommand := ValuesCommand HashName
abbrev SetCommand := ValuesCommand SetName
abbrev ZSetCommand := ValuesCommand ZSetName

structure CliCommand where
  valid : Bool
  command : CliName
  objName : Bytes
  pswd : Option Bytes
  deriving DecidableEq, Repr

/-- `ServerCommand::Exec` does not look at `valid_`. `command_` stays empty when the
request is too short, and `port_` unassigned unless an address was found. -/
structure ServerCommand where
  command : Option ServerName
  ip : Bytes
  port : Option Int16
  deriving DecidableEq, Repr

inductive Command where
  | server (c : ServerCommand)
  | cli (c : CliCommand)
  | db (c : DbCommand)
  | str (c : StrCommand)
  | list (c : ListCommand)
  | hash (c : HashCommand)
  | set (c : SetCommand)
  | zset (c : ZSetCommand)
  deriving DecidableEq

/-- The name of the object, when the request has at least two elements and no element
is empty. -/
def jsonToBase (source : Request) : Option Bytes :=
  if source.length < 2 then none
  else if source.any List.isEmpty then none
  else source[1]?

/-- `bare` commands need no argument; the others take the third element. -/
def jsonToKeyCommand {Name : Type} (command : Name) (bare : Bool) (source : Request) :
    KeyCommand Name :=
  match jsonToBase source with
  | none => ⟨false, command, [], none⟩
  | some objName =>
      if bare then ⟨true, command, objName, none⟩
      else if source.length < 3 then ⟨false, command, objName, none⟩
      else ⟨true, command, objName, source[2]?⟩

/-- `arity` is what a family asks of the number of elements beyond three. -/
def jsonToValuesCommand {Name : Type} (command : Name) (bare : Bool) (arity : Nat → Bool)
    (source : Request) : ValuesCommand Name :=
  match jsonToBase source with
  | none => ⟨false, command, [], []⟩
  | some objName =>
      if bare then ⟨true, command, objName, []⟩
      else if source.length < 3 then ⟨false, command, objName, []⟩
      else if !arity source.length then ⟨false, command, objName, []⟩
      else ⟨true, command, objName, (source.drop 2).map Str.ofData⟩

/-- The key and the arguments of a request that a family accepts: no element is empty,
and there are as many arguments as it asks for. -/
def accepted (bare : Bool) (arity : Nat → Bool) : Request → Option (Bytes × List Bytes)
  | first :: key :: args =>
      if (first :: key :: args).any List.isEmpty then none
      else if bare || (!args.isEmpty && arity (args.length + 2)) then some (key, args)
      else none
  | _ => none

theorem jsonToBase_cons (first key : Bytes) (args : List Bytes) :
    jsonToBase (first :: key :: args) =
      if (first :: key :: args).any List.isEmpty then none else some key := by
  have enough : ¬ (first :: key :: args).length < 2 := by
    simp only [List.length_cons]
    omega
  rw [jsonToBase, if_neg enough]
  rfl

theorem jsonToBase_short {source : Request} (short : source.length < 2) :
    jsonToBase source = none := by
  rw [jsonToBase, if_pos short]

theorem jsonToKeyCommand_command {Name : Type} (command : Name) (bare : Bool) (source : Request) :
    (jsonToKeyCommand command bare source).command = command := by
  rw [jsonToKeyCommand]
  split
  · rfl
  · split
    · rfl
    · split <;> rfl

theorem jsonToValuesCommand_command {Name : Type} (command : Name) (bare : Bool)
    (arity : Nat → Bool) (source : Request) :
    (jsonToValuesCommand command bare arity source).command = command := by
  rw [jsonToValuesCommand]
  split
  · rfl
  · split
    · rfl
    · split
      · rfl
      · split <;> rfl

theorem jsonToKeyCommand_eq {Name : Type} (command : Name) (bare : Bool) (source : Request) :
    match accepted bare (fun _ => true) source with
    | some (key, args) => jsonToKeyCommand command bare source =
        ⟨true, command, key, if bare then none else args.head?⟩
    | none => (jsonToKeyCommand command bare source).valid = false := by
  match source with
  | [] | [_] =>
      rw [jsonToKeyCommand, jsonToBase_short (by simp)]
      rfl
  | first :: key :: args =>
      rw [accepted, jsonToKeyCommand, jsonToBase_cons]
      by_cases empty : (first :: key :: args).any List.isEmpty = true
      · rw [if_pos empty, if_pos empty]
      · rw [if_neg empty, if_neg empty]
        cases bare with
        | true => rfl
        | false =>
            cases args with
            | nil => rfl
            | cons arg rest => rfl

theorem jsonToValuesCommand_eq {Name : Type} (command : Name) (bare : Bool) (arity : Nat → Bool)
    (source : Request) :
    match accepted bare arity source with
    | some (key, args) => jsonToValuesCommand command bare arity source =
        ⟨true, command, key, if bare then [] else args.map Str.ofData⟩
    | none => (jsonToValuesCommand command bare arity source).valid = false := by
  match source with
  | [] | [_] =>
      rw [jsonToValuesCommand, jsonToBase_short (by simp)]
      rfl
  | first :: key :: args =>
      rw [accepted, jsonToValuesCommand, jsonToBase_cons]
      by_cases empty : (first :: key :: args).any List.isEmpty = true
      · rw [if_pos empty, if_pos empty]
      · rw [if_neg empty, if_neg empty]
        cases bare with
        | true => rfl
        | false =>
            cases args with
            | nil => rfl
            | cons arg rest =>
                have size : (first :: key :: arg :: rest).length = (arg :: rest).length + 2 := rfl
                simp only [Bool.false_eq_true, ↓reduceIte, size]
                cases arity ((arg :: rest).length + 2) with
                | true => rfl
                | false => rfl

namespace StrName

def bare : StrName → Bool
  | .get | .len => true
  | _ => false

end StrName

namespace ListName

def bare : ListName → Bool
  | .lpopf | .lpopb | .llen => true
  | _ => false

def arity (command : ListName) (size : Nat) : Bool :=
  match command with
  | .lrem | .lset | .ltrim => 4 ≤ size
  | _ => true

end ListName

namespace SetName

def bare : SetName → Bool
  | .scard | .srandmember | .smembers | .spop => true
  | _ => false

end SetName

namespace ZSetName

def bare : ZSetName → Bool
  | .zcard => true
  | _ => false

def arity (command : ZSetName) (size : Nat) : Bool :=
  match command with
  | .zscore | .zrank => true
  | _ => size % 2 == 0

end ZSetName

namespace HashName

def bare : HashName → Bool
  | .hlen | .hgetall => true
  | _ => false

def arity (command : HashName) (size : Nat) : Bool :=
  match command with
  | .hset | .hincrby | .hdecrby => size % 2 == 0
  | _ => true

end HashName

namespace DbName

def bare : DbName → Bool
  | .del | .when => true
  | _ => false

end DbName

def jsonToStrCommand (command : StrName) : Request → StrCommand :=
  jsonToKeyCommand command command.bare

def jsonToListCommand (command : ListName) : Request → ListCommand :=
  jsonToValuesCommand command command.bare command.arity

def jsonToSetCommand (command : SetName) : Request → SetCommand :=
  jsonToValuesCommand command command.bare fun _ => true

def jsonToZSetCommand (command : ZSetName) : Request → ZSetCommand :=
  jsonToValuesCommand command command.bare command.arity

def jsonToHashCommand (command : HashName) : Request → HashCommand :=
  jsonToValuesCommand command command.bare command.arity

/-- `REWRITE` is accepted whatever else the request holds. -/
def jsonToDbCommand (command : DbName) (source : Request) : DbCommand :=
  if command = .rewrite then ⟨true, .rewrite, [], none⟩
  else jsonToKeyCommand command command.bare source

/-- No element is checked for being empty, and a password is taken only from a request
of exactly three elements. -/
def jsonToCliCommand (command : CliName) (source : Request) : CliCommand :=
  if command = .create ∨ command = .showAll then ⟨true, command, [], none⟩
  else if source.length < 2 then ⟨false, command, [], none⟩
  else ⟨true, command, source.getD 1 [], if source.length = 3 then source[2]? else none⟩

theorem jsonToCliCommand_command (name : CliName) (source : Request) :
    (jsonToCliCommand name source).command = name := by
  rw [jsonToCliCommand]
  split
  · rfl
  · split <;> rfl

/-- The byte `':'`. -/
def colon : UInt8 := 58

def jsonToServerCommand (command : ServerName) (source : Request) :
    Except Fault ServerCommand :=
  if command = .endForking then .ok ⟨some .endForking, [], none⟩
  else
    match jsonToBase source with
    | none => .ok ⟨none, [], none⟩
    | some info =>
        if colon ∉ info then .ok ⟨some .fork, [], none⟩
        else do
          let port ← stoi (info.drop (info.idxOf colon + 1))
          return ⟨some .fork, info.take (info.idxOf colon), some port.toInt16⟩

/-- `std::toupper` in the "C" locale. -/
def toUpper (c : UInt8) : UInt8 := if 97 ≤ c ∧ c ≤ 122 then c - 32 else c

/-- The command of a family, from a request whose first element is its name. -/
def toCommand (req : Request) : CommandName → Except Fault Command
  | .server name => do
      let c ← jsonToServerCommand name req
      return .server c
  | .cli name => .ok (.cli (jsonToCliCommand name req))
  | .db name => .ok (.db (jsonToDbCommand name req))
  | .str name => .ok (.str (jsonToStrCommand name req))
  | .list name => .ok (.list (jsonToListCommand name req))
  | .hash name => .ok (.hash (jsonToHashCommand name req))
  | .set name => .ok (.set (jsonToSetCommand name req))
  | .zset name => .ok (.zset (jsonToZSetCommand name req))

/-- `none` is the null pointer: the request names no command. -/
def requestToCommandExec : Request → Except Fault (Option Command)
  | [] => .ok none
  | first :: rest =>
      match commandName (first.map toUpper) with
      | none => .ok none
      | some name => do
          let command ← toCommand (first.map toUpper :: rest) name
          return some command

/-- How a request becomes a command. -/
theorem requestToCommandExec_some {request : Request} {command : Command}
    (parsed : requestToCommandExec request = .ok (some command)) :
    ∃ first rest name, request = first :: rest ∧ commandName (first.map toUpper) = some name ∧
      toCommand (first.map toUpper :: rest) name = .ok command := by
  cases request with
  | nil => cases parsed
  | cons first rest =>
      rw [requestToCommandExec] at parsed
      split at parsed
      · cases parsed
      · rename_i name named
        obtain ⟨made, translated, returned⟩ := Fallible.bind_eq_ok.mp parsed
        cases returned
        exact ⟨first, rest, name, rfl, named, translated⟩

end ForkRedis
