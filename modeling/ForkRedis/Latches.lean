import ForkRedis.Lib.Guards
import Mathlib.Data.Prod.Lex

set_option autoImplicit false

/- The latches of the server: for every method that the threads call, the guards it holds
and the shared fields it accesses under them. Elements that a method compares, copies or
moves are given by the addresses of their `Str`. A `Str` that only one thread has, such as
an argument or a result, is left out. -/
namespace ForkRedis.Latches

open Machine Guards

inductive Latch where
  | cliMtx
  | server
  | client (client : Nat)
  | dbMtx
  | db (db : Nat)
  | entry (entry : Nat)
  /-- `Object::latch_` of the value under a key, by its address. -/
  | object (object : Nat)
  /-- `Object::latch_` of a `Str` in a container or in the table of a database. -/
  | str (str : Nat)
  | aofCache (db : Nat)
  | cmdQue
  | tmrQue
  | aofMtx
  | file
  | numbers
  | password
  deriving DecidableEq

inductive Field where
  | cliQue
  | clientMap
  | database (client : Nat)
  | recvBuffer (client : Nat)
  | sendBuffer (client : Nat)
  | databases
  | number (db : Nat)
  | keyValueMap (db : Nat)
  | aofCache (db : Nat)
  | keyAndValue (entry : Nat)
  | expireTimeUs (entry : Nat)
  /-- What an object holds, without the bytes of its elements. -/
  | contents (object : Nat)
  /-- The bytes of an element, or of the key of a hash field. -/
  | element (object str : Nat)
  /-- The bytes of the value of a hash field. -/
  | fieldValue (object str : Nat)
  | cmdQue
  | tmrQue
  | aofTimer
  | file
  | numHash
  | password
  deriving DecidableEq

abbrev Code := Block Latch Field

def read (field : Field) : Code := .access field .shared .done

def write (field : Field) : Code := .access field .exclusive .done

/-- `ReadGuard` to the end of its scope. -/
def readGuard (latch : Latch) (body : List Code) : Code :=
  .guarded latch .shared (.sequence body) .done

/-- `WriteGuard` or `std::lock_guard` to the end of its scope. -/
def writeGuard (latch : Latch) (body : List Code) : Code :=
  .guarded latch .exclusive (.sequence body) .done

/-- The bytes of some `Str` are accessed, each under its own `ReadGuard`. -/
def latched (mode : Mode) (field : Nat → Field) (strs : List Nat) : Code :=
  .sequence (strs.map fun str => readGuard (.str str) [.access (field str) mode .done])

/-- The copy of a `Str`, its bytes, its hash or its encoding. -/
def copied : (Nat → Field) → List Nat → Code := latched .shared

/-- A move out of a `Str` holds its latch shared all the same. -/
def moved : (Nat → Field) → List Nat → Code := latched .exclusive

/-- `operator==` and `operator<`: the guards are temporaries, which are gone before the
bytes are compared. -/
def compared (field : Nat → Field) (strs : List Nat) : Code :=
  .sequence (strs.map fun str => .sequence [readGuard (.str str) [], read (field str)])

/- The objects. A `write` stands for reading and writing under the same guard. -/

inductive StrMethod where
  | getRaw
  | set
  | append
  | incrBy
  | decrBy
  | len
  | empty
  | encodeValue
  | fork

def StrMethod.code (object : Nat) : StrMethod → Code
  | .getRaw | .len | .empty | .encodeValue | .fork =>
      readGuard (.object object) [read (.contents object)]
  | .set | .append | .incrBy | .decrBy =>
      writeGuard (.object object) [write (.contents object)]

inductive ListMethod where
  | pushFront
  | pushBack
  | popFront (out : Option Nat)
  | popBack (out : Option Nat)
  | index (str : Option Nat)
  | len
  | rem (strs : List Nat)
  | trim
  | set (str : Option Nat)
  | encodeValue (strs : List Nat)
  | fork (strs : List Nat)

def ListMethod.code (object : Nat) : ListMethod → Code
  | .pushFront | .pushBack | .trim => writeGuard (.object object) [write (.contents object)]
  | .popFront out | .popBack out =>
      writeGuard (.object object) [moved (.element object) out.toList, write (.contents object)]
  | .index str =>
      readGuard (.object object) [read (.contents object), copied (.element object) str.toList]
  | .len => readGuard (.object object) [read (.contents object)]
  | .rem strs =>
      writeGuard (.object object) [compared (.element object) strs, write (.contents object)]
  | .set str =>
      -- the assignment holds the latch of what is assigned, not of the element
      writeGuard (.object object)
        [read (.contents object), .sequence (str.toList.map fun str => write (.element object str))]
  | .encodeValue strs | .fork strs =>
      readGuard (.object object) [read (.contents object), copied (.element object) strs]

inductive SetMethod where
  | add (strs : List Nat)
  | card
  | isMember (strs : List Nat)
  | members (strs : List Nat)
  | randMember (str : Option Nat)
  | pop (out first : Option Nat)
  | rem (strs : List Nat)
  | diff (other : Nat) (own others : List Nat)
  | inter (other : Nat) (own others : List Nat)
  | encodeValue (strs : List Nat)
  | fork (strs : List Nat)

/-- The loop over the elements of a set that looks each up in another one. -/
def lookedUp (object other : Nat) (own others : List Nat) : List Code :=
  [read (.contents object), read (.contents other), copied (.element object) own,
    compared (.element other) others, compared (.element object) own]

/-- Two sets are latched in the order of their addresses. -/
def bothLatched (object other : Nat) (body same : List Code) : Code :=
  if object < other then readGuard (.object object) [readGuard (.object other) body]
  else if other < object then readGuard (.object other) [readGuard (.object object) body]
  else .sequence same

def SetMethod.code (object : Nat) : SetMethod → Code
  | .add strs | .rem strs =>
      writeGuard (.object object) [compared (.element object) strs, write (.contents object)]
  | .card => readGuard (.object object) [read (.contents object)]
  | .isMember strs =>
      readGuard (.object object) [read (.contents object), compared (.element object) strs]
  | .members strs | .encodeValue strs | .fork strs =>
      readGuard (.object object) [read (.contents object), copied (.element object) strs]
  | .randMember str =>
      readGuard (.object object) [read (.contents object), copied (.element object) str.toList]
  | .pop out first =>
      writeGuard (.object object) [copied (.element object) out.toList, write (.contents object),
        copied (.element object) first.toList]
  | .diff other own others => bothLatched object other (lookedUp object other own others) []
  | .inter other own others =>
      bothLatched object other (lookedUp object other own others)
        [readGuard (.object object) [read (.contents object), copied (.element object) own]]

inductive HashMethod where
  | get (keys : List Nat) (value : Option Nat)
  | exist (keys : List Nat)
  | del (keys : List Nat)
  | len
  | getAll (keys values : List Nat)
  | set (keys : List Nat) (value : Option Nat)
  | incrBy (keys : List Nat) (value : Option Nat)
  | decrBy (keys : List Nat) (value : Option Nat)
  | encodeValue (keys values : List Nat)
  | fork (keys values : List Nat)

def HashMethod.code (object : Nat) : HashMethod → Code
  | .get keys value =>
      readGuard (.object object) [read (.contents object), compared (.element object) keys,
        copied (.fieldValue object) value.toList]
  | .exist keys =>
      readGuard (.object object) [read (.contents object), compared (.element object) keys]
  | .del keys =>
      writeGuard (.object object) [compared (.element object) keys, write (.contents object)]
  | .len => readGuard (.object object) [read (.contents object)]
  | .set keys value =>
      writeGuard (.object object) [compared (.element object) keys,
        .sequence (value.toList.map fun str => write (.fieldValue object str)),
        write (.contents object)]
  | .incrBy keys value | .decrBy keys value =>
      -- the table is latched for reading only, the value for writing
      readGuard (.object object) [read (.contents object), compared (.element object) keys,
        .sequence (value.toList.map fun str =>
          writeGuard (.str str) [write (.fieldValue object str)])]
  | .getAll keys values | .encodeValue keys values | .fork keys values =>
      readGuard (.object object) [read (.contents object), copied (.element object) keys,
        copied (.fieldValue object) values]

inductive ZSetMethod where
  | add (strs : List Nat)
  | card
  | rem (strs : List Nat)
  | count
  | lexCount (strs shown : List Nat)
  | incrBy (strs : List Nat)
  | decrBy (strs : List Nat)
  | range (strs : List Nat)
  | rangeByScore (strs : List Nat)
  | rangeByLex (strs found : List Nat)
  | rank (strs : List Nat)
  | score (strs : List Nat)
  | encodeValue (strs : List Nat)
  | fork (strs : List Nat)

def ZSetMethod.code (object : Nat) : ZSetMethod → Code
  | .add strs | .rem strs | .incrBy strs | .decrBy strs =>
      writeGuard (.object object) [compared (.element object) strs, write (.contents object)]
  | .card | .count => readGuard (.object object) [read (.contents object)]
  | .rank strs | .score strs =>
      readGuard (.object object) [read (.contents object), compared (.element object) strs]
  | .range strs | .rangeByScore strs | .encodeValue strs | .fork strs =>
      readGuard (.object object) [read (.contents object), copied (.element object) strs]
  | .lexCount strs found | .rangeByLex strs found =>
      readGuard (.object object) [read (.contents object), compared (.element object) strs,
        copied (.element object) found]

/-- A method of the object at an address. -/
inductive ObjectMethod where
  | str (method : StrMethod)
  | list (method : ListMethod)
  | set (method : SetMethod)
  | hash (method : HashMethod)
  | zset (method : ZSetMethod)

def ObjectMethod.code (object : Nat) : ObjectMethod → Code
  | .str method => method.code object
  | .list method => method.code object
  | .set method => method.code object
  | .hash method => method.code object
  | .zset method => method.code object

/-- An object by the `Str` that are in it. -/
inductive Layout where
  | str
  | list (strs : List Nat)
  | set (strs : List Nat)
  | hash (keys values : List Nat)
  | zset (strs : List Nat)

def Layout.encodeValue : Layout → ObjectMethod
  | .str => .str .encodeValue
  | .list strs => .list (.encodeValue strs)
  | .set strs => .set (.encodeValue strs)
  | .hash keys values => .hash (.encodeValue keys values)
  | .zset strs => .zset (.encodeValue strs)

def Layout.fork : Layout → ObjectMethod
  | .str => .str .fork
  | .list strs => .list (.fork strs)
  | .set strs => .set (.fork strs)
  | .hash keys values => .hash (.fork keys values)
  | .zset strs => .zset (.fork strs)

/-- A `KeyValue`, with the `Str` of its key and the address and layout of its value. -/
structure Entry where
  entry : Nat
  key : Nat
  object : Nat
  layout : Layout

/- `KeyValue`. `MakeExpireAt` and `GetExpire` take no latch. -/

def getValue (entry : Nat) : Code := readGuard (.entry entry) [read (.keyAndValue entry)]

def makeExpireAt (entry : Nat) : Code := write (.expireTimeUs entry)

def getExpire (entry : Nat) : Code := read (.expireTimeUs entry)

def Entry.encode (e : Entry) : Code :=
  readGuard (.entry e.entry) [getExpire e.entry, copied (fun _ => .keyAndValue e.entry) [e.key],
    e.layout.encodeValue.code e.object]

def Entry.fork (e : Entry) : Code :=
  readGuard (.entry e.entry) [copied (fun _ => .keyAndValue e.entry) [e.key],
    e.layout.fork.code e.object]

/- `Db`. -/

def getPassword : Code := writeGuard .password [read .password]

def number (db : Nat) : Code := readGuard (.db db) [read (.number db)]

/-- The lookup of a key: the keys of its bucket are compared. -/
def lookedFor (db : Nat) (keys : List Nat) : Code :=
  .sequence [read (.keyValueMap db), compared (fun _ => .keyValueMap db) keys]

/-- `NewStr`, `NewList`, `NewSet`, `NewZSet`, `NewHash`, and `Del`. -/
def changeKeys (db : Nat) (keys : List Nat) : Code :=
  writeGuard (.db db) [lookedFor db keys, write (.keyValueMap db)]

def get (db : Nat) (keys : List Nat) (found : Option Nat) : Code :=
  readGuard (.db db) [lookedFor db keys, .sequence (found.toList.map getValue)]

def expireAt (db : Nat) (keys : List Nat) (found : Option Nat) : Code :=
  readGuard (.db db) [lookedFor db keys, .sequence (found.toList.map makeExpireAt)]

def whenExpire (db : Nat) (keys : List Nat) (found : Option Nat) : Code :=
  readGuard (.db db) [lookedFor db keys, .sequence (found.toList.map getExpire)]

def save (db : Nat) (entries : List Entry) : Code :=
  readGuard (.db db) [read (.keyValueMap db), read (.number db),
    .sequence (entries.map Entry.encode)]

/-- `Fork` reads the number without the latch. -/
def fork (db : Nat) (entries : List Entry) : Code :=
  .sequence [read (.number db), getPassword,
    readGuard (.db db) [read (.keyValueMap db), .sequence (entries.map Entry.fork)]]

def appendAof (db : Nat) : Code := writeGuard (.aofCache db) [write (.aofCache db)]

def exportAof (db : Nat) : Code :=
  .sequence [read (.number db), getPassword, writeGuard (.aofCache db) [write (.aofCache db)]]

/- `MainLoop`. -/

/-- `Db::Db`, in either form. -/
def newDb : Code := writeGuard .numbers [write .numHash]

def databaseSave (dbs : List (Nat × List Entry)) : Code :=
  readGuard .dbMtx [read .databases, .sequence (dbs.map fun db => save db.1 db.2)]

def databaseAppend (dbs : List Nat) : Code :=
  readGuard .dbMtx [read .databases, .sequence (dbs.map exportAof)]

def databaseForkAll (dbs : List (Nat × List Entry)) : Code :=
  readGuard .dbMtx [read .databases, .sequence (dbs.map fun db => fork db.1 db.2)]

/-- `GetDB` and `ShowDB`. -/
def numbersOf (dbs : List Nat) : Code :=
  readGuard .dbMtx [read .databases, .sequence (dbs.map number)]

def suGetDb (dbs : List Nat) (creates : Bool) : Code :=
  writeGuard .dbMtx [read .databases, .sequence (dbs.map number),
    .sequence (if creates then [newDb, write .databases] else [])]

def createDb (db : Option Nat) : Code :=
  writeGuard .dbMtx [read .databases,
    .sequence (db.toList.map fun db => .sequence [newDb, number db, write .databases])]

/-- The first database, for a client that has none yet. -/
def chooseDb : Code := writeGuard .dbMtx [read .databases]

def getAofTimer : Code := writeGuard .aofMtx [read .aofTimer]

/-- `TimerQue::Push` and `TimerQue::BlockPop`. -/
def changeTimers : Code := writeGuard .tmrQue [write .tmrQue]

/-- `CommandQue::Push` and `CommandQue::BlockPop`. -/
def changeCommands : Code := writeGuard .cmdQue [write .cmdQue]

/-- `FileManager::Truncate` and `FileManager::Write`. -/
def changeFile : Code := writeGuard .file [write .file]

/- `ClientInfo` and `Server`. -/

def getFd (client : Nat) : Code := readGuard (.client client) []

/-- `EnableRead` and `EnableSend`. The server asks the client for its descriptor twice. -/
def enable (client : Nat) : Code :=
  .sequence [readGuard (.client client) [], getFd client, getFd client]

def getDb (client : Nat) : Code := readGuard (.client client) [read (.database client)]

def setDb (client : Nat) : Code := writeGuard (.client client) [write (.database client)]

/-- `Read` and `ExportMessages`. -/
def changeRecvBuffer (client : Nat) : Code :=
  writeGuard (.client client) [write (.recvBuffer client)]

/-- `Send` and `Append`. -/
def changeSendBuffer (client : Nat) : Code :=
  writeGuard (.client client) [write (.sendBuffer client)]

def isSendOut (client : Nat) : Code := readGuard (.client client) [read (.sendBuffer client)]

def logout (client : Nat) : Code :=
  .sequence [getFd client, writeGuard .server [write .clientMap]]

/-- `Wait` asks for the size of the map without the latch. Each event is a connection that
is accepted, or is looked up in the map. -/
def wait (accepts : List Bool) : Code :=
  .sequence [read .clientMap, .sequence (accepts.map fun accept =>
    if accept then writeGuard .server [write .clientMap] else readGuard .server [read .clientMap])]

/-- `ReadCli` and `SendCli`. -/
def throughServer (buffer : Code) : Code := readGuard .server [read .clientMap, buffer]

/-- `Handle` of a client's event. -/
def handleEvent : Code := writeGuard .cliMtx [write .cliQue]

/-- The methods that the command thread, the timer thread and the main thread call while
they hold no latch. -/
inductive Call where
  | object (object : Nat) (method : ObjectMethod)
  | getPassword
  | number (db : Nat)
  | changeKeys (db : Nat) (keys : List Nat)
  | get (db : Nat) (keys : List Nat) (found : Option Nat)
  | expireAt (db : Nat) (keys : List Nat) (found : Option Nat)
  | whenExpire (db : Nat) (keys : List Nat) (found : Option Nat)
  | fork (db : Nat) (entries : List Entry)
  | databaseSave (dbs : List (Nat × List Entry))
  | databaseAppend (dbs : List Nat)
  | databaseForkAll (dbs : List (Nat × List Entry))
  | numbersOf (dbs : List Nat)
  | suGetDb (dbs : List Nat) (creates : Bool)
  | createDb (db : Option Nat)
  | chooseDb
  | getAofTimer
  | changeTimers
  | changeCommands
  | changeFile
  | enable (client : Nat)
  | getDb (client : Nat)
  | setDb (client : Nat)
  | append (client : Nat)
  | logout (client : Nat)
  | wait (accepts : List Bool)
  | readCli (client : Nat)
  | sendCli (client : Nat)
  | handleEvent

def Call.code : Call → Code
  | .object address method => method.code address
  | .getPassword => Latches.getPassword
  | .number db => Latches.number db
  | .changeKeys db keys => Latches.changeKeys db keys
  | .get db keys found => Latches.get db keys found
  | .expireAt db keys found => Latches.expireAt db keys found
  | .whenExpire db keys found => Latches.whenExpire db keys found
  | .fork db entries => Latches.fork db entries
  | .databaseSave dbs => Latches.databaseSave dbs
  | .databaseAppend dbs => Latches.databaseAppend dbs
  | .databaseForkAll dbs => Latches.databaseForkAll dbs
  | .numbersOf dbs => Latches.numbersOf dbs
  | .suGetDb dbs creates => Latches.suGetDb dbs creates
  | .createDb db => Latches.createDb db
  | .chooseDb => Latches.chooseDb
  | .getAofTimer => Latches.getAofTimer
  | .changeTimers => Latches.changeTimers
  | .changeCommands => Latches.changeCommands
  | .changeFile => Latches.changeFile
  | .enable client => Latches.enable client
  | .getDb client => Latches.getDb client
  | .setDb client => Latches.setDb client
  | .append client => changeSendBuffer client
  | .logout client => Latches.logout client
  | .wait accepts => Latches.wait accepts
  | .readCli client => throughServer (changeRecvBuffer client)
  | .sendCli client => throughServer (changeSendBuffer client)
  | .handleEvent => Latches.handleEvent

/-- A request that `ioClient` has read: the database it is logged for, if there is a log,
whether a timer is pushed for it, and whether it is a command. -/
structure Dispatch where
  logged : Option Nat
  timed : Bool
  known : Bool

def Dispatch.code (client : Nat) (dispatch : Dispatch) : Code :=
  .sequence [
    .sequence (dispatch.logged.toList.map fun db => .sequence [Latches.getDb client, appendAof db,
      .sequence (if dispatch.timed then [getAofTimer, changeTimers] else [])]),
    .sequence (if dispatch.known then [changeCommands] else [])]

/-- An event that `ioClient` takes from its queue. -/
inductive IoEvent where
  | gone
  | output (client : Nat) (broken drained : Bool)
  | closed (client : Nat)
  | again (client : Nat)
  | input (client : Nat) (requests : List Dispatch)

def IoEvent.code : IoEvent → Code
  | .gone => write .cliQue
  | .output client broken drained => .sequence [write .cliQue, changeSendBuffer client,
      .sequence (if broken then [Latches.logout client] else []), isSendOut client,
      .sequence (if drained then [Latches.enable client] else [])]
  | .closed client => .sequence [write .cliQue, changeRecvBuffer client, Latches.logout client]
  | .again client => .sequence [write .cliQue, changeRecvBuffer client]
  | .input client requests => .sequence [write .cliQue, changeRecvBuffer client,
      changeRecvBuffer client, .sequence (requests.map (Dispatch.code client))]

/-- What a thread does: a call, or a round of `ioClient`, which holds `cli_mtx_` while it
empties the queue. -/
inductive Work where
  | call (call : Call)
  | ioClient (events : List IoEvent)

def Work.code : Work → Code
  | .call made => made.code
  | .ioClient events => writeGuard .cliMtx (events.map IoEvent.code)

def program (work : List Work) : Code := .sequence (work.map Work.code)

/-- Latches are taken in this order. Of two objects the one at the lower address goes
first. -/
def rank : Latch → Nat ×ₗ Nat
  | .cliMtx => toLex (0, 0)
  | .server => toLex (1, 0)
  | .client _ => toLex (2, 0)
  | .dbMtx => toLex (3, 0)
  | .db _ => toLex (4, 0)
  | .entry _ => toLex (5, 0)
  | .object object => toLex (6, object)
  | .str _ => toLex (7, 0)
  | .aofCache _ | .cmdQue | .tmrQue | .aofMtx | .file | .numbers | .password => toLex (8, 0)

/-- A latch is held, and for writing if the access writes. -/
def Under (latch : Latch) (mode : Mode) (held : List (Latch × Mode)) : Prop :=
  (latch, .exclusive) ∈ held ∨ mode = .shared ∧ (latch, .shared) ∈ held

/-- How each field is accessed. No thread writes a database's number or the timer of the log
once the server runs. The value of a hash field is written under the latch of the hash, or
under its own while the hash is latched for reading. -/
def rule : Field → Mode → List (Latch × Mode) → Prop
  | .cliQue, mode => Under .cliMtx mode
  | .database client, mode | .recvBuffer client, mode | .sendBuffer client, mode =>
      Under (.client client) mode
  | .databases, mode => Under .dbMtx mode
  | .number _, mode | .aofTimer, mode => fun _ => mode = .shared
  | .keyValueMap db, mode => Under (.db db) mode
  | .aofCache db, mode => Under (.aofCache db) mode
  | .keyAndValue entry, mode => Under (.entry entry) mode
  | .contents object, mode | .element object _, mode => Under (.object object) mode
  | .fieldValue object str, mode => fun held =>
      Under (.object object) .shared held ∧
        (Under (.object object) mode held ∧ mode = .exclusive ∨ Under (.str str) mode held)
  | .cmdQue, mode => Under .cmdQue mode
  | .tmrQue, mode => Under .tmrQue mode
  | .file, mode => Under .file mode
  | .numHash, mode => Under .numbers mode
  | .password, mode => Under .password mode
  | .clientMap, _ | .expireTimeUs _, _ => fun _ => True

/-- A latch comes after all that are held. -/
def Opens (held : List (Latch × Mode)) (latch : Latch) : Prop :=
  ∀ outer ∈ held, rank outer.1 < rank latch

/-- Latches that come before all objects. -/
def BeforeObjects (held : List (Latch × Mode)) : Prop :=
  ∀ outer ∈ held, rank outer.1 < toLex (6, 0)

abbrev Sound (held : List (Latch × Mode)) (code : Code) : Prop :=
  code.Disciplined rank rule held

@[simp] theorem opens_nil (latch : Latch) : Opens [] latch := nofun

@[simp] theorem opens_cons (own : Latch × Mode) (held : List (Latch × Mode)) (latch : Latch) :
    Opens (own :: held) latch ↔ rank own.1 < rank latch ∧ Opens held latch :=
  List.forall_mem_cons

@[simp] theorem sound_read (held : List (Latch × Mode)) (field : Field) :
    Sound held (read field) ↔ rule field .shared held := by simp [Sound, read]

@[simp] theorem sound_write (held : List (Latch × Mode)) (field : Field) :
    Sound held (write field) ↔ rule field .exclusive held := by simp [Sound, write]

@[simp] theorem sound_readGuard (held : List (Latch × Mode)) (latch : Latch) (body : List Code) :
    Sound held (readGuard latch body) ↔ Opens held latch ∧
      ∀ code ∈ body, Sound ((latch, .shared) :: held) code := by simp [Sound, readGuard, Opens]

@[simp] theorem sound_writeGuard (held : List (Latch × Mode)) (latch : Latch) (body : List Code) :
    Sound held (writeGuard latch body) ↔ Opens held latch ∧
      ∀ code ∈ body, Sound ((latch, .exclusive) :: held) code := by simp [Sound, writeGuard, Opens]

theorem sound_each {α : Type} (held : List (Latch × Mode)) (parts : List α) (code : α → Code) :
    Sound held (.sequence (parts.map code)) ↔ ∀ part ∈ parts, Sound held (code part) := by
  simp only [Sound, Block.disciplined_sequence, List.forall_mem_map]

@[simp] theorem Under.head {latch : Latch} {mode : Mode} (held : List (Latch × Mode)) :
    Under latch .shared ((latch, mode) :: held) := by
  cases mode <;> simp [Under]

@[simp] theorem Under.head_exclusive (latch : Latch) (mode : Mode) (held : List (Latch × Mode)) :
    Under latch mode ((latch, .exclusive) :: held) := Or.inl List.mem_cons_self

theorem Under.cons {latch : Latch} {mode : Mode} {held : List (Latch × Mode)}
    (under : Under latch mode held) (inner : Latch × Mode) : Under latch mode (inner :: held) := by
  rcases under with exclusive | ⟨shared, there⟩
  · exact Or.inl (List.mem_cons_of_mem _ exclusive)
  · exact Or.inr ⟨shared, List.mem_cons_of_mem _ there⟩

theorem sound_latched {held : List (Latch × Mode)} {mode : Mode} {field : Nat → Field}
    {strs : List Nat} (opens : ∀ str, Opens held (.str str))
    (allowed : ∀ str ∈ strs, rule (field str) mode ((.str str, .shared) :: held)) :
    Sound held (latched mode field strs) := by
  simp only [Sound, latched, Block.disciplined_sequence, List.forall_mem_map]
  intro str member
  exact (sound_readGuard _ _ _).mpr ⟨opens str, by simpa using allowed str member⟩

theorem sound_compared {held : List (Latch × Mode)} {field : Nat → Field} {strs : List Nat}
    (opens : ∀ str, Opens held (.str str))
    (allowed : ∀ str ∈ strs, rule (field str) .shared held) : Sound held (compared field strs) := by
  simp only [Sound, compared, Block.disciplined_sequence, List.forall_mem_map]
  intro str member
  simp only [List.forall_mem_cons, List.not_mem_nil, false_implies, implies_true, and_true]
  exact ⟨(sound_readGuard _ _ _).mpr ⟨opens str, List.forall_mem_nil _⟩, (sound_read _ _).mpr (allowed str member)⟩

theorem sound_lookedUp {first second : Nat} {latches : List (Latch × Mode)}
    (strs : ∀ str, Opens latches (.str str)) (one : Under (.object first) .shared latches)
    (two : Under (.object second) .shared latches) (own others : List Nat) :
    ∀ code ∈ lookedUp first second own others, Sound latches code := by
  simp only [lookedUp, List.forall_mem_cons, sound_read, List.not_mem_nil, false_implies,
    implies_true, and_true]
  exact ⟨one, two, sound_latched strs fun _ _ => one.cons _, sound_compared strs fun _ _ => two,
    sound_compared strs fun _ _ => one⟩

section Objects

variable {held : List (Latch × Mode)} (low : BeforeObjects held) (object : Nat) (mode : Mode)

include low

theorem BeforeObjects.opens : Opens held (.object object) := by
  intro outer member
  refine lt_of_lt_of_le (low outer member) ?_
  simp [rank, Prod.Lex.toLex_le_toLex]

theorem BeforeObjects.opensStrs (str : Nat) : Opens ((.object object, mode) :: held) (.str str) := by
  refine (opens_cons _ _ _).mpr ⟨by simp [rank, Prod.Lex.toLex_lt_toLex], fun outer member => ?_⟩
  exact (low outer member).trans (by simp [rank, Prod.Lex.toLex_lt_toLex])

theorem sound_elements_copied (strs : List Nat) :
    Sound ((.object object, mode) :: held) (copied (.element object) strs) :=
  sound_latched (low.opensStrs object mode) fun _ _ => (Under.head held).cons _

theorem sound_elements_compared (strs : List Nat) :
    Sound ((.object object, mode) :: held) (compared (.element object) strs) :=
  sound_compared (low.opensStrs object mode) fun _ _ => Under.head held

theorem sound_elements_moved (strs : List Nat) :
    Sound ((.object object, .exclusive) :: held) (moved (.element object) strs) :=
  sound_latched (low.opensStrs object .exclusive) fun _ _ =>
    (Under.head_exclusive _ _ held).cons _

theorem sound_values_copied (strs : List Nat) :
    Sound ((.object object, mode) :: held) (copied (.fieldValue object) strs) :=
  sound_latched (low.opensStrs object mode) fun _ _ =>
    ⟨(Under.head held).cons _, Or.inr (Under.head _)⟩

theorem StrMethod.sound (method : StrMethod) : Sound held (method.code object) := by
  cases method <;> simp [StrMethod.code, low.opens, rule]

theorem ListMethod.sound (method : ListMethod) : Sound held (method.code object) := by
  cases method <;> simp [ListMethod.code, low.opens, rule, sound_elements_copied low,
    sound_elements_compared low, sound_elements_moved low]

/-- The latches of two sets nest in the order of their addresses. -/
theorem sound_bothLatched (other : Nat) (own others : List Nat) {same : List Code}
    (alone : ∀ code ∈ same, Sound held code) :
    Sound held (bothLatched object other (lookedUp object other own others) same) := by
  have inner : ∀ {outer inside : Nat}, outer < inside →
      Opens ((.object outer, .shared) :: held) (.object inside) := by
    intro outer inside less
    exact (opens_cons _ _ _).mpr
      ⟨by simp [rank, Prod.Lex.toLex_lt_toLex, less], low.opens inside⟩
  have strs : ∀ outer inside str : Nat,
      Opens ((.object inside, .shared) :: (.object outer, .shared) :: held) (.str str) := by
    intro outer inside str
    exact (opens_cons _ _ _).mpr
      ⟨by simp [rank, Prod.Lex.toLex_lt_toLex], low.opensStrs outer .shared str⟩
  unfold bothLatched
  split
  · rename_i less
    simp only [sound_readGuard, List.forall_mem_singleton]
    exact ⟨low.opens object, inner less,
      sound_lookedUp (strs object other) ((Under.head held).cons _) (Under.head _) own others⟩
  · split
    · rename_i less
      simp only [sound_readGuard, List.forall_mem_singleton]
      exact ⟨low.opens other, inner less,
        sound_lookedUp (strs other object) (Under.head _) ((Under.head held).cons _) own others⟩
    · exact (Block.disciplined_sequence _ _).mpr alone

theorem SetMethod.sound (method : SetMethod) : Sound held (method.code object) := by
  cases method with
  | diff other own others => exact sound_bothLatched low object other own others nofun
  | inter other own others =>
      apply sound_bothLatched low object other own others
      simp [low.opens, rule, sound_elements_copied low]
  | _ => simp [SetMethod.code, low.opens, rule, sound_elements_copied low,
      sound_elements_compared low]

theorem HashMethod.sound (method : HashMethod) : Sound held (method.code object) := by
  cases method <;> simp [HashMethod.code, low.opens, rule, sound_elements_copied low,
    sound_elements_compared low, sound_values_copied low, low.opensStrs, Under.cons]

theorem ZSetMethod.sound (method : ZSetMethod) : Sound held (method.code object) := by
  cases method <;> simp [ZSetMethod.code, low.opens, rule, sound_elements_copied low,
    sound_elements_compared low]

theorem ObjectMethod.sound (method : ObjectMethod) : Sound held (method.code object) := by
  cases method with
  | str method => exact method.sound low object
  | list method => exact method.sound low object
  | set method => exact method.sound low object
  | hash method => exact method.sound low object
  | zset method => exact method.sound low object

end Objects

theorem Opens.lift {held : List (Latch × Mode)} {latch inner : Latch} (opens : Opens held latch)
    (less : rank latch < rank inner) (mode : Mode) : Opens ((latch, mode) :: held) inner :=
  (opens_cons _ _ _).mpr ⟨less, fun outer member => (opens outer member).trans less⟩

section Databases

variable {held : List (Latch × Mode)}

/-- An entry's latch comes before those of all objects. -/
theorem Opens.beforeObjects {entry : Nat} (opens : Opens held (.entry entry)) (mode : Mode) :
    BeforeObjects ((.entry entry, mode) :: held) := by
  intro outer member
  rcases List.mem_cons.mp member with rfl | outside
  · simp [rank, Prod.Lex.toLex_lt_toLex]
  · exact (opens outer outside).trans (by simp [rank, Prod.Lex.toLex_lt_toLex])

theorem sound_entryKey {entry key : Nat} (opens : Opens held (.entry entry)) :
    Sound ((.entry entry, .shared) :: held) (copied (fun _ => .keyAndValue entry) [key]) :=
  sound_latched (fun _ => opens.lift (by simp [rank, Prod.Lex.toLex_lt_toLex]) _)
    fun _ _ => (Under.head held).cons _

theorem Entry.sound_encode {e : Entry} (opens : Opens held (.entry e.entry)) :
    Sound held e.encode := by
  simp [Entry.encode, getExpire, opens, rule, sound_entryKey opens,
    ObjectMethod.sound (opens.beforeObjects .shared)]

theorem Entry.sound_fork {e : Entry} (opens : Opens held (.entry e.entry)) :
    Sound held e.fork := by
  simp [Entry.fork, opens, sound_entryKey opens,
    ObjectMethod.sound (opens.beforeObjects .shared)]

theorem sound_getPassword (opens : Opens held .password) : Sound held getPassword := by
  simp [getPassword, opens, rule]

theorem sound_number {db : Nat} (opens : Opens held (.db db)) : Sound held (number db) := by
  simp [number, opens, rule]

theorem Opens.entries {db : Nat} (opens : Opens held (.db db)) (mode : Mode) (entry : Nat) :
    Opens ((.db db, mode) :: held) (.entry entry) :=
  opens.lift (by simp [rank, Prod.Lex.toLex_lt_toLex]) mode

theorem sound_lookedFor {db : Nat} (opens : Opens held (.db db)) (mode : Mode) (keys : List Nat) :
    Sound ((.db db, mode) :: held) (lookedFor db keys) := by
  have strs : ∀ str, Opens ((.db db, mode) :: held) (.str str) := fun str =>
    opens.lift (by simp [rank, Prod.Lex.toLex_lt_toLex]) mode
  have keysSound : Sound ((.db db, mode) :: held) (compared (fun _ => .keyValueMap db) keys) :=
    sound_compared strs fun _ _ => Under.head held
  simp [lookedFor, rule, keysSound]

theorem sound_save {db : Nat} (opens : Opens held (.db db)) (entries : List Entry) :
    Sound held (save db entries) := by
  simp only [save, sound_readGuard, List.forall_mem_cons, sound_read, List.not_mem_nil,
    false_implies, implies_true, and_true, Block.disciplined_sequence, List.forall_mem_map]
  exact ⟨opens, Under.head held, rfl, fun e _ => e.sound_encode (opens.entries .shared e.entry)⟩

theorem sound_fork {db : Nat} (opens : Opens held (.db db)) (entries : List Entry) :
    Sound held (fork db entries) := by
  have password : Opens held .password := fun outer member =>
    (opens outer member).trans (by simp [rank, Prod.Lex.toLex_lt_toLex])
  simp only [fork, Block.disciplined_sequence, List.forall_mem_cons, sound_read, sound_readGuard,
    List.not_mem_nil, false_implies, implies_true, and_true, List.forall_mem_map]
  exact ⟨rfl, sound_getPassword password, opens, Under.head held,
    fun e _ => e.sound_fork (opens.entries .shared e.entry)⟩

theorem sound_exportAof {db : Nat} (password : Opens held .password)
    (cache : Opens held (.aofCache db)) : Sound held (exportAof db) := by
  simp [exportAof, rule, sound_getPassword password, cache]

end Databases

/-- Under `db_mtx_` every latch of a database can be taken. -/
theorem opens_dbMtx (mode : Mode) (db : Nat) : Opens [(.dbMtx, mode)] (.db db) := by
  simp [rank, Prod.Lex.toLex_lt_toLex]

theorem Call.sound (call : Call) : Sound [] call.code := by
  cases call with
  | object address method => exact method.sound (List.forall_mem_nil _) address
  | getPassword => exact sound_getPassword (opens_nil _)
  | number db => exact sound_number (opens_nil _)
  | changeKeys db keys =>
      simp [Call.code, Latches.changeKeys, rule, sound_lookedFor (opens_nil (.db db))]
  | get db keys found =>
      simp [Call.code, Latches.get, rule, sound_lookedFor (opens_nil (.db db)), getValue, rank,
        Prod.Lex.toLex_lt_toLex]
  | expireAt db keys found =>
      simp [Call.code, Latches.expireAt, rule, sound_lookedFor (opens_nil (.db db)), makeExpireAt]
  | whenExpire db keys found =>
      simp [Call.code, Latches.whenExpire, rule, sound_lookedFor (opens_nil (.db db)), getExpire]
  | fork db entries => exact sound_fork (opens_nil _) entries
  | databaseSave dbs =>
      simp only [Call.code, Latches.databaseSave, sound_readGuard, List.forall_mem_cons, sound_read,
        sound_each, List.not_mem_nil, false_implies, implies_true, and_true]
      exact ⟨opens_nil _, Under.head [], fun part _ => sound_save (opens_dbMtx .shared _) part.2⟩
  | databaseAppend dbs =>
      have exported : ∀ db, Sound [(.dbMtx, .shared)] (exportAof db) := fun db =>
        sound_exportAof (by simp [rank, Prod.Lex.toLex_lt_toLex])
          (by simp [rank, Prod.Lex.toLex_lt_toLex])
      simp [Call.code, Latches.databaseAppend, rule, exported]
  | databaseForkAll dbs =>
      simp only [Call.code, Latches.databaseForkAll, sound_readGuard, List.forall_mem_cons,
        sound_read, sound_each, List.not_mem_nil, false_implies, implies_true, and_true]
      exact ⟨opens_nil _, Under.head [], fun part _ => sound_fork (opens_dbMtx .shared _) part.2⟩
  | numbersOf dbs =>
      simp [Call.code, Latches.numbersOf, rule, sound_number (opens_dbMtx .shared _)]
  | suGetDb dbs creates =>
      cases creates <;> simp [Call.code, Latches.suGetDb, rule, newDb,
        sound_number (opens_dbMtx .exclusive _), rank, Prod.Lex.toLex_lt_toLex]
  | createDb db =>
      simp [Call.code, Latches.createDb, rule, newDb, sound_number (opens_dbMtx .exclusive _), rank,
        Prod.Lex.toLex_lt_toLex]
  | chooseDb => simp [Call.code, Latches.chooseDb, rule]
  | getAofTimer => simp [Call.code, Latches.getAofTimer, rule]
  | changeTimers => simp [Call.code, Latches.changeTimers, rule]
  | changeCommands => simp [Call.code, Latches.changeCommands, rule]
  | changeFile => simp [Call.code, Latches.changeFile, rule]
  | enable client => simp [Call.code, Latches.enable, getFd]
  | getDb client => simp [Call.code, Latches.getDb, rule]
  | setDb client => simp [Call.code, Latches.setDb, rule]
  | append client => simp [Call.code, changeSendBuffer, rule]
  | logout client => simp [Call.code, Latches.logout, getFd, rule]
  | wait accepts =>
      simp only [Call.code, Latches.wait, Block.disciplined_sequence, List.forall_mem_cons,
        sound_read, List.forall_mem_map, List.not_mem_nil, false_implies, implies_true, and_true]
      refine ⟨trivial, fun accept _ => ?_⟩
      cases accept <;> simp [rule]
  | readCli client =>
      simp [Call.code, throughServer, changeRecvBuffer, rule, rank, Prod.Lex.toLex_lt_toLex]
  | sendCli client =>
      simp [Call.code, throughServer, changeSendBuffer, rule, rank, Prod.Lex.toLex_lt_toLex]
  | handleEvent => simp [Call.code, Latches.handleEvent, rule]

theorem Dispatch.sound (client : Nat) (dispatch : Dispatch) :
    Sound [(.cliMtx, .exclusive)] (dispatch.code client) := by
  obtain ⟨logged, timed, known⟩ := dispatch
  cases timed <;> cases known <;>
    simp [Dispatch.code, Latches.getDb, Latches.appendAof, Latches.getAofTimer,
      Latches.changeTimers, Latches.changeCommands, rule, rank, Prod.Lex.toLex_lt_toLex]

theorem IoEvent.sound (event : IoEvent) : Sound [(.cliMtx, .exclusive)] event.code := by
  cases event with
  | gone => simp [IoEvent.code, rule]
  | output client broken drained =>
      cases broken <;> cases drained <;>
        simp [IoEvent.code, changeSendBuffer, Latches.logout, Latches.enable, getFd, isSendOut, rule,
          rank, Prod.Lex.toLex_lt_toLex]
  | closed client =>
      simp [IoEvent.code, changeRecvBuffer, Latches.logout, getFd, rule, rank,
        Prod.Lex.toLex_lt_toLex]
  | again client =>
      simp [IoEvent.code, changeRecvBuffer, rule, rank, Prod.Lex.toLex_lt_toLex]
  | input client requests =>
      simp only [IoEvent.code, Block.disciplined_sequence, List.forall_mem_cons, sound_write,
        List.forall_mem_map, List.not_mem_nil, false_implies, implies_true, and_true]
      have received : Sound [(.cliMtx, .exclusive)] (changeRecvBuffer client) := by
        simp [changeRecvBuffer, rule, rank, Prod.Lex.toLex_lt_toLex]
      exact ⟨Under.head_exclusive _ _ _, received, received,
        fun dispatch _ => dispatch.sound client⟩

theorem Work.sound (work : Work) : Sound [] work.code := by
  cases work with
  | call made => exact made.sound
  | ioClient events =>
      simp only [Work.code, sound_writeGuard, List.forall_mem_map]
      exact ⟨opens_nil _, fun event _ => event.sound⟩

theorem program_sound (work : List Work) : Sound [] (program work) :=
  (sound_each _ _ _).mpr fun part _ => part.sound

theorem Under.clash {latch : Latch} {one two : Mode} {first second : List (Latch × Mode)}
    (oneUnder : Under latch one first) (twoUnder : Under latch two second)
    (writes : one = .exclusive ∨ two = .exclusive) : Clash first second := by
  rcases oneUnder with exclusive | ⟨rfl, shared⟩
  · rcases twoUnder with also | ⟨_, shared⟩
    · exact ⟨latch, _, _, exclusive, also, Or.inl rfl⟩
    · exact ⟨latch, _, _, exclusive, shared, Or.inl rfl⟩
  · rcases twoUnder with exclusive | ⟨rfl, _⟩
    · exact ⟨latch, _, _, shared, exclusive, Or.inr rfl⟩
    · exact absurd writes (by simp)

/-- The value of a hash field: two writers under its own latch clash there, and a writer
under the latch of the hash clashes with everybody. -/
theorem separates_fieldValue (object str : Nat) : Separates rule (.fieldValue object str) := by
  rintro one two first second ⟨oneShares, oneUnder⟩ ⟨twoShares, twoUnder⟩ writes
  rcases oneUnder with ⟨oneWhole, rfl⟩ | oneOwn
  · exact oneWhole.clash twoShares (Or.inl rfl)
  · rcases twoUnder with ⟨twoWhole, rfl⟩ | twoOwn
    · exact oneShares.clash twoWhole (Or.inr rfl)
    · exact oneOwn.clash twoOwn writes

/-- The fields whose accesses are not all ordered by latches. -/
def Field.unlatched : Field → Bool
  | .clientMap | .expireTimeUs _ => true
  | _ => false

theorem separates {field : Field} (latched : field.unlatched = false) : Separates rule field := by
  cases field with
  | clientMap => cases latched
  | expireTimeUs entry => cases latched
  | fieldValue object str => exact separates_fieldValue object str
  | number db =>
      rintro one two _ _ rfl rfl writes
      simp at writes
  | aofTimer =>
      rintro one two _ _ rfl rfl writes
      simp at writes
  | _ => exact fun _ _ _ _ oneUnder twoUnder writes => oneUnder.clash twoUnder writes

theorem consistent_program {writersFirst : Bool} {threads : List (List Work)} {events : List Nat}
    {state : State Latch Field}
    (ran : run (next writersFirst) (start (threads.map program)) events = some state) :
    Consistent rank rule state := by
  refine consistent_run (fun code listed => ?_) ran
  obtain ⟨work, _, rfl⟩ := List.mem_map.mp listed
  exact program_sound work

/-- Whatever the threads of the server do and however their steps interleave: while a thread
is unfinished some thread can go on, and from every state all threads can finish, even if
readers are kept out as soon as a writer is about to take a latch. -/
theorem no_deadlock (threads : List (List Work)) {events : List Nat} {state : State Latch Field}
    (ran : run (next false) (start (threads.map program)) events = some state) :
    (¬ Finished state → ∃ index after, next true state index = some after) ∧
      ∃ more final, run (next true) state more = some final ∧ Finished final := by
  have consistent := consistent_program ran
  exact ⟨consistent.progress true, consistent.finishes true⟩

/-- One thread takes the difference of two sets, one the difference the other way round, and
one is about to add to the first. -/
def diffs : List (List Work) :=
  [[.call (.object 1 (.set (.diff 2 [7] [8])))], [.call (.object 2 (.set (.diff 1 [8] [7])))],
    [.call (.object 1 (.set (.add [7])))]]

theorem no_deadlock_diffs :
    ∃ state, run (next false) (start (diffs.map program)) [0, 1, 0, 0] = some state ∧
      (state.map fun thread => thread.held.length) = [2, 1, 0] ∧
      (¬ Finished state → ∃ index after, next true state index = some after) ∧
        ∃ more final, run (next true) state more = some final ∧ Finished final := by
  obtain ⟨state, ran, held⟩ : ∃ state, run (next false) (start (diffs.map program)) [0, 1, 0, 0] =
      some state ∧ (state.map fun thread => thread.held.length) = [2, 1, 0] :=
    run_checked (by decide)
  exact ⟨state, ran, held, no_deadlock diffs ran⟩

/-- Two threads that are about to access the same field, one of them to write it, do so only
with the expiry of an entry or with `client_map_`. -/
theorem races_unlatched (threads : List (List Work)) {events : List Nat}
    {state : State Latch Field}
    (ran : run (next false) (start (threads.map program)) events = some state)
    {field : Field} (racing : Racing state field) : field.unlatched = true := by
  by_contra latched
  exact (consistent_program ran).not_racing (separates (by simpa using latched)) racing

/-- `EXPIRE` on the command thread, `Save` on the timer thread. -/
def expireAndSave : List (List Work) :=
  [[.call (.expireAt 0 [] (some 5))], [.call (.databaseSave [(0, [⟨5, 6, 7, .str⟩])])]]

theorem races_unlatched_expire :
    ∃ state, run (next false) (start (expireAndSave.map program)) [0, 0, 1, 1, 1, 1, 1, 1] =
        some state ∧
      Racing state (.expireTimeUs 5) ∧ (Field.expireTimeUs 5).unlatched = true := by
  obtain ⟨state, ran, ops⟩ : ∃ state, run (next false) (start (expireAndSave.map program))
      [0, 0, 1, 1, 1, 1, 1, 1] = some state ∧ (state.map fun thread => thread.ops.head?) =
        [some (.access (.expireTimeUs 5) .exclusive), some (.access (.expireTimeUs 5) .shared)] :=
    run_checked (by decide)
  have racing : Racing state (.expireTimeUs 5) := by
    obtain ⟨one, rest, rfl, first, ops⟩ := List.map_eq_cons_iff.mp ops
    obtain ⟨two, none, rfl, second, _⟩ := List.map_eq_cons_iff.mp ops
    obtain ⟨oneRest, oneOps⟩ := List.head?_eq_some_iff.mp first
    obtain ⟨twoRest, twoOps⟩ := List.head?_eq_some_iff.mp second
    exact ⟨0, 1, Nat.zero_ne_one, one, two, rfl, rfl, _, _, oneRest, twoRest, oneOps, twoOps,
      Or.inl rfl⟩
  exact ⟨state, ran, racing, races_unlatched expireAndSave ran racing⟩

end ForkRedis.Latches
