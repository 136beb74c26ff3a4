import ForkRedis.Codec
import ForkRedis.Framing

set_option autoImplicit false

/- `Fork`: a database written out as the requests that are meant to rebuild it. -/
namespace ForkRedis

open Decimal Json11

def isTokenMember (c : UInt8) : Bool :=
  isDigit c || (97 ≤ c && c ≤ 122) || (65 ≤ c && c ≤ 90)

/-- The next run of letters and digits, and what is behind it. -/
def nextToken (raw : Bytes) : Bytes × Bytes :=
  let start := raw.dropWhile fun c => !isTokenMember c
  (start.takeWhile isTokenMember, start.dropWhile isTokenMember)

def tokens : Nat → Bytes → Request
  | 0, _ => []
  | rounds + 1, raw =>
      let (token, rest) := nextToken raw
      if token = [] then [] else token :: tokens rounds rest

/-- A token takes a byte at least, so there are no more rounds than bytes. -/
def rawCommandToRequest (raw : Bytes) : Request := tokens raw.length raw

/-- The byte `' '`. -/
def space : UInt8 := 32

/-- `ret.append(text + " ")` for each text in turn. -/
def spaced (texts : List Bytes) : Bytes := texts.flatMap fun text => text ++ [space]

namespace Object

/-- The raw command that `Fork` writes for an object. -/
def fork (key : Bytes) : Object → Bytes
  | .str s => bytes "SET " ++ (key ++ (space :: s.data))
  | .list l => bytes "LPUSHB " ++ (key ++ (space :: spaced (l.map Str.data)))
  | .hash h => bytes "HSET " ++ (key ++ (space ::
      spaced (h.items.flatMap fun field => [field.1.data, field.2.data])))
  | .set s => bytes "SADD " ++ (key ++ (space :: spaced (s.items.map Str.data)))
  | .zset z => bytes "ZADD " ++ (key ++ (space ::
      spaced (z.entries.flatMap fun entry => [toStringInt entry.2, entry.1.data])))

end Object

namespace KeyValue

def fork (kv : KeyValue) : Bytes := kv.value.fork kv.key.data

end KeyValue

/-- The request that brings a client into a database, as `Fork` and `ExportAOF` write
it. -/
def selectRequest (number : Int32) (password : Bytes) : Request :=
  rawCommandToRequest (bytes "SELECT " ++ (toStringInt number ++ (space :: password)))

namespace Db

def fork (password : Bytes) (db : Db) : List Bytes :=
  dump (selectRequest db.number password) ::
    db.keyValueMap.items.map fun kv => dump (rawCommandToRequest (KeyValue.fork kv))

end Db

/-- `MainLoop::DatabaseForkAll`. -/
def databaseForkAll (password : Bytes) (databases : List Db) : Bytes :=
  (databases.flatMap (Db.fork password)).flatten

end ForkRedis
