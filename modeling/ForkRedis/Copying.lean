import ForkRedis.Cuts

set_option autoImplicit false

/- `FORK`, from one server to another: the database of a client is written to a connection
piece by piece, and executed by the other server as it arrives. -/
namespace ForkRedis

open Lists Fallible Machine Json11

/-- What `write` returns: how many bytes it took, or -1 with `EAGAIN` or another `errno`. -/
inductive Writing where
  | wrote (count : Nat)
  | again
  | failed

/-- `ServerCommand::Exec` between two calls of `write`: the request it is at, from `beg` on,
and those behind it; the bytes that were taken; and if it has returned a write error. -/
structure Sender where
  reqs : List Bytes
  sent : Bytes
  failed : Bool
  deriving DecidableEq

namespace Sender

/-- `FORK` of the database of a client. -/
def start (password : Bytes) (db : Db) : Sender :=
  ⟨db.fork password ++ [bytes "ENDFORKING"], [], false⟩

/-- A request of which nothing is left makes way for the next one. -/
def next (sender : Sender) (writing : Writing) : Option Sender :=
  match sender.failed, sender.reqs.dropWhile List.isEmpty with
  | false, req :: later =>
      match writing with
      | .wrote count =>
          if count ≤ req.length then
            some ⟨req.drop count :: later, sender.sent ++ req.take count, false⟩
          else none
      | .again => some ⟨req :: later, sender.sent, false⟩
      | .failed => some ⟨req :: later, sender.sent, true⟩
  | _, _ => none

/-- The loop has come to its end, and the reply is `OK`. -/
def Done (sender : Sender) : Prop := sender.failed = false ∧ sender.reqs.flatten = []

end Sender

namespace Server

end Server

end ForkRedis
