import ForkRedis.Brackets
import ForkRedis.Handler
import ForkRedis.Replay

set_option autoImplicit false

/- One readable event of a client in `Handler::ioClient`: the calls of `recv` in
`ClientInfo::Read`, and what is done with what they gave. -/
namespace ForkRedis

open Fallible Json11

variable {pieces : List Bytes}

/-- What `recv` returns when nothing more is waiting: -1 with `EAGAIN`, or 0 at the end of
the stream. -/
inductive Ending where
  | again
  | closed
  deriving DecidableEq, Repr

def Ending.code : Ending → Int
  | .again => -1
  | .closed => 0

/-- The pieces in which `recv` hands out what is waiting: only the last can be shorter than
the buffer. -/
def Split : List Bytes → Prop
  | [] => True
  | [last] => 0 < last.length ∧ last.length ≤ 65535
  | piece :: rest => piece.length = 65535 ∧ Split rest

/-- `ClientInfo::Read`: the buffer and the number it returns. The count is a signed one. -/
def clientRead (ending : Ending) : Bytes → Nat → List Bytes → Except Fault (Bytes × Int)
  | recvBuffer, _, [] => .ok (recvBuffer, ending.code)
  | recvBuffer, total, piece :: pieces =>
      if 2 ^ 31 ≤ total + piece.length then .error .undefined
      else if piece.length = 65535 then
        clientRead ending (recvBuffer ++ piece) (total + piece.length) pieces
      else .ok (recvBuffer ++ piece, ((total + piece.length : Nat) : Int))

/-- What an event leaves in the buffer, the requests it exported, the commands it pushed,
and whether the client is still there. -/
structure Drained where
  recvBuffer : Bytes
  requests : List Request
  commands : List Command
  live : Bool

/-- The branch of `ioClient` for a readable client. -/
def ioClientRead (recvBuffer : Bytes) (pieces : List Bytes) (ending : Ending) :
    Except Fault Drained := do
  let read ← clientRead ending recvBuffer 0 pieces
  if read.2 = 0 then return ⟨read.1, [], [], false⟩
  else if read.2 = -1 ∧ ending = .again then return ⟨read.1, [], [], true⟩
  else
    let exported := exportMessages read.1
    let commands ← exported.1.mapM requestToCommandExec
    return ⟨exported.2, exported.1, commands.filterMap id, true⟩

/-- All frames among the bytes were exported and dispatched, and none is left. -/
def Drains (recvBuffer : Bytes) (pieces : List Bytes) (ending : Ending) : Prop :=
  ∃ drained commands, ioClientRead recvBuffer pieces ending = .ok drained ∧
    drained.requests = (frames (recvBuffer ++ pieces.flatten)).map parse ∧
    drained.requests.mapM requestToCommandExec = .ok commands ∧
    drained.commands = commands.filterMap id ∧ frames drained.recvBuffer = []

/-- A `FORK` whose address has a port that is not an `int`. -/
def MisportedFork (request : Request) : Prop :=
  commandOf request = some (.server .fork) ∧ ∃ info args,
    accepted true (fun _ => true) request = some (info, args) ∧ BadPort info

/-- There is no frame to export, or the number of waiting bytes is not a multiple of the
size of the buffer, no frame is behind a `]` that closes nothing, and none is a `FORK` to a
bad port. -/
def Drainable (recvBuffer : Bytes) (waiting : Bytes) : Prop :=
  waiting.length < 2 ^ 31 ∧
    (frames (recvBuffer ++ waiting) = [] ∨
      waiting.length % 65535 ≠ 0 ∧ unblocked (recvBuffer ++ waiting) = true ∧
        ∀ frame ∈ frames (recvBuffer ++ waiting), ¬ MisportedFork (parse frame))

theorem requestToCommandExec_raises {request : Request} :
    Raises (requestToCommandExec request) ↔ MisportedFork request := by
  cases request with
  | nil => exact iff_of_false (not_raises_ok _) fun misported => by cases misported.1
  | cons first rest =>
      have named : commandOf (first :: rest) = commandName (first.map toUpper) := rfl
      rw [requestToCommandExec, MisportedFork, named]
      cases commandName (first.map toUpper) with
      | none => exact iff_of_false (not_raises_ok _) fun misported => by cases misported.1
      | some name =>
          simp only [pure_eq_ok, raises_bind_ok, Option.some.injEq]
          cases name with
          | server name =>
              cases name with
              | fork =>
                  have parsed : Raises (toCommand (first.map toUpper :: rest) (.server .fork)) ↔
                      Raises (jsonToServerCommand .fork (first.map toUpper :: rest)) :=
                    raises_bind_ok
                  rw [parsed, Server.jsonToServerCommand_raises, accepted_toUpper]
                  exact (and_iff_right rfl).symm
              | endForking =>
                  exact iff_of_false (not_raises_ok _) fun misported => by cases misported.1
          | _ => exact iff_of_false (not_raises_ok _) fun misported => by cases misported.1

/-- The calls of `recv` take all that is waiting. `Read` tells so by a count only if the
last piece is a short one; otherwise it returns what the call after that gives. -/
theorem clientRead_eq (split : Split pieces) (ending : Ending) (recvBuffer : Bytes) {total : Nat}
    (few : total + pieces.flatten.length < 2 ^ 31) :
    clientRead ending recvBuffer total pieces = .ok (recvBuffer ++ pieces.flatten,
      if pieces.flatten.length % 65535 = 0 then ending.code
      else ((total + pieces.flatten.length : Nat) : Int)) := by
  induction pieces generalizing recvBuffer total with
  | nil => simp only [clientRead, List.flatten_nil, List.append_nil, List.length_nil, ↓reduceIte]
  | cons piece rest ih =>
      rw [List.flatten_cons, List.length_append] at few ⊢
      rw [clientRead, if_neg (by omega)]
      cases rest with
      | nil =>
          obtain ⟨filled, fits⟩ := split
          rw [List.flatten_nil, List.append_nil, List.length_nil, Nat.add_zero]
          by_cases full : piece.length = 65535
          · rw [if_pos full, clientRead, full, if_pos rfl]
          · rw [if_neg full, if_neg (by omega)]
      | cons next rest =>
          obtain ⟨full, split⟩ := split
          have modulo : (piece.length + (next :: rest).flatten.length) % 65535 =
              (next :: rest).flatten.length % 65535 := by omega
          rw [if_pos full, ih split _ (by omega), modulo, List.append_assoc, Nat.add_assoc]

theorem clientRead_overflows (split : Split pieces) (ending : Ending) (recvBuffer : Bytes)
    {total : Nat} (few : total < 2 ^ 31) (many : 2 ^ 31 ≤ total + pieces.flatten.length) :
    clientRead ending recvBuffer total pieces = .error .undefined := by
  induction pieces generalizing recvBuffer total with
  | nil =>
      rw [List.flatten_nil, List.length_nil] at many
      omega
  | cons piece rest ih =>
      rw [List.flatten_cons, List.length_append] at many
      rw [clientRead]
      by_cases first : 2 ^ 31 ≤ total + piece.length
      · rw [if_pos first]
      · cases rest with
        | nil =>
            rw [List.flatten_nil, List.length_nil] at many
            omega
        | cons next rest =>
            obtain ⟨full, split⟩ := split
            rw [if_neg first, if_pos full]
            exact ih split _ (by omega) (by omega)

/-- What `Read` did is lost on `ioClient` when the bytes come in full pieces. -/
theorem ioClientRead_full (split : Split pieces) (ending : Ending) (recvBuffer : Bytes)
    (few : pieces.flatten.length < 2 ^ 31) (full : pieces.flatten.length % 65535 = 0) :
    ioClientRead recvBuffer pieces ending =
      .ok ⟨recvBuffer ++ pieces.flatten, [], [], ending == .again⟩ := by
  rw [ioClientRead, clientRead_eq split ending recvBuffer (by omega), if_pos full, ok_bind]
  cases ending <;> rfl

theorem ioClientRead_short (split : Split pieces) (ending : Ending) (recvBuffer : Bytes)
    (few : pieces.flatten.length < 2 ^ 31) (short : pieces.flatten.length % 65535 ≠ 0) :
    ioClientRead recvBuffer pieces ending = do
      let exported := exportMessages (recvBuffer ++ pieces.flatten)
      let commands ← exported.1.mapM requestToCommandExec
      return ⟨exported.2, exported.1, commands.filterMap id, true⟩ := by
  have positive : ((0 + pieces.flatten.length : Nat) : Int) ≠ 0 := by omega
  have counted : ¬ (((0 + pieces.flatten.length : Nat) : Int) = -1 ∧ ending = .again) := by omega
  rw [ioClientRead, clientRead_eq split ending recvBuffer (by omega), if_neg short, ok_bind]
  dsimp only
  rw [if_neg positive, if_neg counted]

theorem drains_full (split : Split pieces) (ending : Ending) (recvBuffer : Bytes)
    (few : pieces.flatten.length < 2 ^ 31) (full : pieces.flatten.length % 65535 = 0) :
    Drains recvBuffer pieces ending ↔ frames (recvBuffer ++ pieces.flatten) = [] := by
  rw [Drains, ioClientRead_full split ending recvBuffer few full]
  constructor
  · rintro ⟨drained, commands, same, _, _, _, left⟩
    cases same
    exact left
  · intro none
    refine ⟨_, [], rfl, ?_, rfl, rfl, none⟩
    rw [none]
    rfl

theorem drains_short (split : Split pieces) (ending : Ending) (recvBuffer : Bytes)
    (few : pieces.flatten.length < 2 ^ 31) (short : pieces.flatten.length % 65535 ≠ 0) :
    Drains recvBuffer pieces ending ↔
      unblocked (recvBuffer ++ pieces.flatten) = true ∧
        ∀ frame ∈ frames (recvBuffer ++ pieces.flatten), ¬ MisportedFork (parse frame) := by
  rw [Drains, ioClientRead_short split ending recvBuffer few short]
  generalize recvBuffer ++ pieces.flatten = buffer
  have run := exportRun_exportMessages buffer
  have all := run.frames_eq
  have raises : Raises ((exportMessages buffer).1.mapM requestToCommandExec) ↔
      ∃ request ∈ (exportMessages buffer).1, MisportedFork request := by
    simp only [raises_mapM, requestToCommandExec_raises]
  rw [run.unblocked_iff]
  constructor
  · rintro ⟨drained, _, returned, _, _, _, left⟩
    obtain ⟨commands, dispatched, same⟩ := bind_eq_ok.mp returned
    cases same
    refine ⟨left, fun frame listed misported => ?_⟩
    have exported : (frames buffer).map parse = (exportMessages buffer).1 := by
      rw [all, left, List.map_nil, List.append_nil]
    have raised := raises.mpr ⟨_, exported ▸ List.mem_map_of_mem listed, misported⟩
    rw [dispatched] at raised
    exact not_raises_ok _ raised
  · rintro ⟨left, ported⟩
    rw [left, List.map_nil, List.append_nil] at all
    have returns : ¬ Raises ((exportMessages buffer).1.mapM requestToCommandExec) := by
      rw [raises, ← all]
      rintro ⟨request, listed, misported⟩
      obtain ⟨frame, cut, rfl⟩ := List.mem_map.mp listed
      exact ported frame cut misported
    obtain ⟨commands, dispatched⟩ := not_raises_iff.mp returns
    refine ⟨⟨(exportMessages buffer).2, (exportMessages buffer).1, commands.filterMap id, true⟩,
      commands, ?_, all.symm, dispatched, rfl, left⟩
    dsimp only
    rw [dispatched]
    rfl

theorem unblocked_of_no_frames {buffer : Bytes} (none : frames buffer = []) :
    unblocked buffer = true := by
  have run := exportRun_exportMessages buffer
  have all := run.frames_eq
  rw [none, List.map_nil] at all
  rw [run.unblocked_iff]
  exact List.map_eq_nil_iff.mp (List.append_eq_nil_iff.mp all.symm).2

/-- An event exports and dispatches all frames exactly if it is drainable, in whatever
pieces the bytes come and whatever comes behind them. -/
theorem drains_iff {pieces : List Bytes} (split : Split pieces) (recvBuffer : Bytes)
    (ending : Ending) :
    Drains recvBuffer pieces ending ↔ Drainable recvBuffer pieces.flatten := by
  rw [Drainable]
  by_cases few : pieces.flatten.length < 2 ^ 31
  · by_cases full : pieces.flatten.length % 65535 = 0
    · rw [drains_full split ending recvBuffer few full]
      exact ⟨fun none => ⟨few, Or.inl none⟩, fun able => able.2.resolve_right (absurd full ·.1)⟩
    · rw [drains_short split ending recvBuffer few full]
      constructor
      · exact fun able => ⟨few, Or.inr ⟨full, able⟩⟩
      · rintro ⟨_, none | able⟩
        · refine ⟨unblocked_of_no_frames none, fun frame listed => ?_⟩
          rw [none] at listed
          cases listed
        · exact able.2
  · refine iff_of_false ?_ (fun able => few able.1)
    rintro ⟨drained, _, returned, _⟩
    rw [ioClientRead, clientRead_overflows split ending recvBuffer (by omega) (by omega)]
      at returned
    cases returned

/-- A request whose first bytes came with an event before. -/
theorem drains_second_half :
    Split [bytes " \"k\"]"] ∧ Drains (bytes "[\"GET\",") [bytes " \"k\"]"] .again := by
  have split : Split [bytes " \"k\"]"] := by
    rw [Split]
    decide +kernel
  have cut : frames (bytes "[\"GET\"," ++ [bytes " \"k\"]"].flatten) =
      [bytes "[\"GET\", \"k\"]"] := by decide +kernel
  have named : commandOf (parse (bytes "[\"GET\", \"k\"]")) = some (.str .get) := by decide +kernel
  refine ⟨split, (drains_iff split _ _).mpr ⟨by decide +kernel, Or.inr ⟨by decide +kernel,
    by decide +kernel, fun frame listed misported => ?_⟩⟩⟩
  rw [cut, List.mem_singleton] at listed
  have forks := misported.1
  rw [listed, named] at forks
  cases forks

/-- A frame, and blanks up to the size of the buffer. -/
def fullPiece : Bytes := bytes "[\"GET\",\"k\"]" ++ List.replicate 65524 32

theorem length_fullPiece : fullPiece.length = 65535 := by
  rw [fullPiece, List.length_append, List.length_replicate]
  rfl

theorem frames_fullPiece : frames fullPiece = [bytes "[\"GET\",\"k\"]"] := by
  have unclosed : 93 ∉ List.replicate 65524 (32 : UInt8) := by
    intro listed
    cases List.eq_of_mem_replicate listed
  have none : frames (List.replicate 65524 32) = [] := framesFrom_of_unclosed unclosed none
  have cut : frames ([] ++ 91 :: (bytes "\"GET\",\"k\"" ++ 93 :: List.replicate 65524 32)) =
      (91 :: (bytes "\"GET\",\"k\"" ++ [93])) :: frames (List.replicate 65524 32) :=
    frames_of_frame List.not_mem_nil (by decide +kernel) _
  rw [none] at cut
  exact cut

/-- The bytes fill the buffer of `recv` exactly. The next call ends with `EAGAIN`, and the
frame stays where it is. -/
theorem full_piece_not_drained :
    Split [fullPiece] ∧ ioClientRead [] [fullPiece] .again = .ok ⟨fullPiece, [], [], true⟩ ∧
      frames fullPiece = [bytes "[\"GET\",\"k\"]"] ∧ ¬ Drains [] [fullPiece] .again := by
  have split : Split [fullPiece] := by
    rw [Split, length_fullPiece]
    decide
  have flat : [fullPiece].flatten = fullPiece := List.flatten_singleton
  have few : [fullPiece].flatten.length < 2 ^ 31 := by
    rw [flat, length_fullPiece]
    decide
  have full : [fullPiece].flatten.length % 65535 = 0 := by rw [flat, length_fullPiece]
  refine ⟨split, ?_, frames_fullPiece, ?_⟩
  · rw [ioClientRead_full split .again [] few full, flat]
    rfl
  · rw [drains_full split .again [] few full, flat, List.nil_append, frames_fullPiece]
    exact List.cons_ne_nil _ _

/-- How the event looks to the model of the threads: by the last call of `recv`. -/
def readingOf (waiting : Bytes) : Ending → Reading
  | .again => if waiting.length % 65535 = 0 then .failed .again else .short
  | .closed => if waiting.length % 65535 = 0 then .closed else .short

/-- The step of the io thread is what the calls of `recv` come to. -/
theorem handler_read_eq (split : Split pieces) (ending : Ending)
    (few : pieces.flatten.length < 2 ^ 31) (h : Handler) (thread client : Nat) {drained : Drained}
    (read : ioClientRead (h.connections client).recvBuffer pieces ending = .ok drained) :
    let after := h.read thread client pieces.flatten (readingOf pieces.flatten ending)
    (after.connections client).recvBuffer = drained.recvBuffer ∧
      after.exported = h.exported ++ drained.requests.map (Prod.mk client) := by
  have received : ((h.receive client pieces.flatten).connections client).recvBuffer =
      (h.connections client).recvBuffer ++ pieces.flatten := by
    rw [Handler.receive, Handler.modify_self]
    rfl
  by_cases full : pieces.flatten.length % 65535 = 0
  · rw [ioClientRead_full split ending _ few full] at read
    cases read
    cases ending with
    | again =>
        simp only [readingOf, if_pos full]
        exact ⟨received, (List.append_nil _).symm⟩
    | closed =>
        simp only [readingOf, if_pos full]
        exact ⟨received, (List.append_nil _).symm⟩
  · rw [ioClientRead_short split ending _ few full] at read
    obtain ⟨commands, _, same⟩ := bind_eq_ok.mp read
    cases same
    have short : readingOf pieces.flatten ending = .short := by
      cases ending with
      | again => rw [readingOf, if_neg full]
      | closed => rw [readingOf, if_neg full]
    simp only [short, Handler.read, Handler.exportOf, received]
    refine ⟨?_, rfl⟩
    rw [Handler.modify_self]
    rfl

end ForkRedis
