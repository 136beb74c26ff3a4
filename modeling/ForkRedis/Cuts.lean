import ForkRedis.Aof
import ForkRedis.Brackets

set_option autoImplicit false

/- A log that ends anywhere: what is read of a file of which only a first part got to the
disk. -/
namespace ForkRedis

open Json11 Lists

/-- The batches of so many lines, each batch with a line for its `SELECT`. -/
def cut : Nat → List Batch → List Batch
  | 0, _ => []
  | _, [] => []
  | count + 1, batch :: batches =>
      ⟨batch.number, batch.requests.take count⟩ :: cut (count - batch.requests.length) batches

/-- Whatever is written for a header and for each request of a batch. -/
theorem flatMap_cut {α : Type} (header : Int32 → α) (line : Int32 → Request → α) (count : Nat)
    (batches : List Batch) :
    (cut count batches).flatMap (fun batch =>
        header batch.number :: batch.requests.map (line batch.number)) =
      (batches.flatMap fun batch =>
        header batch.number :: batch.requests.map (line batch.number)).take count := by
  induction batches generalizing count with
  | nil => cases count <;> simp [cut]
  | cons batch batches ih =>
      cases count with
      | zero => rfl
      | succ count =>
          simp only [cut, List.flatMap_cons, ih, List.cons_append, List.take_succ_cons,
            List.take_append, List.length_map, List.map_take]

theorem lines_cut (password : Bytes) (count : Nat) (batches : List Batch) :
    (cut count batches).flatMap (Batch.lines password) =
      (batches.flatMap (Batch.lines password)).take count := by
  have lines : Batch.lines password = fun batch =>
      selectRequest batch.number password :: batch.requests.map fun request => request := by
    funext batch
    rw [Batch.lines, List.map_id']
  rw [lines]
  exact flatMap_cut (selectRequest · password) (fun _ request => request) count batches

/-- The data request of a line for the database with a number. -/
def dataAt (number : Int32) (line : Int32 × Option Request) : Option Request :=
  if line.1 = number then line.2.filter isData else none

/-- The lines of batches, with the number of the database they are for. -/
def numbered (batches : List Batch) : List (Int32 × Option Request) :=
  batches.flatMap fun batch =>
    (batch.number, none) :: batch.requests.map fun request => (batch.number, some request)

theorem dataFor_numbered (number : Int32) (batches : List Batch) :
    dataFor number batches = (numbered batches).filterMap (dataAt number) := by
  induction batches with
  | nil => rfl
  | cons batch batches ih =>
      have header : dataAt number (batch.number, none) = none := by
        rw [dataAt, Option.filter_none, ite_self]
      have requests : (batch.requests.map fun request => (batch.number, some request)).filterMap
          (dataAt number) = if batch.number = number then batch.requests.filter isData else [] := by
        rw [List.filterMap_map]
        split
        · rename_i same
          rw [← List.filterMap_eq_filter]
          congr 1
          funext request
          simp only [Function.comp_apply, dataAt, same, ↓reduceIte]
          rfl
        · rename_i differs
          simp [Function.comp_def, dataAt, differs]
      have first : numbered (batch :: batches) = (batch.number, none) ::
          (batch.requests.map fun request => (batch.number, some request)) ++ numbered batches :=
        List.flatMap_cons
      rw [dataFor_cons, ih, first, List.filterMap_append, List.filterMap_cons_none header, requests]

theorem numbered_cut (count : Nat) (batches : List Batch) :
    numbered (cut count batches) = (numbered batches).take count :=
  flatMap_cut (fun number => (number, none)) (fun number request => (number, some request)) count
    batches

theorem dataFor_cut_prefix (number : Int32) (count : Nat) (batches : List Batch) :
    dataFor number (cut count batches) <+: dataFor number batches := by
  rw [dataFor_numbered, dataFor_numbered, numbered_cut]
  exact (List.take_prefix count _).filterMap _

/-- However far one database had got, so far it gets with some of the lines. -/
theorem exists_cut {number : Int32} {batches : List Batch} {done : List Request}
    (early : done <+: dataFor number batches) : ∃ count, dataFor number (cut count batches) = done := by
  rw [dataFor_numbered] at early
  obtain ⟨lines, first, rfl⟩ := List.prefix_filterMap_iff.mp early
  refine ⟨lines.length, ?_⟩
  rw [dataFor_numbered, numbered_cut, ← List.prefix_iff_eq_take.mp first]

theorem Tidy.take {requests : List Request} (tidy : Tidy requests) (count : Nat) :
    Tidy (requests.take count) := by
  obtain ⟨front, back, rfl, unselected, idle⟩ := tidy
  refine ⟨front.take count, back.take (count - front.length), List.take_append, ?_, ?_⟩
  · exact fun request member => unselected request (List.mem_of_mem_take member)
  · exact fun request member => idle request (List.mem_of_mem_take member)

theorem cut_sane {fits : Request → Prop} {batches : List Batch}
    (sane : ∀ batch ∈ batches, batch.Sane fits) (count : Nat) :
    ∀ batch ∈ cut count batches, batch.Sane fits := by
  induction batches generalizing count with
  | nil => cases count <;> exact nofun
  | cons batch batches ih =>
      cases count with
      | zero => exact nofun
      | succ count =>
          have ⟨whole, others⟩ := List.forall_mem_cons.mp sane
          refine List.forall_mem_cons.mpr ⟨?_, ih others _⟩
          exact ⟨whole.unsigned, whole.tidy.take count,
            fun request member => whole.loggable request (List.mem_of_mem_take member)⟩

/-- A frame is not closed before its last byte is there. -/
theorem unclosed_take_dump {request : Request} (clean : innerBrackets request = 0) {count : Nat}
    (short : count < (dump request).length) : 93 ∉ (dump request).take count := by
  obtain ⟨body, closed, counted⟩ := dumpItems_closed request
  have shape : dump request = (91 :: body) ++ [93] := by rw [dump, closed, List.cons_append]
  have absent : (93 : UInt8) ∉ 91 :: body := by
    rw [List.mem_cons, not_or]
    exact ⟨by decide, List.count_eq_zero.mp (counted.trans clean)⟩
  rw [shape, List.length_append, List.length_singleton] at short
  rw [shape, List.take_append_of_le_length (Nat.lt_succ_iff.mp short)]
  exact fun member => absent (List.mem_of_mem_take member)

/-- The first bytes of a stream of requests, with a tail in which nothing is closed. -/
theorem exportRun_take {requests : List Request}
    (clean : ∀ request ∈ requests, innerBrackets request = 0) {tail : Bytes} (plain : 93 ∉ tail)
    (count : Nat) :
    ∃ whole rest,
      ExportRun ((requests.flatMap dump ++ tail).take count) (requests.take whole, rest) := by
  induction requests generalizing count with
  | nil =>
      refine ⟨0, _, .stop (nextMessage_of_unclosed ?_)⟩
      exact fun member => plain (List.mem_of_mem_take member)
  | cons request requests ih =>
      have ⟨first, others⟩ := List.forall_mem_cons.mp clean
      rw [List.flatMap_cons, List.append_assoc]
      by_cases short : count < (dump request).length
      · rw [List.take_append_of_le_length (Nat.le_of_lt short)]
        exact ⟨0, _, .stop (nextMessage_of_unclosed (unclosed_take_dump first short))⟩
      · obtain ⟨whole, rest, run⟩ := ih others (count - (dump request).length)
        refine ⟨whole + 1, rest, ?_⟩
        rw [List.take_append, List.take_of_length_le (Nat.not_lt.mp short), List.take_succ_cons]
        have round := ExportRun.round (nextMessage_dump first _) run
        rwa [parse_dump] at round

/-- The requests that are found in the first bytes of a stream are its first ones. -/
theorem exportMessages_take {requests : List Request}
    (clean : ∀ request ∈ requests, innerBrackets request = 0) {tail : Bytes} (plain : 93 ∉ tail)
    (count : Nat) :
    ∃ whole,
      (exportMessages ((requests.flatMap dump ++ tail).take count)).1 = requests.take whole := by
  obtain ⟨whole, rest, run⟩ := exportRun_take clean plain count
  exact ⟨whole, congrArg Prod.fst ((exportRun_exportMessages _).unique run)⟩

theorem innerBrackets_lines {fits : Request → Prop} (password : Bytes) {batches : List Batch}
    (sane : ∀ batch ∈ batches, batch.Sane fits) :
    ∀ request ∈ batches.flatMap (Batch.lines password), innerBrackets request = 0 := by
  intro request member
  obtain ⟨batch, listed, line⟩ := List.mem_flatMap.mp member
  rcases List.mem_cons.mp line with rfl | logged
  · exact innerBrackets_rawCommandToRequest _
  · exact ((sane batch listed).loggable request logged).framed

/-- A file that was cut off is read as the batches of some of its lines. -/
theorem exportMessages_fileOf_take {fits : Request → Prop} (password : Bytes)
    {batches : List Batch} (sane : ∀ batch ∈ batches, batch.Sane fits) (size : Nat) :
    ∃ count, (exportMessages (((fileOf password batches).take size).drop 3)).1 =
      (cut count batches).flatMap (Batch.lines password) := by
  obtain ⟨count, found⟩ :=
    exportMessages_take (innerBrackets_lines password sane) List.not_mem_nil (size - 3)
  refine ⟨count, ?_⟩
  rw [lines_cut, ← found, List.drop_take, fileOf, List.append_nil]
  rfl

end ForkRedis
