import ForkRedis.Json11

set_option autoImplicit false

/- `ClientInfo::ExportMessages`: requests are cut out of the receive buffer at the
brackets of their JSON arrays. -/
namespace ForkRedis

open Json11

/-- A request as the handlers see it: the strings of the array. -/
abbrev Request := List Bytes

/-- The position `std::find` returns; the length stands for `end()`. -/
def findByte (c : UInt8) (buffer : Bytes) : Nat := buffer.idxOf c

/-- One round of the loop: the element from the first `[` to the first `]`, and what is
left in the buffer. -/
def nextMessage (buffer : Bytes) : Option (Bytes × Bytes) :=
  let beg := findByte 91 buffer
  let end_ := findByte 93 buffer
  if beg = buffer.length ∨ end_ = buffer.length ∨ end_ ≤ beg then none
  else some ((buffer.take (end_ + 1)).drop beg, buffer.drop (end_ + 1))

def exportRounds : Nat → Bytes → List Request × Bytes
  | 0, buffer => ([], buffer)
  | rounds + 1, buffer =>
      match nextMessage buffer with
      | none => ([], buffer)
      | some (element, rest) =>
          let exported := exportRounds rounds rest
          (parse element :: exported.1, exported.2)

/-- Every round erases at least the closing bracket, so there are no more rounds than
bytes. -/
def exportMessages (buffer : Bytes) : List Request × Bytes := exportRounds buffer.length buffer

theorem nextMessage_shorter {buffer element rest : Bytes}
    (cut : nextMessage buffer = some (element, rest)) : rest.length < buffer.length := by
  simp only [nextMessage] at cut
  split at cut
  · cases cut
  · rename_i inside
    cases cut
    have bound : findByte 93 buffer ≤ buffer.length := List.idxOf_le_length
    rw [List.length_drop]
    omega

theorem count_escape (ch : UInt8) : (escape ch).count 93 = if ch = 93 then 1 else 0 := by
  have every : ∀ n < 256, (escape (UInt8.ofNat n)).count 93 =
      if UInt8.ofNat n = 93 then 1 else 0 := by decide +kernel
  have at_ch := every ch.toNat ch.toNat_lt
  rwa [UInt8.ofNat_toNat] at at_ch

/-- `dump` does not escape the bracket, and writes none of its own inside a string. -/
theorem count_dumpChars (value : Bytes) : (dumpChars value).count 93 = value.count 93 := by
  have single (a : UInt8) (rest : Bytes) :
      (escape a).count 93 + rest.count 93 = (a :: rest).count 93 := by
    rw [count_escape, List.count_cons, Nat.add_comm]
    simp only [beq_iff_eq]
  induction value using dumpChars.induct with
  | case1 => rfl
  | case2 a => exact single a []
  | case3 a b => rw [dumpChars, List.count_append, ← single a, ← single b]; rfl
  | case4 a b c rest line ih =>
      obtain ⟨rfl, rfl, rfl⟩ := line
      rw [dumpChars, if_pos ⟨rfl, rfl, rfl⟩, List.count_append, ih]
      simp only [List.count_cons]
      exact Nat.zero_add _
  | case5 a b c rest line paragraph ih =>
      obtain ⟨rfl, rfl, rfl⟩ := paragraph
      rw [dumpChars, if_neg line, if_pos ⟨rfl, rfl, rfl⟩, List.count_append, ih]
      simp only [List.count_cons]
      exact Nat.zero_add _
  | case6 a b c rest line paragraph ih =>
      rw [dumpChars, if_neg line, if_neg paragraph, List.count_append, ih, single]

theorem count_dumpString (value : Bytes) : (dumpString value).count 93 = value.count 93 := by
  rw [dumpString, List.count_cons, List.count_append, count_dumpChars]
  rfl

/-- The closing brackets inside the strings of a request. -/
def innerBrackets (request : Request) : Nat := request.flatten.count 93

theorem innerBrackets_eq_zero_iff (request : Request) :
    innerBrackets request = 0 ↔ ∀ value ∈ request, (93 : UInt8) ∉ value := by
  rw [innerBrackets, List.count_eq_zero, List.mem_flatten]
  push Not
  rfl

/-- The dump of a request is closed by its last byte. -/
theorem dumpItems_closed (request : Request) :
    ∃ body, dumpItems request = body ++ [93] ∧ body.count 93 = innerBrackets request := by
  induction request with
  | nil => exact ⟨[], rfl, rfl⟩
  | cons first rest ih =>
      cases rest with
      | nil =>
          refine ⟨dumpString first, rfl, ?_⟩
          rw [count_dumpString, innerBrackets, List.flatten_singleton]
      | cons second rest =>
          obtain ⟨body, closed, counted⟩ := ih
          refine ⟨dumpString first ++ (bytes ", " ++ body), ?_, ?_⟩
          · rw [dumpItems, closed, List.append_assoc, List.append_assoc]
          · have separator : (bytes ", ").count 93 = 0 := rfl
            rw [List.count_append, List.count_append, count_dumpString, counted, separator,
              Nat.zero_add, innerBrackets, innerBrackets, List.flatten_cons (l := first),
              List.count_append]

theorem count_dump (request : Request) :
    (dump request).count 93 = innerBrackets request + 1 := by
  obtain ⟨body, closed, counted⟩ := dumpItems_closed request
  rw [dump, closed, List.count_cons, List.count_append, counted]
  rfl

/-- A request without inner brackets is the next message whatever follows. -/
theorem nextMessage_dump {request : Request} (clean : innerBrackets request = 0) (rest : Bytes) :
    nextMessage (dump request ++ rest) = some (dump request, rest) := by
  obtain ⟨body, closed, counted⟩ := dumpItems_closed request
  have absent : (93 : UInt8) ∉ 91 :: body := by
    rw [List.mem_cons, not_or]
    exact ⟨by decide, List.count_eq_zero.mp (counted.trans clean)⟩
  have shape : dump request = (91 :: body) ++ [93] := by rw [dump, closed, List.cons_append]
  have opened : findByte 91 (dump request ++ rest) = 0 := by
    rw [dump, List.cons_append, findByte, List.idxOf_cons_self]
  have ended : findByte 93 (dump request ++ rest) + 1 = (dump request).length := by
    rw [shape, findByte, List.append_assoc, List.idxOf_append_of_notMem absent, List.length_append]
    rfl
  have long : 2 ≤ (dump request).length := by
    rw [shape, List.length_append, List.length_cons, List.length_singleton]
    omega
  have inside : ¬ (0 = (dump request ++ rest).length ∨
      findByte 93 (dump request ++ rest) = (dump request ++ rest).length ∨
      findByte 93 (dump request ++ rest) ≤ 0) := by
    rw [List.length_append]
    omega
  simp only [nextMessage, opened, inside, ↓reduceIte, ended, List.take_left, List.drop_left,
    List.drop_zero]

theorem exportRounds_dump {requests : List Request}
    (clean : ∀ request ∈ requests, innerBrackets request = 0) {rounds : Nat}
    (enough : requests.length ≤ rounds) :
    exportRounds rounds (requests.flatMap dump) = (requests, []) := by
  induction requests generalizing rounds with
  | nil =>
      cases rounds with
      | zero => rfl
      | succ rounds => rfl
  | cons request requests ih =>
      cases rounds with
      | zero => cases enough
      | succ rounds =>
          have tail := ih (fun other member => clean other (List.mem_cons_of_mem _ member))
            (Nat.le_of_succ_le_succ enough)
          have head := nextMessage_dump (clean request List.mem_cons_self) (requests.flatMap dump)
          simp only [List.flatMap_cons, exportRounds, head, tail, parse_dump]

/-- A round takes exactly one closing bracket out of the buffer. -/
theorem nextMessage_count {buffer element rest : Bytes}
    (cut : nextMessage buffer = some (element, rest)) : buffer.count 93 = rest.count 93 + 1 := by
  simp only [nextMessage] at cut
  split at cut
  · cases cut
  · rename_i inside
    cases cut
    have found : (93 : UInt8) ∈ buffer := by
      rw [← List.idxOf_lt_length_iff]
      have bound := List.idxOf_le_length (a := (93 : UInt8)) (l := buffer)
      simp only [findByte] at inside
      omega
    obtain ⟨front, back, rfl, fresh⟩ := List.eq_append_cons_of_mem found
    have position : findByte 93 (front ++ 93 :: back) + 1 = (front ++ [93]).length := by
      rw [findByte, List.idxOf_append_of_notMem fresh, List.idxOf_cons_self, List.length_append]
      rfl
    rw [position, ← List.singleton_append (l := back), ← List.append_assoc, List.drop_left,
      List.count_append, List.count_append, List.count_eq_zero.mpr fresh, Nat.zero_add,
      Nat.add_comm]
    rfl

/-- A buffer that is used up gave as many messages as it had closing brackets. -/
theorem exportRounds_count {rounds : Nat} {buffer : Bytes} {messages : List Request}
    (used : exportRounds rounds buffer = (messages, [])) : messages.length = buffer.count 93 := by
  induction rounds generalizing buffer messages with
  | zero =>
      cases used
      rfl
  | succ rounds ih =>
      rw [exportRounds] at used
      split at used
      · cases used
        rfl
      · rename_i element rest cut
        obtain ⟨rfl, left⟩ := Prod.mk.inj used
        rw [nextMessage_count cut, List.length_cons, ih (Prod.ext rfl left)]

theorem count_flatMap_dump (requests : List Request) :
    (requests.flatMap dump).count 93 = (requests.flatMap id).flatten.count 93 + requests.length := by
  induction requests with
  | nil => rfl
  | cons request requests ih =>
      rw [List.flatMap_cons, List.count_append, ih, count_dump, innerBrackets, List.flatMap_cons,
        List.flatten_append, List.count_append, List.length_cons, id]
      omega

/-- Requests without inner brackets are all found again, and use up the buffer. -/
theorem exportMessages_dump {requests : List Request}
    (clean : ∀ request ∈ requests, innerBrackets request = 0) :
    exportMessages (requests.flatMap dump) = (requests, []) := by
  apply exportRounds_dump clean
  have counted := count_flatMap_dump requests
  have bounded := List.count_le_length (a := (93 : UInt8)) (l := requests.flatMap dump)
  omega

theorem exportMessages_request {request : Request}
    (clean : ∀ value ∈ request, (93 : UInt8) ∉ value) :
    exportMessages (dump request) = ([request], []) := by
  have alone : [request].flatMap dump = dump request := List.flatMap_singleton ..
  rw [← alone]
  apply exportMessages_dump
  intro other listed
  rw [List.mem_singleton.mp listed]
  exact (innerBrackets_eq_zero_iff request).mpr clean

/-- Framing undoes serialisation exactly on requests whose strings hold no closing
bracket. -/
theorem exportMessages_dump_iff (requests : List Request) :
    exportMessages (requests.flatMap dump) = (requests, []) ↔
      ∀ request ∈ requests, ∀ value ∈ request, (93 : UInt8) ∉ value := by
  constructor
  · intro undone
    have counted := exportRounds_count undone
    rw [count_flatMap_dump] at counted
    have clean : (requests.flatMap id).flatten.count 93 = 0 := by omega
    intro request member value inside bracket
    refine List.count_eq_zero.mp clean (List.mem_flatten.mpr ⟨value, ?_, bracket⟩)
    exact List.mem_flatMap.mpr ⟨request, member, inside⟩
  · intro clean
    apply exportMessages_dump
    intro request member
    exact (innerBrackets_eq_zero_iff request).mpr (clean request member)

/-- A value with a closing bracket is cut in two: the server sees an empty request, and
the rest of the value stays in the buffer. -/
theorem exportMessages_inner_bracket :
    exportMessages ([[bytes "SET", bytes "k", bytes "a]b"]].flatMap dump) = ([[]], bytes "b\"]") ∧
      exportMessages ([[bytes "SET", bytes "k", bytes "a]b"]].flatMap dump) ≠
        ([[bytes "SET", bytes "k", bytes "a]b"]], []) := by
  constructor
  · decide +kernel
  · decide +kernel

/- The chunks in which the bytes arrive. -/

/-- A run of the loop of `ExportMessages` from its first round to its `break`. -/
inductive ExportRun : Bytes → List Request × Bytes → Prop where
  | stop {buffer : Bytes} (uncut : nextMessage buffer = none) : ExportRun buffer ([], buffer)
  | round {buffer element rest : Bytes} {exported : List Request × Bytes}
      (cut : nextMessage buffer = some (element, rest)) (later : ExportRun rest exported) :
      ExportRun buffer (parse element :: exported.1, exported.2)

theorem exportRun_exportRounds {rounds : Nat} {buffer : Bytes} (enough : buffer.length ≤ rounds) :
    ExportRun buffer (exportRounds rounds buffer) := by
  induction rounds generalizing buffer with
  | zero =>
      cases List.length_eq_zero_iff.mp (Nat.le_zero.mp enough)
      exact .stop rfl
  | succ rounds ih =>
      rw [exportRounds]
      split
      · rename_i uncut
        exact .stop uncut
      · rename_i element rest cut
        have shorter := nextMessage_shorter cut
        exact .round cut (ih (by omega))

theorem exportRun_exportMessages (buffer : Bytes) : ExportRun buffer (exportMessages buffer) :=
  exportRun_exportRounds (Nat.le_refl _)

/-- The loop can be run in one way only. -/
theorem ExportRun.unique {buffer : Bytes} {first second : List Request × Bytes}
    (run : ExportRun buffer first) (other : ExportRun buffer second) : first = second := by
  induction run generalizing second with
  | stop uncut =>
      cases other with
      | stop _ => rfl
      | round cut _ =>
          rw [uncut] at cut
          cases cut
  | round cut _ ih =>
      cases other with
      | stop uncut =>
          rw [uncut] at cut
          cases cut
      | round cut' later =>
          rw [cut] at cut'
          cases cut'
          rw [ih later]

/-- A frame that is found in a buffer is the one that is found when more has arrived: the
first brackets stay the first. -/
theorem nextMessage_append {buffer element rest : Bytes}
    (cut : nextMessage buffer = some (element, rest)) (more : Bytes) :
    nextMessage (buffer ++ more) = some (element, rest ++ more) := by
  simp only [nextMessage] at cut ⊢
  split at cut
  · cases cut
  · rename_i inside
    cases cut
    have opened : findByte 91 buffer < buffer.length :=
      Nat.lt_of_le_of_ne List.idxOf_le_length fun missing => inside (Or.inl missing)
    have closed : findByte 93 buffer < buffer.length :=
      Nat.lt_of_le_of_ne List.idxOf_le_length fun missing => inside (Or.inr (Or.inl missing))
    have first : findByte 91 (buffer ++ more) = findByte 91 buffer :=
      List.idxOf_append_of_mem (List.idxOf_lt_length_iff.mp opened)
    have last : findByte 93 (buffer ++ more) = findByte 93 buffer :=
      List.idxOf_append_of_mem (List.idxOf_lt_length_iff.mp closed)
    rw [first, last, List.length_append, if_neg (by omega),
      List.take_append_of_le_length (by omega), List.drop_append_of_le_length (by omega)]

/-- What a run leaves in the buffer is all that matters for what arrives later. -/
theorem ExportRun.append {buffer more : Bytes} {exported later : List Request × Bytes}
    (run : ExportRun buffer exported) (next : ExportRun (exported.2 ++ more) later) :
    ExportRun (buffer ++ more) (exported.1 ++ later.1, later.2) := by
  induction run with
  | stop _ => exact next
  | round cut _ ih => exact .round (nextMessage_append cut more) (ih next)

/-- A chunk is appended to `recv_buffer_`, and `ExportMessages` is called. -/
def receive (received : List Request × Bytes) (chunk : Bytes) : List Request × Bytes :=
  let exported := exportMessages (received.2 ++ chunk)
  (received.1 ++ exported.1, exported.2)

theorem exportRun_receive {stream : Bytes} {received : List Request × Bytes}
    (run : ExportRun stream received) (chunks : List Bytes) :
    ExportRun (stream ++ chunks.flatten) (chunks.foldl receive received) := by
  induction chunks generalizing stream received with
  | nil =>
      rw [List.flatten_nil, List.append_nil]
      exact run
  | cons chunk chunks ih =>
      rw [List.flatten_cons, ← List.append_assoc]
      exact ih (run.append (exportRun_exportMessages (received.2 ++ chunk)))

/-- Every call ends at its `break`, and however a stream is cut into chunks, the same
messages are exported and the same bytes are left as if it had arrived at once. -/
theorem receive_chunks (chunks : List Bytes) :
    (∀ buffer, ExportRun buffer (exportMessages buffer)) ∧
      chunks.foldl receive ([], []) = exportMessages chunks.flatten :=
  ⟨exportRun_exportMessages,
    (exportRun_receive (.stop rfl) chunks).unique (exportRun_exportMessages chunks.flatten)⟩

end ForkRedis
