import ForkRedis.Locality
import ForkRedis.Migration
import ForkRedis.Scanner

set_option autoImplicit false

/- The client: what it makes of a line, and what the server makes of that. `EXPIRE` is
given in seconds by the user, and as a point in time to the server. -/
namespace ForkRedis

open Lists Fallible Decimal Json11

namespace Client

/-- The client takes `-`, `.` and `:` for letters too. -/
def isTokenMember (c : UInt8) : Bool :=
  ForkRedis.isTokenMember c || c == 45 || c == 46 || c == 58

def rawCommandToRequest (raw : Bytes) : Request := Scan.runs isTokenMember raw

theorem returns_rawCommandToRequest (raw : Bytes) :
    Scanner.Returns isTokenMember raw (rawCommandToRequest raw) :=
  Scanner.returns_runs isTokenMember raw

/-- `cmd_arr`, as it is sent. Its first element is read whether or not there is one, and
the third of an `expire` is counted from `now`, which is `UsTime()`, in `std::size_t`. -/
def cmdArr (now : UInt64) (input : Bytes) : Except Fault Request :=
  match rawCommandToRequest input with
  | [] => .error .undefined
  | first :: args =>
      if first = bytes "expire" then
        match args with
        | key :: seconds :: rest => do
            let n ← stoull seconds
            return first :: key :: toStringSize (now + n * 1000000).toNat :: rest
        | _ => return first :: args
      else return first :: args

/-- A round of `ClientEnd`: the bytes that are written to the socket. -/
def clientEnd (now : UInt64) (input : Bytes) : Except Fault Bytes := do
  let request ← cmdArr now input
  return dump request

/-- The line is an `EXPIRE` of a key that the client's database has, after a number of
seconds that does not lead out of 64 bits. -/
def Asks (server : Server) (client : Nat) (now : UInt64) (input key : Bytes) (n : Nat) : Prop :=
  ∃ first digits rest index,
    rawCommandToRequest input = first :: key :: digits :: rest ∧
      commandName (first.map toUpper) = some (.db .expire) ∧
      digits.all isDigit = true ∧ value digits = n ∧ now.toNat + n * 1000000 < 2 ^ 64 ∧
      server.clients client = some index ∧ server.entry index key ≠ none

/-- The server executes what the client sends, and the key then expires at a time. -/
def Expires (env : Env) (server : Server) (client : Nat) (now : UInt64) (input key : Bytes)
    (time : Nat) : Prop :=
  ∃ sent server' index kv expiry,
    clientEnd now input = .ok sent ∧
      server.serve env client (exportMessages sent).1 = .ok server' ∧
      server'.clients client = some index ∧ server'.entry index key = some kv ∧
      kv.expireTimeUs = some expiry ∧ expiry.toNat = time

/-- Seconds are counted from the client's time, and no other line is altered. -/
def CountsSeconds (env : Env) (server : Server) (client : Nat) (now : UInt64) (input : Bytes) :
    Prop :=
  (∀ key n, Asks server client now input key n →
      Expires env server client now input key (now.toNat + n * 1000000)) ∧
    ((∀ key n, ¬ Asks server client now input key n) →
      clientEnd now input = .ok (dump (rawCommandToRequest input)))

/-- The line has a token. An `EXPIRE` is spelled as the client has it, unless both times
are zero. No other line starts with `expire` and has a third token, unless that is what it
would be replaced with. -/
def Spelled (server : Server) (client : Nat) (now : UInt64) (input : Bytes) : Prop :=
  ∃ first args, rawCommandToRequest input = first :: args ∧
    (∀ key n, Asks server client now input key n → first = bytes "expire" ∨ now = 0 ∧ n = 0) ∧
    ((∀ key n, ¬ Asks server client now input key n) →
      ∀ key third rest, first = bytes "expire" → args = key :: third :: rest →
        ∃ n : UInt64, third = numeral n.toNat ∧ now + n * 1000000 = n)

end Client

theorem redisStrToSize_digits {digits : Bytes} (some_digit : digits ≠ [])
    (all : digits.all isDigit = true) (small : value digits < 2 ^ 64) :
    redisStrToSize digits = .ok (some (UInt64.ofNat (value digits))) := by
  rw [redisStrToSize, if_neg some_digit, if_pos all, stoull_digits some_digit all, if_pos small]
  rfl

/-- `EXPIRE` on the database of a client. -/
theorem Db.handle_expire (env : Env) (db : Db) {first key digits : Bytes} {rest : List Bytes}
    (named : commandName (first.map toUpper) = some (.db .expire))
    (filled : ∀ text ∈ first :: key :: digits :: rest, text ≠ [])
    (all : digits.all isDigit = true) (small : value digits < 2 ^ 64) :
    db.handle env (first :: key :: digits :: rest) =
      .ok (db.expireAt key (UInt64.ofNat (value digits))).1 := by
  have upper : ∀ text ∈ first.map toUpper :: key :: digits :: rest, text ≠ [] := by
    intro text member
    rcases List.mem_cons.mp member with rfl | member
    · exact fun empty => filled first List.mem_cons_self (List.map_eq_nil_iff.mp empty)
    · exact filled text (List.mem_cons_of_mem _ member)
  have some_digit : digits ≠ [] :=
    filled digits (List.mem_cons_of_mem _ (List.mem_cons_of_mem _ List.mem_cons_self))
  have parsed := jsonToKeyCommand_eq DbName.expire false
    (first.map toUpper :: key :: digits :: rest)
  rw [accepted_filled upper, if_pos ⟨List.cons_ne_nil _ _, rfl⟩] at parsed
  have made : toCommand (first.map toUpper :: key :: digits :: rest) (.db .expire) =
      .ok (.db ⟨true, .expire, key, some digits⟩) :=
    congrArg (fun c => Except.ok (Command.db c)) parsed
  rw [handle, requestToCommandExec, named]
  simp only [made, ok_bind, pure_eq_ok]
  change (DbCommand.exec env.now ⟨true, .expire, key, some digits⟩ db).map Prod.fst = _
  simp only [DbCommand.exec, optionalValue, ok_bind, redisStrToSize_digits some_digit all small]
  rfl

namespace Client

variable {env : Env} {server : Server} {client index : Nat} {now : UInt64} {input : Bytes}

/-- A token is not empty, and has no bracket. -/
theorem token_clean {text : Bytes} (token : Scan.Run isTokenMember text) :
    text ≠ [] ∧ (93 : UInt8) ∉ text :=
  ⟨token.1, fun bracket => absurd (token.2 93 bracket) (by decide)⟩

theorem run_numeral (n : Nat) : Scan.Run isTokenMember (numeral n) := by
  have word := word_numeral n
  refine ⟨word.1, fun c inside => ?_⟩
  rw [isTokenMember, word.2 c inside]
  rfl

theorem exportMessages_tokens {request : Request}
    (tokens : ∀ text ∈ request, Scan.Run isTokenMember text) :
    exportMessages (dump request) = ([request], []) :=
  exportMessages_request fun value inside => (token_clean (tokens value inside)).2

theorem dump_tokens_inj {request other : Request}
    (tokens : ∀ text ∈ request, Scan.Run isTokenMember text)
    (others : ∀ text ∈ other, Scan.Run isTokenMember text) (same : dump request = dump other) :
    request = other := by
  have found := exportMessages_tokens tokens
  rw [same, exportMessages_tokens others] at found
  exact (List.cons.inj (Prod.mk.inj found).1).1.symm

/-- An `EXPIRE` that comes over the wire stores the number that is its third element. -/
theorem serve_expire (env : Env) {first key digits : Bytes} {rest : List Bytes}
    (tokens : ∀ text ∈ first :: key :: digits :: rest, Scan.Run isTokenMember text)
    (named : commandName (first.map toUpper) = some (.db .expire))
    (all : digits.all isDigit = true) (small : value digits < 2 ^ 64)
    (attached : server.clients client = some index) (there : server.entry index key ≠ none) :
    ∃ server' kv,
      server.serve env client (exportMessages (dump (first :: key :: digits :: rest))).1 =
          .ok server' ∧
        server'.clients client = some index ∧ server'.entry index key = some kv ∧
        kv.expireTimeUs = some (UInt64.ofNat (value digits)) := by
  obtain ⟨kv, found⟩ := Option.ne_none_iff_exists'.mp there
  obtain ⟨db, located, present⟩ := Option.bind_eq_some_iff.mp found
  have lone : Request.local (first :: key :: digits :: rest) = true := by
    rw [Request.local, commandOf, List.headD_cons, named]
    rfl
  have executed : db.serve env [first :: key :: digits :: rest] =
      .ok (db.makeExpireAt key (UInt64.ofNat (value digits))) := by
    rw [Db.serve, List.foldlM_cons, Db.handle_expire env db named
      (fun text inside => (token_clean (tokens text inside)).1) all small, Db.expireAt, present]
    rfl
  refine ⟨server.setDatabase index (db.makeExpireAt key (UInt64.ofNat (value digits))),
    { kv with expireTimeUs := some (UInt64.ofNat (value digits)) }, ?_, attached, ?_, rfl⟩
  · rw [exportMessages_tokens tokens, Server.serve_local env attached located, executed]
    · rfl
    · intro request listed
      rw [List.mem_singleton.mp listed]
      exact lone
  · rw [Server.entry_setDatabase located, if_pos rfl, Db.find_makeExpireAt, if_pos rfl, present,
      Option.map_some]

theorem expires_iff {first key digits : Bytes} {rest : List Bytes} {time : Nat}
    (sent : clientEnd now input = .ok (dump (first :: key :: digits :: rest)))
    (tokens : ∀ text ∈ first :: key :: digits :: rest, Scan.Run isTokenMember text)
    (named : commandName (first.map toUpper) = some (.db .expire))
    (all : digits.all isDigit = true) (small : value digits < 2 ^ 64)
    (attached : server.clients client = some index) (there : server.entry index key ≠ none) :
    Expires env server client now input key time ↔ value digits = time := by
  obtain ⟨server', kv, served, inside, found, expires⟩ :=
    serve_expire env tokens named all small attached there
  have exact : (UInt64.ofNat (value digits)).toNat = value digits := UInt64.toNat_ofNat_of_lt' small
  constructor
  · rintro ⟨sent', server'', index', kv', expiry, written, served', inside', found', expires', rfl⟩
    cases sent.symm.trans written
    cases served.symm.trans served'
    cases inside.symm.trans inside'
    cases found.symm.trans found'
    cases expires.symm.trans expires'
    exact exact.symm
  · rintro rfl
    exact ⟨_, server', index, kv, _, sent, served, inside, found, expires, exact⟩

theorem tokens_of_eq {first : Bytes} {args : Request}
    (scanned : rawCommandToRequest input = first :: args) :
    ∀ text ∈ first :: args, Scan.Run isTokenMember text := by
  rw [← scanned]
  exact fun text listed => Scan.run_of_mem_runs listed

theorem tokens_replaced {first key third : Bytes} {rest : List Bytes}
    (tokens : ∀ text ∈ first :: key :: third :: rest, Scan.Run isTokenMember text) (n : Nat) :
    ∀ text ∈ first :: key :: numeral n :: rest, Scan.Run isTokenMember text := by
  simp only [List.forall_mem_cons] at tokens ⊢
  exact ⟨tokens.1, tokens.2.1, run_numeral n, tokens.2.2.2⟩

theorem clientEnd_other {first : Bytes} {args : Request}
    (scanned : rawCommandToRequest input = first :: args) (other : first ≠ bytes "expire") :
    clientEnd now input = .ok (dump (first :: args)) := by
  rw [clientEnd, cmdArr, scanned]
  simp only [if_neg other]
  rfl

theorem clientEnd_expire {key third : Bytes} {rest : List Bytes}
    (scanned : rawCommandToRequest input = bytes "expire" :: key :: third :: rest) :
    clientEnd now input = (stoull third).map fun n =>
      dump (bytes "expire" :: key :: numeral (now + n * 1000000).toNat :: rest) := by
  rw [clientEnd, cmdArr, scanned]
  simp only [↓reduceIte]
  cases stoull third <;> rfl

/-- What an `EXPIRE` that is well asked for leads to. -/
theorem Asks.expires_iff {key : Bytes} {n : Nat} (asks : Asks server client now input key n)
    {first : Bytes} {args : Request} (scanned : rawCommandToRequest input = first :: args) :
    Expires env server client now input key (now.toNat + n * 1000000) ↔
      first = bytes "expire" ∨ now = 0 ∧ n = 0 := by
  obtain ⟨first', digits, rest, index, scanned', named, all, rfl, small, attached, there⟩ := asks
  obtain ⟨rfl, rfl⟩ := List.cons.inj (scanned.symm.trans scanned')
  have tokens := tokens_of_eq scanned
  have some_digit : digits ≠ [] :=
    (tokens digits (List.mem_cons_of_mem _ (List.mem_cons_of_mem _ List.mem_cons_self))).1
  by_cases lower : first = bytes "expire"
  · refine iff_of_true ?_ (Or.inl lower)
    subst lower
    have point : (now + UInt64.ofNat (value digits) * 1000000).toNat =
        now.toNat + value digits * 1000000 := by
      have factor : (1000000 : UInt64).toNat = 1000000 := rfl
      rw [UInt64.toNat_add, UInt64.toNat_mul, UInt64.toNat_ofNat', factor]
      omega
    have sent : clientEnd now input = .ok (dump (bytes "expire" :: key ::
        numeral (now.toNat + value digits * 1000000) :: rest)) := by
      rw [clientEnd_expire scanned, stoull_digits some_digit all, if_pos (by omega)]
      rw [← point]
      rfl
    refine (Client.expires_iff sent (tokens_replaced tokens _) named (numeral_digits _) ?_ attached
      there).mpr (value_numeral _)
    rw [value_numeral]
    exact small
  · rw [Client.expires_iff (clientEnd_other scanned lower) tokens named all (by omega) attached
      there, or_iff_right lower, ← UInt64.toNat_inj, UInt64.toNat_zero]
    omega

theorem stoull_numeral (n : UInt64) : stoull (numeral n.toNat) = .ok n := by
  rw [stoull_digits (numeral_ne_nil _) (numeral_digits _), value_numeral, if_pos n.toNat_lt,
    UInt64.ofNat_toNat]

/-- A line is sent as it is, unless it starts with `expire` and has a third token other
than its replacement. -/
theorem unaltered_iff {first : Bytes} {args : Request}
    (scanned : rawCommandToRequest input = first :: args) :
    clientEnd now input = .ok (dump (first :: args)) ↔
      ∀ key third rest, first = bytes "expire" → args = key :: third :: rest →
        ∃ n : UInt64, third = numeral n.toNat ∧ now + n * 1000000 = n := by
  by_cases lower : first = bytes "expire"
  · subst lower
    match args with
    | [] | [_] =>
        refine iff_of_true ?_ ?_
        · rw [clientEnd, cmdArr, scanned]
          rfl
        · intro key third rest _ same
          cases same
    | key :: third :: rest =>
        rw [clientEnd_expire scanned, map_eq_ok]
        constructor
        · rintro ⟨n, converted, same⟩ key' third' rest' _ split
          cases split
          have tokens := tokens_of_eq scanned
          have replaced := dump_tokens_inj (tokens_replaced tokens _) tokens same
          simp only [List.cons.injEq, true_and, and_true] at replaced
          rw [← replaced, stoull_numeral, Except.ok.injEq] at converted
          refine ⟨n, ?_, converted⟩
          rw [← replaced, converted]
        · intro replaced
          obtain ⟨n, rfl, fixed⟩ := replaced key third rest rfl rfl
          exact ⟨n, stoull_numeral n, by rw [fixed]⟩
  · exact iff_of_true (clientEnd_other scanned lower) fun _ _ _ same => absurd same lower

/-- `EXPIRE` in seconds reaches the server as a point in time, and no other line is altered,
exactly on the lines that are spelled as the client expects. -/
theorem counts_seconds_iff (env : Env) (server : Server) (client : Nat) (now : UInt64)
    (input : Bytes) :
    CountsSeconds env server client now input ↔ Spelled server client now input := by
  cases scanned : rawCommandToRequest input with
  | nil =>
      refine iff_of_false ?_ ?_
      · rintro ⟨-, unaltered⟩
        have unasked : ∀ key n, ¬ Asks server client now input key n := by
          rintro key n ⟨first, digits, rest, index, split, -⟩
          cases scanned.symm.trans split
        have sent := unaltered unasked
        rw [clientEnd, cmdArr, scanned] at sent
        cases sent
      · rintro ⟨first, args, split, -⟩
        cases scanned.symm.trans split
  | cons first args =>
      constructor
      · rintro ⟨counts, unaltered⟩
        refine ⟨first, args, scanned, ?_, ?_⟩
        · exact fun key n asks => (asks.expires_iff scanned).mp (counts key n asks)
        · intro other
          have sent := unaltered other
          rw [scanned] at sent
          exact (unaltered_iff scanned).mp sent
      · rintro ⟨first', args', split, asked, others⟩
        cases scanned.symm.trans split
        refine ⟨?_, ?_⟩
        · exact fun key n asks => (asks.expires_iff scanned).mpr (asked key n asks)
        · intro other
          rw [scanned]
          exact (unaltered_iff scanned).mpr (others other)

/-- In upper case ten seconds are sent as they are, and become ten microseconds after the
epoch. Five seconds have passed since then. -/
theorem upper_case_not_counted :
    ∃ server, Server.oneClient.serve quietEnv 0 [[bytes "SET", bytes "k", bytes "v"]] = .ok server ∧
      Asks server 0 5000000 (bytes "EXPIRE k 10") (bytes "k") 10 ∧
      Expires quietEnv server 0 5000000 (bytes "EXPIRE k 10") (bytes "k") 10 ∧
      ¬ CountsSeconds quietEnv server 0 5000000 (bytes "EXPIRE k 10") := by
  obtain ⟨server, served, shape⟩ : ∃ server,
      Server.oneClient.serve quietEnv 0 [[bytes "SET", bytes "k", bytes "v"]] = .ok server ∧
      (server.clients 0 = some 0 ∧ (server.entry 0 (bytes "k")).isSome = true) :=
    ok_checked (by decide +kernel)
  have there : server.entry 0 (bytes "k") ≠ none := Option.isSome_iff_ne_none.mp shape.2
  have scanned : rawCommandToRequest (bytes "EXPIRE k 10") =
      [bytes "EXPIRE", bytes "k", bytes "10"] := by decide +kernel
  have named : commandName ((bytes "EXPIRE").map toUpper) = some (.db .expire) := by
    decide +kernel
  have asks : Asks server 0 5000000 (bytes "EXPIRE k 10") (bytes "k") 10 :=
    ⟨_, _, _, 0, scanned, named, rfl, rfl, by decide, shape.1, there⟩
  refine ⟨server, served, asks, ?_, ?_⟩
  · exact (expires_iff (clientEnd_other scanned (by decide)) (tokens_of_eq scanned) named rfl
      (by decide) shape.1 there).mpr rfl
  · intro counts
    have spelled := (asks.expires_iff scanned).mp (counts.1 _ _ asks)
    revert spelled
    decide

end Client

end ForkRedis
