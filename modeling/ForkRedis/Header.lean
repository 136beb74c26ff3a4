import ForkRedis.Replay
import ForkRedis.Turns

set_option autoImplicit false

/- The `SELECT` in front of an AOF batch and of what `Fork` sends: the number and the
password are written as one line, which is taken apart into words again. -/
namespace ForkRedis

open Lists Fallible Decimal Json11

variable {number : Int32} {numHash : List Int32}

/-- A number without its sign. -/
def unsignedNumber (number : Int32) : Int32 := if number < 0 then -number else number

/-- The first number from one on that is not marked. -/
def FirstUnmarked (numHash : List Int32) (first number : Int32) : Prop :=
  ∃ k : Nat, first + Int32.ofNat k = number ∧ number ∉ numHash ∧
    ∀ j < k, first + Int32.ofNat j ∈ numHash

namespace Server

/-- A client of a server has the header executed, as it comes over the wire, and is then in
a database with the number. -/
def Arrives (env : Env) (server : Server) (client : Nat) (number : Int32) : Prop :=
  ∃ server' index db,
    server.serve env client (exportMessages (dump (selectRequest number env.password))).1 =
        .ok server' ∧
      server'.clients client = some index ∧ server'.databases[index]? = some db ∧
      db.number = number

/-- Where the header leads. The number without its sign is what is looked for: it is found,
or it is handed out to the right password, which has to be a word, or the client is sent to
the first database. -/
def Leads (server : Server) (password : Bytes) (number : Int32) : Prop :=
  number ≠ Int32.minValue ∧
    if unsignedNumber number ∈ server.databases.map Store.number then 0 ≤ number
    else if Word password then FirstUnmarked server.numHash (unsignedNumber number) number
    else server.databases.head?.map Store.number = some number

end Server

theorem isTokenMember_minus : isTokenMember 45 = false := rfl

/-- The minus sign does not get through. -/
theorem selectRequest_eq (number : Int32) (password : Bytes) :
    selectRequest number password =
      bytes "SELECT" :: numeral number.toInt.natAbs :: rawCommandToRequest password := by
  have shape : bytes "SELECT " = bytes "SELECT" ++ [space] := rfl
  have digits : rawCommandToRequest (toStringInt number ++ (space :: password)) =
      numeral number.toInt.natAbs :: rawCommandToRequest password := by
    by_cases negative : number.toInt < 0
    · rw [toStringInt, render_of_neg negative, List.cons_append,
        rawCommandToRequest_separator isTokenMember_minus,
        rawCommandToRequest_word_separator (word_numeral _) isTokenMember_space]
    · rw [toStringInt, render_of_nonneg (by omega),
        rawCommandToRequest_word_separator (word_numeral _) isTokenMember_space]
  rw [selectRequest, shape, List.append_assoc, List.singleton_append,
    rawCommandToRequest_word_separator (by decide) isTokenMember_space, digits]

/-- The header comes over the wire as it is. -/
theorem exportMessages_selectRequest (number : Int32) (password : Bytes) :
    exportMessages (dump (selectRequest number password)) =
      ([selectRequest number password], []) := by
  apply exportMessages_request
  intro value inside bracket
  have word : Word value := word_of_mem_rawCommandToRequest inside
  exact absurd (word.2 93 bracket) (by decide)

theorem jsonToCliCommand_select (first number : Bytes) (tokens : Request) :
    jsonToCliCommand .select (first :: number :: tokens) =
      ⟨true, .select, number, if tokens.length = 1 then tokens[0]? else none⟩ := by
  have several : ¬ (first :: number :: tokens).length < 2 := by
    simp only [List.length_cons]
    omega
  rw [jsonToCliCommand, if_neg (by decide), if_neg several]
  simp only [List.length_cons, Nat.reduceEqDiff]
  rfl

/-- The password is recognised exactly if it is a word. -/
theorem header_password_iff (number : Int32) (password : Bytes) :
    (jsonToCliCommand .select (selectRequest number password)).pswd = some password ↔
      Word password := by
  rw [selectRequest_eq, jsonToCliCommand_select, ← rawCommandToRequest_eq_singleton_iff]
  cases rawCommandToRequest password with
  | nil => simp
  | cons token tokens =>
      cases tokens with
      | nil => simp
      | cons second tokens => simp

theorem toInt_unsignedNumber (above : number ≠ Int32.minValue) :
    (unsignedNumber number).toInt = number.toInt.natAbs := by
  unfold unsignedNumber
  split
  · rename_i negative
    have below : number.toInt < 0 := Int32.lt_iff_toInt_lt.mp negative
    have least : number.toInt ≠ -2 ^ 31 := fun same => above (Int32.toInt_inj.mp same)
    have low := number.le_toInt
    rw [Int32.toInt_neg, Int.bmod_def]
    omega
  · rename_i positive
    have above : ¬ number.toInt < 0 := fun below => positive (Int32.lt_iff_toInt_lt.mpr below)
    omega

theorem unsignedNumber_nonneg (above : number ≠ Int32.minValue) : 0 ≤ unsignedNumber number := by
  rw [Int32.le_iff_toInt_le, toInt_unsignedNumber above]
  exact Int.natCast_nonneg _

theorem unsignedNumber_eq_iff (above : number ≠ Int32.minValue) :
    unsignedNumber number = number ↔ 0 ≤ number := by
  rw [← Int32.toInt_inj, toInt_unsignedNumber above, Int32.le_iff_toInt_le]
  show _ ↔ 0 ≤ number.toInt
  omega

theorem redisStrToInt_header (above : number ≠ Int32.minValue) :
    redisStrToInt (numeral number.toInt.natAbs) = .ok (some (unsignedNumber number)) := by
  have written : toStringInt (unsignedNumber number) = numeral number.toInt.natAbs := by
    rw [toStringInt, toInt_unsignedNumber above, render_of_nonneg (Int.natCast_nonneg _),
      Int.natAbs_natCast]
  rw [← written]
  exact redisStrToInt_toStringInt (unsignedNumber_nonneg above)

namespace Server

variable {env : Env} {server : Server} {client index : Nat}

theorem serve_header (number : Int32) :
    server.serve env client (exportMessages (dump (selectRequest number env.password))).1 =
      (server.execCli env client
        (jsonToCliCommand .select (selectRequest number env.password))).map Outcome.server := by
  have single : server.serve env client [selectRequest number env.password] =
      server.handle env client (selectRequest number env.password) := by
    rw [serve, List.foldlM_cons]
    cases server.handle env client (selectRequest number env.password) <;> rfl
  have named : commandOf (selectRequest number env.password) = some (.cli .select) := by
    rw [selectRequest_eq, commandOf, List.headD_cons]
    decide +kernel
  have same : (selectRequest number env.password).head?.toList.map (List.map toUpper) ++
      (selectRequest number env.password).tail = selectRequest number env.password := by
    rw [selectRequest_eq]
    rfl
  rw [exportMessages_selectRequest, single, handle_cli named, same]

theorem find_number {position : Nat} (found : server.find number = some position) :
    ∃ db, server.databases[position]? = some db ∧ db.number = number := by
  rw [find, List.findIdx?_eq_some_iff_getElem] at found
  obtain ⟨inside, named, -⟩ := found
  exact ⟨server.databases[position], List.getElem?_eq_getElem inside, beq_iff_eq.mp named⟩

/-- The database that `SELECT` comes to: one with the number, or a new one, or the first. -/
theorem select_reaches (password : Bytes) (number : Int32) (pswd : Option Bytes) :
    ∃ db, (server.select password number pswd).1.databases[
        (server.select password number pswd).2.1]? = some db ∧
      (if number ∈ server.databases.map Store.number then db.number = number
      else if pswd = some password then
        db.number = unusedNumber server.numHash (server.numHash.length + 1) number
      else server.databases.head?.map Store.number = some db.number) := by
  have listed {position : Nat} {db : Db} (there : server.databases[position]? = some db)
      (named : db.number = number) : number ∈ server.databases.map Store.number :=
    named ▸ List.mem_map_of_mem (List.mem_of_getElem? there)
  by_cases known : pswd = some password
  · have taken : server.select password number pswd = server.suGetDb number := if_pos known
    rw [taken]
    simp only [if_pos known]
    cases found : server.find number with
    | some position =>
        obtain ⟨db, there, named⟩ := find_number found
        obtain ⟨same, at_⟩ := suGetDb_found found
        exact ⟨db, by rw [at_, same, there], by rw [if_pos (listed there named)]; exact named⟩
    | none =>
        obtain ⟨added, at_⟩ := suGetDb_missing found
        refine ⟨⟨_, Keyed.empty⟩, ?_, by rw [if_neg (find_eq_none_iff.mp found)]⟩
        rw [at_, added]
        exact List.getElem?_concat_length ..
  · have taken : server.select password number pswd = ⟨server, server.getDb number⟩ := if_neg known
    rw [taken]
    simp only [if_neg known]
    show ∃ db, server.databases[(server.getDb number).1]? = some db ∧ _
    rw [getDb_val]
    cases found : server.find number with
    | some position =>
        obtain ⟨db, there, named⟩ := find_number found
        exact ⟨db, there, by rw [if_pos (listed there named)]; exact named⟩
    | none =>
        have there := List.getElem?_eq_getElem server.filled
        refine ⟨_, there, ?_⟩
        rw [if_neg (find_eq_none_iff.mp found), List.head?_eq_getElem?, there]
        rfl

/-- The execution of a header. -/
theorem serve_header_eq (env : Env) (above : number ≠ Int32.minValue)
    (attached : server.clients client = some index) :
    ∃ pswd, (pswd = some env.password ↔ Word env.password) ∧
      server.serve env client (exportMessages (dump (selectRequest number env.password))).1 =
        .ok ((server.select env.password (unsignedNumber number) pswd).1.attach client
          (server.select env.password (unsignedNumber number) pswd).2.1
          (server.select env.password (unsignedNumber number) pswd).2.2) := by
  refine ⟨_, header_password_iff number env.password, ?_⟩
  rw [serve_header, selectRequest_eq, jsonToCliCommand_select, execCli]
  simp only [Bool.not_true, Bool.false_eq_true, ↓reduceIte, redisStrToInt_header above, ok_bind,
    attached]
  rfl

end Server

theorem ofNat_toUInt32_toNat (n : Int32) : Int32.ofNat n.toUInt32.toNat = n := by
  show Int32.ofUInt32 (UInt32.ofNat n.toUInt32.toNat) = n
  rw [UInt32.ofNat_toNat]

/-- Unless all numbers are marked, the loop of `Db::Db` finds one. -/
theorem unusedNumber_of_free (free : ∃ m, m ∉ numHash) (n : Int32) :
    unusedNumber numHash (numHash.length + 1) n ∉ numHash := by
  by_cases few : numHash.length < 2 ^ 32
  · exact Server.unusedNumber_unmarked few n
  · obtain ⟨m, unmarked⟩ := free
    rcases Server.unusedNumber_cases numHash (numHash.length + 1) n with found | passed
    · exact found
    · have small := (m - n).toUInt32.toNat_lt
      have marked := passed (m - n).toUInt32.toNat (by omega)
      have back : n + Int32.ofNat (m - n).toUInt32.toNat = m := by
        rw [ofNat_toUInt32_toNat, Int32.add_comm, Int32.sub_add_cancel]
      exact absurd (back ▸ marked) unmarked

theorem FirstUnmarked.unique {first a b : Int32} (one : FirstUnmarked numHash first a)
    (other : FirstUnmarked numHash first b) : a = b := by
  obtain ⟨k, rfl, unmarked, passed⟩ := one
  obtain ⟨k', rfl, unmarked', passed'⟩ := other
  rcases Nat.lt_trichotomy k k' with less | rfl | more
  · exact absurd (passed' k less) unmarked
  · rfl
  · exact absurd (passed k' more) unmarked'

theorem unusedNumber_first {rounds : Nat} {n : Int32}
    (unmarked : unusedNumber numHash rounds n ∉ numHash) :
    FirstUnmarked numHash n (unusedNumber numHash rounds n) := by
  induction rounds generalizing n with
  | zero => exact ⟨0, Int32.add_zero n, unmarked, fun j none => absurd none (Nat.not_lt_zero j)⟩
  | succ rounds ih =>
      rw [unusedNumber] at unmarked ⊢
      split
      · rename_i marked
        rw [if_pos marked] at unmarked
        obtain ⟨k, reached, free, passed⟩ := ih unmarked
        refine ⟨k + 1, (Server.add_ofNat_succ n k).symm.trans reached, free, fun j before => ?_⟩
        cases j with
        | zero => exact (Int32.add_zero n).symm ▸ marked
        | succ j => exact Server.add_ofNat_succ n j ▸ passed j (Nat.lt_of_succ_lt_succ before)
      · rename_i free
        exact ⟨0, Int32.add_zero n, free, fun j none => absurd none (Nat.not_lt_zero j)⟩

/-- The number a new database gets. -/
theorem unusedNumber_eq_iff (free : ∃ m, m ∉ numHash) (first number : Int32) :
    unusedNumber numHash (numHash.length + 1) first = number ↔
      FirstUnmarked numHash first number := by
  have found := unusedNumber_first (unusedNumber_of_free free first)
  exact ⟨fun same => same ▸ found, fun other => found.unique other⟩

namespace Server

variable {env : Env} {server : Server} {client index : Nat}

/-- A header brings the client that executes it into a database with its number exactly if
it leads there. -/
theorem arrives_iff (free : ∃ n, n ∉ server.numHash) (attached : server.clients client = some index)
    (number : Int32) :
    Arrives env server client number ↔ server.Leads env.password number := by
  unfold Arrives Leads
  by_cases above : number = Int32.minValue
  · -- the digits of the least number are no `int`
    refine iff_of_false ?_ fun leads => leads.1 above
    rintro ⟨server', _, _, served, _⟩
    have raised : redisStrToInt (numeral Int32.minValue.toInt.natAbs) = .error .outOfRange := by
      decide +kernel
    rw [serve_header, above, selectRequest_eq, jsonToCliCommand_select, execCli] at served
    simp only [Bool.not_true, Bool.false_eq_true, ↓reduceIte, raised, error_bind] at served
    cases served
  · obtain ⟨pswd, known, served⟩ := serve_header_eq env above attached
    obtain ⟨db, there, reaches⟩ := server.select_reaches env.password (unsignedNumber number) pswd
    have arrives : (∃ server' index db,
        server.serve env client (exportMessages (dump (selectRequest number env.password))).1 =
          .ok server' ∧ server'.clients client = some index ∧
        server'.databases[index]? = some db ∧ db.number = number) ↔ db.number = number := by
      rw [served]
      constructor
      · rintro ⟨server', position, other, same, inside, found, named⟩
        cases same
        cases (Function.update_self ..).symm.trans inside
        cases there.symm.trans found
        exact named
      · exact fun named => ⟨_, _, db, rfl, Function.update_self .., there, named⟩
    rw [arrives, and_iff_right above]
    by_cases listed : unsignedNumber number ∈ server.databases.map Store.number
    · rw [if_pos listed] at reaches ⊢
      rw [reaches]
      exact unsignedNumber_eq_iff above
    · rw [if_neg listed] at reaches ⊢
      by_cases word : Word env.password
      · rw [if_pos (known.mpr word)] at reaches
        rw [if_pos word, reaches]
        exact unusedNumber_eq_iff free _ _
      · rw [if_neg (mt known.mp word)] at reaches
        rw [if_neg word, reaches, Option.some_inj]

/-- A server on which the header of database 7 has to create it. -/
theorem arrives_at_seven :
    (∃ n, n ∉ oneClient.numHash) ∧ Arrives quietEnv oneClient 0 7 := by
  have free : ∃ n, n ∉ oneClient.numHash := ⟨1, by decide⟩
  refine ⟨free, (arrives_iff free rfl 7).mpr ⟨by decide, ?_⟩⟩
  have absent : ¬ unsignedNumber 7 ∈ oneClient.databases.map Store.number := by decide
  rw [if_neg absent, if_pos (by decide +kernel)]
  exact ⟨0, by decide, by decide, fun j none => absurd none (Nat.not_lt_zero j)⟩

/-- The header of database -5 brings the client into database 5. -/
theorem negative_header_misleads :
    (selectRequest (-5) (bytes "secret") = [bytes "SELECT", bytes "5", bytes "secret"]) ∧
      (∃ server, oneClient.serve quietEnv 0
          [[bytes "SELECT", bytes "-5", bytes "secret"]] = .ok server ∧
        (server.databases.map Store.number, server.clients 0) = ([0, -5], some 1)) ∧
      (∃ server, oneClient.serve quietEnv 0
          (exportMessages (dump (selectRequest (-5) quietEnv.password))).1 = .ok server ∧
        (server.databases.map Store.number, server.clients 0) = ([0, 5], some 1)) ∧
      ¬ Arrives quietEnv oneClient 0 (-5) := by
  obtain ⟨server, served, shape⟩ : ∃ server, oneClient.serve quietEnv 0
      (exportMessages (dump (selectRequest (-5) quietEnv.password))).1 = .ok server ∧
      (server.databases.map Store.number, server.clients 0) = ([0, 5], some 1) :=
    ok_checked (by decide +kernel)
  refine ⟨by decide +kernel, ok_checked (by decide +kernel), ⟨server, served, shape⟩, ?_⟩
  rintro ⟨server', index, db, served', inside, there, named⟩
  cases served.symm.trans served'
  obtain ⟨numbers, client⟩ := Prod.mk.inj shape
  cases client.symm.trans inside
  have reached : (server.databases.map Store.number)[1]? = some db.number := by
    rw [List.getElem?_map, there, Option.map_some]
  rw [numbers, named] at reached
  revert reached
  decide

end Server

end ForkRedis
