import ForkRedis.Util

set_option autoImplicit false

/- The vendored json11: `dump` on arrays of strings, and `parse`. What the server reads
of a parsed value is its items and their strings, so numbers, literals and objects are
recognised and not kept. -/
namespace ForkRedis.Json11

open Decimal

inductive Json where
  | string (value : Bytes)
  | array (items : List Json)
  | other

namespace Json

/-- Everything that is not a string reads as the empty one. -/
def stringValue : Json → Bytes
  | .string value => value
  | _ => []

def arrayItems : Json → List Json
  | .array items => items
  | _ => []

end Json

/-- A digit of `%04x`. -/
def hexDigit (n : Nat) : UInt8 := UInt8.ofNat (if n < 10 then 48 + n else 87 + n)

/-- What `dump` writes for one character. -/
def escape (ch : UInt8) : Bytes :=
  if ch = 92 then bytes "\\\\"
  else if ch = 34 then bytes "\\\""
  else if ch = 8 then bytes "\\b"
  else if ch = 12 then bytes "\\f"
  else if ch = 10 then bytes "\\n"
  else if ch = 13 then bytes "\\r"
  else if ch = 9 then bytes "\\t"
  else if ch ≤ 31 then bytes "\\u00" ++ [hexDigit (ch.toNat / 16), hexDigit (ch.toNat % 16)]
  else [ch]

/-- The line and paragraph separators U+2028 and U+2029 are escaped as a whole. -/
def dumpChars : Bytes → Bytes
  | [] => []
  | [a] => escape a
  | [a, b] => escape a ++ escape b
  | a :: b :: c :: rest =>
      if a = 226 ∧ b = 128 ∧ c = 168 then bytes "\\u2028" ++ dumpChars rest
      else if a = 226 ∧ b = 128 ∧ c = 169 then bytes "\\u2029" ++ dumpChars rest
      else escape a ++ dumpChars (b :: c :: rest)

def dumpString (value : Bytes) : Bytes := 34 :: (dumpChars value ++ [34])

/-- The items behind the opening bracket, and the closing one. -/
def dumpItems : List Bytes → Bytes
  | [] => [93]
  | [value] => dumpString value ++ [93]
  | value :: next :: values => dumpString value ++ (bytes ", " ++ dumpItems (next :: values))

def dump (values : List Bytes) : Bytes := 91 :: dumpItems values

def isBlank (c : UInt8) : Bool := c == 32 || c == 13 || c == 10 || c == 9

/-- The next character that is not white space. -/
def getNextToken (str : Bytes) : Option (UInt8 × Bytes) :=
  match str.dropWhile isBlank with
  | [] => none
  | ch :: rest => some (ch, rest)

def encodeUtf8 (pt : Nat) : Bytes :=
  if pt < 0x80 then [UInt8.ofNat pt]
  else if pt < 0x800 then [UInt8.ofNat (0xC0 + pt / 0x40), UInt8.ofNat (0x80 + pt % 0x40)]
  else if pt < 0x10000 then
    [UInt8.ofNat (0xE0 + pt / 0x1000), UInt8.ofNat (0x80 + pt / 0x40 % 0x40),
      UInt8.ofNat (0x80 + pt % 0x40)]
  else
    [UInt8.ofNat (0xF0 + pt / 0x40000), UInt8.ofNat (0x80 + pt / 0x1000 % 0x40),
      UInt8.ofNat (0x80 + pt / 0x40 % 0x40), UInt8.ofNat (0x80 + pt % 0x40)]

/-- `last_escaped_codepoint` as it is flushed into the output. -/
def flush : Option Nat → Bytes
  | none => []
  | some pt => encodeUtf8 pt

def hexValue (c : UInt8) : Option Nat :=
  if 97 ≤ c ∧ c ≤ 102 then some (c.toNat - 87)
  else if 65 ≤ c ∧ c ≤ 70 then some (c.toNat - 55)
  else if isDigit c then some (c.toNat - 48)
  else none

def leadSurrogate : Option Nat → Bool
  | some pt => 0xD800 ≤ pt && pt ≤ 0xDBFF
  | none => false

/-- Output of the string parser in front of what the rest gives. -/
def emit (out : Bytes) (parsed : Option (Bytes × Bytes)) : Option (Bytes × Bytes) :=
  parsed.map fun (text, rest) => (out ++ text, rest)

/-- The character a one-letter escape stands for. -/
def unescape (ch : UInt8) : Option UInt8 :=
  if ch = 98 then some 8
  else if ch = 102 then some 12
  else if ch = 110 then some 10
  else if ch = 114 then some 13
  else if ch = 116 then some 9
  else if ch = 34 ∨ ch = 92 ∨ ch = 47 then some ch
  else none

/-- The four digits of a `\u` escape. -/
def codepoint (a b c d : UInt8) : Option Nat := do
  let a ← hexValue a
  let b ← hexValue b
  let c ← hexValue c
  let d ← hexValue d
  return 0x1000 * a + 0x100 * b + 0x10 * c + d

/-- `parse_string` behind the opening quote. -/
def parseString : Option Nat → Bytes → Option (Bytes × Bytes)
  | _, [] => none
  | last, ch :: rest =>
      if ch = 34 then some (flush last, rest)
      else if ch ≤ 31 then none
      else if ch ≠ 92 then emit (flush last ++ [ch]) (parseString none rest)
      else
        match rest with
        | [] => none
        | ch :: rest =>
            if ch = 117 then
              match rest with
              | a :: b :: c :: d :: rest =>
                  match codepoint a b c d with
                  | none => none
                  | some pt =>
                      -- a trail surrogate behind a lead surrogate: one astral character
                      if leadSurrogate last ∧ 0xDC00 ≤ pt ∧ pt ≤ 0xDFFF then
                        emit (encodeUtf8 ((last.getD 0 - 0xD800) * 0x400 + (pt - 0xDC00) + 0x10000))
                          (parseString none rest)
                      else emit (flush last) (parseString (some pt) rest)
              | _ => none
            else
              match unescape ch with
              | none => none
              | some c => emit (flush last ++ [c]) (parseString none rest)

/-- One or more digits. -/
def parseDigits (str : Bytes) : Option Bytes :=
  match str with
  | [] => none
  | c :: rest => if isDigit c then some (rest.dropWhile isDigit) else none

/-- A character of `set`, if one is next. -/
def skip (set : Bytes) (str : Bytes) : Option Bytes :=
  match str with
  | [] => none
  | c :: rest => if set.contains c then some rest else none

/-- `parse_number`: what is left behind a number. -/
def parseNumber (str : Bytes) : Option Bytes := do
  let str := (skip (bytes "-") str).getD str
  let str ← match skip (bytes "0") str with
    | some rest => if (parseDigits rest).isSome then none else some rest
    | none => parseDigits str
  let str ← match skip (bytes ".") str with
    | some rest => parseDigits rest
    | none => some str
  match skip (bytes "eE") str with
  | some rest => parseDigits ((skip (bytes "+-") rest).getD rest)
  | none => some str

def expect (expected : Bytes) (str : Bytes) : Option (Json × Bytes) :=
  if str.take expected.length = expected then some (.other, str.drop expected.length) else none

def maxDepth : Nat := 200

mutual

/-- `parse_json`. Of two nested calls at least one has taken a character, so twice the
number of characters is enough fuel. -/
def parseJson : Nat → Nat → Bytes → Option (Json × Bytes)
  | 0, _, _ => none
  | fuel + 1, depth, str =>
      if maxDepth < depth then none
      else
        match getNextToken str with
        | none => none
        | some (ch, rest) =>
            if ch = minus ∨ isDigit ch then
              (parseNumber (ch :: rest)).map fun rest => (.other, rest)
            else if ch = 116 then expect (bytes "true") (ch :: rest)
            else if ch = 102 then expect (bytes "false") (ch :: rest)
            else if ch = 110 then expect (bytes "null") (ch :: rest)
            else if ch = 34 then (parseString none rest).map fun (text, rest) => (.string text, rest)
            else if ch = 123 then
              match getNextToken rest with
              | none => none
              | some (ch, rest) =>
                  if ch = 125 then some (.other, rest)
                  else (parseFields fuel depth ch rest).map fun rest => (.other, rest)
            else if ch = 91 then
              match getNextToken rest with
              | none => none
              | some (ch, rest) =>
                  if ch = 93 then some (.array [], rest)
                  else (parseItems fuel depth (ch :: rest)).map fun (items, rest) =>
                    (.array items, rest)
            else none

/-- The loop over the items of an array. -/
def parseItems : Nat → Nat → Bytes → Option (List Json × Bytes)
  | 0, _, _ => none
  | fuel + 1, depth, str =>
      match parseJson fuel (depth + 1) str with
      | none => none
      | some (item, rest) =>
          match getNextToken rest with
          | none => none
          | some (ch, rest) =>
              if ch = 93 then some ([item], rest)
              else if ch ≠ 44 then none
              else
                match getNextToken rest with
                | none => none
                | some (ch, rest) =>
                    (parseItems fuel depth (ch :: rest)).map fun (items, rest) =>
                      (item :: items, rest)

/-- The loop over the fields of an object; `ch` has been read. -/
def parseFields : Nat → Nat → UInt8 → Bytes → Option Bytes
  | 0, _, _, _ => none
  | fuel + 1, depth, ch, str =>
      if ch ≠ 34 then none
      else
        match parseString none str with
        | none => none
        | some (_, rest) =>
            match getNextToken rest with
            | none => none
            | some (ch, rest) =>
                if ch ≠ 58 then none
                else
                  match parseJson fuel (depth + 1) rest with
                  | none => none
                  | some (_, rest) =>
                      match getNextToken rest with
                      | none => none
                      | some (ch, rest) =>
                          if ch = 125 then some rest
                          else if ch ≠ 44 then none
                          else
                            match getNextToken rest with
                            | none => none
                            | some (ch, rest) => parseFields fuel depth ch rest

end

/-- `Json::parse`, followed by `array_items` and `string_value`: a failed parse is the
null value, which has no items. -/
def parse (str : Bytes) : List Bytes :=
  match parseJson (2 * str.length) 0 str with
  | none => []
  | some (result, rest) =>
      if rest.dropWhile isBlank = [] then result.arrayItems.map Json.stringValue else []

/- Strings come back as they were. -/

theorem emit_emit (out out' : Bytes) (parsed : Option (Bytes × Bytes)) :
    emit out (emit out' parsed) = emit (out ++ out') parsed := by
  cases parsed with
  | none => rfl
  | some result => simp only [emit, Option.map_some, List.append_assoc]

theorem emit_nil (parsed : Option (Bytes × Bytes)) : emit [] parsed = parsed := by
  cases parsed with
  | none => rfl
  | some result => rfl

/-- A pending character that cannot begin a surrogate pair is flushed whatever follows. -/
theorem parseString_pending {pt : Nat} (basic : leadSurrogate (some pt) = false) (str : Bytes) :
    parseString (some pt) str = emit (encodeUtf8 pt) (parseString none str) := by
  have none_lead : leadSurrogate none = false := rfl
  cases str with
  | nil => rfl
  | cons ch rest =>
      unfold parseString
      split
      · simp only [emit, Option.map_some, flush, List.append_nil]
      split
      · rfl
      split
      · simp only [emit_emit, flush, List.nil_append]
      split
      · rfl
      split
      · split
        · split
          · rfl
          · simp only [basic, none_lead, Bool.false_eq_true, false_and, ↓reduceIte, emit_emit,
              flush, List.append_nil]
        · rfl
      · split
        · rfl
        · simp only [emit_emit, flush, List.nil_append]

theorem hexValue_hexDigit : ∀ d < 16, hexValue (hexDigit d) = some d := by decide

/-- The characters `dump` writes with four hexadecimal digits. -/
theorem parseString_control {ch : UInt8} (control : ch ≤ 31) (rest : Bytes) :
    parseString none (bytes "\\u00" ++ [hexDigit (ch.toNat / 16), hexDigit (ch.toNat % 16)] ++ rest) =
      emit [ch] (parseString none rest) := by
  have small : ch.toNat ≤ 31 := UInt8.le_iff_toNat_le.mp control
  have basic : leadSurrogate (some ch.toNat) = false := by
    simp only [leadSurrogate, Bool.and_eq_false_iff, decide_eq_false_iff_not]
    omega
  have digits : codepoint 48 48 (hexDigit (ch.toNat / 16)) (hexDigit (ch.toNat % 16)) =
      some ch.toNat := by
    have zero : hexValue 48 = some 0 := rfl
    have high := hexValue_hexDigit (ch.toNat / 16) (by omega)
    have low := hexValue_hexDigit (ch.toNat % 16) (by omega)
    simp only [codepoint, zero, high, low, Option.bind_eq_bind, Option.bind_some, Option.pure_def,
      Option.some.injEq]
    omega
  have utf8 : encodeUtf8 ch.toNat = [ch] := by
    have ascii : ch.toNat < 0x80 := by omega
    simp only [encodeUtf8, ascii, ↓reduceIte, UInt8.ofNat_toNat]
  change parseString none (92 :: 117 :: 48 :: 48 :: _ :: _ :: rest) = _
  rw [parseString.eq_def]
  change (match codepoint 48 48 (hexDigit (ch.toNat / 16)) (hexDigit (ch.toNat % 16)) with
    | none => none
    | some pt => _) = _
  simp only [digits, leadSurrogate, Bool.false_eq_true, false_and, ↓reduceIte, flush, emit_nil]
  rw [parseString_pending basic, utf8]

theorem parseString_escape (ch : UInt8) (rest : Bytes) :
    parseString none (escape ch ++ rest) = emit [ch] (parseString none rest) := by
  unfold escape
  split
  · subst_vars
    rw [parseString.eq_def]
    rfl
  split
  · subst_vars
    rw [parseString.eq_def]
    rfl
  split
  · subst_vars
    rw [parseString.eq_def]
    rfl
  split
  · subst_vars
    rw [parseString.eq_def]
    rfl
  split
  · subst_vars
    rw [parseString.eq_def]
    rfl
  split
  · subst_vars
    rw [parseString.eq_def]
    rfl
  split
  · subst_vars
    rw [parseString.eq_def]
    rfl
  split
  · exact parseString_control ‹_› rest
  · rename_i backslash quote _ _ _ _ _ control
    rw [List.cons_append, List.nil_append, parseString.eq_def]
    simp only [quote, control, backslash, ↓reduceIte, ne_eq, not_false_eq_true, flush,
      List.nil_append]

theorem parseString_separator {d : UInt8} (which : d = 56 ∨ d = 57) (rest : Bytes) :
    parseString none (bytes "\\u202" ++ d :: rest) =
      emit [226, 128, d + 112] (parseString none rest) := by
  rcases which with rfl | rfl
  · rw [parseString.eq_def]
    change emit [] (parseString (some 0x2028) rest) = _
    rw [emit_nil, parseString_pending rfl]
    rfl
  · rw [parseString.eq_def]
    change emit [] (parseString (some 0x2029) rest) = _
    rw [emit_nil, parseString_pending rfl]
    rfl

theorem parseString_dumpChars (value rest : Bytes) :
    parseString none (dumpChars value ++ 34 :: rest) = some (value, rest) := by
  have close : parseString none (34 :: rest) = some ([], rest) := by
    rw [parseString.eq_def]
    rfl
  induction value using dumpChars.induct with
  | case1 => exact close
  | case2 a => rw [dumpChars, parseString_escape, close]; rfl
  | case3 a b =>
      rw [dumpChars, List.append_assoc, parseString_escape, parseString_escape, close]
      rfl
  | case4 a b c tail line ih =>
      obtain ⟨rfl, rfl, rfl⟩ := line
      rw [dumpChars, if_pos ⟨rfl, rfl, rfl⟩]
      change parseString none (bytes "\\u202" ++ 56 :: (dumpChars tail ++ 34 :: rest)) = _
      rw [parseString_separator (Or.inl rfl), ih]
      rfl
  | case5 a b c tail line paragraph ih =>
      obtain ⟨rfl, rfl, rfl⟩ := paragraph
      rw [dumpChars, if_neg line, if_pos ⟨rfl, rfl, rfl⟩]
      change parseString none (bytes "\\u202" ++ 57 :: (dumpChars tail ++ 34 :: rest)) = _
      rw [parseString_separator (Or.inr rfl), ih]
      rfl
  | case6 a b c tail line paragraph ih =>
      rw [dumpChars, if_neg line, if_neg paragraph, List.append_assoc, parseString_escape, ih]
      rfl

theorem parseJson_dumpString (fuel : Nat) {depth : Nat} (shallow : depth ≤ maxDepth)
    (value rest : Bytes) :
    parseJson (fuel + 1) depth (dumpString value ++ rest) = some (.string value, rest) := by
  have quoted : dumpString value ++ rest = 34 :: (dumpChars value ++ 34 :: rest) := by
    simp only [dumpString, List.cons_append, List.append_assoc, List.nil_append]
  rw [quoted, parseJson, if_neg (Nat.not_lt.mpr shallow)]
  change Option.map _ (parseString none (dumpChars value ++ 34 :: rest)) = _
  rw [parseString_dumpChars]
  rfl

theorem dumpItems_cons (first : Bytes) (values : List Bytes) :
    ∃ tail, dumpItems (first :: values) = 34 :: tail := by
  cases values with
  | nil => exact ⟨_, rfl⟩
  | cons second values => exact ⟨_, rfl⟩

theorem parseItems_dumpItems (first : Bytes) (values : List Bytes) (fuel : Nat) (rest : Bytes) :
    parseItems (values.length + fuel + 2) 0 (dumpItems (first :: values) ++ rest) =
      some ((first :: values).map Json.string, rest) := by
  induction values generalizing first with
  | nil =>
      rw [dumpItems, List.append_assoc, parseItems, parseJson_dumpString _ (by decide)]
      rfl
  | cons second values ih =>
      have next : values.length + fuel + 2 = (second :: values).length + fuel + 1 := by
        rw [List.length_cons]
        omega
      rw [dumpItems, List.append_assoc, List.append_assoc, parseItems,
        parseJson_dumpString _ (by decide), ← next]
      obtain ⟨tail, shape⟩ := dumpItems_cons second values
      have tail_parsed := ih second
      rw [shape] at tail_parsed ⊢
      change Option.map _ (parseItems (values.length + fuel + 2) 0 (34 :: tail ++ rest)) = _
      rw [tail_parsed]
      rfl

theorem length_dumpItems (values : List Bytes) : values.length < (dumpItems values).length := by
  induction values with
  | nil => exact Nat.one_pos
  | cons first values ih =>
      cases values with
      | nil => simp only [dumpItems, dumpString, List.length_append, List.length_cons]; omega
      | cons second values =>
          simp only [dumpItems, dumpString, List.length_append, List.length_cons] at ih ⊢
          omega

/-- `parse` inverts `dump` on arrays of strings. -/
theorem parse_dump (values : List Bytes) : parse (dump values) = values := by
  cases values with
  | nil => rfl
  | cons first values =>
      have enough := length_dumpItems (first :: values)
      obtain ⟨fuel, fueled⟩ : ∃ fuel,
          2 * (dump (first :: values)).length = values.length + fuel + 2 + 1 := by
        refine ⟨2 * (dump (first :: values)).length - (values.length + 3), ?_⟩
        simp only [dump, List.length_cons] at enough ⊢
        omega
      have items := parseItems_dumpItems first values fuel []
      obtain ⟨tail, shape⟩ := dumpItems_cons first values
      have parsed : parseJson (values.length + fuel + 2 + 1) 0 (dump (first :: values)) =
          some (.array ((first :: values).map Json.string), []) := by
        rw [List.append_nil, shape] at items
        rw [dump, shape, parseJson, if_neg (by decide)]
        change Option.map _ (parseItems (values.length + fuel + 2) 0 (34 :: tail)) = _
        rw [items]
        rfl
      have strings : ((first :: values).map Json.string).map Json.stringValue = first :: values := by
        rw [List.map_map]
        exact List.map_id _
      rw [parse, fueled, parsed]
      exact strings

end ForkRedis.Json11
