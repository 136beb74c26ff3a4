import ForkRedis.Hazards

set_option autoImplicit false

/- The tag of a string against its contents, over the history of the string: the scan of the
constructor, the parser behind `Append` and `IncrBy`, and the tag a dump carries. -/
namespace ForkRedis

open Decimal Fallible

namespace Str

/-- The tag says what `RedisStrToInt` makes of the contents. -/
def Told (s : Str) : Prop := s.encodingType = .int ↔ ∃ n, redisStrToInt s.data = .ok (some n)

theorem intShaped_of_int {s : Str} (filled : s.data ≠ []) (tag : s.encodingType = .int) :
    intShaped s.data = true := by
  have scanned : classify s.data = .int := (encodingType_eq_int (by rw [tag]; decide)).2
  exact ((classify_int_iff s.data).mp scanned).resolve_left filled

theorem told_of_int {s : Str} (filled : s.data ≠ []) (tag : s.encodingType = .int) :
    s.Told ↔ ¬ Oversized s.data := by
  rw [Told, redisStrToInt_converts]
  simp only [tag, true_iff, intShaped_of_int filled tag, true_and]

theorem told_of_raw {s : Str} (tag : s.encodingType = .strRaw) :
    s.Told ↔ (intShaped s.data = true → Oversized s.data) := by
  rw [Told, redisStrToInt_converts]
  simp only [tag, reduceCtorEq, false_iff, not_and, not_not]

theorem told_ofData {data : Bytes} (filled : data ≠ []) :
    (ofData data).Told ↔ ¬ Oversized data := by
  rcases classify_cases data with tag | tag
  · have unshaped : ¬ intShaped data = true := by
      intro shaped
      rw [(classify_int_iff data).mpr (Or.inr shaped)] at tag
      cases tag
    refine (told_of_raw tag).trans (iff_of_true (fun shaped => absurd shaped unshaped) ?_)
    exact fun oversized => unshaped oversized.1
  · exact told_of_int filled tag

theorem told_ofInt (n : Int32) : (ofInt n).Told ↔ n ≠ Int32.minValue :=
  (told_of_int (toStringInt_ne_nil n) rfl).trans (not_congr oversized_toStringInt)

/-- Equal bytes and tags that are told leave nothing to tell two strings apart. -/
theorem eq_of_told {s t : Str} (left : s.Told) (right : t.Told) (same : s.data = t.data) :
    s = t := by
  refine ext_data same ?_
  have tags : s.encodingType = .int ↔ t.encodingType = .int := by
    rw [Told, same] at left
    exact left.trans right.symm
  rcases s.tagged with raw | ⟨int, -⟩
  · rcases t.tagged with raw' | ⟨int', -⟩
    · rw [raw, raw']
    · rw [tags.mpr int', int']
  · rw [int, tags.mp int]

/-- `Append`, `IncrBy`, `DecrBy`, and `DecodeValue` of what `EncodeValue` wrote. -/
inductive Change where
  | append (data : Bytes)
  | incrBy (delta : Int32)
  | decrBy (delta : Int32)
  | reload (conf : DumpConf)

namespace Change

def apply (s : Str) : Change → Except Fault Str
  | .append data => do
      let (s', _) ← s.append data
      return s'
  | .incrBy delta => do
      let (s', _) ← s.incrBy delta
      return s'
  | .decrBy delta => do
      let (s', _) ← s.decrBy delta
      return s'
  | .reload conf => do
      let code ← s.encodeValue conf
      let (s', _) ← (decodeValue conf.lz).run code
      return s'

/-- No digits are appended to a lone minus sign, unless they are beyond 32 bits, and the sum is
not the one integer whose decimal `RedisStrToInt` does not take. -/
def Plain (s : Str) : Change → Prop
  | .append data => s.data = [minus] →
      ¬ (intShaped (minus :: data) = true ∧ ¬ Oversized (minus :: data))
  | .incrBy delta => s.encodingType = .int → intValue s.data + delta.toInt ≠ -2 ^ 31 ∧
      intValue s.data + delta.toInt ≠ 2 ^ 31
  | .decrBy delta => s.encodingType = .int → intValue s.data - delta.toInt ≠ -2 ^ 31 ∧
      intValue s.data - delta.toInt ≠ 2 ^ 31
  | .reload _ => True

/-- What the code assumes of the compressor of a dump. -/
def Lawful : Change → Prop
  | .reload conf => conf.lz.Lawful
  | _ => True

end Change

/-- A string that begins like an integer of some length keeps its digits in front. -/
theorem intShaped_of_append {data more : Bytes} (filled : data ≠ []) (signed : data ≠ [minus])
    (shaped : intShaped (data ++ more) = true) :
    intShaped data = true ∧ magnitude data ≤ magnitude (data ++ more) := by
  cases data with
  | nil => contradiction
  | cons c rest =>
      rw [List.cons_append, intShaped] at shaped
      rw [List.cons_append, intShaped, magnitude, magnitude]
      split at shaped
      · rename_i sign
        simp only [Bool.and_eq_true, List.all_append] at shaped
        have digits : rest ≠ [] := by
          rintro rfl
          exact signed (by rw [sign])
        simp only [sign, ↓reduceIte, Bool.and_eq_true, Bool.not_eq_true',
          List.isEmpty_eq_false_iff]
        exact ⟨⟨digits, shaped.2.1⟩, value_le_append rest more⟩
      · rename_i digit
        rw [← List.cons_append, List.all_append, Bool.and_eq_true] at shaped
        simp only [digit, ↓reduceIte]
        exact ⟨shaped.1, value_le_append (c :: rest) more⟩

theorem append_told {s s' : Str} {data : Bytes} {size : Nat} (filled : s.data ≠ [])
    (told : s.Told) (returned : s.append data = .ok (s', size)) :
    s'.Told ↔ Change.Plain s (.append data) := by
  have joined_filled : s.data ++ data ≠ [] := List.append_ne_nil_of_left_ne_nil filled data
  rw [append] at returned
  split at returned
  · rename_i tag
    -- contents tagged `INT` are no lone minus sign
    have unsigned : s.data ≠ [minus] := by
      intro sign
      have shaped := intShaped_of_int filled tag
      rw [sign] at shaped
      cases shaped
    refine iff_of_true ?_ (fun sign => absurd sign unsigned)
    split at returned
    · cases returned
    · rename_i converted
      cases returned
      refine iff_of_false ?_ ?_
      · intro int
        cases int
      · rintro ⟨n, other⟩
        cases converted.symm.trans other
    · rename_i n converted
      cases returned
      exact iff_of_true rfl ⟨n, converted⟩
  · rename_i tag
    have raw_tag : s.encodingType = .strRaw := s.tagged.resolve_right fun int => tag int.1
    cases returned
    refine (told_of_raw rfl).trans ?_
    change (intShaped (s.data ++ data) = true → Oversized (s.data ++ data)) ↔ _
    by_cases signed : s.data = [minus]
    · simp only [Change.Plain, signed, List.singleton_append, forall_const, not_and, not_not]
    · refine iff_of_true (fun shaped => ?_) (fun sign => absurd sign signed)
      obtain ⟨front, larger⟩ := intShaped_of_append filled signed shaped
      have oversized := (told_of_raw raw_tag).mp told front
      exact ⟨shaped, le_trans oversized.2 larger⟩

theorem incrBy_of_raw {s : Str} (tag : s.encodingType = .strRaw) (delta : Int32) :
    s.incrBy delta = .ok (s, []) := by
  rw [incrBy, if_pos (by rw [tag]; decide)]

theorem incrBy_of_int {s : Str} (filled : s.data ≠ []) (tag : s.encodingType = .int)
    (fits : ¬ Oversized s.data) (delta : Int32) :
    s.incrBy delta = .ok (ofInt (intOf s.data + delta), toStringInt (intOf s.data + delta)) := by
  rw [incrBy, if_neg (not_not.mpr tag), redisStrToInt_some (intShaped_of_int filled tag) fits,
    ok_bind]
  rfl

/-- A number of 32 bits that was taken from digits, and what its sums wrap to. -/
theorem toInt_intOf {raw : Bytes} (shaped : intShaped raw = true) (fits : ¬ Oversized raw) :
    (intOf raw).toInt = intValue raw ∧ -2 ^ 31 < intValue raw ∧ intValue raw < 2 ^ 31 := by
  have small := magnitude_lt shaped fits
  rw [magnitude_eq] at small
  refine ⟨Int32.toInt_ofInt_of_le (by omega) (by omega), by omega, by omega⟩

/-- The sums and differences of two `int`s that wrap to the least one. -/
theorem ne_minValue_iff {n : Int32} {exact : Int} (wrapped : n.toInt = exact.bmod (2 ^ 32))
    (low : -2 ^ 32 < exact) (high : exact < 2 ^ 32) :
    n ≠ Int32.minValue ↔ exact ≠ -2 ^ 31 ∧ exact ≠ 2 ^ 31 := by
  have least : n = Int32.minValue ↔ n.toInt = -2 ^ 31 := Int32.toInt_inj.symm
  rw [ne_eq, least, wrapped, Int.bmod_def]
  omega

theorem incrBy_told {s : Str} (filled : s.data ≠ []) (told : s.Told) (delta : Int32) :
    (∀ s' text, s.incrBy delta = .ok (s', text) → s'.Told) ↔
      (s.encodingType = .int → intOf s.data + delta ≠ Int32.minValue) := by
  rcases s.tagged with tag | ⟨tag, -⟩
  · rw [incrBy_of_raw tag]
    refine iff_of_true ?_ ?_
    · rintro _ _ ⟨⟩
      exact told
    · intro int
      cases tag.symm.trans int
  · rw [incrBy_of_int filled tag ((told_of_int filled tag).mp told), ← told_ofInt]
    constructor
    · intro returns _
      exact returns _ _ rfl
    · rintro sum _ _ ⟨⟩
      exact sum tag

theorem norm_told {s : Str} (filled : s.data ≠ []) (told : s.Told) : s.norm.Told := by
  rcases s.tagged with tag | ⟨tag, -⟩
  · rwa [norm_of_raw tag]
  · have shaped := intShaped_of_int filled tag
    have fits := (told_of_int filled tag).mp told
    obtain ⟨-, low, high⟩ := toInt_intOf shaped fits
    have converted : stoi s.data = .ok (intOf s.data) := by
      rw [stoi_shaped shaped, if_pos ⟨low.le, high⟩, intOf]
    rw [norm_of_int tag converted, told_ofInt]
    exact intOf_ne_minValue shaped fits

theorem norm_filled {s : Str} (filled : s.data ≠ []) : s.norm.data ≠ [] := by
  rw [norm]
  split
  · exact filled
  · split
    · exact toStringInt_ne_nil _
    · exact filled

namespace Change

theorem reload_eq {conf : DumpConf} (lawful : conf.lz.Lawful) {s s' : Str} (fits : s.Fits)
    (filled : s.data ≠ []) (returned : apply s (.reload conf) = .ok s') : s' = s.norm := by
  obtain ⟨code, encoded, returned⟩ := bind_eq_ok.mp returned
  have read := decodeValue_reads lawful fits (fun _ => filled) encoded []
  rw [List.append_nil] at read
  rw [read, ok_bind] at returned
  cases returned
  rfl

theorem apply_filled {s s' : Str} {change : Change} (lawful : change.Lawful) (fits : s.Fits)
    (filled : s.data ≠ []) (returned : apply s change = .ok s') : s'.data ≠ [] := by
  cases change with
  | append data =>
      obtain ⟨result, called, returned⟩ := bind_eq_ok.mp returned
      cases returned
      exact append_filled filled called
  | incrBy delta | decrBy delta =>
      obtain ⟨result, called, returned⟩ := bind_eq_ok.mp returned
      cases returned
      exact incrBy_filled filled called
  | reload conf =>
      rw [reload_eq lawful fits filled returned]
      exact norm_filled filled

/-- What is kept of the pair a call returns. -/
theorem forall_fst {call : Except Fault (Str × Bytes)} {P : Str → Prop} :
    (∀ s', (do let (s', _) ← call; return s') = .ok s' → P s') ↔
      ∀ s' text, call = .ok (s', text) → P s' := by
  constructor
  · intro holds s' text called
    exact holds s' (by rw [called, ok_bind]; rfl)
  · intro holds s' returned
    obtain ⟨⟨_, text⟩, called, returned⟩ := bind_eq_ok.mp returned
    cases returned
    exact holds _ text called

/-- One step: a told tag stays told exactly when the change is plain. -/
theorem told_step {s : Str} {change : Change} (lawful : change.Lawful) (fits : s.Fits)
    (filled : s.data ≠ []) (told : s.Told) :
    (∀ s', apply s change = .ok s' → s'.Told) ↔ Plain s change := by
  cases change with
  | append data =>
      constructor
      · intro returns
        cases called : s.append data with
        | error fault =>
            -- only contents tagged `INT` make `Append` raise
            have tag := (append_raises.mp ⟨fault, called⟩).1
            intro sign
            have shaped := intShaped_of_int filled tag
            rw [sign] at shaped
            cases shaped
        | ok result =>
            refine (append_told filled told called).mp (returns result.1 ?_)
            rw [apply, called]
            rfl
      · intro plain s' returned
        obtain ⟨result, called, returned⟩ := bind_eq_ok.mp returned
        cases returned
        exact (append_told filled told called).mpr plain
  | incrBy delta =>
      refine (forall_fst.trans (incrBy_told filled told delta)).trans
        (imp_congr_right fun tag => ?_)
      obtain ⟨same, low, high⟩ :=
        toInt_intOf (intShaped_of_int filled tag) ((told_of_int filled tag).mp told)
      have low' := delta.le_toInt
      have high' := delta.toInt_lt
      rw [← same] at low high ⊢
      exact ne_minValue_iff (Int32.toInt_add _ _) (by omega) (by omega)
  | decrBy delta =>
      refine (forall_fst.trans (incrBy_told filled told (-delta))).trans
        (imp_congr_right fun tag => ?_)
      obtain ⟨same, low, high⟩ :=
        toInt_intOf (intShaped_of_int filled tag) ((told_of_int filled tag).mp told)
      have low' := delta.le_toInt
      have high' := delta.toInt_lt
      rw [← same] at low high ⊢
      rw [← Int32.sub_eq_add_neg]
      exact ne_minValue_iff (Int32.toInt_sub _ _) (by omega) (by omega)
  | reload conf =>
      refine iff_of_true (fun s' returned => ?_) trivial
      rw [reload_eq lawful fits filled returned]
      exact norm_told filled told

/-- The strings a sequence of changes goes through, up to one that raises. -/
def states (s : Str) : List Change → List Str
  | [] => [s]
  | change :: changes => s :: match change.apply s with
      | .ok s' => states s' changes
      | .error _ => []

/-- The changes that are made, each with the string it finds. -/
def steps (s : Str) : List Change → List (Str × Change)
  | [] => []
  | change :: changes => (s, change) :: match change.apply s with
      | .ok s' => steps s' changes
      | .error _ => []

theorem mem_states_self (s : Str) (changes : List Change) : s ∈ states s changes := by
  cases changes with
  | nil => exact List.mem_singleton_self s
  | cons change changes => exact List.mem_cons_self

/-- A whole history: every tag on the way is told exactly when every change is plain. -/
theorem told_along {s : Str} {changes : List Change} (lawful : ∀ change ∈ changes, change.Lawful)
    (sized : ∀ t ∈ states s changes, t.Fits) (filled : s.data ≠ []) (told : s.Told) :
    (∀ t ∈ states s changes, t.Told) ↔ ∀ step ∈ steps s changes, Plain step.1 step.2 := by
  induction changes generalizing s with
  | nil =>
      rw [states, steps]
      simp only [List.mem_singleton, forall_eq, told, List.not_mem_nil, false_implies,
        implies_true]
  | cons change changes ih =>
      obtain ⟨lawful, lawfuls⟩ := List.forall_mem_cons.mp lawful
      rw [states] at sized
      obtain ⟨fits, sized⟩ := List.forall_mem_cons.mp sized
      have step := told_step lawful fits filled told
      rw [states, steps, List.forall_mem_cons, List.forall_mem_cons, and_iff_right told, ← step]
      cases applied : change.apply s with
      | error fault =>
          simp only [List.not_mem_nil, false_implies, implies_true, and_true, reduceCtorEq]
      | ok s' =>
          rw [applied] at sized
          have filled' := apply_filled lawful fits filled applied
          simp only [Except.ok.injEq, forall_eq']
          constructor
          · intro along
            have told' := along s' (mem_states_self s' changes)
            exact ⟨told', (ih lawfuls sized filled' told').mp along⟩
          · rintro ⟨told', plain⟩
            exact (ih lawfuls sized filled' told').mpr plain

end Change

/-- A string constructed from, or set to, contents that are not empty, and what is then done
to it. No `std::string` on the way is beyond the limit there is for them. -/
structure History where
  data : Bytes
  changes : List Change
  filled : data ≠ []
  lawful : ∀ change ∈ changes, change.Lawful
  sized : ∀ s ∈ Change.states (ofData data) changes, s.Fits

namespace History

def states (h : History) : List Str := Change.states (ofData h.data) h.changes

/-- The history begins with no integer beyond 32 bits, and all its changes are plain. -/
def Plain (h : History) : Prop :=
  ¬ Oversized h.data ∧ ∀ step ∈ Change.steps (ofData h.data) h.changes, Change.Plain step.1 step.2

theorem told_of_plain {h : History} (plain : h.Plain) : ∀ s ∈ h.states, s.Told :=
  (Change.told_along h.lawful h.sized h.filled ((told_ofData h.filled).mpr plain.1)).mpr plain.2

theorem plain_of_told {h : History} (told : ∀ s ∈ h.states, s.Told) : h.Plain := by
  have first : (ofData h.data).Told := told _ (Change.mem_states_self _ _)
  exact ⟨(told_ofData h.filled).mp first,
    (Change.told_along h.lawful h.sized h.filled first).mp told⟩

/-- The tag is the one of the contents all through a history exactly when the history is plain,
and strings with equal bytes out of two plain histories behave alike. -/
theorem tag_of_contents_iff (h : History) :
    ((∀ s ∈ h.states, s.Told) ↔ h.Plain) ∧
      ∀ other : History, h.Plain → other.Plain →
        ∀ s ∈ h.states, ∀ t ∈ other.states, s.data = t.data →
          (∀ delta, s.incrBy delta = t.incrBy delta) ∧
            ∀ conf, s.encodeValue conf = t.encodeValue conf := by
  refine ⟨⟨plain_of_told, told_of_plain⟩, ?_⟩
  intro other plain plain' s visited t visited' same
  have told := told_of_plain plain s visited
  obtain rfl : s = t := eq_of_told told (told_of_plain plain' t visited') same
  exact ⟨fun _ => rfl, fun _ => rfl⟩

/-- A lone minus sign to which a digit is then appended. -/
def signed : History where
  data := bytes "-"
  changes := [.append (bytes "5")]
  filled := by decide +kernel
  lawful := by
    intro change made
    rw [List.mem_singleton.mp made]
    trivial
  sized := by decide +kernel

/-- The same text at once. -/
def whole : History where
  data := bytes "-5"
  changes := []
  filled := by decide +kernel
  lawful := by
    intro change made
    cases made
  sized := by decide +kernel

theorem not_tag_of_contents : ∃ s ∈ signed.states, ∃ t ∈ whole.states,
    ¬ s.Told ∧ s.data = t.data ∧ s.incrBy 1 ≠ t.incrBy 1 := by
  have visited : raw (bytes "-5") ∈ signed.states := by decide +kernel
  have visited' : ofData (bytes "-5") ∈ whole.states := by decide +kernel
  refine ⟨raw (bytes "-5"), visited, ofData (bytes "-5"), visited', ?_, rfl, by decide +kernel⟩
  rw [told_of_raw rfl]
  decide +kernel

end History

end Str

end ForkRedis
