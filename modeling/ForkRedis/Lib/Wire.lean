import Mathlib.Algebra.Order.Ring.Nat
import Mathlib.Data.List.Basic

set_option autoImplicit false

/- Self-delimiting binary formats: readers that consume a prefix of their input,
the relation between such a reader and the bytes a writer produced, and
fixed-width little-endian numbers. -/
namespace Wire

variable {β ε α γ ι : Type}

/-- A reader takes what it needs from the front of its input, or faults. -/
abbrev Reader (β ε α : Type) := StateT (List β) (Except ε) α

/-- `bytes` is read as `value` in front of every suffix, and the suffix is left
exactly as it was. -/
def Reads (reader : Reader β ε α) (bytes : List β) (value : α) : Prop :=
  ∀ rest, reader.run (bytes ++ rest) = .ok (value, rest)

theorem Reads.pure (value : α) : Reads (pure value : Reader β ε α) [] value :=
  fun _ => rfl

theorem Reads.bind {first : Reader β ε α} {next : α → Reader β ε γ}
    {front back : List β} {value : α} {result : γ}
    (head : Reads first front value) (tail : Reads (next value) back result) :
    Reads (first >>= next) (front ++ back) result := by
  intro rest
  rw [StateT.run_bind, List.append_assoc, head]
  exact tail rest

/-- A last step that only computes reads nothing. -/
theorem Reads.bind_pure {first : Reader β ε α} {front : List β} {value : α}
    (next : α → γ) (head : Reads first front value) :
    Reads (first >>= fun read => Pure.pure (next read)) front (next value) := by
  intro rest
  rw [StateT.run_bind, head]
  rfl

/-- A counted loop: `count` rounds, each reading one item into the accumulator. -/
def loop (round : α → Reader β ε α) : Nat → α → Reader β ε α
  | 0, acc => pure acc
  | count + 1, acc => do
    let next ← round acc
    loop round count next

/-- A loop over as many items as were written folds them in, in written order.
The accumulator invariant `ok` is what one round may rely on. -/
theorem Reads.loop_invariant {round : α → Reader β ε α} {encode : ι → List β}
    {absorb : α → ι → α} (ok : α → Prop) (items : List ι)
    (reads : ∀ item ∈ items, ∀ acc, ok acc → Reads (round acc) (encode item) (absorb acc item))
    (keeps : ∀ item ∈ items, ∀ acc, ok acc → ok (absorb acc item))
    (acc : α) (start : ok acc) :
    Reads (loop round items.length acc) (items.flatMap encode) (items.foldl absorb acc) := by
  induction items generalizing acc with
  | nil => exact Reads.pure acc
  | cons item items ih =>
      simp only [List.length_cons, loop, List.flatMap_cons, List.foldl_cons]
      apply Reads.bind (reads item List.mem_cons_self acc start)
      apply ih
      · intro other member
        exact reads other (List.mem_cons_of_mem item member)
      · intro other member
        exact keeps other (List.mem_cons_of_mem item member)
      · exact keeps item List.mem_cons_self acc start

theorem Reads.loop {round : α → Reader β ε α} {encode : ι → List β}
    {absorb : α → ι → α} (items : List ι)
    (reads : ∀ item ∈ items, ∀ acc, Reads (round acc) (encode item) (absorb acc item))
    (acc : α) :
    Reads (loop round items.length acc) (items.flatMap encode) (items.foldl absorb acc) :=
  Reads.loop_invariant (fun _ => True) items
    (fun item member acc _ => reads item member acc) (fun _ _ _ _ => trivial) acc trivial

/-- A loop that returns has returned from its first round. -/
theorem loop_succ_returns {round : α → Reader β ε α} {count : Nat} {acc result : α}
    {input rest : List β} (returned : (loop round (count + 1) acc).run input = .ok (result, rest)) :
    ∃ next left, (round acc).run input = .ok (next, left) ∧
      (loop round count next).run left = .ok (result, rest) := by
  rw [loop, StateT.run_bind] at returned
  cases first : (round acc).run input with
  | error fault =>
      rw [first] at returned
      cases returned
  | ok read =>
      rw [first] at returned
      exact ⟨read.1, read.2, rfl, returned⟩

/-- What every round keeps, on whatever input it returns, the whole loop keeps. -/
theorem loop_preserves {round : α → Reader β ε α} (keep : α → Prop)
    (step : ∀ acc input next rest, keep acc → (round acc).run input = .ok (next, rest) → keep next)
    (count : Nat) {acc result : α} {input rest : List β} (start : keep acc)
    (returned : (loop round count acc).run input = .ok (result, rest)) : keep result := by
  induction count generalizing acc input with
  | zero =>
      cases returned
      exact start
  | succ count ih =>
      obtain ⟨next, left, first, later⟩ := loop_succ_returns returned
      exact ih (step acc input next left start first) later

/-- A loop whose rounds read the same whatever has been accumulated folds the same items
into every start. -/
theorem loop_absorbs {round : α → Reader β ε α} (absorb : α → ι → α)
    (shared : ∀ acc input next rest, (round acc).run input = .ok (next, rest) →
      ∃ item, ∀ other, (round other).run input = .ok (absorb other item, rest))
    (count : Nat) {acc result : α} {input rest : List β}
    (returned : (loop round count acc).run input = .ok (result, rest)) :
    ∃ items : List ι, ∀ other,
      (loop round count other).run input = .ok (items.foldl absorb other, rest) := by
  induction count generalizing acc input with
  | zero =>
      cases returned
      exact ⟨[], fun other => rfl⟩
  | succ count ih =>
      obtain ⟨next, left, first, later⟩ := loop_succ_returns returned
      obtain ⟨item, reads⟩ := shared acc input next left first
      obtain ⟨items, absorbs⟩ := ih later
      refine ⟨item :: items, fun other => ?_⟩
      rw [loop, StateT.run_bind, reads other]
      exact absorbs (absorb other item)

/-- A loop whose accumulator carries more than is asked for in the end. -/
theorem map_loop {round : α → Reader β ε α} {less : γ → Reader β ε γ} (forget : α → γ)
    (forgets : ∀ acc, forget <$> round acc = less (forget acc)) (count : Nat) (acc : α) :
    forget <$> loop round count acc = loop less count (forget acc) := by
  induction count generalizing acc with
  | zero => rw [loop, loop, map_pure]
  | succ count ih =>
      rw [loop, loop, map_bind, ← forgets, bind_map_left]
      simp only [ih]

/-- The low `width` bytes of a number, least significant first. -/
def littleEndian : Nat → Nat → List UInt8
  | 0, _ => []
  | width + 1, value => UInt8.ofNat value :: littleEndian width (value / 256)

/-- The number a little-endian byte string denotes. -/
def littleEndianValue : List UInt8 → Nat
  | [] => 0
  | byte :: rest => byte.toNat + 256 * littleEndianValue rest

@[simp] theorem littleEndian_length (width value : Nat) :
    (littleEndian width value).length = width := by
  induction width generalizing value with
  | zero => rfl
  | succ width ih => simp only [littleEndian, List.length_cons, ih]

theorem littleEndianValue_littleEndian (width value : Nat) :
    littleEndianValue (littleEndian width value) = value % 256 ^ width := by
  induction width generalizing value with
  | zero => simp only [littleEndian, littleEndianValue, Nat.pow_zero, Nat.mod_one]
  | succ width ih =>
      have byte : (UInt8.ofNat value).toNat = value % 256 := UInt8.toNat_ofNat'
      rw [littleEndian, littleEndianValue, ih, byte, Nat.pow_succ 256 width,
        Nat.mul_comm (256 ^ width) 256, Nat.mod_mul]

theorem littleEndianValue_of_lt {width value : Nat} (fits : value < 256 ^ width) :
    littleEndianValue (littleEndian width value) = value := by
  rw [littleEndianValue_littleEndian, Nat.mod_eq_of_lt fits]

end Wire
