import Mathlib.Logic.Function.Iterate
import SealedStream.Crc32

/-!
# Bursts that CRC-32 detects

A change that is confined to four bytes in a row always changes the digest, wherever it lies and
however long the data are. Up to four bytes fit the register, so that running them through the division
is to put their word in and then only to divide (`foldl_step_eq`); and a division step can be undone,
because the polynomial's top bit shows in the result what fell out at the bottom (`shift_injective`).
So different words leave different registers, and what follows keeps them different
(`digest_ne_of_burst`).
-/
namespace SealedStream.Crc32

/-! ### One bit of division -/

theorem low_bit {register : UInt32} :
    register &&& 1 = 1 ↔ register.toBitVec.getLsbD 0 = true := by
  have masked : (register &&& 1).toBitVec =
      BitVec.setWidth 32 (BitVec.ofBool (register.toBitVec.getLsbD 0)) := by
    rw [UInt32.toBitVec_and]
    exact BitVec.and_one_eq_setWidth_ofBool_getLsbD
  rw [← UInt32.toBitVec_inj, masked]
  cases register.toBitVec.getLsbD 0 <;> decide

theorem getLsbD_half (word : UInt32) (i : Nat) :
    (word >>> 1).toBitVec.getLsbD i = word.toBitVec.getLsbD (i + 1) := by
  rw [UInt32.toBitVec_shiftRight]
  simp [Nat.add_comm]

/-- A division step bit by bit: every bit moves down by one place, and the polynomial comes in if the
lowest was set. -/
theorem getLsbD_shift (register : UInt32) (i : Nat) :
    (shift register).toBitVec.getLsbD i =
      (register.toBitVec.getLsbD (i + 1) ^^
        (register.toBitVec.getLsbD 0 && polynomial.toBitVec.getLsbD i)) := by
  unfold shift
  by_cases low : register &&& 1 = 1
  · rw [if_pos low, UInt32.toBitVec_xor, BitVec.getLsbD_xor, getLsbD_half, low_bit.mp low, Bool.true_and]
  · have clear : register.toBitVec.getLsbD 0 = false := by
      rwa [low_bit, Bool.not_eq_true] at low
    rw [if_neg low, getLsbD_half, clear, Bool.false_and, Bool.xor_false]

/-- The top bit of the result is the bit that fell out, so a division step can be undone. -/
theorem shift_injective : Function.Injective shift := by
  intro a b same
  have bits : ∀ i, (a.toBitVec.getLsbD (i + 1) ^^
        (a.toBitVec.getLsbD 0 && polynomial.toBitVec.getLsbD i)) =
      (b.toBitVec.getLsbD (i + 1) ^^
        (b.toBitVec.getLsbD 0 && polynomial.toBitVec.getLsbD i)) := by
    intro i
    rw [← getLsbD_shift, ← getLsbD_shift, same]
  have low : a.toBitVec.getLsbD 0 = b.toBitVec.getLsbD 0 := by
    have top : polynomial.toBitVec.getLsbD 31 = true := by decide
    have fallen := bits 31
    rwa [top, Bool.and_true, Bool.and_true, BitVec.getLsbD_of_ge _ _ (Nat.le_refl 32),
      BitVec.getLsbD_of_ge _ _ (Nat.le_refl 32), Bool.false_xor, Bool.false_xor] at fallen
  apply UInt32.toBitVec_inj.mp
  apply BitVec.eq_of_getLsbD_eq
  intro i _
  cases i with
  | zero => exact low
  | succ i =>
    have other := bits i
    rwa [low, Bool.xor_left_inj] at other

/-- A word without a lowest bit only moves down. -/
theorem shift_xor_of_even (register : UInt32) {word : UInt32}
    (even : word.toBitVec.getLsbD 0 = false) :
    shift (register ^^^ word) = shift register ^^^ word >>> 1 := by
  apply UInt32.toBitVec_inj.mp
  apply BitVec.eq_of_getLsbD_eq
  intro i _
  rw [UInt32.toBitVec_xor, BitVec.getLsbD_xor, getLsbD_half, getLsbD_shift, getLsbD_shift,
    UInt32.toBitVec_xor, BitVec.getLsbD_xor, BitVec.getLsbD_xor, even, Bool.xor_false,
    Bool.xor_right_comm]

/-- A word that starts behind as many bits as are divided out comes down to the bottom. -/
theorem iterate_shift_xor {count : Nat} (register : UInt32) {word rest : UInt32}
    (clear : ∀ i < count, word.toBitVec.getLsbD i = false)
    (placed : ∀ i, word.toBitVec.getLsbD (i + count) = rest.toBitVec.getLsbD i) :
    shift^[count] (register ^^^ word) = shift^[count] register ^^^ rest := by
  induction count generalizing register word with
  | zero =>
    have same : word = rest :=
      UInt32.toBitVec_inj.mp (BitVec.eq_of_getLsbD_eq fun i _ => placed i)
    rw [same]
    rfl
  | succ count ih =>
    rw [Function.iterate_succ_apply, Function.iterate_succ_apply,
      shift_xor_of_even register (clear 0 (Nat.succ_pos count))]
    apply ih
    · intro i less
      rw [getLsbD_half]
      exact clear (i + 1) (Nat.succ_lt_succ less)
    · intro i
      rw [getLsbD_half]
      exact placed i

/-! ### Bytes as a word -/

theorem step_eq_iterate (register : UInt32) (byte : UInt8) :
    step register byte = shift^[8] (register ^^^ byte.toUInt32) :=
  rfl

/-- Different registers stay different, whatever is run through the division. -/
theorem foldl_step_injective (bytes : Bytes) :
    Function.Injective fun register => bytes.foldl step register := by
  induction bytes with
  | nil => exact Function.injective_id
  | cons byte bytes ih =>
    intro a b same
    have first : step a byte = step b byte := ih same
    rw [step_eq_iterate, step_eq_iterate] at first
    exact (UInt32.xor_left_inj _).mp (shift_injective.iterate 8 first)

/-- The bytes as they would lie in the register, the first at the bottom. -/
def burst : Bytes → UInt32
  | [] => 0
  | byte :: bytes => byte.toUInt32 ^^^ burst bytes <<< 8

theorem getLsbD_raised (word : UInt32) (i : Nat) :
    (word <<< 8).toBitVec.getLsbD i =
      (decide (i < 32) && !decide (i < 8) && word.toBitVec.getLsbD (i - 8)) := by
  rw [UInt32.toBitVec_shiftLeft]
  exact BitVec.getLsbD_shiftLeft _ 8

/-- The first byte lies in the lowest eight bits. -/
theorem getLsbD_burst_first (byte : UInt8) (bytes : Bytes) {i : Nat} (low : i < 8) :
    (burst (byte :: bytes)).toBitVec.getLsbD i = byte.toBitVec.getLsbD i := by
  have inside : i < 32 := by omega
  rw [burst, UInt32.toBitVec_xor, BitVec.getLsbD_xor, getLsbD_raised, UInt8.toBitVec_toUInt32,
    BitVec.getLsbD_setWidth]
  simp [inside, low]

/-- The others lie above it. -/
theorem getLsbD_burst_others (byte : UInt8) (bytes : Bytes) {i : Nat} (inside : i + 8 < 32) :
    (burst (byte :: bytes)).toBitVec.getLsbD (i + 8) = (burst bytes).toBitVec.getLsbD i := by
  have high : ¬ i + 8 < 8 := by omega
  rw [burst, UInt32.toBitVec_xor, BitVec.getLsbD_xor, getLsbD_raised, UInt8.toBitVec_toUInt32,
    BitVec.getLsbD_setWidth, BitVec.getLsbD_of_ge byte.toBitVec _ (Nat.le_add_left 8 i)]
  simp [inside, high]

/-- No byte reaches above its eight bits. -/
theorem getLsbD_burst_of_le {bytes : Bytes} {i : Nat} (past : 8 * bytes.length ≤ i) :
    (burst bytes).toBitVec.getLsbD i = false := by
  induction bytes generalizing i with
  | nil => simp [burst]
  | cons byte bytes ih =>
    rw [List.length_cons] at past
    by_cases inside : i < 32
    · obtain ⟨rest, rfl⟩ := Nat.exists_eq_add_of_le' (show 8 ≤ i by omega)
      rw [getLsbD_burst_others byte bytes inside]
      exact ih (by omega)
    · exact BitVec.getLsbD_of_ge _ _ (Nat.le_of_not_lt inside)

/-- Up to four bytes are put into the register at once and then divided out. -/
theorem foldl_step_eq {bytes : Bytes} (short : bytes.length ≤ 4) (register : UInt32) :
    bytes.foldl step register = shift^[8 * bytes.length] (register ^^^ burst bytes) := by
  induction bytes generalizing register with
  | nil => simp [burst]
  | cons byte bytes ih =>
    rw [List.length_cons] at short
    -- The word of the bytes behind lies eight bits further up until the first byte is divided out.
    have clear : ∀ i < 8, (burst bytes <<< 8).toBitVec.getLsbD i = false := by
      intro i low
      rw [getLsbD_raised, decide_eq_true low, Bool.not_true, Bool.and_false, Bool.false_and]
    have placed : ∀ i, (burst bytes <<< 8).toBitVec.getLsbD (i + 8) =
        (burst bytes).toBitVec.getLsbD i := by
      intro i
      by_cases inside : i + 8 < 32
      · have high : ¬ i + 8 < 8 := by omega
        rw [getLsbD_raised, decide_eq_true inside, decide_eq_false high, Nat.add_sub_cancel]
        rfl
      · rw [BitVec.getLsbD_of_ge _ _ (by omega), getLsbD_burst_of_le (by omega)]
    rw [List.foldl_cons, ih (by omega), step_eq_iterate, List.length_cons, Nat.mul_succ,
      Function.iterate_add_apply, burst, ← UInt32.xor_assoc, iterate_shift_xor _ clear placed]

/-- Up to four bytes can be read off their word. -/
theorem burst_injective {first second : Bytes} (length : first.length = second.length)
    (short : first.length ≤ 4) (same : burst first = burst second) : first = second := by
  induction first generalizing second with
  | nil => exact (List.length_eq_zero_iff.mp length.symm).symm
  | cons a first ih =>
    cases second with
    | nil => cases length
    | cons b second =>
      rw [List.length_cons] at short
      have fewer : first.length = second.length := Nat.succ.inj length
      have byte : a = b := by
        apply UInt8.toBitVec_inj.mp
        apply BitVec.eq_of_getLsbD_eq
        intro i low
        rw [← getLsbD_burst_first a first low, ← getLsbD_burst_first b second low, same]
      have others : burst first = burst second := by
        apply UInt32.toBitVec_inj.mp
        apply BitVec.eq_of_getLsbD_eq
        intro i _
        by_cases inside : i + 8 < 32
        · rw [← getLsbD_burst_others a first inside, ← getLsbD_burst_others b second inside, same]
        · rw [getLsbD_burst_of_le (by omega), getLsbD_burst_of_le (by omega)]
      rw [byte, ih fewer (by omega) others]

/-- A change of up to four bytes in a row changes the digest. -/
theorem digest_ne_of_burst (front back : Bytes) {old new : Bytes} (length : old.length = new.length)
    (short : old.length ≤ 4) (changed : old ≠ new) :
    digest (front ++ old ++ back) ≠ digest (front ++ new ++ back) := by
  intro same
  rw [digest, digest, UInt32.xor_left_inj] at same
  simp only [List.foldl_append] at same
  have middle := foldl_step_injective back same
  rw [foldl_step_eq short, foldl_step_eq (by omega : new.length ≤ 4), length] at middle
  have words := shift_injective.iterate _ middle
  exact changed (burst_injective length short ((UInt32.xor_right_inj _).mp words))

end SealedStream.Crc32
