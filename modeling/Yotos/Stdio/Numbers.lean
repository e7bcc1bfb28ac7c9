import Yotos.Library.Numeral
import Yotos.Stdio.Basic

/-!
# The numbers that `printf` shows

Both number functions fill a buffer from the back with the digits of the value, the
decimal one until nothing is left of it and the hexadecimal one eight times. The value
is unsigned in both, while the argument of `%d` is an `int`, so the numeral of a negative
number is that of another number.
-/

namespace Yotos

namespace Stdio

open Bytes Library

/-! ### What a number should look like -/

/-- The character of a decimal digit. -/
def decimalChar (d : ℕ) : UInt8 := 0x30 + UInt8.ofNat d

/-- The character of a hexadecimal digit. -/
def hexDigitChar (d : ℕ) : UInt8 := hexChar (UInt8.ofNat d)

/-- The canonical decimal numeral: a sign before a negative number, and no leading
zeros. -/
def decimal (n : ℤ) : List UInt8 :=
  (if n < 0 then [0x2D] else []) ++ (numeral 10 n.natAbs).map decimalChar

def decimalValue (c : UInt8) : Option ℕ :=
  if 0x30 ≤ c ∧ c ≤ 0x39 then some (c.toNat - 0x30) else none

/-- The value of an upper-case hexadecimal digit. -/
def hexValue (c : UInt8) : Option ℕ :=
  if 0x41 ≤ c ∧ c ≤ 0x46 then some (c.toNat - 0x41 + 10) else decimalValue c

def readDecimal : List UInt8 → Option ℤ
  | 0x2D :: s => (readNumeral 10 decimalValue s).map fun n : ℕ => -(n : ℤ)
  | s => (readNumeral 10 decimalValue s).map fun n : ℕ => (n : ℤ)

/-- `0x` and eight upper-case hexadecimal digits whose value is `v`. -/
def HexOf (s : List UInt8) (v : ℕ) : Prop :=
  ∃ digits, s = 0x30 :: 0x78 :: digits ∧ digits.length = 8 ∧ readNumeral 16 hexValue digits = some v

theorem decimalValue_decimalChar : ∀ d < 10, decimalValue (decimalChar d) = some d := by
  decide

theorem hexValue_hexDigitChar : ∀ d < 16, hexValue (hexDigitChar d) = some d := by
  decide

theorem decimalChar_ne : ∀ d < 10, decimalChar d ≠ 0 ∧ decimalChar d ≠ 0x2D := by
  decide

theorem hexDigitChar_ne_zero : ∀ d < 16, hexDigitChar d ≠ 0 := by
  decide

/-- A numeral reads back as its number. -/
theorem readDecimal_decimal (n : ℤ) : readDecimal (decimal n) = some n := by
  have hread : readNumeral 10 decimalValue ((numeral 10 n.natAbs).map decimalChar) =
      some n.natAbs := by
    rw [readNumeral_map fun d hd => decimalValue_decimalChar d (numeral_lt (by decide) hd),
      ofDigits_reverse_numeral]
  rw [decimal]
  by_cases hneg : n < 0
  · rw [if_pos hneg, List.singleton_append, readDecimal, hread, Option.map_some]
    congr 1
    omega
  · rw [if_neg hneg, List.nil_append]
    obtain ⟨d, ds, hds⟩ := List.exists_cons_of_ne_nil (numeral_ne_nil 10 n.natAbs)
    have hd : d < 10 := numeral_lt (by decide) (by rw [hds]; exact List.mem_cons_self)
    rw [hds, List.map_cons] at hread ⊢
    rw [readDecimal, hread, Option.map_some]
    · congr 1
      omega
    · intro s h
      exact (decimalChar_ne d hd).2 (List.cons.inj h).1

/-! ### The buffers -/

variable {value : UInt32} {i n : ℕ} {buf : Bytes}

/-- The digits end up right before `i`. -/
theorem printIntLoop_spec (value : UInt32) (buf : Bytes)
    (hlen : (Nat.digits 10 value.toNat).length ≤ i) :
    ∃ j buf', printIntLoop i value buf = some (j, buf') ∧
      j + (Nat.digits 10 value.toNat).length = i ∧
      bytesAt buf' j (i - j) = (Nat.digits 10 value.toNat).reverse.map decimalChar ∧
      ∀ x, i ≤ x → buf' x = buf x := by
  induction i generalizing value buf with
  | zero =>
      have hnil := List.length_eq_zero_iff.1 (Nat.le_zero.1 hlen)
      have hzero : value.toNat = 0 := Nat.digits_eq_nil_iff_eq_zero.1 hnil
      have hnot : ¬ 0 < value := by
        rw [UInt32.lt_iff_toNat_lt, hzero]
        decide
      rw [printIntLoop, if_neg hnot, hzero]
      exact ⟨0, buf, rfl, by simp, by simp [bytesAt], fun _ _ => rfl⟩
  | succ i ih =>
      rw [printIntLoop]
      by_cases hpos : 0 < value
      · have hnat : 0 < value.toNat := UInt32.lt_iff_toNat_lt.1 hpos
        have hdiv : (value / 10).toNat = value.toNat / 10 := UInt32.toNat_div value 10
        have hdigits : Nat.digits 10 value.toNat =
            value.toNat % 10 :: Nat.digits 10 (value / 10).toNat := by
          rw [hdiv, Nat.digits_def' (by decide) hnat]
        have hchar : 0x30 + (value % 10).toUInt8 = decimalChar (value.toNat % 10) := by
          rw [decimalChar, ← UInt8.ofNat_uInt32ToNat, UInt32.toNat_mod]
          rfl
        rw [hdigits, List.length_cons] at hlen
        obtain ⟨j, buf', hrun, hj, hbytes, hframe⟩ := ih (value / 10)
          (store8 buf i (0x30 + (value % 10).toUInt8)) (by omega)
        rw [if_pos hpos, hdigits]
        refine ⟨j, buf', hrun, by rw [List.length_cons]; omega, ?_, fun x hx => ?_⟩
        · have hsplit : i + 1 - j = i - j + 1 := by omega
          have hlast : buf' (j + (i - j)) = decimalChar (value.toNat % 10) := by
            rw [show j + (i - j) = i by omega, hframe i le_rfl, ← hchar]
            simp [store8]
          rw [hsplit, bytesAt_succ, hbytes, hlast]
          simp
        · rw [hframe x (by omega), store8_of_ne _ _ (by omega)]
      · have hzero : value.toNat = 0 := by
          rw [UInt32.lt_iff_toNat_lt] at hpos
          simpa using hpos
        rw [if_neg hpos, hzero]
        exact ⟨i + 1, buf, rfl, by simp, by simp [bytesAt], fun _ _ => rfl⟩

theorem printHexLoop_spec (n : ℕ) (value : UInt32) (buf : Bytes) :
    bytesAt (printHexLoop n value buf) 2 n =
        (lastDigits 16 n value.toNat).reverse.map hexDigitChar ∧
      ∀ x, x < 2 ∨ n + 2 ≤ x → printHexLoop n value buf x = buf x := by
  induction n generalizing value buf with
  | zero => exact ⟨by simp [bytesAt, lastDigits], fun _ _ => rfl⟩
  | succ n ih =>
      have hshift : (value >>> 4).toNat = value.toNat / 16 := by
        rw [UInt32.toNat_shiftRight, Nat.shiftRight_eq_div_pow]
        rfl
      have hchar : hexChar (value &&& 0xF).toUInt8 = hexDigitChar (value.toNat % 16) := by
        rw [hexDigitChar, ← UInt8.ofNat_uInt32ToNat, UInt32.toNat_and]
        congr 2
        exact Nat.and_two_pow_sub_one_eq_mod value.toNat 4
      obtain ⟨hbytes, hframe⟩ := ih (value >>> 4)
        (store8 buf (n + 2) (hexChar (value &&& 0xF).toUInt8))
      rw [printHexLoop]
      refine ⟨?_, fun x hx => ?_⟩
      · have hlast := hframe (n + 2) (Or.inr le_rfl)
        rw [bytesAt_succ, hbytes, Nat.add_comm 2 n, hlast, hchar, lastDigits, hshift]
        simp [store8]
      · rw [hframe x (by omega), store8_of_ne _ _ (by omega)]

/-- What is left of the buffer is the string. -/
theorem printStr_append_zero {s : List UInt8} (h : ∀ c ∈ s, c ≠ 0) : printStr (s ++ [0]) = s := by
  rw [printStr, List.takeWhile_append_of_pos]
  · simp
  · intro c hc
    exact decide_eq_true (h c hc)

theorem printInt_eq (value : UInt32) (buf : Bytes) :
    printInt value buf = some ((numeral 10 value.toNat).map decimalChar) := by
  rw [printInt]
  by_cases hzero : value = 0
  · rw [if_pos hzero, hzero]
    rfl
  · have hnat : value.toNat ≠ 0 := fun h => hzero (UInt32.toNat_inj.1 h)
    have hlen : (Nat.digits 10 value.toNat).length ≤ 10 := by
      rw [Nat.digits_length_le_iff (by decide)]
      exact value.toNat_lt.trans (by decide)
    obtain ⟨j, buf', hrun, hj, hbytes, hframe⟩ :=
      printIntLoop_spec value (store8 buf 10 0) hlen
    have hend : buf' (j + (10 - j)) = 0 := by
      rw [show j + (10 - j) = 10 by omega, hframe 10 le_rfl]
      rfl
    have hchars : ∀ c ∈ (Nat.digits 10 value.toNat).reverse.map decimalChar, c ≠ 0 := by
      intro c hc
      obtain ⟨d, hd, rfl⟩ := List.mem_map.1 hc
      exact (decimalChar_ne d (Nat.digits_lt_base (by decide) (List.mem_reverse.1 hd))).1
    have hstring : printStr (bytesAt buf' j (11 - j)) = (numeral 10 value.toNat).map decimalChar := by
      rw [show 11 - j = 10 - j + 1 by omega, bytesAt_succ, hbytes, hend,
        printStr_append_zero hchars, numeral, if_neg hnat]
    rw [if_neg hzero, hrun, Option.map_some]
    exact congrArg some hstring

theorem printHex_eq (value : UInt32) (buf : Bytes) :
    printHex value buf =
      0x30 :: 0x78 :: (lastDigits 16 8 value.toNat).reverse.map hexDigitChar := by
  obtain ⟨hbytes, hframe⟩ := printHexLoop_spec 8 value
    (store8 (store8 (store8 buf 0 0x30) 1 0x78) 10 0)
  rw [printHex]
  generalize printHexLoop 8 value (store8 (store8 (store8 buf 0 0x30) 1 0x78) 10 0) = buf'
    at hbytes hframe
  have hprefix : bytesAt buf' 0 2 = [0x30, 0x78] := by
    rw [bytesAt_succ, bytesAt_succ, hframe 1 (by omega), hframe 0 (by omega)]
    rfl
  have hend : buf' (2 + 8) = 0 := hframe 10 (by omega)
  have hchars : ∀ c ∈ [0x30, 0x78] ++ (lastDigits 16 8 value.toNat).reverse.map hexDigitChar,
      c ≠ 0 := by
    intro c hc
    rcases List.mem_append.1 hc with hc | hc
    · rintro rfl
      simp at hc
    · obtain ⟨d, hd, rfl⟩ := List.mem_map.1 hc
      exact hexDigitChar_ne_zero d (lastDigits_lt (by decide) (List.mem_reverse.1 hd))
  rw [bytesAt_append buf' 0 (show 2 ≤ 11 by decide), hprefix, Nat.zero_add, bytesAt_succ, hbytes,
    hend, ← List.append_assoc, printStr_append_zero hchars]
  rfl

theorem hexOf_printHex (value : UInt32) (buf : Bytes) :
    HexOf (printHex value buf) value.toNat := by
  refine ⟨_, printHex_eq value buf, by simp, ?_⟩
  have hchars : ∀ d ∈ (lastDigits 16 8 value.toNat).reverse, hexValue (hexDigitChar d) = some d :=
    fun d hd => hexValue_hexDigitChar d (lastDigits_lt (by decide) (List.mem_reverse.1 hd))
  have hlt : value.toNat < 16 ^ 8 := value.toNat_lt
  rw [readNumeral_map hchars, List.reverse_reverse, ofDigits_lastDigits, Nat.mod_eq_of_lt hlt]

/-! ### `printf` -/

theorem printf_d (stack : Bytes) (n : Int32) :
    printf stack [0x25, 0x64] [.int n] =
      some ((numeral 10 n.toUInt32.toNat).map decimalChar) := by
  simp [printf, printInt_eq]

theorem printf_x (stack : Bytes) (x : Int32) :
    printf stack [0x25, 0x78] [.int x] = some (printHex x.toUInt32 stack) := by
  simp [printf]

/-- `%d` shows the numeral of exactly the nonnegative numbers, and `%x` shows every
value. -/
theorem printf_decimal_iff (stack : Bytes) (n : Int32) (v : UInt32) :
    (printf stack [0x25, 0x64] [.int n] = some (decimal n.toInt) ↔ 0 ≤ n.toInt) ∧
      ∃ s, printf stack [0x25, 0x78] [.int v.toInt32] = some s ∧ HexOf s v.toNat := by
  have hcast : n.toInt =
      if 2 * n.toUInt32.toNat < 2 ^ 32 then (n.toUInt32.toNat : ℤ)
      else (n.toUInt32.toNat : ℤ) - 2 ^ 32 := BitVec.toInt_eq_toNat_cond n.toBitVec
  have hlt := n.toUInt32.toNat_lt
  constructor
  · rw [printf_d, Option.some.injEq, decimal]
    by_cases hneg : n.toInt < 0
    · -- the numeral starts with a digit, not with the sign
      rw [if_pos hneg]
      refine iff_of_false (fun h => ?_) (by omega)
      obtain ⟨d, ds, hds⟩ := List.exists_cons_of_ne_nil (numeral_ne_nil 10 n.toUInt32.toNat)
      have hd : d < 10 := numeral_lt (by decide) (by rw [hds]; exact List.mem_cons_self)
      rw [hds, List.map_cons, List.singleton_append] at h
      exact (decimalChar_ne d hd).2 (List.cons.inj h).1
    · have habs : n.toInt.natAbs = n.toUInt32.toNat := by
        split_ifs at hcast <;> omega
      rw [if_neg hneg, List.nil_append, habs]
      exact iff_of_true rfl (by omega)
  · exact ⟨_, printf_x stack _, hexOf_printHex v stack⟩

/-- The exit code -1 is shown as 4294967295. -/
theorem not_printf_decimal_neg :
    ¬ ∀ (stack : Bytes) (n : Int32), printf stack [0x25, 0x64] [.int n] = some (decimal n.toInt) := by
  intro h
  have hneg := h (fun _ => 0) (-1)
  rw [printf_d] at hneg
  exact absurd hneg (by decide)

end Stdio

end Yotos
