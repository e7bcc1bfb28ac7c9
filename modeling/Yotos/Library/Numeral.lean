import Mathlib.Data.Nat.Digits.Lemmas

/-!
# Numerals

A numeral is a list of digits, the most significant one first. `numeral` is the
canonical one, `lastDigits` has a fixed number of digits, least significant first as
loops produce them, and `readNumeral` gives the value of a string of digits. The digits
of Mathlib have the least significant one first and give no digit to zero.
-/

namespace Yotos

namespace Library

variable {α : Type*} {b k n : ℕ}

/-- The canonical numeral of `n` in base `b`. -/
def numeral (b n : ℕ) : List ℕ := if n = 0 then [0] else (Nat.digits b n).reverse

/-- The last `k` digits of `n`, least significant first. -/
def lastDigits (b : ℕ) : (k n : ℕ) → List ℕ
  | 0, _ => []
  | k + 1, n => n % b :: lastDigits b k (n / b)

/-- The value of a string of digits, `none` when some character is no digit. -/
def readNumeral (b : ℕ) (digit : α → Option ℕ) (s : List α) : Option ℕ :=
  s.foldlM (fun value c => (digit c).map (b * value + ·)) 0

theorem numeral_ne_nil (b n : ℕ) : numeral b n ≠ [] := by
  rw [numeral]
  split_ifs with h
  · simp
  · simpa using Nat.digits_ne_nil_iff_ne_zero.2 h

theorem numeral_lt (hb : 1 < b) {d : ℕ} (hd : d ∈ numeral b n) : d < b := by
  rw [numeral] at hd
  split_ifs at hd
  · obtain rfl := List.mem_singleton.1 hd
    omega
  · exact Nat.digits_lt_base hb (List.mem_reverse.1 hd)

theorem ofDigits_reverse_numeral (b n : ℕ) : Nat.ofDigits b (numeral b n).reverse = n := by
  rw [numeral]
  split_ifs with h
  · simp [h]
  · rw [List.reverse_reverse, Nat.ofDigits_digits]

@[simp] theorem length_lastDigits (b k n : ℕ) : (lastDigits b k n).length = k := by
  induction k generalizing n with
  | zero => rfl
  | succ k ih => rw [lastDigits, List.length_cons, ih]

theorem lastDigits_lt (hb : 0 < b) {d : ℕ} (hd : d ∈ lastDigits b k n) : d < b := by
  induction k generalizing n with
  | zero => cases hd
  | succ k ih =>
      rcases List.mem_cons.1 hd with rfl | hd
      · exact Nat.mod_lt _ hb
      · exact ih hd

theorem ofDigits_lastDigits (b k n : ℕ) : Nat.ofDigits b (lastDigits b k n) = n % b ^ k := by
  induction k generalizing n with
  | zero => simp [lastDigits, Nat.mod_one]
  | succ k ih =>
      rw [lastDigits, Nat.ofDigits_cons, ih, Nat.pow_succ', Nat.mod_mul]

/-- Reading back what was written with a character for each digit. -/
theorem readNumeral_map {digit : α → Option ℕ} {char : ℕ → α} {ds : List ℕ}
    (h : ∀ d ∈ ds, digit (char d) = some d) :
    readNumeral b digit (ds.map char) = some (Nat.ofDigits b ds.reverse) := by
  induction ds using List.reverseRecOn with
  | nil => rfl
  | append_singleton ds d ih =>
      have hprefix := ih fun x hx => h x (by simp [hx])
      rw [readNumeral] at hprefix
      have hlast := h d (by simp)
      rw [readNumeral, List.map_append, List.foldlM_append, hprefix]
      simp [hlast, Nat.ofDigits_cons, Nat.add_comm]

end Library

end Yotos
