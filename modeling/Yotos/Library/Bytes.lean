import Mathlib.Order.Nat
import Mathlib.Data.Nat.Notation
import Mathlib.Tactic.SplitIfs
import Mathlib.Algebra.Group.Nat.Defs

/-!
# Byte memories

A memory, and equally a C buffer read from its pointer on, is a function from
addresses to bytes. 16-bit and 32-bit values are stored in little-endian order.
The lemmas say what a store does to a later load: the value comes back when the
addresses are equal, and nothing changes when the ranges are apart.
-/

namespace Yotos

/-- A byte memory, or a buffer indexed from its first byte. -/
abbrev Bytes := ℕ → UInt8

namespace Bytes

def load16 (m : Bytes) (a : ℕ) : ℕ :=
  (m a).toNat + 256 * (m (a + 1)).toNat

def load32 (m : Bytes) (a : ℕ) : ℕ :=
  load16 m a + 65536 * load16 m (a + 2)

def store8 (m : Bytes) (a : ℕ) (v : UInt8) : Bytes :=
  fun x => if x = a then v else m x

def store16 (m : Bytes) (a v : ℕ) : Bytes :=
  store8 (store8 m a (UInt8.ofNat v)) (a + 1) (UInt8.ofNat (v / 256))

def store32 (m : Bytes) (a v : ℕ) : Bytes :=
  store16 (store16 m a v) (a + 2) (v / 65536)

/-- `memset` over `n` bytes from `a` on. -/
def fill (m : Bytes) (a : ℕ) (v : UInt8) (n : ℕ) : Bytes :=
  fun x => if a ≤ x ∧ x < a + n then v else m x

/-- `n` bytes of `src` from `b` on, copied to `a` on. -/
def copy (m : Bytes) (a : ℕ) (src : Bytes) (b n : ℕ) : Bytes :=
  fun x => if a ≤ x ∧ x < a + n then src (b + (x - a)) else m x

theorem load16_lt (m : Bytes) (a : ℕ) : load16 m a < 65536 := by
  have h₀ := (m a).toNat_lt
  have h₁ := (m (a + 1)).toNat_lt
  unfold load16
  omega

theorem load32_lt (m : Bytes) (a : ℕ) : load32 m a < 2 ^ 32 := by
  have h₀ := load16_lt m a
  have h₁ := load16_lt m (a + 2)
  unfold load32
  omega

theorem load16_congr {m m' : Bytes} {a : ℕ} (h : ∀ x, a ≤ x → x < a + 2 → m' x = m x) :
    load16 m' a = load16 m a := by
  unfold load16
  rw [h a (by omega) (by omega), h (a + 1) (by omega) (by omega)]

/-- The number determines its two bytes. -/
theorem load16_eq_iff {m m' : Bytes} {a : ℕ} :
    load16 m' a = load16 m a ↔ ∀ i < 2, m' (a + i) = m (a + i) := by
  constructor
  · intro h i hi
    have hlow := (m a).toNat_lt
    have hlow' := (m' a).toNat_lt
    simp only [load16] at h
    refine UInt8.toNat_inj.1 ?_
    obtain rfl | rfl : i = 0 ∨ i = 1 := by omega
    · rw [Nat.add_zero]
      omega
    · omega
  · intro h
    refine load16_congr fun x hx hx' => ?_
    obtain ⟨i, rfl⟩ := Nat.exists_eq_add_of_le hx
    exact h i (by omega)

theorem load32_congr {m m' : Bytes} {a : ℕ} (h : ∀ x, a ≤ x → x < a + 4 → m' x = m x) :
    load32 m' a = load32 m a := by
  unfold load32
  rw [load16_congr fun x hx hx' => h x hx (by omega),
    load16_congr fun x hx hx' => h x (by omega) (by omega)]

@[simp] theorem store8_self (m : Bytes) (a : ℕ) (v : UInt8) : store8 m a v a = v := by
  simp [store8]

theorem store8_of_ne (m : Bytes) (v : UInt8) {a x : ℕ} (h : x ≠ a) :
    store8 m a v x = m x := by
  simp [store8, h]

theorem store16_of_apart (m : Bytes) (v : ℕ) {a x : ℕ} (h : x < a ∨ a + 2 ≤ x) :
    store16 m a v x = m x := by
  unfold store16
  rw [store8_of_ne _ _ (by omega), store8_of_ne _ _ (by omega)]

theorem store32_of_apart (m : Bytes) (v : ℕ) {a x : ℕ} (h : x < a ∨ a + 4 ≤ x) :
    store32 m a v x = m x := by
  unfold store32
  rw [store16_of_apart _ _ (by omega), store16_of_apart _ _ (by omega)]

theorem load16_store16 (m : Bytes) (a v : ℕ) : load16 (store16 m a v) a = v % 65536 := by
  unfold load16 store16
  rw [store8_of_ne _ _ (by omega), store8_self, store8_self, UInt8.toNat_ofNat',
    UInt8.toNat_ofNat']
  omega

/-- Storing what is there already changes nothing. -/
theorem store16_load16 (m : Bytes) (a : ℕ) : store16 m a (load16 m a) = m := by
  have hlow : UInt8.ofNat (load16 m a) = m a := by
    apply UInt8.toNat_inj.1
    have := (m a).toNat_lt
    rw [UInt8.toNat_ofNat', load16]
    omega
  have hhigh : UInt8.ofNat (load16 m a / 256) = m (a + 1) := by
    apply UInt8.toNat_inj.1
    have := (m a).toNat_lt
    have := (m (a + 1)).toNat_lt
    rw [UInt8.toNat_ofNat', load16]
    omega
  funext x
  simp only [store16, store8, hlow, hhigh]
  split_ifs with h₁ h₀
  · rw [h₁]
  · rw [h₀]
  · rfl

/-- A number taken from another memory brings its two bytes along. -/
theorem store16_load16_apply (m m' : Bytes) (a : ℕ) {i : ℕ} (hi : i < 2) :
    store16 m a (load16 m' a) (a + i) = m' (a + i) := by
  refine load16_eq_iff.1 ?_ i hi
  rw [load16_store16, Nat.mod_eq_of_lt (load16_lt m' a)]

theorem load32_store32 (m : Bytes) (a v : ℕ) : load32 (store32 m a v) a = v % 2 ^ 32 := by
  have hlow : load16 (store32 m a v) a = v % 65536 := by
    rw [← load16_store16 m a v]
    exact load16_congr fun x hx hx' => store16_of_apart _ _ (by omega)
  rw [load32, hlow, store32, load16_store16]
  omega

/-- Reading back a value that fits 32 bits. -/
theorem load32_store32_of_lt (m : Bytes) (a : ℕ) {v : ℕ} (h : v < 2 ^ 32) :
    load32 (store32 m a v) a = v := by
  rw [load32_store32, Nat.mod_eq_of_lt h]

theorem load32_store32_of_apart (m : Bytes) (v : ℕ) {a b : ℕ} (h : b + 4 ≤ a ∨ a + 4 ≤ b) :
    load32 (store32 m a v) b = load32 m b :=
  load32_congr fun _ _ _ => store32_of_apart _ _ (by omega)

theorem load32_store8_of_apart (m : Bytes) (v : UInt8) {a b : ℕ} (h : a < b ∨ b + 4 ≤ a) :
    load32 (store8 m a v) b = load32 m b :=
  load32_congr fun _ _ _ => store8_of_ne _ _ (by omega)

theorem load16_store16_of_apart (m : Bytes) (v : ℕ) {a b : ℕ} (h : b + 2 ≤ a ∨ a + 2 ≤ b) :
    load16 (store16 m a v) b = load16 m b :=
  load16_congr fun _ _ _ => store16_of_apart _ _ (by omega)

theorem fill_of_mem (m : Bytes) (v : UInt8) {a n x : ℕ} (h : a ≤ x ∧ x < a + n) :
    fill m a v n x = v := by
  simp [fill, h]

theorem fill_of_apart (m : Bytes) (v : UInt8) {a n x : ℕ} (h : x < a ∨ a + n ≤ x) :
    fill m a v n x = m x := by
  have hno : ¬ (a ≤ x ∧ x < a + n) := by omega
  simp only [fill, hno, if_false]

theorem copy_of_mem (m src : Bytes) {a b n x : ℕ} (h : a ≤ x ∧ x < a + n) :
    copy m a src b n x = src (b + (x - a)) := by
  simp only [copy, h, and_self, if_true]

theorem copy_of_apart (m src : Bytes) (b : ℕ) {a n x : ℕ} (h : x < a ∨ a + n ≤ x) :
    copy m a src b n x = m x := by
  have hno : ¬ (a ≤ x ∧ x < a + n) := by omega
  simp only [copy, hno, if_false]

end Bytes

end Yotos
