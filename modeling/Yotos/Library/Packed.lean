import Mathlib.Logic.Function.Basic
import Mathlib.Order.Nat

/-!
# Packed bit sets

A set of naturals stored `w` bits to a word: `n` is a member when bit `n % w` of
word `n / w` is set. `insert` and `erase` are the usual read-modify-write of one
word, so each of them changes the membership of exactly one number.
-/

namespace Yotos

namespace Packed

variable {w : ℕ}

/-- Membership in a packed set: bit `n % w` of word `n / w`. -/
def member (m : ℕ → BitVec w) (n : ℕ) : Bool :=
  (m (n / w)).getLsbD (n % w)

/-- Set one bit of the packed set, rewriting the word that holds it. -/
def insert (m : ℕ → BitVec w) (n : ℕ) : ℕ → BitVec w :=
  Function.update m (n / w) (m (n / w) ||| 1#w <<< (n % w))

/-- Clear one bit of the packed set, rewriting the word that holds it. -/
def erase (m : ℕ → BitVec w) (n : ℕ) : ℕ → BitVec w :=
  Function.update m (n / w) (m (n / w) &&& ~~~(1#w <<< (n % w)))

theorem getLsbD_one_shiftLeft (j k : ℕ) (hk : k < w) :
    (1#w <<< j).getLsbD k = decide (k = j) := by
  rw [BitVec.getLsbD_shiftLeft]
  rcases lt_trichotomy k j with h | h | h
  · simp [h, h.ne]
  · subst h
    simp [hk, Nat.zero_lt_of_lt hk]
  · have hne : k - j ≠ 0 := by omega
    simp [BitVec.getLsbD_one, hne, h.ne', h.not_gt]

theorem eq_of_div_mod {a b : ℕ} (hd : a / w = b / w)
    (hm : a % w = b % w) : a = b := by
  rw [← Nat.div_add_mod a w, ← Nat.div_add_mod b w, hd, hm]

/-- Inserting `n` changes no other membership. -/
theorem member_insert (hw : 0 < w) (m : ℕ → BitVec w) (n k : ℕ) :
    member (insert m n) k = (decide (k = n) || member m k) := by
  unfold member insert
  by_cases hd : k / w = n / w
  · rw [hd, Function.update_self, BitVec.getLsbD_or,
      getLsbD_one_shiftLeft _ _ (Nat.mod_lt _ hw)]
    have hiff : (k % w = n % w) ↔ k = n :=
      ⟨eq_of_div_mod hd, fun h => by rw [h]⟩
    rw [Bool.or_comm]
    simp only [hiff]
  · have hne : k ≠ n := fun h => hd (by rw [h])
    rw [Function.update_of_ne hd]
    simp [hne]

/-- Erasing `n` changes no other membership. -/
theorem member_erase (hw : 0 < w) (m : ℕ → BitVec w) (n k : ℕ) :
    member (erase m n) k = (!decide (k = n) && member m k) := by
  unfold member erase
  by_cases hd : k / w = n / w
  · rw [hd, Function.update_self, BitVec.getLsbD_and, BitVec.getLsbD_not,
      getLsbD_one_shiftLeft _ _ (Nat.mod_lt _ hw)]
    have hiff : (k % w = n % w) ↔ k = n :=
      ⟨eq_of_div_mod hd, fun h => by rw [h]⟩
    simp only [hiff, Nat.mod_lt _ hw, decide_true, Bool.true_and]
    rw [Bool.and_comm]
  · have hne : k ≠ n := fun h => hd (by rw [h])
    rw [Function.update_of_ne hd]
    simp [hne]

/-- Testing one bit with a shifted mask reads the membership. -/
theorem and_mask_eq_zero_iff (x : BitVec w) (j : ℕ) (hj : j < w) :
    x &&& 1#w <<< j = 0#w ↔ x.getLsbD j = false := by
  constructor
  · intro h
    have hbit := congrArg (fun y => y.getLsbD j) h
    simpa [BitVec.getLsbD_and, getLsbD_one_shiftLeft _ _ hj] using hbit
  · intro h
    apply BitVec.eq_of_getLsbD_eq
    intro i hi
    rw [BitVec.getLsbD_and, getLsbD_one_shiftLeft _ _ hi]
    by_cases hij : i = j
    · simp [hij, h]
    · simp [hij]

end Packed

end Yotos
