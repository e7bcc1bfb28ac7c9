import Yotos.Library.Bytes
import Mathlib.Data.List.Basic

/-!
# A stack in memory

32-bit words pushed one after the other below an address. The last one is the first from
the new top on, and nothing else in memory changes.
-/

namespace Yotos

namespace Bytes

/-- The words `ws`, pushed from address `p` downwards. -/
def pushWords (m : Bytes) (p : ℕ) : List UInt32 → Bytes
  | [] => m
  | w :: ws => pushWords (store32 m (p - 4) w.toNat) (p - 4) ws

/-- The word at an address. -/
def wordAt (m : Bytes) (a : ℕ) : UInt32 := UInt32.ofNat (load32 m a)

variable {m m' : Bytes} {p a x : ℕ} {w : UInt32} {ws ws' : List UInt32}

theorem wordAt_congr (h : ∀ x, a ≤ x → x < a + 4 → m' x = m x) : wordAt m' a = wordAt m a := by
  rw [wordAt, wordAt, load32_congr h]

@[simp] theorem wordAt_store32 (m : Bytes) (a : ℕ) (w : UInt32) :
    wordAt (store32 m a w.toNat) a = w := by
  rw [wordAt, load32_store32_of_lt m a w.toNat_lt, UInt32.ofNat_toNat]

theorem pushWords_append (m : Bytes) (p : ℕ) (ws ws' : List UInt32) :
    pushWords m p (ws ++ ws') = pushWords (pushWords m p ws) (p - 4 * ws.length) ws' := by
  induction ws generalizing m p with
  | nil => rfl
  | cons w ws ih =>
      rw [List.cons_append, pushWords, pushWords, ih, List.length_cons, Nat.mul_succ, Nat.sub_sub,
        Nat.add_comm 4]

theorem store32_store32_self (m : Bytes) (a v w : ℕ) :
    store32 (store32 m a v) a w = store32 m a w := by
  funext x
  by_cases hx : x < a ∨ a + 4 ≤ x
  · rw [store32_of_apart _ _ hx, store32_of_apart _ _ hx, store32_of_apart _ _ hx]
  · obtain rfl | rfl | rfl | rfl : x = a ∨ x = a + 1 ∨ x = a + 2 ∨ x = a + 3 := by omega
    all_goals simp [store32, store16, store8]

/-- What is below the top is lost with the next push. -/
theorem pushWords_store32 (m : Bytes) (p v : ℕ) (w : UInt32) (ws : List UInt32) :
    pushWords (store32 m (p - 4) v) p (w :: ws) = pushWords m p (w :: ws) := by
  rw [pushWords, pushWords, store32_store32_self]

/-- Memory above the old top and below the new one is kept. -/
theorem pushWords_of_apart (h : 4 * ws.length ≤ p) (hx : x < p - 4 * ws.length ∨ p ≤ x) :
    pushWords m p ws x = m x := by
  induction ws generalizing m p with
  | nil => rfl
  | cons w ws ih =>
      rw [List.length_cons] at h hx
      rw [pushWords, ih (by omega) (by omega), store32_of_apart _ _ (by omega)]

/-- The words from the new top on. -/
theorem wordAt_pushWords (ws : List UInt32) (h : 4 * ws.length ≤ p) {i : ℕ}
    (hi : i < ws.length) :
    some (wordAt (pushWords m p ws) (p - 4 * ws.length + 4 * i)) = ws.reverse[i]? := by
  induction ws generalizing m p i with
  | nil => cases hi
  | cons w ws ih =>
      rw [List.length_cons] at h hi
      rw [List.reverse_cons, pushWords, List.length_cons]
      have htop : p - 4 * (ws.length + 1) = p - 4 - 4 * ws.length := by omega
      rw [htop]
      rcases Nat.lt_or_ge i ws.length with hlt | hge
      · rw [ih (by omega) hlt, List.getElem?_append_left (by rwa [List.length_reverse])]
      · obtain rfl : i = ws.length := by omega
        have hlast : p - 4 - 4 * ws.length + 4 * ws.length = p - 4 := by omega
        rw [List.getElem?_append_right (by rw [List.length_reverse]), List.length_reverse,
          Nat.sub_self, hlast]
        refine congrArg some ((wordAt_congr fun x hx _ => ?_).trans (wordAt_store32 m (p - 4) w))
        exact pushWords_of_apart (by omega) (Or.inr hx)

end Bytes

end Yotos
