import Yotos.Library.Bytes
import Mathlib.Data.List.GetD
import Mathlib.Data.List.Range

/-!
# Lists of bytes in a buffer

`put m a xs` is the memory `m` with the bytes of `xs` from `a` on. What a loop puts into
a buffer piece by piece is the concatenation of the pieces.
-/

namespace Yotos

namespace Bytes

/-- The bytes of a list, from `a` on. -/
def put (m : Bytes) (a : ℕ) (xs : List UInt8) : Bytes :=
  fun x => if a ≤ x then xs.getD (x - a) (m x) else m x

/-- `n` bytes from `a` on. -/
def bytesAt (m : Bytes) (a n : ℕ) : List UInt8 := (List.range n).map fun i => m (a + i)

variable {m : Bytes} {a n x : ℕ} {xs ys : List UInt8}

@[simp] theorem length_bytesAt (m : Bytes) (a n : ℕ) : (bytesAt m a n).length = n := by
  simp [bytesAt]

theorem getElem?_bytesAt (hx : x < n) : (bytesAt m a n)[x]? = some (m (a + x)) := by
  simp [bytesAt, hx]

@[simp] theorem put_nil (m : Bytes) (a : ℕ) : put m a [] = m := by
  funext x
  simp [put]

theorem put_of_lt (hx : x < a) : put m a xs x = m x := by
  simp [put, hx]

theorem put_add : put m a xs (a + x) = xs.getD x (m (a + x)) := by
  simp [put]

/-- Nothing is written beyond the list. -/
theorem put_of_length_le (hx : a + xs.length ≤ x) : put m a xs x = m x := by
  obtain ⟨y, rfl⟩ := Nat.exists_eq_add_of_le (show a ≤ x by omega)
  rw [put_add, List.getD_eq_default _ _ (by omega)]

theorem put_append : put m a (xs ++ ys) = put (put m a xs) (a + xs.length) ys := by
  funext x
  rcases Nat.lt_or_ge x a with hlt | hge
  · rw [put_of_lt hlt, put_of_lt (by omega), put_of_lt hlt]
  obtain ⟨y, rfl⟩ := Nat.exists_eq_add_of_le hge
  rw [put_add]
  rcases Nat.lt_or_ge y xs.length with hy | hy
  · rw [List.getD_append _ _ _ _ hy, put_of_lt (by omega), put_add]
  · obtain ⟨z, rfl⟩ := Nat.exists_eq_add_of_le hy
    rw [List.getD_append_right _ _ _ _ hy, ← Nat.add_assoc, put_add,
      put_of_length_le (by omega), Nat.add_sub_cancel_left]

theorem copy_eq_put (m : Bytes) (a : ℕ) (src : Bytes) (o n : ℕ) :
    copy m a src o n = put m a (bytesAt src o n) := by
  funext x
  by_cases hx : a ≤ x ∧ x < a + n
  · obtain ⟨y, rfl⟩ := Nat.exists_eq_add_of_le hx.1
    rw [copy_of_mem _ _ hx, put_add, List.getD_eq_getElem?_getD, getElem?_bytesAt (by omega),
      Nat.add_sub_cancel_left]
    rfl
  · rw [copy_of_apart _ _ _ (by omega)]
    rcases Nat.lt_or_ge x a with hlt | hge
    · rw [put_of_lt hlt]
    · rw [put_of_length_le (by simp; omega)]

/-- The bytes read back. -/
theorem bytesAt_put (m : Bytes) (a : ℕ) (xs : List UInt8) :
    bytesAt (put m a xs) a xs.length = xs := by
  apply List.ext_getElem?
  intro i
  rcases Nat.lt_or_ge i xs.length with hlt | hge
  · rw [getElem?_bytesAt hlt, put_add, List.getD_eq_getElem _ _ hlt, List.getElem?_eq_getElem hlt]
  · rw [List.getElem?_eq_none (by simpa using hge), List.getElem?_eq_none hge]

theorem bytesAt_take {k : ℕ} (hk : k ≤ n) : bytesAt m a k = (bytesAt m a n).take k := by
  rw [bytesAt, bytesAt, ← List.map_take, List.take_range, Nat.min_eq_left hk]

theorem bytesAt_drop (m : Bytes) (a k n : ℕ) :
    bytesAt m (a + k) (n - k) = (bytesAt m a n).drop k := by
  apply List.ext_getElem?
  intro i
  rw [List.getElem?_drop]
  rcases Nat.lt_or_ge i (n - k) with hlt | hge
  · rw [getElem?_bytesAt hlt, getElem?_bytesAt (by omega), Nat.add_assoc]
  · rw [List.getElem?_eq_none (by simpa using hge), List.getElem?_eq_none (by simp; omega)]

theorem bytesAt_append (m : Bytes) (a : ℕ) {k n : ℕ} (hk : k ≤ n) :
    bytesAt m a n = bytesAt m a k ++ bytesAt m (a + k) (n - k) := by
  rw [bytesAt_drop, bytesAt_take hk, List.take_append_drop]

theorem bytesAt_succ (m : Bytes) (a n : ℕ) : bytesAt m a (n + 1) = bytesAt m a n ++ [m (a + n)] := by
  rw [bytesAt, List.range_succ, List.map_append]
  rfl

end Bytes

end Yotos
