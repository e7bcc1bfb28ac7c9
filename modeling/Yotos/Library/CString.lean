import Yotos.Library.Buffer
import Mathlib.Data.List.TakeWhile

/-!
# Zero-terminated strings

`IsString m p s` says that the string at address `p` of the memory `m` is `s`. A memory has
one string at an address, the string at a later address is an end of the first, and a zero
cuts a string in two.
-/

namespace Yotos

namespace Bytes

/-- The bytes of `s` and a zero are at `p`. -/
def IsString (m : Bytes) : (p : ℕ) → List UInt8 → Prop
  | p, [] => m p = 0
  | p, c :: s => m p = c ∧ c ≠ 0 ∧ IsString m (p + 1) s

variable {m m' : Bytes} {p n x : ℕ} {s t : List UInt8}

theorem IsString.congr (h : IsString m p s) (hm : ∀ x, p ≤ x → x ≤ p + s.length → m' x = m x) :
    IsString m' p s := by
  induction s generalizing p with
  | nil => exact (hm p le_rfl (Nat.le_add_right p _)).trans h
  | cons c s ih =>
      refine ⟨(hm p le_rfl (Nat.le_add_right p _)).trans h.1, h.2.1, ih h.2.2 fun x hx hx' => ?_⟩
      refine hm x (by omega) ?_
      rw [List.length_cons]
      omega

theorem isString_append : IsString m p (s ++ t) ↔
    (∀ i c, s[i]? = some c → m (p + i) = c ∧ c ≠ 0) ∧ IsString m (p + s.length) t := by
  induction s generalizing p with
  | nil => simp
  | cons c s ih =>
      have hlen : p + 1 + s.length = p + (c :: s).length := by
        rw [List.length_cons]
        omega
      rw [List.cons_append, IsString, ih, hlen]
      constructor
      · rintro ⟨hc, hne, hs, ht⟩
        refine ⟨fun i x hi => ?_, ht⟩
        cases i with
        | zero =>
            obtain rfl := Option.some.inj hi
            exact ⟨hc, hne⟩
        | succ i =>
            rw [show p + (i + 1) = p + 1 + i by omega]
            exact hs i x hi
      · rintro ⟨hs, ht⟩
        refine ⟨(hs 0 c rfl).1, (hs 0 c rfl).2, fun i x hi => ?_, ht⟩
        rw [show p + 1 + i = p + (i + 1) by omega]
        exact hs (i + 1) x hi

theorem IsString.drop (h : IsString m p (s ++ t)) : IsString m (p + s.length) t :=
  (isString_append.1 h).2

/-- A zero at a place of a string cuts it off there, and the rest stays. -/
theorem IsString.cut {c : UInt8} (h : IsString m p (s ++ c :: t)) :
    IsString (store8 m (p + s.length) 0) p s ∧
      IsString (store8 m (p + s.length) 0) (p + s.length + 1) t := by
  obtain ⟨hs, -, -, ht⟩ := isString_append.1 h
  refine ⟨?_, ht.congr fun x hx _ => store8_of_ne _ _ (by omega)⟩
  have hcut : IsString (store8 m (p + s.length) 0) p (s ++ []) := by
    refine isString_append.2 ⟨fun i x hi => ?_, store8_self _ _ _⟩
    have hlt := (List.getElem?_eq_some_iff.1 hi).1
    rw [store8_of_ne _ _ (by omega)]
    exact hs i x hi
  rwa [List.append_nil] at hcut

/-- A string that is built byte by byte, and then ended. -/
theorem isString_of_bytesAt (hs : bytesAt m p s.length = s) (hzero : 0 ∉ s) :
    IsString (store8 m (p + s.length) 0) p s := by
  have hend : IsString (store8 m (p + s.length) 0) p (s ++ []) := by
    refine isString_append.2 ⟨fun i c hi => ?_, store8_self _ _ _⟩
    have hlt := (List.getElem?_eq_some_iff.1 hi).1
    rw [store8_of_ne _ _ (by omega)]
    have hbyte := getElem?_bytesAt (m := m) (a := p) hlt
    rw [hs, hi] at hbyte
    exact ⟨(Option.some.inj hbyte).symm, fun hc => hzero (hc ▸ List.mem_of_getElem? hi)⟩
  rwa [List.append_nil] at hend

theorem bytesAt_cons (m : Bytes) (p k : ℕ) : bytesAt m p (k + 1) = m p :: bytesAt m (p + 1) k := by
  rw [bytesAt_append m p (Nat.le_add_left 1 k), Nat.add_sub_cancel]
  rfl

/-- The string of an array that has room for it. -/
theorem IsString.takeWhile_bytesAt (h : IsString m p s) (hn : s.length < n) :
    (bytesAt m p n).takeWhile (· ≠ 0) = s := by
  obtain ⟨k, rfl⟩ : ∃ k, n = k + 1 := ⟨n - 1, by omega⟩
  induction s generalizing p k with
  | nil =>
      rw [bytesAt_cons, show m p = 0 from h]
      rfl
  | cons c s ih =>
      rw [List.length_cons] at hn
      obtain ⟨k, rfl⟩ : ∃ j, k = j + 1 := ⟨k - 1, by omega⟩
      rw [bytesAt_cons, h.1, List.takeWhile_cons_of_pos (by simpa using h.2.1),
        ih h.2.2 k (by omega)]

end Bytes

end Yotos
