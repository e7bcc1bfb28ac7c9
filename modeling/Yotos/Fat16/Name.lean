import Yotos.Library.Bytes
import Mathlib.Data.List.TakeWhile

/-!
# File names

The conversions between C strings and the space-padded 8.3 names of directory
entries. A C string is the list of its bytes before the terminating zero.
-/

namespace Yotos

namespace Fat16

/-- `c -= 32` for the lower-case letters. -/
def toUpper (c : UInt8) : UInt8 := if 0x61 ≤ c ∧ c ≤ 0x7A then c - 32 else c

/-- `strcasecmp` of `klibc/string.c`. -/
def strcasecmp : List UInt8 → List UInt8 → ℤ
  | x :: xs, y :: ys =>
      if toUpper x ≠ toUpper y then (toUpper x).toNat - (toUpper y).toNat
      else strcasecmp xs ys
  | xs, ys => (xs.headD 0).toNat - (ys.headD 0).toNat

/-- The string in a `char` array. -/
def cString (xs : List UInt8) : List UInt8 := xs.takeWhile (· ≠ 0)

/-- An array without its trailing spaces. -/
def trimEnd (xs : List UInt8) : List UInt8 := (xs.reverse.dropWhile (· = 0x20)).reverse

/-- `format_83` of the entry `e`: the string that it leaves in `dst`. -/
def format83 (e : Bytes) : List UInt8 :=
  let name := trimEnd ((List.range 8).map e)
  let ext := trimEnd ((List.range 3).map fun k => e (8 + k))
  cString (if e 8 ≠ 0x20 then name ++ 0x2E :: ext else name)

/-- `format_name_83`: the name and the extension field. -/
def formatName83 (name : List UInt8) : Option (Bytes × Bytes) :=
  let base := name.takeWhile (· ≠ 0x2E)
  let ext := (name.dropWhile (· ≠ 0x2E)).drop 1
  if base.length = 0 ∨ 8 < base.length then none
  else if 3 < ext.length then none
  else some (fun i => (base.map toUpper).getD i 0x20, fun i => (ext.map toUpper).getD i 0x20)

/-- `name_match`. -/
def nameMatch (e : Bytes) (name : List UInt8) : Bool := strcasecmp (format83 e) name = 0

theorem toUpper_toNat (c : UInt8) : (toUpper c).toNat =
    if 0x61 ≤ c.toNat ∧ c.toNat ≤ 0x7A then c.toNat - 32 else c.toNat := by
  have h₁ : (0x61 ≤ c) ↔ 0x61 ≤ c.toNat := UInt8.le_iff_toNat_le
  have h₂ : (c ≤ 0x7A) ↔ c.toNat ≤ 0x7A := UInt8.le_iff_toNat_le
  by_cases hc : 0x61 ≤ c ∧ c ≤ 0x7A
  · have hlow := h₁.1 hc.1
    have h32 : (32 : UInt8) ≤ c := UInt8.le_iff_toNat_le.2 (by
      show 32 ≤ c.toNat
      omega)
    rw [toUpper, if_pos hc, if_pos ⟨hlow, h₂.1 hc.2⟩, UInt8.toNat_sub_of_le _ _ h32]
    rfl
  · rw [toUpper, if_neg hc, if_neg fun h => hc ⟨h₁.2 h.1, h₂.2 h.2⟩]

theorem toUpper_eq_of_lt {c v : UInt8} (hv : v.toNat < 0x41) (h : toUpper c = v) : c = v := by
  have hnat := congrArg UInt8.toNat h
  rw [toUpper_toNat] at hnat
  refine UInt8.toNat_inj.1 ?_
  split_ifs at hnat <;> omega

theorem toUpper_eq_zero {c : UInt8} : toUpper c = 0 ↔ c = 0 := by
  refine ⟨toUpper_eq_of_lt (by decide), ?_⟩
  rintro rfl
  rfl

/-- Two strings compare equal when they agree up to case. -/
theorem strcasecmp_eq_zero {xs ys : List UInt8} (hx : 0 ∉ xs) (hy : 0 ∉ ys) :
    strcasecmp xs ys = 0 ↔ xs.map toUpper = ys.map toUpper := by
  have hpos : ∀ {c : UInt8} {cs : List UInt8}, 0 ∉ c :: cs → (c.toNat : ℤ) ≠ 0 := by
    intro c cs hc hzero
    have hnat : c.toNat = 0 := by omega
    exact hc (by simp [← UInt8.toNat_inj, hnat])
  induction xs generalizing ys with
  | nil =>
      cases ys with
      | nil => simp [strcasecmp]
      | cons y ys => simpa [strcasecmp] using hpos hy
  | cons x xs ih =>
      cases ys with
      | nil => simpa [strcasecmp] using hpos hx
      | cons y ys =>
          rw [strcasecmp, List.map_cons, List.map_cons, List.cons.injEq]
          by_cases hxy : toUpper x = toUpper y
          · have hx' : 0 ∉ xs := fun h => hx (List.mem_cons_of_mem _ h)
            have hy' : 0 ∉ ys := fun h => hy (List.mem_cons_of_mem _ h)
            rw [if_neg (not_not.2 hxy)]
            exact (ih hx' hy').trans ⟨fun h => ⟨hxy, h⟩, fun h => h.2⟩
          · rw [if_pos hxy]
            refine iff_of_false (fun hzero => hxy ?_) fun h => hxy h.1
            exact UInt8.toNat_inj.1 (by omega)

theorem zero_not_mem_format83 (e : Bytes) : 0 ∉ format83 e := by
  intro hmem
  have hne := List.mem_takeWhile_imp hmem
  simp at hne

theorem trimEnd_length_le (xs : List UInt8) : (trimEnd xs).length ≤ xs.length := by
  have hle := (List.dropWhile_sublist (· = (0x20 : UInt8)) (l := xs.reverse)).length_le
  rw [List.length_reverse] at hle
  rwa [trimEnd, List.length_reverse]

/-- The string of an entry fits its 13 bytes. -/
theorem format83_length_le (e : Bytes) : (format83 e).length ≤ 12 := by
  have hname := trimEnd_length_le ((List.range 8).map e)
  have hext := trimEnd_length_le ((List.range 3).map fun k => e (8 + k))
  rw [List.length_map, List.length_range] at hname hext
  refine (List.takeWhile_sublist _).length_le.trans ?_
  split_ifs
  · rw [List.length_append, List.length_cons]
    omega
  · omega

theorem nameMatch_iff {e : Bytes} {name : List UInt8} (hname : 0 ∉ name) :
    nameMatch e name = true ↔ (format83 e).map toUpper = name.map toUpper := by
  rw [nameMatch, decide_eq_true_iff, strcasecmp_eq_zero (zero_not_mem_format83 e) hname]

/-- The first character of a name that is accepted is the name's, in upper case, and
is not the dot. -/
theorem formatName83_first {name : List UInt8} {name83 ext83 : Bytes}
    (h : formatName83 name = some (name83, ext83)) :
    ∃ c cs, name = c :: cs ∧ c ≠ 0x2E ∧ name83 0 = toUpper c := by
  unfold formatName83 at h
  dsimp only at h
  split_ifs at h with hlen hext
  obtain ⟨rfl, -⟩ := Prod.mk.inj (Option.some.inj h)
  cases name with
  | nil => exact absurd (Or.inl rfl) hlen
  | cons c cs =>
      by_cases hc : c = 0x2E
      · exact absurd (Or.inl (by simp [hc])) hlen
      · exact ⟨c, cs, rfl, hc, by simp [hc]⟩

theorem formatName83_first_ne_zero {name : List UInt8} {name83 ext83 : Bytes}
    (hname : 0 ∉ name) (h : formatName83 name = some (name83, ext83)) : name83 0 ≠ 0 := by
  obtain ⟨c, cs, rfl, -, hfirst⟩ := formatName83_first h
  intro hzero
  have hc := toUpper_eq_of_lt (v := 0) (by decide) (hfirst.symm.trans hzero)
  exact hname (by simp [hc])

theorem formatName83_first_ne_dot {name : List UInt8} {name83 ext83 : Bytes}
    (h : formatName83 name = some (name83, ext83)) : name83 0 ≠ 0x2E := by
  obtain ⟨c, cs, rfl, hc, hfirst⟩ := formatName83_first h
  exact fun hdot => hc (toUpper_eq_of_lt (by decide) (hfirst.symm.trans hdot))

end Fat16

end Yotos
