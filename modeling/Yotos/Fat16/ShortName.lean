import Yotos.Library.Padded
import Yotos.Fat16.Name

/-!
# The two name conversions

`format_name_83` cuts a name at its first dot, folds it and pads the two parts;
`format_83` trims the two fields and writes a dot only before an extension that does not
start with a space. The names that come back are those without a space where the two
differ, and every pair of fields that such a name can fill comes back.
-/

namespace Yotos

namespace Fat16

open Library

/-- The name cut at its first dot. -/
def SplitAtDot (name base : List UInt8) (ext : Option (List UInt8)) : Prop :=
  0x2E ∉ base ∧ name = base ++ ext.elim [] (0x2E :: ·)

/-- 1 to 8 characters before the first dot, and at most 3 after it. -/
def FitsShortName (name : List UInt8) : Prop :=
  ∃ base ext, SplitAtDot name base ext ∧ 1 ≤ base.length ∧ base.length ≤ 8 ∧
    (ext.getD []).length ≤ 3

/-- The part before the dot does not end in a space, and the extension of a name with a
dot is not empty and neither starts nor ends with a space. -/
def Unpadded (name : List UInt8) : Prop :=
  ∀ base ext, SplitAtDot name base ext → base.getLast? ≠ some 0x20 ∧
    ∀ x ∈ ext, x ≠ [] ∧ x.head? ≠ some 0x20 ∧ x.getLast? ≠ some 0x20

/-- The fields of an entry. -/
structure HasFields (e name83 ext83 : Bytes) : Prop where
  name : ∀ i < 8, e i = name83 i
  ext : ∀ i < 3, e (8 + i) = ext83 i

/-- Fields of an entry without zeros and lower-case letters, with a name that is not
blank and has no dot, and an extension that is blank or does not start with a space. -/
structure Plain (e : Bytes) : Prop where
  nonzero : ∀ i < 11, e i ≠ 0
  upper : ∀ i < 11, ¬ (0x61 ≤ e i ∧ e i ≤ 0x7A)
  named : ∃ i < 8, e i ≠ 0x20
  dotless : ∀ i < 8, e i ≠ 0x2E
  ext : (∀ i < 3, e (8 + i) = 0x20) ∨ e 8 ≠ 0x20

variable {name base : List UInt8} {ext : Option (List UInt8)} {e name83 ext83 : Bytes}

/-! ### The cut -/

theorem exists_splitAtDot (name : List UInt8) : ∃ base ext, SplitAtDot name base ext := by
  induction name with
  | nil => exact ⟨[], none, by simp [SplitAtDot]⟩
  | cons c cs ih =>
      by_cases hc : c = 0x2E
      · exact ⟨[], some cs, by simp [SplitAtDot, hc]⟩
      · obtain ⟨base, ext, hbase, rfl⟩ := ih
        exact ⟨c :: base, ext, by simp [Ne.symm hc, hbase], rfl⟩

/-- `format_name_83` on the two parts of a name. -/
theorem formatName83_of_split (h : SplitAtDot name base ext) :
    formatName83 name =
      if base.length = 0 ∨ 8 < base.length then none
      else if 3 < (ext.getD []).length then none
      else some (fun i => (base.map toUpper).getD i 0x20,
        fun i => ((ext.getD []).map toUpper).getD i 0x20) := by
  obtain ⟨hbase, rfl⟩ := h
  have hall : ∀ c ∈ base, decide (c ≠ 0x2E) = true := by
    intro c hc
    apply decide_eq_true
    rintro rfl
    exact hbase hc
  have htake : (base ++ ext.elim [] (0x2E :: ·)).takeWhile (· ≠ 0x2E) = base := by
    rw [List.takeWhile_append_of_pos hall]
    cases ext <;> simp
  have hdrop : ((base ++ ext.elim [] (0x2E :: ·)).dropWhile (· ≠ 0x2E)).drop 1 =
      ext.getD [] := by
    rw [List.dropWhile_append_of_pos hall]
    cases ext <;> simp
  simp only [formatName83, htake, hdrop]

theorem formatName83_isSome_iff (name : List UInt8) :
    (formatName83 name).isSome = true ↔ FitsShortName name := by
  constructor
  · intro h
    obtain ⟨base, ext, hsplit⟩ := exists_splitAtDot name
    rw [formatName83_of_split hsplit] at h
    split_ifs at h with hlen hext
    · cases h
    · cases h
    · exact ⟨base, ext, hsplit, by omega, by omega, by omega⟩
  · rintro ⟨base, ext, hsplit, hpos, hle, hext⟩
    rw [formatName83_of_split hsplit, if_neg (by omega), if_neg (by omega)]
    rfl

/-! ### Accepted names -/

theorem trimEnd_eq (xs : List UInt8) : trimEnd xs = xs.rdropWhile (· = 0x20) := rfl

theorem getLast?_map_toUpper (xs : List UInt8) :
    (xs.map toUpper).getLast? = some 0x20 ↔ xs.getLast? = some 0x20 := by
  rw [List.getLast?_map, Option.map_eq_some_iff]
  constructor
  · rintro ⟨c, hc, hspace⟩
    rw [hc, toUpper_eq_of_lt (by decide) hspace]
  · intro h
    exact ⟨0x20, h, rfl⟩

theorem trimEnd_map_toUpper_eq_self (xs : List UInt8) :
    trimEnd (xs.map toUpper) = xs.map toUpper ↔ xs.getLast? ≠ some 0x20 := by
  rw [trimEnd_eq, rdropWhile_eq_self_iff_getLast?, Ne, getLast?_map_toUpper]

theorem getD_map_toUpper_eq (xs : List UInt8) :
    (xs.map toUpper).getD 0 0x20 = 0x20 ↔ xs = [] ∨ xs.head? = some 0x20 := by
  cases xs with
  | nil => simp
  | cons c cs =>
      have hc : toUpper c = 0x20 ↔ c = 0x20 :=
        ⟨toUpper_eq_of_lt (by decide), fun h => by rw [h]; rfl⟩
      simpa using hc

/-- Two trimmed parts make up the whole only when neither was trimmed. -/
theorem trimEnd_append_dot_eq_iff (xs ys : List UInt8) :
    trimEnd xs ++ 0x2E :: trimEnd ys = xs ++ 0x2E :: ys ↔ trimEnd xs = xs ∧ trimEnd ys = ys := by
  constructor
  · intro h
    have hx := trimEnd_length_le xs
    have hy := trimEnd_length_le ys
    have hlen := congrArg List.length h
    simp only [List.length_append, List.length_cons] at hlen
    obtain ⟨hxs, hys⟩ := List.append_inj h (by omega)
    exact ⟨hxs, (List.cons.inj hys).2⟩
  · rintro ⟨hx, hy⟩
    rw [hx, hy]

theorem cString_eq_self {xs : List UInt8} (h : 0 ∉ xs) : cString xs = xs := by
  apply List.takeWhile_eq_self_iff.2
  intro c hc
  apply decide_eq_true
  rintro rfl
  exact h hc

/-- The string of an entry that `format_name_83` filled. -/
theorem format83_of_split (hname : 0 ∉ name) (hsplit : SplitAtDot name base ext)
    (hformat : formatName83 name = some (name83, ext83)) (he : HasFields e name83 ext83) :
    format83 e =
      if ((ext.getD []).map toUpper).getD 0 0x20 ≠ 0x20 then
        trimEnd (base.map toUpper) ++ 0x2E :: trimEnd ((ext.getD []).map toUpper)
      else trimEnd (base.map toUpper) := by
  rw [formatName83_of_split hsplit] at hformat
  split_ifs at hformat with hlen hext
  obtain ⟨rfl, rfl⟩ := Prod.mk.inj (Option.some.inj hformat)
  have hbase : trimEnd ((List.range 8).map e) = trimEnd (base.map toUpper) := by
    have hfield : (List.range 8).map e = (base.map toUpper).rightpad 8 0x20 := by
      rw [← map_range_getD (by simp; omega)]
      exact List.map_congr_left fun i hi => he.name i (List.mem_range.1 hi)
    rw [hfield, trimEnd_eq, rdropWhile_rightpad, trimEnd_eq]
  have hexts : trimEnd ((List.range 3).map fun k => e (8 + k)) =
      trimEnd ((ext.getD []).map toUpper) := by
    have hfield : ((List.range 3).map fun k => e (8 + k)) =
        ((ext.getD []).map toUpper).rightpad 3 0x20 := by
      rw [← map_range_getD (by simp; omega)]
      exact List.map_congr_left fun i hi => he.ext i (List.mem_range.1 hi)
    rw [hfield, trimEnd_eq, rdropWhile_rightpad, trimEnd_eq]
  have hfirst : e 8 = ((ext.getD []).map toUpper).getD 0 0x20 := he.ext 0 (by decide)
  -- no character of the name is the end of the string
  have hzero : ∀ xs : List UInt8, xs ⊆ name → 0 ∉ trimEnd (xs.map toUpper) := by
    intro xs hsub hmem
    obtain ⟨c, hc, hczero⟩ := List.mem_map.1 ((List.rdropWhile_prefix _ _).subset hmem)
    rw [toUpper_eq_zero.1 hczero] at hc
    exact hname (hsub hc)
  have hbaseZero := hzero base (by rw [hsplit.2]; simp)
  have hextZero : 0 ∉ trimEnd ((ext.getD []).map toUpper) := by
    apply hzero
    rw [hsplit.2]
    cases ext <;> simp
  rw [format83, hbase, hexts, hfirst]
  split_ifs
  · exact cString_eq_self (by simp [hbaseZero, hextZero])
  · exact cString_eq_self hbaseZero

/-- The name comes back, in upper case, when nothing is padded away. -/
theorem format83_eq_iff (hname : 0 ∉ name)
    (hformat : formatName83 name = some (name83, ext83)) (he : HasFields e name83 ext83) :
    format83 e = name.map toUpper ↔ Unpadded name := by
  have hsplitIff : ∀ {base ext}, SplitAtDot name base ext →
      (format83 e = name.map toUpper ↔ base.getLast? ≠ some 0x20 ∧
        ∀ x ∈ ext, x ≠ [] ∧ x.head? ≠ some 0x20 ∧ x.getLast? ≠ some 0x20) := by
    intro base ext hsplit
    rw [format83_of_split hname hsplit hformat he, hsplit.2]
    cases ext with
    | none => simp [trimEnd_map_toUpper_eq_self]
    | some xs =>
        have hmap : (base ++ (some xs).elim [] (0x2E :: ·)).map toUpper =
            base.map toUpper ++ 0x2E :: xs.map toUpper := by
          simp [toUpper]
        rw [hmap, Option.getD_some]
        by_cases hfirst : (xs.map toUpper).getD 0 0x20 = 0x20
        · rw [if_neg (not_not.2 hfirst)]
          apply iff_of_false
          · intro h
            have hle := trimEnd_length_le (base.map toUpper)
            have hlen := congrArg List.length h
            rw [List.length_append, List.length_cons] at hlen
            omega
          · rintro ⟨-, h⟩
            obtain ⟨hne, hhead, -⟩ := h xs rfl
            exact ((getD_map_toUpper_eq xs).1 hfirst).elim hne hhead
        · rw [if_pos hfirst, trimEnd_append_dot_eq_iff, trimEnd_map_toUpper_eq_self,
            trimEnd_map_toUpper_eq_self]
          rw [getD_map_toUpper_eq, not_or] at hfirst
          simp [hfirst]
  constructor
  · intro h base ext hsplit
    exact (hsplitIff hsplit).1 h
  · intro h
    obtain ⟨base, ext, hsplit⟩ := exists_splitAtDot name
    exact (hsplitIff hsplit).2 (h base ext hsplit)

/-! ### Fields of an entry -/

/-- The characters of plain fields stay as they are. -/
theorem Plain.toUpper_eq (h : Plain e) {i : ℕ} (hi : i < 11) : toUpper (e i) = e i :=
  if_neg (h.upper i hi)

/-- What a field holds after it is trimmed lies in the field. -/
theorem exists_of_mem_trimEnd {f : Bytes} {n : ℕ} {c : UInt8}
    (h : c ∈ trimEnd ((List.range n).map f)) : ∃ i < n, f i = c := by
  obtain ⟨i, hi, hc⟩ := List.mem_map.1 ((List.rdropWhile_prefix _ _).subset h)
  exact ⟨i, List.mem_range.1 hi, hc⟩

theorem getD_trimEnd_range (f : Bytes) {n i : ℕ} (hi : i < n) :
    (trimEnd ((List.range n).map f)).getD i 0x20 = f i := by
  rw [trimEnd_eq, getD_rdropWhile]
  simp [hi]

theorem map_toUpper_trimEnd {f : Bytes} {n : ℕ} (h : ∀ i < n, toUpper (f i) = f i) :
    (trimEnd ((List.range n).map f)).map toUpper = trimEnd ((List.range n).map f) := by
  have hid : ∀ c ∈ trimEnd ((List.range n).map f), toUpper c = id c := by
    intro c hc
    obtain ⟨i, hi, rfl⟩ := exists_of_mem_trimEnd hc
    exact h i hi
  rw [List.map_congr_left hid, List.map_id]

/-- The trimmed fields are the two parts of the entry's string. -/
theorem Plain.split (h : Plain e) :
    ∃ ext, SplitAtDot (format83 e) (trimEnd ((List.range 8).map e)) ext ∧
      ext.getD [] = trimEnd ((List.range 3).map fun k => e (8 + k)) := by
  have hdot : 0x2E ∉ trimEnd ((List.range 8).map e) := by
    intro hmem
    obtain ⟨i, hi, hc⟩ := exists_of_mem_trimEnd hmem
    exact h.dotless i hi hc
  have hbase : 0 ∉ trimEnd ((List.range 8).map e) := by
    intro hmem
    obtain ⟨i, hi, hc⟩ := exists_of_mem_trimEnd hmem
    exact h.nonzero i (by omega) hc
  have hext : 0 ∉ trimEnd ((List.range 3).map fun k => e (8 + k)) := by
    intro hmem
    obtain ⟨i, hi, hc⟩ := exists_of_mem_trimEnd hmem
    exact h.nonzero (8 + i) (by omega) hc
  by_cases hspace : e 8 = 0x20
  · have hblank := h.ext.resolve_right (not_not.2 hspace)
    have hnil : trimEnd ((List.range 3).map fun k => e (8 + k)) = [] := by
      rw [trimEnd_eq, List.rdropWhile_eq_nil_iff]
      simpa using hblank
    refine ⟨none, ⟨hdot, ?_⟩, by rw [hnil, Option.getD_none]⟩
    rw [format83, if_neg (not_not.2 hspace), cString_eq_self hbase]
    simp
  · refine ⟨some (trimEnd ((List.range 3).map fun k => e (8 + k))), ⟨hdot, ?_⟩, rfl⟩
    rw [format83, if_pos hspace, cString_eq_self (by simp [hbase, hext])]
    rfl

/-- Plain fields come back. -/
theorem Plain.exists_formatName83 (h : Plain e) :
    ∃ name83 ext83, formatName83 (format83 e) = some (name83, ext83) ∧
      HasFields e name83 ext83 := by
  obtain ⟨ext, hsplit, hext⟩ := h.split
  have hbase := trimEnd_length_le ((List.range 8).map e)
  have hlen := trimEnd_length_le ((List.range 3).map fun k => e (8 + k))
  rw [List.length_map, List.length_range] at hbase hlen
  have hne : (trimEnd ((List.range 8).map e)).length ≠ 0 := by
    rw [Ne, List.length_eq_zero_iff, trimEnd_eq, List.rdropWhile_eq_nil_iff]
    obtain ⟨i, hi, hspace⟩ := h.named
    intro hall
    exact hspace (by simpa using hall (e i) (List.mem_map_of_mem (List.mem_range.2 hi)))
  rw [formatName83_of_split hsplit, if_neg (by omega), hext, if_neg (by omega)]
  refine ⟨_, _, rfl, ?_, ?_⟩
  · intro i hi
    rw [map_toUpper_trimEnd fun j hj => h.toUpper_eq (by omega), getD_trimEnd_range e hi]
  · intro i hi
    rw [map_toUpper_trimEnd fun j hj => h.toUpper_eq (by omega),
      getD_trimEnd_range (fun k => e (8 + k)) hi]

/-- Which names are accepted, which of these come back, and which fields come back. -/
theorem format83_formatName83 (name : List UInt8) (hname : 0 ∉ name) (e : Bytes) :
    ((formatName83 name).isSome = true ↔ FitsShortName name) ∧
      (∀ name83 ext83, formatName83 name = some (name83, ext83) → HasFields e name83 ext83 →
        (format83 e = name.map toUpper ↔ Unpadded name)) ∧
      (Plain e → ∃ name83 ext83, formatName83 (format83 e) = some (name83, ext83) ∧
        HasFields e name83 ext83) :=
  ⟨formatName83_isSome_iff name, fun _ _ hformat he => format83_eq_iff hname hformat he,
    Plain.exists_formatName83⟩

/-- The fields of `A.C`. -/
def shortEntry : Bytes := fun i => if i = 0 then 0x41 else if i = 8 then 0x43 else 0x20

/-- `a.c` is stored as `A.C` and read back as that. -/
theorem format83_formatName83_short :
    FitsShortName [0x61, 0x2E, 0x63] ∧ Unpadded [0x61, 0x2E, 0x63] ∧
      ∃ name83 ext83, formatName83 (format83 shortEntry) = some (name83, ext83) ∧
        HasFields shortEntry name83 ext83 := by
  obtain ⟨hfits, hback, hfields⟩ :=
    format83_formatName83 [0x61, 0x2E, 0x63] (by decide) shortEntry
  exact ⟨hfits.1 (by decide), (hback _ _ rfl ⟨by decide, by decide⟩).1 (by decide),
    hfields ⟨by decide, by decide, ⟨0, by decide⟩, by decide, Or.inr (by decide)⟩⟩

end Fat16

end Yotos
