import Yotos.Vmm.Basic
import Mathlib.Data.Nat.Bitwise
import Mathlib.Tactic.SplitIfs

/-!
# Frames, words and the walk of the MMU

An entry is a frame number in its top 20 bits and flags in the low 12. Physical memory
is read as frames of 1024 words, and a walk of the MMU becomes `lookup`, the entry of
a page number. Through the recursive window the words of the directory and of the
tables are plain words of their frames.
-/

namespace Yotos

namespace Vmm

open Bytes

/-! ### Entries -/

/-- The frame number in an entry. -/
def frameOf (entry : ℕ) : ℕ := entry / 4096

/-- The entry is present. -/
def Present (entry : ℕ) : Prop := entryHasFlag entry pagePresent = true

instance (entry : ℕ) : Decidable (Present entry) :=
  inferInstanceAs (Decidable (_ = true))

theorem entryHasFlag_two_pow (entry k : ℕ) : entryHasFlag entry (2 ^ k) = entry.testBit k := by
  rw [entryHasFlag, Nat.and_two_pow]
  cases entry.testBit k <;> simp

theorem present_iff (entry : ℕ) : Present entry ↔ entry.testBit 0 = true := by
  rw [Present, show pagePresent = 2 ^ 0 from rfl, entryHasFlag_two_pow]

theorem entryHasFlag_user (entry : ℕ) : entryHasFlag entry pageUser = entry.testBit 2 := by
  rw [show pageUser = 2 ^ 2 from rfl, entryHasFlag_two_pow]

theorem entryGetFrame_eq {entry : ℕ} (h : entry < 2 ^ 32) :
    entryGetFrame entry = frameOf entry * 4096 := by
  apply Nat.eq_of_testBit_eq
  intro i
  rw [entryGetFrame, frameOf, Nat.testBit_and, show (0xFFFFF000 : ℕ) = (2 ^ 20 - 1) * 2 ^ 12 from rfl,
    show (4096 : ℕ) = 2 ^ 12 from rfl, Nat.testBit_mul_two_pow, Nat.testBit_mul_two_pow,
    Nat.testBit_two_pow_sub_one, Nat.testBit_div_two_pow]
  by_cases hi : 12 ≤ i
  · rw [show i - 12 + 12 = i by omega]
    by_cases hlt : i < 32
    · simp [hi, show i - 12 < 20 by omega]
    · have hclear : entry.testBit i = false :=
        Nat.testBit_lt_two_pow (h.trans_le (Nat.pow_le_pow_right (by decide) (by omega)))
      simp [hclear]
  · simp [hi]

/-- Low bits under a frame address. -/
theorem frame_or (f : ℕ) {x : ℕ} (hx : x < 4096) : f * 4096 ||| x = f * 4096 + x := by
  have h := Nat.two_pow_add_eq_or_of_lt (i := 12) hx f
  rw [Nat.mul_comm f]
  exact h.symm

theorem frameOf_add (f : ℕ) {x : ℕ} (hx : x < 4096) : frameOf (f * 4096 + x) = f := by
  unfold frameOf
  omega

theorem frame_add_lt {f x : ℕ} (hf : f < 2 ^ 20) (hx : x < 4096) : f * 4096 + x < 2 ^ 32 := by
  omega

theorem testBit_add (f : ℕ) {x k : ℕ} (hx : x < 4096) (hk : k < 12) :
    (f * 4096 + x).testBit k = x.testBit k := by
  rw [Nat.mul_comm f, show (4096 : ℕ) = 2 ^ 12 from rfl, Nat.testBit_two_pow_mul_add _ hx,
    if_pos hk]

theorem or_lt {x y : ℕ} (hx : x < 4096) (hy : y < 4096) : x ||| y < 4096 :=
  Nat.or_lt_two_pow (n := 12) hx hy

theorem pageEntry_eq {f flags : ℕ} (hf : f < 2 ^ 20) (hflags : flags < 4096) :
    pageEntry (f * 4096) flags = f * 4096 + (flags ||| 1) := by
  have hframe : frameOf (f * 4096) = f := Nat.mul_div_cancel f (by decide)
  rw [pageEntry, entryGetFrame_eq (by omega), hframe, Nat.or_assoc, pagePresent,
    frame_or f (or_lt hflags (by decide))]

theorem pageEntry_lt {phys flags : ℕ} (hphys : phys < 2 ^ 32) (hflags : flags < 2 ^ 32) :
    pageEntry phys flags < 2 ^ 32 :=
  Nat.or_lt_two_pow (Nat.or_lt_two_pow (Nat.and_le_left.trans_lt hphys) hflags) (by decide)

theorem present_add (f : ℕ) {x : ℕ} (hx : x < 4096) (h : x.testBit 0 = true) :
    Present (f * 4096 + x) := by
  rw [present_iff, testBit_add f hx (by decide), h]

theorem testBit_zero_or_one (x : ℕ) : (x ||| 1).testBit 0 = true := by
  rw [Nat.testBit_or]
  simp

/-- The user bit is the bit of the flags. -/
theorem user_pageEntry {f flags : ℕ} (hf : f < 2 ^ 20) (hflags : flags < 4096) :
    entryHasFlag (pageEntry (f * 4096) flags) pageUser = entryHasFlag flags pageUser := by
  rw [pageEntry_eq hf hflags, entryHasFlag_user, entryHasFlag_user,
    testBit_add f (or_lt hflags (by decide)) (by decide), Nat.testBit_or,
    show Nat.testBit 1 2 = false by decide, Bool.or_false]

/-! ### Addresses -/

theorem pdIndex_eq (v : ℕ) : pdIndex v = v / 4096 / 1024 := by
  rw [pdIndex, Nat.shiftRight_eq_div_pow, Nat.div_div_eq_div_mul]

theorem ptIndex_eq (v : ℕ) : ptIndex v = v / 4096 % 1024 := by
  rw [ptIndex, Nat.shiftRight_eq_div_pow, show (0x3FF : ℕ) = 2 ^ 10 - 1 from rfl,
    Nat.and_two_pow_sub_one_eq_mod]

theorem pageOffset_eq (v : ℕ) : pageOffset v = v % 4096 := by
  rw [pageOffset, show (0xFFF : ℕ) = 2 ^ 12 - 1 from rfl, Nat.and_two_pow_sub_one_eq_mod]

/-! ### Words of frames -/

/-- Word `k` of frame `f`. -/
def word (m : Bytes) (f k : ℕ) : ℕ := load32 m (f * 4096 + 4 * k)

theorem word_lt (m : Bytes) (f k : ℕ) : word m f k < 2 ^ 32 := load32_lt _ _

theorem word_store32 (m : Bytes) {f k g l v : ℕ} (hk : k < 1024) (hl : l < 1024)
    (hv : v < 2 ^ 32) :
    word (store32 m (f * 4096 + 4 * k) v) g l = if g = f ∧ l = k then v else word m g l := by
  by_cases h : g = f ∧ l = k
  · rw [if_pos h, h.1, h.2]
    exact load32_store32_of_lt _ _ hv
  · rw [if_neg h]
    exact load32_store32_of_apart _ _ (by omega)

theorem word_fill (m : Bytes) {f g l : ℕ} (hl : l < 1024) :
    word (fill m (f * 4096) 0 4096) g l = if g = f then 0 else word m g l := by
  by_cases h : g = f
  · rw [if_pos h, h, word, load32, load16, load16]
    rw [fill_of_mem _ _ (by omega), fill_of_mem _ _ (by omega), fill_of_mem _ _ (by omega),
      fill_of_mem _ _ (by omega)]
    rfl
  · rw [if_neg h]
    exact load32_congr fun x _ _ => fill_of_apart _ _ (by omega)

/-- The entry of page `p` in the tables of the directory in frame `d`. -/
def lookup (m : Bytes) (d p : ℕ) : Option ℕ :=
  if Present (word m d (p / 1024)) then
    let pte := word m (frameOf (word m d (p / 1024))) (p % 1024)
    if Present pte then some pte else none
  else none

theorem lookup_eq_some {m : Bytes} {d p e : ℕ} :
    lookup m d p = some e ↔ Present (word m d (p / 1024)) ∧ Present e ∧
      word m (frameOf (word m d (p / 1024))) (p % 1024) = e := by
  unfold lookup
  constructor
  · intro h
    obtain ⟨hpde, h⟩ := Option.ite_none_right_eq_some.1 h
    obtain ⟨hpte, h⟩ := Option.ite_none_right_eq_some.1 h
    obtain rfl := Option.some.inj h
    exact ⟨hpde, hpte, rfl⟩
  · rintro ⟨hpde, hpte, rfl⟩
    rw [if_pos hpde, if_pos hpte]

theorem lookup_lt {m : Bytes} {d p e : ℕ} (h : lookup m d p = some e) : e < 2 ^ 32 := by
  obtain ⟨-, -, rfl⟩ := lookup_eq_some.1 h
  exact word_lt _ _ _

theorem frameOf_lt {e : ℕ} (h : e < 2 ^ 32) : frameOf e < 2 ^ 20 := by
  unfold frameOf
  omega

/-- The walk of the MMU is `lookup` on page numbers. -/
theorem mmu_eq (m : Bytes) (d v : ℕ) :
    mmu m (d * 4096) v = (lookup m d (v / 4096)).map fun e => frameOf e * 4096 + v % 4096 := by
  have hword : ∀ f k, load32 m (f * 4096 + 4 * k) = word m f k := fun _ _ => rfl
  have hpresent : ∀ e, (entryHasFlag e pagePresent = true) = Present e := fun _ => rfl
  simp only [mmu, pdIndex_eq, ptIndex_eq, pageOffset_eq, lookup, hword, hpresent,
    entryGetFrame_eq (word_lt m d _), entryGetFrame_eq (word_lt m _ _)]
  by_cases hpde : Present (word m d (v / 4096 / 1024))
  · by_cases hpte : Present (word m (frameOf (word m d (v / 4096 / 1024))) (v / 4096 % 1024))
    · simp only [hpde, hpte, if_true, Option.map_some]
    · simp only [hpde, hpte, if_true, if_false, Option.map_none]
  · simp only [hpde, if_false, Option.map_none]

/-! ### The recursive window -/

/-- Entry 1023 of the directory points to the directory. -/
def Recursive (m : Bytes) (d : ℕ) : Prop := word m d 1023 = d * 4096 + 3

theorem Recursive.lookup {m : Bytes} {d i : ℕ} (h : Recursive m d) (hi : i < 1024) :
    lookup m d (1023 * 1024 + i) = if Present (word m d i) then some (word m d i) else none := by
  have hpd : (1023 * 1024 + i) / 1024 = 1023 := by omega
  have hpt : (1023 * 1024 + i) % 1024 = i := by omega
  have hpresent : Present (d * 4096 + 3) := present_add d (by decide) (by decide)
  rw [Vmm.lookup, hpd, hpt, h, if_pos hpresent, frameOf_add d (by decide)]

/-- The window of a present table is the frame of the table. -/
theorem Recursive.mmu_table {m : Bytes} {d i o : ℕ} (h : Recursive m d) (hi : i < 1024)
    (ho : o < 4096) (hpde : Present (word m d i)) :
    mmu m (d * 4096) (tableWindow i + o) = some (frameOf (word m d i) * 4096 + o) := by
  have hpage : (tableWindow i + o) / 4096 = 1023 * 1024 + i := by
    unfold tableWindow pageSize
    omega
  have hoff : (tableWindow i + o) % 4096 = o := by
    unfold tableWindow pageSize
    omega
  rw [mmu_eq, hpage, hoff, h.lookup hi, if_pos hpde]
  rfl

/-- The window of the directory is its own frame. -/
theorem Recursive.mmu_directory {m : Bytes} {d o : ℕ} (h : Recursive m d) (ho : o < 4096) :
    mmu m (d * 4096) (directoryWindow + o) = some (d * 4096 + o) := by
  have hwindow : directoryWindow = tableWindow 1023 := rfl
  have hpresent : Present (d * 4096 + 3) := present_add d (by decide) (by decide)
  rw [hwindow, h.mmu_table (by decide) ho (by rw [h]; exact hpresent), h,
    frameOf_add d (by decide)]

end Vmm

end Yotos
