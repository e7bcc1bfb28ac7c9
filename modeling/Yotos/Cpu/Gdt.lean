import Yotos.Library.Bytes
import Mathlib.Data.List.Basic
import Mathlib.Data.List.Induction

/-!
# Segments

`kernel/gdt.c`: the global descriptor table, written entry by entry, and what the processor
reads from it. The table is empty before `install_gdt`, which fills five entries;
`install_tss` adds the sixth.
-/

namespace Yotos

namespace Cpu

open Bytes

/-- `struct gdt_descriptor`. -/
structure GdtDescriptor where
  limit : UInt32
  base : UInt32
  accessByte : UInt8
  flags : UInt8

/-- `gdt`, and the index of the next entry. -/
structure Gdt where
  bytes : Bytes
  i : ℕ

/-- `GDT_MAX_ENTRIES`. -/
def gdtMaxEntries : ℕ := 6

/-- `gdt_set_descriptor`. -/
def gdtSetDescriptor (source : GdtDescriptor) (s : Gdt) : Gdt :=
  if gdtMaxEntries ≤ s.i then s
  else
    let target := 8 * s.i
    let m := s.bytes
    -- the limit
    let m := store8 m target (UInt8.ofNat (source.limit.toNat &&& 0xFF))
    let m := store8 m (target + 1) (UInt8.ofNat (source.limit.toNat >>> 8 &&& 0xFF))
    let m := store8 m (target + 6) (UInt8.ofNat (source.limit.toNat >>> 16 &&& 0x0F))
    -- the base
    let m := store8 m (target + 2) (UInt8.ofNat (source.base.toNat &&& 0xFF))
    let m := store8 m (target + 3) (UInt8.ofNat (source.base.toNat >>> 8 &&& 0xFF))
    let m := store8 m (target + 4) (UInt8.ofNat (source.base.toNat >>> 16 &&& 0xFF))
    let m := store8 m (target + 7) (UInt8.ofNat (source.base.toNat >>> 24 &&& 0xFF))
    let m := store8 m (target + 5) source.accessByte
    let m := store8 m (target + 6) (m (target + 6) ||| UInt8.ofNat (source.flags.toNat <<< 4))
    ⟨m, s.i + 1⟩

/-- The five entries of `install_gdt`. -/
def gdtEntries : List GdtDescriptor :=
  [⟨0, 0, 0, 0⟩, ⟨0xFFFFF, 0, 0x9A, 0xC⟩, ⟨0xFFFFF, 0, 0x92, 0xC⟩, ⟨0xFFFFF, 0, 0xFA, 0xC⟩,
    ⟨0xFFFFF, 0, 0xF2, 0xC⟩]

def gdtSetAll (descriptors : List GdtDescriptor) (s : Gdt) : Gdt :=
  descriptors.foldl (fun s d => gdtSetDescriptor d s) s

/-- `install_gdt`. -/
def installGdt (s : Gdt) : Gdt := gdtSetAll gdtEntries { s with bytes := fill s.bytes 0 0 48 }

/-- A segment as the processor sees it. -/
structure Segment where
  limit : ℕ
  base : ℕ
  access : UInt8
  flags : ℕ
  deriving DecidableEq

/-- What the processor reads from entry `k` of a table. -/
def segment (m : Bytes) (k : ℕ) : Segment where
  limit := load16 m (8 * k) + 65536 * ((m (8 * k + 6)).toNat % 16)
  base := load16 m (8 * k + 2) + 65536 * (m (8 * k + 4)).toNat + 2 ^ 24 * (m (8 * k + 7)).toNat
  access := m (8 * k + 5)
  flags := (m (8 * k + 6)).toNat / 16

/-- The descriptor privilege level. -/
def Segment.dpl (s : Segment) : ℕ := s.access.toNat / 32 % 4

/-- What an entry can hold of a descriptor: 20 bits of the limit and 4 of the flags. -/
def GdtDescriptor.segment (d : GdtDescriptor) : Segment where
  limit := d.limit.toNat % 2 ^ 20
  base := d.base.toNat
  access := d.accessByte
  flags := d.flags.toNat % 16

variable {d : GdtDescriptor} {s : Gdt} {k x : ℕ} {m m' : Bytes}

theorem toNat_byte (n : ℕ) : (UInt8.ofNat (n &&& 0xFF)).toNat = n % 256 := by
  rw [UInt8.toNat_ofNat', show 0xFF = 2 ^ 8 - 1 from rfl, Nat.and_two_pow_sub_one_eq_mod,
    Nat.mod_mod]

/-- The low half of byte 6 is the limit's and the high half the flags'. -/
theorem toNat_limit_or_flags (high flags : ℕ) :
    (UInt8.ofNat (high &&& 0x0F) ||| UInt8.ofNat (flags <<< 4)).toNat =
      high % 16 + 16 * (flags % 16) := by
  have hlow : high &&& 0x0F = high % 16 := Nat.and_two_pow_sub_one_eq_mod high 4
  have hlt : high % 16 < 2 ^ 4 := Nat.mod_lt _ (by simp)
  have hor := Nat.two_pow_add_eq_or_of_lt hlt (flags % 16)
  have hflags : flags <<< 4 % 2 ^ 8 = 2 ^ 4 * (flags % 16) := by
    rw [Nat.shiftLeft_eq]
    omega
  rw [UInt8.toNat_or, UInt8.toNat_ofNat', UInt8.toNat_ofNat', hlow, hflags,
    Nat.mod_eq_of_lt (show high % 16 < 2 ^ 8 by omega), Nat.or_comm, ← hor]
  exact Nat.add_comm _ _

theorem segment_congr (h : ∀ j < 8, m' (8 * k + j) = m (8 * k + j)) :
    segment m' k = segment m k := by
  have h0 := h 0 (by simp)
  rw [Nat.add_zero] at h0
  simp only [segment, load16, h0, Nat.add_assoc, h 1 (by simp), h 2 (by simp), h 3 (by simp),
    h 4 (by simp), h 5 (by simp), h 6 (by simp), h 7 (by simp), Nat.reduceAdd]

/-- Only the eight bytes of the next entry are written. -/
theorem gdtSetDescriptor_of_apart (hx : x < 8 * s.i ∨ 8 * s.i + 8 ≤ x) :
    (gdtSetDescriptor d s).bytes x = s.bytes x := by
  rw [gdtSetDescriptor]
  split_ifs
  · rfl
  · dsimp only
    repeat rw [store8_of_ne _ _ (by omega)]

/-- An entry reads back as it was written. -/
theorem segment_gdtSetDescriptor (h : s.i < gdtMaxEntries) :
    segment (gdtSetDescriptor d s).bytes s.i = d.segment := by
  have hnot : ¬ gdtMaxEntries ≤ s.i := Nat.not_le_of_lt h
  have hlimit := d.limit.toNat_lt
  have hbase := d.base.toNat_lt
  rw [gdtSetDescriptor, if_neg hnot]
  simp only [segment, GdtDescriptor.segment, load16, store8, Nat.add_assoc, Nat.reduceAdd,
    Nat.add_right_inj, Nat.left_eq_add, Nat.add_eq_left, Nat.reduceEqDiff, if_true, if_false,
    reduceCtorEq, toNat_byte, toNat_limit_or_flags, Nat.shiftRight_eq_div_pow]
  congr 1
  · omega
  · omega
  · omega

/-- A full table stays as it is. -/
theorem gdtSetDescriptor_of_full (h : gdtMaxEntries ≤ s.i) : gdtSetDescriptor d s = s := if_pos h

theorem gdtSetDescriptor_i (h : s.i < gdtMaxEntries) : (gdtSetDescriptor d s).i = s.i + 1 := by
  rw [gdtSetDescriptor, if_neg (Nat.not_le_of_lt h)]

variable {ds : List GdtDescriptor}

/-- No call leaves the table. -/
theorem gdtSetAll_outside (hs : s.i ≤ gdtMaxEntries) (hx : 8 * gdtMaxEntries ≤ x) :
    (gdtSetAll ds s).bytes x = s.bytes x := by
  induction ds generalizing s with
  | nil => rfl
  | cons d ds ih =>
      have hstep : gdtSetAll (d :: ds) s = gdtSetAll ds (gdtSetDescriptor d s) := rfl
      rw [hstep]
      rcases Nat.lt_or_ge s.i gdtMaxEntries with hlt | hge
      · rw [ih (by rw [gdtSetDescriptor_i hlt]; exact hlt),
          gdtSetDescriptor_of_apart (Or.inr (by omega))]
      · rw [gdtSetDescriptor_of_full hge, ih hs]

/-- The descriptors fill the table in order. Entries before them are kept, and so are those
that they do not reach. -/
theorem segment_gdtSetAll (hk : k < gdtMaxEntries) :
    segment (gdtSetAll ds s).bytes k =
      if s.i ≤ k then (ds[k - s.i]?.map GdtDescriptor.segment).getD (segment s.bytes k)
      else segment s.bytes k := by
  induction ds generalizing s with
  | nil =>
      rw [List.getElem?_nil]
      split_ifs <;> rfl
  | cons d ds ih =>
      have hstep : gdtSetAll (d :: ds) s = gdtSetAll ds (gdtSetDescriptor d s) := rfl
      rw [hstep]
      rcases Nat.lt_or_ge s.i gdtMaxEntries with hlt | hge
      · have hother : k ≠ s.i → segment (gdtSetDescriptor d s).bytes k = segment s.bytes k :=
          fun hne => segment_congr fun j hj => gdtSetDescriptor_of_apart (by omega)
        rw [ih, gdtSetDescriptor_i hlt]
        rcases Nat.lt_trichotomy k s.i with hbefore | rfl | hafter
        · rw [if_neg (by omega), if_neg (by omega), hother (by omega)]
        · rw [if_neg (by omega), if_pos le_rfl, segment_gdtSetDescriptor hlt, Nat.sub_self]
          rfl
        · obtain ⟨j, rfl⟩ := Nat.exists_eq_add_of_lt hafter
          rw [if_pos (by omega), if_pos (by omega), hother (by omega),
            show s.i + j + 1 - (s.i + 1) = j by omega, show s.i + j + 1 - s.i = j + 1 by omega,
            List.getElem?_cons_succ]
      · rw [gdtSetDescriptor_of_full hge, ih, if_neg (by omega), if_neg (by omega)]

/-- The calls of `install_gdt` and the ones after it are one sequence on a cleared table. -/
theorem gdtSetAll_installGdt (ds : List GdtDescriptor) (m : Bytes) :
    gdtSetAll ds (installGdt ⟨m, 0⟩) = gdtSetAll (gdtEntries ++ ds) ⟨fill m 0 0 48, 0⟩ :=
  (List.foldl_append ..).symm

theorem segment_afterInstall (ds : List GdtDescriptor) (m : Bytes) {k : ℕ}
    (hk : k < gdtMaxEntries) : segment (gdtSetAll ds (installGdt ⟨m, 0⟩)).bytes k =
      ((gdtEntries ++ ds)[k]?.map GdtDescriptor.segment).getD ⟨0, 0, 0, 0⟩ := by
  have hempty : ∀ k < gdtMaxEntries, segment (fill m 0 0 48) k = ⟨0, 0, 0, 0⟩ := by
    intro k hk
    have hzero : ∀ x, x < 8 * gdtMaxEntries → fill m 0 0 48 x = 0 := fun x hx =>
      fill_of_mem m 0 ⟨Nat.zero_le x, by rw [Nat.zero_add]; exact hx⟩
    simp only [segment, load16]
    repeat rw [hzero _ (by omega)]
    rfl
  rw [gdtSetAll_installGdt, segment_gdtSetAll hk, if_pos (Nat.zero_le k), hempty k hk]
  rfl

/-- After `install_gdt` and any further calls the processor reads the entries in the order
of the calls. Calls past the sixth entry are lost, and nothing behind the table is
written. -/
theorem segment_installGdt (ds : List GdtDescriptor) (m : Bytes) :
    (∀ k < gdtMaxEntries, segment (gdtSetAll ds (installGdt ⟨m, 0⟩)).bytes k =
        ((gdtEntries ++ ds)[k]?.map GdtDescriptor.segment).getD ⟨0, 0, 0, 0⟩) ∧
      ∀ x, 8 * gdtMaxEntries ≤ x → (gdtSetAll ds (installGdt ⟨m, 0⟩)).bytes x = m x := by
  refine ⟨fun k hk => segment_afterInstall ds m hk, fun x hx => ?_⟩
  rw [gdtSetAll_installGdt, gdtSetAll_outside (Nat.zero_le _) hx]
  exact fill_of_apart m 0 (Or.inr (by rw [Nat.zero_add]; exact hx))

end Cpu

end Yotos
