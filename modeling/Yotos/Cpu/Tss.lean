import Yotos.Cpu.Gdt
import Mathlib.Data.Nat.Bitwise

/-!
# The task state segment

`kernel/tss.c`. The processor takes the kernel's stack from the segment when an interrupt
comes in from ring 3, and it looks there for the ports that ring 3 may use: `iomap_base`
says where their bitmap starts. `install_tss` leaves `iomap_base` at 0, so the segment's own
bytes are the bitmap.
-/

namespace Yotos

namespace Cpu

open Bytes

/-- `sizeof(struct tss_structure)`. -/
def tssSize : ℕ := 104

/-- `gdt_set_tss_descriptor`, where the segment is at `base`. -/
def gdtSetTssDescriptor (base : UInt32) : Gdt → Gdt :=
  gdtSetDescriptor ⟨UInt32.ofNat (tssSize - 1), base, 0x89, 0x0⟩

/-- The fields of `install_tss`. -/
def tssFields (kernelStack : UInt32) (tss : Bytes) : Bytes :=
  let tss := fill tss 0 0 tssSize
  let tss := store32 tss 4 kernelStack.toNat
  let tss := store32 tss 8 0x10
  -- the segments of ring 3
  let tss := store32 tss 76 0x1b
  let tss := store32 tss 80 0x23
  let tss := store32 tss 84 0x23
  let tss := store32 tss 72 0x23
  let tss := store32 tss 88 0x23
  store32 tss 92 0x23

/-- `install_tss`. -/
def installTss (base kernelStack : UInt32) (g : Gdt) (tss : Bytes) : Gdt × Bytes :=
  (gdtSetTssDescriptor base g, tssFields kernelStack tss)

/-- `tss_set_kernel_stack`. -/
def tssSetKernelStack (esp0 : UInt32) (tss : Bytes) : Bytes := store32 tss 4 esp0.toNat

/-- The processor lets ring 3 use the `n` ports from `port` on: their bits in the two bytes
that it reads from the bitmap are clear, and the bytes are in the segment. -/
def portAllowed (tss : Bytes) (limit port n : ℕ) : Bool :=
  let offset := load16 tss 102 + port / 8
  offset + 1 ≤ limit ∧ load16 tss offset >>> (port % 8) &&& (2 ^ n - 1) = 0

/-- The bit of a port. -/
def portBit (tss : Bytes) (port : ℕ) : Bool := (tss (port / 8)).toNat.testBit (port % 8)

variable {tss : Bytes} {limit port n esp0 : ℕ}

theorem testBit_load16 (m : Bytes) (a j : ℕ) :
    (load16 m a).testBit j =
      if j < 8 then (m a).toNat.testBit j else (m (a + 1)).toNat.testBit (j - 8) := by
  have hlow : (m a).toNat < 2 ^ 8 := (m a).toNat_lt
  rw [load16, Nat.add_comm, show 256 = 2 ^ 8 from rfl, Nat.testBit_two_pow_mul_add _ hlow]

/-- A bitmap at offset 0 is looked up bit by bit. -/
theorem portAllowed_iff (hbase : load16 tss 102 = 0) (hn : n ≤ 8) :
    portAllowed tss limit port n = true ↔
      port / 8 + 1 ≤ limit ∧ ∀ i < n, portBit tss (port + i) = false := by
  have hbit : ∀ i < n, (load16 tss (port / 8) >>> (port % 8)).testBit i =
      portBit tss (port + i) := by
    intro i hi
    rw [Nat.testBit_shiftRight, testBit_load16, portBit]
    split_ifs with hin
    · rw [show (port + i) / 8 = port / 8 by omega, show (port + i) % 8 = port % 8 + i by omega]
    · rw [show (port + i) / 8 = port / 8 + 1 by omega,
        show (port + i) % 8 = port % 8 + i - 8 by omega]
  rw [portAllowed, decide_eq_true_iff, hbase, Nat.zero_add, Nat.and_two_pow_sub_one_eq_mod]
  refine and_congr_right fun _ => ?_
  constructor
  · intro hzero i hi
    have hmod := congrArg (fun w => w.testBit i) hzero
    simp only [Nat.testBit_mod_two_pow, hi, decide_true, Bool.true_and, Nat.zero_testBit,
      hbit i hi] at hmod
    exact hmod
  · intro h
    refine Nat.zero_of_testBit_eq_false fun i => ?_
    rw [Nat.testBit_mod_two_pow]
    by_cases hi : i < n
    · rw [hbit i hi, h i hi, Bool.and_false]
    · simp [hi]

/-! ## The segment as a bitmap -/

theorem store32_apply_congr {m m' : Bytes} {a v x : ℕ} (h : m' x = m x) :
    store32 m' a v x = store32 m a v x := by
  simp only [store32, store16, store8]
  split_ifs <;> first | rfl | exact h

/-- Past `esp0` the fields do not depend on the arguments. -/
theorem tssFields_apply {kernelStack : UInt32} {x : ℕ} (hx : x < tssSize) (hout : x < 4 ∨ 8 ≤ x) :
    tssFields kernelStack tss x = tssFields 0 (fun _ => 0) x := by
  simp only [tssFields]
  have hfill : store32 (fill tss 0 0 tssSize) 4 kernelStack.toNat x =
      store32 (fill (fun _ => 0) 0 0 tssSize) 4 (0 : UInt32).toNat x := by
    rw [store32_of_apart _ _ (by omega), store32_of_apart _ _ (by omega),
      fill_of_mem _ _ (by omega), fill_of_mem _ _ (by omega)]
  repeat refine store32_apply_congr ?_
  exact hfill

/-- The ports whose bits are set by the selectors in the segment. -/
def selectorPorts : List ℕ :=
  [68, 576, 577, 581, 608, 609, 611, 612, 640, 641, 645, 672, 673, 677, 704, 705, 709, 736, 737,
    741]

/-- The ports that ring 3 must not use, where `esp0` is the kernel's stack. -/
def Blocked (esp0 port : ℕ) : Prop :=
  (32 ≤ port ∧ port < 64 ∧ esp0.testBit (port - 32) = true) ∨ port ∈ selectorPorts

/-- The segment after the calls of `tss_set_kernel_stack`. -/
def tssAfter (kernelStack : UInt32) (tss : Bytes) (esps : List UInt32) : Bytes :=
  esps.foldl (fun tss esp0 => tssSetKernelStack esp0 tss) (tssFields kernelStack tss)

/-- `install_tss`, called behind `install_gdt`, fills the entry whose selector `load_tss`
loads: the segment is at `base`, with the fields that `tssAfter` starts from. -/
theorem installTss_installGdt (base kernelStack : UInt32) (m tss : Bytes) :
    segment (installTss base kernelStack (installGdt ⟨m, 0⟩) tss).1.bytes (0x28 / 8) =
        ⟨tssSize - 1, base.toNat, 0x89, 0⟩ ∧
      (installTss base kernelStack (installGdt ⟨m, 0⟩) tss).2 = tssAfter kernelStack tss [] := by
  refine ⟨?_, rfl⟩
  have h := segment_afterInstall [⟨UInt32.ofNat (tssSize - 1), base, 0x89, 0x0⟩] m
    (show 0x28 / 8 < gdtMaxEntries by decide)
  exact h

theorem tssAfter_apply {kernelStack : UInt32} {esps : List UInt32} {x : ℕ} (hx : x < tssSize)
    (hout : x < 4 ∨ 8 ≤ x) :
    tssAfter kernelStack tss esps x = tssFields 0 (fun _ => 0) x := by
  induction esps using List.reverseRecOn with
  | nil => exact tssFields_apply hx hout
  | append_singleton esps esp0 ih =>
      rw [tssAfter, List.foldl_append, List.foldl_cons, List.foldl_nil, tssSetKernelStack,
        store32_of_apart _ _ (by omega)]
      exact ih

/-- The kernel's stack is the last one that was set. -/
theorem load32_tssAfter (kernelStack : UInt32) (tss : Bytes) (esps : List UInt32) :
    load32 (tssAfter kernelStack tss esps) 4 = (esps.getLast?.getD kernelStack).toNat := by
  induction esps using List.reverseRecOn with
  | nil =>
      have h := load32_store32_of_lt (fill tss 0 0 tssSize) 4 kernelStack.toNat_lt
      refine Eq.trans (load32_congr fun x hx hx' => ?_) h
      simp only [tssAfter, List.foldl_nil, tssFields]
      repeat rw [store32_of_apart _ _ (by omega)]
  | append_singleton esps esp0 ih =>
      rw [tssAfter, List.foldl_append, List.foldl_cons, List.foldl_nil, tssSetKernelStack,
        load32_store32_of_lt _ _ esp0.toNat_lt, List.getLast?_concat, Option.getD_some]

theorem testBit_load32 (m : Bytes) (a : ℕ) {i j : ℕ} (hi : i < 4) (hj : j < 8) :
    (load32 m a).testBit (8 * i + j) = (m (a + i)).toNat.testBit j := by
  have hlow : load16 m a < 2 ^ 16 := load16_lt m a
  rw [load32, Nat.add_comm (load16 m a), show 65536 = 2 ^ 16 from rfl,
    Nat.testBit_two_pow_mul_add _ hlow]
  split_ifs with hin
  · rw [testBit_load16]
    split_ifs with hin'
    · rw [show i = 0 by omega, Nat.mul_zero, Nat.zero_add, Nat.add_zero]
    · rw [show i = 1 by omega, show 8 * 1 + j - 8 = j by omega]
  · rw [testBit_load16]
    split_ifs with hin'
    · rw [show i = 2 by omega, show 8 * 2 + j - 16 = j by omega]
    · rw [show i = 3 by omega, show 8 * 3 + j - 16 - 8 = j by omega]

/-- The bit of a port, whatever the arguments of `install_tss` and the stacks set since. -/
theorem portBit_tssAfter {kernelStack : UInt32} {esps : List UInt32} (hport : port < 8 * tssSize) :
    portBit (tssAfter kernelStack tss esps) port = true ↔
      Blocked (esps.getLast?.getD kernelStack).toNat port := by
  have hfixed : ∀ q < 8 * tssSize, (q < 32 ∨ 64 ≤ q) →
      (portBit (tssFields 0 fun _ => 0) q = true ↔ q ∈ selectorPorts) := by
    decide +kernel
  have hnone : ∀ q ∈ selectorPorts, q < 32 ∨ 64 ≤ q := by decide
  by_cases hstack : 32 ≤ port ∧ port < 64
  · have hsplit : port - 32 = 8 * ((port - 32) / 8) + port % 8 := by omega
    have hbit := testBit_load32 (tssAfter kernelStack tss esps) 4
      (show (port - 32) / 8 < 4 by omega) (Nat.mod_lt port (show 8 > 0 by simp))
    rw [← hsplit, load32_tssAfter, show 4 + (port - 32) / 8 = port / 8 by omega] at hbit
    rw [portBit, ← hbit, Blocked]
    constructor
    · intro h
      exact Or.inl ⟨hstack.1, hstack.2, h⟩
    · rintro (⟨-, -, h⟩ | h)
      · exact h
      · have := hnone port h
        omega
  · have hbyte : portBit (tssAfter kernelStack tss esps) port =
        portBit (tssFields 0 fun _ => 0) port := by
      rw [portBit, portBit, tssAfter_apply (by omega) (by omega)]
    rw [hbyte, hfixed port hport (by omega), Blocked]
    constructor
    · exact Or.inr
    · rintro (⟨hge, hlt, -⟩ | h)
      · exact absurd ⟨hge, hlt⟩ hstack
      · exact h

/-- The ports that ring 3 may use: all below 824 that are not blocked, such as those of the
keyboard, the timer and the disk, since no bitmap was set up. -/
theorem portAllowed_tssAfter (kernelStack : UInt32) (tss : Bytes) (esps : List UInt32)
    (port n : ℕ) (hn : n ≤ 4) :
    portAllowed (tssAfter kernelStack tss esps) (tssSize - 1) port n = true ↔
      port < 8 * (tssSize - 1) ∧
        ∀ i < n, ¬ Blocked (esps.getLast?.getD kernelStack).toNat (port + i) := by
  have hzero : tssFields 0 (fun _ => 0) 102 = 0 ∧ tssFields 0 (fun _ => 0) 103 = 0 := by
    decide +kernel
  have hbase : load16 (tssAfter kernelStack tss esps) 102 = 0 := by
    rw [load16, tssAfter_apply (by simp [tssSize]) (by simp),
      tssAfter_apply (by simp [tssSize]) (by simp), hzero.1, hzero.2]
    rfl
  have hsize : tssSize = 104 := rfl
  rw [portAllowed_iff hbase (by omega)]
  have hlimit : port / 8 + 1 ≤ tssSize - 1 ↔ port < 8 * (tssSize - 1) := by omega
  rw [hlimit]
  refine and_congr_right fun hport => forall₂_congr fun i hi => ?_
  rw [← portBit_tssAfter
    (show port + i < 8 * tssSize by omega), Bool.not_eq_true]

/-- The disk's data port, with a process on a stack at `0x208000`. -/
theorem portAllowed_tssAfter_data :
    portAllowed (tssAfter 0 (fun _ => 0) [0x208000]) (tssSize - 1) 0x1F0 2 = true :=
  (portAllowed_tssAfter 0 (fun _ => 0) [0x208000] 0x1F0 2 (by simp)).2
    ⟨by decide, by unfold Blocked; decide⟩

end Cpu

end Yotos
