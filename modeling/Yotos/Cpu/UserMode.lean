import Yotos.Cpu.Interrupt
import Yotos.Cpu.Tss
import Mathlib.Order.Interval.Set.Defs

/-!
# User mode and the way back

`process_run` calls `enter_user_mode`, which leaves to ring 3 and does not come back.
`kernel_resume_after_exit`, reached from whatever runs on the stack of the process then,
makes it look as if the call had returned.
-/

namespace Yotos

namespace Cpu

open Bytes

/-- `process_saved_esp` and the others. -/
structure Saved where
  esp : UInt32
  ebp : UInt32
  ebx : UInt32
  esi : UInt32
  edi : UInt32

/-- An argument of a C function, where its return address is on top of the stack. -/
def State.arg (s : State) (i : ℕ) : UInt32 :=
  wordAt s.mem (s.esp + UInt32.ofNat (4 * (i + 1))).toNat

/-- `enter_user_mode`. -/
def enterUserMode (env : Env) (s : State) : State × Saved :=
  let s := { s with eax := s.arg 0, ecx := s.arg 1 }
  let saved : Saved := ⟨s.esp, s.ebp, s.ebx, s.esi, s.edi⟩
  let s := s.push s.eflags
  let s := { s with edx := s.top, esp := s.esp + 4 }
  let s := { s with edx := s.edx ||| 0x200 }
  (iret env (s.pushes [0x23, s.ecx, s.edx, 0x1b, s.eax]), saved)

/-- `kernel_resume_after_exit`. -/
def kernelResumeAfterExit (saved : Saved) (s : State) : State :=
  let s :=
    { s with
      esp := saved.esp
      ebp := saved.ebp
      ebx := saved.ebx
      esi := saved.esi
      edi := saved.edi }
  { s with eip := s.top, esp := s.esp + 4 }

variable {env : Env} {tss : Tss} {s t u : State}

/-! ## Entering -/

/-- The state in which a program starts. -/
theorem enterUserMode_eq (env : Env) (s : State) (hcpl : s.cpl = 0) (h : 20 ≤ s.esp.toNat) :
    (enterUserMode env s).1 =
      { s with
        eax := s.arg 0
        ecx := s.arg 1
        edx := s.eflags ||| 0x200
        eip := s.arg 0
        esp := s.arg 1
        eflags := s.eflags ||| 0x200
        cs := 0x1b
        ss := 0x23
        ds := checked env 3 s.ds
        es := checked env 3 s.es
        fs := checked env 3 s.fs
        gs := checked env 3 s.gs
        mem := pushWords s.mem s.esp.toNat
          [0x23, s.arg 1, s.eflags ||| 0x200, 0x1b, s.arg 0] } := by
  have hlt := s.esp.toNat_lt
  have hsub := toNat_sub_four (x := s.esp) (by omega)
  have htop : wordAt (store32 s.mem (s.esp.toNat - 4) s.eflags.toNat) (s.esp.toNat - 4) =
      s.eflags := wordAt_store32 s.mem _ _
  have hword : ∀ i < 5, some (wordAt (pushWords s.mem s.esp.toNat
      [0x23, s.arg 1, s.eflags ||| 0x200, 0x1b, s.arg 0]) (s.esp.toNat - 20 + 4 * i)) =
      [s.arg 0, 0x1b, s.eflags ||| 0x200, s.arg 1, 0x23][i]? :=
    fun i hi => wordAt_pushWords _ h hi
  have heip := Option.some.inj (hword 0 (by simp))
  have hcs := Option.some.inj (hword 1 (by simp))
  have hflags := Option.some.inj (hword 2 (by simp))
  have hesp := Option.some.inj (hword 3 (by simp))
  have hss := Option.some.inj (hword 4 (by simp))
  have hmod : ∀ n ≤ 16, (s.esp.toNat - 20 + n) % 4294967296 = s.esp.toNat - 20 + n := fun n hn =>
    Nat.mod_eq_of_lt (by omega)
  have hmod₀ : (s.esp.toNat - 20) % 4294967296 = s.esp.toNat - 20 := hmod 0 (Nat.zero_le 16)
  have hrpl : rpl 27 = 3 := rfl
  simp only [State.cpl] at hcpl
  simp only [enterUserMode, State.push, State.top, hsub, htop]
  rw [pushes_eq (by simp; omega)]
  simp only [Nat.mul_zero, Nat.add_zero, Nat.reduceMul, Nat.mul_one] at heip hcs hflags hesp hss
  simp [pushWords_store32, iret, State.cpl, hcpl, hrpl, hmod, hmod₀, heip, hcs, hflags, hesp, hss]

/-- The processor with the descriptors of `install_gdt` and `install_tss`. -/
def bootEnv (junk : ℕ → UInt16) (tssBase : UInt32) (m : Bytes) : Env where
  junk := junk
  dpl := fun selector =>
    (segment (gdtSetTssDescriptor tssBase (installGdt ⟨m, 0⟩)).bytes (selector.toNat / 8)).dpl

theorem dpl_bootEnv (junk : ℕ → UInt16) (tssBase : UInt32) (m : Bytes) :
    (bootEnv junk tssBase m).dpl 0x10 = 0 := by
  have h := segment_afterInstall [⟨UInt32.ofNat (tssSize - 1), tssBase, 0x89, 0x0⟩] m
    (show 2 < gdtMaxEntries by simp [gdtMaxEntries])
  have hentry : (bootEnv junk tssBase m).dpl 0x10 =
      (segment (gdtSetAll [⟨UInt32.ofNat (tssSize - 1), tssBase, 0x89, 0x0⟩]
        (installGdt ⟨m, 0⟩)).bytes 2).dpl := rfl
  rw [hentry, h]
  simp [gdtEntries, GdtDescriptor.segment, Segment.dpl]

/-- A program starts in ring 3 at its entry, on its stack and with interrupts on. The
kernel's selector is of no use there, so that no data segment register holds one. -/
theorem enterUserMode_start (junk : ℕ → UInt16) (tssBase : UInt32) (m : Bytes) (s : State)
    (hcpl : s.cpl = 0) (h : 20 ≤ s.esp.toNat) (hsegments : ∀ r : SegReg, r.get s = 0x10) :
    let t := (enterUserMode (bootEnv junk tssBase m) s).1
    t.cs = 0x1b ∧ t.ss = 0x23 ∧ t.eip = s.arg 0 ∧ t.esp = s.arg 1 ∧
      t.eflags &&& interruptFlag = interruptFlag ∧ ∀ r : SegReg, r.get t = 0 := by
  have hnull : checked (bootEnv junk tssBase m) 3 0x10 = 0 := by
    rw [checked, if_neg]
    rw [keeps, dpl_bootEnv]
    decide
  have hds := hsegments .ds
  have hes := hsegments .es
  have hfs := hsegments .fs
  have hgs := hsegments .gs
  simp only [SegReg.get] at hds hes hfs hgs
  simp only [enterUserMode_eq _ s hcpl h, hds, hes, hfs, hgs, hnull]
  refine ⟨trivial, trivial, trivial, trivial, ?_, fun r => ?_⟩
  · rw [interruptFlag, UInt32.and_comm]
    refine UInt32.toBitVec_inj.1 (BitVec.eq_of_getLsbD_eq fun i hi => ?_)
    simp only [UInt32.toBitVec_and, UInt32.toBitVec_or, BitVec.getLsbD_and, BitVec.getLsbD_or]
    cases (UInt32.toBitVec 0x200).getLsbD i <;> simp
  · cases r <;> rfl

/-- `process_run` at its call. -/
def caller : State :=
  { program with
    esp := 0x9000
    cs := 0x08
    ss := 0x10
    ds := 0x10
    es := 0x10
    fs := 0x10
    gs := 0x10
    mem := UInt8.ofNat }

theorem enterUserMode_start_small :
    (enterUserMode (bootEnv (fun _ => 0) 0x5000 fun _ => 0) caller).1.ds = 0 :=
  (enterUserMode_start (fun _ => 0) 0x5000 (fun _ => 0) caller rfl (by decide)
    fun r => by cases r <;> rfl).2.2.2.2.2 .ds

theorem kernelResumeAfterExit_eq (env : Env) (s u : State) :
    kernelResumeAfterExit (enterUserMode env s).2 u =
      { u with
        eip := wordAt u.mem s.esp.toNat
        esp := s.esp + 4
        ebp := s.ebp
        ebx := s.ebx
        esi := s.esi
        edi := s.edi } := by
  simp only [kernelResumeAfterExit, enterUserMode, State.top]

/-! ## Running -/

/-- Code between two interrupts. It stays in its ring and does not write to `M`; in ring 3 it
loads only selectors it may use, and in the kernel it stays on the stack of the process. -/
structure Code (env : Env) (tss : Tss) (low : ℕ) (M : Set ℕ) (s t : State) : Prop where
  cs : t.cs = s.cs
  ss : t.ss = s.ss
  selectors : s.cpl ≠ 0 → ∀ r : SegReg, keeps env s.cpl (r.get t)
  stack : s.cpl = 0 → low ≤ t.esp.toNat ∧ t.esp.toNat ≤ tss.esp0.toNat
  mem : ∀ a ∈ M, t.mem a = s.mem a

/-- From `s` the processor gets to `t`, through code and interrupts that are handled on a
stack that goes down to `low`. Their handlers are interrupted in turn, and need not come to
their end. -/
inductive Reaches (env : Env) (tss : Tss) (low : ℕ) (M : Set ℕ) : State → State → Prop
  | refl (s : State) : Reaches env tss low M s s
  | code {s t u : State} (before : Reaches env tss low M s t) (h : Code env tss low M t u) :
      Reaches env tss low M s u
  | inside {s t u : State} {g : Gate} {error pushed : List UInt32} {e v : UInt32}
      (before : Reaches env tss low M s t) (hw : error ++ pushed = [e, v])
      (hg : g.selector = 0x08) (hroom : low + 80 ≤ (entryStack tss t).toNat)
      (handler : Reaches env tss low M (handled env tss g error pushed t) u) :
      Reaches env tss low M s u
  | returned {s t u : State} {g : Gate} {error pushed : List UInt32} {e v : UInt32}
      (before : Reaches env tss low M s t) (hw : error ++ pushed = [e, v])
      (hg : g.selector = 0x08) (hroom : low + 80 ≤ (entryStack tss t).toNat)
      (handler : Reaches env tss low M (handled env tss g error pushed t) u)
      (hu : Returns (fun _ => u) (handled env tss g error pushed t) (frameAddr tss t)
        (entryStack tss t).toNat) :
      Reaches env tss low M s (run env (stub pushed fun _ => u) (interrupt tss g error t))

/-- In a program, or in the kernel on the stack of the process. -/
structure InProcess (env : Env) (tss : Tss) (low : ℕ) (s : State) : Prop where
  kernel : s.cpl = 0 →
    s.cs = 0x08 ∧ s.ss = tss.ss0 ∧ low ≤ s.esp.toNat ∧ s.esp.toNat ≤ tss.esp0.toNat
  program : s.cpl ≠ 0 → ∀ r : SegReg, keeps env s.cpl (r.get s)

variable {low : ℕ} {M : Set ℕ}

theorem InProcess.code (h : InProcess env tss low s) (hcode : Code env tss low M s t) :
    InProcess env tss low t := by
  have hcpl : t.cpl = s.cpl := congrArg rpl hcode.cs
  constructor
  · intro hzero
    rw [hcpl] at hzero
    rw [hcode.cs, hcode.ss]
    exact ⟨(h.kernel hzero).1, (h.kernel hzero).2.1, hcode.stack hzero⟩
  · rw [hcpl]
    exact hcode.selectors

theorem InProcess.entryStack_le (h : InProcess env tss low s) :
    (entryStack tss s).toNat ≤ tss.esp0.toNat := by
  rw [entryStack]
  split_ifs with hzero
  · exact (h.kernel hzero).2.2.2
  · exact le_rfl

theorem InProcess.entrySegment_eq (h : InProcess env tss low s) :
    entrySegment tss s = tss.ss0 := by
  rw [entrySegment]
  split_ifs with hzero
  · exact (h.kernel hzero).2.1
  · rfl

variable {g : Gate} {error pushed : List UInt32} {e v : UInt32}

theorem InProcess.handled (h : InProcess env tss low s) (hw : error ++ pushed = [e, v])
    (hg : g.selector = 0x08) (hroom : low + 80 ≤ (entryStack tss s).toNat) :
    InProcess env tss low (handled env tss g error pushed s) := by
  have hroom₀ : 80 ≤ (entryStack tss s).toNat := (Nat.le_add_left 80 low).trans hroom
  obtain ⟨hesp, hcs, hss, -⟩ := handled_eq (g := g) hw hroom₀
  have houter := length_outerWords_le s
  have htop := h.entryStack_le
  rw [hg] at hcs
  have hcpl : (Cpu.handled env tss g error pushed s).cpl = 0 := by
    rw [State.cpl, hcs]
    rfl
  refine ⟨fun _ => ?_, fun hne => absurd hcpl hne⟩
  rw [hcs, hss, h.entrySegment_eq, hesp, frameAddr]
  exact ⟨rfl, rfl, by omega, by omega⟩

/-- An interrupt leaves alone what is not on the stack of the process. -/
theorem InProcess.mem_handled (h : InProcess env tss low s) (hw : error ++ pushed = [e, v])
    (hroom : low + 80 ≤ (entryStack tss s).toNat) {a : ℕ} (ha : a < low ∨ tss.esp0.toNat ≤ a) :
    (Cpu.handled env tss g error pushed s).mem a = s.mem a := by
  have houter := length_outerWords_le s
  have htop := h.entryStack_le
  have hlen : (outerWords s ++ (programFrame env s (frameAddr tss s) e v).words.reverse ++
      [UInt32.ofNat (frameAddr tss s)]).length = (outerWords s).length + 18 := by
    simp only [List.length_append, List.length_reverse]
    rfl
  rw [(handled_eq hw (by omega)).2.2.2]
  exact pushWords_of_apart (by omega) (by omega)

theorem InProcess.returned (h : InProcess env tss low s) (hw : error ++ pushed = [e, v])
    (hg : g.selector = 0x08) (hroom : low + 80 ≤ (entryStack tss s).toNat)
    (hu : Returns (fun _ => u) (Cpu.handled env tss g error pushed s) (frameAddr tss s)
      (entryStack tss s).toNat) :
    InProcess env tss low (run env (stub pushed fun _ => u) (interrupt tss g error s)) ∧
      (run env (stub pushed fun _ => u) (interrupt tss g error s)).mem = u.mem := by
  have hkeeps : s.cpl = 0 ∨ ∀ r : SegReg, keeps env s.cpl (r.get s) := by
    by_cases hzero : s.cpl = 0
    · exact Or.inl hzero
    · exact Or.inr (h.program hzero)
  rw [run_stub (fun _ => u) hw (by omega) (by rw [hg]; rfl) hkeeps hu]
  refine ⟨⟨h.kernel, fun hne r => ?_⟩, rfl⟩
  cases r with
  | ds => exact h.program hne .ds
  | es => exact h.program hne .es
  | fs => exact h.program hne .fs
  | gs => exact h.program hne .gs

/-- Whatever runs in a process, memory outside its stack that no code writes is kept. -/
theorem Reaches.inProcess (hM : ∀ a ∈ M, a < low ∨ tss.esp0.toNat ≤ a)
    (h : Reaches env tss low M s t) (hs : InProcess env tss low s) :
    InProcess env tss low t ∧ ∀ a ∈ M, t.mem a = s.mem a := by
  induction h with
  | refl s => exact ⟨hs, fun a _ => rfl⟩
  | code before hcode ih =>
      obtain ⟨ht, hmem⟩ := ih hs
      exact ⟨ht.code hcode, fun a ha => (hcode.mem a ha).trans (hmem a ha)⟩
  | inside before hw hg hroom handler ih ihHandler =>
      obtain ⟨ht, hmem⟩ := ih hs
      obtain ⟨hu, hmemu⟩ := ihHandler (ht.handled hw hg hroom)
      exact ⟨hu, fun a ha =>
        (hmemu a ha).trans ((ht.mem_handled hw hroom (hM a ha)).trans (hmem a ha))⟩
  | returned before hw hg hroom handler hreturns ih ihHandler =>
      obtain ⟨ht, hmem⟩ := ih hs
      obtain ⟨-, hmemu⟩ := ihHandler (ht.handled hw hg hroom)
      obtain ⟨hback, hmemBack⟩ := ht.returned hw hg hroom hreturns
      refine ⟨hback, fun a ha => ?_⟩
      rw [hmemBack]
      exact (hmemu a ha).trans ((ht.mem_handled hw hroom (hM a ha)).trans (hmem a ha))

theorem keeps_checked (env : Env) (n : ℕ) (v : UInt16) : keeps env n (checked env n v) := by
  rw [checked]
  split_ifs with h
  · exact h
  · rfl

theorem cpl_enterUserMode (env : Env) (hcpl : s.cpl = 0) (h : 20 ≤ s.esp.toNat) :
    (enterUserMode env s).1.cpl = 3 := by
  have hrpl : rpl 0x1b = 3 := rfl
  rw [State.cpl, enterUserMode_eq env s hcpl h, hrpl]

theorem inProcess_enterUserMode (hcpl : s.cpl = 0) (h : 20 ≤ s.esp.toNat) :
    InProcess env tss low (enterUserMode env s).1 := by
  have hring := cpl_enterUserMode env hcpl h
  refine ⟨fun hzero => absurd (hring.symm.trans hzero) (Nat.succ_ne_zero 2), fun _ r => ?_⟩
  rw [hring, enterUserMode_eq env s hcpl h]
  cases r with
  | ds => exact keeps_checked env 3 s.ds
  | es => exact keeps_checked env 3 s.es
  | fs => exact keeps_checked env 3 s.fs
  | gs => exact keeps_checked env 3 s.gs

theorem mem_enterUserMode (hcpl : s.cpl = 0) (h : 20 ≤ s.esp.toNat) {a : ℕ}
    (ha : s.esp.toNat ≤ a) : (enterUserMode env s).1.mem a = s.mem a := by
  rw [enterUserMode_eq env s hcpl h]
  exact pushWords_of_apart h (Or.inr ha)

theorem Reaches.caller {top p : ℕ} (hmem : ∀ a, p ≤ a → t.mem a = s.mem a)
    (hin : InProcess env tss low t) (htop : p + 4 ≤ top) (hapart : top ≤ low ∨ tss.esp0.toNat ≤ p)
    (hreach : Reaches env tss low (Set.Ico p top) t u) (hu : u.cpl = 0) :
    wordAt u.mem p = wordAt s.mem p ∧ (∀ a ∈ Set.Ico p top, u.mem a = s.mem a) ∧ u.cs = 0x08 ∧
      u.ss = tss.ss0 := by
  have hM : ∀ a ∈ Set.Ico p top, a < low ∨ tss.esp0.toNat ≤ a := by
    intro a ha
    rw [Set.mem_Ico] at ha
    exact hapart.imp (fun h => ha.2.trans_le h) fun h => h.trans ha.1
  obtain ⟨hout, hkept⟩ := hreach.inProcess hM hin
  have hcaller : ∀ a ∈ Set.Ico p top, u.mem a = s.mem a := fun a ha =>
    (hkept a ha).trans (hmem a ha.1)
  exact ⟨wordAt_congr fun x hx hx' => hcaller x ⟨hx, hx'.trans_le htop⟩, hcaller,
    (hout.kernel hu).1, (hout.kernel hu).2.1⟩

/-- The call of `enter_user_mode` returns to `process_run` as calls do: at its return
address, with the stack pointer behind it, the registers that a C function keeps, and the
caller's stack up to `top` as it was, from anywhere in a handler of the program, whatever
the program did and however its interrupts were nested. -/
theorem enterUserMode_returns (env : Env) (tss : Tss) (low top : ℕ) (s u : State)
    (hcpl : s.cpl = 0) (hbelow : 20 ≤ s.esp.toNat) (htop : s.esp.toNat + 4 ≤ top)
    (hapart : top ≤ low ∨ tss.esp0.toNat ≤ s.esp.toNat)
    (hreach : Reaches env tss low (Set.Ico s.esp.toNat top) (enterUserMode env s).1 u)
    (hu : u.cpl = 0) :
    kernelResumeAfterExit (enterUserMode env s).2 u =
        { u with
          eip := s.top
          esp := s.esp + 4
          ebp := s.ebp
          ebx := s.ebx
          esi := s.esi
          edi := s.edi } ∧
      (∀ a ∈ Set.Ico s.esp.toNat top, u.mem a = s.mem a) ∧ u.cs = 0x08 ∧ u.ss = tss.ss0 := by
  rw [kernelResumeAfterExit_eq]
  refine (Reaches.caller (fun a => mem_enterUserMode hcpl hbelow)
    (inProcess_enterUserMode hcpl hbelow) htop hapart hreach hu).imp (fun hret => ?_) fun h => h
  rw [hret, State.top]

/-- A program that makes a system call at once, and is taken out of it. -/
theorem enterUserMode_returns_small :
    let u := handled flatEnv ⟨0x8000, 0x10⟩ ⟨0, 0x08, 0xEF⟩ [] syscallPushed
      (enterUserMode flatEnv caller).1
    (kernelResumeAfterExit (enterUserMode flatEnv caller).2 u).eip = caller.top ∧
      (kernelResumeAfterExit (enterUserMode flatEnv caller).2 u).esp = 0x9004 := by
  intro u
  have hring : (enterUserMode flatEnv caller).1.cpl = 3 := cpl_enterUserMode _ rfl (by decide)
  have hroom : 0x7000 + 80 ≤
      (entryStack ⟨0x8000, 0x10⟩ (enterUserMode flatEnv caller).1).toNat := by
    rw [entryStack, if_neg (by rw [hring]; exact Nat.succ_ne_zero 2)]
    decide
  have hu : u.cpl = 0 := congrArg rpl
    (handled_eq (e := 0) (v := 0x80) rfl ((Nat.le_add_left 80 0x7000).trans hroom)).2.1
  have h := (enterUserMode_returns flatEnv ⟨0x8000, 0x10⟩ 0x7000 0x9100 caller u rfl (by decide)
    (by decide) (Or.inr (by decide))
    (.inside (.refl _) (e := 0) (v := 0x80) rfl rfl hroom (.refl _)) hu).1
  rw [h]
  exact ⟨rfl, rfl⟩

end Cpu

end Yotos
