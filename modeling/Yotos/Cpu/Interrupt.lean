import Yotos.Cpu.Stubs

/-!
# Interrupts

The processor enters a stub of `cpu.asm` on the stack of its ring, the stub saves the
registers as a `struct regs`, calls the C handler and restores them. What comes back is the
program that was interrupted, and what the handler sees is its registers, but for two
exceptions whose error code the stubs do not expect.
-/

namespace Yotos

namespace Cpu

open Bytes

variable {env : Env} {tss : Tss} {g : Gate} {s t : State} {error pushed : List UInt32} {p : ℕ}

/-! ## An interrupt -/

/-- The stack an interrupt enters on. -/
def entryStack (tss : Tss) (s : State) : UInt32 := if s.cpl = 0 then s.esp else tss.esp0

def entrySegment (tss : Tss) (s : State) : UInt16 := if s.cpl = 0 then s.ss else tss.ss0

/-- The stack of an outer level, on the inner one. -/
def outerWords (s : State) : List UInt32 := if s.cpl = 0 then [] else [s.ss.toUInt32, s.esp]

/-- The address of the `struct regs`. -/
def frameAddr (tss : Tss) (s : State) : ℕ :=
  (entryStack tss s).toNat - 4 * ((outerWords s).length + 17)

/-- The `struct regs` at `p` for a program with the registers of `s`, from the words above
it. -/
def frame (env : Env) (s : State) (p : ℕ) (eflags cs eip errorCode vector : UInt32) : Regs where
  gs := segWord env s.gs p
  fs := segWord env s.fs (p + 4)
  es := segWord env s.es (p + 8)
  ds := segWord env s.ds (p + 12)
  edi := s.edi
  esi := s.esi
  ebp := s.ebp
  esp := UInt32.ofNat (p + 48)
  ebx := s.ebx
  edx := s.edx
  ecx := s.ecx
  eax := s.eax
  vector := vector
  errorCode := errorCode
  eip := eip
  cs := cs
  eflags := eflags

/-- The one of an interrupted program. -/
def programFrame (env : Env) (s : State) (p : ℕ) (errorCode vector : UInt32) : Regs :=
  frame env s p s.eflags s.cs.toUInt32 s.eip errorCode vector

/-- All that is pushed for an interrupt, with an error code or not and by a stub. -/
def entryWords (s : State) (ws : List UInt32) : List UInt32 :=
  outerWords s ++ ([s.eflags, s.cs.toUInt32, s.eip] ++ ws)

theorem length_outerWords_le (s : State) : (outerWords s).length ≤ 2 := by
  rw [outerWords]
  split_ifs
  · exact Nat.zero_le 2
  · exact le_refl 2

theorem run_pushes (env : Env) (ws : List UInt32) (s : State) :
    run env (ws.map .push) s = s.pushes ws := by
  rw [run, List.foldl_map]
  rfl

theorem interrupt_eq (h : 4 * (entryWords s error).length ≤ (entryStack tss s).toNat) :
    interrupt tss g error s =
      { s with
        esp := UInt32.ofNat ((entryStack tss s).toNat - 4 * (entryWords s error).length)
        ss := entrySegment tss s
        mem := pushWords s.mem (entryStack tss s).toNat (entryWords s error)
        cs := UInt16.ofNat g.selector
        eip := UInt32.ofNat g.offset
        eflags := if g.clearsIf then s.eflags &&& ~~~interruptFlag else s.eflags } := by
  have hinner : (if s.cpl = 0 then s
      else { s with esp := tss.esp0, ss := tss.ss0 }.pushes [s.ss.toUInt32, s.esp]) =
      { s with esp := entryStack tss s, ss := entrySegment tss s }.pushes (outerWords s) := by
    rw [entryStack, entrySegment, outerWords]
    split_ifs <;> rfl
  rw [interrupt, hinner, pushes_append, ← entryWords, pushes_eq h]

theorem pushes_interrupt (ws ws' : List UInt32) :
    (interrupt tss g ws s).pushes ws' = interrupt tss g (ws ++ ws') s := by
  have hcomm : ∀ (ws : List UInt32) (s : State) (c : UInt16) (i e : UInt32),
      { s with cs := c, eip := i, eflags := e }.pushes ws =
        { s.pushes ws with cs := c, eip := i, eflags := e } := by
    intro ws
    induction ws with
    | nil => intro s c i e; rfl
    | cons w ws ih => exact fun s => ih (s.push w)
  rw [interrupt, hcomm, pushes_append, interrupt, List.append_assoc]

/-- The state in which a handler is called, where the last five of the words above its
`struct regs` belong to it and `outer` does not. -/
theorem run_entry {outer : List UInt32} {fl c ip e v : UInt32}
    (hw : entryWords s (error ++ pushed) = outer ++ [fl, c, ip, e, v])
    (hp : p + 4 * (outer.length + 17) = (entryStack tss s).toNat) (h : 4 ≤ p) :
    run env (pushed.map .push ++ saveRegisters) (interrupt tss g error s) =
      { s with
        eax := UInt32.ofNat (s.eax.toNat / 65536 * 65536 + 0x10)
        esp := UInt32.ofNat (p - 4)
        eip := UInt32.ofNat g.offset
        eflags := if g.clearsIf then s.eflags &&& ~~~interruptFlag else s.eflags
        cs := UInt16.ofNat g.selector
        ss := entrySegment tss s
        ds := 0x10
        es := 0x10
        fs := 0x10
        gs := 0x10
        mem := pushWords s.mem (entryStack tss s).toNat
          (outer ++ (frame env s p fl c ip e v).words.reverse ++ [UInt32.ofNat p]) } := by
  have hlt := (entryStack tss s).toNat_lt
  have hlen : (entryWords s (error ++ pushed)).length = outer.length + 5 := by
    rw [hw]
    exact List.length_append
  have htop : (entryStack tss s).toNat - 4 * (outer.length + 5) = p + 48 := by omega
  have hesp : (UInt32.ofNat (p + 48)).toNat = p + 48 := by
    rw [UInt32.toNat_ofNat', Nat.mod_eq_of_lt (by omega)]
  have hmem : ∀ ws, pushWords (pushWords s.mem (entryStack tss s).toNat
      (entryWords s (error ++ pushed))) (p + 48) ws =
      pushWords s.mem (entryStack tss s).toNat (outer ++ ([fl, c, ip, e, v] ++ ws)) := by
    intro ws
    rw [← htop, ← hlen, ← pushWords_append, hw, List.append_assoc]
  rw [run_append, run_pushes, pushes_interrupt, interrupt_eq (by rw [hlen]; omega), hlen, htop,
    run_saveRegisters_eq hesp h]
  simp only [hmem, List.append_assoc]
  rfl

/-- A C function that comes back to its caller: stack and code segment are as before, and
so is the stack from `p` up to `q`, but for the slot of `eax` in a `struct regs` at `p`. -/
structure Returns (f : State → State) (s : State) (p q : ℕ) : Prop where
  esp : (f s).esp = s.esp
  cs : (f s).cs = s.cs
  ss : (f s).ss = s.ss
  mem : ∀ a, p ≤ a → a < q → a < p + 44 ∨ p + 48 ≤ a → (f s).mem a = s.mem a

/-- The state in which the handler of an interrupt is called. -/
def handled (env : Env) (tss : Tss) (g : Gate) (error pushed : List UInt32) (s : State) : State :=
  run env (pushed.map .push ++ saveRegisters) (interrupt tss g error s)

theorem entryWords_eq {e v : UInt32} {ws : List UInt32} (hw : ws = [e, v]) (s : State) :
    entryWords s ws = outerWords s ++ [s.eflags, s.cs.toUInt32, s.eip, e, v] := by
  rw [entryWords, hw]
  rfl

theorem frameAddr_add (hroom : 80 ≤ (entryStack tss s).toNat) :
    frameAddr tss s + 4 * ((outerWords s).length + 17) = (entryStack tss s).toNat := by
  have houter := length_outerWords_le s
  rw [frameAddr]
  omega

theorem le_frameAddr (hroom : 80 ≤ (entryStack tss s).toNat) : 4 ≤ frameAddr tss s := by
  have houter := length_outerWords_le s
  rw [frameAddr]
  omega

theorem handled_eq {e v : UInt32} (hw : error ++ pushed = [e, v])
    (hroom : 80 ≤ (entryStack tss s).toNat) :
    (handled env tss g error pushed s).esp.toNat = frameAddr tss s - 4 ∧
      (handled env tss g error pushed s).cs = UInt16.ofNat g.selector ∧
      (handled env tss g error pushed s).ss = entrySegment tss s ∧
      (handled env tss g error pushed s).mem = pushWords s.mem (entryStack tss s).toNat
          (outerWords s ++ (programFrame env s (frameAddr tss s) e v).words.reverse ++
            [UInt32.ofNat (frameAddr tss s)]) := by
  have hlt := (entryStack tss s).toNat_lt
  have hadd := frameAddr_add hroom
  rw [handled, run_entry (entryWords_eq hw s) hadd (le_frameAddr hroom)]
  refine ⟨?_, rfl, rfl, rfl⟩
  rw [UInt32.toNat_ofNat', Nat.mod_eq_of_lt (by omega)]

/-- What the handler sees. -/
theorem regsAt_handled {e v : UInt32} (hw : error ++ pushed = [e, v])
    (hroom : 80 ≤ (entryStack tss s).toNat) :
    regsAt (handled env tss g error pushed s).mem (frameAddr tss s) =
      programFrame env s (frameAddr tss s) e v := by
  have houter := length_outerWords_le s
  rw [(handled_eq hw hroom).2.2.2]
  exact regsAt_pushWords _ _ _ (by simp only [List.length_singleton]; omega)

/-- The stack of an outer level, above the `struct regs`. -/
theorem outer_handled {e v : UInt32} (hw : error ++ pushed = [e, v])
    (hroom : 80 ≤ (entryStack tss s).toNat) (hcpl : s.cpl ≠ 0) :
    wordAt (handled env tss g error pushed s).mem (frameAddr tss s + 68) = s.esp ∧
      wordAt (handled env tss g error pushed s).mem (frameAddr tss s + 72) = s.ss.toUInt32 := by
  have houter : outerWords s = [s.ss.toUInt32, s.esp] := if_neg hcpl
  have haddr : frameAddr tss s = (entryStack tss s).toNat - 76 := by
    rw [frameAddr, houter]
    rfl
  rw [(handled_eq hw hroom).2.2.2, houter]
  have hword := fun i => wordAt_pushWords (m := s.mem) (p := (entryStack tss s).toNat)
    ([s.ss.toUInt32, s.esp] ++ (programFrame env s (frameAddr tss s) e v).words.reverse ++
      [UInt32.ofNat (frameAddr tss s)]) (i := i) hroom
  constructor
  · have h := hword 18 (by exact Nat.lt_of_sub_eq_succ rfl)
    rw [show frameAddr tss s + 68 = (entryStack tss s).toNat - 4 * 20 + 4 * 18 by omega]
    exact Option.some.inj h
  · have h := hword 19 (by exact Nat.lt_of_sub_eq_succ rfl)
    rw [show frameAddr tss s + 72 = (entryStack tss s).toNat - 4 * 20 + 4 * 19 by omega]
    exact Option.some.inj h

theorem Returns.wordAt_eq {f : State → State} {q a : ℕ} (hf : Returns f s p q) (ha : p ≤ a)
    (hq : a + 4 ≤ q) (hslot : a + 4 ≤ p + 44 ∨ p + 48 ≤ a) :
    wordAt (f s).mem a = wordAt s.mem a :=
  wordAt_congr fun x hx hx' => hf.mem x (by omega) (by omega) (by omega)

/-- Its `struct regs` is as it was, but for `eax`. -/
theorem Returns.regsAt_eq {f : State → State} {q : ℕ} (hf : Returns f s p q) (hq : p + 68 ≤ q) :
    regsAt (f s).mem p = { regsAt s.mem p with eax := (regsAt (f s).mem p).eax } := by
  have hword : ∀ n ≤ 64, n ≤ 40 ∨ 48 ≤ n → wordAt (f s).mem (p + n) = wordAt s.mem (p + n) :=
    fun n hn hslot => hf.wordAt_eq (by omega) (by omega) (by omega)
  have hgs : wordAt (f s).mem p = wordAt s.mem p := hword 0 (by simp) (by simp)
  simp [regsAt, hword, hgs]

/-- The `iret` of a stub, to the same level. -/
theorem iret_inner {r : Regs} (hr : regsAt s.mem p = r) (hesp : s.esp.toNat = p + 56)
    (hlt : p + 68 < 2 ^ 32) (hrpl : rpl r.cs.toUInt16 ≤ s.cpl) :
    iret env s =
      { s with eip := r.eip, cs := r.cs.toUInt16, eflags := r.eflags, esp := s.esp + 12 } := by
  have haddr : ∀ n ≤ 64, (p + n) % 4294967296 = p + n := fun n hn => Nat.mod_eq_of_lt (by omega)
  subst hr
  simp only [regsAt] at hrpl
  simp [regsAt, iret, hesp, Nat.add_assoc, haddr, Nat.not_lt.2 hrpl]

/-- And to an outer one. -/
theorem iret_outer {r : Regs} (hr : regsAt s.mem p = r) (hesp : s.esp.toNat = p + 56)
    (hlt : p + 76 < 2 ^ 32) (hrpl : s.cpl < rpl r.cs.toUInt16) :
    iret env s =
      { s with
        eip := r.eip
        cs := r.cs.toUInt16
        eflags := r.eflags
        esp := wordAt s.mem (p + 68)
        ss := (wordAt s.mem (p + 72)).toUInt16
        ds := checked env (rpl r.cs.toUInt16) s.ds
        es := checked env (rpl r.cs.toUInt16) s.es
        fs := checked env (rpl r.cs.toUInt16) s.fs
        gs := checked env (rpl r.cs.toUInt16) s.gs } := by
  have haddr : ∀ n ≤ 72, (p + n) % 4294967296 = p + n := fun n hn => Nat.mod_eq_of_lt (by omega)
  subst hr
  simp only [regsAt] at hrpl
  simp [regsAt, iret, hesp, Nat.add_assoc, haddr, hrpl]

theorem toUInt16_toUInt32 (v : UInt16) : v.toUInt32.toUInt16 = v := by simp

/-- The registers of `s` popped from the stack of `t`, with the `eax` of a `struct regs`
at `p`. -/
def popped (s t : State) (p : ℕ) : State :=
  { s with
    eax := (regsAt t.mem p).eax
    esp := t.esp + 60
    eip := t.eip
    eflags := t.eflags
    cs := t.cs
    ss := t.ss
    mem := t.mem }

theorem run_handled (f : State → State) {e v : UInt32} (hw : error ++ pushed = [e, v])
    (hroom : 80 ≤ (entryStack tss s).toNat)
    (hf : Returns f (handled env tss g error pushed s) (frameAddr tss s)
      (entryStack tss s).toNat) :
    run env (stub pushed f) (interrupt tss g error s) =
      iret env (popped s (f (handled env tss g error pushed s)) (frameAddr tss s)) := by
  have houter := length_outerWords_le s
  have hlt := (entryStack tss s).toNat_lt
  have haddr : frameAddr tss s + 68 ≤ (entryStack tss s).toNat := by
    rw [frameAddr]
    omega
  have hframe := hf.regsAt_eq haddr
  rw [regsAt_handled hw hroom] at hframe
  have hesp : (f (handled env tss g error pushed s)).esp.toNat = frameAddr tss s - 4 := by
    rw [hf.esp, (handled_eq hw hroom).1]
  have hptr : frameAddr tss s - 4 + 4 = frameAddr tss s := by
    rw [frameAddr]
    omega
  have hrun : run env (stub pushed f) (interrupt tss g error s) =
      run env restoreRegisters (f (handled env tss g error pushed s)) := by
    rw [stub, run_append, run_append]
    rfl
  rw [hrun, run_restoreRegisters (by omega), hesp, hptr, hframe]
  simp only [programFrame, frame, toUInt16_segWord, popped]

theorem iret_popped {e v : UInt32} (hroom : 80 ≤ (entryStack tss s).toNat)
    (hesp : t.esp.toNat = frameAddr tss s - 4) (hcs : rpl t.cs = 0) (hss : t.ss = entrySegment tss s)
    (hframe : regsAt t.mem (frameAddr tss s) =
      { programFrame env s (frameAddr tss s) e v with eax := (regsAt t.mem (frameAddr tss s)).eax })
    (houter : s.cpl ≠ 0 → wordAt t.mem (frameAddr tss s + 68) = s.esp ∧
      wordAt t.mem (frameAddr tss s + 72) = s.ss.toUInt32)
    (hkeeps : s.cpl = 0 ∨ ∀ r : SegReg, keeps env s.cpl (r.get s)) :
    iret env (popped s t (frameAddr tss s)) =
      { s with eax := (regsAt t.mem (frameAddr tss s)).eax, mem := t.mem } := by
  have hlength := length_outerWords_le s
  have hlt := (entryStack tss s).toNat_lt
  have htop : (popped s t (frameAddr tss s)).esp.toNat = frameAddr tss s + 56 := by
    have h := toNat_add_ofNat (x := t.esp) (n := 60) (by rw [hesp, frameAddr]; omega)
    refine h.trans ?_
    rw [hesp, frameAddr]
    omega
  have hcpl : (popped s t (frameAddr tss s)).cpl = 0 := hcs
  have hpopped : regsAt (popped s t (frameAddr tss s)).mem (frameAddr tss s) =
      { programFrame env s (frameAddr tss s) e v with eax := (regsAt t.mem (frameAddr tss s)).eax } :=
    hframe
  have hsaved : s.cs.toUInt32.toUInt16 = s.cs := toUInt16_toUInt32 s.cs
  by_cases hzero : s.cpl = 0
  · have hentry : entryStack tss s = s.esp := if_pos hzero
    have haddr : frameAddr tss s + 68 = s.esp.toNat := by
      rw [hentry] at hroom
      simp only [frameAddr, outerWords, hentry, hzero, if_true, List.length_nil]
      omega
    have hsp := s.esp.toNat_lt
    have hback : t.esp + 60 + 12 = s.esp := by
      refine UInt32.toNat_inj.1 ((toNat_add_ofNat (n := 12) ?_).trans ?_)
      · exact (congrArg (· + 12) htop).trans_lt (by omega)
      · exact (congrArg (· + 12) htop).trans (by omega)
    rw [iret_inner hpopped htop (by omega)]
    · simp only [programFrame, frame, popped, hss, entrySegment, hzero, if_true, hsaved, hback]
    · simp only [programFrame, frame, hsaved]
      exact hzero.le.trans (Nat.zero_le _)
  · have htwo : frameAddr tss s + 76 = (entryStack tss s).toNat := by
      simp only [frameAddr, outerWords, hzero, if_false, List.length_cons, List.length_nil]
      omega
    have hchecked : ∀ r : SegReg, checked env (rpl s.cs) (r.get s) = r.get s := fun r =>
      if_pos (hkeeps.resolve_left hzero r)
    have hds := hchecked .ds
    have hes := hchecked .es
    have hfs := hchecked .fs
    have hgs := hchecked .gs
    simp only [SegReg.get] at hds hes hfs hgs
    obtain ⟨hsp, hsegment⟩ := houter hzero
    rw [iret_outer hpopped htop (by omega)]
    · simp only [programFrame, frame, popped, hsaved, hsp, hsegment, toUInt16_toUInt32, hds, hes,
        hfs, hgs]
    · simp only [programFrame, frame, hsaved]
      exact hcpl.trans_lt (Nat.pos_of_ne_zero hzero)

/-- The program goes on where it was, with the `eax` that the handler left in the frame. -/
theorem run_stub (f : State → State) {e v : UInt32} (hw : error ++ pushed = [e, v])
    (hroom : 80 ≤ (entryStack tss s).toNat) (hg : rpl (UInt16.ofNat g.selector) = 0)
    (hkeeps : s.cpl = 0 ∨ ∀ r : SegReg, keeps env s.cpl (r.get s))
    (hf : Returns f (handled env tss g error pushed s) (frameAddr tss s)
      (entryStack tss s).toNat) :
    run env (stub pushed f) (interrupt tss g error s) =
      { s with
        eax := (regsAt (f (handled env tss g error pushed s)).mem (frameAddr tss s)).eax
        mem := (f (handled env tss g error pushed s)).mem } := by
  have houter := length_outerWords_le s
  have hlt := (entryStack tss s).toNat_lt
  have haddr : frameAddr tss s + 68 ≤ (entryStack tss s).toNat := by
    rw [frameAddr]
    omega
  have hframe := hf.regsAt_eq haddr
  rw [regsAt_handled hw hroom] at hframe
  obtain ⟨hesp, hcs, hss, -⟩ := handled_eq (g := g) hw hroom
  rw [run_handled f hw hroom hf]
  refine iret_popped hroom (by rw [hf.esp, hesp]) (by rw [hf.cs, hcs, hg]) (by rw [hf.ss, hss])
    hframe (fun hzero => ?_) hkeeps
  obtain ⟨hsp, hsegment⟩ := outer_handled (g := g) hw hroom hzero
  have htwo : frameAddr tss s + 76 = (entryStack tss s).toNat := by
    simp only [frameAddr, outerWords, hzero, if_false, List.length_cons, List.length_nil]
    omega
  rw [hf.wordAt_eq (by omega) (by omega) (by omega),
    hf.wordAt_eq (by omega) (by omega) (by omega)]
  exact ⟨hsp, hsegment⟩

/-- An interrupt is invisible to the program it interrupts, but for `eax` and what the
handler does to memory; and the handler sees the program's registers. -/
theorem stub_restores (f : State → State) {e v : UInt32} (hw : error ++ pushed = [e, v])
    (hroom : 80 ≤ (entryStack tss s).toNat) (hg : rpl (UInt16.ofNat g.selector) = 0)
    (hkeeps : s.cpl = 0 ∨ ∀ r : SegReg, keeps env s.cpl (r.get s))
    (hf : Returns f (handled env tss g error pushed s) (frameAddr tss s)
      (entryStack tss s).toNat) :
    regsAt (handled env tss g error pushed s).mem (frameAddr tss s) =
        programFrame env s (frameAddr tss s) e v ∧
      run env (stub pushed f) (interrupt tss g error s) =
        { s with
          eax := (regsAt (f (handled env tss g error pushed s)).mem (frameAddr tss s)).eax
          mem := (f (handled env tss g error pushed s)).mem } :=
  ⟨regsAt_handled hw hroom, run_stub f hw hroom hg hkeeps hf⟩

/-- A program in ring 3. -/
def program : State where
  eax := 3
  ecx := 0
  edx := 0
  ebx := 0
  esp := 0x8000
  ebp := 0
  esi := 0
  edi := 0
  eip := 0x4000
  eflags := 0x202
  cs := 0x1b
  ss := 0x23
  ds := 0x23
  es := 0x23
  fs := 0
  gs := 0
  mem := fun _ => 0

/-- The descriptors of `gdt.c`, by selector. -/
def flatEnv : Env where
  junk := fun _ => 0
  dpl := fun selector => if selector.toNat < 0x18 then 0 else 3

/-- A handler that leaves nothing in the registers a C function need not keep. -/
def clobber (t : State) : State := { t with eax := 7, ecx := 7, edx := 7 }

theorem returns_clobber (s : State) (p q : ℕ) : Returns clobber s p q :=
  ⟨rfl, rfl, rfl, fun _ _ _ _ => rfl⟩

theorem stub_restores_small :
    run flatEnv (stub (irqPushed 0) clobber)
        (interrupt ⟨0x1000, 0x10⟩ ⟨0, 0x08, 0x8E⟩ [] program) =
      { program with
        mem := (clobber (handled flatEnv ⟨0x1000, 0x10⟩ ⟨0, 0x08, 0x8E⟩ [] (irqPushed 0)
          program)).mem } := by
  have hw : [] ++ irqPushed 0 = [0, 0] := rfl
  have hroom : 80 ≤ (entryStack ⟨0x1000, 0x10⟩ program).toNat := by decide
  have hkeeps : program.cpl = 0 ∨ ∀ r : SegReg, keeps flatEnv program.cpl (r.get program) :=
    Or.inr fun r => by cases r <;> rfl
  have hf : Returns clobber (handled flatEnv ⟨0x1000, 0x10⟩ ⟨0, 0x08, 0x8E⟩ [] (irqPushed 0)
      program) (frameAddr ⟨0x1000, 0x10⟩ program) (entryStack ⟨0x1000, 0x10⟩ program).toNat :=
    returns_clobber _ _ _
  have h := stub_restores clobber hw hroom rfl hkeeps hf
  have heax : (regsAt (clobber (handled flatEnv ⟨0x1000, 0x10⟩ ⟨0, 0x08, 0x8E⟩ [] (irqPushed 0)
      program)).mem (frameAddr ⟨0x1000, 0x10⟩ program)).eax = program.eax :=
    congrArg Regs.eax h.1
  rw [h.2, heax]

/-! ## Exceptions -/

/-- The exceptions for which the processor pushes an error code. -/
def errorCodes : List ℕ := [8, 10, 11, 12, 13, 14, 17, 21, 29, 30]

def errorWords (v : ℕ) (code : UInt32) : List UInt32 := if v ∈ errorCodes then [code] else []

/-- The handler's argument and the `struct regs` it points to. -/
theorem regsAt_entry {outer : List UInt32} {fl c ip e v : UInt32}
    (hw : entryWords s (error ++ pushed) = outer ++ [fl, c, ip, e, v])
    (hp : p + 4 * (outer.length + 17) = (entryStack tss s).toNat) (h : 4 ≤ p) :
    (handled env tss g error pushed s).top.toNat = p ∧
      regsAt (handled env tss g error pushed s).mem p = frame env s p fl c ip e v := by
  have hlt := (entryStack tss s).toNat_lt
  have hlen : (outer ++ (frame env s p fl c ip e v).words.reverse ++ [UInt32.ofNat p]).length =
      outer.length + 18 := by
    simp only [List.length_append, List.length_reverse]
    rfl
  have hmod : ∀ n ≤ p, (UInt32.ofNat n).toNat = n := fun n hn => by
    rw [UInt32.toNat_ofNat', Nat.mod_eq_of_lt (by omega)]
  rw [handled, run_entry hw hp h]
  constructor
  · have htop := wordAt_pushWords (m := s.mem) (p := (entryStack tss s).toNat) (i := 0)
      (outer ++ (frame env s p fl c ip e v).words.reverse ++ [UInt32.ofNat p])
      (by omega) (by omega)
    rw [hlen, show (entryStack tss s).toNat - 4 * (outer.length + 18) + 4 * 0 = p - 4 by omega,
      List.reverse_append] at htop
    rw [State.top, hmod _ (Nat.sub_le p 4), Option.some.inj htop, hmod p le_rfl]
  · have hframe := regsAt_pushWords (m := s.mem) (P := (entryStack tss s).toNat) outer
      [UInt32.ofNat p] (frame env s p fl c ip e v) (by simp only [List.length_singleton]; omega)
    rwa [show (entryStack tss s).toNat - 4 * (outer.length + 17) = p by omega] at hframe

/-- `exception_handler` sees the program's registers and the error code, but for exceptions
21 and 29: their stubs take them to have no error code, so everything that the processor
pushed is one word off. -/
theorem regsAt_exception (env : Env) (tss : Tss) (g : Gate) (s : State) (v : ℕ) (code : UInt32)
    (hroom : 84 ≤ (entryStack tss s).toNat) :
    let t := handled env tss g (errorWords v code) (isrPushed v) s
    regsAt t.mem t.top.toNat =
      if v = 21 ∨ v = 29 then
        frame env s t.top.toNat s.cs.toUInt32 s.eip code 0 (UInt32.ofNat v)
      else programFrame env s t.top.toNat (if v ∈ errorCodes then code else 0) (UInt32.ofNat v) := by
  have houter := length_outerWords_le s
  by_cases hoff : v = 21 ∨ v = 29
  · have hwords : errorWords v code ++ isrPushed v = [code, 0, UInt32.ofNat v] := by
      rcases hoff with rfl | rfl <;> rfl
    have hw : entryWords s (errorWords v code ++ isrPushed v) =
        (outerWords s ++ [s.eflags]) ++ [s.cs.toUInt32, s.eip, code, 0, UInt32.ofNat v] := by
      rw [entryWords, hwords, List.append_assoc]
      rfl
    obtain ⟨htop, hframe⟩ := regsAt_entry (g := g) hw
      (p := (entryStack tss s).toNat - 4 * ((outerWords s ++ [s.eflags]).length + 17))
      (Nat.sub_add_cancel (by simp only [List.length_append, List.length_singleton]; omega))
      (by simp only [List.length_append, List.length_singleton]; omega)
    simp only [if_pos hoff]
    rw [htop, hframe]
  · have hwords : errorWords v code ++ isrPushed v =
        [if v ∈ errorCodes then code else 0, UInt32.ofNat v] := by
      rw [errorWords, isrPushed]
      have hiff : v ∈ errorCodes ↔ v ∈ errStubs := by
        simp [errorCodes, errStubs]
        omega
      by_cases hmem : v ∈ errorCodes
      · rw [if_pos hmem, if_pos (hiff.1 hmem), if_pos hmem]
        rfl
      · rw [if_neg hmem, if_neg (fun h => hmem (hiff.2 h)), if_neg hmem]
        rfl
    have hroom : 80 ≤ (entryStack tss s).toNat := by omega
    obtain ⟨htop, hframe⟩ := regsAt_entry (g := g) (entryWords_eq hwords s)
      (frameAddr_add hroom) (le_frameAddr hroom)
    simp only [if_neg hoff]
    rw [htop, hframe]
    rfl

/-- In a VMM communication exception with error code 5 of the program, the handler finds
this code in place of `eip`. -/
theorem regsAt_exception_small :
    let t := handled flatEnv ⟨0x1000, 0x10⟩ ⟨0, 0x08, 0x8E⟩ (errorWords 29 5) (isrPushed 29)
      program
    (regsAt t.mem t.top.toNat).eip = 5 ∧ (regsAt t.mem t.top.toNat).cs = program.eip := by
  have h := regsAt_exception flatEnv ⟨0x1000, 0x10⟩ ⟨0, 0x08, 0x8E⟩ program 29 5 (by decide)
  simp only [h]
  exact ⟨rfl, rfl⟩

end Cpu

end Yotos
