import Yotos.Irq.Basic
import Yotos.Library.Latest
import Yotos.Library.Packed
import Mathlib.Data.List.Induction

/-!
# Which lines reach the processor

The two mask registers are a packed set of the masked lines. Installing a handler takes
its line out of the set and uninstalling puts it back, so the set and the table follow
the last call for each line. A line of the second controller also has to pass line 2 of
the first one, which no call for the line itself touches.
-/

namespace Yotos

namespace Irq

open Library

/-- The two mask registers. -/
def masks (s : Irq) : ℕ → BitVec 8
  | 0 => s.master.mask
  | 1 => s.slave.mask
  | _ => 0

/-- Interrupts of the line can reach the processor: its mask bit is clear, and so is the
one of line 2 for a line of the second controller. -/
def CanReach (s : Irq) (line : ℕ) : Prop :=
  Packed.member (masks s) line = false ∧
    (8 ≤ line → Packed.member (masks s) 2 = false)

/-- Both controllers are initialized. -/
def Ready (s : Irq) : Prop := s.master.pending = [] ∧ s.slave.pending = []

/-- The line of a call and the handler it installs. -/
def Call.entry : Call → ℕ × Option UInt32
  | install irq handler => (irq.toNat, some handler)
  | uninstall irq => (irq.toNat, none)

/-- The last call for the line installs `handler`. -/
def LastInstalls (calls : List Call) (line : ℕ) (handler : UInt32) : Prop :=
  latest (calls.map Call.entry) line = some (some handler)

/-- A call that installs `NULL` for the line leaves it cut off, and one that installs a
handler finds line 2 open where the line needs it. -/
def OpensWith (calls : List Call) (line : ℕ) : Prop :=
  ∀ handler, LastInstalls calls line handler →
    (handler ≠ 0 ↔ line < 8 ∨ ∃ cascade, LastInstalls calls 2 cascade)

variable {s : Irq} {irq : UInt8} {line : ℕ}

/-! ### The registers -/

theorem picRemap_eq (offset1 offset2 : BitVec 8) (s : Irq) :
    picRemap offset1 offset2 s =
      { handlers := s.handlers
        master := ⟨0xFF, offset1, 4, 1, []⟩
        slave := ⟨0xFF, offset2, 2, 1, []⟩ } := by
  rfl

theorem masks_handlers (s : Irq) (handlers : ℕ → UInt32) :
    masks { s with handlers := handlers } = masks s := by
  funext i
  rcases i with _ | _ | i <;> rfl

theorem Pic.data_of_ready {p : Pic} (h : p.pending = []) (value : BitVec 8) :
    p.data value = { p with mask := value } := by
  cases p
  obtain rfl := h
  rfl

theorem outb_master (h : Ready s) (value : BitVec 8) :
    outb pic1Data value s = { s with master := { s.master with mask := value } } := by
  rw [outb, if_neg (by decide), if_pos rfl, Pic.data_of_ready h.1]

theorem outb_slave (h : Ready s) (value : BitVec 8) :
    outb pic2Data value s = { s with slave := { s.slave with mask := value } } := by
  rw [outb, if_neg (by decide), if_neg (by decide), if_neg (by decide), if_pos rfl,
    Pic.data_of_ready h.2]

theorem lt_eight_iff (irq : UInt8) : irq < 8 ↔ irq.toNat < 8 := UInt8.lt_iff_toNat_lt

theorem lt_sixteen_iff (irq : UInt8) : irq < 16 ↔ irq.toNat < 16 := UInt8.lt_iff_toNat_lt

theorem toNat_sub_eight (h : ¬ irq < 8) : (irq - 8).toNat = irq.toNat - 8 := by
  rw [UInt8.toNat_sub_of_le]
  · rfl
  · exact UInt8.not_lt.1 h

/-- Rewriting the register of a line. -/
theorem masks_outb (h : Ready s) (hirq : irq < 16) (f : BitVec 8 → ℕ → BitVec 8) {s' : Irq}
    (hs' : s' = if irq < 8 then outb pic1Data (f (inb pic1Data s) irq.toNat) s
      else if irq < 16 then outb pic2Data (f (inb pic2Data s) (irq - 8).toNat) s else s) :
    s'.handlers = s.handlers ∧ Ready s' ∧
      masks s' = Function.update (masks s) (irq.toNat / 8)
        (f (masks s (irq.toNat / 8)) (irq.toNat % 8)) := by
  have hlt := (lt_sixteen_iff irq).1 hirq
  by_cases hlow : irq < 8
  · have hnat := (lt_eight_iff irq).1 hlow
    rw [if_pos hlow, outb_master h] at hs'
    rw [hs', show irq.toNat / 8 = 0 by omega, show irq.toNat % 8 = irq.toNat by omega]
    refine ⟨rfl, h, ?_⟩
    funext i
    rcases i with _ | _ | i <;> simp [masks, Function.update, inb]
  · have hnat : ¬ irq.toNat < 8 := fun hlt' => hlow ((lt_eight_iff irq).2 hlt')
    rw [if_neg hlow, if_pos hirq, outb_slave h, toNat_sub_eight hlow] at hs'
    rw [hs', show irq.toNat / 8 = 1 by omega, show irq.toNat % 8 = irq.toNat - 8 by omega]
    refine ⟨rfl, h, ?_⟩
    funext i
    rcases i with _ | _ | i <;> simp [masks, Function.update, inb, pic1Data, pic2Data]

/-- Masking a line puts it into the set. -/
theorem irqSetMask_spec (h : Ready s) (hirq : irq < 16) :
    (irqSetMask irq s).handlers = s.handlers ∧ Ready (irqSetMask irq s) ∧
      masks (irqSetMask irq s) = Packed.insert (masks s) irq.toNat :=
  masks_outb h hirq (fun mask j => mask ||| 1#8 <<< j) rfl

/-- Unmasking a line takes it out of the set. -/
theorem irqClearMask_spec (h : Ready s) (hirq : irq < 16) :
    (irqClearMask irq s).handlers = s.handlers ∧ Ready (irqClearMask irq s) ∧
      masks (irqClearMask irq s) = Packed.erase (masks s) irq.toNat :=
  masks_outb h hirq (fun mask j => mask &&& ~~~(1#8 <<< j)) rfl

/-! ### A sequence of calls -/

/-- The table and the masks after a sequence of calls. -/
structure Follows (calls : List Call) (s : Irq) : Prop where
  ready : Ready s
  handler : ∀ line < 16,
    s.handlers line = ((latest (calls.map Call.entry) line).join).getD 0
  mask : ∀ line < 16,
    Packed.member (masks s) line = false ↔ ∃ handler, LastInstalls calls line handler

theorem latest_entry_append (calls : List Call) (call : Call) (line : ℕ) :
    latest ((calls ++ [call]).map Call.entry) line =
      if call.entry.1 = line then some call.entry.2
      else latest (calls.map Call.entry) line := by
  rw [List.map_append, latest_append, List.map_singleton]
  by_cases h : call.entry.1 = line
  · rw [if_pos h, ← h, latest_singleton_self]
    rfl
  · rw [if_neg h, latest_singleton_of_ne h, Option.none_or]

/-- What one call does to the lines. -/
theorem Call.apply_spec (h : Ready s) (call : Call) :
    Ready (call.apply s) ∧ ∀ line < 16,
      (call.apply s).handlers line =
          (if call.entry.1 = line then call.entry.2.getD 0 else s.handlers line) ∧
        Packed.member (masks (call.apply s)) line =
          if call.entry.1 = line then call.entry.2.isNone else Packed.member (masks s) line := by
  have hhigh : ∀ {irq : UInt8}, 16 ≤ irq → ∀ line < 16, irq.toNat ≠ line := by
    intro irq hge line hline heq
    have := UInt8.le_iff_toNat_le.1 hge
    change 16 ≤ irq.toNat at this
    omega
  cases call with
  | install irq handler =>
      by_cases hge : 16 ≤ irq
      · rw [Call.apply, irqInstallHandler, if_pos hge]
        refine ⟨h, fun line hline => ?_⟩
        simp [Call.entry, hhigh hge line hline]
      · obtain ⟨htable, hready, hmasks⟩ := irqClearMask_spec
          (s := { s with handlers := fun j => if j = irq.toNat then handler else s.handlers j })
          h (UInt8.not_le.1 hge)
        rw [Call.apply, irqInstallHandler, if_neg hge]
        refine ⟨hready, fun line hline => ?_⟩
        rw [htable, hmasks, Packed.member_erase (by decide)]
        by_cases hline' : irq.toNat = line
        · simp [Call.entry, hline']
        · simp [Call.entry, hline', Ne.symm hline', masks_handlers]
  | uninstall irq =>
      by_cases hge : 16 ≤ irq
      · rw [Call.apply, irqUninstallHandler, if_pos hge]
        refine ⟨h, fun line hline => ?_⟩
        simp [Call.entry, hhigh hge line hline]
      · obtain ⟨htable, hready, hmasks⟩ := irqSetMask_spec
          (s := { s with handlers := fun j => if j = irq.toNat then 0 else s.handlers j })
          h (UInt8.not_le.1 hge)
        rw [Call.apply, irqUninstallHandler, if_neg hge]
        refine ⟨hready, fun line hline => ?_⟩
        rw [htable, hmasks, Packed.member_insert (by decide)]
        by_cases hline' : irq.toNat = line
        · simp [Call.entry, hline']
        · simp [Call.entry, hline', Ne.symm hline', masks_handlers]

theorem Follows.step {calls : List Call} (h : Follows calls s) (call : Call) :
    Follows (calls ++ [call]) (call.apply s) := by
  obtain ⟨hready, hlines⟩ := Call.apply_spec h.ready call
  refine ⟨hready, fun line hline => ?_, fun line hline => ?_⟩
  · rw [(hlines line hline).1, latest_entry_append, h.handler line hline]
    split_ifs <;> rfl
  · simp only [(hlines line hline).2, LastInstalls, latest_entry_append]
    by_cases hentry : call.entry.1 = line
    · rw [if_pos hentry, if_pos hentry]
      cases call.entry.2 <;> simp
    · rw [if_neg hentry, if_neg hentry]
      exact h.mask line hline

theorem follows_afterCalls (master slave : Pic) (calls : List Call) :
    Follows calls (afterCalls master slave calls) := by
  induction calls using List.reverseRecOn with
  | nil =>
      rw [afterCalls, List.foldl_nil, picRemap_eq]
      refine ⟨⟨rfl, rfl⟩, fun line _ => rfl, fun line hline => ?_⟩
      simp only [LastInstalls, List.map_nil, latest_nil]
      have hmasked : ∀ line < 16, Packed.member (masks
          ⟨fun _ => 0, ⟨0xFF, 0x20, 4, 1, []⟩, ⟨0xFF, 0x28, 2, 1, []⟩⟩) line = true := by
        decide
      refine iff_of_false (fun hclear => ?_) (by simp)
      exact absurd (hclear.symm.trans (hmasked line hline)) (by decide)
  | append_singleton calls call ih =>
      rw [afterCalls, List.foldl_append]
      exact ih.step call

/-- In every state, an interrupt line can reach the processor exactly when it has a
handler, if and only if the calls so far open it properly. -/
theorem canReach_iff_handler (master slave : Pic) (calls : List Call) (irq : UInt8)
    (hirq : irq < 16) :
    (CanReach (afterCalls master slave calls) irq.toNat ↔
        (afterCalls master slave calls).handlers irq.toNat ≠ 0) ↔
      OpensWith calls irq.toNat := by
  have h := follows_afterCalls master slave calls
  have hlt := (lt_sixteen_iff irq).1 hirq
  rw [CanReach, h.mask _ hlt, h.mask 2 (by decide), h.handler _ hlt, OpensWith]
  cases hlast : latest (calls.map Call.entry) irq.toNat with
  | none => simp [LastInstalls, hlast]
  | some entry =>
      cases entry with
      | none => simp [LastInstalls, hlast]
      | some handler =>
          have hlow : 8 ≤ irq.toNat ↔ ¬ irq.toNat < 8 := Nat.not_lt.symm
          simp only [LastInstalls, hlast, Option.some.injEq, exists_eq', true_and, forall_eq',
            Option.join_some, Option.getD_some]
          rw [hlow, ← or_iff_not_imp_left]
          exact iff_comm

/-! ### Line 12 -/

/-- A controller out of reset. -/
def resetPic : Pic := ⟨0, 0, 0, 0, []⟩

/-- With line 2 opened first, line 12 reaches the processor. -/
theorem canReach_behind_cascade :
    CanReach (afterCalls resetPic resetPic [.install 2 1, .install 12 5]) 12 ↔
      (afterCalls resetPic resetPic [.install 2 1, .install 12 5]).handlers 12 ≠ 0 := by
  refine (canReach_iff_handler resetPic resetPic [.install 2 1, .install 12 5] 12
    (by decide)).2 fun handler hlast => ?_
  obtain rfl : 5 = handler := Option.some.inj (Option.some.inj hlast)
  exact iff_of_true (by decide) (Or.inr ⟨1, rfl⟩)

/-- The handler of line 12 alone is never called. -/
theorem not_canReach_iff_handler :
    ¬ ∀ (master slave : Pic) (calls : List Call) (irq : UInt8), irq < 16 → irq ≠ 2 →
      (CanReach (afterCalls master slave calls) irq.toNat ↔
        (afterCalls master slave calls).handlers irq.toNat ≠ 0) := by
  intro h
  have hreach := (h resetPic resetPic [.install 12 5] 12 (by decide) (by decide)).2 (by decide)
  exact absurd (hreach.2 (by decide)) (by decide)

end Irq

end Yotos
