import Yotos.Shell.Input
import Yotos.Terminal.Line

/-!
# The line on the screen

The shell echoes the keys one by one and never looks at the screen. Still, from a prompt on
to the next enter key, the screen shows the characters in the array, and these are what
the command is made of.
-/

namespace Yotos

namespace Shell

open Bytes Library Terminal

/-- The screen after the characters of some outputs. -/
def shown (t : Terminal) (outputs : List Output) : Terminal :=
  outputs.foldl (fun t o => match o with
    | .terminalPutchar c => terminalPutchar t c
    | _ => t) t

/-- A key other than enter. -/
def Edits (k : Keystroke UInt8 Bool) : Prop :=
  k = .rubout ∨ ∃ c, c ≠ 0x0A ∧ c ≠ 0x08 ∧ k = .char c

variable {leave : Execution → Bytes → Bytes} {s : Line} {t t₀ : Terminal} {line : List UInt8}
  {k : Keystroke UInt8 Bool} {keys : List (Keystroke UInt8 Bool)} {polls : List (UInt8 × UInt8)}

theorem edits_polled {p : UInt8 × UInt8} (h : polled p = some k) (henter : ∀ d, k ≠ .enter d) :
    Edits k := by
  have hchar : ∀ c d, k = keystroke c d → Edits k := by
    rintro c d rfl
    rw [keystroke] at henter ⊢
    split_ifs at henter ⊢ with hnewline hrubout
    · exact absurd rfl (henter d)
    · exact Or.inl rfl
    · exact Or.inr ⟨c, hnewline, hrubout, rfl⟩
  rw [polled] at h
  split_ifs at h
  · exact hchar _ _ (Option.some.inj h).symm
  · exact hchar _ _ (Option.some.inj h).symm

/-- The echo of one key. -/
theorem showsText_echo (h : ShowsText t₀ t line) (hlen : line.length ≤ inputSize - 1)
    (hk : Edits k) :
    ShowsText t₀ (shown t (echo line k)) (stroke (inputSize - 1) line k) := by
  rcases hk with rfl | ⟨c, hnewline, hbackspace, rfl⟩
  · rw [echo, stroke]
    rcases List.eq_nil_or_concat' line with rfl | ⟨front, last, rfl⟩
    · exact h
    · rw [if_neg (by simp), List.dropLast_concat]
      exact h.backspace
  · rw [echo, stroke]
    split_ifs with hroom
    · exact h.putchar (hroom.trans (by decide)) hnewline hbackspace
    · exact h

theorem showsText_echoAll (h : ShowsText t₀ t line) (hlen : line.length ≤ inputSize - 1)
    (hkeys : ∀ k ∈ keys, Edits k) :
    ShowsText t₀ (shown t (echoAll line keys)) (strokes (inputSize - 1) line keys) := by
  induction keys generalizing t line with
  | nil => exact h
  | cons k keys ih =>
      have hfirst := showsText_echo h hlen (hkeys k (List.mem_cons_self ..))
      have hrest := ih hfirst (length_stroke_le hlen k) fun x hx =>
        hkeys x (List.mem_cons_of_mem k hx)
      rw [echoAll, shown, List.foldl_append]
      exact hrest

/-- From a prompt on, for all keys before the next enter key and wherever the cursor is: the
screen shows the characters in the array, and the enter key calls the command that they
make. -/
theorem showsText_shellTurns (hleave : KeepsToArray leave) (hprompt : s.i = 0)
    (hrow : t.row < vgaHeight) (hcolumn : t.column < vgaWidth)
    (hpolls : ∀ k ∈ polls.filterMap polled, ∀ device, k ≠ .enter device) :
    ∃ s' outputs, shellTurns leave polls s = some (s', outputs) ∧
      ShowsText t (shown t outputs) (bytesAt s'.input 0 s'.i) ∧
      ∀ device, ∃ s'', shellChar leave 0x0A { s' with fromUart := device } = some (s'',
        [.terminalPutchar 0x0A, .execute device (meaning (bytesAt s'.input 0 s'.i)), .prompt]) := by
  have hstart : Typed s [] := ⟨hprompt, Nat.zero_le _, rfl, List.not_mem_nil⟩
  obtain ⟨s', hrun, htyped, -⟩ := hstart.shellTurns hleave polls
  have hkeys : ∀ k ∈ polls.filterMap polled, Edits k := by
    intro k hk
    obtain ⟨p, -, hp⟩ := List.mem_filterMap.1 hk
    exact edits_polled hp (hpolls k hk)
  have hbytes : bytesAt s'.input 0 s'.i =
      strokes (inputSize - 1) [] (polls.filterMap polled) := by
    rw [htyped.i_eq]
    exact htyped.bytes
  refine ⟨s', _, hrun, ?_, fun device => ?_⟩
  · rw [hbytes]
    exact showsText_echoAll (ShowsText.refl hrow hcolumn) (Nat.zero_le _) hkeys
  · obtain ⟨s'', henter, -⟩ := (htyped.fromUart device).shellChar hleave (c := 0x0A) (by decide)
    refine ⟨s'', henter.trans ?_⟩
    rw [hbytes]
    rfl

/-- `ab` and a rubout behind the last prompt of a full screen: the `a` is in the last cell,
and the screen was scrolled. -/
theorem showsText_shellTurns_corner : ∃ s' outputs,
    shellTurns (fun _ m => m) [(0x61, 0), (0x62, 0), (0, 0x08)] ⟨fun _ => 0, 0, false⟩ =
        some (s', outputs) ∧
      ShowsText ⟨24, 79, 7, fun _ => 0, []⟩ (shown ⟨24, 79, 7, fun _ => 0, []⟩ outputs) [0x61] := by
  have hleave : KeepsToArray fun _ m => m := fun _ _ _ _ => rfl
  have hpolls : ∀ k ∈ [(0x61, 0), (0x62, 0), (0, 0x08)].filterMap polled,
      ∀ device, k ≠ .enter device := by
    decide
  obtain ⟨s', outputs, hrun, hshows, -⟩ := showsText_shellTurns hleave
    (s := ⟨fun _ => 0, 0, false⟩) (t := ⟨24, 79, 7, fun _ => 0, []⟩) rfl (by decide) (by decide)
    hpolls
  have hvalue : (shellTurns (fun _ m => m) [(0x61, 0), (0x62, 0), (0, 0x08)]
      ⟨fun _ => 0, 0, false⟩).map (fun r => bytesAt r.1.input 0 r.1.i) = some [0x61] := by
    decide
  rw [hrun, Option.map_some, Option.some.injEq] at hvalue
  rw [hvalue] at hshows
  exact ⟨s', outputs, hrun, hshows⟩

end Shell

end Yotos
