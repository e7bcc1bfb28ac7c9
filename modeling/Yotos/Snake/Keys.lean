import Yotos.Snake.Basic
import Mathlib.Data.List.Basic

/-!
# Keys and directions

A direction is one of the four unit vectors. A key that asks for a direction is accepted
when it lies across the direction that the snake has, so what the keys of a tick do is a
fold over the directions they ask for.
-/

namespace Yotos

namespace Snake

/-- The direction as a vector. -/
def heading (s : Snake) : Pt := ⟨s.dx, s.dy⟩

def withHeading (s : Snake) (v : Pt) : Snake := { s with dx := v.x, dy := v.y }

/-- The direction that a key asks for. -/
def asked (key : UInt8) : Option Pt :=
  if key = 'w'.toUInt8 ∨ key = 'W'.toUInt8 then some ⟨0, -1⟩
  else if key = 's'.toUInt8 ∨ key = 'S'.toUInt8 then some ⟨0, 1⟩
  else if key = 'a'.toUInt8 ∨ key = 'A'.toUInt8 then some ⟨-1, 0⟩
  else if key = 'd'.toUInt8 ∨ key = 'D'.toUInt8 then some ⟨1, 0⟩
  else none

/-- The keys up to the first `0`. -/
def waiting (keys : List UInt8) : List UInt8 := keys.takeWhile (· ≠ 0)

/-- The directions that the keys of a tick ask for. -/
def moves (keys : List UInt8) : List Pt := (waiting keys).filterMap asked

/-- The keys of a tick end the program. -/
def Quits (keys : List UInt8) : Prop :=
  'q'.toUInt8 ∈ waiting keys ∨ 'Q'.toUInt8 ∈ waiting keys

instance (keys : List UInt8) : Decidable (Quits keys) := inferInstanceAs (Decidable (_ ∨ _))

/-- One of the four directions. -/
def IsDir (v : Pt) : Prop := v.x = 0 ∧ (v.y = 1 ∨ v.y = -1) ∨ v.y = 0 ∧ (v.x = 1 ∨ v.x = -1)

/-- One of the two is vertical and the other horizontal. -/
def Across (e v : Pt) : Prop := e.x = 0 ∧ v.y = 0 ∨ e.y = 0 ∧ v.x = 0

instance (e v : Pt) : Decidable (Across e v) := inferInstanceAs (Decidable (_ ∨ _))

/-- The direction after `e` is asked for. -/
def steer (v e : Pt) : Pt := if Across e v then e else v

variable {s d : Snake} {keys : List UInt8} {key : UInt8} {v e : Pt} {es : List Pt}

@[simp] theorem heading_withHeading (s : Snake) (v : Pt) : heading (withHeading s v) = v := rfl

@[simp] theorem withHeading_heading (s : Snake) : withHeading s (heading s) = s := rfl

@[simp] theorem withHeading_withHeading (s : Snake) (v e : Pt) :
    withHeading (withHeading s v) e = withHeading s e := rfl

theorem isDir_of_asked (h : asked key = some e) : IsDir e := by
  unfold asked at h
  split_ifs at h <;> obtain rfl := Option.some.inj h <;> simp [IsDir]

theorem isDir_of_mem_moves (h : e ∈ moves keys) : IsDir e := by
  obtain ⟨key, -, hkey⟩ := List.mem_filterMap.1 h
  exact isDir_of_asked hkey

/-- A key that asks for no direction changes nothing, any other steers. -/
theorem turn_eq (key : UInt8) (s : Snake) :
    turn key s = (asked key).elim s fun e => withHeading s (steer (heading s) e) := by
  by_cases hw : key = 'w'.toUInt8 ∨ key = 'W'.toUInt8
  · have hs : ¬ (key = 's'.toUInt8 ∨ key = 'S'.toUInt8) := by rcases hw with rfl | rfl <;> decide
    have ha : ¬ (key = 'a'.toUInt8 ∨ key = 'A'.toUInt8) := by rcases hw with rfl | rfl <;> decide
    have hd : ¬ (key = 'd'.toUInt8 ∨ key = 'D'.toUInt8) := by rcases hw with rfl | rfl <;> decide
    by_cases hy : s.dy = 0 <;>
      simp [turn, asked, hw, hs, ha, hd, hy, steer, Across, heading, withHeading]
  by_cases hs : key = 's'.toUInt8 ∨ key = 'S'.toUInt8
  · have ha : ¬ (key = 'a'.toUInt8 ∨ key = 'A'.toUInt8) := by rcases hs with rfl | rfl <;> decide
    have hd : ¬ (key = 'd'.toUInt8 ∨ key = 'D'.toUInt8) := by rcases hs with rfl | rfl <;> decide
    by_cases hy : s.dy = 0 <;>
      simp [turn, asked, hw, hs, ha, hd, hy, steer, Across, heading, withHeading]
  by_cases ha : key = 'a'.toUInt8 ∨ key = 'A'.toUInt8
  · have hd : ¬ (key = 'd'.toUInt8 ∨ key = 'D'.toUInt8) := by rcases ha with rfl | rfl <;> decide
    by_cases hx : s.dx = 0 <;>
      simp [turn, asked, hw, hs, ha, hd, hx, steer, Across, heading, withHeading]
  by_cases hd : key = 'd'.toUInt8 ∨ key = 'D'.toUInt8
  · by_cases hx : s.dx = 0 <;>
      simp [turn, asked, hw, hs, ha, hd, hx, steer, Across, heading, withHeading]
  · simp [turn, asked, hw, hs, ha, hd]

/-- The keys of a tick that does not quit change the direction only, by a fold over the
directions they ask for. -/
theorem drain_eq_some : drain keys s = some d ↔
    ¬ Quits keys ∧ d = withHeading s ((moves keys).foldl steer (heading s)) := by
  induction keys generalizing s with
  | nil => simp [drain, Quits, waiting, moves, eq_comm]
  | cons key keys ih =>
      rw [drain]
      by_cases hzero : key = 0
      · simp [hzero, Quits, waiting, moves, eq_comm]
      · by_cases hquit : key = 'q'.toUInt8 ∨ key = 'Q'.toUInt8
        · have hquits : Quits (key :: keys) := by
            rcases hquit with rfl | rfl <;> simp [Quits, waiting, hzero]
          simp [hzero, hquit, hquits]
        · rw [if_neg hzero, if_neg hquit, ih, turn_eq]
          have hquits : Quits (key :: keys) ↔ Quits keys := by
            rw [not_or] at hquit
            simp [Quits, waiting, hzero, Ne.symm hquit.1, Ne.symm hquit.2]
          rw [hquits]
          cases hkey : asked key <;> simp [moves, waiting, hzero, hkey]

theorem drain_eq_none : drain keys s = none ↔ Quits keys := by
  rw [Option.eq_none_iff_forall_ne_some]
  simp [drain_eq_some]

theorem IsDir.steer (hv : IsDir v) (he : IsDir e) : IsDir (steer v e) := by
  unfold Snake.steer
  split_ifs
  · exact he
  · exact hv

/-- A direction is taken unless it is opposite. -/
theorem IsDir.steer_eq (hv : IsDir v) (he : IsDir e) (hne : ¬ (v.x + e.x = 0 ∧ v.y + e.y = 0)) :
    Snake.steer v e = e := by
  obtain ⟨x, y⟩ := v
  obtain ⟨x', y'⟩ := e
  unfold Snake.steer
  split_ifs with hacross
  · rfl
  · simp only [IsDir, Across, Pt.mk.injEq] at *
    omega

theorem IsDir.foldl_steer (hv : IsDir v) (hes : ∀ e ∈ es, IsDir e) :
    IsDir (es.foldl Snake.steer v) := by
  induction es generalizing v with
  | nil => exact hv
  | cons e es ih =>
      rw [List.forall_mem_cons] at hes
      exact ih (hv.steer hes.1) hes.2

/-- After the keys the snake still has one of the four directions. -/
theorem IsDir.drain (hs : IsDir (heading s)) (hd : drain keys s = some d) :
    IsDir (heading d) := by
  obtain ⟨-, rfl⟩ := drain_eq_some.1 hd
  exact hs.foldl_steer fun e he => isDir_of_mem_moves he

end Snake

end Yotos
