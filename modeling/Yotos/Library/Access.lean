import Mathlib.Data.List.Induction
import Mathlib.Tactic.TypeStar

/-!
# Accesses to a paged memory

A trace of accesses in order: a page is mapped, which forgets what was written there, or
a value is written at an address. `visible` is the value that the trace leaves at an
address: that of the last write since its page was last mapped.
-/

namespace Yotos

namespace Library

variable {ν π β : Type*}

inductive Access (ν β : Type*)
  | map (v : ν)
  | write (v : ν) (x : β)
  deriving DecidableEq

namespace Access

/-- The addresses mapped, in order. -/
def mapped (ds : List (Access ν β)) : List ν :=
  ds.filterMap fun
    | map v => some v
    | write _ _ => none

@[simp] theorem mapped_nil : mapped ([] : List (Access ν β)) = [] := rfl

@[simp] theorem mapped_append (ds es : List (Access ν β)) :
    mapped (ds ++ es) = mapped ds ++ mapped es :=
  List.filterMap_append

@[simp] theorem mapped_map (vs : List ν) : mapped (vs.map (map : ν → Access ν β)) = vs := by
  rw [mapped, List.filterMap_map]
  exact List.filterMap_some

@[simp] theorem mapped_singleton (v : ν) : mapped [(map v : Access ν β)] = [v] := rfl

@[simp] theorem mapped_write {ι : Type*} (is : List ι) (v : ι → ν) (x : ι → β) :
    mapped (is.map fun i => (write (v i) (x i) : Access ν β)) = [] := by
  rw [mapped, List.filterMap_map]
  exact List.filterMap_eq_nil_iff.2 fun _ _ => rfl

theorem mem_mapped {ds : List (Access ν β)} {v : ν} : v ∈ mapped ds ↔ map v ∈ ds := by
  rw [mapped, List.mem_filterMap]
  constructor
  · rintro ⟨a, ha, heq⟩
    cases a with
    | map w =>
        obtain rfl := Option.some.inj heq
        exact ha
    | write w x => cases heq
  · exact fun h => ⟨_, h, rfl⟩

section Visible

variable [DecidableEq ν] [DecidableEq π] (page : ν → π)

/-- What is seen at `v` after one access. -/
def see (v : ν) (old : Option β) : Access ν β → Option β
  | map w => if page w = page v then none else old
  | write w x => if w = v then some x else old

def visible (ds : List (Access ν β)) (v : ν) : Option β := ds.foldl (see page v) none

variable {page} {ds es : List (Access ν β)} {v w : ν} {x : β}

theorem visible_map (ds : List (Access ν β)) (v w : ν) :
    visible page (ds ++ [map w]) v = if page w = page v then none else visible page ds v := by
  rw [visible, List.foldl_append]
  rfl

theorem visible_write (ds : List (Access ν β)) (v w : ν) (x : β) :
    visible page (ds ++ [write w x]) v = if w = v then some x else visible page ds v := by
  rw [visible, List.foldl_append]
  rfl

/-- Accesses elsewhere do not matter. -/
theorem visible_append_of_apart (hmap : ∀ w, map w ∈ es → page w ≠ page v)
    (hwrite : ∀ x, write v x ∉ es) : visible page (ds ++ es) v = visible page ds v := by
  induction es using List.reverseRecOn with
  | nil => rw [List.append_nil]
  | append_singleton es a ih =>
      have hrest := ih (fun w hw => hmap w (List.mem_append_left _ hw))
        fun x hx => hwrite x (List.mem_append_left _ hx)
      rw [← List.append_assoc]
      cases a with
      | map w => rw [visible_map, if_neg (hmap w (by simp)), hrest]
      | write w x =>
          have hne : w ≠ v := by
            rintro rfl
            exact hwrite x (by simp)
          rw [visible_write, if_neg hne, hrest]

/-- The last write of a trace, when the page is not mapped again. -/
theorem visible_of_write (hmap : ∀ w, map w ∈ es → page w ≠ page v)
    (hwrite : ∀ x, write v x ∉ es) : visible page (ds ++ write v x :: es) v = some x := by
  rw [show ds ++ write v x :: es = ds ++ [write v x] ++ es by simp,
    visible_append_of_apart hmap hwrite, visible_write, if_pos rfl]

/-- Nothing is seen of a page that was mapped and not written since. -/
theorem visible_of_map (hpage : page w = page v) (hwrite : ∀ x, write v x ∉ es) :
    visible page (ds ++ map w :: es) v = none := by
  induction es using List.reverseRecOn with
  | nil => rw [visible_map, if_pos hpage]
  | append_singleton es a ih =>
      have hrest := ih fun x hx => hwrite x (List.mem_append_left _ hx)
      rw [show ds ++ map w :: (es ++ [a]) = ds ++ map w :: es ++ [a] by simp]
      cases a with
      | map u =>
          rw [visible_map, hrest]
          split_ifs <;> rfl
      | write u x =>
          have hne : u ≠ v := by
            rintro rfl
            exact hwrite x (by simp)
          rw [visible_write, if_neg hne, hrest]

theorem write_mem_of_visible (h : visible page ds v = some x) : write v x ∈ ds := by
  induction ds using List.reverseRecOn with
  | nil => cases h
  | append_singleton ds a ih =>
      cases a with
      | map w =>
          rw [visible_map] at h
          split_ifs at h
          exact List.mem_append_left _ (ih h)
      | write w y =>
          rw [visible_write] at h
          split_ifs at h with heq
          · obtain rfl := Option.some.inj h
            rw [heq]
            simp
          · exact List.mem_append_left _ (ih h)

end Visible

end Access

end Library

end Yotos
