import Mathlib.Logic.Relation

/-!
# Trees given by a parent relation

`R p q` says that `p` is the parent of `q`. With no parent of the root and at most one
parent of every other node, what can be reached from the root is a tree: the way up from
a node ends at the root, and no node is below itself.
-/

namespace Yotos

namespace Library

open Relation

/-- A parent relation in which the way up is unique. -/
structure Parents {α : Type*} (R : α → α → Prop) (root : α) : Prop where
  root : ∀ p, ¬ R p root
  unique : ∀ p p' q, R p q → R p' q → p = p'

variable {α : Type*} {R : α → α → Prop} {root p q : α}

/-- A node above `q` is above its parent, or is the parent. -/
theorem Parents.above_parent (h : Parents R root) (hp : R p q) {x : α} (hx : TransGen R x q) :
    ReflTransGen R x p := by
  obtain ⟨p', hreach, hp'⟩ := TransGen.tail'_iff.1 hx
  rwa [h.unique p p' q hp hp']

/-- No node of the tree is below itself. -/
theorem Parents.acyclic (h : Parents R root) (hq : ReflTransGen R root q) :
    ¬ TransGen R q q := by
  induction hq with
  | refl =>
      intro hcycle
      obtain ⟨p, -, hp⟩ := TransGen.tail'_iff.1 hcycle
      exact h.root p hp
  | tail _ hp ih =>
      intro hcycle
      exact ih (TransGen.head' hp (h.above_parent hp hcycle))

end Library

end Yotos
