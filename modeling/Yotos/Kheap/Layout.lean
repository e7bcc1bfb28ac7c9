import Yotos.Kheap.Basic

/-!
# The heap as a list of blocks

`Layout m stop p a bs` says that the bytes from `a` on hold the blocks `bs` one
after the other, ending at `stop`: the header of each block carries its size and
flag, its `next` link is the address right behind its payload (`0` for the last
block), and its `prev` link is the header before it (`p` for the first one).

The three elementary updates of the allocator are described here on that list:
changing a flag, splitting a block, and merging a block into the one before it.
`kmalloc` and `kfree` are composed of them in `Kheap/Refinement.lean`.
-/

namespace Yotos

namespace Kheap

open Bytes

/-- A block as the allocator sees it: the payload size and the free flag. -/
structure Block where
  size : ℕ
  free : Bool
  deriving DecidableEq

/-- The bytes a list of blocks takes, headers included. -/
def total : List Block → ℕ
  | [] => 0
  | b :: bs => headerSize + b.size + total bs

@[simp] theorem total_nil : total [] = 0 := rfl

@[simp] theorem total_cons (b : Block) (bs : List Block) :
    total (b :: bs) = 16 + b.size + total bs := rfl

@[simp] theorem total_append (xs ys : List Block) : total (xs ++ ys) = total xs + total ys := by
  induction xs with
  | nil => simp
  | cons b xs ih => simp [ih, Nat.add_assoc]

/-- The header after the block that ends at `a`: none behind the last block. -/
def link (stop a : ℕ) : ℕ := if a = stop then 0 else a

theorem link_of_lt {stop a : ℕ} (h : a < stop) : link stop a = a := by
  simp [link, h.ne]

@[simp] theorem link_self (stop : ℕ) : link stop stop = 0 := by
  simp [link]

/-- The header at `a` describes the block `b`, placed behind the header `p`. -/
structure Header (m : Bytes) (stop p a : ℕ) (b : Block) : Prop where
  size : size m a = b.size
  isFree : isFree m a = b.free
  next : next m a = link stop (a + 16 + b.size)
  prev : prev m a = p

/-- The headers of the blocks `bs`, laid out from `a` on behind the header `p`. -/
def Layout (m : Bytes) (stop : ℕ) : (p a : ℕ) → List Block → Prop
  | _, _, [] => True
  | p, a, b :: bs => Header m stop p a b ∧ Layout m stop a (a + 16 + b.size) bs

/-- The last header of a layout that starts at `a` behind `p`. -/
def lastHeader : (p a : ℕ) → List Block → ℕ
  | p, _, [] => p
  | _, a, b :: bs => lastHeader a (a + 16 + b.size) bs

@[simp] theorem lastHeader_nil (p a : ℕ) : lastHeader p a [] = p := rfl

theorem lastHeader_append_singleton (p a : ℕ) (xs : List Block) (b : Block) :
    lastHeader p a (xs ++ [b]) = a + total xs := by
  induction xs generalizing p a with
  | nil => simp [lastHeader]
  | cons c xs ih =>
      rw [List.cons_append, lastHeader, ih, total_cons]
      omega

/-- A layout splits at any block. -/
theorem layout_append {m : Bytes} {stop : ℕ} (p a : ℕ) (xs ys : List Block) :
    Layout m stop p a (xs ++ ys) ↔
      Layout m stop p a xs ∧ Layout m stop (lastHeader p a xs) (a + total xs) ys := by
  induction xs generalizing p a with
  | nil => simp [Layout]
  | cons b xs ih =>
      have haddr : a + 16 + b.size + total xs = a + total (b :: xs) := by
        rw [total_cons]
        omega
      rw [List.cons_append, Layout, Layout, ih, lastHeader, haddr, and_assoc]

/-! ### Frames -/

theorem Header.frame {m m' : Bytes} {stop p a : ℕ} {b : Block} (h : Header m stop p a b)
    (hm : ∀ x, a ≤ x → x < a + 16 → m' x = m x) : Header m' stop p a b where
  size := (load32_congr fun x hx hx' => hm x (by omega) (by omega)).trans h.size
  isFree := by
    rw [← h.isFree, Kheap.isFree, Kheap.isFree, hm (a + 4) (by omega) (by omega)]
  next := (load32_congr fun x hx hx' => hm x (by omega) (by omega)).trans h.next
  prev := (load32_congr fun x hx hx' => hm x (by omega) (by omega)).trans h.prev

/-- A layout survives any change outside the bytes it covers. -/
theorem Layout.frame {m m' : Bytes} {stop p a : ℕ} {bs : List Block}
    (h : Layout m stop p a bs) (hm : ∀ x, a ≤ x → x < a + total bs → m' x = m x) :
    Layout m' stop p a bs := by
  induction bs generalizing p a with
  | nil => trivial
  | cons b bs ih =>
      rw [total_cons] at hm
      refine ⟨h.1.frame fun x hx hx' => hm x hx (by omega), ih h.2 ?_⟩
      intro x hx hx'
      exact hm x (by omega) (by omega)

/-! ### The header after a layout's end

Every update that moves a block boundary also redirects the `prev` link of the
header that follows. -/

/-- Redirect the `prev` link of the header at `link stop a`, if there is one. -/
def setPrevAt (m : Bytes) (stop a q : ℕ) : Bytes :=
  if link stop a ≠ 0 then setPrev m (link stop a) q else m

theorem setPrevAt_apply (m : Bytes) {stop a q x : ℕ} (h : x < a + 12 ∨ a + 16 ≤ x) :
    setPrevAt m stop a q x = m x := by
  unfold setPrevAt
  by_cases hstop : a = stop
  · simp [hstop]
  · have hlink : link stop a = a := by simp [link, hstop]
    rw [hlink]
    split
    · exact store32_of_apart _ _ (by omega)
    · rfl

/-- Redirecting the first `prev` link puts the same blocks behind another header. -/
theorem Layout.setPrevAt {m : Bytes} {stop p a q : ℕ} {bs : List Block} (ha : 0 < a)
    (hq : q < 2 ^ 32) (hstop : a + total bs = stop) (h : Layout m stop p a bs) :
    Layout (setPrevAt m stop a q) stop q a bs := by
  cases bs with
  | nil => trivial
  | cons b bs =>
      have hlt : a < stop := by
        rw [total_cons] at hstop
        omega
      have hset : Kheap.setPrevAt m stop a q = setPrev m a q := by
        rw [Kheap.setPrevAt, link_of_lt hlt, if_pos (by omega)]
      have hout : ∀ x, x < a + 12 ∨ a + 16 ≤ x → setPrev m a q x = m x := fun x hx =>
        store32_of_apart _ _ (by omega)
      rw [hset]
      refine ⟨⟨?_, ?_, ?_, ?_⟩, h.2.frame fun x hx _ => hout x (by omega)⟩
      · exact (load32_congr fun x hx hx' => hout x (by omega)).trans h.1.size
      · rw [← h.1.isFree, Kheap.isFree, Kheap.isFree, hout _ (by omega)]
      · exact (load32_congr fun x hx hx' => hout x (by omega)).trans h.1.next
      · exact load32_store32_of_lt _ _ hq

end Kheap

end Yotos
