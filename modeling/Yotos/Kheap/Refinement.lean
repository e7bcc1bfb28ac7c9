import Yotos.Kheap.Update

/-!
# `kmalloc` and `kfree` on the list of blocks

`Represents m start bs` says that the heap bytes hold exactly the blocks `bs` and
that they fill the fixed size of the heap. On such a heap `kmalloc` takes the first
free block that is large enough and splits it when a byte is left beside the new
header, and `kfree` marks its block free and merges it with its free neighbours.
Both leave every byte of every other used payload alone.
-/

namespace Yotos

namespace Kheap

open Bytes

/-- The heap at `start` holds the blocks `bs` and nothing else. -/
structure Represents (m : Bytes) (start : ℕ) (bs : List Block) : Prop where
  layout : Layout m (start + kheapFixedSize) 0 start bs
  total : total bs = kheapFixedSize

/-- The heap lies above address 0 and its end is a 32-bit address, as it has to be for
the page loop of `kheap_init` to map any page. -/
structure Placed (start : ℕ) : Prop where
  pos : 0 < start
  fits : start + kheapFixedSize < 2 ^ 32

/-- `At a bs q c`: with `bs` laid out from `a` on, the payload of the block `c`
starts at `q`. -/
def At : (a : ℕ) → List Block → (q : ℕ) → Block → Prop
  | _, [], _, _ => False
  | a, b :: bs, q, c => (q = a + 16 ∧ c = b) ∨ At (a + 16 + b.size) bs q c

theorem at_append {a q : ℕ} {xs ys : List Block} {c : Block} :
    At a (xs ++ ys) q c ↔ At a xs q c ∨ At (a + total xs) ys q c := by
  induction xs generalizing a with
  | nil => simp [At]
  | cons b xs ih =>
      have haddr : a + 16 + b.size + total xs = a + total (b :: xs) := by
        rw [total_cons]
        omega
      rw [List.cons_append, At, At, ih, haddr, or_assoc]

theorem at_middle (a : ℕ) (xs ys : List Block) (c : Block) :
    At a (xs ++ c :: ys) (a + total xs + 16) c := by
  rw [at_append]
  exact Or.inr (Or.inl ⟨rfl, rfl⟩)

theorem At.bounds {a q : ℕ} {bs : List Block} {c : Block} (h : At a bs q c) :
    a + 16 ≤ q ∧ q + c.size ≤ a + total bs := by
  induction bs generalizing a with
  | nil => exact h.elim
  | cons b bs ih =>
      rw [total_cons]
      rcases h with ⟨rfl, rfl⟩ | h
      · omega
      · have hb := ih h
        omega

theorem At.exists_split {a q : ℕ} {bs : List Block} {c : Block} (h : At a bs q c) :
    ∃ xs ys, bs = xs ++ c :: ys ∧ q = a + total xs + 16 := by
  induction bs generalizing a with
  | nil => exact h.elim
  | cons b bs ih =>
      rcases h with ⟨rfl, rfl⟩ | h
      · exact ⟨[], bs, rfl, rfl⟩
      · obtain ⟨xs, ys, rfl, hq⟩ := ih h
        refine ⟨b :: xs, ys, rfl, ?_⟩
        rw [hq, total_cons]
        omega

/-- Two blocks of one heap are the same block or do not overlap, headers included. -/
theorem At.apart {a q r : ℕ} {bs : List Block} {c d : Block} (hc : At a bs q c)
    (hd : At a bs r d) :
    (q = r ∧ c = d) ∨ q + c.size + 16 ≤ r ∨ r + d.size + 16 ≤ q := by
  induction bs generalizing a with
  | nil => exact hc.elim
  | cons b bs ih =>
      rcases hc with ⟨rfl, rfl⟩ | hc <;> rcases hd with ⟨rfl, rfl⟩ | hd
      · exact Or.inl ⟨rfl, rfl⟩
      · have hb := hd.bounds
        omega
      · have hb := hc.bounds
        omega
      · exact ih hc hd

/-! ### `kmalloc` -/

/-- The test of the `kmalloc` loop. -/
def Fits (n : ℕ) (b : Block) : Prop := b.free = true ∧ n ≤ b.size

instance (n : ℕ) (b : Block) : Decidable (Fits n b) :=
  inferInstanceAs (Decidable (_ ∧ _))

/-- What `kmalloc` makes of the block it takes. -/
def carve (b : Block) (n : ℕ) : List Block :=
  if n + 17 ≤ b.size then [⟨n, false⟩, ⟨b.size - n - 16, true⟩] else [⟨b.size, false⟩]

theorem total_carve (b : Block) (n : ℕ) : total (carve b n) = 16 + b.size := by
  unfold carve
  split
  · simp only [total_cons, total_nil]
    omega
  · simp only [total_cons, total_nil]
    omega

/-- The stores of `kmalloc` into the block it takes at `h`. -/
def take (m : Bytes) (h n : ℕ) : Bytes :=
  setIsFree (if (n + headerSize + 1) % 2 ^ 32 ≤ size m h then splitBlock m h n else m) h 0

/-- The walk stops at the first block that fits, or at the end of the heap. -/
theorem kmallocLoop_eq {m : Bytes} {stop p a : ℕ} {bs : List Block} (n fuel : ℕ)
    (ha : 0 < a) (hstop : stop < 2 ^ 32) (htotal : a + total bs = stop)
    (hfuel : bs.length < fuel) (h : Layout m stop p a bs) :
    ((∀ b ∈ bs, ¬ Fits n b) ∧ kmallocLoop n fuel (link stop a) m = some (0, m)) ∨
      ∃ xs b ys, bs = xs ++ b :: ys ∧ (∀ c ∈ xs, ¬ Fits n c) ∧ Fits n b ∧
        kmallocLoop n fuel (link stop a) m =
          some (a + total xs + 16, take m (a + total xs) n) := by
  induction bs generalizing p a fuel with
  | nil =>
      obtain ⟨fuel, rfl⟩ := Nat.exists_eq_add_of_lt hfuel
      left
      have hlink : link stop a = 0 := by
        rw [total_nil, Nat.add_zero] at htotal
        rw [htotal, link_self]
      refine ⟨by simp, ?_⟩
      rw [hlink, kmallocLoop, if_pos rfl]
  | cons b bs ih =>
      cases fuel with
      | zero => exact absurd hfuel (Nat.not_lt_zero _)
      | succ fuel =>
          have htotal' := htotal
          rw [total_cons] at htotal'
          have hlink : link stop a = a := link_of_lt (by omega)
          rw [hlink, kmallocLoop, if_neg (by omega)]
          by_cases hfit : Fits n b
          · right
            refine ⟨[], b, bs, rfl, by simp, hfit, ?_⟩
            have hcond : isFree m a = true ∧ n ≤ size m a := by
              rw [h.1.isFree, h.1.size]
              exact hfit
            have haddr : (a + headerSize) % 2 ^ 32 = a + 16 :=
              Nat.mod_eq_of_lt (by unfold headerSize; omega)
            rw [if_pos hcond, haddr]
            rfl
          · have hcond : ¬ (isFree m a = true ∧ n ≤ size m a) := by
              rw [h.1.isFree, h.1.size]
              exact hfit
            rw [if_neg hcond, h.1.next]
            rcases ih fuel (by omega) (by omega) (by simpa using hfuel) h.2 with
              ⟨hnone, heq⟩ | ⟨xs, c, ys, rfl, hxs, hc, heq⟩
            · left
              refine ⟨?_, heq⟩
              intro c hc
              rcases List.mem_cons.1 hc with rfl | hc
              · exact hfit
              · exact hnone c hc
            · right
              have haddr : a + 16 + b.size + total xs = a + total (b :: xs) := by
                rw [total_cons]
                omega
              rw [haddr] at heq
              refine ⟨b :: xs, c, ys, rfl, ?_, hc, heq⟩
              intro d hd
              rcases List.mem_cons.1 hd with rfl | hd
              · exact hfit
              · exact hxs d hd

theorem length_le_total (bs : List Block) : 16 * bs.length ≤ total bs := by
  induction bs with
  | nil => simp
  | cons b bs ih =>
      rw [List.length_cons, total_cons]
      omega

/-- The block taken is carved, and only its own bytes and the header behind it are
written. -/
theorem Layout.take {m : Bytes} {stop p a n : ℕ} {xs ys : List Block} {b : Block}
    (ha : 0 < a) (hstop : stop < 2 ^ 32) (htotal : a + total (xs ++ b :: ys) = stop)
    (hfit : Fits n b) (h : Layout m stop p a (xs ++ b :: ys)) :
    Layout (take m (a + total xs) n) stop p a (xs ++ (carve b n ++ ys)) ∧
      ∀ x, (x < a + total xs ∨ a + total xs + 32 + b.size ≤ x) →
        take m (a + total xs) n x = m x := by
  obtain ⟨-, hn⟩ := hfit
  have hb := ((layout_append _ _ _ _).1 h).2.1
  have htail : a + total xs + total (b :: ys) = stop := by
    rw [total_append] at htotal
    omega
  have hbound := htail
  rw [total_cons] at hbound
  have hmod : (n + headerSize + 1) % 2 ^ 32 = n + 17 := by
    unfold headerSize
    omega
  unfold Kheap.take
  rw [hb.size, hmod]
  unfold carve
  by_cases hsplit : n + 17 ≤ b.size
  · rw [if_pos hsplit, if_pos hsplit]
    refine ⟨Layout.setIsFree 0 (h.splitBlock ha hstop.le htotal hsplit), ?_⟩
    intro x hx
    rw [setIsFree_apply _ _ (by omega)]
    exact splitBlock_apply hsplit hstop.le htail hb (by omega) (by omega) (by omega)
  · rw [if_neg hsplit, if_neg hsplit]
    refine ⟨Layout.setIsFree 0 h, ?_⟩
    intro x hx
    exact setIsFree_apply _ _ (by omega)

/-- `kmalloc` on a represented heap: `NULL` with nothing changed when no free block is
large enough, and otherwise the payload of the first one that is. -/
theorem kmalloc_spec {m : Bytes} {start : ℕ} {bs : List Block} (n : ℕ)
    (hp : Placed start) (h : Represents m start bs) :
    ((∀ b ∈ bs, ¬ Fits n b) ∧ kmalloc start n m = some (0, m)) ∨
      ∃ xs b ys m', bs = xs ++ b :: ys ∧ (∀ c ∈ xs, ¬ Fits n c) ∧ Fits n b ∧
        kmalloc start n m = some (start + total xs + 16, m') ∧
        Represents m' start (xs ++ (carve b n ++ ys)) ∧
        ∀ x, (x < start + total xs ∨ start + total xs + 32 + b.size ≤ x) → m' x = m x := by
  have hlen := length_le_total bs
  have htotal : start + total bs = start + kheapFixedSize := by rw [h.total]
  have hfuel : bs.length < kheapWalkFuel := by
    rw [h.total] at hlen
    unfold kheapWalkFuel kheapFixedSize headerSize at *
    omega
  have hlink : link (start + kheapFixedSize) start = start :=
    link_of_lt (by unfold kheapFixedSize; omega)
  have hloop := kmallocLoop_eq n kheapWalkFuel hp.pos hp.fits htotal hfuel h.layout
  rw [hlink] at hloop
  rcases hloop with hnone | ⟨xs, b, ys, rfl, hxs, hfit, heq⟩
  · exact Or.inl hnone
  · right
    obtain ⟨hlayout, hout⟩ := h.layout.take hp.pos hp.fits htotal hfit
    refine ⟨xs, b, ys, _, rfl, hxs, hfit, heq, ⟨hlayout, ?_⟩, hout⟩
    rw [← h.total]
    simp only [total_append, total_cons, total_carve]

/-! ### `kfree` -/

/-- The blocks after the freed one has absorbed a free right neighbour. -/
def joinNext (b : Block) : List Block → List Block
  | [] => [b]
  | c :: ys => if c.free then ⟨b.size + 16 + c.size, b.free⟩ :: ys else b :: c :: ys

@[simp] theorem joinNext_nil (b : Block) : joinNext b [] = [b] := rfl

theorem joinNext_of_free {b c : Block} {ys : List Block} (h : c.free = true) :
    joinNext b (c :: ys) = ⟨b.size + 16 + c.size, b.free⟩ :: ys := by
  simp [joinNext, h]

theorem joinNext_of_used {b c : Block} {ys : List Block} (h : c.free = false) :
    joinNext b (c :: ys) = b :: c :: ys := by
  simp [joinNext, h]

theorem total_joinNext (b : Block) (ys : List Block) : total (joinNext b ys) = total (b :: ys) := by
  cases ys with
  | nil => rfl
  | cons c ys =>
      cases hfree : c.free with
      | false => rw [joinNext_of_used hfree]
      | true =>
          rw [joinNext_of_free hfree]
          simp only [total_cons]
          omega

theorem Layout.coalesceNext {m : Bytes} {stop p a : ℕ} {xs ys : List Block} {b : Block}
    (ha : 0 < a) (hstop : stop ≤ 2 ^ 32) (htotal : a + total (xs ++ b :: ys) = stop)
    (h : Layout m stop p a (xs ++ b :: ys)) :
    Layout (coalesceNext m (a + total xs)) stop p a (xs ++ joinNext b ys) ∧
      ∀ q c, At a (xs ++ b :: ys) q c → c.free = false → q ≠ a + total xs + 16 →
        ∀ x, q ≤ x → x < q + c.size → coalesceNext m (a + total xs) x = m x := by
  have hb := ((layout_append _ _ _ _).1 h).2.1
  have hys := ((layout_append _ _ _ _).1 h).2.2
  have hbound := htotal
  rw [total_append, total_cons] at hbound
  cases ys with
  | nil =>
      have hend : a + total xs + 16 + b.size = stop := by
        rw [total_nil] at hbound
        omega
      have heq : Kheap.coalesceNext m (a + total xs) = m := by
        rw [Kheap.coalesceNext, hb.next, hend, link_self, if_neg (by simp)]
      rw [heq]
      exact ⟨h, fun _ _ _ _ _ _ _ _ => rfl⟩
  | cons c ys =>
      rw [total_cons] at hbound
      have hlink : link stop (a + total xs + 16 + b.size) = a + total xs + 16 + b.size :=
        link_of_lt (by omega)
      have hnext : next m (a + total xs) = a + total xs + 16 + b.size := hb.next.trans hlink
      cases hfree : c.free with
      | false =>
          have heq : Kheap.coalesceNext m (a + total xs) = m := by
            rw [Kheap.coalesceNext, hnext, hys.1.isFree, hfree, if_neg (by simp)]
          rw [heq, joinNext_of_used hfree]
          exact ⟨h, fun _ _ _ _ _ _ _ _ => rfl⟩
      | true =>
          have hsize : (b.size + (headerSize + c.size)) % 2 ^ 32 = b.size + 16 + c.size := by
            unfold headerSize
            omega
          have heq : Kheap.coalesceNext m (a + total xs) =
              Kheap.mergeInto m stop (a + total xs) (b.size + 16 + c.size)
                (a + total xs + 16 + b.size + 16 + c.size) := by
            -- the size store does not reach the links, the link store does not reach itself
            have hnext₁ : ∀ v, next (setSize m (a + total xs) v) (a + total xs) =
                a + total xs + 16 + b.size := fun v =>
              (next_congr fun x _ _ => setSize_apply _ _ (by omega)).trans hnext
            have hnext₂ : ∀ v, next (setSize m (a + total xs) v) (a + total xs + 16 + b.size) =
                link stop (a + total xs + 16 + b.size + 16 + c.size) := fun v =>
              (next_congr fun x _ _ => setSize_apply _ _ (by omega)).trans hys.1.next
            have hnext₃ : ∀ v, next (setNext (setSize m (a + total xs) v) (a + total xs)
                (link stop (a + total xs + 16 + b.size + 16 + c.size))) (a + total xs) =
                link stop (a + total xs + 16 + b.size + 16 + c.size) := fun v =>
              load32_store32_of_lt _ _ (by unfold link; split <;> omega)
            rw [Kheap.coalesceNext, if_pos ⟨by omega, by rw [hnext, hys.1.isFree, hfree]⟩]
            simp only [hnext, hb.size, hys.1.size, hsize, hnext₁, hnext₂, hnext₃]
            rfl
          rw [heq, joinNext_of_free hfree]
          refine ⟨h.mergeInto ha hstop htotal, ?_⟩
          intro q d hq hused hne x hx hx'
          apply mergeInto_apply
          · rcases (At.apart hq (at_middle a xs (c :: ys) b)) with ⟨rfl, -⟩ | hlt | hlt
            · exact absurd rfl hne
            · omega
            · omega
          · rw [at_append] at hq
            rcases hq with hq | ⟨rfl, -⟩ | ⟨rfl, rfl⟩ | hq
            · have hb' := hq.bounds
              omega
            · exact absurd rfl hne
            · rw [hfree] at hused
              exact absurd hused (by simp)
            · have hb' := hq.bounds
              omega

theorem Layout.coalescePrev {m : Bytes} {stop a : ℕ} {xs ys : List Block} {b d : Block}
    (ha : 0 < a) (hstop : stop ≤ 2 ^ 32) (htotal : a + total (xs ++ d :: b :: ys) = stop)
    (hfree : d.free = true) (h : Layout m stop 0 a (xs ++ d :: b :: ys)) :
    Layout (coalescePrev m (a + total (xs ++ [d]))) stop 0 a
        (xs ++ ⟨d.size + 16 + b.size, true⟩ :: ys) ∧
      ∀ q c, At a (xs ++ d :: b :: ys) q c → c.free = false →
        q ≠ a + total (xs ++ [d]) + 16 →
        ∀ x, q ≤ x → x < q + c.size → coalescePrev m (a + total (xs ++ [d])) x = m x := by
  have hd := ((layout_append _ _ _ _).1 h).2.1
  have hb := ((layout_append _ _ _ _).1 h).2.2.1
  have hbound := htotal
  simp only [total_append, total_cons] at hbound
  have haddr : a + total (xs ++ [d]) = a + total xs + 16 + d.size := by
    simp only [total_append, total_cons, total_nil]
    omega
  rw [haddr]
  have hsize : (d.size + (headerSize + b.size)) % 2 ^ 32 = d.size + 16 + b.size := by
    unfold headerSize
    omega
  have hlink : link stop (a + total xs + 16 + d.size + 16 + b.size) < 2 ^ 32 := by
    unfold link
    split <;> omega
  have heq : Kheap.coalescePrev m (a + total xs + 16 + d.size) =
      Kheap.mergeInto m stop (a + total xs) (d.size + 16 + b.size)
        (a + total xs + 16 + d.size + 16 + b.size) := by
    -- the stores go to the header of `d`, so the links of `b` are still the old ones
    have hprev₁ : ∀ v, prev (setSize m (a + total xs) v) (a + total xs + 16 + d.size) =
        a + total xs := fun v =>
      (prev_congr fun x _ _ => setSize_apply _ _ (by omega)).trans hb.prev
    have hnext₁ : ∀ v, next (setSize m (a + total xs) v) (a + total xs + 16 + d.size) =
        link stop (a + total xs + 16 + d.size + 16 + b.size) := fun v =>
      (next_congr fun x _ _ => setSize_apply _ _ (by omega)).trans hb.next
    have hprev₂ : ∀ v w, prev (setNext (setSize m (a + total xs) v) (a + total xs) w)
        (a + total xs + 16 + d.size) = a + total xs := fun v w =>
      (prev_congr fun x _ _ => setNext_apply _ _ (by omega)).trans (hprev₁ v)
    have hnext₂ : ∀ v w, next (setNext (setSize m (a + total xs) v) (a + total xs) w)
        (a + total xs + 16 + d.size) =
          link stop (a + total xs + 16 + d.size + 16 + b.size) := fun v w =>
      (next_congr fun x _ _ => setNext_apply _ _ (by omega)).trans (hnext₁ v)
    rw [Kheap.coalescePrev, if_pos ⟨by rw [hb.prev]; omega, by rw [hb.prev, hd.isFree, hfree]⟩]
    simp only [hb.prev, hd.size, hb.size, hsize, hprev₁, hnext₁, hprev₂, hnext₂]
    rfl
  rw [heq]
  refine ⟨hfree ▸ h.mergeInto ha hstop htotal, ?_⟩
  intro q c hq hused hne x hx hx'
  have hmid := at_middle a xs (b :: ys) d
  apply mergeInto_apply
  · rcases hq.apart hmid with ⟨-, rfl⟩ | hlt | hlt
    · rw [hfree] at hused
      exact absurd hused (by simp)
    · omega
    · omega
  · rw [at_append] at hq
    rcases hq with hq | ⟨rfl, rfl⟩ | ⟨rfl, -⟩ | hq
    · have hb' := hq.bounds
      omega
    · rw [hfree] at hused
      exact absurd hused (by simp)
    · omega
    · have hb' := hq.bounds
      omega

/-- Without a free left neighbour the second half of `kfree` does nothing. -/
theorem coalescePrev_of_not_free {m : Bytes} {stop a : ℕ} {xs ys : List Block} {b : Block}
    (h : Layout m stop 0 a (xs ++ b :: ys))
    (hfree : ∀ zs d, xs = zs ++ [d] → d.free = false) :
    coalescePrev m (a + total xs) = m := by
  have hb := ((layout_append _ _ _ _).1 h).2.1
  rw [coalescePrev]
  apply if_neg
  rw [hb.prev]
  rcases List.eq_nil_or_concat' xs with rfl | ⟨zs, d, rfl⟩
  · simp
  · have hd : isFree m (a + total zs) = false := by
      rw [List.append_assoc] at h
      rw [((layout_append _ _ _ _).1 h).2.1.isFree]
      exact hfree zs d rfl
    rw [lastHeader_append_singleton, hd]
    simp

/-- The blocks after `kfree`: the freed block takes in a free right neighbour, and is
taken in by a free left neighbour. -/
inductive Freed (b : Block) : (xs ys bs : List Block) → Prop
  | alone (xs ys : List Block) (hxs : ∀ zs d, xs = zs ++ [d] → d.free = false) :
      Freed b xs ys (xs ++ joinNext ⟨b.size, true⟩ ys)
  | joined (xs ys zs : List Block) (d e : Block) (hd : d.free = true)
      (he : joinNext ⟨b.size, true⟩ ys = e :: zs) :
      Freed b (xs ++ [d]) ys (xs ++ ⟨d.size + 16 + e.size, true⟩ :: zs)

theorem joinNext_eq_cons (b : Block) (ys : List Block) :
    ∃ e zs, joinNext b ys = e :: zs := by
  cases ys with
  | nil => exact ⟨b, [], rfl⟩
  | cons c ys =>
      cases hfree : c.free with
      | false => exact ⟨b, c :: ys, joinNext_of_used hfree⟩
      | true => exact ⟨_, ys, joinNext_of_free hfree⟩

/-- A used block other than the freed one is still there after the first half. -/
theorem At.joinNext {a q : ℕ} {ys : List Block} {b c : Block} (h : At a (b :: ys) q c)
    (hused : c.free = false) (hne : q ≠ a + 16) : At a (joinNext ⟨b.size, true⟩ ys) q c := by
  rcases h with ⟨hq, -⟩ | h
  · exact absurd hq hne
  · cases ys with
    | nil => exact h.elim
    | cons d ys =>
        cases hfree : d.free with
        | false =>
            rw [joinNext_of_used hfree]
            exact Or.inr h
        | true =>
            rw [joinNext_of_free hfree]
            rcases h with ⟨-, rfl⟩ | h
            · rw [hfree] at hused
              exact absurd hused (by simp)
            · right
              dsimp only
              rwa [show a + 16 + (b.size + 16 + d.size) = a + 16 + b.size + 16 + d.size by omega]

/-- `kfree` of a block of a represented heap. Every other used block stays where it is,
byte for byte. -/
theorem kfree_spec {m : Bytes} {start : ℕ} {xs ys : List Block} {b : Block}
    (hp : Placed start) (h : Represents m start (xs ++ b :: ys)) :
    ∃ bs, Freed b xs ys bs ∧
      Represents (kfree (start + total xs + 16) m) start bs ∧
      ∀ q c, At start (xs ++ b :: ys) q c → c.free = false → q ≠ start + total xs + 16 →
        At start bs q c ∧
          ∀ x, q ≤ x → x < q + c.size → kfree (start + total xs + 16) m x = m x := by
  have htotal : start + total (xs ++ b :: ys) = start + kheapFixedSize := by rw [h.total]
  have hbound := htotal
  rw [total_append, total_cons] at hbound
  have hpos := hp.pos
  have hfit := hp.fits
  have hheader : (2 ^ 32 - headerSize + (start + total xs + 16)) % 2 ^ 32 = start + total xs := by
    unfold headerSize
    omega
  have hkfree : kfree (start + total xs + 16) m =
      coalescePrev (coalesceNext (setIsFree m (start + total xs) 1) (start + total xs))
        (start + total xs) := by
    rw [kfree, if_neg (by omega), hheader]
  -- the flag
  have hset := h.layout.setIsFree 1
  have hsetOut : ∀ q c, At start (xs ++ b :: ys) q c → q ≠ start + total xs + 16 →
      ∀ x, q ≤ x → x < q + c.size → setIsFree m (start + total xs) 1 x = m x := by
    intro q c hq hne x hx hx'
    apply setIsFree_apply
    rcases hq.apart (at_middle start xs ys b) with ⟨rfl, -⟩ | hlt | hlt
    · exact absurd rfl hne
    · omega
    · omega
  -- the right neighbour
  have htotal₁ : start + total (xs ++ ⟨b.size, true⟩ :: ys) = start + kheapFixedSize := by
    rw [← htotal]
    simp only [total_append, total_cons]
  obtain ⟨hnext, hnextOut⟩ := hset.coalesceNext hpos hfit.le htotal₁
  generalize hm₁ : coalesceNext (setIsFree m (start + total xs) 1) (start + total xs) = m₁ at *
  have hkeep : ∀ q c, At start (xs ++ b :: ys) q c → c.free = false →
      q ≠ start + total xs + 16 → At start (xs ++ ⟨b.size, true⟩ :: ys) q c := by
    intro q c hq _ hne
    rw [at_append] at hq ⊢
    rcases hq with hq | ⟨rfl, -⟩ | hq
    · exact Or.inl hq
    · exact absurd rfl hne
    · exact Or.inr (Or.inr hq)
  have hkeep₁ : ∀ q c, At start (xs ++ b :: ys) q c → c.free = false →
      q ≠ start + total xs + 16 →
      At start (xs ++ joinNext ⟨b.size, true⟩ ys) q c ∧
        ∀ x, q ≤ x → x < q + c.size → m₁ x = m x := by
    intro q c hq hused hne
    refine ⟨?_, fun x hx hx' => ?_⟩
    · have hq' := hq
      rw [at_append] at hq' ⊢
      rcases hq' with hq' | hq'
      · exact Or.inl hq'
      · exact Or.inr (hq'.joinNext hused hne)
    · rw [hnextOut q c (hkeep q c hq hused hne) hused hne x hx hx',
        hsetOut q c hq hne x hx hx']
  have htotal₂ : start + total (xs ++ joinNext ⟨b.size, true⟩ ys) = start + kheapFixedSize := by
    rw [← htotal]
    simp only [total_append, total_joinNext, total_cons]
  -- the left neighbour
  obtain ⟨e, zs, he⟩ := joinNext_eq_cons ⟨b.size, true⟩ ys
  by_cases hleft : ∃ ws d, xs = ws ++ [d] ∧ d.free = true
  · obtain ⟨ws, d, rfl, hfree⟩ := hleft
    rw [he, List.append_assoc, List.singleton_append] at hnext htotal₂
    obtain ⟨hprev, hprevOut⟩ := hnext.coalescePrev hpos hfit.le htotal₂ hfree
    refine ⟨_, Freed.joined ws ys zs d e hfree he, ⟨?_, ?_⟩, ?_⟩
    · rw [hkfree]
      exact hprev
    · have hsum := htotal₂
      simp only [total_append, total_cons] at hsum ⊢
      omega
    · intro q c hq hused hne
      obtain ⟨hat, hbytes⟩ := hkeep₁ q c hq hused hne
      rw [he, List.append_assoc, List.singleton_append] at hat
      refine ⟨?_, fun x hx hx' => ?_⟩
      · have hat' := hat
        rw [at_append] at hat' ⊢
        rcases hat' with hat' | ⟨-, rfl⟩ | ⟨rfl, -⟩ | hat'
        · exact Or.inl hat'
        · rw [hfree] at hused
          exact absurd hused (by simp)
        · simp only [total_append, total_cons, total_nil] at hne
          omega
        · right
          right
          dsimp only
          rwa [show start + total ws + 16 + (d.size + 16 + e.size) =
            start + total ws + 16 + d.size + 16 + e.size by omega]
      · rw [hkfree, hprevOut q c hat hused hne x hx hx', hbytes x hx hx']
  · have hnone : ∀ ws d, xs = ws ++ [d] → d.free = false := by
      intro ws d hxs
      by_contra hd
      exact hleft ⟨ws, d, hxs, by simpa using hd⟩
    have hsame : kfree (start + total xs + 16) m = m₁ := by
      rw [hkfree]
      rw [he] at hnext
      exact coalescePrev_of_not_free hnext hnone
    rw [hsame]
    refine ⟨_, Freed.alone xs ys hnone, ⟨hnext, ?_⟩, hkeep₁⟩
    omega

end Kheap

end Yotos
