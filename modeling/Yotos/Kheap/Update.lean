import Yotos.Kheap.Layout

/-!
# The elementary updates of the heap

A flag is changed, a block is split, two neighbours are merged: each update is a
few stores into at most three headers, and each is described by what it does to
the list of blocks and by the bytes it can touch.
-/

namespace Yotos

namespace Kheap

open Bytes

variable {m : Bytes} {stop p a : ℕ} {xs ys : List Block} {b c : Block}

/-! ### Single fields -/

theorem setIsFree_apply (m : Bytes) (v : UInt8) {h x : ℕ} (hx : x ≠ h + 4) :
    setIsFree m h v x = m x :=
  store8_of_ne _ _ hx

theorem setSize_apply (m : Bytes) (v : ℕ) {h x : ℕ} (hx : x < h ∨ h + 4 ≤ x) :
    setSize m h v x = m x :=
  store32_of_apart _ _ (by omega)

theorem setNext_apply (m : Bytes) (v : ℕ) {h x : ℕ} (hx : x < h + 8 ∨ h + 12 ≤ x) :
    setNext m h v x = m x :=
  store32_of_apart _ _ (by omega)

theorem setPrev_apply (m : Bytes) (v : ℕ) {h x : ℕ} (hx : x < h + 12 ∨ h + 16 ≤ x) :
    setPrev m h v x = m x :=
  store32_of_apart _ _ (by omega)

theorem size_congr {m m' : Bytes} {h : ℕ} (hm : ∀ x, h ≤ x → x < h + 4 → m' x = m x) :
    size m' h = size m h :=
  load32_congr hm

theorem next_congr {m m' : Bytes} {h : ℕ} (hm : ∀ x, h + 8 ≤ x → x < h + 12 → m' x = m x) :
    next m' h = next m h :=
  load32_congr fun x hx hx' => hm x hx (by omega)

theorem prev_congr {m m' : Bytes} {h : ℕ} (hm : ∀ x, h + 12 ≤ x → x < h + 16 → m' x = m x) :
    prev m' h = prev m h :=
  load32_congr fun x hx hx' => hm x hx (by omega)

theorem isFree_congr {m m' : Bytes} {h : ℕ} (hm : m' (h + 4) = m (h + 4)) :
    isFree m' h = isFree m h := by
  rw [isFree, isFree, hm]

/-- The four stores that write a whole header. -/
def writeHeader (m : Bytes) (h s : ℕ) (v : UInt8) (nx pv : ℕ) : Bytes :=
  setPrev (setNext (setIsFree (setSize m h s) h v) h nx) h pv

theorem writeHeader_apply (m : Bytes) (v : UInt8) (s nx pv : ℕ) {h x : ℕ}
    (hx : x < h ∨ h + 16 ≤ x) : writeHeader m h s v nx pv x = m x := by
  rw [writeHeader, setPrev_apply _ _ (by omega), setNext_apply _ _ (by omega),
    setIsFree_apply _ _ (by omega), setSize_apply _ _ (by omega)]

theorem header_writeHeader (m : Bytes) (stop p h : ℕ) (b : Block) (v : UInt8)
    (hv : (v != 0) = b.free) (hsize : b.size < 2 ^ 32) (hp : p < 2 ^ 32)
    (hnext : link stop (h + 16 + b.size) < 2 ^ 32) :
    Header (writeHeader m h b.size v (link stop (h + 16 + b.size)) p) stop p h b where
  size := by
    refine (size_congr (m := setSize m h b.size) fun x _ _ => ?_).trans
      (load32_store32_of_lt _ _ hsize)
    rw [writeHeader, setPrev_apply _ _ (by omega), setNext_apply _ _ (by omega),
      setIsFree_apply _ _ (by omega)]
  isFree := by
    rw [writeHeader, isFree_congr (setPrev_apply _ _ (by omega)),
      isFree_congr (setNext_apply _ _ (by omega)), isFree, setIsFree, store8_self, hv]
  next := (next_congr fun x _ _ => setPrev_apply _ _ (by omega)).trans
    (load32_store32_of_lt _ _ hnext)
  prev := load32_store32_of_lt _ _ hp

/-! ### Changing a flag -/

theorem Layout.setIsFree (v : UInt8) (h : Layout m stop p a (xs ++ b :: ys)) :
    Layout (setIsFree m (a + total xs) v) stop p a (xs ++ ⟨b.size, v != 0⟩ :: ys) := by
  rw [layout_append] at h ⊢
  obtain ⟨hxs, hb, hys⟩ := h
  refine ⟨hxs.frame fun x _ hx => setIsFree_apply _ _ (by omega), ⟨?_, ?_, ?_, ?_⟩,
    hys.frame fun x hx _ => setIsFree_apply _ _ (by omega)⟩
  · exact (size_congr fun x _ _ => setIsFree_apply _ _ (by omega)).trans hb.size
  · rw [Kheap.isFree, Kheap.setIsFree, store8_self]
  · exact (next_congr fun x _ _ => setIsFree_apply _ _ (by omega)).trans hb.next
  · exact (prev_congr fun x _ _ => setIsFree_apply _ _ (by omega)).trans hb.prev

/-! ### Merging two neighbours -/

/-- The header at `h` becomes that of a block of `s` bytes ending at `e`, and the
header behind `e` is linked back to it. -/
def mergeInto (m : Bytes) (stop h s e : ℕ) : Bytes :=
  setPrevAt (setNext (setSize m h s) h (link stop e)) stop e h

theorem mergeInto_apply (m : Bytes) {stop h s e x : ℕ} (hx : x < h ∨ h + 16 ≤ x)
    (hx' : x < e ∨ e + 16 ≤ x) : mergeInto m stop h s e x = m x := by
  rw [mergeInto, setPrevAt_apply _ (by omega), setNext_apply _ _ (by omega),
    setSize_apply _ _ (by omega)]

theorem Layout.mergeInto (ha : 0 < a) (hstop : stop ≤ 2 ^ 32)
    (htotal : a + total (xs ++ b :: c :: ys) = stop)
    (h : Layout m stop p a (xs ++ b :: c :: ys)) :
    Layout (mergeInto m stop (a + total xs) (b.size + 16 + c.size)
      (a + total xs + 16 + b.size + 16 + c.size)) stop p a
      (xs ++ ⟨b.size + 16 + c.size, b.free⟩ :: ys) := by
  rw [layout_append] at h ⊢
  obtain ⟨hxs, hb, -, hys⟩ := h
  simp only [total_append, total_cons] at htotal
  generalize ha' : a + total xs = h₀ at *
  have hend : h₀ + 16 + (b.size + 16 + c.size) = h₀ + 16 + b.size + 16 + c.size := by omega
  have hlink : link stop (h₀ + 16 + b.size + 16 + c.size) < 2 ^ 32 := by
    unfold link
    split <;> omega
  refine ⟨hxs.frame fun x _ _ => mergeInto_apply _ (by omega) (by omega),
    ⟨?_, ?_, ?_, ?_⟩, ?_⟩
  · refine (size_congr (m := setSize m h₀ (b.size + 16 + c.size)) fun x _ _ => ?_).trans
      (load32_store32_of_lt _ _ (by omega))
    rw [Kheap.mergeInto, setPrevAt_apply _ (by omega), setNext_apply _ _ (by omega)]
  · rw [← hb.isFree]
    apply isFree_congr
    rw [Kheap.mergeInto, setPrevAt_apply _ (by omega), setNext_apply _ _ (by omega),
      setSize_apply _ _ (by omega)]
  · dsimp only
    rw [hend]
    exact (next_congr fun x _ _ => setPrevAt_apply _ (by omega)).trans
      (load32_store32_of_lt _ _ hlink)
  · refine (prev_congr fun x _ _ => ?_).trans hb.prev
    rw [Kheap.mergeInto, setPrevAt_apply _ (by omega), setNext_apply _ _ (by omega),
      setSize_apply _ _ (by omega)]
  · dsimp only
    rw [hend]
    refine Layout.setPrevAt (by omega) (by omega) (by omega) (hys.frame ?_)
    intro x _ _
    rw [setNext_apply _ _ (by omega), setSize_apply _ _ (by omega)]

/-! ### Splitting a block -/

/-- What the split leaves of a block: `n` bytes and a free rest. -/
def splitBlocks (b : Block) (n : ℕ) : List Block :=
  [⟨n, b.free⟩, ⟨b.size - n - 16, true⟩]

/-- The stores of `splitBlock`, with the links it reads replaced by their values. -/
theorem splitBlock_eq {n : ℕ} (hn : n + 17 ≤ b.size) (hstop : stop ≤ 2 ^ 32)
    (htotal : a + total (b :: ys) = stop) (hb : Header m stop p a b) :
    splitBlock m a n =
      setSize (setNext (setPrevAt (writeHeader m (a + 16 + n) (b.size - n - 16) 1
        (link stop (a + 16 + b.size)) a) stop (a + 16 + b.size) (a + 16 + n)) a
        (a + 16 + n)) a n := by
  rw [total_cons] at htotal
  have hnew : (a + headerSize + n) % 2 ^ 32 = a + 16 + n :=
    Nat.mod_eq_of_lt (by unfold headerSize; omega)
  have hrest : (2 ^ 32 - headerSize + (2 ^ 32 - n + b.size)) % 2 ^ 32 = b.size - n - 16 := by
    unfold headerSize
    omega
  -- none of the stores into the new header reaches the header at `a`
  have hnext₂ : ∀ v : ℕ, next (setIsFree (setSize m (a + 16 + n) v) (a + 16 + n) 1) a =
      link stop (a + 16 + b.size) := by
    intro v
    refine (next_congr fun x _ _ => ?_).trans hb.next
    rw [setIsFree_apply _ _ (by omega), setSize_apply _ _ (by omega)]
  have hnext₄ : ∀ v w u : ℕ, next (setPrev (setNext (setIsFree (setSize m (a + 16 + n) v)
      (a + 16 + n) 1) (a + 16 + n) w) (a + 16 + n) u) a = link stop (a + 16 + b.size) := by
    intro v w u
    refine (next_congr fun x _ _ => ?_).trans (hnext₂ v)
    rw [setPrev_apply _ _ (by omega), setNext_apply _ _ (by omega)]
  simp only [splitBlock, hnew, hb.size, hrest, hnext₂, hnext₄, writeHeader, setPrevAt]

theorem splitBlock_apply {n x : ℕ} (hn : n + 17 ≤ b.size) (hstop : stop ≤ 2 ^ 32)
    (htotal : a + total (b :: ys) = stop) (hb : Header m stop p a b)
    (hx : x < a ∨ a + 16 ≤ x) (hx₁ : x < a + 16 + n ∨ a + 32 + n ≤ x)
    (hx₂ : x < a + 16 + b.size ∨ a + 32 + b.size ≤ x) : splitBlock m a n x = m x := by
  rw [splitBlock_eq hn hstop htotal hb, setSize_apply _ _ (by omega),
    setNext_apply _ _ (by omega), setPrevAt_apply _ (by omega),
    writeHeader_apply _ _ _ _ _ (by omega)]

theorem Layout.splitBlock {n : ℕ} (ha : 0 < a) (hstop : stop ≤ 2 ^ 32)
    (htotal : a + total (xs ++ b :: ys) = stop) (hn : n + 17 ≤ b.size)
    (h : Layout m stop p a (xs ++ b :: ys)) :
    Layout (splitBlock m (a + total xs) n) stop p a (xs ++ (splitBlocks b n ++ ys)) := by
  rw [layout_append] at h ⊢
  obtain ⟨hxs, hb, hys⟩ := h
  rw [total_append, ← Nat.add_assoc] at htotal
  generalize ha' : a + total xs = h₀ at *
  have heq := splitBlock_eq hn hstop (by exact htotal) hb
  have hout : ∀ x, (x < h₀ ∨ h₀ + 16 ≤ x) → (x < h₀ + 16 + n ∨ h₀ + 32 + n ≤ x) →
      (x < h₀ + 16 + b.size ∨ h₀ + 32 + b.size ≤ x) → Kheap.splitBlock m h₀ n x = m x :=
    fun x => splitBlock_apply hn hstop htotal hb
  have htotal' := htotal
  rw [total_cons] at htotal'
  have hsplit : h₀ + 16 + n + 16 + (b.size - n - 16) = h₀ + 16 + b.size := by omega
  have hlink : link stop (h₀ + 16 + b.size) < 2 ^ 32 := by
    unfold link
    split <;> omega
  have hnew := header_writeHeader m stop h₀ (h₀ + 16 + n) ⟨b.size - n - 16, true⟩ 1 rfl
    (by dsimp only; omega) (by omega) (by dsimp only; rwa [hsplit])
  have htail : Layout (writeHeader m (h₀ + 16 + n) (b.size - n - 16) 1
      (link stop (h₀ + 16 + b.size)) h₀) stop h₀ (h₀ + 16 + b.size) ys :=
    hys.frame fun x _ _ => writeHeader_apply _ _ _ _ _ (by omega)
  have hw : ∀ x < h₀ + 16 + n, writeHeader m (h₀ + 16 + n) (b.size - n - 16) 1
      (link stop (h₀ + 16 + b.size)) h₀ x = m x :=
    fun x _ => writeHeader_apply _ _ _ _ _ (by omega)
  have hnb : link stop (h₀ + 16 + n) = h₀ + 16 + n := link_of_lt (by omega)
  dsimp only at hnew
  rw [hsplit] at hnew
  generalize writeHeader m (h₀ + 16 + n) (b.size - n - 16) 1
    (link stop (h₀ + 16 + b.size)) h₀ = w at *
  simp only [splitBlocks, List.cons_append, List.nil_append]
  refine ⟨hxs.frame fun x _ _ => hout x (by omega) (by omega) (by omega), ⟨?_, ?_, ?_, ?_⟩,
    ?_, ?_⟩
  · rw [heq]
    exact load32_store32_of_lt _ _ (by omega)
  · refine (isFree_congr ?_).trans hb.isFree
    rw [heq, setSize_apply _ _ (by omega), setNext_apply _ _ (by omega),
      setPrevAt_apply _ (by omega), hw _ (by omega)]
  · dsimp only
    rw [heq, hnb]
    exact (next_congr fun x _ _ => setSize_apply _ _ (by omega)).trans
      (load32_store32_of_lt _ _ (by omega))
  · refine (prev_congr fun x _ _ => ?_).trans hb.prev
    rw [heq, setSize_apply _ _ (by omega), setNext_apply _ _ (by omega),
      setPrevAt_apply _ (by omega), hw _ (by omega)]
  · refine hnew.frame fun x _ _ => ?_
    rw [heq, setSize_apply _ _ (by omega), setNext_apply _ _ (by omega),
      setPrevAt_apply _ (by omega)]
  · dsimp only
    rw [hsplit, heq]
    refine (htail.setPrevAt (q := h₀ + 16 + n) (by omega) (by omega) (by omega)).frame
      fun x _ _ => ?_
    rw [setSize_apply _ _ (by omega), setNext_apply _ _ (by omega)]

end Kheap

end Yotos
