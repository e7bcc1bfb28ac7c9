import Yotos.Kheap.Safety
import Mathlib.Data.List.Chain

/-!
# The heap stays coalesced

`kfree` merges the freed block with its free neighbours and `kmalloc` never leaves a
free block beside the tail it splits off, so no two free blocks are ever adjacent and
every used block is one that the client still holds. The free blocks are then exactly
the maximal gaps between live blocks: `kmalloc` fails only when no gap is large
enough, and a heap without live blocks is the one that `kheap_init` sets up.
-/

namespace Yotos

namespace Kheap

open Bytes

/-- No two neighbours are both free. -/
def Coalesced (bs : List Block) : Prop :=
  bs.IsChain fun b c => b.free = false ∨ c.free = false

/-- Whether a list is coalesced depends on the flag of its first block only through
the neighbour of that block. -/
theorem Coalesced.cons_of_used {b : Block} {bs : List Block} (hb : b.free = false)
    (h : Coalesced bs) : Coalesced (b :: bs) := by
  cases bs with
  | nil => exact .singleton _
  | cons c bs => exact .cons_cons (Or.inl hb) h

theorem Coalesced.resize {b d : Block} (xs ys : List Block) (hfree : b.free = d.free)
    (h : Coalesced (xs ++ b :: ys)) : Coalesced (xs ++ d :: ys) := by
  have hright : Coalesced (b :: ys) → Coalesced (d :: ys) := by
    intro h
    cases ys with
    | nil => exact .singleton _
    | cons c ys =>
        obtain ⟨hbc, hys⟩ := List.isChain_cons_cons.1 h
        exact .cons_cons (hfree ▸ hbc) hys
  have hleft : Coalesced (xs ++ [b]) → Coalesced (xs ++ [d]) := by
    intro h
    rcases List.eq_nil_or_concat' xs with rfl | ⟨zs, c, rfl⟩
    · exact .singleton _
    · rw [List.append_assoc] at h ⊢
      obtain ⟨hzs, hcb, -⟩ := List.isChain_append_cons_cons.1 h
      exact List.isChain_append_cons_cons.2 ⟨hzs, hfree ▸ hcb, .singleton _⟩
  obtain ⟨hxs, hys⟩ := List.isChain_split.1 h
  exact List.isChain_split.2 ⟨hleft hxs, hright hys⟩

/-- Any block may become used. -/
theorem Coalesced.use {b d : Block} {xs ys : List Block} (hd : d.free = false)
    (h : Coalesced (xs ++ b :: ys)) : Coalesced (xs ++ d :: ys) := by
  obtain ⟨hxs, hys⟩ := List.isChain_split.1 h
  refine List.isChain_split.2 ⟨?_, ?_⟩
  · rcases List.eq_nil_or_concat' xs with rfl | ⟨zs, c, rfl⟩
    · exact .singleton _
    · rw [List.append_assoc] at hxs ⊢
      exact List.isChain_append_cons_cons.2
        ⟨(List.isChain_append_cons_cons.1 hxs).1, Or.inr hd, .singleton _⟩
  · exact Coalesced.cons_of_used hd hys.tail

/-- The block taken by `kmalloc` was free, so its neighbours are not, and the tail split
off may stand in its place. -/
theorem Coalesced.carve {b : Block} {n : ℕ} {xs ys : List Block} (hfree : b.free = true)
    (h : Coalesced (xs ++ b :: ys)) : Coalesced (xs ++ (carve b n ++ ys)) := by
  unfold Kheap.carve
  split
  · have hright := (List.isChain_split.1 h).2
    have htail : Coalesced (⟨b.size - n - 16, true⟩ :: ys) :=
      Coalesced.resize [] ys hfree hright
    have hleft := (List.isChain_split.1 (Coalesced.use (d := ⟨n, false⟩) rfl h)).1
    exact List.isChain_append_cons_cons.2 ⟨hleft, Or.inl rfl, htail⟩
  · exact h.use rfl

theorem Coalesced.joinNext {b : Block} {ys : List Block} (h : Coalesced (b :: ys)) :
    Coalesced (joinNext ⟨b.size, true⟩ ys) := by
  cases ys with
  | nil => exact .singleton _
  | cons c ys =>
      have hys := (List.isChain_cons_cons.1 h).2
      cases hfree : c.free with
      | false =>
          rw [joinNext_of_used hfree]
          exact .cons_cons (Or.inr hfree) hys
      | true =>
          rw [joinNext_of_free hfree]
          exact Coalesced.resize [] ys hfree hys

/-- After `kfree` the block freed is merged with every free neighbour. -/
theorem Coalesced.freed {b : Block} {xs ys bs : List Block} (hb : Freed b xs ys bs)
    (h : Coalesced (xs ++ b :: ys)) : Coalesced bs := by
  cases hb with
  | alone _ _ hxs =>
      have hjoin := Coalesced.joinNext (List.isChain_split.1 h).2
      obtain ⟨e, zs, he⟩ := joinNext_eq_cons ⟨b.size, true⟩ ys
      rw [he] at hjoin ⊢
      refine List.isChain_split.2 ⟨?_, hjoin⟩
      rcases List.eq_nil_or_concat' xs with rfl | ⟨ws, d, rfl⟩
      · exact .singleton _
      · rw [List.append_assoc] at h ⊢
        exact List.isChain_append_cons_cons.2
          ⟨(List.isChain_append_cons_cons.1 h).1, Or.inl (hxs ws d rfl), .singleton _⟩
  | joined xs _ zs d e hd he =>
      rw [List.append_assoc] at h
      obtain ⟨hxs, -, hys⟩ := List.isChain_append_cons_cons.1 h
      have hjoin := Coalesced.joinNext hys
      rw [he] at hjoin
      have hfree : e.free = true := by
        cases ys with
        | nil =>
            obtain ⟨rfl, -⟩ := List.cons.inj he
            rfl
        | cons c ys =>
            cases hc : c.free with
            | false =>
                rw [joinNext_of_used hc] at he
                obtain ⟨rfl, -⟩ := List.cons.inj he
                rfl
            | true =>
                rw [joinNext_of_free hc] at he
                obtain ⟨rfl, -⟩ := List.cons.inj he
                rfl
      refine List.isChain_split.2 ⟨?_, ?_⟩
      · exact Coalesced.resize xs [] hd hxs
      · exact Coalesced.resize [] zs hfree hjoin

/-! ### Used blocks are live -/

/-- A used block in the carved list is the one taken or was there before. -/
theorem At.of_carve {a q n : ℕ} {xs ys : List Block} {b c : Block}
    (h : At a (xs ++ (carve b n ++ ys)) q c) (hused : c.free = false) :
    q = a + total xs + 16 ∨ At a (xs ++ b :: ys) q c := by
  rw [at_append, at_append, total_carve] at h
  rw [at_append]
  rcases h with h | h | h
  · exact Or.inr (Or.inl h)
  · left
    unfold carve at h
    split at h
    · rcases h with ⟨hq, -⟩ | ⟨-, rfl⟩ | h
      · exact hq
      · exact absurd hused (by simp)
      · exact h.elim
    · rcases h with ⟨hq, -⟩ | h
      · exact hq
      · exact h.elim
  · rw [← Nat.add_assoc] at h
    exact Or.inr (Or.inr (Or.inr h))

theorem At.of_joinNext {a q : ℕ} {ys : List Block} {b c : Block}
    (h : At a (Kheap.joinNext ⟨b.size, true⟩ ys) q c) (hused : c.free = false) :
    At (a + 16 + b.size) ys q c := by
  cases ys with
  | nil =>
      rcases h with ⟨-, rfl⟩ | h
      · exact absurd hused (by simp)
      · exact h.elim
  | cons d ys =>
      cases hfree : d.free with
      | false =>
          rw [joinNext_of_used hfree] at h
          rcases h with ⟨-, rfl⟩ | h
          · exact absurd hused (by simp)
          · exact h
      | true =>
          rw [joinNext_of_free hfree] at h
          rcases h with ⟨-, rfl⟩ | h
          · exact absurd hused (by simp)
          · rw [show a + 16 + (b.size + 16 + d.size) = a + 16 + b.size + 16 + d.size by omega] at h
            exact Or.inr h

/-- A used block after `kfree` was there before, and is not the block freed. -/
theorem At.of_freed {a q : ℕ} {xs ys bs : List Block} {b c : Block} (hb : Freed b xs ys bs)
    (h : At a bs q c) (hused : c.free = false) :
    At a (xs ++ b :: ys) q c ∧ q ≠ a + total xs + 16 := by
  have hright : ∀ zs : List Block, At (a + total zs + 16 + b.size) ys q c →
      At a (zs ++ b :: ys) q c ∧ q ≠ a + total zs + 16 := by
    intro zs h
    have hbounds := h.bounds
    refine ⟨at_append.2 (Or.inr (Or.inr ?_)), by omega⟩
    exact h
  cases hb with
  | alone _ _ _ =>
      rcases at_append.1 h with h | h
      · have hbounds := h.bounds
        exact ⟨at_append.2 (Or.inl h), by omega⟩
      · exact hright xs (h.of_joinNext hused)
  | joined xs _ zs d e hd he =>
      rcases at_append.1 h with h | ⟨-, rfl⟩ | h
      · have hbounds := h.bounds
        rw [total_append, total_cons]
        exact ⟨at_append.2 (Or.inl (at_append.2 (Or.inl h))), by omega⟩
      · exact absurd hused (by simp)
      · have haddr : a + total xs + 16 + (d.size + 16 + e.size) =
            a + total (xs ++ [d]) + 16 + e.size := by
          simp only [total_append, total_cons, total_nil]
          omega
        dsimp only at h
        rw [haddr] at h
        have hjoin : At (a + total (xs ++ [d])) (Kheap.joinNext ⟨b.size, true⟩ ys) q c := by
          rw [he]
          exact Or.inr h
        exact hright _ (hjoin.of_joinNext hused)

/-- The layout of a client's heap with nothing lost: free blocks are apart and used ones
live. -/
structure Client.Tight (start : ℕ) (bs : List Block) (c : Client) : Prop
    extends c.Holds start bs where
  coalesced : Coalesced bs
  used : ∀ q b, At start bs q b → b.free = false → ∃ n, (q, n) ∈ c.live

/-- The bytes of a heap determine its blocks. -/
theorem Layout.unique {m : Bytes} {stop p a : ℕ} {bs cs : List Block}
    (hb : Layout m stop p a bs) (hc : Layout m stop p a cs) (htotal : total bs = total cs) :
    bs = cs := by
  induction bs generalizing p a cs with
  | nil =>
      cases cs with
      | nil => rfl
      | cons c cs =>
          rw [total_nil, total_cons] at htotal
          omega
  | cons b bs ih =>
      cases cs with
      | nil =>
          rw [total_nil, total_cons] at htotal
          omega
      | cons c cs =>
          have hsize : b.size = c.size := hb.1.size.symm.trans hc.1.size
          have hfree : b.free = c.free := hb.1.isFree.symm.trans hc.1.isFree
          have hbc : b = c := by
            cases b
            cases c
            simp_all
          subst hbc
          rw [total_cons, total_cons] at htotal
          rw [ih hb.2 hc.2 (by omega)]

theorem Represents.unique {m : Bytes} {start : ℕ} {bs cs : List Block}
    (hb : Represents m start bs) (hc : Represents m start cs) : bs = cs :=
  hb.layout.unique hc.layout (hb.total.trans hc.total.symm)

theorem Client.Step.tight {start : ℕ} {c c' : Client} {bs : List Block}
    (hp : Placed start) (h : Client.Step start c c') (hc : c.Tight start bs) :
    ∃ bs', c'.Tight start bs' := by
  obtain ⟨bs', hholds⟩ := h.holds hp hc.toHolds
  suffices hrest : Coalesced bs' ∧
      ∀ q b, At start bs' q b → b.free = false → ∃ n, (q, n) ∈ c'.live from
    ⟨bs', hholds, hrest.1, hrest.2⟩
  cases h with
  | malloc n p m hn heq =>
      rcases kmalloc_spec n hp hc.represents with
        ⟨-, hnone⟩ | ⟨xs, b, ys, m₁, rfl, -, hfit, hsome, hrep, -⟩
      · rw [hnone] at heq
        obtain ⟨rfl, rfl⟩ := Prod.mk.inj (Option.some.inj heq)
        obtain rfl := hc.represents.unique hholds.represents
        exact ⟨hc.coalesced, hc.used⟩
      · rw [hsome] at heq
        obtain ⟨rfl, rfl⟩ := Prod.mk.inj (Option.some.inj heq)
        obtain rfl := hrep.unique hholds.represents
        refine ⟨hc.coalesced.carve hfit.1, ?_⟩
        intro q d hat hused
        rw [if_neg (by omega)]
        rcases hat.of_carve hused with rfl | hat
        · exact ⟨n, List.mem_cons_self⟩
        · obtain ⟨k, hk⟩ := hc.used q d hat hused
          exact ⟨k, List.mem_cons_of_mem _ hk⟩
  | freeNull =>
      obtain rfl := hc.represents.unique hholds.represents
      exact ⟨hc.coalesced, hc.used⟩
  | free p n hmem =>
      obtain ⟨b, hat, -, -⟩ := hc.live p n hmem
      obtain ⟨xs, ys, rfl, rfl⟩ := hat.exists_split
      obtain ⟨cs, hfreed, hrep, -⟩ := kfree_spec hp hc.represents
      have hrep' := hholds.represents
      dsimp only at hrep'
      obtain rfl := hrep.unique hrep'
      refine ⟨hc.coalesced.freed hfreed, ?_⟩
      intro q d hat hused
      obtain ⟨hold, hne⟩ := hat.of_freed hfreed hused
      obtain ⟨k, hk⟩ := hc.used q d hold hused
      exact ⟨k, (List.mem_erase_of_ne fun heq => hne (Prod.mk.inj heq).1).2 hk⟩
  | write p n x v hmem hx hx' =>
      obtain ⟨b, hat, -, hn⟩ := hc.live p n hmem
      have hrep := hc.represents.store8 hat hx (by omega) v
      obtain rfl := hrep.unique hholds.represents
      exact ⟨hc.coalesced, hc.used⟩

theorem Client.Reachable.tight {start : ℕ} {m : Bytes} {c : Client} (hp : Placed start)
    (h : Client.Reachable start m c) : ∃ bs, c.Tight start bs := by
  induction h with
  | refl =>
      refine ⟨_, ⟨represents_kheapInit hp m, List.nodup_nil,
        fun p n hmem => absurd hmem List.not_mem_nil⟩, .singleton _, ?_⟩
      intro q b hat hused
      rcases hat with ⟨-, rfl⟩ | hat
      · exact absurd hused (by simp)
      · exact hat.elim
  | tail _ hstep ih =>
      obtain ⟨bs, hbs⟩ := ih
      exact hstep.tight hp hbs

/-! ### Gaps -/

/-- The bytes of the live block with payload `p`: its header and its payload. -/
def blockStart (p : ℕ) : ℕ := p - headerSize

def blockEnd (m : Bytes) (p : ℕ) : ℕ := p + size m (p - headerSize)

/-- `[a, e)` is a maximal gap between live blocks: it runs from the start of the heap or
the end of a live block to the start of a live block or the end of the heap, and no live
block reaches into it. -/
structure Client.Gap (start : ℕ) (c : Client) (a e : ℕ) : Prop where
  left : a = start ∨ ∃ p n, (p, n) ∈ c.live ∧ a = blockEnd c.memory p
  right : e = start + kheapFixedSize ∨ ∃ p n, (p, n) ∈ c.live ∧ e = blockStart p
  apart : ∀ p n, (p, n) ∈ c.live → blockEnd c.memory p ≤ a ∨ e ≤ blockStart p

section Gaps

variable {start : ℕ} {c : Client} {bs : List Block}

/-- A used block is a live one, with its start and end. -/
theorem Client.Tight.live_of_used {xs ys : List Block} {b : Block}
    (h : c.Tight start (xs ++ b :: ys)) (hused : b.free = false) :
    ∃ p n, (p, n) ∈ c.live ∧ blockStart p = start + total xs ∧
      blockEnd c.memory p = start + total xs + 16 + b.size := by
  have hat := at_middle start xs ys b
  obtain ⟨n, hn⟩ := h.used _ _ hat hused
  obtain ⟨r, hheader⟩ := h.represents.layout.header_of_at hat
  refine ⟨_, n, hn, rfl, ?_⟩
  unfold blockEnd headerSize
  rw [hheader.size]

/-- A live block is a used one. -/
theorem Client.Tight.used_of_live (h : c.Tight start bs) {p n : ℕ} (hmem : (p, n) ∈ c.live) :
    ∃ xs b ys, bs = xs ++ b :: ys ∧ b.free = false ∧ p = start + total xs + 16 ∧
      blockEnd c.memory p = start + total xs + 16 + b.size := by
  obtain ⟨b, hat, hused, -⟩ := h.live p n hmem
  obtain ⟨r, hheader⟩ := h.represents.layout.header_of_at hat
  obtain ⟨xs, ys, rfl, rfl⟩ := hat.exists_split
  refine ⟨xs, b, ys, rfl, hused, rfl, ?_⟩
  unfold blockEnd headerSize
  rw [hheader.size]

/-- Every free block is a gap of its own. -/
theorem Client.Tight.gap_of_free {xs ys : List Block} {b : Block}
    (h : c.Tight start (xs ++ b :: ys)) (hfree : b.free = true) :
    c.Gap start (start + total xs) (start + total xs + 16 + b.size) where
  left := by
    rcases List.eq_nil_or_concat' xs with rfl | ⟨zs, d, rfl⟩
    · exact Or.inl rfl
    · right
      have hbs := h
      have hcoal := h.coalesced
      rw [List.append_assoc] at hbs hcoal
      have hd : d.free = false := by
        have hdb := (List.isChain_append_cons_cons.1 hcoal).2.1
        rw [hfree] at hdb
        exact hdb.resolve_right (by simp)
      obtain ⟨p, n, hmem, -, hend⟩ := Client.Tight.live_of_used hbs hd
      refine ⟨p, n, hmem, ?_⟩
      rw [hend]
      simp only [total_append, total_cons, total_nil]
      omega
  right := by
    cases ys with
    | nil =>
        left
        have htotal := h.represents.total
        simp only [total_append, total_cons, total_nil] at htotal
        omega
    | cons d ys =>
        right
        have hbs := h
        rw [List.append_cons] at hbs
        have hd : d.free = false := by
          have hbd := (List.isChain_append_cons_cons.1 h.coalesced).2.1
          rw [hfree] at hbd
          exact hbd.resolve_left (by simp)
        obtain ⟨p, n, hmem, hstart, -⟩ := Client.Tight.live_of_used hbs hd
        refine ⟨p, n, hmem, ?_⟩
        rw [hstart]
        simp only [total_append, total_cons, total_nil]
        omega
  apart := by
    intro p n hmem
    obtain ⟨b', hat, hused, -⟩ := h.live p n hmem
    obtain ⟨r, hheader⟩ := h.represents.layout.header_of_at hat
    unfold blockEnd blockStart headerSize
    rw [hheader.size]
    rcases hat.apart (at_middle start xs ys b) with ⟨-, rfl⟩ | hlt | hlt
    · rw [hfree] at hused
      exact absurd hused (by simp)
    · omega
    · omega

/-- A gap that is not empty is a free block. -/
theorem Client.Tight.free_of_gap (h : c.Tight start bs) {a e : ℕ} (hgap : c.Gap start a e)
    (hae : a < e) :
    ∃ xs b ys, bs = xs ++ b :: ys ∧ b.free = true ∧ e ≤ a + 16 + b.size := by
  have htotal := h.represents.total
  have hend : e ≤ start + kheapFixedSize := by
    rcases hgap.right with rfl | ⟨p, n, hmem, rfl⟩
    · exact le_rfl
    · obtain ⟨xs, b, ys, rfl, -, rfl, -⟩ := h.used_of_live hmem
      simp only [total_append, total_cons] at htotal
      unfold blockStart headerSize
      omega
  -- the gap starts at a header
  have hcut : ∃ xs ys, bs = xs ++ ys ∧ a = start + total xs := by
    rcases hgap.left with rfl | ⟨p, n, hmem, rfl⟩
    · exact ⟨[], bs, rfl, rfl⟩
    · obtain ⟨xs, b, ys, rfl, -, -, hblock⟩ := h.used_of_live hmem
      refine ⟨xs ++ [b], ys, by simp, ?_⟩
      rw [hblock]
      simp only [total_append, total_cons, total_nil]
      omega
  obtain ⟨xs, ys, rfl, rfl⟩ := hcut
  -- a used block that starts in the gap would be a live block inside it
  have hnot : ∀ zs d ws, xs ++ ys = zs ++ d :: ws → start + total xs ≤ start + total zs →
      start + total zs < e → d.free = true := by
    intro zs d ws heq hle hlt
    by_contra hused
    rw [heq] at h
    obtain ⟨p, n, hmem, hstart, hblock⟩ := h.live_of_used (by simpa using hused)
    have hapart := hgap.apart p n hmem
    rw [hstart, hblock] at hapart
    omega
  cases ys with
  | nil =>
      rw [List.append_nil] at htotal
      omega
  | cons b ys =>
      have hfree := hnot xs b ys rfl le_rfl hae
      refine ⟨xs, b, ys, rfl, hfree, ?_⟩
      by_contra hlt
      cases ys with
      | nil =>
          simp only [total_append, total_cons, total_nil] at htotal
          omega
      | cons d ys =>
          have hd := hnot (xs ++ [b]) d ys (by simp)
            (by simp only [total_append]; omega)
            (by simp only [total_append, total_cons, total_nil]; omega)
          have hbd := (List.isChain_append_cons_cons.1 h.coalesced).2.1
          rw [hfree, hd] at hbd
          simp at hbd

/-- `kmalloc` finds no block exactly when every gap is too small. -/
theorem Client.Tight.fits_iff (h : c.Tight start bs) (n : ℕ) :
    (∃ b ∈ bs, Fits n b) ↔ ∃ a e, c.Gap start a e ∧ a + headerSize + n ≤ e := by
  constructor
  · rintro ⟨b, hmem, hfree, hn⟩
    obtain ⟨xs, ys, rfl⟩ := List.append_of_mem hmem
    refine ⟨_, _, h.gap_of_free hfree, ?_⟩
    unfold headerSize
    omega
  · rintro ⟨a, e, hgap, hsize⟩
    unfold headerSize at hsize
    obtain ⟨xs, b, ys, rfl, hfree, he⟩ := h.free_of_gap hgap (by omega)
    exact ⟨b, by simp, hfree, by omega⟩

/-- Without live blocks there is one block left. -/
theorem Client.Tight.eq_initial (h : c.Tight start bs) (hlive : c.live = []) :
    bs = [⟨kheapFixedSize - headerSize, true⟩] := by
  have hfree : ∀ xs b ys, bs = xs ++ b :: ys → b.free = true := by
    rintro xs b ys rfl
    by_contra hused
    obtain ⟨p, n, hmem, -⟩ := h.live_of_used (by simpa using hused)
    rw [hlive] at hmem
    exact absurd hmem List.not_mem_nil
  have htotal := h.represents.total
  have hcoal := h.coalesced
  cases bs with
  | nil =>
      rw [total_nil] at htotal
      exact absurd htotal (by decide)
  | cons b bs =>
      have hb := hfree [] b bs rfl
      cases bs with
      | nil =>
          rw [total_cons, total_nil] at htotal
          have hsize : b.size = kheapFixedSize - headerSize := by
            unfold headerSize
            omega
          rw [← hsize, ← hb]
      | cons d bs =>
          have hd := hfree [b] d bs rfl
          have hbd := (List.isChain_cons_cons.1 hcoal).1
          rw [hb, hd] at hbd
          simp at hbd

end Gaps

/-! ### What a run guarantees -/

/-- The header at `start` is the one that `kheap_init` writes: one free block that takes
the whole heap. -/
structure Initial (m : Bytes) (start : ℕ) : Prop where
  size : size m start = kheapFixedSize - headerSize
  isFree : isFree m start = true
  next : next m start = 0
  prev : prev m start = 0

/-- In every state of a run, of two neighbours on the walk along `next` one is used,
`kmalloc` returns `NULL` exactly when no maximal gap between live blocks has room for the
payload and its header, and once everything is freed the heap is the initial one. -/
theorem kheap_coalesced (kernelEnd bitmapSize : UInt32)
    (hp : Placed (heapStart kernelEnd bitmapSize)) (m : Bytes) (c : Client)
    (hc : Client.Reachable (heapStart kernelEnd bitmapSize) m c) :
    (∃ hs, Walk c.memory (heapStart kernelEnd bitmapSize) hs ∧
      ∀ h ∈ hs, next c.memory h ≠ 0 →
        ¬ (isFree c.memory h = true ∧ isFree c.memory (next c.memory h) = true)) ∧
      (∀ n < 2 ^ 32, (∃ m', kmalloc (heapStart kernelEnd bitmapSize) n c.memory = some (0, m')) ↔
        ¬ ∃ a e, c.Gap (heapStart kernelEnd bitmapSize) a e ∧ a + headerSize + n ≤ e) ∧
      (c.live = [] → Initial c.memory (heapStart kernelEnd bitmapSize)) := by
  generalize heapStart kernelEnd bitmapSize = start at *
  obtain ⟨bs, h⟩ := hc.tight hp
  have hsound := h.toHolds.sound hp
  have htotal := h.represents.total
  refine ⟨⟨_, hsound.walk, ?_⟩, ?_, ?_⟩
  · rintro a ha hne ⟨hfree, hfree'⟩
    obtain ⟨xs, b, ys, rfl, rfl⟩ := mem_headers_iff.1 ha
    obtain ⟨hb, hys⟩ := ((layout_append _ _ _ _).1 h.represents.layout).2
    rw [total_append, total_cons] at htotal
    cases ys with
    | nil =>
        rw [total_nil] at htotal
        rw [hb.next, show start + total xs + 16 + b.size = start + kheapFixedSize by omega,
          link_self] at hne
        exact hne rfl
    | cons d ys =>
        rw [total_cons] at htotal
        rw [hb.next, link_of_lt (by omega), hys.1.isFree] at hfree'
        rw [hb.isFree] at hfree
        have hbd := (List.isChain_append_cons_cons.1 h.coalesced).2.1
        rw [hfree, hfree'] at hbd
        simp at hbd
  · intro n _
    rw [← h.fits_iff]
    rcases kmalloc_spec n hp h.represents with
      ⟨hnone, heq⟩ | ⟨xs, b, ys, m', rfl, -, hfit, heq, -, -⟩
    · refine iff_of_true ⟨_, heq⟩ ?_
      rintro ⟨b, hmem, hfit⟩
      exact hnone b hmem hfit
    · refine iff_of_false ?_ (not_not.2 ⟨b, by simp, hfit⟩)
      rintro ⟨m₁, hnull⟩
      rw [heq] at hnull
      have hzero := (Prod.mk.inj (Option.some.inj hnull)).1
      omega
  · intro hlive
    obtain rfl := h.eq_initial hlive
    have hheader := h.represents.layout.1
    refine ⟨hheader.size, hheader.isFree, ?_, hheader.prev⟩
    rw [hheader.next, show start + 16 + (kheapFixedSize - headerSize) = start + kheapFixedSize by
      unfold kheapFixedSize headerSize; omega, link_self]

/-- After the small run no two neighbours are free, and once the other two payloads are freed
the heap is the initial one. -/
theorem kheap_coalesced_small :
    (∃ (m : Bytes) (hs : List ℕ), Client.Reachable 0x211000 (fun _ => 0)
        ⟨m, [(0x21115C, 50), (0x211010, 100)]⟩ ∧ Walk m 0x211000 hs ∧
      ∀ h ∈ hs, next m h ≠ 0 → ¬ (isFree m h = true ∧ isFree m (next m h) = true)) ∧
      ∃ m : Bytes, Client.Reachable 0x211000 (fun _ => 0) ⟨m, []⟩ ∧ Initial m 0x211000 := by
  obtain ⟨m, hreach⟩ := exists_reachable_small
  obtain ⟨m₁, hfirst⟩ : ∃ m₁, Client.Step 0x211000 ⟨m, [(0x21115C, 50), (0x211010, 100)]⟩
      ⟨m₁, [(0x211010, 100)]⟩ := ⟨_, .free _ 0x21115C 50 (by simp)⟩
  obtain ⟨m', hlast⟩ : ∃ m', Client.Step 0x211000 ⟨m₁, [(0x211010, 100)]⟩ ⟨m', []⟩ :=
    ⟨_, .free _ 0x211010 100 (by simp)⟩
  have hreach' := (hreach.tail hfirst).tail hlast
  have hstart := heapStart_small
  generalize UInt32.ofNat (Pmm.pmmngrInit 8192 fun _ => 0).pmmngrGetBitmapSize = bitmapSize
    at hstart
  have hp : Placed (heapStart 0x210000 bitmapSize) := hstart.symm ▸ ⟨by decide, by decide⟩
  have hrun := kheap_coalesced 0x210000 bitmapSize hp (fun _ => 0)
    ⟨m, [(0x21115C, 50), (0x211010, 100)]⟩ (by rw [hstart]; exact hreach)
  have hrun' := kheap_coalesced 0x210000 bitmapSize hp (fun _ => 0) ⟨m', []⟩
    (by rw [hstart]; exact hreach')
  rw [hstart] at hrun hrun'
  obtain ⟨hs, hwalk, hfree⟩ := hrun.1
  exact ⟨⟨m, hs, hreach, hwalk, hfree⟩, m', hreach', hrun'.2.2 rfl⟩

end Kheap

end Yotos
