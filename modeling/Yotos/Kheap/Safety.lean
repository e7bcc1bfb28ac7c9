import Yotos.Kheap.Refinement
import Yotos.Pmm.Basic
import Mathlib.Logic.Relation
import Mathlib.Data.List.Nodup

/-!
# Runs of the kernel heap

A client of the heap allocates, frees live pointers, and writes inside the payloads
it holds. In every state of a run the memory still represents a list of blocks in
which each live pointer is the payload of a used block that is large enough. From
that the statement about the memory itself follows: the headers met along `next`
tile the heap, `prev` inverts `next`, and no live payload is ever written by
`kmalloc` or `kfree`.
-/

namespace Yotos

namespace Kheap

open Bytes

/-! ### The memory as the links show it -/

/-- The headers met by following `next` from `h` until `NULL`. -/
inductive Walk (m : Bytes) : ℕ → List ℕ → Prop
  | done : Walk m 0 []
  | step (h : ℕ) (hs : List ℕ) (hne : h ≠ 0) (hrest : Walk m (next m h) hs) :
      Walk m h (h :: hs)

/-- The blocks with headers `hs` cover `[a, e)`, each starting where the one before
it ends. -/
def Tiles (m : Bytes) (e : ℕ) : ℕ → List ℕ → Prop
  | a, [] => a = e
  | a, h :: hs => h = a ∧ Tiles m e (h + headerSize + size m h) hs

/-- The headers of a layout. -/
def headers : ℕ → List Block → List ℕ
  | _, [] => []
  | a, b :: bs => a :: headers (a + 16 + b.size) bs

theorem Layout.walk {m : Bytes} {stop p a : ℕ} {bs : List Block} (ha : 0 < a)
    (htotal : a + total bs = stop) (h : Layout m stop p a bs) :
    Walk m (link stop a) (headers a bs) := by
  induction bs generalizing p a with
  | nil =>
      rw [total_nil, Nat.add_zero] at htotal
      rw [htotal, link_self]
      exact Walk.done
  | cons b bs ih =>
      rw [total_cons] at htotal
      rw [link_of_lt (by omega)]
      refine Walk.step a _ (by omega) ?_
      rw [h.1.next]
      exact ih (by omega) (by omega) h.2

theorem Layout.tiles {m : Bytes} {stop p a : ℕ} {bs : List Block}
    (htotal : a + total bs = stop) (h : Layout m stop p a bs) :
    Tiles m stop a (headers a bs) := by
  induction bs generalizing p a with
  | nil => exact htotal
  | cons b bs ih =>
      rw [total_cons] at htotal
      refine ⟨rfl, ?_⟩
      rw [h.1.size]
      exact ih (a := a + 16 + b.size) (by omega) h.2

theorem mem_headers_iff {a h : ℕ} {bs : List Block} :
    h ∈ headers a bs ↔ ∃ xs c ys, bs = xs ++ c :: ys ∧ h = a + total xs := by
  constructor
  · intro hh
    induction bs generalizing a with
    | nil => exact absurd hh List.not_mem_nil
    | cons b bs ih =>
        rcases List.mem_cons.1 hh with rfl | hh
        · exact ⟨[], b, bs, rfl, rfl⟩
        · obtain ⟨xs, c, ys, rfl, rfl⟩ := ih hh
          refine ⟨b :: xs, c, ys, rfl, ?_⟩
          rw [total_cons]
          omega
  · rintro ⟨xs, c, ys, rfl, rfl⟩
    induction xs generalizing a with
    | nil => exact List.mem_cons_self
    | cons b xs ih =>
        have haddr : a + total (b :: xs) = a + 16 + b.size + total xs := by
          rw [total_cons]
          omega
        rw [haddr]
        exact List.mem_cons_of_mem _ ih

/-- The header before the payload of a laid-out block is that block's. -/
theorem Layout.header_of_at {m : Bytes} {stop p a q : ℕ} {bs : List Block} {c : Block}
    (h : Layout m stop p a bs) (hq : At a bs q c) :
    ∃ r, Header m stop r (q - 16) c := by
  induction bs generalizing p a with
  | nil => exact hq.elim
  | cons b bs ih =>
      rcases hq with ⟨rfl, rfl⟩ | hq
      · rw [Nat.add_sub_cancel]
        exact ⟨p, h.1⟩
      · exact ih h.2 hq

theorem Layout.prev_next {m : Bytes} {stop p a h : ℕ} {bs : List Block}
    (htotal : a + total bs = stop) (hl : Layout m stop p a bs) (hh : h ∈ headers a bs)
    (hne : next m h ≠ 0) : prev m (next m h) = h := by
  obtain ⟨xs, c, ys, rfl, rfl⟩ := mem_headers_iff.1 hh
  obtain ⟨hc, hys⟩ := ((layout_append _ _ _ _).1 hl).2
  rw [total_append, total_cons] at htotal
  rw [hc.next] at hne ⊢
  cases ys with
  | nil =>
      rw [total_nil] at htotal
      rw [show a + total xs + 16 + c.size = stop by omega, link_self] at hne
      exact absurd rfl hne
  | cons d ys =>
      rw [total_cons] at htotal
      rw [link_of_lt (by omega)]
      exact hys.1.prev

theorem Layout.next_prev {m : Bytes} {stop a h : ℕ} {bs : List Block}
    (htotal : a + total bs = stop) (hl : Layout m stop 0 a bs) (hh : h ∈ headers a bs)
    (hne : prev m h ≠ 0) : prev m h ∈ headers a bs ∧ next m (prev m h) = h := by
  obtain ⟨xs, c, ys, rfl, rfl⟩ := mem_headers_iff.1 hh
  have hc := ((layout_append _ _ _ _).1 hl).2.1
  rw [hc.prev] at hne ⊢
  rcases List.eq_nil_or_concat' xs with rfl | ⟨zs, d, rfl⟩
  · exact absurd rfl hne
  · rw [lastHeader_append_singleton]
    rw [List.append_assoc, List.singleton_append] at hl
    have hd := ((layout_append _ _ _ _).1 hl).2.1
    simp only [total_append, total_cons, total_nil] at htotal ⊢
    refine ⟨mem_headers_iff.2 ⟨zs, d, c :: ys, by simp, rfl⟩, ?_⟩
    rw [hd.next, link_of_lt (by omega)]
    omega

/-! ### Runs -/

/-- The heap memory together with the live pointers and the sizes asked for. -/
structure Client where
  memory : Bytes
  live : List (ℕ × ℕ)

/-- One step of a client of the heap at `start`: an allocation of any 32-bit size, the
release of `NULL` or of a live pointer, or a store into a live payload. -/
inductive Client.Step (start : ℕ) : Client → Client → Prop
  | malloc (c : Client) (n p : ℕ) (m : Bytes) (hn : n < 2 ^ 32)
      (h : kmalloc start n c.memory = some (p, m)) :
      Client.Step start c ⟨m, if p = 0 then c.live else (p, n) :: c.live⟩
  | freeNull (c : Client) : Client.Step start c ⟨kfree 0 c.memory, c.live⟩
  | free (c : Client) (p n : ℕ) (hp : (p, n) ∈ c.live) :
      Client.Step start c ⟨kfree p c.memory, c.live.erase (p, n)⟩
  | write (c : Client) (p n x : ℕ) (v : UInt8) (hp : (p, n) ∈ c.live) (hx : p ≤ x)
      (hx' : x < p + n) : Client.Step start c ⟨store8 c.memory x v, c.live⟩

/-- The states a client can bring a freshly initialised heap to. -/
def Client.Reachable (start : ℕ) (m : Bytes) (c : Client) : Prop :=
  Relation.ReflTransGen (Client.Step start) ⟨kheapInit start m, []⟩ c

/-- The live pointers are distinct payloads of used blocks, large enough each. -/
structure Client.Holds (start : ℕ) (bs : List Block) (c : Client) : Prop where
  represents : Represents c.memory start bs
  nodup : (c.live.map Prod.fst).Nodup
  live : ∀ p n, (p, n) ∈ c.live → ∃ b, At start bs p b ∧ b.free = false ∧ n ≤ b.size

theorem represents_kheapInit {start : ℕ} (hp : Placed start) (m : Bytes) :
    Represents (kheapInit start m) start [⟨kheapFixedSize - headerSize, true⟩] where
  layout := by
    have hfit := hp.fits
    have hend : start + 16 + (kheapFixedSize - headerSize) = start + kheapFixedSize := by
      unfold kheapFixedSize headerSize
      omega
    have hheader := header_writeHeader m (start + kheapFixedSize) 0 start
      ⟨kheapFixedSize - headerSize, true⟩ 1 rfl (by decide) (by decide)
      (by simp only [hend, link_self]; decide)
    simp only [hend, link_self] at hheader
    exact ⟨hheader, trivial⟩
  total := rfl

/-- A store into a payload leaves every header alone. -/
theorem Represents.store8 {m : Bytes} {start q x : ℕ} {bs : List Block} {c : Block}
    (h : Represents m start bs) (hq : At start bs q c) (hx : q ≤ x) (hx' : x < q + c.size)
    (v : UInt8) : Represents (store8 m x v) start bs where
  layout := by
    obtain ⟨xs, ys, rfl, rfl⟩ := hq.exists_split
    obtain ⟨hxs, hc, hys⟩ := (layout_append _ _ _ _).1 h.layout
    refine (layout_append _ _ _ _).2 ⟨hxs.frame fun y _ _ => ?_, hc.frame fun y _ _ => ?_,
      hys.frame fun y _ _ => ?_⟩
    · exact store8_of_ne _ _ (by omega)
    · exact store8_of_ne _ _ (by omega)
    · exact store8_of_ne _ _ (by omega)
  total := h.total

/-- `kmalloc` keeps every used block and writes none of its bytes. -/
theorem kmalloc_keeps {m m' : Bytes} {start n p : ℕ} {bs : List Block} (hp : Placed start)
    (h : Represents m start bs) (heq : kmalloc start n m = some (p, m')) :
    ∃ bs', Represents m' start bs' ∧
      (∀ q c, At start bs q c → c.free = false → At start bs' q c ∧ q ≠ p ∧
        ∀ x, q ≤ x → x < q + c.size → m' x = m x) ∧
      (p ≠ 0 → ∃ b, At start bs' p b ∧ b.free = false ∧ n ≤ b.size) := by
  rcases kmalloc_spec n hp h with ⟨-, hnone⟩ | ⟨xs, b, ys, m₁, rfl, -, hfit, hsome, hrep, hout⟩
  · rw [hnone] at heq
    obtain ⟨rfl, rfl⟩ := Prod.mk.inj (Option.some.inj heq)
    refine ⟨bs, h, fun q c hq _ => ⟨hq, ?_, fun _ _ _ => rfl⟩, fun hne => absurd rfl hne⟩
    have hb := hq.bounds
    omega
  · rw [hsome] at heq
    obtain ⟨rfl, rfl⟩ := Prod.mk.inj (Option.some.inj heq)
    refine ⟨_, hrep, ?_, fun _ => ?_⟩
    · intro q c hq hused
      -- the block taken was free, so it is not the used one
      have hapart : q + c.size + 16 ≤ start + total xs + 16 ∨
          start + total xs + 16 + b.size + 16 ≤ q := by
        rcases hq.apart (at_middle start xs ys b) with ⟨-, rfl⟩ | hlt
        · rw [hfit.1] at hused
          exact absurd hused (by simp)
        · exact hlt
      refine ⟨?_, by omega, fun x hx hx' => hout x (by omega)⟩
      rw [at_append] at hq
      rw [at_append, at_append, total_carve]
      rcases hq with hq | ⟨rfl, -⟩ | hq
      · exact Or.inl hq
      · omega
      · rw [Nat.add_assoc (start + total xs)] at hq
        exact Or.inr (Or.inr hq)
    · unfold carve
      split
      · exact ⟨_, (at_append).2 (Or.inr (Or.inl ⟨rfl, rfl⟩)), rfl, le_rfl⟩
      · exact ⟨_, (at_append).2 (Or.inr (Or.inl ⟨rfl, rfl⟩)), rfl, hfit.2⟩

/-- `kfree` of a used block keeps every other used block and writes none of its bytes. -/
theorem kfree_keeps {m : Bytes} {start p : ℕ} {bs : List Block} {b : Block}
    (hp : Placed start) (h : Represents m start bs) (hb : At start bs p b) :
    ∃ bs', Represents (kfree p m) start bs' ∧
      ∀ q c, At start bs q c → c.free = false → q ≠ p → At start bs' q c ∧
        ∀ x, q ≤ x → x < q + c.size → kfree p m x = m x := by
  obtain ⟨xs, ys, rfl, rfl⟩ := hb.exists_split
  obtain ⟨bs', -, hrep, hkeep⟩ := kfree_spec hp h
  exact ⟨bs', hrep, hkeep⟩

/-- Every step of a client keeps its pointers. -/
theorem Client.Step.holds {start : ℕ} {c c' : Client} {bs : List Block}
    (hp : Placed start) (h : Client.Step start c c') (hc : c.Holds start bs) :
    ∃ bs', c'.Holds start bs' := by
  cases h with
  | malloc n p m hn heq =>
      obtain ⟨bs', hrep, hkeep, hnew⟩ := kmalloc_keeps hp hc.represents heq
      have hold : ∀ q k, (q, k) ∈ c.live →
          ∃ b, At start bs' q b ∧ b.free = false ∧ k ≤ b.size := by
        intro q k hmem
        obtain ⟨b, hat, hused, hk⟩ := hc.live q k hmem
        exact ⟨b, (hkeep q b hat hused).1, hused, hk⟩
      refine ⟨bs', hrep, ?_, ?_⟩
      · dsimp only
        split
        · exact hc.nodup
        · refine List.nodup_cons.2 ⟨?_, hc.nodup⟩
          intro hmem
          obtain ⟨⟨q, k⟩, hlive, rfl⟩ := List.mem_map.1 hmem
          obtain ⟨b, hat, hused, -⟩ := hc.live q k hlive
          exact (hkeep q b hat hused).2.1 rfl
      · dsimp only
        split
        · exact hold
        · next hne =>
            intro q k hmem
            rcases List.mem_cons.1 hmem with heq | hmem
            · obtain ⟨rfl, rfl⟩ := Prod.mk.inj heq
              exact hnew hne
            · exact hold q k hmem
  | freeNull => exact ⟨bs, hc⟩
  | free p n hmem =>
      obtain ⟨b, hat, -, -⟩ := hc.live p n hmem
      obtain ⟨bs', hrep, hkeep⟩ := kfree_keeps hp hc.represents hat
      have hnodup : c.live.Nodup := hc.nodup.of_map _
      refine ⟨bs', hrep, hc.nodup.sublist (List.erase_sublist.map _), ?_⟩
      intro q k herase
      obtain ⟨hne, hq⟩ := (hnodup.mem_erase_iff).1 herase
      have hqp : q ≠ p := by
        rintro rfl
        exact hne (List.inj_on_of_nodup_map hc.nodup hq hmem rfl)
      obtain ⟨d, hat', hused, hk⟩ := hc.live q k hq
      exact ⟨d, (hkeep q d hat' hused hqp).1, hused, hk⟩
  | write p n x v hmem hx hx' =>
      obtain ⟨b, hat, -, hn⟩ := hc.live p n hmem
      exact ⟨bs, hc.represents.store8 hat hx (by omega) v, hc.nodup, hc.live⟩

theorem Client.Reachable.holds {start : ℕ} {m : Bytes} {c : Client} (hp : Placed start)
    (h : Client.Reachable start m c) : ∃ bs, c.Holds start bs := by
  induction h with
  | refl =>
      exact ⟨_, represents_kheapInit hp m, List.nodup_nil,
        fun p n hmem => absurd hmem List.not_mem_nil⟩
  | tail _ hstep ih =>
      obtain ⟨bs, hbs⟩ := ih
      exact hstep.holds hp hbs

/-! ### What a run guarantees -/

/-- The bytes of the payload at `p`, as its header gives them. -/
def InPayload (m : Bytes) (p x : ℕ) : Prop :=
  p ≤ x ∧ x < p + size m (p - headerSize)

/-- The state of the heap as its memory shows it: `hs` are the headers met along
`next`. -/
structure Client.Sound (start : ℕ) (c : Client) (hs : List ℕ) : Prop where
  walk : Walk c.memory start hs
  tiles : Tiles c.memory (start + kheapFixedSize) start hs
  prev_next : ∀ h ∈ hs, next c.memory h ≠ 0 → prev c.memory (next c.memory h) = h
  next_prev : ∀ h ∈ hs, prev c.memory h ≠ 0 →
    prev c.memory h ∈ hs ∧ next c.memory (prev c.memory h) = h
  live : ∀ p n, (p, n) ∈ c.live → headerSize ≤ p ∧ p - headerSize ∈ hs ∧
    isFree c.memory (p - headerSize) = false ∧ n ≤ size c.memory (p - headerSize)
  nodup : (c.live.map Prod.fst).Nodup
  disjoint : ∀ p n q k, (p, n) ∈ c.live → (q, k) ∈ c.live → p ≠ q →
    ∀ x, InPayload c.memory p x → ¬ InPayload c.memory q x
  headers : ∀ p n h, (p, n) ∈ c.live → h ∈ hs →
    ∀ x, InPayload c.memory p x → x < h ∨ h + headerSize ≤ x

theorem Client.Holds.sound {start : ℕ} {bs : List Block} {c : Client} (hp : Placed start)
    (hc : c.Holds start bs) : c.Sound start (Kheap.headers start bs) := by
  have htotal : start + total bs = start + kheapFixedSize := by rw [hc.represents.total]
  have hlayout := hc.represents.layout
  have hsize : ∀ p n, (p, n) ∈ c.live → ∃ b, At start bs p b ∧ b.free = false ∧
      n ≤ b.size ∧ size c.memory (p - headerSize) = b.size := by
    intro p n hmem
    obtain ⟨b, hat, hused, hn⟩ := hc.live p n hmem
    obtain ⟨r, hheader⟩ := hlayout.header_of_at hat
    exact ⟨b, hat, hused, hn, hheader.size⟩
  constructor
  case walk =>
    have hwalk := hlayout.walk hp.pos htotal
    rwa [link_of_lt (by unfold kheapFixedSize; omega)] at hwalk
  case tiles => exact hlayout.tiles htotal
  case prev_next => exact fun h hh => hlayout.prev_next htotal hh
  case next_prev => exact fun h hh => hlayout.next_prev htotal hh
  case live =>
    intro p n hmem
    obtain ⟨b, hat, hused, hn, hs⟩ := hsize p n hmem
    obtain ⟨r, hheader⟩ := hlayout.header_of_at hat
    have hb := hat.bounds
    refine ⟨by unfold headerSize; omega, ?_, hheader.isFree.trans hused, hs ▸ hn⟩
    obtain ⟨xs, ys, rfl, rfl⟩ := hat.exists_split
    exact mem_headers_iff.2 ⟨xs, b, ys, rfl, rfl⟩
  case nodup => exact hc.nodup
  case disjoint =>
    intro p n q k hmem hmem' hne x hx hx'
    obtain ⟨b, hat, -, -, hs⟩ := hsize p n hmem
    obtain ⟨d, hat', -, -, hs'⟩ := hsize q k hmem'
    unfold InPayload at hx hx'
    rw [hs] at hx
    rw [hs'] at hx'
    rcases hat.apart hat' with ⟨heq, -⟩ | hlt | hlt
    · exact hne heq
    · omega
    · omega
  case headers =>
    intro p n h hmem hh x hx
    obtain ⟨b, hat, -, -, hs⟩ := hsize p n hmem
    obtain ⟨xs, d, ys, rfl, rfl⟩ := mem_headers_iff.1 hh
    unfold InPayload at hx
    rw [hs] at hx
    have hb := hat.bounds
    unfold headerSize
    rcases hat.apart (at_middle start xs ys d) with ⟨rfl, -⟩ | hlt | hlt
    · omega
    · omega
    · omega

/-- In every state of a run over the heap that `kheap_init` sets up, the blocks tile
the heap and the live payloads are apart from each other and from the headers,
`kmalloc` returns for every size, and neither `kmalloc` nor `kfree` of `NULL` or of a
live pointer changes a byte of a payload that stays live. -/
theorem kheap_sound (kernelEnd bitmapSize : UInt32)
    (hp : Placed (heapStart kernelEnd bitmapSize)) (m : Bytes) (c : Client)
    (hc : Client.Reachable (heapStart kernelEnd bitmapSize) m c) :
    (∃ hs, c.Sound (heapStart kernelEnd bitmapSize) hs) ∧
      (∀ n < 2 ^ 32, ∃ p m', kmalloc (heapStart kernelEnd bitmapSize) n c.memory = some (p, m') ∧
        ∀ q k, (q, k) ∈ c.live → q ≠ p ∧ ∀ x, InPayload c.memory q x → m' x = c.memory x) ∧
      (∀ x, kfree 0 c.memory x = c.memory x) ∧
      ∀ p n, (p, n) ∈ c.live → ∀ q k, (q, k) ∈ c.live → q ≠ p →
        ∀ x, InPayload c.memory q x → kfree p c.memory x = c.memory x := by
  generalize heapStart kernelEnd bitmapSize = start at *
  obtain ⟨bs, hbs⟩ := hc.holds hp
  -- a live payload is the payload of a used block of the layout
  have hused : ∀ q k, (q, k) ∈ c.live → ∃ b, At start bs q b ∧ b.free = false ∧
      ∀ x, InPayload c.memory q x → q ≤ x ∧ x < q + b.size := by
    intro q k hmem
    obtain ⟨b, hat, hfree, -⟩ := hbs.live q k hmem
    obtain ⟨r, hheader⟩ := hbs.represents.layout.header_of_at hat
    exact ⟨b, hat, hfree, fun x hx => hheader.size ▸ hx⟩
  refine ⟨⟨_, hbs.sound hp⟩, ?_, fun _ => rfl, ?_⟩
  · intro n _
    have hreturns : ∃ p m', kmalloc start n c.memory = some (p, m') := by
      rcases kmalloc_spec n hp hbs.represents with ⟨-, h⟩ | ⟨_, _, _, m', -, -, -, h, -⟩
      · exact ⟨_, _, h⟩
      · exact ⟨_, _, h⟩
    obtain ⟨p, m', heq⟩ := hreturns
    obtain ⟨_, -, hkeep, -⟩ := kmalloc_keeps hp hbs.represents heq
    refine ⟨p, m', heq, fun q k hmem => ?_⟩
    obtain ⟨b, hat, hfree, hin⟩ := hused q k hmem
    obtain ⟨-, hne, hbytes⟩ := hkeep q b hat hfree
    exact ⟨hne, fun x hx => hbytes x (hin x hx).1 (hin x hx).2⟩
  · intro p n hmem q k hmem' hne x hx
    obtain ⟨b, hat, -, -⟩ := hused p n hmem
    obtain ⟨d, hat', hfree, hin⟩ := hused q k hmem'
    obtain ⟨_, -, hkeep⟩ := kfree_keeps hp hbs.represents hat
    exact (hkeep q d hat' hfree hne).2 x (hin x hx).1 (hin x hx).2

/-! ## A small run -/

/-- The heap of a kernel that ends at `0x210000`, on a machine with 8 MiB of memory. -/
theorem heapStart_small :
    heapStart 0x210000 (UInt32.ofNat (Pmm.pmmngrInit 8192 fun _ => 0).pmmngrGetBitmapSize) =
      0x211000 := by
  decide

/-- Three calls of `kmalloc`, and what `kfree` of the second pointer leaves. -/
def smallRun : Option (ℕ × ℕ × ℕ × Bytes) :=
  (kmalloc 0x211000 100 (kheapInit 0x211000 fun _ => 0)).bind fun r =>
    (kmalloc 0x211000 200 r.2).bind fun s =>
      (kmalloc 0x211000 50 s.2).map fun t => (r.1, s.1, t.1, kfree s.1 t.2)

theorem exists_reachable_small : ∃ m, Client.Reachable 0x211000 (fun _ => 0)
    ⟨m, [(0x21115C, 50), (0x211010, 100)]⟩ := by
  have hpointers : smallRun.map (fun r => (r.1, r.2.1, r.2.2.1)) =
      some (0x211010, 0x211084, 0x21115C) := by
    decide +kernel
  obtain ⟨⟨p, q, r, m⟩, hrun, hvalues⟩ := Option.map_eq_some_iff.1 hpointers
  obtain ⟨⟨p, m₁⟩, hfirst, hrun⟩ := Option.bind_eq_some_iff.1 hrun
  obtain ⟨⟨q, m₂⟩, hsecond, hrun⟩ := Option.bind_eq_some_iff.1 hrun
  obtain ⟨⟨r, m₃⟩, hthird, hrun⟩ := Option.map_eq_some_iff.1 hrun
  simp only [Prod.mk.injEq] at hrun hvalues
  obtain ⟨rfl, rfl, rfl, rfl⟩ := hrun
  obtain ⟨rfl, rfl, rfl⟩ := hvalues
  have h₁ := Client.Step.malloc ⟨kheapInit 0x211000 fun _ => 0, []⟩ 100 _ m₁ (by decide) hfirst
  have h₂ := Client.Step.malloc ⟨m₁, [(0x211010, 100)]⟩ 200 _ m₂ (by decide) hsecond
  have h₃ := Client.Step.malloc ⟨m₂, [(0x211084, 200), (0x211010, 100)]⟩ 50 _ m₃ (by decide)
    hthird
  have h₄ : Client.Step 0x211000 ⟨m₃, [(0x21115C, 50), (0x211084, 200), (0x211010, 100)]⟩
      ⟨kfree 0x211084 m₃, [(0x21115C, 50), (0x211010, 100)]⟩ :=
    .free _ 0x211084 200 (by simp)
  exact ⟨_, (((Relation.ReflTransGen.single h₁).tail h₂).tail h₃).tail h₄⟩

/-- With two live payloads and a free block between them. -/
theorem kheap_sound_small : ∃ (m : Bytes) (hs : List ℕ),
    Client.Sound 0x211000 ⟨m, [(0x21115C, 50), (0x211010, 100)]⟩ hs := by
  obtain ⟨m, hreach⟩ := exists_reachable_small
  have hsound := kheap_sound 0x210000
    (UInt32.ofNat (Pmm.pmmngrInit 8192 fun _ => 0).pmmngrGetBitmapSize)
    (heapStart_small.symm ▸ ⟨by decide, by decide⟩) (fun _ => 0)
    ⟨m, [(0x21115C, 50), (0x211010, 100)]⟩ (heapStart_small.symm ▸ hreach)
  rw [heapStart_small] at hsound
  exact ⟨m, hsound.1⟩

end Kheap

end Yotos
