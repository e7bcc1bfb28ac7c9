import Yotos.Fat16.Contents
import Yotos.Library.Buffer

/-!
# The bytes of a file

A file is the list of bytes that its chain holds, cut to its size; the chain may be too
short. `fat16_vfs_read` delivers a piece of that list, and a caller that reads piece
after piece until nothing comes gets the whole list. The chain is followed as the loop
does, so no more is asked of the table than that it ends.
-/

namespace Yotos

namespace Fat16

open Bytes Kheap

variable {b : Bpb} {d : Disk} {c offset : ℕ} {l : List ℕ}

/-- The clusters that the loops meet from `c` on. -/
def DataChain (b : Bpb) (d : Disk) : ℕ → List ℕ → Prop
  | c, [] => isCluster c = false
  | c, x :: l => c = x ∧ isCluster c = true ∧ DataChain b d (fatEntry b d c) l

/-- The bytes of a cluster. -/
def clusterContent (b : Bpb) (d : Disk) (c : ℕ) : List UInt8 :=
  bytesAt d (clusterAddr b c) b.clusterBytes

/-- The clusters of a chain, one after the other. -/
def chainContent (b : Bpb) (d : Disk) (l : List ℕ) : List UInt8 :=
  l.flatMap (clusterContent b d)

/-- The file: the bytes of the chain, cut to the size of the node. -/
def fileContent (fs : Fs) (node : VfsNode) (l : List ℕ) : List UInt8 :=
  (chainContent fs.bpb fs.disk l).take node.size

@[simp] theorem length_clusterContent (b : Bpb) (d : Disk) (c : ℕ) :
    (clusterContent b d c).length = b.clusterBytes := by
  simp [clusterContent]

@[simp] theorem chainContent_nil (b : Bpb) (d : Disk) : chainContent b d [] = [] := rfl

@[simp] theorem chainContent_cons (b : Bpb) (d : Disk) (c : ℕ) (l : List ℕ) :
    chainContent b d (c :: l) = clusterContent b d c ++ chainContent b d l := rfl

/-- Whole clusters are skipped. -/
theorem drop_chainContent (b : Bpb) (d : Disk) (l : List ℕ) (n : ℕ) :
    (chainContent b d l).drop (n * b.clusterBytes) = chainContent b d (l.drop n) := by
  induction n generalizing l with
  | zero => simp
  | succ n ih =>
      cases l with
      | nil => simp
      | cons c l =>
          rw [chainContent_cons, List.drop_append, List.drop_eq_nil_of_le, List.nil_append,
            length_clusterContent, Nat.succ_mul, Nat.add_sub_cancel, ih, List.drop_succ_cons]
          rw [length_clusterContent, Nat.succ_mul]
          exact Nat.le_add_left _ _

/-- The walk ends in what follows the clusters skipped, or past the end. -/
theorem DataChain.skip (h : DataChain b d c l) (n : ℕ) :
    (∃ x, skipClusters b d n c = some x ∧ DataChain b d x (l.drop n)) ∨
      (skipClusters b d n c = none ∧ l.drop n = []) := by
  induction n generalizing c l with
  | zero => exact Or.inl ⟨c, rfl, h⟩
  | succ n ih =>
      cases l with
      | nil =>
          right
          have hc : isCluster c = false := h
          rw [skipClusters, hc]
          exact ⟨rfl, rfl⟩
      | cons x l =>
          obtain ⟨rfl, hc, hnext⟩ := h
          rw [skipClusters, if_pos hc, List.drop_succ_cons]
          exact ih hnext

/-- A cluster that was read, as the list of its bytes. -/
theorem bytesAt_readCluster (hc : isCluster c = true) (cbuf : Bytes) :
    bytesAt (readCluster b d c cbuf) 0 b.clusterBytes = clusterContent b d c := by
  obtain ⟨htwo, hlt⟩ := isCluster_iff.1 hc
  apply List.ext_getElem?
  intro i
  rcases Nat.lt_or_ge i b.clusterBytes with hi | hi
  · rw [getElem?_bytesAt hi, clusterContent, getElem?_bytesAt hi, Nat.zero_add,
      readCluster_apply htwo (by omega) cbuf hi]
  · rw [List.getElem?_eq_none (by simpa using hi), List.getElem?_eq_none (by simpa using hi)]

/-- The rest of the loop of `fat16_vfs_read` puts the rest of the chain behind the `r`
bytes that it has read, up to `size`. -/
theorem readLoop_eq {innerOff size r fuel : ℕ} {first : Bool}
    (hchain : DataChain b d c l)
    (hstart : (if first then innerOff else 0) < b.clusterBytes) (hfuel : size ≤ fuel + r)
    (hr : r ≤ size) (hsize : size < 2 ^ 31) (cbuf buf : Bytes) :
    readLoop b d innerOff size fuel r c first cbuf buf =
      some (r + (((chainContent b d l).drop (if first then innerOff else 0)).take
          (size - r)).length,
        put buf r (((chainContent b d l).drop (if first then innerOff else 0)).take
          (size - r))) := by
  have hbytes : b.clusterBytes < 2 ^ 18 := by
    have hlt := b.spc_lt
    unfold Bpb.clusterBytes
    omega
  induction l generalizing c r fuel first cbuf buf with
  | nil =>
      have hc : isCluster c = false := hchain
      cases fuel <;> simp [readLoop, hc]
  | cons x l ih =>
      obtain ⟨rfl, hc, hnext⟩ := hchain
      rcases Nat.lt_or_ge r size with hlt | hge
      swap
      · have hnone : size - r = 0 := by omega
        rw [hnone]
        cases fuel <;> simp [readLoop, hge.not_gt]
      obtain ⟨fuel, rfl⟩ : ∃ f, fuel = f + 1 := ⟨fuel - 1, by omega⟩
      generalize hs : (if first then innerOff else 0) = start at hstart ⊢
      obtain ⟨n, hn⟩ : ∃ n, n = min (size - r) (b.clusterBytes - start) := ⟨_, rfl⟩
      have hcount : (if size < (r + (b.clusterBytes - start)) % 2 ^ 32 then size - r
          else b.clusterBytes - start) = n := by
        rw [Nat.mod_eq_of_lt (by omega)]
        split_ifs <;> omega
      have hmod : (r + n) % 2 ^ 32 = r + n := Nat.mod_eq_of_lt (by omega)
      -- the bytes of this cluster, and those of the rest of the chain
      have hpiece : bytesAt (readCluster b d c cbuf) start n =
          ((clusterContent b d c).drop start).take n := by
        rw [← bytesAt_readCluster hc cbuf, ← bytesAt_drop, ← bytesAt_take (by omega),
          Nat.zero_add]
      have hlen : (((clusterContent b d c).drop start).take n).length = n := by
        simp
        omega
      have hsplit : ((chainContent b d (c :: l)).drop start).take (size - r) =
          ((clusterContent b d c).drop start).take n ++
            (chainContent b d l).take (size - (r + n)) := by
        rw [chainContent_cons, List.drop_append_of_le_length (by simp; omega), List.take_append]
        congr 1
        · rw [List.take_eq_take_iff]
          simp
          omega
        · rw [List.take_eq_take_iff]
          simp
          omega
      rw [readLoop, if_pos ⟨hlt, hc⟩]
      dsimp only
      rw [hs, hcount, hmod, ih hnext (by simp; omega) (by omega) (by omega), copy_eq_put, hpiece,
        hsplit, put_append, hlen]
      simp [Nat.add_assoc, hlen]

/-- What a read leaves of the file, taken from the chain. -/
theorem drop_take_fileContent (fs : Fs) (node : VfsNode) (l : List ℕ) (offset size : ℕ) :
    ((fileContent fs node l).drop offset).take size =
      (((chainContent fs.bpb fs.disk (l.drop (offset / fs.bpb.clusterBytes))).drop
        (offset % fs.bpb.clusterBytes)).take (min size (node.size - offset))) := by
  have hsplit : (chainContent fs.bpb fs.disk l).drop offset =
      (chainContent fs.bpb fs.disk (l.drop (offset / fs.bpb.clusterBytes))).drop
        (offset % fs.bpb.clusterBytes) := by
    rw [← drop_chainContent, List.drop_drop, Nat.mul_comm, Nat.div_add_mod]
  rw [fileContent, List.drop_take, hsplit, List.take_take]

/-- A read puts the bytes from `offset` on into the buffer, as many as are asked for and
there, and returns their number. -/
theorem fat16VfsRead_eq {fs : Fs} {node : VfsNode} (hspc : 1 ≤ fs.bpb.spc)
    (hmounted : fs.mounted = true)
    (hchain : DataChain fs.bpb fs.disk (node.inode % 65536) l) {size p : ℕ} {heap : Bytes}
    (hsize : size < 2 ^ 31)
    (hmalloc : kmalloc fs.heapStart fs.bpb.clusterBytes fs.heap = some (p, heap)) (hp : p ≠ 0)
    (offset : ℕ) (buf : Bytes) :
    ∃ heap', fat16VfsRead node offset size buf fs =
      some (((((fileContent fs node l).drop offset).take size).length : ℤ),
        put buf 0 (((fileContent fs node l).drop offset).take size),
        { fs with heap := heap' }) := by
  have hpos : 0 < fs.bpb.clusterBytes := by
    unfold Bpb.clusterBytes
    omega
  rw [fat16VfsRead, if_pos hmounted, drop_take_fileContent]
  dsimp only
  split_ifs with hend
  · have hnone : min size (node.size - offset) = 0 := by omega
    refine ⟨fs.heap, ?_⟩
    rw [hnone, List.take_zero, put_nil]
    rfl
  · rcases hchain.skip (offset / fs.bpb.clusterBytes) with ⟨x, hskip, hrest⟩ | ⟨hskip, hrest⟩
    · have hloop := @readLoop_eq fs.bpb fs.disk x _ (offset % fs.bpb.clusterBytes)
        (min size (node.size - offset)) 0 (min size (node.size - offset)) true hrest
        (by simpa using Nat.mod_lt offset hpos) (by omega) (by omega) (by omega)
        (fun y => heap (p + y)) buf
      simp only [if_true, Nat.zero_add, Nat.sub_zero] at hloop
      refine ⟨kfree p heap, ?_⟩
      simp only [hskip, hmalloc, Option.bind_some, hp, if_false, hloop, Option.map_some]
      rw [toInt, if_pos]
      rw [List.length_take]
      omega
    · refine ⟨fs.heap, ?_⟩
      simp [hskip, hrest]

/-! ## Reading piece by piece -/

/-- A call of `fat16_vfs_read`: how many bytes are asked for, the buffer, and the heap,
which others may have used since the last call. -/
structure Call where
  size : ℕ
  buf : Bytes
  heap : Bytes

/-- The call asks for something, and the heap has a cluster buffer. -/
def Call.Ready (fs : Fs) (call : Call) : Prop :=
  0 < call.size ∧ call.size < 2 ^ 31 ∧
    ∃ p heap, kmalloc fs.heapStart fs.bpb.clusterBytes call.heap = some (p, heap) ∧ p ≠ 0

/-- The bytes that the loop of `cmd_cat` sees from `offset` on, until a call returns
nothing; `none` when the calls run out before. -/
def readChunks (fs : Fs) (node : VfsNode) : List Call → (offset : ℕ) → Option (List UInt8)
  | [], _ => none
  | call :: calls, offset =>
      (fat16VfsRead node offset call.size call.buf { fs with heap := call.heap }).bind
        fun (ret, out, _) =>
          if 0 < ret then
            (readChunks fs node calls ((offset + ret.toNat) % 2 ^ 32)).map
              (bytesAt out 0 ret.toNat ++ ·)
          else some []

theorem readChunks_cons {fs : Fs} {node : VfsNode} (hspc : 1 ≤ fs.bpb.spc)
    (hmounted : fs.mounted = true)
    (hchain : DataChain fs.bpb fs.disk (node.inode % 65536) l)
    (hfit : (fileContent fs node l).length < 2 ^ 31) {call : Call} (hcall : call.Ready fs)
    (calls : List Call) (hoffset : offset ≤ (fileContent fs node l).length) :
    readChunks fs node (call :: calls) offset =
      if offset < (fileContent fs node l).length then
        (readChunks fs node calls
          (offset + min call.size ((fileContent fs node l).length - offset))).map
            (((fileContent fs node l).drop offset).take call.size ++ ·)
      else some [] := by
  obtain ⟨hpos, hlt, p, heap, hmalloc, hp⟩ := hcall
  have hread := @fat16VfsRead_eq l { fs with heap := call.heap } node hspc hmounted hchain
    call.size p heap hlt hmalloc hp offset call.buf
  obtain ⟨heap', hread⟩ := hread
  have hcontent : fileContent { fs with heap := call.heap } node l = fileContent fs node l := rfl
  rw [hcontent] at hread
  obtain ⟨n, hn⟩ : ∃ n, n = (((fileContent fs node l).drop offset).take call.size).length :=
    ⟨_, rfl⟩
  have hmin : n = min call.size ((fileContent fs node l).length - offset) := by
    rw [hn, List.length_take, List.length_drop]
  rw [readChunks, hread, Option.bind_some]
  dsimp only
  rw [← hn, Int.toNat_natCast, ← hmin]
  by_cases hmore : offset < (fileContent fs node l).length
  · rw [if_pos (by omega), if_pos hmore, Nat.mod_eq_of_lt (by omega), hn, bytesAt_put]
  · rw [if_neg (by omega), if_neg hmore]

/-- Enough calls give the rest of the file, and no calls give anything else. -/
theorem readChunks_eq {fs : Fs} {node : VfsNode} (hspc : 1 ≤ fs.bpb.spc)
    (hmounted : fs.mounted = true)
    (hchain : DataChain fs.bpb fs.disk (node.inode % 65536) l)
    (hfit : (fileContent fs node l).length < 2 ^ 31) {calls : List Call}
    (hcalls : ∀ call ∈ calls, call.Ready fs) (hoffset : offset ≤ (fileContent fs node l).length) :
    (∀ xs, readChunks fs node calls offset = some xs → xs = (fileContent fs node l).drop offset) ∧
      ((fileContent fs node l).length - offset < calls.length →
        readChunks fs node calls offset = some ((fileContent fs node l).drop offset)) := by
  induction calls generalizing offset with
  | nil => exact ⟨fun _ hxs => absurd hxs (by simp [readChunks]), fun hlen => absurd hlen (by simp)⟩
  | cons call calls ih =>
      have hready := hcalls call List.mem_cons_self
      rw [readChunks_cons hspc hmounted hchain hfit hready calls hoffset]
      split_ifs with hmore
      · obtain ⟨n, hn⟩ : ∃ n, n = min call.size ((fileContent fs node l).length - offset) :=
          ⟨_, rfl⟩
        have hpos := hready.1
        obtain ⟨hsound, henough⟩ := @ih (offset + n)
          (fun c hc => hcalls c (List.mem_cons_of_mem _ hc)) (by omega)
        have hjoin : ((fileContent fs node l).drop offset).take call.size ++
            (fileContent fs node l).drop (offset + n) = (fileContent fs node l).drop offset := by
          have htake : ((fileContent fs node l).drop offset).take call.size =
              ((fileContent fs node l).drop offset).take n := by
            rw [List.take_eq_take_iff, List.length_drop]
            omega
          rw [htake, ← List.drop_drop, List.take_append_drop]
        rw [← hn]
        constructor
        · intro xs hxs
          obtain ⟨ys, hys, rfl⟩ := Option.map_eq_some_iff.1 hxs
          rw [hsound ys hys, hjoin]
        · intro hlen
          rw [henough (by simp only [List.length_cons] at hlen; omega), Option.map_some, hjoin]
      · rw [List.drop_eq_nil_of_le (by omega)]
        exact ⟨fun xs hxs => (Option.some.inj hxs).symm, fun _ => rfl⟩

/-- For every file whose chain ends, long enough for the size or not, a read delivers
exactly the piece of the file that it asks for, and reading piece by piece delivers the
file. -/
theorem fat16VfsRead_delivers (fs : Fs) (node : VfsNode) (l : List ℕ) (hspc : 1 ≤ fs.bpb.spc)
    (hmounted : fs.mounted = true)
    (hchain : DataChain fs.bpb fs.disk (node.inode % 65536) l)
    (hfit : (fileContent fs node l).length < 2 ^ 31) :
    (∀ offset < 2 ^ 31, ∀ size < 2 ^ 31, ∀ buf p heap,
      kmalloc fs.heapStart fs.bpb.clusterBytes fs.heap = some (p, heap) → p ≠ 0 →
      ∃ heap', fat16VfsRead node offset size buf fs =
        some (((((fileContent fs node l).drop offset).take size).length : ℤ),
          put buf 0 (((fileContent fs node l).drop offset).take size),
          { fs with heap := heap' })) ∧
      ∀ calls : List Call, (∀ call ∈ calls, call.Ready fs) →
        (∀ xs, readChunks fs node calls 0 = some xs → xs = fileContent fs node l) ∧
          ((fileContent fs node l).length < calls.length →
            readChunks fs node calls 0 = some (fileContent fs node l)) := by
  constructor
  · intro offset _ size hsize buf p heap hmalloc hp
    exact fat16VfsRead_eq hspc hmounted hchain hsize hmalloc hp offset buf
  · intro calls hcalls
    exact readChunks_eq hspc hmounted hchain hfit hcalls (Nat.zero_le _)

/-- The file of one byte on a small volume. -/
theorem fat16VfsRead_delivers_small :
    fileContent (mountedFs (smallVolume 2 1 0xFF)) (smallNode 2 1 0xFF) [2] = [0] ∧
      ∃ heap, fat16VfsRead (smallNode 2 1 0xFF) 0 512 (fun _ => 0xAA)
          (mountedFs (smallVolume 2 1 0xFF)) =
        some (1, put (fun _ => 0xAA) 0 [0],
          { mountedFs (smallVolume 2 1 0xFF) with heap := heap }) := by
  have hcontent : fileContent (mountedFs (smallVolume 2 1 0xFF)) (smallNode 2 1 0xFF) [2] =
      [0] := by decide +kernel
  have hmalloc : (kmalloc (mountedFs (smallVolume 2 1 0xFF)).heapStart
      (mountedFs (smallVolume 2 1 0xFF)).bpb.clusterBytes
      (mountedFs (smallVolume 2 1 0xFF)).heap).map (fun r => decide (r.1 ≠ 0)) = some true := by
    decide +kernel
  obtain ⟨⟨p, heap⟩, hmalloc, hp⟩ := Option.map_eq_some_iff.1 hmalloc
  refine ⟨hcontent, ?_⟩
  have hchain : DataChain (mountedFs (smallVolume 2 1 0xFF)).bpb (smallVolume 2 1 0xFF)
      ((smallNode 2 1 0xFF).inode % 65536) [2] :=
    ⟨by decide +kernel, by decide +kernel, by
      show isCluster _ = false
      decide +kernel⟩
  have hread := (fat16VfsRead_delivers (mountedFs (smallVolume 2 1 0xFF)) (smallNode 2 1 0xFF) [2]
    (by decide +kernel) rfl hchain (by rw [hcontent]; decide)).1 0 (by decide) 512 (by decide)
    (fun _ => 0xAA) p heap hmalloc (of_decide_eq_true hp)
  rw [hcontent] at hread
  exact hread

end Fat16

end Yotos
