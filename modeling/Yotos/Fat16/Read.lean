import Yotos.Fat16.Write

/-!
# Reading a file

A file whose chain is long enough for its size is read back byte by byte, at every
offset and for every length, whatever the buffer of the heap holds.
-/

namespace Yotos

namespace Fat16

open Bytes Kheap Library

variable {b : Bpb} {top : ℕ} {d : Disk} {first c offset total : ℕ} {l : List ℕ}

/-- The rest of the loop of `fat16_vfs_read`, `r` bytes having been read. -/
theorem readLoop_spec (hb : Geometry b top) (hl : ClusterChain b top d first l)
    (hlen : offset + total ≤ l.length * b.clusterBytes)
    (hfit : total + b.clusterBytes ≤ 2 ^ 32) {fuel r cluster : ℕ} {fst : Bool}
    (hfuel : total ≤ fuel + r) (hr : r ≤ total)
    (hcluster : r < total → l[(offset + r) / b.clusterBytes]? = some cluster)
    (hstart : r < total →
      (if fst then offset % b.clusterBytes else 0) = (offset + r) % b.clusterBytes)
    (cbuf buf : Bytes) :
    ∃ out, readLoop b d (offset % b.clusterBytes) total fuel r cluster fst cbuf buf =
        some (total, out) ∧
      (∀ x, r ≤ x → x < total → out x = byteAt b d l (offset + x)) ∧
      ∀ x < r, out x = buf x := by
  have hpos := clusterBytes_pos hb
  induction fuel generalizing r cluster fst cbuf buf with
  | zero =>
      have heq : r = total := by omega
      subst heq
      refine ⟨buf, ?_, fun x hx hx' => by omega, fun _ _ => rfl⟩
      rw [readLoop, if_neg fun h => lt_irrefl r h.1]
  | succ fuel ih =>
      rcases Nat.lt_or_ge r total with hlt | hge
      swap
      · have heq : r = total := by omega
        subst heq
        refine ⟨buf, ?_, fun x hx hx' => by omega, fun _ _ => rfl⟩
        rw [readLoop, if_neg fun h => lt_irrefl r h.1]
      have hcl := hcluster hlt
      have huse := hl.inside_of_mem (List.mem_of_getElem? hcl)
      have hmod := Nat.mod_lt (offset + r) hpos
      have hdiv := Nat.div_add_mod (offset + r) b.clusterBytes
      -- the bytes left in this cluster, and the ones copied from it
      obtain ⟨avail, havail⟩ : ∃ k, k = b.clusterBytes - (offset + r) % b.clusterBytes := ⟨_, rfl⟩
      have hwrap : (r + avail) % 2 ^ 32 = r + avail := Nat.mod_eq_of_lt (by omega)
      obtain ⟨n, hn⟩ : ∃ n, n = if total < r + avail then total - r else avail := ⟨_, rfl⟩
      have hn₀ : 0 < n ∧ r + n ≤ total ∧ n ≤ avail ∧ (r + n < total → n = avail) := by
        split_ifs at hn <;> omega
      have hwrap' : (r + n) % 2 ^ 32 = r + n := Nat.mod_eq_of_lt (by omega)
      have hnext : r + n < total → (offset + (r + n)) / b.clusterBytes =
          (offset + r) / b.clusterBytes + 1 ∧ (offset + (r + n)) % b.clusterBytes = 0 := by
        intro hmore
        have hend : offset + (r + n) =
            ((offset + r) / b.clusterBytes + 1) * b.clusterBytes := by
          rw [Nat.succ_mul, Nat.mul_comm]
          have := hn₀.2.2.2 hmore
          omega
        rw [hend]
        exact ⟨Nat.mul_div_cancel _ hpos, Nat.mul_mod_left _ _⟩
      obtain ⟨out, hrun, hread, hkeep⟩ := @ih (r + n) (fatEntry b d cluster) false
        (by omega) hn₀.2.1
        (fun hmore => by
          have hidx : (offset + r) / b.clusterBytes + 1 < l.length := by
            rw [← (hnext hmore).1]
            exact index_lt (by omega)
          rw [(hnext hmore).1, List.getElem?_eq_getElem hidx, fatEntry_eq (huse.lt hb)]
          exact congrArg some (hl.next_getElem hcl (List.getElem?_eq_getElem hidx)).symm)
        (fun hmore => (hnext hmore).2.symm) (readCluster b d cluster cbuf)
        (copy buf r (readCluster b d cluster cbuf) ((offset + r) % b.clusterBytes) n)
      refine ⟨out, ?_, fun x hx hx' => ?_, fun x hx => ?_⟩
      · rw [readLoop, if_pos ⟨hlt, isCluster_of_inUse hb huse⟩]
        simp only [hstart hlt]
        rw [← havail, hwrap, ← hn, hwrap']
        exact hrun
      · rcases Nat.lt_or_ge x (r + n) with hin | hout
        · have hxdiv : (offset + x) / b.clusterBytes = (offset + r) / b.clusterBytes := by
            refine Nat.div_eq_of_lt_le ?_ ?_
            · rw [Nat.mul_comm]
              omega
            · rw [Nat.succ_mul, Nat.mul_comm]
              omega
          have hxmod := Nat.div_add_mod (offset + x) b.clusterBytes
          rw [hxdiv] at hxmod
          have hsplit : (offset + r) % b.clusterBytes + (x - r) =
              (offset + x) % b.clusterBytes := by omega
          rw [hkeep x hin, copy_of_mem _ _ ⟨hx, hin⟩, hsplit,
            readCluster_apply huse.1 (huse.lt hb) cbuf (Nat.mod_lt _ hpos),
            byteAt_eq (hxdiv ▸ hcl)]
        · exact hread x hout hx'
      · rw [hkeep x (by omega), copy_of_apart _ _ _ (Or.inl hx)]

/-- `node` has the bytes `content`: every read, into any buffer and with any heap that
has room for a cluster, returns as many as there are. The last condition is met by every
read that `sectors_per_cluster` of at most 128 allows; it keeps the 32-bit sum of the
bytes read and the cluster size from wrapping. -/
def ReadsAs (fs : Fs) (node : VfsNode) (content : Bytes) : Prop :=
  ∀ (start : ℕ) (heap heap' : Bytes) (p offset size : ℕ) (buf : Bytes),
    kmalloc start fs.bpb.clusterBytes heap = some (p, heap') → p ≠ 0 →
    min size (node.size - offset) + fs.bpb.clusterBytes ≤ 2 ^ 32 →
    ∃ out heap'', fat16VfsRead node offset size buf
        { fs with heapStart := start, heap := heap } =
          some (toInt (min size (node.size - offset)), out,
            { fs with heapStart := start, heap := heap'' }) ∧
      ∀ x < min size (node.size - offset), out x = content (offset + x)

/-- A file with a long enough chain has the bytes of its chain. -/
theorem readsAs_byteAt {fs : Fs} {node : VfsNode} (hb : Geometry fs.bpb top)
    (hmounted : fs.mounted = true) (hl : FileChain fs.bpb top fs.disk node.inode l)
    (hinode : node.inode < 65536) (hsize : node.size ≤ l.length * fs.bpb.clusterBytes) :
    ReadsAs fs node (byteAt fs.bpb fs.disk l) := by
  intro start heap heap' p offset size buf hmalloc hp hfit
  rw [fat16VfsRead]
  simp only [hmounted, if_true]
  rcases Nat.lt_or_ge offset node.size with hlt | hge
  · rw [if_neg (by omega)]
    have hne : l ≠ [] := by
      rintro rfl
      rw [List.length_nil, Nat.zero_mul] at hsize
      omega
    rcases hl.cases with ⟨-, hnil⟩ | ⟨-, -, hchain⟩
    · exact absurd hnil hne
    have hidx : offset / fs.bpb.clusterBytes < l.length := index_lt (by omega)
    have hget := List.getElem?_eq_getElem hidx
    rw [Nat.mod_eq_of_lt hinode, skipClusters_eq_some hb hchain hget]
    obtain ⟨out, hrun, hread, -⟩ := readLoop_spec hb hchain
      (show offset + min size (node.size - offset) ≤ l.length * fs.bpb.clusterBytes by omega)
      hfit (Nat.le_refl (min size (node.size - offset) + 0)) (Nat.zero_le _) (fun _ => hget)
      (fun _ => if_pos rfl) (fun x => heap' (p + x)) buf
    refine ⟨out, kfree p heap', ?_, fun x hx => hread x (Nat.zero_le x) hx⟩
    simp only [hmalloc, Option.bind_some, hp, if_false, hrun, Option.map_some]
  · rw [if_pos hge]
    have hnone : min size (node.size - offset) = 0 := by omega
    rw [hnone]
    exact ⟨buf, heap, rfl, fun x hx => absurd hx (Nat.not_lt_zero x)⟩

end Fat16

end Yotos
