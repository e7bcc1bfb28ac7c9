import Mathlib.Data.List.TakeWhile
import Yotos.Shell.Basic

/-!
# Texts of the path helpers

What the string functions leave in their buffers, as lists: a copy is a prefix, a zero
cuts a string off, the last slash splits a path, and `path_resolve` gives the whole path
up to the size of its buffer.
-/

namespace Yotos

namespace Shell

open Bytes Fat16 Vfs

variable {buf : Bytes} {n k size : ℕ} {xs s q base arg current : List UInt8}

/-! ## Strings in arrays -/

/-- The string ends at the first zero. -/
theorem text_eq (hxs : bytesAt buf 0 xs.length = xs) (hend : buf xs.length = 0)
    (hlt : xs.length < n) (hzero : 0 ∉ xs) : text buf n = xs := by
  obtain ⟨m, hm⟩ : ∃ m, n - xs.length = m + 1 := ⟨n - xs.length - 1, by omega⟩
  have hrest : bytesAt buf (0 + xs.length) (n - xs.length) = 0 :: bytesAt buf (xs.length + 1) m := by
    rw [hm, bytesAt, List.range_succ_eq_map, List.map_cons, List.map_map, Nat.zero_add,
      Nat.add_zero, hend, bytesAt]
    refine congrArg _ (List.map_congr_left fun i _ => ?_)
    rw [Function.comp_apply, Nat.add_right_comm, Nat.add_assoc]
  have hall : ∀ x ∈ xs, x ≠ 0 := fun x hx h => hzero (h ▸ hx)
  rw [text, cString, bytesAt_append buf 0 hlt.le, hxs, hrest, List.takeWhile_append_of_pos]
  · simp
  · intro x hx
    simpa using hall x hx

theorem length_text_le (buf : Bytes) (n : ℕ) : (text buf n).length ≤ n :=
  (List.takeWhile_prefix _).length_le.trans_eq (length_bytesAt buf 0 n)

theorem bytesAt_length_text (buf : Bytes) (n : ℕ) :
    bytesAt buf 0 (text buf n).length = text buf n := by
  rw [bytesAt_take (length_text_le buf n)]
  exact (List.prefix_iff_eq_take.1 (List.takeWhile_prefix _)).symm

theorem zero_not_mem_text (buf : Bytes) (n : ℕ) : 0 ∉ text buf n := by
  intro hmem
  simpa using List.mem_takeWhile_imp hmem

/-- `strlcpy` copies what fits and terminates it. -/
theorem text_strlcpy (dst : Bytes) (hzero : 0 ∉ s) (hsize : 0 < size) (hn : size ≤ n) :
    text (strlcpy dst s size) n = s.take (size - 1) ∧
      strlcpy dst s size (s.take (size - 1)).length = 0 := by
  have hlen : (s.take (size - 1)).length < size := by
    rw [List.length_take]
    omega
  rw [strlcpy, if_neg (Nat.ne_of_gt hsize)]
  refine ⟨text_eq ?_ (store8_self _ _ _) (by omega) fun h => hzero (List.mem_of_mem_take h),
    store8_self _ _ _⟩
  have hbytes : bytesAt (store8 (put dst 0 (s.take (size - 1))) (s.take (size - 1)).length 0) 0
      (s.take (size - 1)).length = bytesAt (put dst 0 (s.take (size - 1))) 0
        (s.take (size - 1)).length := by
    refine List.map_congr_left fun i hi => store8_of_ne _ _ ?_
    have := List.mem_range.1 hi
    omega
  rw [hbytes, bytesAt_put]

/-- A zero that is stored in a string cuts it off. -/
theorem text_store8_zero (hk : k ≤ (text buf n).length) (hn : k < n) :
    text (store8 buf k 0) n = (text buf n).take k := by
  have hlen : ((text buf n).take k).length = k := by
    rw [List.length_take]
    omega
  refine text_eq ?_ (by rw [hlen, store8_self]) (by omega)
    fun h => zero_not_mem_text buf n (List.mem_of_mem_take h)
  have hbytes : bytesAt (store8 buf k 0) 0 k = bytesAt buf 0 k := by
    refine List.map_congr_left fun i hi => store8_of_ne _ _ ?_
    have := List.mem_range.1 hi
    omega
  rw [hlen, hbytes, ← bytesAt_length_text buf n, ← bytesAt_take hk]

/-! ## The last slash -/

theorem lastSlashFrom_of_not_mem (i last : ℕ) (h : 0x2F ∉ s) : lastSlashFrom i last s = last := by
  induction s generalizing i last with
  | nil => rfl
  | cons c s ih =>
      rw [lastSlashFrom, if_neg fun heq => h (by simp [heq])]
      exact ih _ _ fun hmem => h (List.mem_cons_of_mem c hmem)

theorem lastSlashFrom_append (i last : ℕ) (h : 0x2F ∉ base) :
    lastSlashFrom i last (q ++ 0x2F :: base) = i + q.length := by
  induction q generalizing i last with
  | nil => rw [List.nil_append, lastSlashFrom, if_pos rfl, lastSlashFrom_of_not_mem _ _ h]; rfl
  | cons c q ih =>
      rw [List.cons_append, lastSlashFrom, ih, List.length_cons]
      omega

theorem lastSlash_append (h : 0x2F ∉ base) : lastSlash (q ++ 0x2F :: base) = q.length := by
  rw [lastSlash, lastSlashFrom_append 0 0 h, Nat.zero_add]

/-- A path with a slash, split at its last one. -/
theorem exists_split (h : 0x2F ∈ s) : ∃ q base, s = q ++ 0x2F :: base ∧ 0x2F ∉ base := by
  induction s with
  | nil => cases h
  | cons c s ih =>
      by_cases hs : 0x2F ∈ s
      · obtain ⟨q, base, rfl, hbase⟩ := ih hs
        exact ⟨c :: q, base, rfl, hbase⟩
      · rcases List.mem_cons.1 h with rfl | hmem
        · exact ⟨[], s, rfl, hs⟩
        · exact absurd hmem hs

/-! ## The helpers -/

/-- The split of a path at its last slash, as much of it as fits the buffers. -/
theorem pathParentAndName_take (psz bsz : ℕ) (hbase : 0x2F ∉ base) :
    pathParentAndName (q ++ 0x2F :: base) psz bsz =
      ((if q = [] then [0x2F] else q).take (psz - 1), base.take (bsz - 1)) := by
  rw [pathParentAndName, lastSlash_append hbase]
  cases q with
  | nil =>
      rw [if_pos List.length_nil, if_pos rfl, List.nil_append, List.drop_succ_cons, List.drop_zero]
  | cons c q =>
      have hdrop : (c :: q ++ 0x2F :: base).drop ((c :: q).length + 1) = base := by
        rw [← List.drop_drop, List.drop_left]
        rfl
      rw [if_neg (by simp), if_neg (List.cons_ne_nil _ _), hdrop, List.take_left]

theorem pathParentAndName_append {psz bsz : ℕ} (hbase : 0x2F ∉ base) (hp : q.length < psz)
    (hone : 1 < psz) (hb : base.length < bsz) :
    pathParentAndName (q ++ 0x2F :: base) psz bsz = (if q = [] then [0x2F] else q, base) := by
  have hlen : (if q = [] then [0x2F] else q).length ≤ psz - 1 := by
    split_ifs
    · rw [List.length_singleton]
      omega
    · omega
  rw [pathParentAndName_take psz bsz hbase, List.take_of_length_le hlen,
    List.take_of_length_le (by omega)]

/-- The path that an argument means, whatever the size of the buffers. -/
def fullPath (current arg : List UInt8) : List UInt8 :=
  if arg = [] then current
  else if arg.head? = some 0x2F then arg
  else if current ≠ [] ∧ current.getLast? ≠ some 0x2F then current ++ 0x2F :: arg
  else current ++ arg

theorem append_take {xs ys : List UInt8} (h : xs.length ≤ n) :
    xs ++ ys.take (n - xs.length) = (xs ++ ys).take n := by
  rw [List.take_append, List.take_of_length_le h]

/-- `path_resolve` gives the beginning of the full path, as much as fits. -/
theorem pathResolve_eq_take (hcurrent : current.length ≤ size - 1) :
    pathResolve current arg size = (fullPath current arg).take (size - 1) := by
  unfold pathResolve fullPath
  split_ifs with harg hhead hsep <;> dsimp only
  · rw [List.take_of_length_le hcurrent]
    rcases Nat.lt_or_ge current.length (size - 1) with hlt | hge
    · rw [if_pos ⟨hsep.1, hsep.2, hlt⟩, Nat.sub_right_comm,
        append_take (by rw [List.length_append, List.length_singleton]; omega), List.append_assoc]
      rfl
    · -- no room for the separator
      rw [if_neg fun h => absurd h.2.2 (Nat.not_lt.2 hge), Nat.sub_right_comm,
        Nat.sub_eq_zero_of_le hge, List.take_append_of_le_length hge,
        List.take_of_length_le hcurrent]
      simp
  · rw [List.take_of_length_le hcurrent, if_neg fun h => hsep ⟨h.1, h.2.1⟩, Nat.sub_right_comm,
      append_take hcurrent]

theorem length_pathResolve (hcurrent : current.length ≤ size - 1) :
    (pathResolve current arg size).length ≤ size - 1 := by
  rw [pathResolve_eq_take hcurrent, List.length_take]
  exact Nat.min_le_left _ _

theorem zero_not_mem_fullPath (hcurrent : 0 ∉ current) (harg : 0 ∉ arg) :
    0 ∉ fullPath current arg := by
  unfold fullPath
  split_ifs <;> simp [hcurrent, harg]

theorem head_fullPath (hcurrent : current.head? = some 0x2F) :
    (fullPath current arg).head? = some 0x2F := by
  unfold fullPath
  split_ifs with _ hhead
  · exact hcurrent
  · exact hhead
  · rw [List.head?_append, hcurrent, Option.some_or]
  · rw [List.head?_append, hcurrent, Option.some_or]

/-- An absolute path stays one. -/
theorem head_pathResolve (hcurrent : current.head? = some 0x2F) (hlen : current.length ≤ size - 1)
    (hsize : 1 < size) : (pathResolve current arg size).head? = some 0x2F := by
  obtain ⟨n, hn⟩ : ∃ n, size - 1 = n + 1 := ⟨size - 2, by omega⟩
  rw [pathResolve_eq_take hlen, hn]
  obtain ⟨xs, hxs⟩ := List.head?_eq_some_iff.1 (head_fullPath hcurrent)
  rw [hxs, List.take_succ_cons, List.head?_cons]

end Shell

end Yotos
