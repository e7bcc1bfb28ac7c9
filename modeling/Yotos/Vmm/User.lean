import Yotos.Vmm.Space

/-!
# What ring 3 is denied

An access from ring 3 needs the user flag in both entries on its walk, `mmuUser`. The
frames that ring 3 reaches are no tables. So the tables can be changed behind its back:
for every address that it is denied there are tables that show it the same frames, and
that have a page there exactly when the tables at hand have none.
-/

namespace Yotos

namespace Vmm

open Bytes
open Pmm (used)

/-- The walk of the MMU for an access from ring 3. -/
def mmuUser (m : Bytes) (cr3 virt : ℕ) : Option ℕ :=
  let pde := load32 m (cr3 + 4 * pdIndex virt)
  if entryHasFlag pde pagePresent ∧ entryHasFlag pde pageUser then
    let pte := load32 m (entryGetFrame pde + 4 * ptIndex virt)
    if entryHasFlag pte pagePresent ∧ entryHasFlag pte pageUser then
      some (entryGetFrame pte + pageOffset virt)
    else none
  else none

/-- The entry lets ring 3 through. -/
def UserEntry (entry : ℕ) : Prop := Present entry ∧ entryHasFlag entry pageUser = true

instance (entry : ℕ) : Decidable (UserEntry entry) := inferInstanceAs (Decidable (_ ∧ _))

/-- The frame of page `p` for ring 3. -/
def userFrame (m : Bytes) (d p : ℕ) : Option ℕ :=
  if UserEntry (word m d (p / 1024)) then
    let pte := word m (frameOf (word m d (p / 1024))) (p % 1024)
    if UserEntry pte then some (frameOf pte) else none
  else none

variable {s : Vmm} {m m' : Bytes} {d f p v : ℕ}

theorem mmuUser_eq (m : Bytes) (d v : ℕ) :
    mmuUser m (d * 4096) v = (userFrame m d (v / 4096)).map fun f => f * 4096 + v % 4096 := by
  have hword : ∀ f i, load32 m (f * 4096 + 4 * i) = word m f i := fun _ _ => rfl
  have huser : ∀ e, (entryHasFlag e pagePresent = true ∧ entryHasFlag e pageUser = true) =
      UserEntry e := fun _ => rfl
  simp only [mmuUser, userFrame, pdIndex_eq, ptIndex_eq, pageOffset_eq, hword, huser,
    entryGetFrame_eq (word_lt m d _), entryGetFrame_eq (word_lt m _ _)]
  by_cases hpde : UserEntry (word m d (v / 4096 / 1024))
  · by_cases hpte : UserEntry (word m (frameOf (word m d (v / 4096 / 1024))) (v / 4096 % 1024))
    · simp only [hpde, hpte, if_true, Option.map_some]
    · simp only [hpde, hpte, if_true, if_false, Option.map_none]
  · simp only [hpde, if_false, Option.map_none]

/-- What ring 3 reaches, the kernel reaches. -/
theorem mmu_of_mmuUser {cr3 phys : ℕ} (h : mmuUser m cr3 v = some phys) :
    mmu m cr3 v = some phys := by
  simp only [mmuUser, Option.ite_none_right_eq_some] at h
  obtain ⟨hpde, hpte, hphys⟩ := h
  simp only [mmu, hpde.1, hpte.1, if_true, hphys]

theorem userFrame_eq_some : userFrame m d p = some f ↔ UserEntry (word m d (p / 1024)) ∧
    UserEntry (word m (frameOf (word m d (p / 1024))) (p % 1024)) ∧
      frameOf (word m (frameOf (word m d (p / 1024))) (p % 1024)) = f := by
  simp only [userFrame, Option.ite_none_right_eq_some, Option.some.injEq]

theorem userFrame_congr (hpde : word m' d (p / 1024) = word m d (p / 1024))
    (hpte : word m' (frameOf (word m d (p / 1024))) (p % 1024) =
      word m (frameOf (word m d (p / 1024))) (p % 1024)) :
    userFrame m' d p = userFrame m d p := by
  simp only [userFrame, hpde, hpte]

theorem userFrame_of_not_pde (h : ¬ UserEntry (word m d (p / 1024))) : userFrame m d p = none :=
  if_neg h

namespace AddressSpace

theorem dir_lt (h : AddressSpace s d) : d < 2 ^ 20 := by
  have hlt := word_lt s.memory d 1023
  rw [h.recursive] at hlt
  omega

/-- The window is denied. -/
theorem not_userEntry_window (h : AddressSpace s d) : ¬ UserEntry (word s.memory d 1023) := by
  rw [h.recursive]
  rintro ⟨-, huser⟩
  rw [entryHasFlag_user, testBit_add d (by decide) (by decide)] at huser
  cases huser

theorem userPde_lt (h : AddressSpace s d) {i : ℕ} (hi : i < 1024)
    (hu : UserEntry (word s.memory d i)) : i < 1023 := by
  by_contra hlast
  obtain rfl : i = 1023 := by omega
  exact h.not_userEntry_window hu

theorem lookup_of_user (h : AddressSpace s d) (hp : p < 2 ^ 20)
    (hf : userFrame s.memory d p = some f) :
    p < windowPage ∧ ∃ e, lookup s.memory d p = some e ∧ frameOf e = f := by
  obtain ⟨hpde, hpte, hframe⟩ := userFrame_eq_some.1 hf
  have hi := h.userPde_lt (show p / 1024 < 1024 by omega) hpde
  refine ⟨by unfold windowPage; omega, _, lookup_eq_some.2 ⟨hpde.1, hpte.1, rfl⟩, hframe⟩

/-- A frame that ring 3 reaches is no table. -/
theorem not_tableFrame_of_user (h : AddressSpace s d) (hp : p < 2 ^ 20)
    (hf : userFrame s.memory d p = some f) : ¬ TableFrame s d f := by
  obtain ⟨hwin, e, he, rfl⟩ := h.lookup_of_user hp hf
  exact h.not_tableFrame hwin he

/-- Memory that differs outside of the tables shows ring 3 the same frames. -/
theorem userFrame_withMemory (h : AddressSpace s d)
    (hm : ∀ g x, x < 4096 → TableFrame s d g → m (g * 4096 + x) = s.memory (g * 4096 + x))
    (hp : p < 2 ^ 20) : userFrame m d p = userFrame s.memory d p := by
  have hi : p / 1024 < 1024 := by omega
  have hword : ∀ g i, i < 1024 → TableFrame s d g → word m g i = word s.memory g i := by
    intro g i hi hg
    refine load32_congr fun x hx hx' => ?_
    obtain ⟨y, rfl⟩ : ∃ y, x = g * 4096 + y := ⟨x - g * 4096, by omega⟩
    exact hm g y (by omega) hg
  by_cases hu : UserEntry (word s.memory d (p / 1024))
  · exact userFrame_congr (hword _ _ hi (Or.inl rfl))
      (hword _ _ (Nat.mod_lt _ (by decide)) (Or.inr ⟨_, h.userPde_lt hi hu, hu.1, rfl⟩))
  · rw [userFrame_of_not_pde hu, userFrame_of_not_pde (by rwa [hword _ _ hi (Or.inl rfl)])]

/-! ### Other tables for the same frames -/

/-- Words of the directory that deny access to ring 3 may change. -/
theorem userFrame_of_directory (h : AddressSpace s d)
    (hm : ∀ g i, i < 1024 → g ≠ d → word m g i = word s.memory g i)
    (hdir : ∀ i < 1024, word m d i = word s.memory d i ∨
      (¬ UserEntry (word m d i) ∧ ¬ UserEntry (word s.memory d i)))
    (hp : p < 2 ^ 20) : userFrame m d p = userFrame s.memory d p := by
  have hi : p / 1024 < 1024 := by omega
  rcases hdir _ hi with heq | ⟨hno, hno'⟩
  · by_cases hu : UserEntry (word s.memory d (p / 1024))
    · refine userFrame_congr heq (hm _ _ (Nat.mod_lt _ (by decide)) ?_)
      exact (h.owned.table _ (h.userPde_lt hi hu) hu.1).2
    · rw [userFrame_of_not_pde hu, userFrame_of_not_pde (by rwa [heq])]
  · rw [userFrame_of_not_pde hno, userFrame_of_not_pde hno']

/-- So may the entry of a page that ring 3 is denied. -/
theorem userFrame_of_entry (h : AddressSpace s d) {q x : ℕ} (hq : q / 1024 < 1023)
    (hpresent : Present (word s.memory d (q / 1024))) (hdenied : userFrame s.memory d q = none)
    (hx : x < 2) (hp : p < 2 ^ 20) :
    userFrame (store32 s.memory (frameOf (word s.memory d (q / 1024)) * 4096 +
      4 * (q % 1024)) x) d p = userFrame s.memory d p := by
  have hj : q % 1024 < 1024 := Nat.mod_lt _ (by decide)
  have hi : p / 1024 < 1024 := by omega
  have hdir : ∀ i < 1024, word (store32 s.memory (frameOf (word s.memory d (q / 1024)) * 4096 +
      4 * (q % 1024)) x) d i = word s.memory d i := by
    intro i hi
    rw [word_store32 _ hj hi (by omega),
      if_neg fun hc => (h.owned.table _ hq hpresent).2 hc.1.symm]
  by_cases hu : UserEntry (word s.memory d (p / 1024))
  swap
  · rw [userFrame_of_not_pde hu, userFrame_of_not_pde (by rwa [hdir _ hi])]
  by_cases heq : p = q
  · rw [heq, hdenied, ← Option.not_isSome_iff_eq_none, Option.isSome_iff_exists]
    rintro ⟨f, hf⟩
    obtain ⟨-, hpte, -⟩ := userFrame_eq_some.1 hf
    rw [hdir _ (by omega), word_store32 _ hj hj (by omega), if_pos ⟨rfl, rfl⟩] at hpte
    have hdenies : ∀ x < 2, ¬ UserEntry x := by decide
    exact hdenies x hx hpte
  · refine userFrame_congr (hdir _ hi) ?_
    rw [word_store32 _ hj (Nat.mod_lt _ (by decide)) (by omega), if_neg]
    rintro ⟨htable, hindex⟩
    have hsame := h.owned.table_inj _ (h.userPde_lt hi hu) _ hq hu.1 hpresent htable
    omega

/-- Memory with tables that show ring 3 the same frames, and that have page `p` exactly
when those of `s` do not. -/
structure Flipped (s : Vmm) (d p : ℕ) (m : Bytes) : Prop where
  bytes : ∀ g x, x < 4096 → ¬ TableFrame s d g → m (g * 4096 + x) = s.memory (g * 4096 + x)
  user : ∀ q < 2 ^ 20, userFrame m d q = userFrame s.memory d q
  flip : (lookup m d p).isSome = true ↔ lookup s.memory d p = none

theorem store32_tableFrame {t i y g x : ℕ} (ht : TableFrame s d t) (hi : i < 1024)
    (hx : x < 4096) (hg : ¬ TableFrame s d g) :
    store32 m (t * 4096 + 4 * i) y (g * 4096 + x) = m (g * 4096 + x) := by
  refine store32_of_apart _ _ ?_
  by_contra hin
  obtain rfl : g = t := by omega
  exact hg ht

theorem not_userEntry_of_lt_two {x : ℕ} (hx : x < 2) : ¬ UserEntry x := by
  revert x
  decide

theorem not_userEntry_self (d : ℕ) : ¬ UserEntry (d * 4096 + 1) := by
  rintro ⟨-, huser⟩
  rw [entryHasFlag_user, testBit_add d (by decide) (by decide)] at huser
  cases huser

/-- Under a present directory entry the entry of the page is set or cleared. -/
theorem flipped_of_present (h : AddressSpace s d) (hi : p / 1024 < 1023)
    (hpresent : Present (word s.memory d (p / 1024))) (hdenied : userFrame s.memory d p = none) :
    ∃ m, Flipped s d p m := by
  have hj : p % 1024 < 1024 := Nat.mod_lt _ (by decide)
  have htable : TableFrame s d (frameOf (word s.memory d (p / 1024))) :=
    Or.inr ⟨_, hi, hpresent, rfl⟩
  have hlookup : ∀ x < 2, lookup (store32 s.memory (frameOf (word s.memory d (p / 1024)) * 4096 +
      4 * (p % 1024)) x) d p = if Present x then some x else none := by
    intro x hx
    have hpde : word (store32 s.memory (frameOf (word s.memory d (p / 1024)) * 4096 +
        4 * (p % 1024)) x) d (p / 1024) = word s.memory d (p / 1024) := by
      rw [word_store32 _ hj (by omega) (by omega),
        if_neg fun hc => (h.owned.table _ hi hpresent).2 hc.1.symm]
    have hpte : word (store32 s.memory (frameOf (word s.memory d (p / 1024)) * 4096 +
        4 * (p % 1024)) x) (frameOf (word s.memory d (p / 1024))) (p % 1024) = x := by
      rw [word_store32 _ hj hj (by omega), if_pos ⟨rfl, rfl⟩]
    rw [lookup, hpde, if_pos hpresent, hpte]
  by_cases hpte : Present (word s.memory (frameOf (word s.memory d (p / 1024))) (p % 1024))
  · refine ⟨_, fun g x hx hg => store32_tableFrame htable hj hx hg,
      fun q hq => h.userFrame_of_entry hi hpresent hdenied (show 0 < 2 by decide) hq, ?_⟩
    rw [hlookup 0 (by decide), if_neg (by decide), lookup, if_pos hpresent, if_pos hpte]
    simp
  · refine ⟨_, fun g x hx hg => store32_tableFrame htable hj hx hg,
      fun q hq => h.userFrame_of_entry hi hpresent hdenied (show 1 < 2 by decide) hq, ?_⟩
    rw [hlookup 1 (by decide), if_pos (by decide), lookup, if_pos hpresent, if_neg hpte]
    exact ⟨fun _ => rfl, fun _ => rfl⟩

/-- A directory entry without a table gets the directory for one, with an entry for the
page in it. -/
theorem flipped_of_absent (h : AddressSpace s d) (hi : p / 1024 < 1023)
    (habsent : ¬ Present (word s.memory d (p / 1024))) : ∃ m, Flipped s d p m := by
  have hj : p % 1024 < 1024 := Nat.mod_lt _ (by decide)
  have hd := h.dir_lt
  have hdir : TableFrame s d d := Or.inl rfl
  obtain ⟨y, hy⟩ : ∃ y, y = if Present (word s.memory d (p % 1024)) then
    word s.memory d (p % 1024) else 1 := ⟨_, rfl⟩
  have hylt : y < 2 ^ 32 := by
    rw [hy]
    split_ifs
    · exact word_lt _ _ _
    · decide
  have hypresent : Present y := by
    rw [hy]
    split_ifs with hp
    · exact hp
    · decide
  obtain ⟨m, hm⟩ : ∃ m, m = store32 (store32 s.memory (d * 4096 + 4 * (p % 1024)) y)
    (d * 4096 + 4 * (p / 1024)) (d * 4096 + 1) := ⟨_, rfl⟩
  have hword : ∀ g i, i < 1024 → word m g i = if g = d ∧ i = p / 1024 then d * 4096 + 1
      else if g = d ∧ i = p % 1024 then y else word s.memory g i := by
    intro g i hi'
    rw [hm, word_store32 _ (by omega) hi' (by omega), word_store32 _ hj hi' hylt]
  refine ⟨m, fun g x hx hg => ?_, fun q hq => ?_, ?_⟩
  · rw [hm, store32_tableFrame hdir (by omega) hx hg, store32_tableFrame hdir hj hx hg]
  · refine h.userFrame_of_directory (fun g i hi' hg => ?_) (fun i hi' => ?_) hq
    · rw [hword g i hi', if_neg fun hc => hg hc.1, if_neg fun hc => hg hc.1]
    · rw [hword d i hi']
      by_cases hip : i = p / 1024
      · rw [if_pos ⟨rfl, hip⟩, hip]
        exact Or.inr ⟨not_userEntry_self d, fun hc => habsent hc.1⟩
      rw [if_neg fun hc => hip hc.2]
      by_cases hij : i = p % 1024
      · rw [if_pos ⟨rfl, hij⟩, hij, hy]
        by_cases hp : Present (word s.memory d (p % 1024))
        · rw [if_pos hp]
          exact Or.inl rfl
        · rw [if_neg hp]
          exact Or.inr ⟨not_userEntry_of_lt_two (by decide), fun hc => hp hc.1⟩
      · rw [if_neg fun hc => hij hc.2]
        exact Or.inl rfl
  · have hself : Present (d * 4096 + 1) := present_add d (by decide) (by decide)
    have hpde : word m d (p / 1024) = d * 4096 + 1 := by
      rw [hword _ _ (by omega), if_pos ⟨rfl, rfl⟩]
    have hpte : Present (word m d (p % 1024)) := by
      rw [hword _ _ hj]
      by_cases hij : p % 1024 = p / 1024
      · rw [if_pos ⟨rfl, hij⟩]
        exact hself
      · rw [if_neg fun hc => hij hc.2, if_pos ⟨rfl, rfl⟩]
        exact hypresent
    rw [lookup, hpde, if_pos hself, frameOf_add d (by decide), if_pos hpte, lookup,
      if_neg habsent]
    exact ⟨fun _ => rfl, fun _ => rfl⟩

/-- The page is the window of a table. It goes with the recursive entry, or comes with an
entry in the directory. -/
theorem flipped_of_window (h : AddressSpace s d) (hi : p / 1024 = 1023) :
    ∃ m, Flipped s d p m := by
  have hj : p % 1024 < 1024 := Nat.mod_lt _ (by decide)
  have hd := h.dir_lt
  have hdir : TableFrame s d d := Or.inl rfl
  have hlast : Present (word s.memory d 1023) := by
    rw [h.recursive]
    exact present_add d (by decide) (by decide)
  have hframe : frameOf (word s.memory d 1023) = d := by
    rw [h.recursive, frameOf_add d (by decide)]
  have hlookup : lookup s.memory d p = if Present (word s.memory d (p % 1024)) then
      some (word s.memory d (p % 1024)) else none := by
    rw [lookup, hi, if_pos hlast, hframe]
  have hother : ∀ i y, i < 1024 → y < 2 → ¬ UserEntry (word s.memory d i) → ∀ q < 2 ^ 20,
      userFrame (store32 s.memory (d * 4096 + 4 * i) y) d q = userFrame s.memory d q := by
    intro i y hi' hy hno q hq
    refine h.userFrame_of_directory (fun g k hk hg => ?_) (fun k hk => ?_) hq
    · rw [word_store32 _ hi' hk (by omega), if_neg fun hc => hg hc.1]
    · rw [word_store32 _ hi' hk (by omega)]
      by_cases hki : k = i
      · rw [if_pos ⟨rfl, hki⟩, hki]
        exact Or.inr ⟨not_userEntry_of_lt_two hy, hno⟩
      · rw [if_neg fun hc => hki hc.2]
        exact Or.inl rfl
  by_cases hpte : Present (word s.memory d (p % 1024))
  · refine ⟨_, fun g x hx hg => store32_tableFrame hdir (show 1023 < 1024 by decide) hx hg,
      hother 1023 0 (by decide) (by decide) h.not_userEntry_window, ?_⟩
    have hpde : word (store32 s.memory (d * 4096 + 4 * 1023) 0) d 1023 = 0 := by
      rw [word_store32 _ (by decide) (by decide) (by decide), if_pos ⟨rfl, rfl⟩]
    rw [lookup, hi, hpde, if_neg (by decide), hlookup, if_pos hpte]
    simp
  · have hne : 1023 ≠ p % 1024 := fun hc => hpte (hc ▸ hlast)
    refine ⟨_, fun g x hx hg => store32_tableFrame hdir hj hx hg,
      hother (p % 1024) 1 hj (by decide) (fun hc => hpte hc.1), ?_⟩
    have hpde : word (store32 s.memory (d * 4096 + 4 * (p % 1024)) 1) d 1023 =
        word s.memory d 1023 := by
      rw [word_store32 _ hj (by decide) (by decide), if_neg fun hc => hne hc.2]
    have hset : word (store32 s.memory (d * 4096 + 4 * (p % 1024)) 1) d (p % 1024) = 1 := by
      rw [word_store32 _ hj hj (by decide), if_pos ⟨rfl, rfl⟩]
    rw [lookup, hi, hpde, if_pos hlast, hframe, hset, if_pos (by decide), hlookup, if_neg hpte]
    exact ⟨fun _ => rfl, fun _ => rfl⟩

theorem exists_flipped (h : AddressSpace s d) (hp : p < 2 ^ 20)
    (hdenied : userFrame s.memory d p = none) : ∃ m, Flipped s d p m := by
  by_cases hi : p / 1024 < 1023
  · by_cases hpresent : Present (word s.memory d (p / 1024))
    · exact h.flipped_of_present hi hpresent hdenied
    · exact h.flipped_of_absent hi hpresent
  · exact h.flipped_of_window (by omega)

end AddressSpace

end Vmm

end Yotos
