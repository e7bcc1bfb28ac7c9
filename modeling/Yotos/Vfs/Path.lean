import Mathlib.Data.List.TakeWhile
import Yotos.Vfs.Basic

/-!
# The components of a path

Slashes separate the components, and a component longer than 127 characters counts as
several. The last name of a path is its last component. A slash in front of its own
slash adds an empty component, which the path up to there does not have.
-/

namespace Yotos

namespace Vfs

variable {p q base s : List UInt8} {fuel : ℕ}

theorem nextComponent_fst_le (p : List UInt8) : (nextComponent p).1.length ≤ p.length :=
  ((List.takeWhile_sublist _).trans (List.take_sublist 127 p)).length_le

/-- The rest of a path is shorter. -/
theorem nextComponent_snd_lt (hp : p ≠ []) : (nextComponent p).2.length < p.length := by
  obtain ⟨x, xs, rfl⟩ := List.exists_cons_of_ne_nil hp
  unfold nextComponent
  dsimp only
  by_cases hx : x = 0x2F
  · rw [if_pos] <;> simp [hx]
  · have hpos : 0 < (((x :: xs).take 127).takeWhile (· ≠ 0x2F)).length := by
      simp [hx]
    split_ifs
    · rw [List.length_tail, List.length_drop, List.length_cons]
      omega
    · rw [List.length_drop, List.length_cons]
      omega

theorem componentsLoop_eq (h : p.length ≤ fuel) : componentsLoop fuel p = components p := by
  induction fuel using Nat.strongRecOn generalizing p with
  | ind fuel ih =>
      rcases Nat.eq_or_lt_of_le h with heq | hlt
      · rw [components, heq]
      · obtain ⟨n, rfl⟩ : ∃ n, fuel = n + 1 := ⟨fuel - 1, by omega⟩
        cases p with
        | nil => rfl
        | cons x xs =>
            have hrest := nextComponent_snd_lt (p := x :: xs) (List.cons_ne_nil x xs)
            rw [components, List.length_cons, componentsLoop, componentsLoop,
              if_neg (List.cons_ne_nil x xs), if_neg (List.cons_ne_nil x xs)]
            rw [List.length_cons] at hrest hlt
            rw [ih n (by omega) (by omega), ih xs.length (by omega) (by omega)]

@[simp] theorem components_nil : components [] = [] := rfl

theorem components_of_ne_nil (hp : p ≠ []) :
    components p = (nextComponent p).1 :: components (nextComponent p).2 := by
  have hrest := nextComponent_snd_lt hp
  obtain ⟨n, hn⟩ : ∃ n, p.length = n + 1 := ⟨p.length - 1, by omega⟩
  rw [components, hn, componentsLoop, if_neg hp, componentsLoop_eq (by omega)]

theorem components_eq_nil : components p = [] ↔ p = [] := by
  constructor
  · intro h
    by_contra hp
    rw [components_of_ne_nil hp] at h
    exact List.cons_ne_nil _ _ h
  · rintro rfl
    rfl

/-- The characters of the components are those of the path. -/
theorem mem_of_mem_components {c : UInt8} (hs : s ∈ components p) (hc : c ∈ s) : c ∈ p := by
  induction hn : p.length using Nat.strongRecOn generalizing p with
  | ind n ih =>
      by_cases hp : p = []
      · rw [hp] at hs
        cases hs
      · have hrest := nextComponent_snd_lt hp
        rw [components_of_ne_nil hp] at hs
        rcases List.mem_cons.1 hs with rfl | hs
        · exact ((List.takeWhile_sublist _).trans (List.take_sublist 127 p)).subset hc
        · have hmem := ih _ (by omega) hs rfl
          unfold nextComponent at hmem
          dsimp only at hmem
          split_ifs at hmem
          · exact List.drop_subset _ _ (List.mem_of_mem_tail hmem)
          · exact List.drop_subset _ _ hmem

/-- One name without a slash. -/
theorem components_name (hbase : base ≠ []) (hslash : 0x2F ∉ base) (hlen : base.length ≤ 127) :
    components base = [base] := by
  have hnext : nextComponent base = (base, []) := by
    have htake : (base.take 127).takeWhile (· ≠ 0x2F) = base := by
      rw [List.take_of_length_le hlen]
      refine List.takeWhile_eq_self_iff.2 fun x hx => decide_eq_true ?_
      rintro rfl
      exact hslash hx
    rw [nextComponent, htake, List.drop_length]
    rfl
  rw [components_of_ne_nil hbase, hnext, components_nil]

/-- What is taken off a path does not depend on what comes after its next slash. -/
theorem nextComponent_append (q s : List UInt8) :
    (nextComponent (q ++ 0x2F :: s)).1 = (nextComponent q).1 := by
  unfold nextComponent
  dsimp only
  rcases Nat.lt_or_ge q.length 127 with hlt | hge
  · rw [List.take_append, List.take_of_length_le (by omega), List.takeWhile_append]
    split_ifs with hall
    · obtain ⟨n, hn⟩ : ∃ n, 127 - q.length = n + 1 := ⟨126 - q.length, by omega⟩
      have hself := List.takeWhile_prefix (· ≠ (0x2F : UInt8)) (l := q) |>.eq_of_length hall
      rw [hn, List.take_succ_cons, List.takeWhile_cons_of_neg (by simp), List.append_nil, hself]
    · rfl
  · rw [List.take_append_of_le_length hge]

/-- The components of a path up to one of its slashes come first. A slash that follows
another one, or that nothing precedes, ends an empty component. -/
theorem components_append_slash (q s : List UInt8) :
    components (q ++ 0x2F :: s) = components q ++
      if q = [] ∨ q.getLast? = some 0x2F then [] :: components s else components s := by
  induction hn : q.length using Nat.strongRecOn generalizing q with
  | ind n ih =>
      by_cases hq : q = []
      · subst hq
        have hnext : nextComponent (0x2F :: s) = ([], s) := rfl
        rw [List.nil_append, components_of_ne_nil (List.cons_ne_nil _ _), hnext,
          if_pos (Or.inl rfl)]
        rfl
      have hfst := nextComponent_append q s
      have hle := nextComponent_fst_le q
      have hdrop : (q ++ 0x2F :: s).drop (nextComponent q).1.length =
          q.drop (nextComponent q).1.length ++ 0x2F :: s :=
        List.drop_append_of_le_length hle
      have hsplit : (nextComponent q).1 ++ q.drop (nextComponent q).1.length = q :=
        List.prefix_iff_eq_append.1
          ((List.takeWhile_prefix _).trans (List.take_prefix 127 q))
      have hlt := nextComponent_snd_lt hq
      rw [components_of_ne_nil (by simp), components_of_ne_nil hq, hfst, List.cons_append]
      refine congrArg _ ?_
      have hsnd : (nextComponent (q ++ 0x2F :: s)).2 =
          if (q.drop (nextComponent q).1.length ++ 0x2F :: s).head? = some 0x2F then
            (q.drop (nextComponent q).1.length ++ 0x2F :: s).tail
          else q.drop (nextComponent q).1.length ++ 0x2F :: s := by
        conv_lhs => rw [nextComponent]
        dsimp only
        rw [← hdrop, ← hfst]
        rfl
      have hsnd' : (nextComponent q).2 =
          if (q.drop (nextComponent q).1.length).head? = some 0x2F then
            (q.drop (nextComponent q).1.length).tail
          else q.drop (nextComponent q).1.length := rfl
      rw [hsnd'] at hlt
      rw [hsnd, hsnd']
      clear hsnd hsnd' hdrop hfst
      generalize q.drop (nextComponent q).1.length = rest at hsplit hlt ⊢
      cases rest with
      | nil =>
          -- the component is the rest of the path
          have hself : (nextComponent q).1 = q := by rwa [List.append_nil] at hsplit
          have hlast : q.getLast? ≠ some 0x2F := by
            intro hlast
            have hmem := List.mem_of_getLast? hlast
            rw [← hself] at hmem
            simpa using List.mem_takeWhile_imp hmem
          rw [if_neg (not_or.2 ⟨hq, hlast⟩)]
          simp
      | cons x xs =>
          have hlast : q.getLast? = (x :: xs).getLast? := by
            rw [← hsplit, List.getLast?_append_of_ne_nil _ (List.cons_ne_nil x xs)]
          by_cases hx : x = 0x2F
          · subst hx
            have hcond : (q = [] ∨ q.getLast? = some 0x2F) ↔
                (xs = [] ∨ xs.getLast? = some 0x2F) := by
              rw [or_iff_right hq, hlast]
              cases xs with
              | nil => simp
              | cons y ys => simp [List.getLast?_cons_cons]
            simp only [List.cons_append, List.head?_cons, if_true, List.tail_cons] at hlt ⊢
            rw [ih xs.length (by omega) xs rfl]
            simp only [hcond]
          · have hhead : (x :: xs).head? ≠ some 0x2F := by simpa using hx
            have hhead' : (x :: xs ++ 0x2F :: s).head? ≠ some 0x2F := by simpa using hx
            rw [if_neg hhead] at hlt ⊢
            rw [if_neg hhead', ih (x :: xs).length (by omega) (x :: xs) rfl]
            have hcond : (q = [] ∨ q.getLast? = some 0x2F) ↔
                (x :: xs = [] ∨ (x :: xs).getLast? = some 0x2F) := by
              rw [or_iff_right hq, or_iff_right (List.cons_ne_nil x xs), hlast]
            simp only [hcond]

/-- The last name of a path, behind the slash that ends `q`. -/
theorem components_append (hbase : base ≠ []) (hslash : 0x2F ∉ base) (hlen : base.length ≤ 127) :
    components (q ++ 0x2F :: base) =
      components q ++ if q = [] ∨ q.getLast? = some 0x2F then [[], base] else [base] := by
  rw [components_append_slash, components_name hbase hslash hlen]

end Vfs

end Yotos
