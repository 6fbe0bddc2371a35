import Mathlib

/-! Linear combinations of unknown vectors over a finite set of indices, and how known unknowns are
removed and all unknowns recovered. -/
namespace Combinations

variable {F V ι κ : Type} [CommRing F] [AddCommGroup V] [Module F V] [DecidableEq ι]

/-- The combination of the vectors `f i`, for `i` in `s`, with coefficients `c i`. -/
def combination (c : ι → F) (s : Finset ι) (f : ι → V) : V := ∑ i ∈ s, c i • f i

variable {c : ι → F} {s : Finset ι} {f : ι → V} {i : ι}

/-- A known vector is removed from a combination. -/
theorem combination_erase (hi : i ∈ s) :
    combination c (s.erase i) f = combination c s f - c i • f i := Finset.sum_erase_eq_sub hi

omit [DecidableEq ι] in
theorem combination_congr {f' : ι → V} (h : ∀ i ∈ s, f i = f' i) :
    combination c s f = combination c s f' :=
  Finset.sum_congr rfl fun i hi => by rw [h i hi]

omit [DecidableEq ι] in
/-- The only vector of a combination is recovered. -/
theorem smul_combination_singleton {a : F} (ha : a * c i = 1) :
    a • combination c {i} f = f i := by
  rw [combination, Finset.sum_singleton, smul_smul, ha, one_smul]

/-- A combination as one over all indices of a larger set, with zeros for those not in it. -/
theorem combination_eq_sum {t : Finset ι} (hst : s ⊆ t) :
    combination c s f = ∑ i ∈ t, (if i ∈ s then c i else 0) • f i := by
  rw [combination, ← Finset.sum_subset hst]
  · exact Finset.sum_congr rfl fun i hi => by rw [if_pos hi]
  · intro i _ hi
    rw [if_neg hi, zero_smul]

omit [DecidableEq ι] in
/-- With an inverse of the coefficients of combinations, a vector is recovered from these. -/
theorem sum_smul_combinations [DecidableEq κ] {m : Finset κ} {t : Finset ι} {A : ι → κ → F}
    {B : ι → F} {f : κ → V} {u : ι → V} {x : κ} (hx : x ∈ m)
    (hu : ∀ k ∈ t, u k = ∑ y ∈ m, A k y • f y)
    (hB : ∀ y ∈ m, ∑ k ∈ t, A k y * B k = if y = x then 1 else 0) :
    ∑ k ∈ t, B k • u k = f x := by
  calc ∑ k ∈ t, B k • u k
      = ∑ k ∈ t, ∑ y ∈ m, (A k y * B k) • f y := by
        refine Finset.sum_congr rfl fun k hk => ?_
        rw [hu k hk, Finset.smul_sum]
        exact Finset.sum_congr rfl fun y _ => by rw [smul_smul, mul_comm]
    _ = ∑ y ∈ m, (if y = x then 1 else 0 : F) • f y := by
        rw [Finset.sum_comm]
        refine Finset.sum_congr rfl fun y hy => ?_
        rw [← Finset.sum_smul, hB y hy]
    _ = f x := by
        rw [Finset.sum_eq_single x]
        · rw [if_pos rfl, one_smul]
        · intro y _ hy
          rw [if_neg hy, zero_smul]
        · exact fun h => absurd hx h

/-- The first `n` coordinates of a vector, the others being zero. -/
def truncate (n : ℕ) : (ℕ → F) →ₗ[F] (ℕ → F) where
  toFun u i := if i < n then u i else 0
  map_add' u v := by
    funext i
    by_cases h : i < n <;> simp [h]
  map_smul' c u := by
    funext i
    by_cases h : i < n <;> simp [h]

theorem truncate_apply (n : ℕ) (u : ℕ → F) (i : ℕ) :
    truncate n u i = if i < n then u i else 0 := rfl

theorem truncate_truncate (m n : ℕ) (u : ℕ → F) :
    truncate m (truncate n u) = truncate (min m n) u := by
  funext i
  simp only [truncate_apply, lt_min_iff]
  by_cases hm : i < m <;> by_cases hn : i < n <;> simp [hm, hn]

/-- A vector of a family is in the span of the other ones if and only if some combination of the
family in which it has a coefficient vanishes. -/
theorem mem_span_others_iff {K U : Type} [Field K] [AddCommGroup U] [Module K U] [Fintype ι]
    (u : ι → U) (j : ι) : u j ∈ Submodule.span K (u '' {k | k ≠ j}) ↔
      ∃ v : ι → K, ∑ k, v k • u k = 0 ∧ v j ≠ 0 := by
  have hset : {k | k ≠ j} = ((Finset.univ.erase j : Finset ι) : Set ι) := by
    ext k
    simp
  rw [hset, Submodule.mem_span_image_finset_iff_exists_fun']
  constructor
  · rintro ⟨c, hc⟩
    refine ⟨Function.update c j (-1), ?_, by simp⟩
    rw [← Finset.add_sum_erase _ _ (Finset.mem_univ j), Function.update_self, neg_one_smul, ← hc]
    rw [neg_add_eq_zero]
    refine Finset.sum_congr rfl fun k hk => ?_
    rw [Function.update_of_ne (Finset.ne_of_mem_erase hk)]
  · rintro ⟨v, hv, hj⟩
    refine ⟨fun k => -(v j)⁻¹ * v k, ?_⟩
    rw [← Finset.add_sum_erase _ _ (Finset.mem_univ j)] at hv
    have hsum : ∑ k ∈ Finset.univ.erase j, v k • u k = -(v j • u j) :=
      (neg_eq_of_add_eq_zero_right hv).symm
    calc ∑ k ∈ Finset.univ.erase j, (-(v j)⁻¹ * v k) • u k
        = -(v j)⁻¹ • ∑ k ∈ Finset.univ.erase j, v k • u k := by
          rw [Finset.smul_sum]
          exact Finset.sum_congr rfl fun k _ => mul_smul _ _ _
      _ = u j := by
          rw [hsum, smul_neg, neg_smul, neg_neg, inv_smul_smul₀ hj]

end Combinations
