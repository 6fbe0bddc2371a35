import Netcode.Library.Runs

/-! Row operations on matrices given by their columns, and the products they keep. -/
namespace RowOperations

variable {F : Type} [CommRing F]

/-- Exchange two rows. -/
def swapRows (i j : ℕ) : (ℕ → F) →ₗ[F] (ℕ → F) where
  toFun u := Function.update (Function.update u i (u j)) j (u i)
  map_add' u v := by
    funext r
    simp only [Function.update_apply, Pi.add_apply]
    split
    · rfl
    · split <;> rfl
  map_smul' c u := by
    funext r
    simp only [Function.update_apply, Pi.smul_apply, RingHom.id_apply]
    split
    · rfl
    · split <;> rfl

/-- Multiply row `i` by `c`. -/
def scaleRow (i : ℕ) (c : F) : (ℕ → F) →ₗ[F] (ℕ → F) where
  toFun u := Function.update u i (u i * c)
  map_add' u v := by
    funext r
    simp only [Function.update_apply, Pi.add_apply]
    split
    · ring
    · rfl
  map_smul' d u := by
    funext r
    simp only [Function.update_apply, Pi.smul_apply, RingHom.id_apply, smul_eq_mul]
    split
    · ring
    · rfl

/-- Add `c` times row `i` to row `j`. -/
def addRow (c : F) (i j : ℕ) : (ℕ → F) →ₗ[F] (ℕ → F) where
  toFun u := Function.update u j (u j + c * u i)
  map_add' u v := by
    funext r
    simp only [Function.update_apply, Pi.add_apply]
    split
    · ring
    · rfl
  map_smul' d u := by
    funext r
    simp only [Function.update_apply, Pi.smul_apply, RingHom.id_apply, smul_eq_mul]
    split
    · ring
    · rfl

theorem swapRows_apply (i j : ℕ) (u : ℕ → F) :
    swapRows i j u = Function.update (Function.update u i (u j)) j (u i) := rfl

theorem scaleRow_apply (i : ℕ) (c : F) (u : ℕ → F) :
    scaleRow i c u = Function.update u i (u i * c) := rfl

theorem addRow_apply (c : F) (i j : ℕ) (u : ℕ → F) :
    addRow c i j u = Function.update u j (u j + c * u i) := rfl

/-- The matrix with columns `M` is the product of the one with columns `B` and of `A`. -/
def IsProduct (n : ℕ) (A : ℕ → ℕ → F) (B M : ℕ → ℕ → F) : Prop :=
  ∀ x < n, M x = ∑ k ∈ Finset.range n, A k x • B k

/-- The first `i` columns have a one on the diagonal and zeros below it. -/
def Lower (n i : ℕ) (M : ℕ → ℕ → F) : Prop :=
  ∀ c < i, M c c = 1 ∧ ∀ r < n, c < r → M c r = 0

/-- The columns from `i` on are those of the identity. -/
def Identity (n i : ℕ) (M : ℕ → ℕ → F) : Prop :=
  ∀ c < n, i ≤ c → ∀ r < n, M c r = if c = r then 1 else 0

variable {n i j : ℕ} {c : F} {A B M B' M' : ℕ → ℕ → F} {T : (ℕ → F) →ₗ[F] (ℕ → F)}

/-- One row operation on both factors keeps a product. -/
theorem IsProduct.map (T : (ℕ → F) →ₗ[F] (ℕ → F)) (h : IsProduct n A B M)
    (hM : ∀ x < n, M' x = T (M x)) (hB : ∀ x < n, B' x = T (B x)) : IsProduct n A B' M' := by
  intro x hx
  rw [hM x hx, h x hx, map_sum]
  apply Finset.sum_congr rfl
  intro k hk
  rw [map_smul, hB k (Finset.mem_range.mp hk)]

/-- Every matrix is its product with the identity. -/
theorem IsProduct.of_identity (hB : Identity n 0 B) (hB0 : ∀ x < n, ∀ r, n ≤ r → B x r = 0)
    (hM : ∀ x < n, ∀ r < n, M x r = A r x) (hM0 : ∀ x < n, ∀ r, n ≤ r → M x r = 0) :
    IsProduct n A B M := by
  intro x hx
  funext r
  simp only [Finset.sum_apply, Pi.smul_apply, smul_eq_mul]
  by_cases hr : r < n
  · rw [hM x hx r hr, Finset.sum_eq_single r]
    · rw [hB r hr (Nat.zero_le r) r hr, if_pos rfl, mul_one]
    · intro k hk hkr
      rw [hB k (Finset.mem_range.mp hk) (Nat.zero_le k) r hr, if_neg hkr, mul_zero]
    · intro h
      exact absurd (Finset.mem_range.mpr hr) h
  · rw [hM0 x hx r (Nat.not_lt.mp hr)]
    refine (Finset.sum_eq_zero ?_).symm
    intro k hk
    rw [hB0 k (Finset.mem_range.mp hk) r (Nat.not_lt.mp hr), mul_zero]

theorem Lower.map (h : Lower n i M) (hin : i ≤ n) (hM : ∀ x < n, M' x = T (M x))
    (hT : ∀ c < i, ∀ u : ℕ → F, u c = 1 → (∀ r < n, c < r → u r = 0) →
      T u c = 1 ∧ ∀ r < n, c < r → T u r = 0) : Lower n i M' := by
  intro c hc
  rw [hM c (by omega)]
  exact hT c hc (M c) (h c hc).1 (h c hc).2

theorem swapRows_below (hij : i ≤ j) (hi : i < n) (hj : j < n) {c : ℕ} (hc : c < i) {u : ℕ → F}
    (hu : u c = 1) (hz : ∀ r < n, c < r → u r = 0) :
    swapRows i j u c = 1 ∧ ∀ r < n, c < r → swapRows i j u r = 0 := by
  simp only [swapRows_apply, Function.update_apply]
  constructor
  · rw [if_neg (by omega), if_neg (by omega), hu]
  · intro r hr hcr
    split
    · exact hz i hi hc
    · split
      · exact hz j hj (by omega)
      · exact hz r hr hcr

theorem scaleRow_below (hi : i < n) {c : ℕ} (hc : c < i) (d : F) {u : ℕ → F}
    (hu : u c = 1) (hz : ∀ r < n, c < r → u r = 0) :
    scaleRow i d u c = 1 ∧ ∀ r < n, c < r → scaleRow i d u r = 0 := by
  simp only [scaleRow_apply, Function.update_apply]
  constructor
  · rw [if_neg (by omega), hu]
  · intro r hr hcr
    split
    · rw [hz i hi hc, zero_mul]
    · exact hz r hr hcr

theorem addRow_below (hij : i < j) (hj : j < n) {c : ℕ} (hc : c < i) (d : F) {u : ℕ → F}
    (hu : u c = 1) (hz : ∀ r < n, c < r → u r = 0) :
    addRow d i j u c = 1 ∧ ∀ r < n, c < r → addRow d i j u r = 0 := by
  simp only [addRow_apply, Function.update_apply]
  constructor
  · rw [if_neg (by omega), hu]
  · intro r hr hcr
    split
    · rw [hz j hj (by omega), hz i (by omega) hc, mul_zero, add_zero]
    · exact hz r hr hcr

omit [CommRing F] in
/-- A loop whose passes each transform one column transforms every column. -/
theorem foldlM_columns {σ ε : Type} {f : σ → ℕ → Except ε σ} (view : σ → ℕ → ℕ → F)
    (T : (ℕ → F) → ℕ → F)
    (hf : ∀ u x v, x < n → f u x = .ok v →
      view v x = T (view u x) ∧ ∀ y < n, y ≠ x → view v y = view u y)
    {s t : σ} (h : (List.range n).foldlM f s = .ok t) : ∀ x < n, view t x = T (view s x) := by
  have hrun := Runs.foldlM_induction (f := f)
    (fun l u => l.Nodup ∧ (∀ x ∈ l, x < n) ∧
      ∀ x < n, view u x = if x ∈ l then view s x else T (view s x)) ?_
    ⟨List.nodup_range, fun x hx => List.mem_range.mp hx, fun x hx => by simp [hx]⟩ h
  · intro x hx
    simpa using hrun.2.2 x hx
  · rintro a l u v ⟨hd, hl, hu⟩ hv
    rw [List.nodup_cons] at hd
    have ha := hl a List.mem_cons_self
    obtain ⟨hva, hvo⟩ := hf u a v ha hv
    refine ⟨hd.2, fun x hx => hl x (List.mem_cons_of_mem a hx), ?_⟩
    intro x hx
    by_cases hxa : x = a
    · subst hxa
      rw [hva, hu x hx, if_pos List.mem_cons_self, if_neg hd.1]
    · rw [hvo x hx hxa, hu x hx]
      simp [hxa]

/-- Whatever combination of the columns of `M'` vanishes, that of the columns of `M` does. -/
def Reflects (n : ℕ) (M M' : ℕ → ℕ → F) : Prop :=
  ∀ c : ℕ → F, ∑ x ∈ Finset.range n, c x • M' x = 0 → ∑ x ∈ Finset.range n, c x • M x = 0

theorem Reflects.refl (n : ℕ) (M : ℕ → ℕ → F) : Reflects n M M := fun _ h => h

theorem Reflects.trans {M'' : ℕ → ℕ → F} (h : Reflects n M M') (h' : Reflects n M' M'') :
    Reflects n M M'' := fun c hc => h c (h' c hc)

theorem Reflects.map (T : (ℕ → F) →ₗ[F] (ℕ → F)) (hT : Function.Injective T)
    (hM : ∀ x < n, M' x = T (M x)) : Reflects n M M' := by
  intro c hc
  have hmap : T (∑ x ∈ Finset.range n, c x • M x) = ∑ x ∈ Finset.range n, c x • M' x := by
    rw [map_sum]
    refine Finset.sum_congr rfl fun x hx => ?_
    rw [map_smul, hM x (Finset.mem_range.mp hx)]
  exact hT (by rw [hmap, hc, map_zero])

theorem swapRows_injective (i j : ℕ) : Function.Injective (swapRows (F := F) i j) := by
  apply Function.LeftInverse.injective (g := swapRows i j)
  intro u
  funext r
  simp only [swapRows_apply, Function.update_apply]
  split_ifs <;> simp_all

theorem scaleRow_injective (i : ℕ) {a : F} (hc : c * a = 1) :
    Function.Injective (scaleRow i c) := by
  apply Function.LeftInverse.injective (g := scaleRow i a)
  intro u
  funext r
  simp only [scaleRow_apply, Function.update_apply]
  split_ifs with h
  · rw [mul_assoc, hc, mul_one, h]
  · rfl

theorem addRow_injective (hij : i ≠ j) : Function.Injective (addRow c i j) := by
  apply Function.LeftInverse.injective (g := addRow (-c) i j)
  intro u
  funext r
  simp only [addRow_apply, Function.update_apply]
  split_ifs with h
  · rw [h]
    ring
  · rfl

/-- More columns than rows they are supported on have a combination that vanishes. -/
theorem exists_vanishing {K : Type} [Field K] {M : ℕ → ℕ → K} (hi : i < n)
    (hM : ∀ x ≤ i, ∀ r, i ≤ r → M x r = 0) :
    ∃ c : ℕ → K, (∃ x < n, c x ≠ 0) ∧ ∑ x ∈ Finset.range n, c x • M x = 0 := by
  let f : (Fin (i + 1) → K) →ₗ[K] (Fin i → K) :=
    { toFun := fun v r => ∑ x, v x * M x r
      map_add' := fun u v => by
        funext r
        simp [add_mul, Finset.sum_add_distrib]
      map_smul' := fun a v => by
        funext r
        simp [Finset.mul_sum, mul_assoc] }
  have hker : LinearMap.ker f ≠ ⊥ := LinearMap.ker_ne_bot_of_finrank_lt (by simp)
  obtain ⟨v, hv, hne⟩ := (Submodule.ne_bot_iff _).mp hker
  obtain ⟨x, hx⟩ := Function.ne_iff.mp hne
  let c : ℕ → K := fun y => if h : y < i + 1 then v ⟨y, h⟩ else 0
  have hcv : ∀ y : Fin (i + 1), c y = v y := fun y => dif_pos y.isLt
  refine ⟨c, ⟨x, by omega, by rwa [hcv]⟩, ?_⟩
  funext r
  simp only [Finset.sum_apply, Pi.smul_apply, smul_eq_mul, Pi.zero_apply]
  by_cases hr : r < i
  · have hrow : ∑ y, v y * M y r = 0 := congrFun (LinearMap.mem_ker.mp hv) ⟨r, hr⟩
    rw [← Finset.sum_subset (Finset.range_mono hi), Finset.sum_range]
    · exact (Finset.sum_congr rfl fun y _ => by rw [hcv]).trans hrow
    · intro y _ hy
      rw [Finset.mem_range] at hy
      rw [show c y = 0 from dif_neg hy, zero_mul]
  · refine Finset.sum_eq_zero fun y _ => ?_
    by_cases hy : y < i + 1
    · rw [hM y (by omega) r (not_lt.mp hr), mul_zero]
    · rw [show c y = 0 from dif_neg hy, zero_mul]

end RowOperations
