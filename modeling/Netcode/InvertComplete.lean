import Netcode.InvertMatrix
import Netcode.Gf16

/-! The inversion of a matrix whose entries were all written returns, and blames a row exactly when
the matrix is singular. -/
namespace Netcode

open RowOperations Runs

variable {w : FieldSize} {g : GfComplete w} {b : Build} {n i j x k : ℕ} {v : BitVec w.bits}

namespace SquareMatrix

variable {m m' : SquareMatrix w}

/-- The entry at a position was written. -/
def Written (m : SquareMatrix w) (k : ℕ) : Prop := ∃ v, m.vec[k]? = some (some v)

/-- All entries of a matrix of this dimension were written. -/
structure Filled (n : ℕ) (m : SquareMatrix w) : Prop where
  dimension : m.dimension = n
  length : m.vec.length = n * n
  written : ∀ k < n * n, m.Written k

/-- What was written stays so. -/
theorem written_write (h : m.write k v = .ok m') :
    m'.Written k ∧ ∀ j, m.Written j → m'.Written j := by
  obtain ⟨hk, rfl⟩ := write_ok_iff.mp h
  refine ⟨⟨v, by simp [hk]⟩, ?_⟩
  rintro j ⟨u, hu⟩
  by_cases hj : k = j
  · exact ⟨v, by simp [← hj, hk]⟩
  · exact ⟨u, by rw [List.getElem?_set_ne hj, hu]⟩

theorem exists_write (hk : k < m.vec.length) : ∃ m', m.write k v = .ok m' :=
  ⟨_, write_ok_iff.mpr ⟨hk, rfl⟩⟩

theorem position_lt (hi : i < n) (hx : x < n) : i * n + x < n * n := by
  calc i * n + x < i * n + n := Nat.add_lt_add_left hx _
    _ = (i + 1) * n := (Nat.succ_mul i n).symm
    _ ≤ n * n := Nat.mul_le_mul_right n hi

theorem Filled.read (h : m.Filled n) (hi : i < n) (hx : x < n) :
    ∃ v, m.read (i * n + x) = .ok v := by
  obtain ⟨v, hv⟩ := h.written _ (position_lt hi hx)
  exact ⟨v, by rw [SquareMatrix.read, hv]⟩

theorem Filled.write (h : m.Filled n) (hi : i < n) (hx : x < n) (v : BitVec w.bits) :
    ∃ m', m.write (i * n + x) v = .ok m' ∧ m'.Filled n := by
  have hlt : i * n + x < m.vec.length := h.length ▸ position_lt hi hx
  obtain ⟨m', hw⟩ := exists_write (v := v) hlt
  exact ⟨m', hw, (dimension_write hw).trans h.dimension, (length_write hw).trans h.length,
    fun k hk => (written_write hw).2 k (h.written k hk)⟩

end SquareMatrix

namespace Matrices

open SquareMatrix

variable {m m' : Matrices w}

/-- All entries of both matrices were written. -/
structure Filled (n : ℕ) (m : Matrices w) : Prop where
  mat : m.mat.Filled n
  inv : m.inv.Filled n

theorem loop_ok {f : Matrices w → ℕ → Except Fault (Matrices w)} {l : List ℕ}
    (hf : ∀ x ∈ l, ∀ u : Matrices w, Filled n u → ∃ v, f u x = .ok v ∧ Filled n v)
    (hm : m.Filled n) : ∃ m', l.foldlM f m = .ok m' ∧ m'.Filled n :=
  foldlM_ok (Filled n) hf hm

theorem swapAt_ok (hi : i < n) (hj : j < n) (hx : x < n) (hm : m.Filled n) :
    ∃ m', swapAt (i * n) (j * n) m x = .ok m' ∧ m'.Filled n := by
  obtain ⟨a, ha⟩ := hm.mat.read hi hx
  obtain ⟨c, hc⟩ := hm.mat.read hj hx
  obtain ⟨m1, h1, hm1⟩ := hm.mat.write hi hx c
  obtain ⟨m2, h2, hm2⟩ := hm1.write hj hx a
  obtain ⟨a', ha'⟩ := hm.inv.read hi hx
  obtain ⟨c', hc'⟩ := hm.inv.read hj hx
  obtain ⟨n1, k1, hn1⟩ := hm.inv.write hi hx c'
  obtain ⟨n2, k2, hn2⟩ := hn1.write hj hx a'
  exact ⟨⟨m2, n2⟩, by simp only [swapAt, ha, hc, h1, h2, ha', hc', k1, k2, ok_bind], hm2, hn2⟩

theorem scaleAt_ok (hi : i < n) (hx : x < n) (hm : m.Filled n) :
    ∃ m', scaleAt g (i * n) v m x = .ok m' ∧ m'.Filled n := by
  obtain ⟨a, ha⟩ := hm.mat.read hi hx
  obtain ⟨m1, h1, hm1⟩ := hm.mat.write hi hx (multiplyCoefficients g a v)
  obtain ⟨c, hc⟩ := hm.inv.read hi hx
  obtain ⟨n1, k1, hn1⟩ := hm.inv.write hi hx (multiplyCoefficients g c v)
  exact ⟨⟨m1, n1⟩, by simp only [scaleAt, ha, h1, hc, k1, ok_bind], hm1, hn1⟩

theorem addAt_ok (hi : i < n) (hj : j < n) (hx : x < n) (hm : m.Filled n) :
    ∃ m', addAt (i * n) (n * j) m x = .ok m' ∧ m'.Filled n := by
  obtain ⟨a, ha⟩ := hm.mat.read hj hx
  obtain ⟨c, hc⟩ := hm.mat.read hi hx
  obtain ⟨m1, h1, hm1⟩ := hm.mat.write hj hx (a ^^^ c)
  obtain ⟨a', ha'⟩ := hm.inv.read hj hx
  obtain ⟨c', hc'⟩ := hm.inv.read hi hx
  obtain ⟨n1, k1, hn1⟩ := hm.inv.write hj hx (a' ^^^ c')
  refine ⟨⟨m1, n1⟩, ?_, hm1, hn1⟩
  rw [mul_comm n j]
  simp only [addAt, ha, hc, h1, ha', hc', k1, ok_bind]

theorem addMultipleAt_ok (hi : i < n) (hj : j < n) (hx : x < n) (hm : m.Filled n) :
    ∃ m', addMultipleAt g v (i * n) (n * j) m x = .ok m' ∧ m'.Filled n := by
  obtain ⟨a, ha⟩ := hm.mat.read hj hx
  obtain ⟨c, hc⟩ := hm.mat.read hi hx
  obtain ⟨m1, h1, hm1⟩ := hm.mat.write hj hx (a ^^^ multiplyCoefficients g v c)
  obtain ⟨a', ha'⟩ := hm.inv.read hj hx
  obtain ⟨c', hc'⟩ := hm.inv.read hi hx
  obtain ⟨n1, k1, hn1⟩ := hm.inv.write hj hx (a' ^^^ multiplyCoefficients g v c')
  refine ⟨⟨m1, n1⟩, ?_, hm1, hn1⟩
  rw [mul_comm n j]
  simp only [addMultipleAt, ha, hc, h1, ha', hc', k1, ok_bind]

theorem addToInverseAt_ok (hi : i < n) (hj : j < n) (hx : x < n) (hm : m.Filled n) :
    ∃ m', addToInverseAt g v (i * n) (j * n) m x = .ok m' ∧ m'.Filled n := by
  obtain ⟨a, ha⟩ := hm.inv.read hj hx
  obtain ⟨c, hc⟩ := hm.inv.read hi hx
  obtain ⟨n1, k1, hn1⟩ := hm.inv.write hj hx (a ^^^ multiplyCoefficients g v c)
  exact ⟨⟨m.mat, n1⟩, by simp only [addToInverseAt, ha, hc, k1, ok_bind], hm.mat, hn1⟩

theorem eliminate_ok (hi : i < n) (hj : j < n) (hm : m.Filled n) :
    ∃ m', eliminate g n i m j = .ok m' ∧ m'.Filled n := by
  obtain ⟨a, ha⟩ := hm.mat.read hj hi
  simp only [eliminate, ha, ok_bind]
  split
  · exact ⟨m, rfl, hm⟩
  · split
    · exact loop_ok (fun x hx u hu => addAt_ok hi hj (List.mem_range.mp hx) hu) hm
    · exact loop_ok (fun x hx u hu => addMultipleAt_ok hi hj (List.mem_range.mp hx) hu) hm

theorem swap_ok (hi : i < n) (hj : j < n) (hm : m.Filled n) :
    ∃ m', swap n i j m = .ok m' ∧ m'.Filled n := by
  rw [swap]
  split
  · exact ⟨m, rfl, hm⟩
  · exact loop_ok (fun x hx u hu => swapAt_ok hi hj (List.mem_range.mp hx) hu) hm

theorem normalize_ok (hi : i < n) (hm : m.Filled n) (hp : m.mat.column g n i i ≠ 0) :
    ∃ m', normalize b g n i m = .ok m' ∧ m'.Filled n := by
  obtain ⟨a, ha⟩ := hm.mat.read hi hi
  have hne : a ≠ 0#w.bits := by
    rintro rfl
    exact hp (entry_of_read ha)
  simp only [normalize, ha, ok_bind]
  split
  · exact ⟨m, rfl, hm⟩
  · rw [invertCoefficient_eq b g hne, ok_bind]
    exact loop_ok (fun x hx u hu => scaleAt_ok hi (List.mem_range.mp hx) hu) hm

theorem clearAbove_ok (hi : i < n) (hj : j < n) (hm : m.Filled n) :
    ∃ m', clearAbove g n i m j = .ok m' ∧ m'.Filled n := by
  obtain ⟨a, ha⟩ := hm.mat.read hj hi
  simp only [clearAbove, ha, ok_bind]
  split
  · exact ⟨m, rfl, hm⟩
  · obtain ⟨mat, hw, hmat⟩ := hm.mat.write hj hi 0#w.bits
    rw [hw, ok_bind]
    exact loop_ok (m := { m with mat := mat })
      (fun x hx u hu => addToInverseAt_ok hi hj (List.mem_range.mp hx) hu) ⟨hmat, hm.inv⟩

/-- The identity is written whatever the matrix held before. -/
theorem setIdentity_ok (hmat : m.mat.Filled n) (hdim : m.inv.dimension = n)
    (hlen : m.inv.vec.length = n * n) : ∃ m', setIdentity n m = .ok m' ∧ m'.Filled n := by
  have hrun := foldlM_ok_induction (l := List.range n) (s := m)
    (f := fun (m : Matrices w) i => (List.range n).foldlM (fun m j => do
      let inv ← m.inv.write (m.inv.index i j) (if i = j then 1#w.bits else 0#w.bits)
      .ok { m with inv := inv }) m)
    (fun l u => (∀ i ∈ l, i < n) ∧ u.mat = m.mat ∧ u.inv.dimension = n ∧
      u.inv.vec.length = n * n ∧ ∀ i < n, i ∉ l → ∀ j < n, u.inv.Written (j * n + i)) ?_
    ⟨fun i hi => List.mem_range.mp hi, rfl, hdim, hlen,
      fun i hi hl => absurd (List.mem_range.mpr hi) hl⟩
  · obtain ⟨m', h, -, hm', hd, hl, hw⟩ := hrun
    refine ⟨m', h, hm' ▸ hmat, hd, hl, fun k hk => ?_⟩
    have hn : 0 < n := Nat.pos_of_ne_zero fun h0 => by simp [h0] at hk
    rw [← Nat.div_add_mod' k n]
    exact hw (k % n) (Nat.mod_lt k hn) List.not_mem_nil (k / n) (Nat.div_lt_of_lt_mul hk)
  · rintro i l u ⟨hl, hm, hd, hlen, hw⟩
    have hi := hl i List.mem_cons_self
    have hcol := foldlM_ok_induction (l := List.range n) (s := u)
      (f := fun (m : Matrices w) j => do
        let inv ← m.inv.write (m.inv.index i j) (if i = j then 1#w.bits else 0#w.bits)
        .ok { m with inv := inv })
      (fun l' u' => (∀ j ∈ l', j < n) ∧ u'.mat = m.mat ∧ u'.inv.dimension = n ∧
        u'.inv.vec.length = n * n ∧ (∀ k, u.inv.Written k → u'.inv.Written k) ∧
        ∀ j < n, j ∉ l' → u'.inv.Written (j * n + i)) ?_
      ⟨fun j hj => List.mem_range.mp hj, hm, hd, hlen, fun k hk => hk,
        fun j hj hl => absurd (List.mem_range.mpr hj) hl⟩
    · obtain ⟨v, hv, -, hm', hd', hlen', ho', hw'⟩ := hcol
      refine ⟨v, hv, fun a ha => hl a (List.mem_cons_of_mem i ha), hm', hd', hlen', ?_⟩
      intro a ha hal j hj
      by_cases hai : a = i
      · rw [hai]
        exact hw' j hj List.not_mem_nil
      · exact ho' _ (hw a ha (by simp [hai, hal]) j hj)
    · rintro j l' u' ⟨hl', hm', hd', hlen', ho', hw'⟩
      have hj := hl' j List.mem_cons_self
      have hlt : u'.inv.index i j < u'.inv.vec.length := by
        rw [SquareMatrix.index, hd', hlen']
        exact position_lt hj hi
      obtain ⟨inv, hwrite⟩ := exists_write (v := if i = j then 1#w.bits else 0#w.bits) hlt
      obtain ⟨hself, hkeep⟩ := written_write hwrite
      rw [SquareMatrix.index, hd'] at hself
      refine ⟨{ u' with inv := inv }, by rw [hwrite, ok_bind],
        fun a ha => hl' a (List.mem_cons_of_mem j ha), hm', (dimension_write hwrite).trans hd',
        (length_write hwrite).trans hlen', fun k hk => hkeep k (ho' k hk), ?_⟩
      intro a ha hal
      by_cases haj : a = j
      · rw [haj]
        exact hself
      · exact hkeep _ (hw' a ha (by simp [haj, hal]))

theorem findPivot_ok {fuel : ℕ} (hi : i < n) (hm : m.Filled n) (hj : j + fuel = n) :
    ∃ j', findPivot n i m fuel j = .ok j' ∧ (∀ r, j ≤ r → r < j' → m.mat.column g n i r = 0) ∧
      (j' < n → m.mat.column g n i j' ≠ 0) := by
  induction fuel generalizing j with
  | zero =>
    refine ⟨j, rfl, fun r hr hrj => by omega, fun hlt => ?_⟩
    omega
  | succ fuel ih =>
    obtain ⟨a, ha⟩ := hm.mat.read (show j < n by omega) hi
    have he : m.mat.column g n i j = ⟨a⟩ := entry_of_read ha
    rw [mul_comm] at ha
    simp only [findPivot, ha, ok_bind]
    split
    · next hz =>
      obtain ⟨j', hj', hzero, hne⟩ := ih (j := j + 1) (by omega)
      refine ⟨j', hj', fun r hr hrj => ?_, hne⟩
      rcases Nat.eq_or_lt_of_le hr with rfl | hlt
      · rw [he, hz]
        rfl
      · exact hzero r hlt hrj
    · next hz =>
      refine ⟨j, rfl, fun r hr hrj => by omega, fun _ h => hz ?_⟩
      rw [he] at h
      exact congrArg Gf.word h

/-- No row is left for the swap only if the rest of the column is zero. -/
theorem pivotRow_ok (hi : i < n) (hm : m.Filled n) : ∃ j, pivotRow n i m = .ok j ∧
    (j = n → ∀ r, i ≤ r → r < n → m.mat.column g n i r = 0) ∧
    (j < n → m.mat.column g n i j ≠ 0) := by
  obtain ⟨a, ha⟩ := hm.mat.read hi hi
  have he : m.mat.column g n i i = ⟨a⟩ := entry_of_read ha
  simp only [pivotRow, ha, ok_bind]
  split
  · next hz =>
    obtain ⟨j, hj, hzero, hne⟩ := findPivot_ok (g := g) hi hm
      (show i + 1 + (n - (i + 1)) = n by omega)
    refine ⟨j, hj, fun hjn r hr hrn => ?_, hne⟩
    rcases Nat.eq_or_lt_of_le hr with rfl | hlt
    · rw [he, hz]
      rfl
    · exact hzero r hlt (hjn ▸ hrn)
  · next hz =>
    refine ⟨i, rfl, fun hin => by omega, fun _ h => hz ?_⟩
    rw [he] at h
    exact congrArg Gf.word h

/-- A combination of columns that vanishes after an operation already did before. -/
abbrev ReflectsColumns (g : GfComplete w) (n : ℕ) (m m' : Matrices w) : Prop :=
  Reflects n (m.mat.column g n) (m'.mat.column g n)

theorem swap_reflects (h : swap n i j m = .ok m') : ReflectsColumns g n m m' := by
  rw [swap] at h
  split at h
  · cases h
    exact Reflects.refl n _
  · exact Reflects.map _ (swapRows_injective i j)
      (transforms_loop (fun u x v hx => swapAt_spec hx) h).mat

theorem normalize_reflects (h : normalize b g n i m = .ok m') : ReflectsColumns g n m m' := by
  simp only [normalize, bind_ok_iff] at h
  obtain ⟨tmp, -, h⟩ := h
  split at h
  · cases h
    exact Reflects.refl n _
  · simp only [bind_ok_iff, invertCoefficient] at h
    obtain ⟨inverse, ⟨-, -, hinv⟩, h⟩ := h
    split at hinv
    · cases hinv
    · next hz =>
      cases hinv
      refine Reflects.map _ (scaleRow_injective i (a := (⟨tmp⟩ : Gf g)) ?_)
        (transforms_loop (fun u x v hx => scaleAt_spec hx) h).mat
      exact Gf.ext (g.divide_multiply _ _ hz)

theorem eliminate_reflects {l : List ℕ} (hl : ∀ j ∈ l, i < j)
    (h : l.foldlM (eliminate g n i) m = .ok m') : ReflectsColumns g n m m' := by
  refine foldlM_invariant (fun u => ReflectsColumns g n m u) (fun j hj u v hu hv => ?_)
    (Reflects.refl n _) h
  exact hu.trans (Reflects.map _ (addRow_injective (hl j hj).ne) (eliminate_spec hv).mat)

/-- What the conversion does for a column: the rest of the column is zero, or the next column is
reached. -/
theorem triangulate_ok (hi : i < n) (hm : m.Filled n) :
    ∃ found m', triangulate b g n i m = .ok (found, m') ∧ m'.Filled n ∧
      ReflectsColumns g n m m' ∧
      (found = false → m' = m ∧ ∀ r, i ≤ r → r < n → m.mat.column g n i r = 0) := by
  obtain ⟨j, hj, hzero, hne⟩ := pivotRow_ok (g := g) hi hm
  obtain ⟨hij, hjn⟩ := pivotRow_bounds hi hj
  simp only [triangulate, hj, ok_bind]
  split
  · next hjn =>
    exact ⟨false, m, rfl, hm, Reflects.refl n _, fun _ => ⟨rfl, hzero hjn⟩⟩
  · next hjn' =>
    have hlt : j < n := by omega
    obtain ⟨m1, h1, hm1⟩ := swap_ok hi hlt hm
    have hpivot : m1.mat.column g n i i ≠ 0 := by
      rw [swap] at h1
      split at h1
      · next hji =>
        cases h1
        exact hji ▸ hne hlt
      · next hji =>
        rw [(transforms_loop (fun u x v hx => swapAt_spec (g := g) hx) h1).mat i hi, swapRows_apply,
          Function.update_of_ne (Ne.symm hji), Function.update_self]
        exact hne hlt
    obtain ⟨m2, h2, hm2⟩ := normalize_ok (b := b) hi hm1 hpivot
    obtain ⟨m3, h3, hm3⟩ := loop_ok (f := eliminate g n i) (l := List.range' (i + 1) (n - (i + 1)))
      (fun j hj u hu => eliminate_ok hi (by rw [List.mem_range'_1] at hj; omega) hu) hm2
    refine ⟨true, m3, by rw [h1, ok_bind, h2, ok_bind, h3, ok_bind], hm3, ?_, fun h => by cases h⟩
    refine ((swap_reflects h1).trans (normalize_reflects h2)).trans (eliminate_reflects ?_ h3)
    intro j hj
    rw [List.mem_range'_1] at hj
    omega

/-- The conversion returns, and fails only when a combination of the columns vanishes. -/
theorem triangular_ok {A : ℕ → ℕ → Gf g} (hE : Eliminated g n i A m) (hm : m.Filled n)
    (hin : i + k = n) :
    ∃ found m', triangular b g n (List.range' i k) m = .ok (found, m') ∧ m'.Filled n ∧
      (found = false → ∃ c : ℕ → Gf g, (∃ x < n, c x ≠ 0) ∧
        ∑ x ∈ Finset.range n, c x • m.mat.column g n x = 0) := by
  induction k generalizing i m with
  | zero => exact ⟨true, m, rfl, hm, fun h => by cases h⟩
  | succ k ih =>
    have hi : i < n := by omega
    obtain ⟨found, m1, h1, hm1, hreflects, hfail⟩ := triangulate_ok (g := g) (b := b) hi hm
    simp only [List.range'_succ, triangular, h1, ok_bind]
    cases found with
    | false =>
      refine ⟨false, m1, rfl, hm1, fun _ => exists_vanishing hi fun x hx r hr => ?_⟩
      rcases Nat.lt_or_ge r n with hrn | hrn
      · rcases Nat.eq_or_lt_of_le hx with rfl | hlt
        · exact (hfail rfl).2 r hr hrn
        · exact (hE.lower x hlt).2 r hrn (by omega)
      · exact column_eq_zero hm.mat.length hrn
    | true =>
      obtain ⟨found, m', h, hm', hsingular⟩ := ih (triangulate_spec hi hE h1) hm1 (by omega)
      refine ⟨found, m', h, hm', fun hf => ?_⟩
      obtain ⟨c, hc, hsum⟩ := hsingular hf
      exact ⟨c, hc, hreflects c hsum⟩

end Matrices

open Matrices SquareMatrix

/-- The matrix of field elements that a matrix holds. -/
def SquareMatrix.toMatrix (g : GfComplete w) (n : ℕ) (m : SquareMatrix w) :
    Matrix (Fin n) (Fin n) (Gf g) :=
  Matrix.of fun row col => m.entry g (col * n + row)

variable {mat inv : SquareMatrix w}

theorem mul_eq_one_of_sound {m : Matrices w} (h : ∀ x < n, ∀ r < n,
      ∑ k ∈ Finset.range n, mat.entry g (k * n + x) * m.inv.entry g (r * n + k) =
        if x = r then 1 else 0) : mat.toMatrix g n * m.inv.toMatrix g n = 1 := by
  refine Matrix.ext fun x r => ?_
  simp only [Matrix.mul_apply, Matrix.one_apply, Fin.ext_iff]
  rw [← h x x.isLt r r.isLt]
  exact (Finset.sum_range (fun k => mat.entry g (k * n + x) * m.inv.entry g (r * n + k))).symm

/-- A vanishing combination of the columns of the storage is one of the rows of the matrix. -/
theorem not_isUnit_of_vanishing {c : ℕ → Gf g} (hc : ∃ x < n, c x ≠ 0)
    (h : ∑ x ∈ Finset.range n, c x • mat.column g n x = 0) : ¬ IsUnit (mat.toMatrix g n) := by
  rw [Matrix.isUnit_iff_isUnit_det, isUnit_iff_ne_zero, not_not,
    ← Matrix.exists_vecMul_eq_zero_iff]
  obtain ⟨x, hx, hcx⟩ := hc
  refine ⟨fun y => c y, Function.ne_iff.mpr ⟨⟨x, hx⟩, hcx⟩, ?_⟩
  funext r
  have hr := congrFun h r
  simp only [Finset.sum_apply, Pi.smul_apply, smul_eq_mul, Pi.zero_apply] at hr
  rw [Matrix.vecMul, dotProduct, Pi.zero_apply, ← hr, Finset.sum_range]
  rfl

/-- The inversion of a matrix whose entries were all written returns, whatever the other one held.
It blames no row if and only if the matrix is invertible, and the other one is then its two-sided
inverse; otherwise it blames the last row. -/
theorem invert_spec (hn : 0 < n) (hmat : mat.Filled n) (hdim : inv.dimension = n)
    (hlen : inv.vec.length = n * n) : ∃ blamed m, invert b g mat inv = .ok (blamed, m) ∧
      m.inv.Filled n ∧ (blamed = none ∨ blamed = some (n - 1)) ∧
      (blamed = none ↔ IsUnit (mat.toMatrix g n)) ∧
      (blamed = none → m.inv.toMatrix g n * mat.toMatrix g n = 1 ∧
        mat.toMatrix g n * m.inv.toMatrix g n = 1) := by
  have hdims : b.assert .dimensions (decide (mat.dimension = inv.dimension)) = .ok () :=
    Build.assert_eq_ok (decide_eq_true (hmat.dimension.trans hdim.symm))
  obtain ⟨m1, h1, hm1⟩ := setIdentity_ok (m := ⟨mat, inv⟩) hmat hdim hlen
  obtain ⟨hid, hm1mat, hd1, hl1⟩ := setIdentity_spec (g := g) hdim h1
  have hE : Eliminated g n 0 (fun k x => mat.entry g (k * n + x)) m1 := by
    refine ⟨IsProduct.of_identity hid (fun x _ r hr => column_eq_zero (hl1.trans hlen) hr)
      (fun x _ r _ => ?_) (fun x _ r hr => ?_), fun c hc => absurd hc (by omega), hd1⟩
    · rw [hm1mat]
      rfl
    · rw [hm1mat]
      exact column_eq_zero hmat.length hr
  obtain ⟨found, m2, h2, hm2, hsingular⟩ := triangular_ok (b := b) hE hm1 (Nat.zero_add n)
  rw [← List.range_eq_range'] at h2
  have hinvert : invert b g mat inv = (if !found then .ok (some (n - 1), m2)
      else if n = 0 then .error (.undefined .outOfIndex)
      else do
        let m ← (List.range n).reverse.foldlM
          (fun m i => (List.range i).foldlM (clearAbove g n i) m) m2
        .ok (none, m)) := by
    rw [invert, hdims, ok_bind]
    simp only [hmat.dimension, h1, h2, ok_bind]
  cases found with
  | false =>
    obtain ⟨c, hc, hsum⟩ := hsingular rfl
    rw [hm1mat] at hsum
    have hnot := not_isUnit_of_vanishing hc hsum
    exact ⟨some (n - 1), m2, hinvert, hm2.inv, Or.inr rfl,
      iff_of_false (by simp) hnot, fun h => by cases h⟩
  | true =>
    obtain ⟨m3, h3, hm3⟩ := foldlM_ok (l := (List.range n).reverse) (Filled n)
      (f := fun m i => (List.range i).foldlM (clearAbove g n i) m) (s := m2) (fun i hi u hu => by
        have hin := List.mem_range.mp (List.mem_reverse.mp hi)
        exact loop_ok (fun j hj v hv =>
          clearAbove_ok hin ((List.mem_range.mp hj).trans hin) hv) hu) hm2
    have hok : invert b g mat inv = .ok (none, m3) := by
      rw [hinvert, h3]
      simp [hn.ne']
    have hsound := (invert_sound (by rw [hmat.length, hmat.dimension]) (hdim.trans
      hmat.dimension.symm) (by rw [hlen, hmat.dimension]) hok).2
    rw [hmat.dimension] at hsound
    have hright := mul_eq_one_of_sound hsound
    have hleft := mul_eq_one_comm.mp hright
    exact ⟨none, m3, hok, hm3.inv, Or.inl rfl,
      iff_of_true rfl (.of_mul_eq_one _ hright), fun _ => ⟨hleft, hright⟩⟩

/-- Matrix inversion is correct and complete, whatever the matrix for the inverse held before: no
row is blamed if and only if the matrix is invertible, and what is returned is then its two-sided
inverse. As the inversion returns in every build, it never inverts a zero element. -/
theorem invert_correct (hn : 0 < n) (hmat : mat.Filled n) (hdim : inv.dimension = n)
    (hlen : inv.vec.length = n * n) : ∃ blamed m, invert b g mat inv = .ok (blamed, m) ∧
      m.inv.Filled n ∧ (blamed = none ↔ IsUnit (mat.toMatrix g n)) ∧
      (blamed = none → m.inv.toMatrix g n * mat.toMatrix g n = 1 ∧
        mat.toMatrix g n * m.inv.toMatrix g n = 1) := by
  obtain ⟨blamed, m, h, hinv, -, hiff, hprod⟩ := invert_spec hn hmat hdim hlen
  exact ⟨blamed, m, h, hinv, hiff, hprod⟩

/-- A matrix with no pivot in its first column but below the diagonal. -/
def swapMatrix : SquareMatrix .w4 := ⟨2, [some 0#4, some 1#4, some 2#4, some 0#4]⟩

theorem filled_swapMatrix : swapMatrix.Filled 2 := by
  refine ⟨rfl, rfl, fun k hk => ?_⟩
  interval_cases k
  exacts [⟨_, rfl⟩, ⟨_, rfl⟩, ⟨_, rfl⟩, ⟨_, rfl⟩]

theorem invert_correct_swapMatrix :
    ∃ blamed m, invert .debug gf16 swapMatrix (SquareMatrix.create 2) = .ok (blamed, m) ∧
      m.inv.Filled 2 ∧ (blamed = none ↔ IsUnit (swapMatrix.toMatrix gf16 2)) ∧
      (blamed = none → m.inv.toMatrix gf16 2 * swapMatrix.toMatrix gf16 2 = 1 ∧
        swapMatrix.toMatrix gf16 2 * m.inv.toMatrix gf16 2 = 1) :=
  invert_correct (by decide) filled_swapMatrix rfl rfl

end Netcode
