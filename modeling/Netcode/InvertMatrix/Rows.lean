import Netcode.SquareMatrix
import Netcode.Library.RowOperations

/-! What the loops of invert make of the rows of both matrices. -/
namespace Netcode

open RowOperations Runs SquareMatrix

variable {w : FieldSize} {g : GfComplete w} {n i j x k : ℕ} {v : BitVec w.bits}

namespace SquareMatrix

variable {m m' : SquareMatrix w}

/-- The field element at a position; zero where nothing was written. -/
def entry (g : GfComplete w) (m : SquareMatrix w) (k : ℕ) : Gf g :=
  ⟨(m.vec.getD k none).getD 0#w.bits⟩

/-- Column `x` of the matrix whose rows are the columns square_matrix stores. -/
def column (g : GfComplete w) (n : ℕ) (m : SquareMatrix w) (x r : ℕ) : Gf g :=
  m.entry g (r * n + x)

theorem entry_of_read (h : m.read k = .ok v) : m.entry g k = ⟨v⟩ := by
  rw [read] at h
  cases hk : m.vec[k]? with
  | none => simp [hk] at h
  | some o =>
    cases o with
    | none => simp [hk] at h
    | some u =>
      rw [hk] at h
      cases h
      simp [entry, List.getD_eq_getElem?_getD, hk]

theorem write_ok_iff : m.write k v = .ok m' ↔
    k < m.vec.length ∧ m' = ⟨m.dimension, m.vec.set k (some v)⟩ := by
  rw [write]
  split <;> simp_all [eq_comm]

theorem dimension_write (h : m.write k v = .ok m') : m'.dimension = m.dimension := by
  rw [(write_ok_iff.mp h).2]

theorem length_write (h : m.write k v = .ok m') : m'.vec.length = m.vec.length := by
  rw [(write_ok_iff.mp h).2, List.length_set]

theorem entry_write (h : m.write k v = .ok m') (j : ℕ) :
    m'.entry g j = if j = k then ⟨v⟩ else m.entry g j := by
  obtain ⟨hk, rfl⟩ := write_ok_iff.mp h
  by_cases hj : j = k
  · simp [entry, List.getD_eq_getElem?_getD, hj, hk]
  · simp [entry, List.getD_eq_getElem?_getD, hj, List.getElem?_set_ne (Ne.symm hj)]

theorem position_inj {r r' y : ℕ} (hx : x < n) (hy : y < n) :
    r * n + x = r' * n + y ↔ r = r' ∧ x = y := by
  constructor
  · intro h
    have hn : 0 < n := by omega
    have hmod := congrArg (· % n) h
    have hdiv := congrArg (· / n) h
    simp only [Nat.mul_add_mod_self_right, Nat.mod_eq_of_lt hx, Nat.mod_eq_of_lt hy] at hmod
    simp only [Nat.add_div_of_dvd_right (Nat.dvd_mul_left n _), Nat.mul_div_cancel _ hn,
      Nat.div_eq_of_lt hx, Nat.div_eq_of_lt hy] at hdiv
    exact ⟨by simpa using hdiv, hmod⟩
  · rintro ⟨rfl, rfl⟩
    rfl

theorem column_write {r : ℕ} (hx : x < n) (h : m.write (r * n + x) v = .ok m') :
    m'.column g n x = Function.update (m.column g n x) r ⟨v⟩ ∧
      ∀ y < n, y ≠ x → m'.column g n y = m.column g n y := by
  refine ⟨?_, ?_⟩
  · funext q
    simp only [column, entry_write h, Function.update_apply, position_inj hx hx, and_true]
  · intro y hy hyx
    funext q
    simp only [column, entry_write h, position_inj hy hx, hyx, and_false, if_false]

end SquareMatrix

namespace Matrices

variable {m m' : Matrices w}

/-- Column `x` is transformed, the other ones are kept. -/
def TransformsAt (g : GfComplete w) (n : ℕ) (T : (ℕ → Gf g) → ℕ → Gf g) (x : ℕ)
    (m m' : SquareMatrix w) : Prop :=
  m'.column g n x = T (m.column g n x) ∧ ∀ y < n, y ≠ x → m'.column g n y = m.column g n y

/-- Column `x` of both matrices is transformed. -/
structure BothAt (g : GfComplete w) (n : ℕ) (T : (ℕ → Gf g) → ℕ → Gf g) (x : ℕ)
    (m m' : Matrices w) : Prop where
  mat : TransformsAt g n T x m.mat m'.mat
  inv : TransformsAt g n T x m.inv m'.inv
  dimension : m'.inv.dimension = m.inv.dimension

theorem swapAt_spec (hx : x < n) (h : swapAt (i * n) (j * n) m x = .ok m') :
    BothAt g n (swapRows i j) x m m' := by
  simp only [swapAt, bind_ok_iff, Except.ok.injEq] at h
  obtain ⟨a, ha, c, hc, m1, h1, m2, h2, a', ha', c', hc', n1, k1, n2, k2, rfl⟩ := h
  obtain ⟨e1, o1⟩ := column_write (g := g) hx h1
  obtain ⟨e2, o2⟩ := column_write (g := g) hx h2
  obtain ⟨f1, p1⟩ := column_write (g := g) hx k1
  obtain ⟨f2, p2⟩ := column_write (g := g) hx k2
  refine ⟨⟨?_, fun y hy hyx => (o2 y hy hyx).trans (o1 y hy hyx)⟩,
    ⟨?_, fun y hy hyx => (p2 y hy hyx).trans (p1 y hy hyx)⟩,
    (dimension_write k2).trans (dimension_write k1)⟩
  · rw [e2, e1, swapRows_apply, ← entry_of_read ha, ← entry_of_read hc]
    rfl
  · rw [f2, f1, swapRows_apply, ← entry_of_read ha', ← entry_of_read hc']
    rfl

theorem scaleAt_spec (hx : x < n) (h : scaleAt g (i * n) v m x = .ok m') :
    BothAt g n (scaleRow i ⟨v⟩) x m m' := by
  simp only [scaleAt, bind_ok_iff, multiplyCoefficients_eq, Except.ok.injEq] at h
  obtain ⟨a, ha, m1, h1, c, hc, n1, k1, rfl⟩ := h
  obtain ⟨e1, o1⟩ := column_write (g := g) hx h1
  obtain ⟨f1, p1⟩ := column_write (g := g) hx k1
  refine ⟨⟨?_, o1⟩, ⟨?_, p1⟩, dimension_write k1⟩
  · rw [e1, scaleRow_apply]
    exact congrArg (Function.update _ i) (congrArg (· * (⟨v⟩ : Gf g)) (entry_of_read ha)).symm
  · rw [f1, scaleRow_apply]
    exact congrArg (Function.update _ i) (congrArg (· * (⟨v⟩ : Gf g)) (entry_of_read hc)).symm

theorem addAt_spec (hx : x < n) (h : addAt (i * n) (n * j) m x = .ok m') :
    BothAt g n (addRow 1 i j) x m m' := by
  rw [mul_comm n j] at h
  simp only [addAt, bind_ok_iff, Except.ok.injEq] at h
  obtain ⟨a, ha, c, hc, m1, h1, a', ha', c', hc', n1, k1, rfl⟩ := h
  obtain ⟨e1, o1⟩ := column_write (g := g) hx h1
  obtain ⟨f1, p1⟩ := column_write (g := g) hx k1
  refine ⟨⟨?_, o1⟩, ⟨?_, p1⟩, dimension_write k1⟩
  · rw [e1, addRow_apply, one_mul, column, column, entry_of_read ha, entry_of_read hc]
    rfl
  · rw [f1, addRow_apply, one_mul, column, column, entry_of_read ha', entry_of_read hc']
    rfl

theorem addMultipleAt_spec (hx : x < n) (h : addMultipleAt g v (i * n) (n * j) m x = .ok m') :
    BothAt g n (addRow ⟨v⟩ i j) x m m' := by
  rw [mul_comm n j] at h
  simp only [addMultipleAt, bind_ok_iff, multiplyCoefficients_eq, Except.ok.injEq] at h
  obtain ⟨a, ha, c, hc, m1, h1, a', ha', c', hc', n1, k1, rfl⟩ := h
  obtain ⟨e1, o1⟩ := column_write (g := g) hx h1
  obtain ⟨f1, p1⟩ := column_write (g := g) hx k1
  refine ⟨⟨?_, o1⟩, ⟨?_, p1⟩, dimension_write k1⟩
  · rw [e1, addRow_apply, column, column, entry_of_read ha, entry_of_read hc]
    rfl
  · rw [f1, addRow_apply, column, column, entry_of_read ha', entry_of_read hc']
    rfl

theorem addToInverseAt_spec (hx : x < n) (h : addToInverseAt g v (i * n) (j * n) m x = .ok m') :
    TransformsAt g n (addRow ⟨v⟩ i j) x m.inv m'.inv ∧ m'.mat = m.mat ∧
      m'.inv.dimension = m.inv.dimension := by
  simp only [addToInverseAt, bind_ok_iff, multiplyCoefficients_eq, Except.ok.injEq] at h
  obtain ⟨a, ha, c, hc, n1, k1, rfl⟩ := h
  obtain ⟨f1, p1⟩ := column_write (g := g) hx k1
  refine ⟨⟨?_, p1⟩, rfl, dimension_write k1⟩
  rw [f1, addRow_apply, column, column, entry_of_read ha, entry_of_read hc]
  rfl

/-- Every column of both matrices is transformed. -/
structure Transforms (g : GfComplete w) (n : ℕ) (T : (ℕ → Gf g) → ℕ → Gf g)
    (m m' : Matrices w) : Prop where
  mat : ∀ x < n, m'.mat.column g n x = T (m.mat.column g n x)
  inv : ∀ x < n, m'.inv.column g n x = T (m.inv.column g n x)
  dimension : m'.inv.dimension = m.inv.dimension

theorem transforms_loop {f : Matrices w → ℕ → Except Fault (Matrices w)}
    {T : (ℕ → Gf g) → ℕ → Gf g} (hf : ∀ u x v, x < n → f u x = .ok v → BothAt g n T x u v)
    (h : (List.range n).foldlM f m = .ok m') : Transforms g n T m m' := by
  refine ⟨foldlM_columns (fun u : Matrices w => u.mat.column g n) T
      (fun u x v hx hv => (hf u x v hx hv).mat) h,
    foldlM_columns (fun u : Matrices w => u.inv.column g n) T
      (fun u x v hx hv => (hf u x v hx hv).inv) h, ?_⟩
  refine foldlM_invariant (fun u => u.inv.dimension = m.inv.dimension) ?_ rfl h
  intro x hx u v hu hv
  exact (hf u x v (List.mem_range.mp hx) hv).dimension.trans hu

end Matrices

end Netcode
