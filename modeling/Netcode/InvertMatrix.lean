import Netcode.InvertMatrix.Rows

/-! What invert returns is an inverse, over the field gf_complete implements. -/
namespace Netcode

open RowOperations Runs SquareMatrix

variable {w : FieldSize} {g : GfComplete w} {b : Build} {n i j x k : ℕ} {v : BitVec w.bits}

namespace Matrices

variable {m m' : Matrices w} {A : ℕ → ℕ → Gf g}

/-- What elimination has reached: the matrix is the product of its inverse so far and of the
original one, and its first `i` columns are lower. -/
structure Eliminated (g : GfComplete w) (n i : ℕ) (A : ℕ → ℕ → Gf g) (m : Matrices w) : Prop where
  product : IsProduct n A (m.inv.column g n) (m.mat.column g n)
  lower : Lower n i (m.mat.column g n)
  dimension : m.inv.dimension = n

theorem Eliminated.map (T : (ℕ → Gf g) →ₗ[Gf g] (ℕ → Gf g)) (h : Eliminated g n i A m)
    (hin : i ≤ n) (ht : Transforms g n T m m')
    (hT : ∀ c < i, ∀ u : ℕ → Gf g, u c = 1 → (∀ r < n, c < r → u r = 0) →
      T u c = 1 ∧ ∀ r < n, c < r → T u r = 0) : Eliminated g n i A m' :=
  ⟨h.product.map T ht.mat ht.inv, h.lower.map hin ht.mat hT, ht.dimension.trans h.dimension⟩

theorem eliminate_spec (h : eliminate g n i m j = .ok m') :
    Transforms g n (addRow (m.mat.column g n i j) i j) m m' := by
  simp only [eliminate, bind_ok_iff] at h
  obtain ⟨matK, hk, h⟩ := h
  rw [column, entry_of_read hk]
  split at h
  · next hz =>
    cases h
    have hid : ∀ u : ℕ → Gf g, addRow (⟨matK⟩ : Gf g) i j u = u := by
      intro u
      rw [addRow_apply, hz, show (⟨0#w.bits⟩ : Gf g) = 0 from rfl, zero_mul, add_zero,
        Function.update_eq_self]
    exact ⟨fun x _ => (hid _).symm, fun x _ => (hid _).symm, rfl⟩
  · split at h
    · next ho =>
      rw [ho]
      exact transforms_loop (fun u x v hx => addAt_spec hx) h
    · exact transforms_loop (fun u x v hx => addMultipleAt_spec hx) h

/-- Eliminating a column below a unit pivot makes it lower. -/
theorem eliminate_loop (hi : i < n) (hE : Eliminated g n i A m) (hp : m.mat.column g n i i = 1)
    (h : (List.range' (i + 1) (n - (i + 1))).foldlM (eliminate g n i) m = .ok m') :
    Eliminated g n (i + 1) A m' := by
  have hrun := foldlM_induction (f := eliminate g n i)
    (fun l u => (∀ j ∈ l, i < j ∧ j < n) ∧ Eliminated g n i A u ∧ u.mat.column g n i i = 1 ∧
      ∀ r < n, i < r → r ∉ l → u.mat.column g n i r = 0) ?_ ⟨?_, hE, hp, ?_⟩ h
  · obtain ⟨-, hE', hone, hz⟩ := hrun
    refine ⟨hE'.product, ?_, hE'.dimension⟩
    intro c hc
    rcases Nat.lt_succ_iff_lt_or_eq.mp hc with hc | rfl
    · exact hE'.lower c hc
    · exact ⟨hone, fun r hr hcr => hz r hr hcr List.not_mem_nil⟩
  · rintro j l u v ⟨hl, hu, hone, hz⟩ hv
    obtain ⟨hij, hjn⟩ := hl j List.mem_cons_self
    have ht := eliminate_spec hv
    refine ⟨fun a ha => hl a (List.mem_cons_of_mem j ha), hu.map _ hi.le ht
      (fun c hc a ha hza => addRow_below hij hjn hc _ ha hza), ?_, ?_⟩
    · rw [ht.mat i hi, addRow_apply, Function.update_of_ne (by omega), hone]
    · intro r hr hir hrl
      rw [ht.mat i hi, addRow_apply]
      by_cases hrj : r = j
      · rw [hrj, Function.update_self, hone, mul_one, Gf.add_self]
      · rw [Function.update_of_ne hrj]
        exact hz r hr hir (by simp [hrj, hrl])
  · intro j hj
    rw [List.mem_range'_1] at hj
    omega
  · intro r hr hir hrl
    exact absurd (List.mem_range'_1.mpr (by omega)) hrl

theorem findPivot_bounds {fuel j' : ℕ} (h : findPivot n i m fuel j = .ok j') :
    j ≤ j' ∧ j' ≤ j + fuel := by
  induction fuel generalizing j with
  | zero =>
    cases h
    omega
  | succ fuel ih =>
    simp only [findPivot, bind_ok_iff] at h
    obtain ⟨a, -, h⟩ := h
    split at h
    · have := ih h
      omega
    · cases h
      omega

theorem pivotRow_bounds (hi : i < n) (h : pivotRow n i m = .ok j) : i ≤ j ∧ j ≤ n := by
  simp only [pivotRow, bind_ok_iff] at h
  obtain ⟨d, -, h⟩ := h
  split at h
  · have := findPivot_bounds h
    omega
  · cases h
    omega

theorem swap_spec (hE : Eliminated g n i A m) (hi : i < n) (hij : i ≤ j) (hj : j < n)
    (h : swap n i j m = .ok m') : Eliminated g n i A m' := by
  rw [swap] at h
  split at h
  · cases h
    exact hE
  · exact hE.map (swapRows i j) hi.le (transforms_loop (fun u x v hx => swapAt_spec hx) h)
      (fun c hc u hu hz => swapRows_below hij hi hj hc hu hz)

theorem normalize_spec (hE : Eliminated g n i A m) (hi : i < n)
    (h : normalize b g n i m = .ok m') :
    Eliminated g n i A m' ∧ m'.mat.column g n i i = 1 := by
  simp only [normalize, bind_ok_iff] at h
  obtain ⟨tmp, ht, h⟩ := h
  have he : m.mat.column g n i i = ⟨tmp⟩ := entry_of_read ht
  split at h
  · next hone =>
    cases h
    exact ⟨hE, he.trans (hone ▸ rfl)⟩
  · simp only [bind_ok_iff, invertCoefficient] at h
    obtain ⟨inverse, ⟨-, -, hinv⟩, h⟩ := h
    split at hinv
    · cases hinv
    · next hz =>
      cases hinv
      have hs := transforms_loop (T := scaleRow i (⟨g.divide 1#w.bits tmp⟩ : Gf g))
        (fun u x v hx => scaleAt_spec hx) h
      refine ⟨hE.map _ hi.le hs (fun c hc u hu hzu => scaleRow_below hi hc _ hu hzu), ?_⟩
      rw [hs.mat i hi, scaleRow_apply, Function.update_self, he]
      apply Gf.ext
      rw [Gf.word_mul, g.multiply_comm, g.divide_multiply _ _ hz]
      rfl

/-- Column by column, the matrix is made lower. -/
theorem triangulate_spec (hi : i < n) (hE : Eliminated g n i A m)
    (h : triangulate b g n i m = .ok (true, m')) : Eliminated g n (i + 1) A m' := by
  simp only [triangulate, bind_ok_iff] at h
  obtain ⟨j, hj, h⟩ := h
  have hij := pivotRow_bounds hi hj
  split at h
  · cases h
  · simp only [bind_ok_iff] at h
    obtain ⟨m1, h1, m2, h2, m3, h3, h⟩ := h
    cases h
    obtain ⟨hE2, hone⟩ := normalize_spec (swap_spec hE hi hij.1 (by omega) h1) hi h2
    exact eliminate_loop hi hE2 hone h3

theorem triangular_spec (hE : Eliminated g n i A m) (hin : i + k = n)
    (h : triangular b g n (List.range' i k) m = .ok (true, m')) : Eliminated g n n A m' := by
  induction k generalizing i m with
  | zero =>
    cases h
    obtain rfl : i = n := by omega
    exact hE
  | succ k ih =>
    simp only [List.range'_succ, triangular, bind_ok_iff] at h
    obtain ⟨⟨found, m1⟩, h1, h⟩ := h
    split at h
    · next hf =>
      subst hf
      exact ih (triangulate_spec (by omega) hE h1) (by omega) h
    · cases h

/-- What the second pass has reached: the columns from `i` on are those of the identity. -/
structure Cleared (g : GfComplete w) (n i : ℕ) (A : ℕ → ℕ → Gf g) (m : Matrices w) : Prop
    extends Eliminated g n n A m where
  identity : Identity n i (m.mat.column g n)

/-- Clearing an element above the diagonal is one row operation, as its row is already that of the
identity. -/
theorem clearAbove_spec (hi : i < n) (hji : j < i) (hC : Cleared g n (i + 1) A m)
    (h : clearAbove g n i m j = .ok m') : Cleared g n (i + 1) A m' ∧
      m'.mat.column g n i = Function.update (m.mat.column g n i) j 0 := by
  simp only [clearAbove, bind_ok_iff] at h
  obtain ⟨tmp, ht, h⟩ := h
  have he : m.mat.column g n i j = ⟨tmp⟩ := entry_of_read ht
  split at h
  · next hz =>
    cases h
    have h0 : m.mat.column g n i j = 0 := he.trans (hz ▸ rfl)
    exact ⟨hC, by rw [← h0, Function.update_eq_self]⟩
  · simp only [bind_ok_iff] at h
    obtain ⟨mat, hw, h⟩ := h
    obtain ⟨hcol, hother⟩ := column_write (g := g) hi hw
    have hloop : m'.mat = mat ∧ m'.inv.dimension = m.inv.dimension := by
      refine foldlM_invariant (fun u : Matrices w => u.mat = mat ∧
        u.inv.dimension = m.inv.dimension) ?_ ?_ h
      · intro x hx u v hu hv
        obtain ⟨-, hm, hd⟩ := addToInverseAt_spec (List.mem_range.mp hx) hv
        exact ⟨hm.trans hu.1, hd.trans hu.2⟩
      · exact ⟨rfl, rfl⟩
    have hinv := foldlM_columns (fun u : Matrices w => u.inv.column g n)
      (addRow (⟨tmp⟩ : Gf g) i j) (fun u x v hx hv => (addToInverseAt_spec hx hv).1) h
    have hmat : ∀ x < n, m'.mat.column g n x = addRow (⟨tmp⟩ : Gf g) i j (m.mat.column g n x) := by
      intro x hx
      rw [hloop.1, addRow_apply]
      by_cases hxi : x = i
      · rw [hxi, hcol, he, (hC.lower i hi).1, mul_one, Gf.add_self]
        rfl
      · rw [hother x hx hxi]
        have hzero : m.mat.column g n x i = 0 := by
          rcases Nat.lt_or_gt_of_ne hxi with hlt | hgt
          · exact (hC.lower x hx).2 i hi hlt
          · rw [hC.identity x hx hgt i hi, if_neg hxi]
        rw [hzero, mul_zero, add_zero, Function.update_eq_self]
    have hupd : m'.mat.column g n i = Function.update (m.mat.column g n i) j 0 := by
      rw [hloop.1, hcol]
      rfl
    refine ⟨⟨⟨hC.product.map _ hmat hinv, ?_, hloop.2.trans hC.dimension⟩, ?_⟩, hupd⟩
    · intro c hc
      by_cases hci : c = i
      · subst hci
        rw [hupd, Function.update_of_ne (by omega)]
        refine ⟨(hC.lower c hc).1, fun r hr hcr => ?_⟩
        rw [Function.update_of_ne (by omega)]
        exact (hC.lower c hc).2 r hr hcr
      · rw [hloop.1, hother c hc hci]
        exact hC.lower c hc
    · intro c hc hic r hr
      rw [hloop.1, hother c hc (by omega)]
      exact hC.identity c hc hic r hr

theorem clearAbove_loop (hi : i < n) (hC : Cleared g n (i + 1) A m)
    (h : (List.range i).foldlM (clearAbove g n i) m = .ok m') : Cleared g n i A m' := by
  have hrun := foldlM_induction (f := clearAbove g n i)
    (fun l u => (∀ j ∈ l, j < i) ∧ Cleared g n (i + 1) A u ∧
      ∀ r < i, r ∉ l → u.mat.column g n i r = 0) ?_
    ⟨fun j hj => List.mem_range.mp hj, hC, fun r hr hrl => absurd (List.mem_range.mpr hr) hrl⟩ h
  · obtain ⟨-, hC', hz⟩ := hrun
    refine ⟨hC'.toEliminated, ?_⟩
    intro c hc hic r hr
    rcases Nat.eq_or_lt_of_le hic with rfl | hlt
    · rcases lt_trichotomy r i with hri | rfl | hri
      · rw [hz r hri List.not_mem_nil, if_neg (by omega)]
      · rw [(hC'.lower r hr).1, if_pos rfl]
      · rw [(hC'.lower i hc).2 r hr hri, if_neg (by omega)]
    · exact hC'.identity c hc hlt r hr
  · rintro j l u v ⟨hl, hu, hz⟩ hv
    obtain ⟨hC', hupd⟩ := clearAbove_spec hi (hl j List.mem_cons_self) hu hv
    refine ⟨fun a ha => hl a (List.mem_cons_of_mem j ha), hC', ?_⟩
    intro r hr hrl
    rw [hupd, Function.update_apply]
    split
    · rfl
    · next hrj => exact hz r hr (by simp [hrj, hrl])

theorem clear_spec (hin : i ≤ n) (hC : Cleared g n i A m)
    (h : (List.range i).reverse.foldlM
      (fun m i => (List.range i).foldlM (clearAbove g n i) m) m = .ok m') :
    Cleared g n 0 A m' := by
  induction i generalizing m with
  | zero =>
    cases h
    exact hC
  | succ i ih =>
    simp only [List.range_succ, List.reverse_append, List.reverse_cons, List.reverse_nil,
      List.nil_append, List.singleton_append, List.foldlM_cons, bind_ok_iff] at h
    obtain ⟨m1, h1, h⟩ := h
    exact ih (by omega) (clearAbove_loop (by omega) hC h1) h

theorem setIdentity_spec (hdim : m.inv.dimension = n) (h : setIdentity n m = .ok m') :
    Identity n 0 (m'.inv.column g n) ∧ m'.mat = m.mat ∧ m'.inv.dimension = n ∧
      m'.inv.vec.length = m.inv.vec.length := by
  have hrun := foldlM_induction
    (fun l u => (∀ i ∈ l, i < n) ∧ (∀ i < n, i ∉ l → ∀ r < n,
      u.inv.column g n i r = if i = r then 1 else 0) ∧ u.mat = m.mat ∧ u.inv.dimension = n ∧
      u.inv.vec.length = m.inv.vec.length) ?_
    ⟨fun i hi => List.mem_range.mp hi, fun i hi hl => absurd (List.mem_range.mpr hi) hl, rfl, hdim,
      rfl⟩ h
  · exact ⟨fun c hc _ r hr => hrun.2.1 c hc List.not_mem_nil r hr, hrun.2.2⟩
  · rintro i l u v ⟨hl, hu, hm, hd, hlen⟩ hv
    have hi := hl i List.mem_cons_self
    have hcol := foldlM_induction
      (fun l' u' => (∀ y < n, y ≠ i → u'.inv.column g n y = u.inv.column g n y) ∧
        (∀ r < n, r ∉ l' → u'.inv.column g n i r = if i = r then 1 else 0) ∧ u'.mat = m.mat ∧
        u'.inv.dimension = n ∧ u'.inv.vec.length = m.inv.vec.length) ?_
      ⟨fun _ _ _ => rfl, fun r hr hl => absurd (List.mem_range.mpr hr) hl, hm, hd, hlen⟩ hv
    · refine ⟨fun a ha => hl a (List.mem_cons_of_mem i ha), ?_, hcol.2.2⟩
      intro c hc hcl r hr
      by_cases hci : c = i
      · subst hci
        exact hcol.2.1 r hr List.not_mem_nil
      · rw [hcol.1 c hc hci]
        exact hu c hc (by simp [hci, hcl]) r hr
    · rintro j l' u' v' ⟨ho, hz, hm', hd', hlen'⟩ hv'
      simp only [bind_ok_iff, Except.ok.injEq, SquareMatrix.index, hd'] at hv'
      obtain ⟨inv, hw, rfl⟩ := hv'
      obtain ⟨hc, hoth⟩ := column_write (g := g) hi hw
      refine ⟨fun y hy hyi => (hoth y hy hyi).trans (ho y hy hyi), ?_, hm',
        (dimension_write hw).trans hd', (length_write hw).trans hlen'⟩
      intro r hr hrl
      rw [hc, Function.update_apply]
      split
      · next hrj =>
        subst hrj
        split <;> rfl
      · next hrj => exact hz r hr (by simp [hrj, hrl])

end Matrices

open Matrices

theorem column_eq_zero {m : SquareMatrix w} (hlen : m.vec.length = n * n) {r : ℕ} (hr : n ≤ r) :
    m.column g n x r = 0 := by
  have hle : m.vec.length ≤ r * n + x := by
    rw [hlen]
    exact (Nat.mul_le_mul_right n hr).trans (Nat.le_add_right _ _)
  rw [column, entry, List.getD_eq_getElem?_getD, List.getElem?_eq_none hle]
  rfl

/-- When no row is blamed, what is returned is an inverse of the matrix. -/
theorem invert_sound {mat inv : SquareMatrix w} {m : Matrices w}
    (hmat : mat.vec.length = mat.dimension * mat.dimension)
    (hdim : inv.dimension = mat.dimension) (hinv : inv.vec.length = mat.dimension * mat.dimension)
    (h : invert b g mat inv = .ok (none, m)) :
    m.inv.dimension = mat.dimension ∧ ∀ x < mat.dimension, ∀ r < mat.dimension,
      ∑ k ∈ Finset.range mat.dimension,
        mat.entry g (k * mat.dimension + x) * m.inv.entry g (r * mat.dimension + k) =
      if x = r then 1 else 0 := by
  simp only [invert, bind_ok_iff] at h
  obtain ⟨-, -, m1, h1, ⟨invertible, m2⟩, h2, h⟩ := h
  split at h
  · cases h
  · next hi =>
    split at h
    · cases h
    · simp only [bind_ok_iff, Except.ok.injEq, Prod.mk.injEq, true_and] at h
      obtain ⟨m3, h3, rfl⟩ := h
      simp only [Bool.not_eq_true, Bool.not_eq_false'] at hi
      subst hi
      obtain ⟨hid, hm1, hd1, hl1⟩ := setIdentity_spec (g := g) hdim h1
      have hE : Eliminated g mat.dimension 0
          (fun k x => mat.entry g (k * mat.dimension + x)) m1 := by
        refine ⟨IsProduct.of_identity hid (fun x _ r hr => column_eq_zero (hl1.trans hinv) hr)
          (fun x _ r _ => ?_) (fun x _ r hr => ?_), fun c hc => absurd hc (by omega), hd1⟩
        · rw [hm1]
          rfl
        · rw [hm1]
          exact column_eq_zero hmat hr
      rw [List.range_eq_range'] at h2
      have hE2 := triangular_spec hE (by omega) h2
      have hC := clear_spec le_rfl ⟨hE2, fun c hc hnc => absurd hc (by omega)⟩ h3
      refine ⟨hC.dimension, ?_⟩
      intro x hx r hr
      have hp := congrFun (hC.product x hx) r
      rw [hC.identity x hx (Nat.zero_le x) r hr] at hp
      rw [hp]
      simp only [Finset.sum_apply, Pi.smul_apply, smul_eq_mul]
      rfl

end Netcode
