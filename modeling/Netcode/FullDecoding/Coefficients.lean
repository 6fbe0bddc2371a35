import Netcode.FullDecoding.Solving
import Netcode.LinkInvariant
import Netcode.InvertComplete

/-! The matrix of coefficients a full decoding fills, and what the rows of its inverse recover. -/
namespace Netcode.Detail.Decoder

open Containers Runs SquareMatrix

variable {w : FieldSize} {b : Build} {g : GfComplete w} {d : Decoder w} {n : ℕ}
  {inv : SquareMatrix w} {rows : List (BitVec w.bits × DecoderRepair)}

/-- The coefficient of the `col`-th repair for the `row`-th missing source. -/
def coefficientAt (d : Decoder w) (row col : ℕ) : BitVec w.bits :=
  match d.missingSources.keys[row]?, d.repairs.entries[col]? with
  | some missing, some r => if missing ∈ r.2.sourceIds then coefficient w r.1 missing else 0#w.bits
  | _, _ => 0#w.bits

/-- The matrix of coefficients of the stored repairs for the missing sources. -/
def coefficientMatrix (g : GfComplete w) (d : Decoder w) :
    Matrix (Fin d.repairs.size) (Fin d.repairs.size) (Gf g) :=
  Matrix.of fun row col => ⟨d.coefficientAt row col⟩

/-- The positions of the storage that hold a coefficient. -/
def Holds (d : Decoder w) (m : SquareMatrix w) (row col : ℕ) : Prop :=
  m.vec[col * d.repairs.size + row]? = some (some (d.coefficientAt row col))

theorem length_resize (m : SquareMatrix w) (n : ℕ) : (m.resize n).vec.length = n * n := by
  simp only [SquareMatrix.resize, List.length_append, List.length_take, List.length_replicate]
  omega

/-- Writing a coefficient keeps those that were written. -/
theorem holds_write {m m' : SquareMatrix w} {row col : ℕ} (hrow : row < d.repairs.size)
    (h : m.write (col * d.repairs.size + row) (d.coefficientAt row col) = .ok m') :
    d.Holds m' row col ∧ ∀ row' col', row' < d.repairs.size → d.Holds m row' col' →
      d.Holds m' row' col' := by
  obtain ⟨hlt, rfl⟩ := write_ok_iff.mp h
  refine ⟨by simp [Holds, hlt], fun row' col' hrow' hm => ?_⟩
  rw [Holds, List.getElem?_set]
  split
  · next heq =>
    obtain ⟨rfl, rfl⟩ := (position_inj hrow hrow').mp heq
    rfl
  · exact hm

theorem getElem?_of_mem_missing {e : ℕ × ℕ} (he : e ∈ d.missingSources.keys.zipIdx) :
    e.2 < d.missingSources.size ∧ d.missingSources.keys[e.2]? = some e.1 := by
  have h := List.mem_zipIdx_iff_getElem?.mp he
  have hkeys : d.missingSources.keys.length = d.missingSources.size := List.length_map _
  exact ⟨hkeys ▸ (List.getElem?_eq_some_iff.mp h).1, h⟩

/-- Filling the column of a repair returns; the other columns are kept. -/
theorem fillColumn_ok (hle : d.missingSources.size ≤ d.repairs.size) {m : SquareMatrix w}
    {r : ℕ × DecoderRepair} {col : ℕ} (hdim : m.dimension = d.repairs.size)
    (hlen : m.vec.length = d.repairs.size * d.repairs.size)
    (hr : d.repairs.entries[col]? = some r) :
    ∃ m', d.missingSources.keys.zipIdx.foldlM (fun m (mr : ℕ × ℕ) => m.write (m.index mr.2 col)
        (if mr.1 ∈ r.2.sourceIds then coefficient w r.1 mr.1 else 0#w.bits)) m = .ok m' ∧
      m'.dimension = d.repairs.size ∧ m'.vec.length = d.repairs.size * d.repairs.size ∧
      (∀ row col', row < d.repairs.size → d.Holds m row col' → d.Holds m' row col') ∧
      ∀ row < d.missingSources.size, d.Holds m' row col := by
  have hcol : col < d.repairs.size := (List.getElem?_eq_some_iff.mp hr).1
  have hrun := foldlM_ok_induction (l := d.missingSources.keys.zipIdx) (s := m)
    (f := fun m (mr : ℕ × ℕ) => m.write (m.index mr.2 col)
      (if mr.1 ∈ r.2.sourceIds then coefficient w r.1 mr.1 else 0#w.bits))
    (fun l u => (∀ e ∈ l, e ∈ d.missingSources.keys.zipIdx) ∧
      u.dimension = d.repairs.size ∧ u.vec.length = d.repairs.size * d.repairs.size ∧
      (∀ row col', row < d.repairs.size → d.Holds m row col' → d.Holds u row col') ∧
      ∀ e ∈ d.missingSources.keys.zipIdx, e ∉ l → d.Holds u e.2 col) ?_
    ⟨fun e he => he, hdim, hlen, fun _ _ _ hm => hm, fun e he hne => absurd he hne⟩
  · obtain ⟨m', hm', -, hdim', hlen', hkeep, hnew⟩ := hrun
    have hkeys : d.missingSources.keys.length = d.missingSources.size := List.length_map _
    refine ⟨m', hm', hdim', hlen', hkeep, fun row hrow => ?_⟩
    exact hnew (d.missingSources.keys.get ⟨row, hkeys.symm ▸ hrow⟩, row)
      (List.mem_zipIdx_iff_getElem?.mpr (List.getElem?_eq_getElem _)) List.not_mem_nil
  · rintro ⟨i, row⟩ l u ⟨hl, hdim, hlen, hkeep, hnew⟩
    obtain ⟨hrow, hi⟩ := getElem?_of_mem_missing (hl _ List.mem_cons_self)
    have hat : (if i ∈ r.2.sourceIds then coefficient w r.1 i else 0#w.bits) =
        d.coefficientAt row col := by
      simp only [coefficientAt, hi, hr]
    have hindex : u.index row col = col * d.repairs.size + row := by
      rw [SquareMatrix.index, hdim]
    have hrow' := hrow.trans_le hle
    obtain ⟨v, hwrite⟩ := exists_write (m := u) (v := d.coefficientAt row col)
      (hlen.symm ▸ position_lt hcol hrow')
    obtain ⟨hself, hother⟩ := holds_write hrow' hwrite
    refine ⟨v, by rw [hat, hindex, hwrite], fun e he => hl e (List.mem_cons_of_mem _ he),
      (dimension_write hwrite).trans hdim, (length_write hwrite).trans hlen,
      fun row' col' hr' hm => hother row' col' hr' (hkeep row' col' hr' hm), fun e he hne => ?_⟩
    by_cases heq : e = (i, row)
    · rw [heq]
      exact hself
    · have hlt := (getElem?_of_mem_missing he).1.trans_le hle
      exact hother e.2 col hlt (hnew e he (by simp [heq, hne]))

/-- Filling the matrix returns; its entries for a repair and a missing source are coefficients. -/
theorem fillCoefficients_ok (hle : d.missingSources.size ≤ d.repairs.size) :
    ∃ m, d.fillCoefficients = .ok m ∧ m.dimension = d.repairs.size ∧
      m.vec.length = d.repairs.size * d.repairs.size ∧
      ∀ row col, row < d.missingSources.size → col < d.repairs.size → d.Holds m row col := by
  have hrun := foldlM_ok_induction (l := d.repairs.entries.zipIdx)
    (s := d.coefficients.resize d.repairs.size)
    (f := fun m (rc : (ℕ × DecoderRepair) × ℕ) =>
      d.missingSources.keys.zipIdx.foldlM (fun m (mr : ℕ × ℕ) => m.write (m.index mr.2 rc.2)
        (if mr.1 ∈ rc.1.2.sourceIds then coefficient w rc.1.1 mr.1 else 0#w.bits)) m)
    (fun l m => (∀ e ∈ l, e ∈ d.repairs.entries.zipIdx) ∧ m.dimension = d.repairs.size ∧
      m.vec.length = d.repairs.size * d.repairs.size ∧ ∀ row e, row < d.missingSources.size →
        e ∈ d.repairs.entries.zipIdx → e ∉ l → d.Holds m row e.2) ?_
    ⟨fun e he => he, rfl, length_resize _ _, fun row e _ he hne => absurd he hne⟩
  · obtain ⟨m, hm, -, hdim, hlen, hholds⟩ := hrun
    refine ⟨m, hm, hdim, hlen, fun row col hrow hcol => ?_⟩
    exact hholds row (d.repairs.entries[col], col) hrow
      (List.mem_zipIdx_iff_getElem?.mpr (List.getElem?_eq_getElem hcol)) List.not_mem_nil
  · rintro ⟨r, col⟩ l m ⟨hl, hdim, hlen, hholds⟩
    obtain ⟨m', hm', hdim', hlen', hkeep, hnew⟩ := fillColumn_ok hle hdim hlen
      (List.mem_zipIdx_iff_getElem?.mp (hl _ List.mem_cons_self))
    refine ⟨m', hm', fun e he => hl e (List.mem_cons_of_mem _ he), hdim', hlen', ?_⟩
    intro row e hrow he hne
    by_cases heq : e = (r, col)
    · rw [heq]
      exact hnew row hrow
    · exact hkeep row e.2 (hrow.trans_le hle) (hholds row e hrow he (by simp [heq, hne]))

theorem holds_entry {m : SquareMatrix w} {row col : ℕ} (h : d.Holds m row col) :
    m.entry g (col * d.repairs.size + row) = ⟨d.coefficientAt row col⟩ := by
  rw [Holds] at h
  simp [entry, List.getD_eq_getElem?_getD, h]

theorem coefficientAt_eq {row col ρ : ℕ} {i : ℕ} {r : DecoderRepair}
    (hi : d.missingSources.keys[row]? = some i) (hr : d.repairs.entries[col]? = some (ρ, r))
    (hid : r.id = ρ) : (⟨d.coefficientAt row col⟩ : Gf g) = coefficientOf g r i := by
  rw [coefficientAt, hi, hr, coefficientOf, hid]
  dsimp only
  split <;> rfl

/-- With as many repairs as missing sources, the matrix filled is that of the coefficients. -/
theorem fillCoefficients_filled (hsize : d.repairs.size = d.missingSources.size) :
    ∃ m, d.fillCoefficients = .ok m ∧ m.Filled d.repairs.size ∧
      m.toMatrix g d.repairs.size = coefficientMatrix g d := by
  obtain ⟨m, hm, hdim, hlen, hholds⟩ := fillCoefficients_ok hsize.ge
  rw [← hsize] at hholds
  refine ⟨m, hm, ⟨hdim, hlen, fun k hk => ?_⟩, Matrix.ext fun row col => ?_⟩
  · have hpos : 0 < d.repairs.size := Nat.pos_of_ne_zero fun h0 => by simp [h0] at hk
    have hholds' := hholds (k % d.repairs.size) (k / d.repairs.size) (Nat.mod_lt k hpos)
      (Nat.div_lt_of_lt_mul hk)
    rw [Holds, Nat.div_add_mod'] at hholds'
    exact ⟨_, hholds'⟩
  · exact holds_entry (hholds row col row.isLt col.isLt)

theorem mapM_of_ok {α β ε : Type} {f : α → Except ε β} {c : α → β} {l : List α} {ys : List β}
    (hf : ∀ a ∈ l, ∀ y, f a = .ok y → y = c a) (h : l.mapM f = .ok ys) : ys = l.map c := by
  induction l generalizing ys with
  | nil =>
    cases h
    rfl
  | cons a l ih =>
    simp only [List.mapM_cons, bind_ok_iff] at h
    obtain ⟨y, hy, zs, hzs, h⟩ := h
    cases h
    rw [List.map_cons, hf a List.mem_cons_self y hy,
      ih (fun x hx => hf x (List.mem_cons_of_mem a hx)) hzs]

theorem mapM_ok {α β ε : Type} {f : α → Except ε β} {c : α → β} {l : List α}
    (hf : ∀ a ∈ l, f a = .ok (c a)) : l.mapM f = .ok (l.map c) := by
  induction l with
  | nil => rfl
  | cons a l ih =>
    rw [List.mapM_cons, hf a List.mem_cons_self, ok_bind,
      ih fun x hx => hf x (List.mem_cons_of_mem a hx), ok_bind]
    rfl

/-- The repairs with their coefficients in the inverse. -/
def inverseRows (g : GfComplete w) (d : Decoder w) (inv : SquareMatrix w) (srcCol : ℕ) :
    List (BitVec w.bits × DecoderRepair) :=
  ((List.range inv.dimension).map fun k => (inv.entry g (srcCol * inv.dimension + k)).word).zip
    (d.repairs.entries.map Prod.snd)

/-- The repairs of these rows are stored. -/
theorem inverseRows_stored {srcCol : ℕ} {row : BitVec w.bits × DecoderRepair}
    (h : row ∈ d.inverseRows g inv srcCol) : ∃ ρ, d.repairs.find? ρ = some row.2 := by
  obtain ⟨e, he, heq⟩ := List.mem_map.mp (List.of_mem_zip (a := row.1) (b := row.2) h).2
  exact ⟨e.1, heq ▸ OrdMap.mem_entries_iff.mp he⟩

theorem decodingRows_eq {srcCol : ℕ} {u : Decoder w} (hinv : u.inv = inv)
    (h : u.decodingRows (d.repairs.entries.map Prod.snd) srcCol = .ok rows) :
    rows = d.inverseRows g inv srcCol := by
  subst hinv
  simp only [decodingRows, bind_ok_iff, Except.ok.injEq] at h
  obtain ⟨coeffs, hcoeffs, rfl⟩ := h
  rw [inverseRows, ← mapM_of_ok (fun k _ v hv => ?_) hcoeffs]
  have hentry := entry_of_read (g := g) hv
  rw [SquareMatrix.index] at hentry
  rw [hentry]

theorem decodingRows_ok {srcCol : ℕ} {u : Decoder w} (hinv : u.inv = inv) (hm : inv.Filled n)
    (hcol : srcCol < n) : u.decodingRows (d.repairs.entries.map Prod.snd) srcCol =
      .ok (d.inverseRows g inv srcCol) := by
  subst hinv
  rw [decodingRows, mapM_ok (c := fun k => (u.inv.entry g (srcCol * u.inv.dimension + k)).word)]
  · rfl
  · intro k hk
    rw [List.mem_range, hm.dimension] at hk
    obtain ⟨v, hv⟩ := hm.read hcol hk
    rw [SquareMatrix.index, hm.dimension, hv, entry_of_read hv]

/-- The rows of an inverse of the matrix recover the missing sources. -/
theorem recovers_of_inverse {m inv : SquareMatrix w} {x i : ℕ}
    (hle : d.missingSources.size ≤ d.repairs.size)
    (hids : ∀ ρ r, d.repairs.find? ρ = some r → r.id = ρ)
    (hholds : ∀ row col, row < d.missingSources.size → col < d.repairs.size → d.Holds m row col)
    (hdim : inv.dimension = d.repairs.size)
    (hinv : ∀ y < d.repairs.size, ∀ r < d.repairs.size, ∑ k ∈ Finset.range d.repairs.size,
      m.entry g (k * d.repairs.size + y) * inv.entry g (r * d.repairs.size + k) =
        if y = r then 1 else 0)
    (hx : d.missingSources.keys[x]? = some i) :
    Recovers g d.missingSources.keys i (d.inverseRows g inv x) := by
  have hkeys : d.missingSources.keys.length = d.missingSources.size := List.length_map _
  have hlen : (d.inverseRows g inv x).length = d.repairs.size := by
    rw [inverseRows, List.length_zip, List.length_map, List.length_map, List.length_range, hdim]
    exact min_self _
  obtain ⟨hxlt, hxi⟩ := List.getElem?_eq_some_iff.mp hx
  intro y hy
  obtain ⟨yrow, hyrow, hykey⟩ := List.mem_iff_getElem.mp hy
  rw [hkeys] at hxlt hyrow
  have hsolve := hinv yrow (hyrow.trans_le hle) x (hxlt.trans_le hle)
  have hiff : yrow = x ↔ y = i := by
    rw [← hykey, ← hxi]
    exact (d.missingSources.keys_nodup.getElem_inj_iff).symm
  simp only [hiff] at hsolve
  rw [← hsolve, Finset.sum_range, ← Fin.sum_univ_fun_getElem]
  refine Fintype.sum_equiv (finCongr hlen) _ _ fun k => ?_
  have hk : k.val < d.repairs.size := hlen ▸ k.isLt
  have hfind : d.repairs.find? d.repairs.entries[k.val].1 = some d.repairs.entries[k.val].2 :=
    OrdMap.mem_entries_iff.mp (List.getElem_mem hk)
  have hcoef : m.entry g (k.val * d.repairs.size + yrow) =
      coefficientOf g d.repairs.entries[k.val].2 y := by
    rw [holds_entry (hholds yrow k.val hyrow hk)]
    exact coefficientAt_eq (List.getElem?_eq_some_iff.mpr ⟨_, hykey⟩)
      (List.getElem?_eq_getElem hk) (hids _ _ hfind)
  have hrow : (d.inverseRows g inv x)[k.val] =
      ((inv.entry g (x * d.repairs.size + k.val)).word, d.repairs.entries[k.val].2) := by
    simp only [inverseRows, List.getElem_zip, List.getElem_map, List.getElem_range, hdim]
    rfl
  rw [hrow]
  exact congrArg (· * inv.entry g (x * d.repairs.size + k.val)) hcoef.symm

/-- What an inversion that blames no row returns recovers the missing sources. -/
theorem recovers_of_invert {coefficients : SquareMatrix w} {m : Matrices w} {x i : ℕ}
    (hle : d.missingSources.size ≤ d.repairs.size)
    (hids : ∀ ρ r, d.repairs.find? ρ = some r → r.id = ρ)
    (hfill : d.fillCoefficients = .ok coefficients)
    (hinv : invert b g coefficients (d.inv.resize coefficients.dimension) = .ok (none, m))
    (hx : d.missingSources.keys[x]? = some i) :
    Recovers g d.missingSources.keys i (d.inverseRows g m.inv x) := by
  obtain ⟨mat, hmat, hdim, hlen, hholds⟩ := fillCoefficients_ok hle
  rw [hfill] at hmat
  cases hmat
  have hsquare : coefficients.vec.length = coefficients.dimension * coefficients.dimension := by
    rw [hlen, hdim]
  have hresized : (d.inv.resize coefficients.dimension).dimension = coefficients.dimension := rfl
  obtain ⟨hidim, hsum⟩ := invert_sound hsquare hresized (length_resize _ _) hinv
  rw [hdim] at hidim hsum
  exact recovers_of_inverse hle hids hholds hidim hsum hx

/-- When the links are complete, coefficients that recover a missing source solve the repairs. -/
theorem Recovers.solves {x i : ℕ}
    (h : Recovers g d.missingSources.keys i (d.inverseRows g inv x)) (hlinked : d.Linked)
    (hx : d.missingSources.keys[x]? = some i) :
    Solves g d.missingSources.keys i (d.inverseRows g inv x) := by
  obtain ⟨hxlt, hxi⟩ := List.getElem?_eq_some_iff.mp hx
  refine ⟨hxi ▸ List.getElem_mem hxlt, fun row hrow j hj => ?_, h⟩
  obtain ⟨ρ, hρ⟩ := inverseRows_stored hrow
  exact OrdMap.contains_iff_mem_keys.mp
    (references_contains (hlinked.stored j ρ ⟨row.2, hρ, hj⟩))

end Netcode.Detail.Decoder
