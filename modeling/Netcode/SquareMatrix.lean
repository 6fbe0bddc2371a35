import Netcode.GaloisField
import Netcode.Library.Runs

/-! square_matrix.hh and invert_matrix.cc. An entry that was never written is indeterminate. -/
namespace Netcode

variable {w : FieldSize}

/-- A resizable square matrix, stored in contiguous memory. -/
structure SquareMatrix (w : FieldSize) where
  dimension : ℕ
  vec : List (Option (BitVec w.bits))
deriving DecidableEq

namespace SquareMatrix

/-- The matrix is not initialized, even when constructed or resized. -/
def create (n : ℕ) : SquareMatrix w := ⟨n, List.replicate (n * n) none⟩

def resize (m : SquareMatrix w) (n : ℕ) : SquareMatrix w :=
  ⟨n, m.vec.take (n * n) ++ List.replicate (n * n - m.vec.length) none⟩

/-- The value at a position of the internal storage. -/
def read (m : SquareMatrix w) (index : ℕ) : Except Fault (BitVec w.bits) :=
  match m.vec[index]? with
  | none => .error (.undefined .outOfIndex)
  | some none => .error (.undefined .uninitialized)
  | some (some v) => .ok v

/-- Write at a position of the internal storage. -/
def write (m : SquareMatrix w) (index : ℕ) (v : BitVec w.bits) : Except Fault (SquareMatrix w) :=
  if index < m.vec.length then .ok ⟨m.dimension, m.vec.set index (some v)⟩
  else .error (.undefined .outOfIndex)

/-- The position of the value located at (`row`, `col`). -/
def index (m : SquareMatrix w) (row col : ℕ) : ℕ := col * m.dimension + row

end SquareMatrix

/-- The matrix being inverted and its inverse. -/
structure Matrices (w : FieldSize) where
  mat : SquareMatrix w
  inv : SquareMatrix w

namespace Matrices

/-- `inv(i,j) = (i == j) ? 1 : 0` for every row and column. -/
def setIdentity (n : ℕ) (m : Matrices w) : Except Fault (Matrices w) :=
  (List.range n).foldlM (fun m i => (List.range n).foldlM (fun m j => do
    let inv ← m.inv.write (m.inv.index i j) (if i = j then 1#w.bits else 0#w.bits)
    .ok { m with inv := inv }) m) m

/-- Swap the `k`-th elements of two rows in both matrices. -/
def swapAt (rowStart rowStart2 : ℕ) (m : Matrices w) (k : ℕ) : Except Fault (Matrices w) := do
  let tmp ← m.mat.read (rowStart + k)
  let mat ← m.mat.write (rowStart + k) (← m.mat.read (rowStart2 + k))
  let mat ← mat.write (rowStart2 + k) tmp
  let tmp ← m.inv.read (rowStart + k)
  let inv ← m.inv.write (rowStart + k) (← m.inv.read (rowStart2 + k))
  let inv ← inv.write (rowStart2 + k) tmp
  .ok ⟨mat, inv⟩

/-- Multiply the `j`-th element of a row in both matrices. -/
def scaleAt (g : GfComplete w) (rowStart : ℕ) (inverse : BitVec w.bits) (m : Matrices w) (j : ℕ) :
    Except Fault (Matrices w) := do
  let mat ← m.mat.write (rowStart + j) (multiplyCoefficients g (← m.mat.read (rowStart + j)) inverse)
  let inv ← m.inv.write (rowStart + j) (multiplyCoefficients g (← m.inv.read (rowStart + j)) inverse)
  .ok ⟨mat, inv⟩

/-- Add the `x`-th element of a row to that of another in both matrices. -/
def addAt (rowStart rowStart2 : ℕ) (m : Matrices w) (x : ℕ) : Except Fault (Matrices w) := do
  let mat ← m.mat.write (rowStart2 + x)
    ((← m.mat.read (rowStart2 + x)) ^^^ (← m.mat.read (rowStart + x)))
  let inv ← m.inv.write (rowStart2 + x)
    ((← m.inv.read (rowStart2 + x)) ^^^ (← m.inv.read (rowStart + x)))
  .ok ⟨mat, inv⟩

/-- Add a multiple of the `x`-th element of a row to that of another in both matrices. -/
def addMultipleAt (g : GfComplete w) (matK : BitVec w.bits) (rowStart rs2 : ℕ) (m : Matrices w)
    (x : ℕ) : Except Fault (Matrices w) := do
  let mat ← m.mat.write (rs2 + x) ((← m.mat.read (rs2 + x)) ^^^
    multiplyCoefficients g matK (← m.mat.read (rowStart + x)))
  let inv ← m.inv.write (rs2 + x) ((← m.inv.read (rs2 + x)) ^^^
    multiplyCoefficients g matK (← m.inv.read (rowStart + x)))
  .ok ⟨mat, inv⟩

/-- Add a multiple of the `k`-th element of a row to that of another in the inverse only. -/
def addToInverseAt (g : GfComplete w) (tmp : BitVec w.bits) (rowStart rs2 : ℕ) (m : Matrices w)
    (k : ℕ) : Except Fault (Matrices w) := do
  let inv ← m.inv.write (rs2 + k) ((← m.inv.read (rs2 + k)) ^^^
    multiplyCoefficients g tmp (← m.inv.read (rowStart + k)))
  .ok { m with inv := inv }

/-- The first row from `j` on whose element in column `i` is not zero, or the number of rows. -/
def findPivot (n i : ℕ) (m : Matrices w) : ℕ → ℕ → Except Fault ℕ
  | 0, j => .ok j
  | fuel + 1, j => do
    if (← m.mat.read (n * j + i)) = 0#w.bits then findPivot n i m fuel (j + 1) else .ok j

/-- Eliminate column `i` of row `j` with row `i`. -/
def eliminate (g : GfComplete w) (n i : ℕ) (m : Matrices w) (j : ℕ) :
    Except Fault (Matrices w) := do
  let matK ← m.mat.read (j * n + i)
  if matK = 0#w.bits then .ok m
  else if matK = 1#w.bits then (List.range n).foldlM (addAt (i * n) (n * j)) m
  else (List.range n).foldlM (addMultipleAt g matK (i * n) (n * j)) m

/-- The row to swap row `i` with, or the number of rows when there is none. -/
def pivotRow (n i : ℕ) (m : Matrices w) : Except Fault ℕ := do
  if (← m.mat.read (i * n + i)) = 0#w.bits then findPivot n i m (n - (i + 1)) (i + 1) else .ok i

/-- Swap rows if we have a zero `i`,`i` element. -/
def swap (n i j : ℕ) (m : Matrices w) : Except Fault (Matrices w) :=
  if j = i then .ok m else (List.range n).foldlM (swapAt (i * n) (j * n)) m

/-- Multiply the row by 1/element `i`,`i`. -/
def normalize (b : Build) (g : GfComplete w) (n i : ℕ) (m : Matrices w) :
    Except Fault (Matrices w) := do
  let tmp ← m.mat.read (i * n + i)
  if tmp = 1#w.bits then .ok m
  else
    let inverse ← invertCoefficient b g tmp
    (List.range n).foldlM (scaleAt g (i * n) inverse) m

/-- What the conversion into an upper triangular matrix does for column `i`, and whether a pivot
was found. -/
def triangulate (b : Build) (g : GfComplete w) (n i : ℕ) (m : Matrices w) :
    Except Fault (Bool × Matrices w) := do
  let j ← pivotRow n i m
  if j = n then .ok (false, m)
  else
    let m ← swap n i j m
    let m ← normalize b g n i m
    let m ← (List.range' (i + 1) (n - (i + 1))).foldlM (eliminate g n i) m
    .ok (true, m)

/-- Convert into upper triangular, column by column. -/
def triangular (b : Build) (g : GfComplete w) (n : ℕ) : List ℕ → Matrices w →
    Except Fault (Bool × Matrices w)
  | [], m => .ok (true, m)
  | i :: is, m => do
    let (found, m) ← triangulate b g n i m
    if found then triangular b g n is m else .ok (false, m)

/-- Clear column `i` of row `j`. -/
def clearAbove (g : GfComplete w) (n i : ℕ) (m : Matrices w) (j : ℕ) :
    Except Fault (Matrices w) := do
  let tmp ← m.mat.read (j * n + i)
  if tmp = 0#w.bits then .ok m
  else
    let mat ← m.mat.write (j * n + i) 0#w.bits
    (List.range n).foldlM (addToInverseAt g tmp (i * n) (j * n)) { m with mat := mat }

end Matrices

/-- Invert a matrix; the value returned is the row which made the inversion fail. -/
def invert (b : Build) (g : GfComplete w) (mat inv : SquareMatrix w) :
    Except Fault (Option ℕ × Matrices w) := do
  b.assert .dimensions (mat.dimension = inv.dimension)
  let n := mat.dimension
  let m ← Matrices.setIdentity n ⟨mat, inv⟩
  let (invertible, m) ← Matrices.triangular b g n (List.range n) m
  if !invertible then .ok (some (n - 1), m)
  else if n = 0 then .error (.undefined .outOfIndex)
  else
    let m ← (List.range n).reverse.foldlM
      (fun m i => (List.range i).foldlM (Matrices.clearAbove g n i) m) m
    .ok (none, m)

end Netcode
