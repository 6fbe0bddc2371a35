import Netcode.Fault
import Netcode.Library.Encodings

/-! galois_field.hh over the operations of gf_complete, and the field these stand for. -/
namespace Netcode

open Encodings

/-- The supported field sizes. -/
inductive FieldSize
  | w4
  | w8
  | w16
  | w32
deriving DecidableEq, Repr

namespace FieldSize

def bits : FieldSize → ℕ
  | w4 => 4
  | w8 => 8
  | w16 => 16
  | w32 => 32

/-- The length of a region is a multiple of this number of bytes. -/
def wordBytes : FieldSize → ℕ
  | w4 => 1
  | w8 => 1
  | w16 => 2
  | w32 => 4

/-- How many words a region of `n` bytes holds. -/
def wordCount (w : FieldSize) (n : ℕ) : ℕ := 8 * n / w.bits

theorem bits_pos (w : FieldSize) : 0 < w.bits := by cases w <;> decide

theorem bits_dvd {w : FieldSize} {n : ℕ} (h : w.wordBytes ∣ n) : w.bits ∣ 8 * n := by
  cases w <;> simp only [wordBytes, bits] at * <;> omega

end FieldSize

/-- The operations of gf_complete for one field size. The laws are those of a field whose
addition is the exclusive or. -/
structure GfComplete (w : FieldSize) where
  multiply : BitVec w.bits → BitVec w.bits → BitVec w.bits
  divide : BitVec w.bits → BitVec w.bits → BitVec w.bits
  multiply_comm : ∀ a b, multiply a b = multiply b a
  multiply_assoc : ∀ a b c, multiply (multiply a b) c = multiply a (multiply b c)
  multiply_one : ∀ a, multiply a 1#w.bits = a
  multiply_xor : ∀ a b c, multiply a (b ^^^ c) = multiply a b ^^^ multiply a c
  divide_multiply : ∀ a b, b ≠ 0#w.bits → multiply (divide a b) b = a

variable {w : FieldSize}

/-- An element of the field gf_complete implements. -/
@[ext]
structure Gf (g : GfComplete w) where
  word : BitVec w.bits

namespace Gf

variable {g : GfComplete w}

instance : Zero (Gf g) := ⟨⟨0#w.bits⟩⟩
instance : One (Gf g) := ⟨⟨1#w.bits⟩⟩
instance : Add (Gf g) := ⟨fun a b => ⟨a.word ^^^ b.word⟩⟩
instance : Neg (Gf g) := ⟨fun a => a⟩
instance : Mul (Gf g) := ⟨fun a b => ⟨g.multiply a.word b.word⟩⟩
instance : Inv (Gf g) := ⟨fun a => if a.word = 0#w.bits then 0 else ⟨g.divide 1#w.bits a.word⟩⟩

@[simp] theorem word_zero : (0 : Gf g).word = 0#w.bits := rfl
@[simp] theorem word_one : (1 : Gf g).word = 1#w.bits := rfl
@[simp] theorem word_add (a b : Gf g) : (a + b).word = a.word ^^^ b.word := rfl
@[simp] theorem word_neg (a : Gf g) : (-a).word = a.word := rfl
@[simp] theorem word_mul (a b : Gf g) : (a * b).word = g.multiply a.word b.word := rfl

theorem multiply_zero (a : BitVec w.bits) : g.multiply a 0#w.bits = 0#w.bits := by
  have h := g.multiply_xor a 0#w.bits 0#w.bits
  simpa using h

theorem xor_multiply (a b c : BitVec w.bits) :
    g.multiply (a ^^^ b) c = g.multiply a c ^^^ g.multiply b c := by
  rw [g.multiply_comm _ c, g.multiply_comm a c, g.multiply_comm b c, g.multiply_xor]

noncomputable instance : CommRing (Gf g) where
  add_assoc a b c := Gf.ext (BitVec.xor_assoc _ _ _)
  zero_add a := Gf.ext BitVec.zero_xor
  add_zero a := Gf.ext BitVec.xor_zero
  add_comm a b := Gf.ext (BitVec.xor_comm _ _)
  neg_add_cancel a := Gf.ext BitVec.xor_self
  mul_assoc a b c := Gf.ext (g.multiply_assoc _ _ _)
  mul_comm a b := Gf.ext (g.multiply_comm _ _)
  mul_one a := Gf.ext (g.multiply_one _)
  one_mul a := Gf.ext ((g.multiply_comm _ _).trans (g.multiply_one _))
  left_distrib a b c := Gf.ext (g.multiply_xor _ _ _)
  right_distrib a b c := Gf.ext (xor_multiply _ _ _)
  zero_mul a := Gf.ext ((g.multiply_comm _ _).trans (multiply_zero _))
  mul_zero a := Gf.ext (multiply_zero _)
  nsmul := nsmulRec
  zsmul := zsmulRec

theorem one_ne_zero' : (1#w.bits) ≠ 0#w.bits := by cases w <;> decide

theorem word_inv {a : Gf g} (ha : a.word ≠ 0#w.bits) : a⁻¹.word = g.divide 1#w.bits a.word := by
  show (if a.word = 0#w.bits then 0 else ⟨g.divide 1#w.bits a.word⟩ : Gf g).word = _
  rw [if_neg ha]

noncomputable instance : Field (Gf g) where
  exists_pair_ne := ⟨0, 1, fun h => one_ne_zero' (congrArg Gf.word h).symm⟩
  mul_inv_cancel a ha := by
    have hw : a.word ≠ 0#w.bits := fun h => ha (Gf.ext h)
    apply Gf.ext
    rw [word_mul, word_inv hw, g.multiply_comm]
    exact g.divide_multiply _ _ hw
  inv_zero := if_pos rfl
  nnqsmul := _
  nnqsmul_def := fun _ _ => rfl
  qsmul := _
  qsmul_def := fun _ _ => rfl

/-- Exclusive or is its own inverse. -/
theorem add_self (a : Gf g) : a + a = 0 := Gf.ext BitVec.xor_self

end Gf

/-- Bit `p` of a region, the least significant bit of its first byte first. -/
def bitAt (bs : List Byte) (p : ℕ) : Bool := (bs.getD (p / 8) 0#8).getLsbD (p % 8)

/-- The `i`-th word of a region, in the byte order of the region; zero past its end. -/
def wordAt (w : FieldSize) (bs : List Byte) (i : ℕ) : BitVec w.bits :=
  BitVec.ofFnLE fun t : Fin w.bits => bitAt bs (w.bits * i + t.val)

/-- The `j`-th byte of a sequence of words. -/
def byteAt (f : ℕ → BitVec w.bits) (j : ℕ) : Byte :=
  BitVec.ofFnLE fun t : Fin 8 =>
    (f ((8 * j + t.val) / w.bits)).getLsbD ((8 * j + t.val) % w.bits)

/-- Exclusive or of two regions of the same length. -/
def xorBytes (u v : List Byte) : List Byte := List.zipWith (· ^^^ ·) u v

/-- The region obtained by multiplying every word by a constant. -/
def region (g : GfComplete w) (coeff : BitVec w.bits) (src : List Byte) : List Byte :=
  (List.range src.length).map (byteAt fun i => g.multiply coeff (wordAt w src i))

@[simp] theorem length_region (g : GfComplete w) (c : BitVec w.bits) (src : List Byte) :
    (region g c src).length = src.length := by simp [region]

theorem length_xorBytes {u v : List Byte} (h : u.length = v.length) :
    (xorBytes u v).length = u.length := by simp [xorBytes, h]

theorem getLsbD_wordAt (bs : List Byte) (i t : ℕ) :
    (wordAt w bs i).getLsbD t = (decide (t < w.bits) && bitAt bs (w.bits * i + t)) := by
  rw [wordAt, BitVec.getLsbD_ofFnLE]
  split <;> simp_all

theorem getLsbD_byteAt (f : ℕ → BitVec w.bits) {j t : ℕ} (ht : t < 8) :
    (byteAt f j).getLsbD t = (f ((8 * j + t) / w.bits)).getLsbD ((8 * j + t) % w.bits) := by
  rw [byteAt, BitVec.getLsbD_ofFnLE, dif_pos ht]

theorem bitAt_eq_false {bs : List Byte} {p : ℕ} (h : bs.length ≤ p / 8) : bitAt bs p = false := by
  simp [bitAt, List.getD_eq_getElem?_getD, List.getElem?_eq_none h]

theorem bitAt_take (bs : List Byte) (n p : ℕ) :
    bitAt (bs.take n) p = (decide (p / 8 < n) && bitAt bs p) := by
  by_cases h : p / 8 < n
  · simp [bitAt, List.getD_eq_getElem?_getD, List.getElem?_take_of_lt h, h]
  · rw [bitAt_eq_false (by rw [List.length_take]; omega)]
    simp [h]

theorem bitAt_xorBytes {u v : List Byte} (h : u.length = v.length) (p : ℕ) :
    bitAt (xorBytes u v) p = (bitAt u p ^^ bitAt v p) := by
  by_cases hp : p / 8 < u.length
  · have hv : p / 8 < v.length := h ▸ hp
    simp [bitAt, xorBytes, List.getD_eq_getElem?_getD, List.getElem?_zipWith,
      List.getElem?_eq_getElem hp, List.getElem?_eq_getElem hv]
  · have hx := length_xorBytes h
    have hu : bitAt u p = false := bitAt_eq_false (by omega)
    have hv : bitAt v p = false := bitAt_eq_false (by omega)
    rw [bitAt_eq_false (by omega), hu, hv]
    rfl

/-- The bytes of a region are those of its words. -/
theorem byteAt_wordAt (bs : List Byte) (j : ℕ) : byteAt (wordAt w bs) j = bs.getD j 0#8 := by
  apply BitVec.eq_of_getLsbD_eq
  intro t ht
  rw [getLsbD_byteAt _ ht, getLsbD_wordAt, Nat.div_add_mod, bitAt,
    show (8 * j + t) / 8 = j by omega, show (8 * j + t) % 8 = t by omega]
  simp [Nat.mod_lt _ w.bits_pos]

/-- Two regions of one length with the same words are equal. -/
theorem ext_wordAt {u v : List Byte} (hl : u.length = v.length)
    (h : ∀ i, wordAt w u i = wordAt w v i) : u = v := by
  apply List.ext_getElem hl
  intro j hu hv
  have hj : byteAt (wordAt w u) j = byteAt (wordAt w v) j := by rw [funext h]
  rw [byteAt_wordAt, byteAt_wordAt] at hj
  simpa [List.getD_eq_getElem?_getD, hu, hv] using hj

theorem wordAt_xorBytes {u v : List Byte} (h : u.length = v.length) (i : ℕ) :
    wordAt w (xorBytes u v) i = wordAt w u i ^^^ wordAt w v i := by
  apply BitVec.eq_of_getLsbD_eq
  intro t ht
  simp only [BitVec.getLsbD_xor, getLsbD_wordAt, bitAt_xorBytes h]
  simp [ht]

theorem word_in_region {n i t : ℕ} (hn : w.wordBytes ∣ n) (ht : t < w.bits) :
    (w.bits * i + t) / 8 < n ↔ i < w.wordCount n := by
  obtain ⟨c, hc⟩ := FieldSize.bits_dvd hn
  rw [FieldSize.wordCount, hc, Nat.mul_div_cancel_left _ w.bits_pos,
    Nat.div_lt_iff_lt_mul (by decide), mul_comm n 8, hc]
  constructor
  · intro h
    exact Nat.lt_of_mul_lt_mul_left (lt_of_le_of_lt (Nat.le_add_right _ t) h)
  · intro h
    calc w.bits * i + t < w.bits * i + w.bits := Nat.add_lt_add_left ht _
      _ = w.bits * (i + 1) := (Nat.mul_succ _ _).symm
      _ ≤ w.bits * c := Nat.mul_le_mul_left _ h

theorem wordAt_take {bs : List Byte} {n : ℕ} (hn : w.wordBytes ∣ n) (i : ℕ) :
    wordAt w (bs.take n) i = if i < w.wordCount n then wordAt w bs i else 0#w.bits := by
  apply BitVec.eq_of_getLsbD_eq
  intro t ht
  rw [getLsbD_wordAt, bitAt_take]
  split
  · next hi => simp [getLsbD_wordAt, (word_in_region hn ht).mpr hi]
  · next hi => simp [mt (word_in_region hn ht).mp hi]

theorem wordAt_eq_zero {bs : List Byte} (hn : w.wordBytes ∣ bs.length) {i : ℕ}
    (hi : ¬ i < w.wordCount bs.length) : wordAt w bs i = 0#w.bits := by
  have h : wordAt w (bs.take bs.length) i = _ := wordAt_take hn i
  rwa [List.take_length, if_neg hi] at h

/-- Word by word, a region is multiplied by the constant. -/
theorem wordAt_region (g : GfComplete w) (c : BitVec w.bits) {src : List Byte}
    (hn : w.wordBytes ∣ src.length) (i : ℕ) :
    wordAt w (region g c src) i = g.multiply c (wordAt w src i) := by
  by_cases hi : i < w.wordCount src.length
  · apply BitVec.eq_of_getLsbD_eq
    intro t ht
    have hj := (word_in_region hn ht).mpr hi
    have hbits : w.bits * i + t = 8 * ((w.bits * i + t) / 8) + (w.bits * i + t) % 8 :=
      (Nat.div_add_mod _ 8).symm
    rw [getLsbD_wordAt, bitAt, region, List.getD_eq_getElem?_getD,
      List.getElem?_eq_getElem (by simpa using hj), List.getElem_map, List.getElem_range,
      Option.getD_some, getLsbD_byteAt _ (Nat.mod_lt _ (by decide)), ← hbits,
      Nat.mul_add_div w.bits_pos, Nat.div_eq_of_lt ht, Nat.add_zero, Nat.mul_add_mod,
      Nat.mod_eq_of_lt ht]
    simp [ht]
  · rw [wordAt_eq_zero (by simpa using hn) (by simpa using hi), wordAt_eq_zero hn hi,
      Gf.multiply_zero]

/-- `multiply` of a region: the first `len` bytes of `dst` are overwritten. -/
def multiply (g : GfComplete w) (src dst : List Byte) (len : ℕ) (coeff : BitVec w.bits) :
    Except Fault (List Byte) :=
  if ¬ w.wordBytes ∣ len then .error (.undefined .partialWord)
  else if src.length < len ∨ dst.length < len then .error (.undefined .outOfBuffer)
  else .ok (region g coeff (src.take len) ++ dst.drop len)

/-- `multiply_add`: the product is added to the first `len` bytes of `dst`. -/
def multiplyAdd (g : GfComplete w) (src dst : List Byte) (len : ℕ) (coeff : BitVec w.bits) :
    Except Fault (List Byte) :=
  if ¬ w.wordBytes ∣ len then .error (.undefined .partialWord)
  else if src.length < len ∨ dst.length < len then .error (.undefined .outOfBuffer)
  else .ok (xorBytes (region g coeff (src.take len)) (dst.take len) ++ dst.drop len)

/-- The two bytes of a size in memory. -/
def sizeBytes (size : BitVec 16) : List Byte :=
  [size.extractLsb' 0 8, size.extractLsb' 8 8]

/-- The size read from two bytes in memory. -/
def ofSizeBytes (bs : List Byte) : BitVec 16 :=
  BitVec.ofFnLE fun t : Fin 16 => bitAt bs t.val

/-- The product `multiply_size` takes: of a region of two bytes in the small fields, of one
word narrowed to 16 bits in the others. -/
def sizeProduct : {w : FieldSize} → GfComplete w → BitVec 16 → BitVec w.bits → BitVec 16
  | .w4, g, size, coeff => ofSizeBytes (region g coeff (sizeBytes size))
  | .w8, g, size, coeff => ofSizeBytes (region g coeff (sizeBytes size))
  | .w16, g, size, coeff => g.multiply size coeff
  | .w32, g, size, coeff => (g.multiply (size.setWidth 32) coeff).setWidth 16

/-- `multiply_size`. -/
def multiplySize (g : GfComplete w) (size : BitVec 16) (coeff : BitVec w.bits) : BitVec 16 :=
  if size = 0#16 ∨ coeff = 0#w.bits then 0#16 else sizeProduct g size coeff

/-- `multiply` of two coefficients. -/
def multiplyCoefficients (g : GfComplete w) (x y : BitVec w.bits) : BitVec w.bits :=
  if x = 0#w.bits ∨ y = 0#w.bits then 0#w.bits else g.multiply x y

/-- `invert`. -/
def invertCoefficient (b : Build) (g : GfComplete w) (coef : BitVec w.bits) :
    Except Fault (BitVec w.bits) := do
  b.assert .zeroInverse (coef ≠ 0#w.bits)
  if coef = 0#w.bits then .error (.undefined .divisionByZero) else .ok (g.divide 1#w.bits coef)

/-- `coefficient`, in the arithmetic of 32-bit unsigned integers. -/
def coefficient (w : FieldSize) (repairId srcId : ℕ) : BitVec w.bits :=
  let res := (((repairId + 1) + (srcId + 1)) * (repairId + 1)) % 2 ^ 32
  match w with
  | .w32 => BitVec.ofNat _ (if res = 0 then 1 else res)
  | _ => BitVec.ofNat _ (res % (2 ^ w.bits - 1) + 1)

/-- The result of coefficient is guaranteed to be different from 0. -/
theorem coefficient_ne_zero (r s : ℕ) : coefficient w r s ≠ 0#w.bits := by
  intro h
  have hn := congrArg BitVec.toNat h
  cases w <;> simp only [coefficient, FieldSize.bits, BitVec.toNat_ofNat] at hn
  · omega
  · omega
  · omega
  · split at hn <;> omega

theorem multiplyCoefficients_eq (g : GfComplete w) (x y : BitVec w.bits) :
    multiplyCoefficients g x y = g.multiply x y := by
  rw [multiplyCoefficients]
  split
  · next h =>
    rcases h with rfl | rfl
    · rw [g.multiply_comm, Gf.multiply_zero]
    · rw [Gf.multiply_zero]
  · rfl

theorem invertCoefficient_eq (b : Build) (g : GfComplete w) {c : BitVec w.bits}
    (hc : c ≠ 0#w.bits) : invertCoefficient b g c = .ok (g.divide 1#w.bits c) := by
  simp [invertCoefficient, hc]

/-- The words of a region as field elements. -/
def vec (g : GfComplete w) (bs : List Byte) (i : ℕ) : Gf g := ⟨wordAt w bs i⟩

/-- A coefficient as a field element. -/
def coef (g : GfComplete w) (r s : ℕ) : Gf g := ⟨coefficient w r s⟩

theorem vec_region (g : GfComplete w) (c : BitVec w.bits) {bs : List Byte}
    (h : w.wordBytes ∣ bs.length) : vec g (region g c bs) = fun i => ⟨c⟩ * vec g bs i :=
  funext fun i => Gf.ext (wordAt_region g c h i)

theorem vec_xorBytes (g : GfComplete w) {u v : List Byte} (h : u.length = v.length) :
    vec g (xorBytes u v) = fun i => vec g u i + vec g v i :=
  funext fun i => Gf.ext (wordAt_xorBytes h i)

theorem vec_take (g : GfComplete w) {bs : List Byte} {n : ℕ} (h : w.wordBytes ∣ n) :
    vec g (bs.take n) = fun i => if i < w.wordCount n then vec g bs i else 0 := by
  funext i
  apply Gf.ext
  rw [vec, wordAt_take h]
  dsimp only
  split <;> rfl

theorem vec_injective (g : GfComplete w) {u v : List Byte} (hl : u.length = v.length)
    (h : vec g u = vec g v) : u = v :=
  ext_wordAt hl fun i => congrArg Gf.word (congrFun h i)

/-- The words of a size. -/
def sizeVec (g : GfComplete w) (size : BitVec 16) : ℕ → Gf g := vec g (sizeBytes size)

theorem bitAt_sizeBytes (z : BitVec 16) (p : ℕ) : bitAt (sizeBytes z) p = z.getLsbD p := by
  have hp : p / 8 = 0 ∨ p / 8 = 1 ∨ 2 ≤ p / 8 := by omega
  rcases hp with h | h | h
  · rw [bitAt, h]
    simp [sizeBytes, show p % 8 = p by omega, show p < 8 by omega]
  · rw [bitAt, h]
    simp [sizeBytes, show p % 8 < 8 by omega, show 8 + p % 8 = p by omega]
  · rw [bitAt_eq_false (by simpa [sizeBytes] using h), BitVec.getLsbD_of_ge _ _ (by omega)]

theorem ofSizeBytes_sizeBytes (z : BitVec 16) : ofSizeBytes (sizeBytes z) = z := by
  apply BitVec.eq_of_getLsbD_eq
  intro t ht
  rw [ofSizeBytes, BitVec.getLsbD_ofFnLE, dif_pos ht, bitAt_sizeBytes]

@[simp] theorem length_sizeBytes (z : BitVec 16) : (sizeBytes z).length = 2 := rfl

theorem wordBytes_dvd_two (hw : w ≠ .w32) : w.wordBytes ∣ 2 := by
  cases w <;> first | decide | exact absurd rfl hw

theorem sizeBytes_ofSizeBytes {bs : List Byte} (h : bs.length = 2) :
    sizeBytes (ofSizeBytes bs) = bs := by
  apply ext_wordAt (w := .w8) (by rw [h, length_sizeBytes])
  intro i
  apply BitVec.eq_of_getLsbD_eq
  intro t ht
  rw [getLsbD_wordAt, getLsbD_wordAt, bitAt_sizeBytes, ofSizeBytes, BitVec.getLsbD_ofFnLE]
  split
  · rfl
  · rw [bitAt_eq_false (by omega)]

theorem sizeVec_injective (g : GfComplete w) {y z : BitVec 16} (h : sizeVec g y = sizeVec g z) :
    y = z := by
  have hb : sizeBytes y = sizeBytes z := vec_injective g (by simp) h
  rw [← ofSizeBytes_sizeBytes y, hb, ofSizeBytes_sizeBytes]

theorem sizeBytes_xor (y z : BitVec 16) :
    sizeBytes (y ^^^ z) = xorBytes (sizeBytes y) (sizeBytes z) := by
  simp [sizeBytes, xorBytes, BitVec.extractLsb'_xor]

theorem sizeVec_xor (g : GfComplete w) (y z : BitVec 16) :
    sizeVec g (y ^^^ z) = fun i => sizeVec g y i + sizeVec g z i := by
  rw [sizeVec, sizeBytes_xor, vec_xorBytes g (by simp)]
  rfl

@[simp] theorem sizeVec_zero (g : GfComplete w) (i : ℕ) : sizeVec g 0#16 i = 0 := by
  apply Gf.ext
  apply BitVec.eq_of_getLsbD_eq
  intro t _
  simp [sizeVec, vec, getLsbD_wordAt, bitAt_sizeBytes]

theorem wordAt_sizeBytes_w16 (z : BitVec 16) (i : ℕ) :
    wordAt .w16 (sizeBytes z) i = if i = 0 then z else 0#16 := by
  apply BitVec.eq_of_getLsbD_eq
  intro t ht
  have hb : FieldSize.bits .w16 = 16 := rfl
  rw [getLsbD_wordAt, bitAt_sizeBytes]
  split
  · next h =>
    rw [h, Nat.mul_zero, Nat.zero_add, decide_eq_true ht, Bool.true_and]
    rfl
  · next h =>
    rw [BitVec.getLsbD_of_ge z _ (by rw [hb]; omega), Bool.and_false]
    exact (BitVec.getLsbD_zero).symm

/-- In the fields of 4 and 8 bits, a size is a region of two bytes. -/
theorem sizeVec_region (hw : w ≠ .w32) (g : GfComplete w) (z : BitVec 16) (c : BitVec w.bits) :
    sizeVec g (ofSizeBytes (region g c (sizeBytes z))) = fun i => ⟨c⟩ * sizeVec g z i := by
  rw [sizeVec, sizeBytes_ofSizeBytes (by simp), vec_region g c (by simpa using wordBytes_dvd_two hw)]
  rfl

theorem sizeVec_product (hw : w ≠ .w32) (g : GfComplete w) (z : BitVec 16) (c : BitVec w.bits) :
    sizeVec g (sizeProduct g z c) = fun i => ⟨c⟩ * sizeVec g z i := by
  cases w with
  | w4 => exact sizeVec_region hw g z c
  | w8 => exact sizeVec_region hw g z c
  | w16 =>
    funext i
    apply Gf.ext
    refine (wordAt_sizeBytes_w16 (g.multiply z c) i).trans
      (Eq.trans ?_ (congrArg (g.multiply c) (wordAt_sizeBytes_w16 z i).symm))
    by_cases hi : i = 0
    · exact (if_pos hi).trans
        ((g.multiply_comm z c).trans (congrArg (g.multiply c) (if_pos hi).symm))
    · exact (if_neg hi).trans
        ((Gf.multiply_zero c).symm.trans (congrArg (g.multiply c) (if_neg hi).symm))
  | w32 => exact absurd rfl hw

/-- In the fields of 4, 8 and 16 bits, multiplying a size multiplies its words. -/
theorem sizeVec_multiplySize (hw : w ≠ .w32) (g : GfComplete w) (z : BitVec 16)
    (c : BitVec w.bits) : sizeVec g (multiplySize g z c) = fun i => ⟨c⟩ * sizeVec g z i := by
  rw [multiplySize]
  split
  · next h =>
    funext i
    rcases h with rfl | rfl
    · rw [sizeVec_zero, mul_zero]
    · rw [sizeVec_zero]
      exact (zero_mul _).symm
  · exact sizeVec_product hw g z c

end Netcode
