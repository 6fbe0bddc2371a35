import Mathlib

/-! Big-endian integers, run lengths with a cap, and sums of differences. -/
namespace Encodings

abbrev Byte := BitVec 8

/-- The `n` bytes of `v`, most significant first; higher bits are lost. -/
def bigEndian : ℕ → ℕ → List Byte
  | 0, _ => []
  | n + 1, v => BitVec.ofNat 8 (v / 256 ^ n) :: bigEndian n v

/-- The integer read from bytes, most significant first. -/
def ofBigEndian (bs : List Byte) : ℕ := bs.foldl (fun acc b => acc * 256 + b.toNat) 0

@[simp] theorem length_bigEndian (n v : ℕ) : (bigEndian n v).length = n := by
  induction n with
  | zero => rfl
  | succ n ih => simp [bigEndian, ih]

theorem foldl_bigEndian (n v acc : ℕ) :
    (bigEndian n v).foldl (fun acc b => acc * 256 + b.toNat) acc = acc * 256 ^ n + v % 256 ^ n := by
  induction n generalizing acc with
  | zero => simp [bigEndian, Nat.mod_one]
  | succ n ih =>
    have hsplit : v % 256 ^ (n + 1) = v % 256 ^ n + 256 ^ n * (v / 256 ^ n % 256) := by
      rw [pow_succ, Nat.mod_mul]
    simp only [bigEndian, List.foldl_cons, ih, BitVec.toNat_ofNat, Nat.reducePow]
    rw [hsplit, pow_succ]
    ring

/-- Writing an integer on `n` bytes and reading it back keeps its low `8 n` bits. -/
@[simp] theorem ofBigEndian_bigEndian (n v : ℕ) : ofBigEndian (bigEndian n v) = v % 256 ^ n := by
  rw [ofBigEndian, foldl_bigEndian]
  simp

theorem ofBigEndian_lt (bs : List Byte) : ofBigEndian bs < 256 ^ bs.length := by
  induction bs using List.reverseRecOn with
  | nil => simp [ofBigEndian]
  | append_singleton bs b ih =>
    have hb : b.toNat < 256 := b.isLt
    simp only [ofBigEndian, List.foldl_append, List.foldl_cons, List.foldl_nil,
      List.length_append, List.length_singleton, pow_succ] at ih ⊢
    omega

section RunLength

variable {α : Type} [DecidableEq α]

/-- The runs of `d :: l` when `n` copies of `d` have been counted; a run is cut at `cap`. -/
def runsFrom (cap : ℕ) : ℕ → α → List α → List (ℕ × α)
  | n, d, [] => [(n, d)]
  | n, d, e :: l =>
    if d = e ∧ n < cap then runsFrom cap (n + 1) e l else (n, d) :: runsFrom cap 1 e l

/-- The run-length code of a list. -/
def runs (cap : ℕ) : List α → List (ℕ × α)
  | [] => []
  | d :: l => runsFrom cap 1 d l

/-- The list a run-length code stands for. -/
def expand (rs : List (ℕ × α)) : List α := rs.flatMap (fun r => List.replicate r.1 r.2)

omit [DecidableEq α] in
@[simp] theorem expand_nil : expand ([] : List (ℕ × α)) = [] := rfl

omit [DecidableEq α] in
@[simp] theorem expand_cons (r : ℕ × α) (rs : List (ℕ × α)) :
    expand (r :: rs) = List.replicate r.1 r.2 ++ expand rs := rfl

omit [DecidableEq α] in
theorem expand_append (rs rs' : List (ℕ × α)) : expand (rs ++ rs') = expand rs ++ expand rs' := by
  simp [expand]

theorem expand_runsFrom (cap n : ℕ) (d : α) (l : List α) :
    expand (runsFrom cap n d l) = List.replicate n d ++ l := by
  induction l generalizing n d with
  | nil => simp [runsFrom]
  | cons e l ih =>
    rw [runsFrom]
    split
    · next h =>
      rw [ih, h.1, List.replicate_succ', List.append_assoc]
      rfl
    · rw [expand_cons, ih]
      rfl

/-- The run-length code loses nothing, wherever runs are cut. -/
@[simp] theorem expand_runs (cap : ℕ) (l : List α) : expand (runs cap l) = l := by
  cases l with
  | nil => rfl
  | cons d l => exact expand_runsFrom cap 1 d l

theorem runsFrom_length_le {cap n : ℕ} {d : α} {l : List α} (hn : 1 ≤ n) (hcap : n ≤ cap) :
    ∀ r ∈ runsFrom cap n d l, 1 ≤ r.1 ∧ r.1 ≤ cap := by
  induction l generalizing n d with
  | nil => simp [runsFrom, hn, hcap]
  | cons e l ih =>
    rw [runsFrom]
    split
    · next h => exact ih (by omega) (by omega)
    · intro r hr
      rcases List.mem_cons.mp hr with rfl | hr
      · exact ⟨hn, hcap⟩
      · exact ih le_rfl (by omega) r hr

/-- Every run is non-empty and no longer than the cap. -/
theorem runs_length_le {cap : ℕ} (hcap : 1 ≤ cap) (l : List α) :
    ∀ r ∈ runs cap l, 1 ≤ r.1 ∧ r.1 ≤ cap := by
  cases l with
  | nil => simp [runs]
  | cons d l => exact runsFrom_length_le le_rfl hcap

end RunLength

/-- Differences between neighbours, modulo `m`. -/
def differencesFrom (m : ℕ) : ℕ → List ℕ → List ℕ
  | _, [] => []
  | a, b :: l => (b + m - a) % m :: differencesFrom m b l

/-- Running sums from `a`, modulo `m`. -/
def sumsFrom (m : ℕ) : ℕ → List ℕ → List ℕ
  | _, [] => []
  | a, d :: l => (a + d) % m :: sumsFrom m ((a + d) % m) l

/-- The running sums of a first part come first. -/
theorem sumsFrom_append (m a : ℕ) (l l' : List ℕ) :
    ∃ l'', sumsFrom m a (l ++ l') = sumsFrom m a l ++ l'' := by
  induction l generalizing a with
  | nil => exact ⟨_, rfl⟩
  | cons d l ih =>
    obtain ⟨l'', h⟩ := ih ((a + d) % m)
    exact ⟨l'', by rw [List.cons_append, sumsFrom, h, sumsFrom, List.cons_append]⟩

/-- The running sums are those of the first parts of the list. -/
theorem mem_cons_sumsFrom {m a x : ℕ} {l : List ℕ} (ha : a < m) :
    x ∈ a :: sumsFrom m a l ↔ ∃ j ≤ l.length, x = (a + (l.take j).sum) % m := by
  induction l generalizing a with
  | nil => simp [sumsFrom, Nat.mod_eq_of_lt ha]
  | cons d l ih =>
    have hm : 0 < m := by omega
    have hstep : ∀ j, ((a + d) % m + (l.take j).sum) % m = (a + ((d :: l).take (j + 1)).sum) % m := by
      intro j
      rw [List.take_succ_cons, List.sum_cons, Nat.mod_add_mod, Nat.add_assoc]
    rw [List.mem_cons, sumsFrom, ih (Nat.mod_lt _ hm)]
    constructor
    · rintro (rfl | ⟨j, hj, rfl⟩)
      · exact ⟨0, Nat.zero_le _, by simp [Nat.mod_eq_of_lt ha]⟩
      · exact ⟨j + 1, Nat.succ_le_succ hj, hstep j⟩
    · rintro ⟨j, hj, rfl⟩
      cases j with
      | zero => exact Or.inl (by simp [Nat.mod_eq_of_lt ha])
      | succ j => exact Or.inr ⟨j, Nat.le_of_succ_le_succ hj, (hstep j).symm⟩

theorem sumsFrom_lt {m a x : ℕ} {l : List ℕ} (hm : 0 < m) (hx : x ∈ sumsFrom m a l) : x < m := by
  induction l generalizing a with
  | nil => cases hx
  | cons d l ih =>
    rcases List.mem_cons.mp hx with rfl | hx
    · exact Nat.mod_lt _ hm
    · exact ih hx

/-- Running sums undo differences. -/
theorem sumsFrom_differencesFrom {m a : ℕ} {l : List ℕ} (ha : a < m) (hl : ∀ b ∈ l, b < m) :
    sumsFrom m a (differencesFrom m a l) = l := by
  induction l generalizing a with
  | nil => rfl
  | cons b l ih =>
    have hb : b < m := hl b List.mem_cons_self
    have hab : (a + (b + m - a) % m) % m = b := by
      rw [Nat.add_mod_mod, show a + (b + m - a) = b + m by omega, Nat.add_mod_right,
        Nat.mod_eq_of_lt hb]
    rw [differencesFrom, sumsFrom, hab, ih hb fun c hc => hl c (List.mem_cons_of_mem b hc)]

/-- Running sums that do not reach the modulus are the start plus a sum of a prefix. -/
theorem mem_sumsFrom {m a x : ℕ} {l : List ℕ} (hm : a + l.sum < m) (hx : x ∈ sumsFrom m a l) :
    a ≤ x ∧ x ≤ a + l.sum := by
  induction l generalizing a with
  | nil => simp [sumsFrom] at hx
  | cons d l ih =>
    rw [List.sum_cons] at hm ⊢
    rw [sumsFrom, Nat.mod_eq_of_lt (by omega)] at hx
    rcases List.mem_cons.mp hx with rfl | hx
    · omega
    · have := ih (by omega) hx
      omega

theorem differencesFrom_of_sorted {m a : ℕ} {l : List ℕ} (hs : (a :: l).Pairwise (· < ·))
    (hl : ∀ b ∈ l, b < m) :
    (∀ d ∈ differencesFrom m a l, 0 < d) ∧
      a + (differencesFrom m a l).sum = (a :: l).getLast (List.cons_ne_nil a l) := by
  induction l generalizing a with
  | nil => simp [differencesFrom]
  | cons b l ih =>
    rw [List.pairwise_cons] at hs
    have hab : a < b := hs.1 b List.mem_cons_self
    have hb : b < m := hl b List.mem_cons_self
    have hd : (b + m - a) % m = b - a := by
      rw [show b + m - a = b - a + m by omega, Nat.add_mod_right, Nat.mod_eq_of_lt (by omega)]
    obtain ⟨hpos, hsum⟩ := ih hs.2 fun c hc => hl c (List.mem_cons_of_mem b hc)
    rw [differencesFrom, hd, List.getLast_cons_cons, ← hsum]
    refine ⟨?_, by simp only [List.sum_cons]; omega⟩
    intro d hd
    rcases List.mem_cons.mp hd with rfl | hd
    · omega
    · exact hpos d hd

end Encodings
