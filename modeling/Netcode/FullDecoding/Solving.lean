import Netcode.Rebuilding

/-! A source decoded with coefficients that solve right repairs is intact. -/
namespace Netcode.Detail.Decoder

open Containers Encodings Combinations Runs

variable {w : FieldSize} {b : Build} {g : GfComplete w} {D : ℕ → Option (List Byte)}
  {rows : List (BitVec w.bits × DecoderRepair)}

/-- The coefficient a repair has for a source; zero if it does not list the source. -/
def coefficientOf (g : GfComplete w) (r : DecoderRepair) (i : ℕ) : Gf g :=
  if i ∈ r.sourceIds then coef g r.id i else 0

theorem sizeVec_decodeSize (hw : w ≠ .w32) (rows : List (BitVec w.bits × DecoderRepair)) :
    sizeVec g (decodeSize g rows) =
      (rows.map fun row => (⟨row.1⟩ : Gf g) • sizeVec g row.2.encodedSize).sum := by
  have hfold : ∀ (l : List (BitVec w.bits × DecoderRepair)) (z : BitVec 16),
      sizeVec g (l.foldl (fun res row => if row.1 = 0#w.bits then res
        else multiplySize g row.2.encodedSize row.1 ^^^ res) z) =
      (l.map fun row => (⟨row.1⟩ : Gf g) • sizeVec g row.2.encodedSize).sum + sizeVec g z := by
    intro l
    induction l with
    | nil => exact fun z => (zero_add _).symm
    | cons row l ih =>
      intro z
      rw [List.foldl_cons, ih, List.map_cons, List.sum_cons]
      split
      · next hz =>
        rw [hz, show (⟨0#w.bits⟩ : Gf g) = 0 from rfl, zero_smul, zero_add]
      · rw [sizeVec_xor_add, sizeVec_multiplySize_smul hw, add_left_comm, add_assoc]
  rw [decodeSize, hfold, show sizeVec g 0#16 = 0 from funext (sizeVec_zero g), add_zero]

/-- The rows' repairs have the first words a source of this size needs. -/
def Readable (w : FieldSize) (srcSz : ℕ) (r : DecoderRepair) : Prop :=
  w.wordBytes ∣ min srcSz r.symbolSize ∧ r.symbolSize ≤ r.symbol.length

theorem addRows_spec {srcSz : ℕ} : ∀ {l : List (BitVec w.bits × DecoderRepair)}
    {symbol : List Byte}, (∀ row ∈ l, row.1 ≠ 0#w.bits → Readable w srcSz row.2) →
    srcSz ≤ symbol.length →
    ∃ symbol', l.foldlM (fun symbol row => if row.1 = 0#w.bits then .ok symbol
        else multiplyAdd g row.2.symbol symbol (min srcSz row.2.symbolSize) row.1) symbol =
        .ok symbol' ∧ symbol'.length = symbol.length ∧ vec g symbol' =
      vec g symbol + (l.map fun row => (⟨row.1⟩ : Gf g) •
        vec g (row.2.symbol.take (min srcSz row.2.symbolSize))).sum := by
  intro l
  induction l with
  | nil => exact fun _ _ => ⟨_, rfl, rfl, (add_zero _).symm⟩
  | cons row l ih =>
    intro symbol hl hlen
    have htail := fun r hr => hl r (List.mem_cons_of_mem row hr)
    rw [List.foldlM_cons, List.map_cons, List.sum_cons]
    split
    · next hz =>
      obtain ⟨s, hs, hslen, hvec⟩ := ih htail hlen
      refine ⟨s, hs, hslen, ?_⟩
      rw [hvec, hz, show (⟨0#w.bits⟩ : Gf g) = 0 from rfl, zero_smul, zero_add]
    · next hne =>
      obtain ⟨halign, hstored⟩ := hl row List.mem_cons_self hne
      obtain ⟨t, ht⟩ : ∃ t, multiplyAdd g row.2.symbol symbol (min srcSz row.2.symbolSize) row.1 =
          .ok t := ⟨_, multiplyAdd_ok_iff.mpr ⟨halign, (min_le_right _ _).trans hstored,
        (min_le_left _ _).trans hlen, rfl⟩⟩
      obtain ⟨htlen, htvec⟩ := vec_multiplyAdd ht
      obtain ⟨s, hs, hslen, hvec⟩ := ih htail (hlen.trans_eq htlen.symm)
      refine ⟨s, by rw [ht, ok_bind, hs], hslen.trans htlen, ?_⟩
      rw [hvec, htvec]
      abel

/-- The symbol decoded is the combination of the repairs' first words. -/
theorem decodeSymbol_spec {srcSz : ℕ}
    (hrows : ∀ row ∈ rows, row.1 ≠ 0#w.bits → Readable w srcSz row.2)
    (hne : ∃ row ∈ rows, row.1 ≠ 0#w.bits) : ∃ symbol, decodeSymbol b g srcSz rows = .ok symbol ∧
      symbol.length = srcSz + 9 ∧ vec g symbol = (rows.map fun row => (⟨row.1⟩ : Gf g) •
        vec g (row.2.symbol.take (min srcSz row.2.symbolSize))).sum := by
  induction rows with
  | nil =>
    obtain ⟨row, hrow, -⟩ := hne
    cases hrow
  | cons row rows ih =>
    by_cases hz : row.1 = 0#w.bits
    · have htail : ∃ r ∈ rows, r.1 ≠ 0#w.bits := by
        obtain ⟨r, hr, hrne⟩ := hne
        rcases List.mem_cons.mp hr with rfl | hr
        exacts [absurd hz hrne, ⟨r, hr, hrne⟩]
      obtain ⟨s, hs, hlen, hvec⟩ := ih (fun r hr => hrows r (List.mem_cons_of_mem row hr)) htail
      refine ⟨s, ?_, hlen, ?_⟩
      · rw [← hs, decodeSymbol, decodeSymbol, List.dropWhile_cons_of_pos (by simpa using hz)]
      · rw [hvec, List.map_cons, List.sum_cons, hz, show (⟨0#w.bits⟩ : Gf g) = 0 from rfl, zero_smul,
          zero_add]
    · obtain ⟨halign, hstored⟩ := hrows row List.mem_cons_self hz
      obtain ⟨t, ht⟩ : ∃ t, multiply g row.2.symbol (List.replicate (srcSz + 9) 0#8)
          (min srcSz row.2.symbolSize) row.1 = .ok t :=
        ⟨_, multiply_ok_iff.mpr ⟨halign, (min_le_right _ _).trans hstored, by
          rw [List.length_replicate]
          exact (min_le_left _ _).trans (Nat.le_add_right _ 9), rfl⟩⟩
      obtain ⟨htlen, htvec⟩ := vec_multiply ht
      obtain ⟨s, hs, hslen, hvec⟩ := addRows_spec (g := g)
        (fun r hr => hrows r (List.mem_cons_of_mem row hr)) (htlen.symm ▸ Nat.le_add_right srcSz 9)
      refine ⟨s, ?_, hslen.trans htlen, by rw [hvec, htvec, List.map_cons, List.sum_cons]⟩
      rw [decodeSymbol, List.dropWhile_cons_of_neg (by simpa using hz)]
      simp only [ht, ok_bind]
      exact hs

/-- Coefficients that solve the repairs for one of the sources they list. -/
structure Solves (g : GfComplete w) (keys : List ℕ) (x : ℕ)
    (rows : List (BitVec w.bits × DecoderRepair)) : Prop where
  missing : x ∈ keys
  lists : ∀ row ∈ rows, ∀ i ∈ row.2.sourceIds, i ∈ keys
  inverse : ∀ y ∈ keys, (rows.map fun row => coefficientOf g row.2 y * ⟨row.1⟩).sum =
    if y = x then 1 else 0

/-- Combined with these coefficients, the repairs have coefficient one for a source and zero for the
other missing ones. -/
def Recovers (g : GfComplete w) (keys : List ℕ) (i : ℕ)
    (rows : List (BitVec w.bits × DecoderRepair)) : Prop :=
  ∀ y ∈ keys, (rows.map fun row => coefficientOf g row.2 y * ⟨row.1⟩).sum = if y = i then 1 else 0

/-- What holds of every combination of the sources' vectors the repairs carry. -/
theorem Solves.recover {keys : List ℕ} {x : ℕ} (h : Solves g keys x rows) {f : ℕ → ℕ → Gf g}
    {u : DecoderRepair → ℕ → Gf g} (hu : ∀ row ∈ rows, u row.2 =
      combination (coef g row.2.id) row.2.sourceIds.toFinset f) :
    (rows.map fun row => (⟨row.1⟩ : Gf g) • u row.2).sum = f x := by
  rw [← Fin.sum_univ_fun_getElem]
  refine sum_smul_combinations (m := keys.toFinset) (t := Finset.univ)
    (A := fun (k : Fin rows.length) y => coefficientOf g rows[k].2 y)
    (B := fun (k : Fin rows.length) => (⟨rows[k].1⟩ : Gf g)) (u := fun k => u rows[k].2) (f := f)
    (List.mem_toFinset.mpr h.missing) (fun k _ => ?_) (fun y hy => ?_)
  · have hk := List.getElem_mem k.isLt
    rw [show u rows[k].2 = _ from hu _ hk]
    refine combination_eq_sum (fun i hi => ?_) |>.trans (Finset.sum_congr rfl fun i _ => ?_)
    · exact List.mem_toFinset.mpr (h.lists _ hk i (FlatSet.mem_toFinset.mp hi))
    · simp only [coefficientOf, FlatSet.mem_toFinset]
  · rw [← h.inverse y (List.mem_toFinset.mp hy), ← Fin.sum_univ_fun_getElem]
    rfl

/-- Some repair that lists the source has a coefficient that is not zero. -/
theorem Recovers.exists_row {keys : List ℕ} {x : ℕ} (h : Recovers g keys x rows) (hx : x ∈ keys) :
    ∃ row ∈ rows, coefficientOf g row.2 x ≠ 0 ∧ row.1 ≠ 0#w.bits := by
  by_contra hall
  push Not at hall
  have hone := h x hx
  rw [if_pos rfl] at hone
  refine one_ne_zero (α := Gf g) (hone.symm.trans (List.sum_eq_zero fun v hv => ?_))
  obtain ⟨row, hrow, rfl⟩ := List.mem_map.mp hv
  by_cases hc : coefficientOf g row.2 x = 0
  · rw [hc, zero_mul]
  · rw [hall row hrow hc]
    exact mul_zero _

/-- The source decoded with coefficients that solve right repairs is intact. -/
theorem Solves.decode (hw : w ≠ .w32) (hD : ∀ i x, D i = some x → Sendable w x) {keys : List ℕ}
    {i : ℕ} (h : Solves g keys i rows) (hright : ∀ row ∈ rows, row.2.Right g D) : ∃ symbol,
      decodeSymbol b g (decodeSize g rows).toNat rows = .ok symbol ∧
      DecoderSource.Intact D ⟨i, symbol, (decodeSize g rows).toNat⟩ := by
  obtain ⟨row, hrow, hcoef, hrowne⟩ := Recovers.exists_row h.inverse h.missing
  have hi : i ∈ row.2.sourceIds := by
    by_contra hi
    exact hcoef (if_neg hi)
  obtain ⟨x, hx, -⟩ := (hright row hrow).committed i hi
  obtain ⟨hpos, hmax, halign⟩ := hD i x hx
  have hsize : (decodeSize g rows).toNat = x.length := by
    have hz : decodeSize g rows = BitVec.ofNat 16 x.length := by
      apply sizeVec_injective g
      rw [sizeVec_decodeSize hw, h.recover (u := fun r => sizeVec g r.encodedSize)
        (f := lengthVec g D) (fun r hr => (hright r hr).sizes), lengthVec_eq hx]
    rw [hz, BitVec.toNat_ofNat, Nat.mod_eq_of_lt (by omega)]
  have hsum : (rows.map fun row => (⟨row.1⟩ : Gf g) •
      vec g (row.2.symbol.take (min x.length row.2.symbolSize))).sum =
      truncate (w.wordCount x.length) (dataVec g D i) := by
    rw [← h.recover (u := fun r => vec g (r.symbol.take r.symbolSize))
      (fun r hr => (hright r hr).words), map_list_sum, List.map_map]
    refine congrArg List.sum (List.map_congr_left fun r _ => ?_)
    rw [Function.comp_apply, map_smul, ← vec_take_eq halign, List.take_take]
  have hreadable : ∀ r ∈ rows, r.1 ≠ 0#w.bits → Readable w x.length r.2 := by
    intro r hr _
    refine ⟨?_, (hright r hr).stored⟩
    rcases min_choice x.length r.2.symbolSize with hm | hm
    · rw [hm]
      exact halign
    · rw [hm]
      exact (hright r hr).aligned
  rw [hsize]
  obtain ⟨symbol, hsymbol, hlen, hvec⟩ := decodeSymbol_spec (b := b) (g := g) hreadable
    ⟨row, hrow, hrowne⟩
  refine ⟨symbol, hsymbol, x, hx, rfl, vec_injective g ?_ ?_⟩
  · rw [List.length_take, hlen]
    exact min_eq_left (Nat.le_add_right _ 9)
  · rw [vec_take_eq halign, hvec, hsum, truncate_truncate, min_self, dataVec_eq hx,
      truncate_vec halign le_rfl]

end Netcode.Detail.Decoder
