import Netcode.Links
import Netcode.Encoding

/-! Removing a source from a repair and rebuilding the last one are exact. -/
namespace Netcode

open Containers Encodings Combinations Runs

variable {w : FieldSize} {b : Build} {g : GfComplete w} {D : ℕ → Option (List Byte)}

/-- A source holds the data with its identifier. -/
def DecoderSource.Intact (D : ℕ → Option (List Byte)) (src : DecoderSource) : Prop :=
  ∃ x, D src.id = some x ∧ src.symbolSize = x.length ∧ src.symbol.take src.symbolSize = x

/-- A repair combines the data of the sources it lists. -/
def DecoderRepair.Right (g : GfComplete w) (D : ℕ → Option (List Byte)) (r : DecoderRepair) : Prop :=
  Combines g D r.id r.sourceIds r.encodedSize r.symbol r.symbolSize

namespace Detail.Decoder

variable {src : DecoderSource} {r r' : DecoderRepair} {i : ℕ}

/-- The words of the first bytes of a region that are among its first `n`. -/
theorem vec_take_take {bs : List Byte} {n len : ℕ} (hlen : w.wordBytes ∣ len) (h : len ≤ n) :
    vec g (bs.take len) = truncate (w.wordCount len) (vec g (bs.take n)) := by
  rw [← vec_take_eq hlen, List.take_take, min_eq_left h]

/-- A source that is removed is no longer combined. -/
theorem remove_right (hw : w ≠ .w32) (hs : src.Intact D) (hr : r.Right g D)
    (hmem : src.id ∈ r.sourceIds) (h : removeSourceDataFromRepair b g src r = .ok r') :
    DecoderRepair.Right g D { r' with sourceIds := r.sourceIds.erase src.id } := by
  obtain ⟨x, hx, hsize, htake⟩ := hs
  simp only [removeSourceDataFromRepair, bind_ok_iff, Except.ok.injEq] at h
  obtain ⟨-, -, -, -, -, -, symbol, hsymbol, rfl⟩ := h
  obtain ⟨hlen, hvec⟩ := vec_multiplyAdd hsymbol
  have hmem' := FlatSet.mem_toFinset.mpr hmem
  have hle : x.length ≤ r.symbolSize := by
    obtain ⟨y, hy, hle⟩ := hr.committed src.id hmem
    rw [hx] at hy
    cases hy
    exact hle
  refine ⟨fun i hi => hr.committed i (FlatSet.mem_erase.mp hi).1, hr.aligned,
    hlen.symm ▸ hr.stored, ?_, ?_⟩
  · rw [FlatSet.toFinset_erase, combination_erase hmem', ← hr.sizes, Gf.sub_eq_add, sizeVec_xor_add,
      sizeVec_multiplySize_smul hw, lengthVec_eq hx, hsize, add_comm]
    rfl
  · rw [FlatSet.toFinset_erase, combination_erase hmem', ← hr.words, Gf.sub_eq_add,
      vec_take_eq hr.aligned, hvec, htake, map_add, map_smul, truncate_vec hr.aligned hle,
      ← vec_take_eq hr.aligned, dataVec_eq hx, add_comm]
    rfl

/-- Removing a source returns when it is aligned, no longer than the repair, and both symbols are in
their buffers. -/
theorem removeSourceDataFromRepair_returns (hsize : 1 < r.sourceIds.size)
    (hle : src.symbolSize ≤ r.symbolSize) (halign : w.wordBytes ∣ src.symbolSize)
    (hsrc : src.symbolSize ≤ src.symbol.length) (hr : r.symbolSize ≤ r.symbol.length) :
    ∃ r', removeSourceDataFromRepair b g src r = .ok r' := by
  obtain ⟨s, hsymbol⟩ : ∃ s, multiplyAdd g src.symbol r.symbol src.symbolSize
      (coefficient w r.id src.id) = .ok s :=
    ⟨_, multiplyAdd_ok_iff.mpr ⟨halign, hsrc, hle.trans hr, rfl⟩⟩
  exact ⟨_, by rw [removeSourceDataFromRepair, Build.assert_eq_ok (decide_eq_true hsize),
    Build.assert_eq_ok (decide_eq_true hle), Build.within_eq_ok hle, ok_bind, ok_bind, ok_bind,
    hsymbol, ok_bind]⟩

/-- Removing a source from a repair of several returns. -/
theorem remove_returns (hD : ∀ i x, D i = some x → Sendable w x) (hs : src.Intact D)
    (hr : r.Right g D) (hmem : src.id ∈ r.sourceIds) (hsize : 1 < r.sourceIds.size) :
    ∃ r', removeSourceDataFromRepair b g src r = .ok r' := by
  obtain ⟨x, hx, hlen, htake⟩ := hs
  obtain ⟨y, hy, hle⟩ := hr.committed src.id hmem
  obtain rfl : x = y := by
    rw [hx] at hy
    exact Option.some.inj hy
  have hstored : src.symbolSize ≤ src.symbol.length := by
    have h := congrArg List.length htake
    rw [List.length_take] at h
    omega
  rw [← hlen] at hle
  exact removeSourceDataFromRepair_returns hsize hle (hlen ▸ (hD _ _ hx).2.2) hstored hr.stored

/-- The last source of a repair is rebuilt, and nothing is read past the symbol. -/
theorem create_right (hw : w ≠ .w32) (hD : ∀ i x, D i = some x → Sendable w x)
    (hr : r.Right g D) (hids : r.sourceIds.toList = [i]) :
    ∃ src, createSourceFromRepair b g r = .ok src ∧ src.id = i ∧ src.Intact D := by
  obtain ⟨x, hx, hle⟩ := hr.committed i
    (by rw [FlatSet.mem_iff, hids]; exact List.mem_singleton_self i)
  obtain ⟨-, hmax, halign⟩ := hD i x hx
  have hset := FlatSet.toFinset_eq_singleton hids
  have hinv : (⟨g.divide 1#w.bits (coefficient w r.id i)⟩ : Gf g) * coef g r.id i = 1 :=
    Gf.ext (g.divide_multiply _ _ (coefficient_ne_zero r.id i))
  have hsize : (multiplySize g r.encodedSize (g.divide 1#w.bits (coefficient w r.id i))).toNat =
      x.length := by
    have h : multiplySize g r.encodedSize (g.divide 1#w.bits (coefficient w r.id i)) =
        BitVec.ofNat 16 x.length := by
      apply sizeVec_injective g
      rw [sizeVec_multiplySize_smul hw, hr.sizes, hset, smul_combination_singleton hinv,
        lengthVec_eq hx]
    rw [h, BitVec.toNat_ofNat, Nat.mod_eq_of_lt (by omega)]
  obtain ⟨s, hs⟩ : ∃ s, multiply g r.symbol (List.replicate (x.length + 9) 0#8) x.length
      (g.divide 1#w.bits (coefficient w r.id i)) = .ok s :=
    ⟨_, multiply_ok_iff.mpr ⟨halign, hle.trans hr.stored,
      by rw [List.length_replicate]; exact Nat.le_add_right _ 9, rfl⟩⟩
  obtain ⟨hlen, hvec⟩ := vec_multiply hs
  refine ⟨⟨i, s, x.length⟩, ?_, rfl, x, hx, rfl, ?_⟩
  · rw [createSourceFromRepair, Build.assert_eq_ok (decide_eq_true (FlatSet.size_eq_one_iff.mpr
      ⟨i, hids⟩)), ok_bind, hids]
    simp only [invertCoefficient_eq b g (coefficient_ne_zero r.id i), ok_bind, hsize,
      Build.within_eq_ok hle, hs]
  · apply vec_injective g
    · rw [List.length_take, hlen]
      exact min_eq_left (Nat.le_add_right _ 9)
    · rw [vec_take_eq halign, hvec, vec_take_take halign hle, hr.words, hset, ← map_smul,
        smul_combination_singleton hinv, truncate_truncate, min_self, dataVec_eq hx,
        truncate_vec halign le_rfl]

/-- Remove sources from a repair, one after the other. -/
def removeSourcesFromRepair (b : Build) (g : GfComplete w) (srcs : List DecoderSource)
    (r : DecoderRepair) : Except Fault DecoderRepair :=
  srcs.foldlM (fun r src => removeSourceFromRepair b g src r) r

/-- The data of a list of sources. -/
def dataOfSources (sources : List EncoderSource) (i : ℕ) : Option (List Byte) :=
  (sources.find? fun s => decide (s.id = i)).map EncoderSource.symbol

theorem dataOfSources_some {sources : List EncoderSource} {x : List Byte}
    (h : dataOfSources sources i = some x) : ∃ s ∈ sources, s.id = i ∧ s.symbol = x := by
  obtain ⟨s, hs, rfl⟩ := Option.map_eq_some_iff.mp h
  exact ⟨s, List.mem_of_find?_eq_some hs, by simpa using List.find?_some hs, rfl⟩

theorem dataOfSources_mem {sources : List EncoderSource}
    (hdistinct : (sources.map EncoderSource.id).Nodup) {s : EncoderSource} (hs : s ∈ sources) :
    dataOfSources sources s.id = some s.symbol := by
  cases h : dataOfSources sources s.id with
  | none =>
    rw [dataOfSources, Option.map_eq_none_iff, List.find?_eq_none] at h
    exact absurd (decide_eq_true rfl) (h s hs)
  | some x =>
    obtain ⟨t, ht, hid, rfl⟩ := dataOfSources_some h
    rw [List.inj_on_of_nodup_map hdistinct ht hs hid]

end Detail.Decoder

/-- A decoder's source with the contents of an encoder's, and whatever follows in its buffer. -/
def EncoderSource.received (s : EncoderSource) (rest : List Byte) : DecoderSource :=
  ⟨s.id, s.symbol ++ rest, s.symbol.length⟩

/-- A decoder's repair with the contents of an encoder's, and whatever follows in its buffer. -/
def EncoderRepair.received (r : EncoderRepair) (rest : List Byte) : DecoderRepair :=
  ⟨r.id, r.sourceIds, r.encodedSize, r.symbol ++ rest, r.symbol.length⟩

theorem EncoderSource.received_intact {s : EncoderSource} (h : D s.id = some s.symbol)
    (rest : List Byte) : (s.received rest).Intact D :=
  ⟨s.symbol, h, rfl, List.take_left⟩

theorem EncoderRepair.received_right {r : EncoderRepair}
    (h : Combines g D r.id r.sourceIds r.encodedSize r.symbol r.symbol.length) (rest : List Byte) :
    (r.received rest).Right g D := by
  refine ⟨h.committed, h.aligned, ?_, h.sizes, ?_⟩
  · rw [received, List.length_append]
    exact Nat.le_add_right _ _
  · refine Eq.trans ?_ h.words
    rw [received, List.take_left, List.take_length]

namespace Detail.Decoder

/-- A repair of a source and of others is one of this source once the others are removed from it. -/
theorem removeSources_right (hw : w ≠ .w32) (hD : ∀ i x, D i = some x → Sendable w x)
    {others : List EncoderSource} {s : EncoderSource} {r : DecoderRepair}
    (rests : EncoderSource → List Byte) (hdata : ∀ o ∈ others, D o.id = some o.symbol)
    (hnd : ((s :: others).map EncoderSource.id).Nodup) (hr : r.Right g D)
    (hids : ∀ i, i ∈ r.sourceIds ↔ i ∈ (s :: others).map EncoderSource.id) :
    ∃ r', removeSourcesFromRepair b g (others.map fun o => o.received (rests o)) r = .ok r' ∧
      r'.Right g D ∧ ∀ i, i ∈ r'.sourceIds ↔ i = s.id := by
  induction others generalizing r with
  | nil => exact ⟨r, rfl, hr, fun i => (hids i).trans (by simp)⟩
  | cons o os ih =>
    have hintact := EncoderSource.received_intact (hdata o List.mem_cons_self) (rests o)
    have ho : o.id ∈ r.sourceIds := (hids _).mpr (by simp)
    rw [List.map_cons, List.map_cons, List.nodup_cons, List.nodup_cons, List.mem_cons, not_or] at hnd
    obtain ⟨⟨hso, hsos⟩, hoos, hnd⟩ := hnd
    obtain ⟨u, hu⟩ := remove_returns (b := b) hD hintact hr ho
      (FlatSet.one_lt_size ho ((hids s.id).mpr (by simp)) (Ne.symm hso))
    have hrest : ∀ i, i ∈ r.sourceIds.erase o.id ↔ i ∈ (s :: os).map EncoderSource.id := by
      intro i
      rw [FlatSet.mem_erase, hids, List.map_cons, List.map_cons, List.map_cons, List.mem_cons,
        List.mem_cons, List.mem_cons]
      constructor
      · rintro ⟨h | h | h, hne⟩
        exacts [Or.inl h, absurd h hne, Or.inr h]
      · rintro (rfl | h)
        · exact ⟨Or.inl rfl, hso⟩
        · exact ⟨Or.inr (Or.inr h), fun heq => hoos (by rwa [heq] at h)⟩
    obtain ⟨r', hr', hright, hlist⟩ := ih (fun t ht => hdata t (List.mem_cons_of_mem o ht))
      (by rw [List.map_cons, List.nodup_cons]; exact ⟨hsos, hnd⟩)
      (remove_right hw hintact hr ho hu) hrest
    refine ⟨r', ?_, hright, hlist⟩
    rw [removeSourcesFromRepair, List.map_cons, List.foldlM_cons,
      removeSourceFromRepair_ok_iff.mpr ⟨ho, u, hu, rfl⟩, ok_bind]
    exact hr'

/-- Whatever source of a list is chosen, and in whatever order the others are removed from the
repair that encodes the list, what is left lists the chosen one and rebuilds it exactly. -/
theorem rebuild_exact (hw : w ≠ .w32) {sources others : List EncoderSource} {s : EncoderSource}
    (id : ℕ) (z : BitVec 16) (symbol : List Byte) (rest : List Byte)
    (rests : EncoderSource → List Byte) (hsorted : (sources.map EncoderSource.id).Pairwise (· < ·))
    (hsend : ∀ s ∈ sources, Sendable w s.symbol) (hperm : (s :: others).Perm sources) :
    ∃ r r' src, Detail.Encoder.encode b g ⟨id, FlatSet.empty, z, symbol⟩ sources = .ok r ∧
      removeSourcesFromRepair b g (others.map fun o => o.received (rests o)) (r.received rest) =
        .ok r' ∧
      r'.sourceIds.toList = [s.id] ∧ createSourceFromRepair b g r' = .ok src ∧ src.id = s.id ∧
      src.symbolSize = s.symbol.length ∧ src.symbol.take src.symbolSize = s.symbol := by
  have hdistinct : (sources.map EncoderSource.id).Nodup := hsorted.imp ne_of_lt
  have hdata : ∀ t ∈ sources, dataOfSources sources t.id = some t.symbol :=
    fun t => dataOfSources_mem hdistinct
  have hD : ∀ i x, dataOfSources sources i = some x → Sendable w x := by
    intro i x h
    obtain ⟨t, ht, -, rfl⟩ := dataOfSources_some h
    exact hsend t ht
  have hmem : ∀ t ∈ s :: others, t ∈ sources := fun t => hperm.mem_iff.mp
  obtain ⟨r, hr, hencodes⟩ := Detail.Encoder.encode_encodes (b := b) (g := g)
    (List.ne_nil_of_mem (hmem s List.mem_cons_self)) hsend
    (rfl : EncoderRepair.id ⟨id, FlatSet.empty, z, symbol⟩ = id) rfl
  have hright := EncoderRepair.received_right (hencodes.combines hw hsend hdata hdistinct) rest
  have hnd : ((s :: others).map EncoderSource.id).Nodup := (hperm.map _).nodup_iff.mpr hdistinct
  obtain ⟨r', hr', hright', hids⟩ := removeSources_right (b := b) hw hD rests
    (fun o ho => hdata o (hmem o (List.mem_cons_of_mem s ho))) hnd hright
    fun i => (hencodes.sourceIds i).trans (hperm.map _).mem_iff.symm
  have hlist : r'.sourceIds.toList = [s.id] := by
    have heq : r'.sourceIds = FlatSet.singleton s.id :=
      FlatSet.ext_mem fun i => (hids i).trans (by simp)
    rw [heq]
    rfl
  obtain ⟨src, hsrc, hid, x, hx, hsize, htake⟩ := create_right (b := b) hw hD hright' hlist
  rw [hid, hdata s (hmem s List.mem_cons_self)] at hx
  cases hx
  exact ⟨r, r', src, hr, hr', hlist, hsrc, hid, hsize, htake⟩

/-- The first of two sources is rebuilt without the other, which is longer. -/
theorem rebuild_exact_pair : ∃ r r' src,
    Detail.Encoder.encode .checked gf16 ⟨7, FlatSet.empty, 0#16, []⟩ [⟨2, [1]⟩, ⟨5, [2, 3]⟩] =
      .ok r ∧
    removeSourcesFromRepair .checked gf16 [⟨5, [2, 3], 2⟩] (r.received [8]) = .ok r' ∧
    r'.sourceIds.toList = [2] ∧ createSourceFromRepair .checked gf16 r' = .ok src ∧ src.id = 2 ∧
    src.symbolSize = 1 ∧ src.symbol.take src.symbolSize = [1] :=
  rebuild_exact (w := .w4) (s := ⟨2, [1]⟩) (by decide) 7 0#16 [] [8]
    (fun _ => []) (by decide) (by decide) (List.Perm.refl _)

end Detail.Decoder

end Netcode
