import Netcode.Encoder
import Netcode.Regions
import Netcode.Gf16

/-! What the sources and the repairs an encoder sends carry of the data committed to it. -/
namespace Netcode

open Containers Encodings Combinations Runs

variable {w : FieldSize} {b : Build} {g : GfComplete w} {D D' : ℕ → Option (List Byte)}
  {x : List Byte} {i n id : ℕ} {ids : FlatSet ℕ} {encodedSize : BitVec 16} {symbol : List Byte}
  {size : ℕ}

/-- Data whose length fits 16 bits and is a multiple of the word size. -/
def Sendable (w : FieldSize) (x : List Byte) : Prop :=
  0 < x.length ∧ x.length ≤ 65535 ∧ w.wordBytes ∣ x.length

instance (w : FieldSize) (x : List Byte) : Decidable (Sendable w x) :=
  inferInstanceAs (Decidable (_ ∧ _ ∧ _))

/-- The words of the data with an identifier. -/
def dataVec (g : GfComplete w) (D : ℕ → Option (List Byte)) (i : ℕ) : ℕ → Gf g :=
  vec g ((D i).getD [])

/-- The words of the length of the data with an identifier. -/
def lengthVec (g : GfComplete w) (D : ℕ → Option (List Byte)) (i : ℕ) : ℕ → Gf g :=
  sizeVec g (BitVec.ofNat 16 ((D i).getD []).length)

/-- An encoded size and the first `size` bytes of a symbol combine the data with these
identifiers. -/
structure Combines (g : GfComplete w) (D : ℕ → Option (List Byte)) (id : ℕ) (ids : FlatSet ℕ)
    (encodedSize : BitVec 16) (symbol : List Byte) (size : ℕ) : Prop where
  committed : ∀ i ∈ ids, ∃ x, D i = some x ∧ x.length ≤ size
  aligned : w.wordBytes ∣ size
  stored : size ≤ symbol.length
  sizes : sizeVec g encodedSize = combination (coef g id) ids.toFinset (lengthVec g D)
  words : vec g (symbol.take size) = combination (coef g id) ids.toFinset (dataVec g D)

theorem dataVec_eq (h : D i = some x) : dataVec g D i = vec g x := by
  rw [dataVec, h, Option.getD_some]

theorem lengthVec_eq (h : D i = some x) :
    lengthVec g D i = sizeVec g (BitVec.ofNat 16 x.length) := by
  rw [lengthVec, h, Option.getD_some]

/-- Data committed later changes nothing. -/
theorem Combines.extend (hD : ∀ i x, D i = some x → D' i = some x)
    (h : Combines g D id ids encodedSize symbol size) :
    Combines g D' id ids encodedSize symbol size := by
  have hdata : ∀ i ∈ ids.toFinset, dataVec g D i = dataVec g D' i ∧
      lengthVec g D i = lengthVec g D' i := by
    intro i hi
    obtain ⟨x, hx, -⟩ := h.committed i (FlatSet.mem_toFinset.mp hi)
    have hx' := hD i x hx
    exact ⟨(dataVec_eq hx).trans (dataVec_eq hx').symm,
      (lengthVec_eq hx).trans (lengthVec_eq hx').symm⟩
  refine ⟨fun i hi => ?_, h.aligned, h.stored, ?_, ?_⟩
  · obtain ⟨x, hx, hle⟩ := h.committed i hi
    exact ⟨x, hD i x hx, hle⟩
  · exact h.sizes.trans (combination_congr fun i hi => (hdata i hi).2)
  · exact h.words.trans (combination_congr fun i hi => (hdata i hi).1)

/-- A repair combines the data of the sources it lists. -/
structure EncoderRepair.Right (g : GfComplete w) (D : ℕ → Option (List Byte)) (r : EncoderRepair) :
    Prop where
  id : r.id < 2 ^ 32
  length : r.symbol.length ≤ 65535
  combines : Combines g D r.id r.sourceIds r.encodedSize r.symbol r.symbol.length

/-- A repair is the linear code of a list of sources: its symbol is as long as the longest one. -/
structure EncoderRepair.Encodes (g : GfComplete w) (repairId : ℕ) (sources : List EncoderSource)
    (r : EncoderRepair) : Prop where
  id : r.id = repairId
  sourceIds : ∀ i, i ∈ r.sourceIds ↔ i ∈ sources.map EncoderSource.id
  longest : IsGreatest {n | ∃ s ∈ sources, s.symbol.length = n} r.symbol.length
  words : vec g r.symbol = (sources.map fun s => coef g repairId s.id • vec g s.symbol).sum
  encodedSize : r.encodedSize = (sources.map fun s => multiplySize g
    (BitVec.ofNat 16 s.symbol.length) (coefficient w repairId s.id)).foldl (· ^^^ ·) 0#16

namespace Detail.Encoder

variable {src : EncoderSource} {repair r : EncoderRepair} {sources : List EncoderSource}

theorem size_eq (hsend : Sendable w src.symbol) : src.size = src.symbol.length :=
  Nat.mod_eq_of_lt (by have := hsend.2.1; omega)

theorem resize_eq {symbol : List Byte} (h : symbol.length ≤ n) :
    resize symbol n = symbol ++ List.replicate (n - symbol.length) 0#8 := by
  rw [resize, List.take_of_length_le h]

theorem length_resize (symbol : List Byte) (n : ℕ) : (resize symbol n).length = n := by
  simp only [resize, List.length_append, List.length_take, List.length_replicate]
  omega

/-- The buffer of a repair is made long enough for a source, with zeros. -/
theorem buffer_spec (symbol : List Byte) (n : ℕ) :
    (if symbol.length < n then resize symbol n else symbol).length = max symbol.length n ∧
      vec g (if symbol.length < n then resize symbol n else symbol) = vec g symbol := by
  split
  · next hlt => exact ⟨by rw [length_resize, max_eq_right hlt.le],
      by rw [resize_eq hlt.le, vec_append_zeros]⟩
  · next hge => exact ⟨(max_eq_left (not_lt.mp hge)).symm, rfl⟩

/-- Adding a source to the code of others. -/
theorem addSource_encodes (hsend : Sendable w src.symbol) (hr : repair.Encodes g id sources) :
    ∃ r, addSource g repair src = .ok r ∧ r.Encodes g id (sources ++ [src]) := by
  obtain ⟨hlen, hvec⟩ := buffer_spec (g := g) repair.symbol src.symbol.length
  obtain ⟨s, hs⟩ : ∃ s, multiplyAdd g src.symbol
      (if repair.symbol.length < src.symbol.length then resize repair.symbol src.symbol.length
        else repair.symbol) src.symbol.length (coefficient w repair.id src.id) = .ok s :=
    ⟨_, multiplyAdd_ok_iff.mpr ⟨hsend.2.2, le_rfl, hlen ▸ le_max_right _ _, rfl⟩⟩
  obtain ⟨hslen, hsvec⟩ := vec_multiplyAdd hs
  rw [List.take_length, hvec, hr.words] at hsvec
  refine ⟨{ repair with
    sourceIds := repair.sourceIds.insert src.id
    symbol := s
    encodedSize := multiplySize g (BitVec.ofNat 16 src.symbol.length)
      (coefficient w repair.id src.id) ^^^ repair.encodedSize },
    by simp only [addSource, size_eq hsend, hs, ok_bind], hr.id, fun i => ?_, ⟨?_, ?_⟩, ?_, ?_⟩
  · rw [FlatSet.mem_insert, hr.sourceIds, List.map_append, List.mem_append, List.map_singleton,
      List.mem_singleton, or_comm]
  · show ∃ t ∈ sources ++ [src], t.symbol.length = s.length
    rw [hslen, hlen]
    rcases max_choice repair.symbol.length src.symbol.length with hm | hm
    · obtain ⟨t, ht, heq⟩ := hr.longest.1
      exact ⟨t, List.mem_append_left _ ht, heq.trans hm.symm⟩
    · exact ⟨src, List.mem_append_right _ (List.mem_singleton_self src), hm.symm⟩
  · rintro n ⟨t, ht, rfl⟩
    show t.symbol.length ≤ s.length
    rw [hslen, hlen]
    rcases List.mem_append.mp ht with ht | ht
    · exact (hr.longest.2 ⟨t, ht, rfl⟩).trans (le_max_left _ _)
    · rw [List.mem_singleton.mp ht]
      exact le_max_right _ _
  · rw [hsvec, List.map_append, List.sum_append, List.map_singleton, List.sum_singleton, hr.id,
      add_comm]
    rfl
  · rw [List.map_append, List.foldl_append, ← hr.encodedSize, hr.id]
    exact BitVec.xor_comm _ _

/-- Filling a repair whose list of identifiers is empty returns, whatever its encoded size and its
symbol were. -/
theorem encode_encodes (hne : sources ≠ []) (hsend : ∀ s ∈ sources, Sendable w s.symbol)
    (hid : repair.id = id) (hempty : repair.sourceIds = FlatSet.empty) :
    ∃ r, encode b g repair sources = .ok r ∧ r.Encodes g id sources := by
  cases sources with
  | nil => exact absurd rfl hne
  | cons src sources =>
    have hs := hsend src List.mem_cons_self
    obtain ⟨s, hm⟩ : ∃ s, multiply g src.symbol (resize repair.symbol src.symbol.length)
        src.symbol.length (coefficient w repair.id src.id) = .ok s :=
      ⟨_, multiply_ok_iff.mpr ⟨hs.2.2, le_rfl, (length_resize _ _).ge, rfl⟩⟩
    obtain ⟨hlen, hvec⟩ := vec_multiply_exact (length_resize _ _) hm
    rw [List.take_length] at hvec
    have hfirst : EncoderRepair.Encodes g id [src] { repair with
        sourceIds := repair.sourceIds.insert src.id
        symbol := s
        encodedSize := multiplySize g (BitVec.ofNat 16 src.symbol.length)
          (coefficient w repair.id src.id) } := by
      refine ⟨hid, fun i => ?_, ⟨⟨src, List.mem_singleton_self src, hlen.symm⟩, ?_⟩, ?_, ?_⟩
      · rw [hempty, FlatSet.mem_insert, List.map_singleton, List.mem_singleton]
        exact or_iff_left FlatSet.not_mem_empty
      · rintro n ⟨t, ht, rfl⟩
        rw [List.mem_singleton.mp ht]
        exact hlen.ge
      · rw [hvec, hid, List.map_singleton, List.sum_singleton]
        rfl
      · rw [hid]
        exact BitVec.zero_xor.symm
    have hrun := foldlM_ok_induction (f := addSource g) (l := sources)
      (fun l u => (∀ s ∈ l, Sendable w s.symbol) ∧ ∃ done, src :: sources = done ++ l ∧
        u.Encodes g id done) ?_
      ⟨fun s hs => hsend s (List.mem_cons_of_mem src hs), [src], rfl, hfirst⟩
    · obtain ⟨r, hr, -, done, hdone, henc⟩ := hrun
      refine ⟨r, by simp only [encode, size_eq hs, List.isEmpty_cons, Bool.not_false,
        Build.assert_true, hm, ok_bind, hr], ?_⟩
      rwa [hdone, List.append_nil]
    · rintro a l u ⟨hl, done, hdone, hu⟩
      obtain ⟨v, hv, henc⟩ := addSource_encodes (hl a List.mem_cons_self) hu
      exact ⟨v, hv, fun s hs => hl s (List.mem_cons_of_mem a hs), done ++ [a],
        by rw [hdone, List.append_assoc, List.singleton_append], henc⟩

end Detail.Encoder

namespace EncoderRepair.Encodes

variable {r r' : EncoderRepair} {sources : List EncoderSource}

/-- There is only one code of a list of sources. -/
theorem unique (h : r.Encodes g id sources) (h' : r'.Encodes g id sources) : r = r' := by
  obtain ⟨i, ids, z, s⟩ := r
  obtain ⟨i', ids', z', s'⟩ := r'
  obtain rfl : i = i' := h.id.trans h'.id.symm
  obtain rfl : ids = ids' :=
    FlatSet.ext_mem fun k => (h.sourceIds k).trans (h'.sourceIds k).symm
  obtain rfl : z = z' := h.encodedSize.trans h'.encodedSize.symm
  obtain rfl : s = s' :=
    vec_injective g (h.longest.unique h'.longest) (h.words.trans h'.words.symm)
  rfl

/-- It lists the identifiers of sources that are in order. -/
theorem toList_eq (h : r.Encodes g id sources)
    (hsorted : (sources.map EncoderSource.id).Pairwise (· < ·)) :
    r.sourceIds.toList = sources.map EncoderSource.id := by
  have heq : r.sourceIds = ⟨sources.map EncoderSource.id, hsorted⟩ :=
    FlatSet.ext_mem fun i => h.sourceIds i
  rw [heq]

/-- The words of the lengths of the sources combine in its encoded size. -/
theorem sizes (hw : w ≠ .w32) (h : r.Encodes g id sources) : sizeVec g r.encodedSize =
    (sources.map fun s => coef g id s.id • sizeVec g (BitVec.ofNat 16 s.symbol.length)).sum := by
  have hfold : ∀ (l : List EncoderSource) (z : BitVec 16), sizeVec g ((l.map fun s => multiplySize g
        (BitVec.ofNat 16 s.symbol.length) (coefficient w id s.id)).foldl (· ^^^ ·) z) =
      sizeVec g z +
        (l.map fun s => coef g id s.id • sizeVec g (BitVec.ofNat 16 s.symbol.length)).sum := by
    intro l
    induction l with
    | nil => exact fun z => (add_zero _).symm
    | cons s l ih =>
      intro z
      rw [List.map_cons, List.foldl_cons, ih, sizeVec_xor_add, sizeVec_multiplySize_smul hw,
        List.map_cons, List.sum_cons, add_assoc]
      rfl
  rw [h.encodedSize, hfold, show sizeVec g 0#16 = 0 from funext (sizeVec_zero g), zero_add]

/-- The code of committed sources combines their data. -/
theorem combines (hw : w ≠ .w32) (h : r.Encodes g id sources)
    (hsend : ∀ s ∈ sources, Sendable w s.symbol) (hsrc : ∀ s ∈ sources, D s.id = some s.symbol)
    (hdistinct : (sources.map EncoderSource.id).Nodup) :
    Combines g D r.id r.sourceIds r.encodedSize r.symbol r.symbol.length := by
  have hids : r.sourceIds.toFinset = (sources.map EncoderSource.id).toFinset :=
    Finset.ext fun i => by rw [FlatSet.mem_toFinset, h.sourceIds, List.mem_toFinset]
  have hcombination : ∀ f : ℕ → ℕ → Gf g, combination (coef g r.id) r.sourceIds.toFinset f =
      (sources.map fun s => coef g id s.id • f s.id).sum := by
    intro f
    rw [combination, hids, List.sum_toFinset _ hdistinct, h.id, List.map_map]
    rfl
  obtain ⟨t, ht, hlen⟩ := h.longest.1
  refine ⟨fun i hi => ?_, hlen ▸ (hsend t ht).2.2, le_rfl, ?_, ?_⟩
  · obtain ⟨s, hs, rfl⟩ := List.mem_map.mp ((h.sourceIds i).mp hi)
    exact ⟨s.symbol, hsrc s hs, h.longest.2 ⟨s, hs, rfl⟩⟩
  · rw [hcombination, h.sizes hw]
    exact congrArg List.sum (List.map_congr_left fun s hs => by rw [lengthVec_eq (hsrc s hs)])
  · rw [List.take_length, hcombination, h.words]
    exact congrArg List.sum (List.map_congr_left fun s hs => by rw [dataVec_eq (hsrc s hs)])

theorem right (hw : w ≠ .w32) (h : r.Encodes g id sources) (hid : id < 2 ^ 32)
    (hsend : ∀ s ∈ sources, Sendable w s.symbol) (hsrc : ∀ s ∈ sources, D s.id = some s.symbol)
    (hdistinct : (sources.map EncoderSource.id).Nodup) : r.Right g D := by
  obtain ⟨t, ht, hlen⟩ := h.longest.1
  exact ⟨h.id ▸ hid, hlen ▸ (hsend t ht).2.1, h.combines hw hsend hsrc hdistinct⟩

end EncoderRepair.Encodes

namespace Encoder

variable {e e' : Encoder} {sources : List EncoderSource} {r : EncoderRepair}

/-- What generating a repair changes. -/
def withRepair (r : EncoderRepair) (e : Encoder) : Encoder :=
  { e with
    repair := r
    currentRepairId := (e.currentRepairId + 1) % 2 ^ 32
    nbSentRepairs := e.nbSentRepairs + 1
    nbSentPackets := (e.nbSentPackets + 1) % 2 ^ 16
    sent := e.sent ++ [.repair r] }

theorem generateRepair_ok_iff : generateRepair b g e = .ok e' ↔ ∃ r,
    Detail.Encoder.encode b g ⟨e.currentRepairId, FlatSet.empty, e.repair.encodedSize, []⟩ e.sources =
      .ok r ∧ (b.asserts = true → 0 < r.symbol.length) ∧ e' = e.withRepair r := by
  simp only [generateRepair, mkRepair, bind_ok_iff, Except.ok.injEq, Build.assert_ok_iff,
    decide_eq_true_eq]
  constructor
  · rintro ⟨e1, ⟨-, -, r, hr, rfl⟩, -, hlen, rfl⟩
    exact ⟨r, hr, hlen, rfl⟩
  · rintro ⟨r, hr, hlen, rfl⟩
    refine ⟨_, ⟨(), fun hb => ?_, r, hr, rfl⟩, (), hlen, rfl⟩
    have h := hr
    simp only [Detail.Encoder.encode, bind_ok_iff] at h
    obtain ⟨_, ha, -⟩ := h
    exact Build.assert_ok_iff.mp ha hb

/-- Generating a repair of sendable sources returns their code, whatever the recycled repair was. -/
theorem generateRepair_encodes (hne : e.sources ≠ [])
    (hsend : ∀ s ∈ e.sources, Sendable w s.symbol) : ∃ r, r.Encodes g e.currentRepairId e.sources ∧
      ∀ b, generateRepair b g e = .ok (e.withRepair r) := by
  have hencode : ∀ b, ∃ r, Detail.Encoder.encode b g
      ⟨e.currentRepairId, FlatSet.empty, e.repair.encodedSize, []⟩ e.sources = .ok r ∧
      r.Encodes g e.currentRepairId e.sources :=
    fun b => Detail.Encoder.encode_encodes hne hsend rfl rfl
  obtain ⟨r, -, hr⟩ := hencode .release
  refine ⟨r, hr, fun b => generateRepair_ok_iff.mpr ?_⟩
  obtain ⟨r', h', hr'⟩ := hencode b
  obtain rfl := hr.unique hr'
  obtain ⟨s, hs, hlen⟩ := hr.longest.1
  exact ⟨r, h', fun _ => hlen ▸ (hsend s hs).1, rfl⟩

/-- A repair is a pure linear code of the current window: whatever an encoder has sent before, and
whatever the repair it recycles holds, the sources and the identifier determine the repair. -/
theorem generateRepair_code (id : ℕ) (hne : sources ≠ [])
    (hsorted : (sources.map EncoderSource.id).Pairwise (· < ·))
    (hsend : ∀ s ∈ sources, Sendable w s.symbol) : ∃ r, r.Encodes g id sources ∧
      r.sourceIds.toList = sources.map EncoderSource.id ∧
      ∀ b e, e.sources = sources → e.currentRepairId = id →
        ∃ e', generateRepair b g e = .ok e' ∧ e'.repair = r ∧ e'.sent = e.sent ++ [.repair r] := by
  obtain ⟨r, hr, -⟩ := generateRepair_encodes (g := g)
    (e := { initial with sources := sources, currentRepairId := id }) hne hsend
  refine ⟨r, hr, hr.toList_eq hsorted, ?_⟩
  rintro b e rfl rfl
  obtain ⟨r', hr', h⟩ := generateRepair_encodes (g := g) hne hsend
  obtain rfl := hr.unique hr'
  exact ⟨_, h b, rfl, rfl⟩

/-- A longer source follows a shorter one. -/
theorem generateRepair_code_longer :
    ∃ r, r.Encodes gf16 7 [⟨2, [1]⟩, ⟨5, [2, 3]⟩] ∧ r.sourceIds.toList = [2, 5] ∧
      ∀ b e, e.sources = [⟨2, [1]⟩, ⟨5, [2, 3]⟩] → e.currentRepairId = 7 →
        ∃ e', generateRepair b gf16 e = .ok e' ∧ e'.repair = r ∧ e'.sent = e.sent ++ [.repair r] :=
  generateRepair_code 7 (by decide) (by decide) (by decide)

end Encoder

end Netcode
