import Netcode.Packetizer

/-! What the readers make of the bytes the writers produce. -/
namespace Netcode

open Containers Encodings

theorem read_start_append (bs rest : List Byte) :
    (Reader.start (bs ++ rest)).read bs.length = .ok (ofBigEndian bs, Reader.start rest) := by
  simp [Reader.read, Reader.start]

@[simp] theorem read_bigEndian (n v : ℕ) (rest : List Byte) :
    (Reader.start (bigEndian n v ++ rest)).read n = .ok (v % 256 ^ n, Reader.start rest) := by
  have h := read_start_append (bigEndian n v) rest
  rwa [length_bigEndian, ofBigEndian_bigEndian] at h

@[simp] theorem read_byte (x : Byte) (rest : List Byte) :
    (Reader.start (x :: rest)).read 1 = .ok (x.toNat, Reader.start rest) := by
  simpa [ofBigEndian] using read_start_append [x] rest

@[simp] theorem skip_symbol (bs rest : List Byte) :
    (Reader.start (bs ++ rest)).skip bs.length = .ok (Reader.start rest) := by
  simp [Reader.skip, Reader.start]

/-- A pair as its fields of one and two bytes hold it. -/
def narrowPair (p : ℕ × ℕ) : ℕ × ℕ := (p.1 % 256, p.2 % 65536)

theorem readDifferences_writePair (ps : List (ℕ × ℕ)) (rest : List Byte) :
    readDifferences ps.length (Reader.start (ps.flatMap writePair ++ rest)) =
      .ok (expand (ps.map narrowPair), Reader.start rest) := by
  induction ps with
  | nil => rfl
  | cons p ps ih =>
    rw [List.length_cons, readDifferences, List.flatMap_cons, writePair, List.append_assoc,
      List.append_assoc, read_bigEndian]
    simp only [Runs.ok_bind, read_bigEndian, ih]
    rfl

theorem mem_idsOfList {l : List ℕ} {a : ℕ} : a ∈ idsOfList l ↔ a ∈ l := by
  have h : ∀ s : SourceIdList, a ∈ l.foldl FlatSet.insert s ↔ a ∈ s ∨ a ∈ l := by
    induction l with
    | nil => simp
    | cons b l ih =>
      intro s
      rw [List.foldl_cons, ih, FlatSet.mem_insert, List.mem_cons]
      tauto
  simp [idsOfList, h]

/-- The number of pairs the reader finds announced. -/
def announcedPairs (first : ℕ) (rest : List ℕ) : ℕ := ((rleBuffer first rest).length + 1) % 65536

/-- The identifier list the reader makes of a written one. -/
def decodedIds (ids : SourceIdList) : SourceIdList :=
  match ids.toList with
  | [] => FlatSet.empty
  | first :: rest =>
    if announcedPairs first rest = 0 then FlatSet.empty
    else idsOfList (first % 2 ^ 32 :: sumsFrom (2 ^ 32) (first % 2 ^ 32)
      (expand (((rleBuffer first rest).take (announcedPairs first rest - 1)).map narrowPair)))

/-- What the reader of a written identifier list leaves of it. -/
def leftIds (ids : SourceIdList) : List Byte :=
  match ids.toList with
  | [] => []
  | first :: rest =>
    if announcedPairs first rest = 0 then
      bigEndian 4 first ++ (rleBuffer first rest).flatMap writePair
    else ((rleBuffer first rest).drop (announcedPairs first rest - 1)).flatMap writePair

theorem announcedPairs_le (first : ℕ) (rest : List ℕ) :
    announcedPairs first rest - 1 ≤ (rleBuffer first rest).length := by
  rw [announcedPairs]
  have := Nat.mod_le ((rleBuffer first rest).length + 1) 65536
  omega

theorem readIds_writeIds (ids : SourceIdList) (rest : List Byte) :
    readIds (Reader.start (writeIds ids ++ rest)) =
      .ok (decodedIds ids, Reader.start (leftIds ids ++ rest)) := by
  rw [readIds, writeIds, decodedIds, leftIds]
  cases hids : ids.toList with
  | nil => simp
  | cons first l =>
    simp only [List.append_assoc, read_bigEndian, Runs.ok_bind]
    rw [show ((rleBuffer first l).length + 1) % 256 ^ 2 = announcedPairs first l from rfl]
    split
    · rfl
    · have hk := announcedPairs_le first l
      generalize hm : announcedPairs first l - 1 = k at hk ⊢
      have hlen : ((rleBuffer first l).take k).length = k := by simp [hk]
      have hread := readDifferences_writePair ((rleBuffer first l).take k)
        (((rleBuffer first l).drop k).flatMap writePair ++ rest)
      rw [hlen, ← List.append_assoc, ← List.flatMap_append, List.take_append_drop] at hread
      simp only [Runs.ok_bind, hread]
      rfl

/-- Differences between neighbours of a list. -/
def gaps : List ℕ → List ℕ
  | a :: b :: l => (b - a) :: gaps (b :: l)
  | _ => []

/-- The format's limits on identifier lists: differences between adjacent identifiers fit 16 bits,
and so does the number of pairs, the first identifier counted in. -/
def Encodable (ids : SourceIdList) : Prop :=
  (∀ d ∈ gaps ids.toList, d ≤ 65535) ∧ (runs 255 (gaps ids.toList)).length ≤ 65534

instance (ids : SourceIdList) : Decidable (Encodable ids) :=
  inferInstanceAs (Decidable ((∀ d ∈ gaps ids.toList, d ≤ 65535) ∧ _))

theorem gaps_eq_differences {m a : ℕ} {l : List ℕ} (hs : (a :: l).Pairwise (· < ·))
    (hl : ∀ b ∈ l, b < m) : gaps (a :: l) = differencesFrom m a l := by
  induction l generalizing a with
  | nil => rfl
  | cons b l ih =>
    rw [List.pairwise_cons] at hs
    have hab := hs.1 b List.mem_cons_self
    have hb := hl b List.mem_cons_self
    rw [gaps, differencesFrom, ih hs.2 fun c hc => hl c (List.mem_cons_of_mem b hc),
      show b + m - a = b - a + m by omega, Nat.add_mod_right, Nat.mod_eq_of_lt (by omega)]

theorem expand_map (f : ℕ → ℕ) (ps : List (ℕ × ℕ)) :
    expand (ps.map fun p => (p.1, f p.2)) = (expand ps).map f := by
  induction ps with
  | nil => rfl
  | cons p ps ih => simp [ih]

/-- The run lengths fit a byte, so that only the differences are narrowed. -/
theorem map_narrowPair_rleBuffer (first : ℕ) (rest : List ℕ) :
    (rleBuffer first rest).map narrowPair = rleBuffer first rest := by
  rw [rleBuffer, List.map_map]
  apply List.map_congr_left
  intro p hp
  have := runs_length_le (by decide) _ p hp
  simp only [Function.comp_apply, narrowPair, Prod.mk.injEq]
  omega

theorem expand_take_rleBuffer (first : ℕ) (rest : List ℕ) (k : ℕ) :
    expand (((rleBuffer first rest).take k).map narrowPair) =
      (expand ((runs 255 (differencesFrom (2 ^ 32) first rest)).take k)).map (· % 2 ^ 16) := by
  rw [List.map_take, map_narrowPair_rleBuffer, rleBuffer, ← List.map_take, ← expand_map]

theorem sum_narrow_le (l : List ℕ) : (l.map (· % 2 ^ 16)).sum ≤ l.sum := by
  induction l with
  | nil => simp
  | cons d l ih =>
    have := Nat.mod_le d (2 ^ 16)
    simp only [List.map_cons, List.sum_cons]
    omega

/-- Narrowing that keeps the sum keeps every element. -/
theorem narrow_eq_of_sum {l : List ℕ} (h : (l.map (· % 2 ^ 16)).sum = l.sum) :
    ∀ d ∈ l, d ≤ 65535 := by
  induction l with
  | nil => simp
  | cons d l ih =>
    have hd := Nat.mod_le d (2 ^ 16)
    have hl := sum_narrow_le l
    simp only [List.map_cons, List.sum_cons] at h
    intro e he
    rcases List.mem_cons.mp he with rfl | he
    · omega
    · exact ih (by omega) e he

/-- Narrowing keeps differences that fit 16 bits. -/
theorem map_narrow_of_le {l : List ℕ} (h : ∀ d ∈ l, d ≤ 65535) : l.map (· % 2 ^ 16) = l := by
  conv_rhs => rw [← List.map_id l]
  apply List.map_congr_left
  intro d hd
  have := h d hd
  exact Nat.mod_eq_of_lt (by omega)

section Lists

variable {ids : SourceIdList} {first : ℕ} {rest : List ℕ}

/-- The pairs announced stand for a part of the differences, the others for the rest of them. -/
theorem gaps_split (h32 : ∀ i ∈ ids, i < 2 ^ 32) (hids : ids.toList = first :: rest) (k : ℕ) :
    expand ((runs 255 (gaps ids.toList)).take k) ++ expand ((runs 255 (gaps ids.toList)).drop k) =
      differencesFrom (2 ^ 32) first rest ∧
    gaps ids.toList = differencesFrom (2 ^ 32) first rest := by
  have hs := ids.sorted
  have hr : ∀ i ∈ rest, i < 2 ^ 32 := fun i hi => h32 i (by
    rw [FlatSet.mem_iff, hids]
    exact List.mem_cons_of_mem _ hi)
  rw [hids] at hs ⊢
  rw [gaps_eq_differences hs hr, ← expand_append, List.take_append_drop, expand_runs]
  exact ⟨rfl, rfl⟩

/-- Identifiers whose differences fit 16 bits are read back, all of them or those of the first
pairs. -/
theorem decodedIds_subset (h32 : ∀ i ∈ ids, i < 2 ^ 32) (hgap : ∀ d ∈ gaps ids.toList, d ≤ 65535)
    {i : ℕ} (hi : i ∈ decodedIds ids) : i ∈ ids := by
  rw [decodedIds] at hi
  cases hids : ids.toList with
  | nil => simp [hids] at hi
  | cons first rest =>
    simp only [hids] at hi
    split at hi
    · simp at hi
    · generalize announcedPairs first rest - 1 = k at hi
      obtain ⟨hsplit, hg⟩ := gaps_split h32 hids k
      rw [hg] at hsplit hgap
      have hfirst : first < 2 ^ 32 := h32 first (by simp [FlatSet.mem_iff, hids])
      have hrest : ∀ j ∈ rest, j < 2 ^ 32 := fun j hj => h32 j (by simp [FlatSet.mem_iff, hids, hj])
      rw [mem_idsOfList, expand_take_rleBuffer, Nat.mod_eq_of_lt hfirst, map_narrow_of_le
        fun d hd => hgap d (hsplit ▸ List.mem_append_left _ hd)] at hi
      rw [FlatSet.mem_iff, hids]
      rcases List.mem_cons.mp hi with rfl | hi
      · exact List.mem_cons_self
      · have hsums := sumsFrom_differencesFrom hfirst hrest
        obtain ⟨l'', hl⟩ := sumsFrom_append (2 ^ 32) first
          (expand ((runs 255 (differencesFrom (2 ^ 32) first rest)).take k))
          (expand ((runs 255 (differencesFrom (2 ^ 32) first rest)).drop k))
        rw [hsplit, hsums] at hl
        rw [hl]
        exact List.mem_cons_of_mem _ (List.mem_append_left _ hi)

theorem decodedIds_of_encodable (h32 : ∀ i ∈ ids, i < 2 ^ 32) (h : Encodable ids) :
    decodedIds ids = ids := by
  apply FlatSet.ext_mem
  intro i
  refine ⟨decodedIds_subset h32 h.1, ?_⟩
  intro hi
  rw [FlatSet.mem_iff] at hi
  rw [decodedIds]
  cases hids : ids.toList with
  | nil => simp [hids] at hi
  | cons first rest =>
    obtain ⟨hgap, hlen⟩ := h
    obtain ⟨hsplit, hg⟩ := gaps_split h32 hids 0
    rw [hg] at hgap hlen
    rw [hids] at hi
    have hfirst : first < 2 ^ 32 := h32 first (by simp [FlatSet.mem_iff, hids])
    have hrest : ∀ j ∈ rest, j < 2 ^ 32 := fun j hj => h32 j (by simp [FlatSet.mem_iff, hids, hj])
    have hann : announcedPairs first rest = (rleBuffer first rest).length + 1 :=
      Nat.mod_eq_of_lt (by rw [rleBuffer, List.length_map]; omega)
    simp only [hann, Nat.add_one_ne_zero, if_false, Nat.add_sub_cancel]
    rw [mem_idsOfList, expand_take_rleBuffer, Nat.mod_eq_of_lt hfirst, rleBuffer, List.length_map,
      List.take_length, expand_runs, map_narrow_of_le hgap, sumsFrom_differencesFrom hfirst hrest]
    exact hi

/-- A list out of the format's limits loses its last identifier. -/
theorem encodable_of_decodedIds (h32 : ∀ i ∈ ids, i < 2 ^ 32) (h : decodedIds ids = ids) :
    Encodable ids := by
  rw [Encodable]
  cases hids : ids.toList with
  | nil => simp [gaps, runs]
  | cons first rest =>
    have hmem : ∀ i, i ∈ decodedIds ids ↔ i ∈ first :: rest := by
      intro i
      rw [h, FlatSet.mem_iff, hids]
    have hs := ids.sorted
    rw [hids] at hs
    have hfirst : first < 2 ^ 32 := h32 first (by simp [FlatSet.mem_iff, hids])
    have hrest : ∀ j ∈ rest, j < 2 ^ 32 := fun j hj => h32 j (by simp [FlatSet.mem_iff, hids, hj])
    obtain ⟨hpos, hsum⟩ := differencesFrom_of_sorted hs hrest
    rw [gaps_eq_differences hs hrest]
    have hlast := (hmem _).mpr (List.getLast_mem (List.cons_ne_nil first rest))
    simp only [decodedIds, hids] at hlast
    have hll : (first :: rest).getLast (List.cons_ne_nil first rest) < 2 ^ 32 := by
      rcases List.mem_cons.mp (List.getLast_mem (List.cons_ne_nil first rest)) with he | he
      · omega
      · exact hrest _ he
    split at hlast
    · simp at hlast
    · next hann =>
      obtain ⟨hsplit, hg⟩ := gaps_split h32 hids (announcedPairs first rest - 1)
      rw [hg] at hsplit
      rw [mem_idsOfList, expand_take_rleBuffer, Nat.mod_eq_of_lt hfirst] at hlast
      generalize hD : differencesFrom (2 ^ 32) first rest = D at *
      generalize hk : announcedPairs first rest - 1 = k at *
      have hle := sum_narrow_le (expand ((runs 255 D).take k))
      have hsums : D.sum = (expand ((runs 255 D).take k)).sum +
          (expand ((runs 255 D).drop k)).sum := by
        rw [← List.sum_append, hsplit]
      have hup : (first :: rest).getLast (List.cons_ne_nil first rest) ≤
          first + ((expand ((runs 255 D).take k)).map (· % 2 ^ 16)).sum := by
        rcases List.mem_cons.mp hlast with he | he
        · omega
        · exact (mem_sumsFrom (by omega) he).2
      have hdrop : (runs 255 D).drop k = [] := by
        rw [List.eq_nil_iff_forall_not_mem]
        intro p hp
        have hp1 := (runs_length_le (by decide) D p (List.mem_of_mem_drop hp)).1
        have hmemp : p.2 ∈ expand ((runs 255 D).drop k) :=
          List.mem_flatMap.mpr ⟨p, hp, List.mem_replicate.mpr ⟨by omega, rfl⟩⟩
        have hpp := hpos p.2 (hsplit ▸ List.mem_append_right _ hmemp)
        have := List.single_le_sum (by simp) p.2 hmemp
        omega
      have htake : (runs 255 D).take k = runs 255 D := by
        have := List.take_append_drop k (runs 255 D)
        rwa [hdrop, List.append_nil] at this
      rw [htake, expand_runs] at hle hup hsums
      refine ⟨narrow_eq_of_sum (by omega), ?_⟩
      have hlen : (runs 255 D).length ≤ k := List.drop_eq_nil_iff.mp hdrop
      rw [announcedPairs, rleBuffer, List.length_map, hD] at hk
      omega

/-- A written identifier list is read back if and only if it is within the format's limits. -/
theorem decodedIds_eq_iff (h32 : ∀ i ∈ ids, i < 2 ^ 32) : decodedIds ids = ids ↔ Encodable ids :=
  ⟨encodable_of_decodedIds h32, decodedIds_of_encodable h32⟩

end Lists

/-- Without a limit broken, the reader consumes the whole of a written list. -/
theorem leftIds_of_encodable {ids : SourceIdList} (h32 : ∀ i ∈ ids, i < 2 ^ 32)
    (h : Encodable ids) : leftIds ids = [] := by
  rw [leftIds]
  cases hids : ids.toList with
  | nil => rfl
  | cons first rest =>
    obtain ⟨_, hlen⟩ := h
    rw [(gaps_split h32 hids 0).2] at hlen
    have hann : announcedPairs first rest = (rleBuffer first rest).length + 1 :=
      Nat.mod_eq_of_lt (by rw [rleBuffer, List.length_map]; omega)
    simp [hann]

/-- The values the types of the fields of a packet's source allow, and the lengths of symbols
the two bytes of a size allow. -/
def WirePacket.InRange : WirePacket → Prop
  | ack a => a.InRange
  | repair r => r.InRange ∧ 0 < r.symbol.length ∧ r.symbol.length ≤ 65535
  | source s => s.id < 2 ^ 32 ∧ s.symbol.length ≤ 65535

/-- The identifier list of a packet is within the format's limits. -/
def WirePacket.EncodableIds : WirePacket → Prop
  | ack a => Encodable a.sourceIds
  | repair r => Encodable r.sourceIds
  | source _ => True

instance : (p : WirePacket) → Decidable p.EncodableIds
  | .ack a => inferInstanceAs (Decidable (Encodable a.sourceIds))
  | .repair r => inferInstanceAs (Decidable (Encodable r.sourceIds))
  | .source _ => inferInstanceAs (Decidable True)

/-- Reading the bytes written for a packet returns its fields. -/
def WirePacket.ReadsBack (b : Build) : WirePacket → Prop
  | ack a => ∃ n, readAck b (writeAck a) = .ok (a, n)
  | repair r => ∃ bytes r' n, writeRepair b r = .ok bytes ∧ readRepair b bytes = .ok (r', n) ∧
      r'.id = r.id ∧ r'.sourceIds = r.sourceIds ∧ r'.encodedSize = r.encodedSize ∧
      r'.symbolSize = r.symbol.length ∧ r'.symbol.take r'.symbolSize = r.symbol
  | source s => ∃ s' n, readSource b (writeSource s) = .ok (s', n) ∧
      s'.id = s.id ∧ s'.symbolSize = s.symbol.length ∧ s'.symbol.take s'.symbolSize = s.symbol

variable {b : Build} {a : Ack} {r : EncoderRepair} {s : EncoderSource} {p : WirePacket}

theorem assertPacketType_code (b : Build) (ty : PacketType) (bs : List Byte) :
    assertPacketType b (ty.code :: bs) ty = .ok () := by
  cases ty <;> simp [assertPacketType, getPacketType, PacketType.code, Except.mapError]

theorem readAck_writeAck (b : Build) (a : Ack) : readAck b (writeAck a) =
    .ok (⟨decodedIds a.sourceIds, a.nbPackets % 256 ^ 2⟩,
      (writeAck a).length - (leftIds a.sourceIds).length) := by
  have hids := readIds_writeIds a.sourceIds []
  rw [List.append_nil, List.append_nil] at hids
  rw [readAck, writeAck, assertPacketType_code]
  simp only [Runs.ok_bind, read_byte, read_bigEndian, hids]
  rfl

theorem read_start_of_le {n : ℕ} {bs : List Byte} (h : n ≤ bs.length) :
    (Reader.start bs).read n = .ok (ofBigEndian (bs.take n), Reader.start (bs.drop n)) := by
  simp [Reader.read, Reader.start, Nat.not_lt.mpr h]

/-- What follows the identifier list of a repair. -/
def repairTrailer (r : EncoderRepair) : List Byte :=
  bigEndian 2 r.encodedSize.toNat ++ (bigEndian 2 r.symbol.length ++ r.symbol)

/-- Reading a written repair succeeds; its encoded size is read after what is left of its
identifier list. -/
theorem readRepair_repairBytes (b : Build) (hlen : r.symbol.length ≤ 65535) :
    readRepair b (repairBytes r) = .ok (⟨r.id % 256 ^ 4, decodedIds r.sourceIds,
        BitVec.ofNat 16 (ofBigEndian ((leftIds r.sourceIds ++ repairTrailer r).take 2)),
        r.symbol ++ (writeIds r.sourceIds ++ repairTrailer r), r.symbol.length⟩,
      (repairBytes r).length - ((leftIds r.sourceIds ++ repairTrailer r).length - 2)) := by
  have htwo : 2 ≤ (leftIds r.sourceIds ++ repairTrailer r).length := by
    simp only [repairTrailer, List.length_append, length_bigEndian]
    omega
  have hsize : r.symbol.length % 256 ^ 2 = r.symbol.length := Nat.mod_eq_of_lt (by omega)
  rw [readRepair, repairBytes, assertPacketType_code]
  simp only [Runs.ok_bind, read_byte, read_bigEndian, hsize, skip_symbol]
  rw [← repairTrailer, readIds_writeIds, Runs.ok_bind]
  simp only [read_start_of_le htwo, Runs.ok_bind]
  simp [Reader.start, bigEndian]

/-- Reading a written repair whose identifier list is within the format's limits returns its
fields. -/
theorem readRepair_encodable (b : Build) (hid : r.id < 2 ^ 32) (h32 : ∀ i ∈ r.sourceIds, i < 2 ^ 32)
    (hlen : r.symbol.length ≤ 65535) (he : Encodable r.sourceIds) : ∃ rest n,
    readRepair b (repairBytes r) =
      .ok (⟨r.id, r.sourceIds, r.encodedSize, r.symbol ++ rest, r.symbol.length⟩, n) := by
  have hsize : BitVec.ofNat 16 (ofBigEndian ((leftIds r.sourceIds ++ repairTrailer r).take 2)) =
      r.encodedSize := by
    rw [leftIds_of_encodable h32 he, List.nil_append, repairTrailer,
      List.take_left' (length_bigEndian 2 _), ofBigEndian_bigEndian]
    apply BitVec.eq_of_toNat_eq
    have := r.encodedSize.isLt
    simp only [BitVec.toNat_ofNat]
    omega
  have hid' : r.id % 256 ^ 4 = r.id := Nat.mod_eq_of_lt hid
  rw [readRepair_repairBytes b hlen, decodedIds_of_encodable h32 he, hsize, hid']
  exact ⟨_, _, rfl⟩

theorem readSource_writeSource (b : Build) (hlen : s.symbol.length ≤ 65535) :
    readSource b (writeSource s) =
      .ok (⟨s.id % 256 ^ 4, s.symbol, s.symbol.length⟩, (writeSource s).length) := by
  have hsize : s.symbol.length % 256 ^ 2 = s.symbol.length := Nat.mod_eq_of_lt (by omega)
  have hskip := skip_symbol s.symbol []
  rw [List.append_nil] at hskip
  rw [readSource, writeSource, assertPacketType_code]
  simp only [Runs.ok_bind, read_byte, read_bigEndian, hsize, hskip]
  simp [Reader.start, bigEndian]

theorem ack_readsBack_iff (h : a.InRange) :
    (WirePacket.ack a).ReadsBack b ↔ Encodable a.sourceIds := by
  rw [← decodedIds_eq_iff h.1, WirePacket.ReadsBack, readAck_writeAck]
  have hn : a.nbPackets % 256 ^ 2 = a.nbPackets := Nat.mod_eq_of_lt h.2
  rw [hn]
  constructor
  · rintro ⟨n, hr⟩
    exact congrArg (fun v => v.1.sourceIds) (Except.ok.inj hr)
  · intro hd
    exact ⟨_, by rw [hd]⟩

theorem repair_readsBack_iff (h : (WirePacket.repair r).InRange) :
    (WirePacket.repair r).ReadsBack b ↔ Encodable r.sourceIds := by
  obtain ⟨⟨hid, h32⟩, hpos, hlen⟩ := h
  have hw : writeRepair b r = .ok (repairBytes r) := by simp [writeRepair, hpos]
  constructor
  · rintro ⟨bytes, r', n, hw', hr, -, hids, -⟩
    rw [hw] at hw'
    cases hw'
    rw [readRepair_repairBytes b hlen] at hr
    cases hr
    exact encodable_of_decodedIds h32 hids
  · intro he
    obtain ⟨rest, n, hread⟩ := readRepair_encodable b hid h32 hlen he
    exact ⟨_, _, n, hw, hread, rfl, rfl, rfl, rfl, List.take_left⟩

theorem source_readsBack (h : (WirePacket.source s).InRange) :
    (WirePacket.source s).ReadsBack b :=
  ⟨_, _, readSource_writeSource b h.2, Nat.mod_eq_of_lt h.1, rfl, List.take_length⟩

/-- A packet is read back from its bytes if and only if its identifier list is within the format's
limits. -/
theorem readsBack_iff_encodableIds (h : p.InRange) : p.ReadsBack b ↔ p.EncodableIds := by
  cases p with
  | ack a => exact ack_readsBack_iff h
  | repair r => exact repair_readsBack_iff h
  | source s => exact iff_of_true (source_readsBack h) trivial

def repair42 : EncoderRepair := ⟨42, ⟨[1, 2, 3, 4], by decide⟩, 54, [97, 98, 99]⟩

theorem repair42_inRange : (WirePacket.repair repair42).InRange := by
  simp [WirePacket.InRange, EncoderRepair.InRange, FlatSet.mem_iff, repair42]

/-- A difference of 70000 is narrowed, one of 1 is not. -/
theorem readsBack_repair42 : (WirePacket.repair repair42).ReadsBack .debug ∧
    ¬ (WirePacket.ack ⟨⟨[0, 70000], by decide⟩, 1⟩).ReadsBack .debug :=
  ⟨(readsBack_iff_encodableIds repair42_inRange).mpr (by decide),
    fun h => absurd ((readsBack_iff_encodableIds
      (by simp [WirePacket.InRange, Ack.InRange, FlatSet.mem_iff])).mp h) (by decide)⟩

/-- The bytes read are the bytes written exactly for acknowledgements and sources: the second copy
of a repair's symbol is not accounted for. -/
theorem bytesRead_eq_length_iff (h : p.InRange) (he : p.EncodableIds) :
    p.bytesRead b = .ok p.bytes.length ↔ ∀ r, p ≠ .repair r := by
  cases p with
  | ack a =>
    simp [WirePacket.bytesRead, WirePacket.bytes, readAck_writeAck, leftIds_of_encodable h.1 he,
      Except.map]
  | repair r =>
    have hpos := h.2.1
    simp only [WirePacket.bytesRead, WirePacket.bytes, readRepair_repairBytes b h.2.2, Except.map,
      leftIds_of_encodable h.1.2 he, List.nil_append, repairTrailer, Except.ok.injEq]
    refine iff_of_false ?_ fun hne => hne r rfl
    simp only [repairBytes, List.length_cons, List.length_append, length_bigEndian]
    omega
  | source s =>
    simp [WirePacket.bytesRead, WirePacket.bytes, readSource_writeSource b h.2, Except.map]

theorem bytesRead_eq_length_repair42 :
    ¬ (WirePacket.repair repair42).bytesRead .debug = .ok (repairBytes repair42).length :=
  fun h => (bytesRead_eq_length_iff repair42_inRange (by decide)).mp h repair42 rfl

/-- Of the 26 bytes of a repair, 21 are accounted for. -/
theorem repair42_not_selfDelimiting : (WirePacket.repair repair42).InRange ∧
    (WirePacket.repair repair42).EncodableIds ∧ (repairBytes repair42).length = 26 ∧
    (WirePacket.repair repair42).bytesRead .debug = .ok 21 :=
  ⟨repair42_inRange, by decide, by decide, by decide⟩

end Netcode
