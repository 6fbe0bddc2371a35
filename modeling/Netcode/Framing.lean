import Netcode.Decoder
import Netcode.PacketFormat
import Netcode.Reading
import Netcode.Window

/-! Which packets the readers accept, what they find in them, and what a rejected packet leaves. -/
namespace Netcode

open Containers Encodings Runs

variable {b : Build} {p : List Byte} {n o k : ℕ}

/-- The integer in the `n` bytes of a packet from position `o` on. -/
def fieldAt (p : List Byte) (o n : ℕ) : ℕ := ofBigEndian ((p.drop o).take n)

/-- A reader at a position of a packet. -/
def Reader.at (p : List Byte) (o : ℕ) : Reader := ⟨p.drop o, p.length - o⟩

theorem Reader.start_eq (p : List Byte) : Reader.start p = Reader.at p 0 := rfl

@[simp] theorem maxLen_at (p : List Byte) (o : ℕ) : (Reader.at p o).maxLen = p.length - o := rfl

@[simp] theorem length_data_at (p : List Byte) (o : ℕ) :
    (Reader.at p o).data.length = p.length - o := List.length_drop

theorem advance_at (p : List Byte) (o n : ℕ) :
    (⟨(Reader.at p o).data.drop n, (Reader.at p o).maxLen - n⟩ : Reader) = Reader.at p (o + n) := by
  rw [Reader.at, Reader.at, List.drop_drop, Nat.sub_sub]

/-- Nothing is read past the end. -/
theorem read_at (ho : o ≤ p.length) : (Reader.at p o).read n =
    if o + n ≤ p.length then .ok (fieldAt p o n, Reader.at p (o + n))
    else .error (.thrown .overflowError) := by
  rw [Reader.read, advance_at]
  by_cases h : o + n ≤ p.length
  · rw [if_neg (by rw [maxLen_at]; omega), if_neg (by rw [length_data_at]; omega), if_pos h]
    rfl
  · rw [if_pos (by rw [maxLen_at]; omega), if_neg h]

theorem skip_at (ho : o ≤ p.length) : (Reader.at p o).skip n =
    if o + n ≤ p.length then .ok (Reader.at p (o + n)) else .error (.thrown .overflowError) := by
  rw [Reader.skip, advance_at]
  by_cases h : o + n ≤ p.length
  · rw [if_neg (by rw [maxLen_at]; omega), if_pos h]
  · rw [if_pos (by rw [maxLen_at]; omega), if_neg h]

/-- The run lengths and differences of a list of identifiers, from position `o` on. -/
def pairsAt (p : List Byte) (o : ℕ) : ℕ → List (ℕ × ℕ)
  | 0 => []
  | k + 1 => (fieldAt p o 1, fieldAt p (o + 1) 2) :: pairsAt p (o + 3) k

theorem readDifferences_at (ho : o ≤ p.length) : readDifferences k (Reader.at p o) =
    if o + 3 * k ≤ p.length then .ok (expand (pairsAt p o k), Reader.at p (o + 3 * k))
    else .error (.thrown .overflowError) := by
  induction k generalizing o with
  | zero => rw [if_pos (by omega)]; rfl
  | succ k ih =>
    rw [readDifferences, read_at ho]
    by_cases h1 : o + 1 ≤ p.length
    · rw [if_pos h1, ok_bind]
      dsimp only
      rw [read_at h1]
      by_cases h2 : o + 1 + 2 ≤ p.length
      · rw [if_pos h2, ok_bind]
        dsimp only
        rw [ih h2, Nat.add_assoc o 1 2]
        by_cases h3 : o + 3 + 3 * k ≤ p.length
        · rw [if_pos h3, if_pos (by omega), ok_bind, show o + 3 + 3 * k = o + 3 * (k + 1) by omega]
          rfl
        · rw [if_neg h3, if_neg (by omega)]
          rfl
      · rw [if_neg h2, if_neg (by omega)]
        rfl
    · rw [if_neg h1, if_neg (by omega)]
      rfl

/-- The length of a list of identifiers, from its number of elements. -/
def idsLength (p : List Byte) (o : ℕ) : ℕ :=
  if fieldAt p o 2 = 0 then 2 else 6 + 3 * (fieldAt p o 2 - 1)

/-- The differences between the identifiers of a list. -/
def differencesAt (p : List Byte) (o : ℕ) : List ℕ :=
  expand (pairsAt p (o + 6) (fieldAt p o 2 - 1))

/-- Identifiers are the running sums of the differences of a list, from its first element. -/
def Lists (p : List Byte) (o : ℕ) (ids : SourceIdList) : Prop :=
  ∀ i, i ∈ ids ↔ fieldAt p o 2 ≠ 0 ∧ ∃ j ≤ (differencesAt p o).length,
    i = (fieldAt p (o + 2) 4 + ((differencesAt p o).take j).sum) % 2 ^ 32

theorem fieldAt_lt (p : List Byte) (o n : ℕ) : fieldAt p o n < 256 ^ n := by
  refine (ofBigEndian_lt _).trans_le (Nat.pow_le_pow_right (by decide) ?_)
  exact List.length_take_le n _

/-- The identifiers of a list at a position. -/
def idsAt (p : List Byte) (o : ℕ) : SourceIdList :=
  if fieldAt p o 2 = 0 then FlatSet.empty
  else idsOfList (fieldAt p (o + 2) 4 :: sumsFrom (2 ^ 32) (fieldAt p (o + 2) 4) (differencesAt p o))

theorem lists_idsAt (p : List Byte) (o : ℕ) : Lists p o (idsAt p o) := by
  intro i
  rw [idsAt]
  split
  · next h => simp [h]
  · next h =>
    have hlt : fieldAt p (o + 2) 4 < 2 ^ 32 := fieldAt_lt p (o + 2) 4
    rw [mem_idsOfList, mem_cons_sumsFrom hlt, and_iff_right h]

theorem readIds_at (ho : o ≤ p.length) : readIds (Reader.at p o) =
    if o + idsLength p o ≤ p.length then .ok (idsAt p o, Reader.at p (o + idsLength p o))
    else .error (.thrown .overflowError) := by
  rw [readIds, read_at ho, idsLength, idsAt]
  by_cases h1 : o + 2 ≤ p.length
  · rw [if_pos h1, ok_bind]
    dsimp only
    by_cases hzero : fieldAt p o 2 = 0
    · rw [if_pos hzero, if_pos hzero, if_pos hzero, if_pos h1]
    · rw [if_neg hzero, if_neg hzero, if_neg hzero, read_at h1]
      by_cases h2 : o + 2 + 4 ≤ p.length
      · rw [if_pos h2, ok_bind]
        dsimp only
        rw [readDifferences_at h2]
        by_cases h3 : o + 2 + 4 + 3 * (fieldAt p o 2 - 1) ≤ p.length
        · rw [if_pos h3, if_pos (by omega), ok_bind,
            show o + 2 + 4 + 3 * (fieldAt p o 2 - 1) = o + (6 + 3 * (fieldAt p o 2 - 1)) by omega]
          rfl
        · rw [if_neg h3, if_neg (by omega)]
          rfl
      · rw [if_neg h2, if_neg (by omega)]
        rfl
  · rw [if_neg h1, if_neg (by split <;> omega)]
    rfl

theorem consumed_at (ho : o ≤ p.length) : p.length - (Reader.at p o).data.length = o := by
  rw [length_data_at]
  omega

/-- Where the symbol of a source or a repair ends. -/
def symbolEnd (p : List Byte) : ℕ := 7 + fieldAt p 5 2

/-- The first seven bytes of a source or a repair, then its symbol. -/
theorem header_at {α : Type} (f : ℕ → ℕ → Reader → Except Stop α) : (do
      let (_, r) ← (Reader.start p).read 1
      let (id, r) ← r.read 4
      let (symbolSize, r) ← r.read 2
      let r ← r.skip symbolSize
      f id symbolSize r) =
    if symbolEnd p ≤ p.length then
      f (fieldAt p 1 4) (fieldAt p 5 2) (Reader.at p (symbolEnd p))
    else .error (.thrown .overflowError) := by
  rw [Reader.start_eq, read_at (Nat.zero_le _)]
  by_cases h1 : 0 + 1 ≤ p.length
  · rw [if_pos h1, ok_bind]
    dsimp only
    rw [read_at h1]
    by_cases h2 : 0 + 1 + 4 ≤ p.length
    · rw [if_pos h2, ok_bind]
      dsimp only
      rw [read_at h2]
      by_cases h3 : 0 + 1 + 4 + 2 ≤ p.length
      · rw [if_pos h3, ok_bind]
        dsimp only
        rw [skip_at h3, show 0 + 1 + 4 + 2 + fieldAt p (0 + 1 + 4) 2 = symbolEnd p from rfl]
        by_cases h4 : symbolEnd p ≤ p.length
        · rw [if_pos h4, if_pos h4, ok_bind]
        · rw [if_neg h4, if_neg h4]
          rfl
      · rw [if_neg h3, if_neg (by rw [symbolEnd]; omega)]
        rfl
    · rw [if_neg h2, if_neg (by rw [symbolEnd]; omega)]
      rfl
  · rw [if_neg h1, if_neg (by rw [symbolEnd]; omega)]
    rfl

theorem readSource_eq (h : getPacketType p = .ok .source) : readSource b p =
    if symbolEnd p ≤ p.length then
      .ok (⟨fieldAt p 1 4, p.drop 7, fieldAt p 5 2⟩, symbolEnd p)
    else .error (.thrown .overflowError) := by
  rw [readSource, assertPacketType_ok h, ok_bind]
  refine (header_at fun id symbolSize r =>
    .ok ((⟨id, p.drop 7, symbolSize⟩ : DecoderSource), p.length - r.data.length)).trans ?_
  by_cases h4 : symbolEnd p ≤ p.length
  · rw [if_pos h4, if_pos h4, consumed_at h4]
  · rw [if_neg h4, if_neg h4]

theorem readRepair_eq (h : getPacketType p = .ok .repair) : readRepair b p =
    if symbolEnd p + idsLength p (symbolEnd p) + 2 ≤ p.length then
      .ok (⟨fieldAt p 1 4, idsAt p (symbolEnd p),
        BitVec.ofNat 16 (fieldAt p (symbolEnd p + idsLength p (symbolEnd p)) 2), p.drop 7,
        fieldAt p 5 2⟩, symbolEnd p + idsLength p (symbolEnd p) + 2)
    else .error (.thrown .overflowError) := by
  rw [readRepair, assertPacketType_ok h, ok_bind]
  refine (header_at fun id symbolSize r => readIds r >>= fun x => x.2.read 2 >>= fun y =>
    .ok ((⟨id, x.1, BitVec.ofNat 16 y.1, p.drop 7, symbolSize⟩ : DecoderRepair),
      p.length - y.2.data.length)).trans ?_
  by_cases h4 : symbolEnd p ≤ p.length
  · rw [if_pos h4, readIds_at h4]
    by_cases h5 : symbolEnd p + idsLength p (symbolEnd p) ≤ p.length
    · rw [if_pos h5, ok_bind]
      dsimp only
      rw [read_at h5]
      by_cases h6 : symbolEnd p + idsLength p (symbolEnd p) + 2 ≤ p.length
      · rw [if_pos h6, if_pos h6, ok_bind]
        dsimp only
        rw [consumed_at h6]
      · rw [if_neg h6, if_neg h6]
        rfl
    · rw [if_neg h5, if_neg (by omega)]
      rfl
  · rw [if_neg h4, if_neg (by omega)]

theorem readAck_eq (h : getPacketType p = .ok .ack) : readAck b p =
    if 3 + idsLength p 3 ≤ p.length then .ok (⟨idsAt p 3, fieldAt p 1 2⟩, 3 + idsLength p 3)
    else .error (.thrown .overflowError) := by
  rw [readAck, assertPacketType_ok h, ok_bind, Reader.start_eq, read_at (Nat.zero_le _)]
  have hlen : 2 ≤ idsLength p 3 := by
    rw [idsLength]
    split <;> omega
  by_cases h1 : 0 + 1 ≤ p.length
  · rw [if_pos h1, ok_bind]
    dsimp only
    rw [read_at h1]
    by_cases h2 : 0 + 1 + 2 ≤ p.length
    · rw [if_pos h2, ok_bind]
      dsimp only
      rw [readIds_at h2]
      by_cases h3 : 3 + idsLength p 3 ≤ p.length
      · rw [if_pos h3, if_pos h3, ok_bind]
        dsimp only
        rw [consumed_at h3]
      · rw [if_neg h3, if_neg h3]
        rfl
    · rw [if_neg h2, if_neg (by omega)]
      rfl
  · rw [if_neg h1, if_neg (by omega)]
    rfl

/-- A reader returns exactly the packets that are long enough, with the length it reports and what
it finds, and otherwise throws. -/
structure ReadsExactly {α : Type} (x : Except Stop (α × ℕ)) (p : List Byte) (len : ℕ)
    (found : α → Prop) : Prop where
  accepts : (∃ y, x = .ok y) ↔ len ≤ p.length
  finds : ∀ a n, x = .ok (a, n) → n = len ∧ found a
  throws : p.length < len → x = .error (.thrown .overflowError)

theorem readsExactly_of_eq {α : Type} {x : Except Stop (α × ℕ)} {len : ℕ} {found : α → Prop} {a : α}
    (h : x = if len ≤ p.length then .ok (a, len) else .error (.thrown .overflowError))
    (hfound : len ≤ p.length → found a) : ReadsExactly x p len found := by
  subst h
  refine ⟨⟨?_, fun hle => ⟨(a, len), if_pos hle⟩⟩, fun a' n hok => ?_, fun hlt => if_neg (by omega)⟩
  · rintro ⟨y, hy⟩
    by_contra hle
    rw [if_neg hle] at hy
    cases hy
  · split at hok
    · next hle =>
      cases hok
      exact ⟨rfl, hfound hle⟩
    · cases hok

/-- The readers accept exactly the packets that hold what their fields announce, whatever else is in
them: they report this length, find the identifiers that the running sums of the differences give
and a symbol inside the packet, and throw when the packet is shorter. Nothing past its end is read. -/
theorem readers_exact (b : Build) (p : List Byte) :
    (getPacketType p = .ok .source → ReadsExactly (readSource b p) p (symbolEnd p) fun s =>
      s.id = fieldAt p 1 4 ∧ s.symbolSize = fieldAt p 5 2 ∧ s.symbol = p.drop 7 ∧
        7 + s.symbolSize ≤ p.length) ∧
    (getPacketType p = .ok .repair → ReadsExactly (readRepair b p) p
      (symbolEnd p + idsLength p (symbolEnd p) + 2) fun r =>
        r.id = fieldAt p 1 4 ∧ Lists p (symbolEnd p) r.sourceIds ∧
        r.encodedSize.toNat = fieldAt p (symbolEnd p + idsLength p (symbolEnd p)) 2 ∧
        r.symbolSize = fieldAt p 5 2 ∧ r.symbol = p.drop 7 ∧ 7 + r.symbolSize ≤ p.length) ∧
    (getPacketType p = .ok .ack → ReadsExactly (readAck b p) p (3 + idsLength p 3) fun a =>
      a.nbPackets = fieldAt p 1 2 ∧ Lists p 3 a.sourceIds) := by
  refine ⟨fun h => ?_, fun h => ?_, fun h => ?_⟩
  · exact readsExactly_of_eq (readSource_eq h) fun hle => ⟨rfl, rfl, rfl, hle⟩
  · refine readsExactly_of_eq (readRepair_eq h) fun hle => ⟨rfl, lists_idsAt p _, ?_, rfl, rfl, ?_⟩
    · rw [BitVec.toNat_ofNat]
      exact Nat.mod_eq_of_lt (fieldAt_lt p _ 2)
    · exact (by omega : symbolEnd p ≤ p.length)
  · exact readsExactly_of_eq (readAck_eq h) fun _ => ⟨rfl, lists_idsAt p 3⟩

/-- A repair of the sources 4294967295, 0 and 1, and a byte that is not read. -/
def wrappingRepair : List Byte :=
  [1, 0, 0, 0, 5, 0, 1, 171, 0, 2, 255, 255, 255, 255, 2, 0, 1, 0, 4, 99]

theorem readers_exact_wrappingRepair :
    (∃ y, readRepair .checked wrappingRepair = .ok y) ∧
    ∀ r n, readRepair .checked wrappingRepair = .ok (r, n) →
      n = 19 ∧ Lists wrappingRepair 8 r.sourceIds := by
  have h := (readers_exact .checked wrappingRepair).2.1 rfl
  exact ⟨h.accepts.mpr (by decide), fun r n hr => ⟨(h.finds r n hr).1, (h.finds r n hr).2.2.1⟩⟩

section Rejected

variable {w : FieldSize} (clock : ℕ → ℤ) (g : GfComplete w)

theorem Decoder.handle_error {d d' : Decoder w} {q : Except Stop (Detail.Incoming × ℕ)}
    {x : Exception} (h : d.handle clock b g q = .ok (d', .error x)) : d' = d := by
  cases q with
  | error s =>
    cases s with
    | fault f => cases h
    | thrown y =>
      cases h
      rfl
  | ok q =>
    obtain ⟨e, -, h⟩ := bind_ok_iff.mp h
    cases h

/-- A decoder counts the sources and the repairs that it rejects. -/
theorem Decoder.notify_error_iff {d d' : Decoder w} {x : Exception}
    (h : d.notify clock b g p = .ok (d', .error x)) :
    d' = d ↔ getPacketType p ≠ .ok .repair ∧ getPacketType p ≠ .ok .source := by
  obtain ⟨-, -, h⟩ := bind_ok_iff.mp h
  split at h
  · cases h
  · next hp =>
    cases h
    simp [hp]
  · next hp =>
    have hd := congrArg Decoder.nbReceivedRepairs (Decoder.handle_error clock g h)
    refine iff_of_false (fun heq => ?_) fun hne => hne.1 hp
    rw [heq] at hd
    exact absurd hd (Nat.ne_of_lt (Nat.lt_succ_self _))
  · next hp =>
    have hd := congrArg Decoder.nbReceivedSources (Decoder.handle_error clock g h)
    refine iff_of_false (fun heq => ?_) fun hne => hne.2 hp
    rw [heq] at hd
    exact absurd hd (Nat.ne_of_lt (Nat.lt_succ_self _))
  · next hp =>
    cases h
    simp [hp]

/-- An encoder counts the acknowledgements that it rejects. -/
theorem Encoder.notify_error_iff {e e' : Encoder} {x : Exception}
    (h : e.notify b p = .ok (e', .error x)) : e' = e ↔ getPacketType p ≠ .ok .ack := by
  obtain ⟨-, -, h⟩ := bind_ok_iff.mp h
  split at h
  · cases h
  · next hp =>
    cases h
    simp [hp]
  · next hp =>
    refine iff_of_false (fun heq => ?_) fun hne => hne hp
    dsimp only at h
    split at h
    · cases h
    · cases h
      exact absurd (congrArg Encoder.nbAcks heq) (Nat.succ_ne_self _)
    · cases h
  · next ty hty hp =>
    cases h
    refine iff_of_true rfl fun hne => ?_
    rw [hne] at hp
    cases hp
    exact hty rfl

/-- From any state, a packet for which a call throws leaves no trace exactly when its type is one
that its receiver does not read: the others are counted before they are read. -/
theorem rejected_unchanged_iff (b : Build) (p : List Byte) :
    (∀ (d d' : Decoder w) (x : Exception), d.notify clock b g p = .ok (d', .error x) →
      (d' = d ↔ getPacketType p ≠ .ok .repair ∧ getPacketType p ≠ .ok .source)) ∧
    (∀ (e e' : Encoder) (x : Exception), e.notify b p = .ok (e', .error x) →
      (e' = e ↔ getPacketType p ≠ .ok .ack)) :=
  ⟨fun _ _ _ => Decoder.notify_error_iff clock g, fun _ _ _ => Encoder.notify_error_iff⟩

/-- A packet of no known type. -/
theorem rejected_unchanged_iff_unknown : ∃ d : Decoder .w4,
    (Decoder.initial (fun _ => 0) true).notify (fun _ => 0) .checked gf16 [9#8] =
      .ok (d, .error .packetTypeError) ∧ d = Decoder.initial (fun _ => 0) true := by
  refine ⟨_, rfl, ((rejected_unchanged_iff (fun _ => 0) gf16 .checked [9#8]).1
    (Decoder.initial (fun _ => 0) true) _ .packetTypeError rfl).mpr ⟨?_, ?_⟩⟩ <;> decide

/-- A source cut after its type is thrown away, and the next acknowledgement reports it. -/
theorem truncatedSource_counted : ∃ d : Decoder .w4,
    (Decoder.initial (fun _ => 0) true).notify (fun _ => 0) .checked gf16 [2#8] =
      .ok (d, .error .overflowError) ∧ d ≠ Decoder.initial (fun _ => 0) true ∧
    d.ack.nbPackets = 1 ∧ d.nbReceivedSources = 1 := by
  refine ⟨_, rfl, fun h => ?_, rfl, rfl⟩
  exact absurd (congrArg Decoder.nbReceivedSources h) (by decide)

end Rejected

end Netcode
