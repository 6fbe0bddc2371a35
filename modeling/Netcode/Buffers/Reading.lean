import Netcode.Buffers.Receiving
import Netcode.Reading

/-! A packet is read in a longer buffer as in its own, and handled so. -/
namespace Netcode

open Containers Encodings Runs Simulation

variable {w : FieldSize} {b : Build} {g : GfComplete w}

section Reading

variable {r r1 r2 r3 r' : Reader} {p t : List Byte} {n v a c size : ℕ}

/-- A reader whose packet is followed by other bytes. -/
def Reader.followedBy (t : List Byte) (r : Reader) : Reader := ⟨r.data ++ t, r.maxLen + t.length⟩

theorem start_followedBy (p t : List Byte) :
    Reader.start (p ++ t) = (Reader.start p).followedBy t := by
  rw [Reader.start, Reader.start, Reader.followedBy, List.length_append]

theorem read_le (h : r.Exact) (hr : r.read n = .ok (v, r')) : n ≤ r.data.length := by
  rw [Reader.read] at hr
  split at hr
  · cases hr
  · next hlen =>
    rw [← h]
    exact not_lt.mp hlen

theorem read_followedBy (h : r.Exact) (hr : r.read n = .ok (v, r')) :
    (r.followedBy t).read n = .ok (v, r'.followedBy t) := by
  have hle := read_le h hr
  have hmax : n ≤ r.maxLen := h ▸ hle
  rw [Reader.read, if_neg (not_lt.mpr hmax), if_neg (not_lt.mpr hle)] at hr
  cases hr
  rw [Reader.read, Reader.followedBy, if_neg (not_lt.mpr (hmax.trans (Nat.le_add_right _ _))),
    if_neg (not_lt.mpr (by rw [List.length_append]; omega)), List.take_append_of_le_length hle,
    List.drop_append_of_le_length hle, Reader.followedBy, Nat.sub_add_comm hmax]

theorem skip_followedBy (h : r.Exact) (hr : r.skip n = .ok r') :
    (r.followedBy t).skip n = .ok (r'.followedBy t) := by
  have hle := (skip_exact h hr).2
  have hmax : n ≤ r.maxLen := h ▸ hle
  rw [Reader.skip, if_neg (not_lt.mpr hmax)] at hr
  cases hr
  rw [Reader.skip, Reader.followedBy, if_neg (not_lt.mpr (hmax.trans (Nat.le_add_right _ _))),
    List.drop_append_of_le_length hle, Reader.followedBy, Nat.sub_add_comm hmax]

theorem readDifferences_followedBy {ds : List ℕ} (h : r.Exact)
    (hr : readDifferences n r = .ok (ds, r')) :
    readDifferences n (r.followedBy t) = .ok (ds, r'.followedBy t) := by
  induction n generalizing r ds with
  | zero =>
    cases hr
    rfl
  | succ n ih =>
    simp only [readDifferences, bind_ok_iff, Prod.exists, Except.ok.injEq, Prod.mk.injEq] at hr
    obtain ⟨a, r1, h1, c, r2, h2, ds, r3, h3, rfl, rfl⟩ := hr
    have e1 := (read_exact h h1).1
    rw [readDifferences, read_followedBy h h1, ok_bind]
    dsimp only
    rw [read_followedBy e1 h2, ok_bind]
    dsimp only
    rw [ih (read_exact e1 h2).1 h3, ok_bind]

theorem readIds_followedBy {ids : SourceIdList} (h : r.Exact) (hr : readIds r = .ok (ids, r')) :
    readIds (r.followedBy t) = .ok (ids, r'.followedBy t) := by
  simp only [readIds, bind_ok_iff, Prod.exists] at hr
  obtain ⟨a, r1, h1, hr⟩ := hr
  have e1 := (read_exact h h1).1
  rw [readIds, read_followedBy h h1, ok_bind]
  dsimp only
  split at hr
  · next ha =>
    cases hr
    rw [if_pos ha]
  · next ha =>
    simp only [bind_ok_iff, Prod.exists, Except.ok.injEq, Prod.mk.injEq] at hr
    obtain ⟨c, r2, h2, ds, r3, h3, rfl, rfl⟩ := hr
    rw [if_neg ha, read_followedBy e1 h2, ok_bind]
    dsimp only
    rw [readDifferences_followedBy (read_exact e1 h2).1 h3, ok_bind]

theorem getPacketType_append (hp : p ≠ []) (t : List Byte) :
    getPacketType (p ++ t) = getPacketType p := by
  cases p with
  | nil => exact absurd rfl hp
  | cons ty p => rfl

theorem assertPacketType_append (hp : p ≠ []) (t : List Byte) (ty : PacketType) :
    assertPacketType b (p ++ t) ty = assertPacketType b p ty := by
  rw [assertPacketType, assertPacketType, getPacketType_append hp]

/-- As many bytes are read. -/
theorem consumed_followedBy (p t : List Byte) (r : Reader) :
    (p ++ t).length - (r.followedBy t).data.length = p.length - r.data.length := by
  rw [Reader.followedBy, List.length_append, List.length_append]
  omega

/-- The buffer of the symbol is followed by the same bytes. -/
theorem drop_followedBy (h1 : (Reader.start p).read 1 = .ok (a, r1)) (h2 : r1.read 4 = .ok (c, r2))
    (h3 : r2.read 2 = .ok (size, r3)) (t : List Byte) : (p ++ t).drop 7 = p.drop 7 ++ t := by
  obtain ⟨e1, d1⟩ := read_exact (Reader.exact_start p) h1
  obtain ⟨e2, d2⟩ := read_exact e1 h2
  have l2 := read_le e1 h2
  have l3 := read_le e2 h3
  rw [d2, d1, List.length_drop, List.length_drop] at l3
  refine List.drop_append_of_le_length ?_
  have hstart : (Reader.start p).data = p := rfl
  rw [hstart] at l3
  omega

theorem readAck_append {k : Ack} (hp : p ≠ []) (h : readAck b p = .ok (k, n)) (t : List Byte) :
    readAck b (p ++ t) = .ok (k, n) := by
  simp only [readAck, bind_ok_iff, Prod.exists, Except.ok.injEq, Prod.mk.injEq] at h
  obtain ⟨u, hu, a, r1, h1, c, r2, h2, ids, r3, h3, rfl, rfl⟩ := h
  have e1 := (read_exact (Reader.exact_start p) h1).1
  rw [readAck, assertPacketType_append hp, hu, ok_bind, start_followedBy,
    read_followedBy (Reader.exact_start p) h1, ok_bind]
  dsimp only
  rw [read_followedBy e1 h2, ok_bind]
  dsimp only
  rw [readIds_followedBy (read_exact e1 h2).1 h3, ok_bind]
  dsimp only
  rw [consumed_followedBy]

theorem readSource_append {src : DecoderSource} (hp : p ≠ []) (h : readSource b p = .ok (src, n))
    (t : List Byte) : ∃ src', readSource b (p ++ t) = .ok (src', n) ∧ src.Within src' := by
  have hstored := readSource_stored h
  simp only [readSource, bind_ok_iff, Prod.exists, Except.ok.injEq, Prod.mk.injEq] at h
  obtain ⟨u, hu, a, r1, h1, c, r2, h2, size, r3, h3, r4, h4, rfl, rfl⟩ := h
  have e1 := (read_exact (Reader.exact_start p) h1).1
  have e2 := (read_exact e1 h2).1
  refine ⟨⟨c, p.drop 7 ++ t, size⟩, ?_, .mk t hstored⟩
  rw [readSource, assertPacketType_append hp, hu, ok_bind, start_followedBy,
    read_followedBy (Reader.exact_start p) h1, ok_bind]
  dsimp only
  rw [read_followedBy e1 h2, ok_bind]
  dsimp only
  rw [read_followedBy e2 h3, ok_bind]
  dsimp only
  rw [skip_followedBy (read_exact e2 h3).1 h4, ok_bind, consumed_followedBy,
    drop_followedBy h1 h2 h3]

theorem readRepair_append {q : DecoderRepair} (hp : p ≠ []) (h : readRepair b p = .ok (q, n))
    (t : List Byte) : ∃ q', readRepair b (p ++ t) = .ok (q', n) ∧ q.Within q' := by
  simp only [readRepair, bind_ok_iff, Prod.exists, Except.ok.injEq, Prod.mk.injEq] at h
  obtain ⟨u, hu, a, r1, h1, c, r2, h2, size, r3, h3, r4, h4, ids, r5, h5, z, r6, h6, rfl, rfl⟩ := h
  have e1 := (read_exact (Reader.exact_start p) h1).1
  have e2 := (read_exact e1 h2).1
  have e4 := (skip_exact (read_exact e2 h3).1 h4).1
  refine ⟨⟨c, ids, BitVec.ofNat 16 z, p.drop 7 ++ t, size⟩, ?_, .mk _ t⟩
  rw [readRepair, assertPacketType_append hp, hu, ok_bind, start_followedBy,
    read_followedBy (Reader.exact_start p) h1, ok_bind]
  dsimp only
  rw [read_followedBy e1 h2, ok_bind]
  dsimp only
  rw [read_followedBy e2 h3, ok_bind]
  dsimp only
  rw [skip_followedBy (read_exact e2 h3).1 h4, ok_bind, readIds_followedBy e4 h5, ok_bind]
  dsimp only
  rw [read_followedBy (readIds_exact e4 h5) h6, ok_bind]
  dsimp only
  rw [consumed_followedBy, drop_followedBy h1 h2 h3]

end Reading

/-- The same state, whose symbols are in longer buffers. -/
inductive Decoder.Within : Decoder w → Decoder w → Prop
  | mk {d : Decoder w} {decoder : Detail.Decoder w} {data : List DecoderSource}
      (hd : d.decoder.Within decoder) (hdata : List.Forall₂ DecoderSource.Within d.data data) :
      d.Within { d with decoder := decoder, data := data }

namespace Decoder

variable {clock : ℕ → ℤ} {d d' : Decoder w} {p t : List Byte}

theorem within_maybeAckOf (h : d.Within d') (held : List ℕ) :
    (d.maybeAckOf clock held).Within (d'.maybeAckOf clock held) := by
  obtain ⟨hd, hdata⟩ := h
  rw [maybeAckOf, maybeAckOf]
  dsimp only
  split
  · exact ⟨hd, hdata⟩
  · split
    · split
      · exact ⟨hd, hdata⟩
      · exact ⟨hd, hdata⟩
    · exact ⟨hd, hdata⟩

theorem within_handleSource (h : d.Within d') {c c' : Detail.Callback} (hc : c.Within c') :
    (handleSource clock d c).Within (handleSource clock d' c') := by
  obtain ⟨known, waiting, hsrc⟩ := hc
  rw [handleSource, handleSource]
  refine within_maybeAckOf ?_ known
  obtain ⟨hd, hdata⟩ := h
  exact ⟨hd, List.rel_append hdata (.cons hsrc .nil)⟩

theorem within_handleSources {l l' : List Detail.Callback}
    (hl : List.Forall₂ Detail.Callback.Within l l') (h : d.Within d') :
    (l.foldl (handleSource clock) d).Within (l'.foldl (handleSource clock) d') := by
  induction hl generalizing d d' with
  | nil => exact h
  | cons hc _ ih => exact ih (within_handleSource h hc)

theorem within_forward (h : d.Within d') {q q' : Detail.Incoming} (hq : q.Within q') :
    Simulates Within (d.forward clock b g q) (d'.forward clock b g q') := by
  obtain ⟨hd, hdata⟩ := h
  rw [forward, forward]
  refine (Detail.Decoder.within_receive hd hq).bind fun u u' hu => simulates_ok ?_
  dsimp only
  rw [← hd.callbacks.length_eq]
  exact within_handleSources (List.forall₂_drop _ hu.callbacks) ⟨hu, hdata⟩

end Decoder

end Netcode
