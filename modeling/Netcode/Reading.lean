import Netcode.Packetizer

/-! Reading any bytes of the announced type either throws an exception or returns a packet. -/
namespace Netcode

open Containers Encodings Runs

variable {b : Build} {r r' : Reader} {p : List Byte} {n v : ℕ} {ty : PacketType}

/-- The exceptions a read may throw. -/
def Stop.Thrown (s : Stop) : Prop := ∃ x, s = .thrown x

/-- The length left is that of what follows. -/
def Reader.Exact (r : Reader) : Prop := r.maxLen = r.data.length

theorem Reader.exact_start (p : List Byte) : (Reader.start p).Exact := rfl

theorem read_throws (h : r.Exact) (n : ℕ) : FailsOnly Stop.Thrown (r.read n) := by
  rw [Reader.read]
  split
  · exact failsOnly_error ⟨_, rfl⟩
  · next hlen =>
    rw [if_neg (by rw [← h]; exact hlen)]
    exact failsOnly_ok _

theorem read_exact (h : r.Exact) (hr : r.read n = .ok (v, r')) :
    r'.Exact ∧ r'.data = r.data.drop n := by
  rw [Reader.read] at hr
  split at hr
  · cases hr
  · split at hr
    · cases hr
    · cases hr
      exact ⟨by rw [Reader.Exact, List.length_drop, h], rfl⟩

theorem skip_throws (r : Reader) (n : ℕ) : FailsOnly Stop.Thrown (r.skip n) := by
  rw [Reader.skip]
  split
  · exact failsOnly_error ⟨_, rfl⟩
  · exact failsOnly_ok _

theorem skip_exact (h : r.Exact) (hr : r.skip n = .ok r') : r'.Exact ∧ n ≤ r.data.length := by
  rw [Reader.skip] at hr
  split at hr
  · cases hr
  · next hlen =>
    cases hr
    exact ⟨by rw [Reader.Exact, List.length_drop, h], by rw [← h]; exact not_lt.mp hlen⟩

theorem readDifferences_throws (h : r.Exact) (n : ℕ) :
    FailsOnly Stop.Thrown (readDifferences n r) := by
  induction n generalizing r with
  | zero => exact failsOnly_ok _
  | succ n ih =>
    rw [readDifferences]
    refine failsOnly_bind (read_throws h 1) fun a ha => ?_
    have h1 := (read_exact h ha).1
    refine failsOnly_bind (read_throws h1 2) fun c hc => ?_
    exact failsOnly_bind (ih (read_exact h1 hc).1) fun _ _ => failsOnly_ok _

theorem readDifferences_exact {ds : List ℕ} (h : r.Exact)
    (hr : readDifferences n r = .ok (ds, r')) : r'.Exact := by
  induction n generalizing r ds with
  | zero =>
    cases hr
    exact h
  | succ n ih =>
    simp only [readDifferences, bind_ok_iff, Except.ok.injEq, Prod.mk.injEq] at hr
    obtain ⟨⟨a, r1⟩, h1, ⟨c, r2⟩, h2, ⟨l, r3⟩, h3, -, rfl⟩ := hr
    exact ih (read_exact (read_exact h h1).1 h2).1 h3

theorem readIds_throws (h : r.Exact) : FailsOnly Stop.Thrown (readIds r) := by
  rw [readIds]
  refine failsOnly_bind (read_throws h 2) fun a ha => ?_
  have h1 := (read_exact h ha).1
  dsimp only
  split
  · exact failsOnly_ok _
  · refine failsOnly_bind (read_throws h1 4) fun c hc => ?_
    exact failsOnly_bind (readDifferences_throws (read_exact h1 hc).1 _) fun _ _ => failsOnly_ok _

theorem readIds_exact {ids : SourceIdList} (h : r.Exact) (hr : readIds r = .ok (ids, r')) :
    r'.Exact := by
  simp only [readIds, bind_ok_iff] at hr
  obtain ⟨⟨a, r1⟩, h1, hr⟩ := hr
  have hr1 := (read_exact h h1).1
  split at hr
  · cases hr
    exact hr1
  · simp only [bind_ok_iff, Except.ok.injEq, Prod.mk.injEq] at hr
    obtain ⟨⟨c, r2⟩, h2, ⟨ds, r3⟩, h3, -, rfl⟩ := hr
    exact readDifferences_exact (read_exact hr1 h2).1 h3

theorem assertPacketType_ok (h : getPacketType p = .ok ty) : assertPacketType b p ty = .ok () := by
  rw [assertPacketType, h]
  simp [Except.mapError]

theorem getPacketType_throws (hp : p ≠ []) : FailsOnly Stop.Thrown (getPacketType p) := by
  cases p with
  | nil => exact absurd rfl hp
  | cons x p =>
    rw [getPacketType]
    split_ifs
    · exact failsOnly_ok _
    · exact failsOnly_ok _
    · exact failsOnly_ok _
    · exact failsOnly_error ⟨_, rfl⟩

/-- Reading any acknowledgement throws or returns. -/
theorem readAck_throws (h : getPacketType p = .ok .ack) : FailsOnly Stop.Thrown (readAck b p) := by
  rw [readAck, assertPacketType_ok h, ok_bind]
  refine failsOnly_bind (read_throws (Reader.exact_start p) 1) fun a ha => ?_
  have h1 := (read_exact (Reader.exact_start p) ha).1
  refine failsOnly_bind (read_throws h1 2) fun c hc => ?_
  exact failsOnly_bind (readIds_throws (read_exact h1 hc).1) fun _ _ => failsOnly_ok _

/-- Reading any source throws or returns. -/
theorem readSource_throws (h : getPacketType p = .ok .source) :
    FailsOnly Stop.Thrown (readSource b p) := by
  rw [readSource, assertPacketType_ok h, ok_bind]
  refine failsOnly_bind (read_throws (Reader.exact_start p) 1) fun a ha => ?_
  have h1 := (read_exact (Reader.exact_start p) ha).1
  refine failsOnly_bind (read_throws h1 4) fun c hc => ?_
  refine failsOnly_bind (read_throws (read_exact h1 hc).1 2) fun _ _ => ?_
  exact failsOnly_bind (skip_throws _ _) fun _ _ => failsOnly_ok _

/-- Reading any repair throws or returns. -/
theorem readRepair_throws (h : getPacketType p = .ok .repair) :
    FailsOnly Stop.Thrown (readRepair b p) := by
  rw [readRepair, assertPacketType_ok h, ok_bind]
  refine failsOnly_bind (read_throws (Reader.exact_start p) 1) fun a ha => ?_
  have h1 := (read_exact (Reader.exact_start p) ha).1
  refine failsOnly_bind (read_throws h1 4) fun c hc => ?_
  have h2 := (read_exact h1 hc).1
  refine failsOnly_bind (read_throws h2 2) fun s hs => ?_
  refine failsOnly_bind (skip_throws _ _) fun r4 hr4 => ?_
  have h4 := (skip_exact (read_exact h2 hs).1 hr4).1
  refine failsOnly_bind (readIds_throws h4) fun ids hids => ?_
  exact failsOnly_bind (read_throws (readIds_exact h4 hids) 2) fun _ _ => failsOnly_ok _

/-- The header in front of a symbol. -/
theorem data_header {r1 r2 r3 : Reader} {a c s : ℕ} (h1 : (Reader.start p).read 1 = .ok (a, r1))
    (h2 : r1.read 4 = .ok (c, r2)) (h3 : r2.read 2 = .ok (s, r3)) :
    r3.Exact ∧ r3.data = p.drop 7 := by
  obtain ⟨e1, d1⟩ := read_exact (Reader.exact_start p) h1
  obtain ⟨e2, d2⟩ := read_exact e1 h2
  obtain ⟨e3, d3⟩ := read_exact e2 h3
  refine ⟨e3, ?_⟩
  rw [d3, d2, d1, List.drop_drop, List.drop_drop]
  rfl

/-- The symbol of a source that was read is in its packet. -/
theorem readSource_stored {src : DecoderSource} (h : readSource b p = .ok (src, n)) :
    src.symbolSize ≤ src.symbol.length := by
  simp only [readSource, bind_ok_iff, Prod.exists] at h
  obtain ⟨-, -, a, r1, h1, c, r2, h2, s, r3, h3, r4, h4, h⟩ := h
  cases h
  obtain ⟨hexact, hdata⟩ := data_header h1 h2 h3
  exact hdata ▸ (skip_exact hexact h4).2

/-- The symbol of a repair that was read is in its packet. -/
theorem readRepair_stored {q : DecoderRepair} (h : readRepair b p = .ok (q, n)) :
    q.symbolSize ≤ q.symbol.length := by
  simp only [readRepair, bind_ok_iff, Prod.exists] at h
  obtain ⟨-, -, a, r1, h1, c, r2, h2, s, r3, h3, r4, h4, ids, r5, -, e, r6, -, h⟩ := h
  cases h
  obtain ⟨hexact, hdata⟩ := data_header h1 h2 h3
  exact hdata ▸ (skip_exact hexact h4).2

end Netcode
