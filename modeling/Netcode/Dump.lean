import Netcode.Decoder
import Netcode.Fields

/-! serialize_packet.hh and replay.cc: dumps of packets and the tool that replays them. -/
namespace Netcode

open Encodings Runs

/-- A packet's bytes, after hidden ones. -/
structure Packet where
  buffer : List Byte
deriving DecidableEq

namespace Packet

variable {p : Packet} {s rest : List Byte}

/-- The number of bytes before the beginning of a packet: what its headers leave of the alignment
of a symbol. -/
def shift : ℕ := 16 - 7

def size (p : Packet) : ℕ := p.buffer.length - shift

def bytes (p : Packet) : List Byte := p.buffer.drop shift

/-- The bytes written for a packet: the length of its buffer, narrowed to 16 bits, and its buffer. -/
def write (p : Packet) : List Byte := bigEndian 2 p.buffer.length ++ p.buffer

/-- Copy elements of a stream, which stays at the last one. -/
def copyN (n : ℕ) (s : List Byte) : Except Fault (List Byte × List Byte) :=
  if s.length < n then .error (.undefined .endIterator) else .ok (s.take n, s.drop (n - 1))

/-- Leave the current element of a stream. -/
def next : List Byte → Except Fault (List Byte)
  | [] => .error (.undefined .endIterator)
  | _ :: s => .ok s

/-- Read a packet, and what follows it in the stream. -/
def read (s : List Byte) : Except Fault (Packet × List Byte) := do
  let (sz, s) ← copyN 2 s
  let s ← next s
  let (buffer, s) ← copyN (ofBigEndian sz) s
  let s ← next s
  .ok (⟨buffer⟩, s)

/-- A packet the length of whose buffer is that of hidden bytes and of at most 65526 others. -/
def Fits (p : Packet) : Prop := shift ≤ p.buffer.length ∧ p.size ≤ 65526

/-- Copying elements, then leaving the last one. -/
theorem copyN_next {n : ℕ} (hn : 0 < n) {l : List Byte} (hl : l.length = n) {α : Type}
    (f : List Byte → List Byte → Except Fault α) : (do
      let (x, s) ← copyN n (l ++ s)
      let s ← next s
      f x s) = f l s := by
  have hdrop : (l ++ s).drop (n - 1) = (l.drop (n - 1)) ++ s := by
    rw [List.drop_append_of_le_length (by omega)]
  obtain ⟨x, hx⟩ : ∃ x, l.drop (n - 1) = [x] := by
    rw [← List.length_eq_one_iff, List.length_drop]
    omega
  rw [copyN, if_neg (by rw [List.length_append]; omega), ok_bind, hdrop, hx,
    List.take_append_of_le_length hl.ge, ← hl, List.take_length]
  rfl

/-- The bytes written for a packet are framed. -/
theorem read_write (h : p.Fits) (rest : List Byte) : read (p.write ++ rest) = .ok (p, rest) := by
  obtain ⟨hshift, hsize⟩ := h
  rw [size] at hsize
  have hpos : 0 < p.buffer.length := lt_of_lt_of_le (by decide) hshift
  have hlt : p.buffer.length < 256 ^ 2 := by
    have : shift = 9 := rfl
    omega
  have hlen : ofBigEndian (bigEndian 2 p.buffer.length) = p.buffer.length := by
    rw [ofBigEndian_bigEndian, Nat.mod_eq_of_lt hlt]
  rw [read, write, List.append_assoc]
  refine (copyN_next (by decide) (length_bigEndian 2 _) fun sz s => do
    let (buffer, s) ← copyN (ofBigEndian sz) s
    let s ← next s
    .ok ((⟨buffer⟩ : Packet), s)).trans ?_
  rw [hlen]
  exact copyN_next hpos rfl fun buffer s => .ok ((⟨buffer⟩ : Packet), s)

theorem length_next {s t : List Byte} (h : next s = .ok t) : t.length < s.length := by
  cases s with
  | nil => cases h
  | cons x s =>
    cases h
    exact Nat.lt_succ_self _

theorem length_copyN {n : ℕ} {s t l : List Byte} (h : copyN n s = .ok (l, t)) :
    t.length ≤ s.length := by
  rw [copyN] at h
  split at h
  · cases h
  · cases h
    exact (List.drop_sublist _ _).length_le

/-- Reading advances. -/
theorem length_read (h : read s = .ok (p, rest)) : rest.length < s.length := by
  simp only [read, bind_ok_iff, Prod.exists] at h
  obtain ⟨sz, s1, h1, s2, h2, l, s3, h3, s4, h4, h⟩ := h
  cases h
  exact (length_next h4).trans_le ((length_copyN h3).trans ((length_next h2).le.trans
    (length_copyN h1)))

end Packet

/-- What interrupts the replay tool. -/
inductive Interruption
  /-- The runtime error "ack". -/
  | ack
  | stop (s : Stop)
deriving DecidableEq

section Replay

variable (clock : ℕ → ℤ) (b : Build) (g : GfComplete .w8)

/-- What the tool reads of a packet by itself. -/
def inspect (p : List Byte) : Except Interruption Unit :=
  match getPacketType p with
  | .error s => .error (.stop s)
  | .ok .ack => .error .ack
  | .ok .repair => ((readRepair b p).map fun _ => ()).mapError .stop
  | .ok .source => ((readSource b p).map fun _ => ()).mapError .stop

/-- The loop of the replay tool: the packets given to its decoder, and what interrupts it, if it
does not end with the file. -/
def replay (d : Decoder .w8) (s : List Byte) : List Packet × Option Interruption :=
  match _h : Packet.read s with
  | .error f => ([], some (.stop (.fault f)))
  | .ok (p, rest) =>
    -- The end of the file is tested once a packet has been read, before it is used.
    if rest = [] then ([], none)
    else
      match inspect b p.bytes with
      | .error x => ([], some x)
      | .ok () =>
        match d.notify clock b g p.bytes with
        | .error f => ([p], some (.stop (.fault f)))
        | .ok (_, .error x) => ([p], some (.stop (.thrown x)))
        | .ok (d, .ok _) => (p :: (replay d rest).1, (replay d rest).2)
termination_by s.length
decreasing_by all_goals exact Packet.length_read _h

/-- Packets written one after the other. -/
def dump (ps : List Packet) : List Byte := ps.flatMap Packet.write

theorem dump_eq_nil_iff {ps : List Packet} : dump ps = [] ↔ ps = [] := by
  cases ps with
  | nil => exact iff_of_true rfl rfl
  | cons p ps =>
    refine iff_of_false (fun h => ?_) (List.cons_ne_nil p ps)
    exact absurd (congrArg List.length h) (by simp [dump, Packet.write])

/-- Replaying a dump frames each of its packets and gives those before the last one. -/
theorem replay_dump {ps : List Packet} (hps : ∀ p ∈ ps, p.Fits) (d : Decoder .w8) :
    (replay clock b g d (dump ps)).1 <+: ps.dropLast ∧
      ((replay clock b g d (dump ps)).2 = none →
        (replay clock b g d (dump ps)).1 = ps.dropLast) := by
  induction ps generalizing d with
  | nil =>
    rw [replay]
    exact ⟨List.nil_prefix, nofun⟩
  | cons p ps ih =>
    have hread : Packet.read (dump (p :: ps)) = .ok (p, dump ps) :=
      Packet.read_write (hps p List.mem_cons_self) (dump ps)
    have hrest : ∀ q ∈ ps, q.Fits := fun q hq => hps q (List.mem_cons_of_mem p hq)
    rw [replay]
    split
    · next f hf =>
      rw [hread] at hf
      cases hf
    · next q rest hq =>
      rw [hread] at hq
      cases hq
      by_cases hlast : ps = []
      · subst hlast
        exact ⟨List.nil_prefix, fun _ => rfl⟩
      · rw [if_neg (mt dump_eq_nil_iff.mp hlast), List.dropLast_cons_of_ne_nil hlast]
        split
        · exact ⟨List.nil_prefix, nofun⟩
        · split
          · exact ⟨List.prefix_cons_iff.mpr (Or.inr ⟨[], rfl, List.nil_prefix⟩), nofun⟩
          · exact ⟨List.prefix_cons_iff.mpr (Or.inr ⟨[], rfl, List.nil_prefix⟩), nofun⟩
          · next d' n hd =>
            obtain ⟨hstart, hall⟩ := ih hrest d'
            exact ⟨(List.prefix_cons_inj p).mpr hstart, fun h => congrArg (p :: ·) (hall h)⟩

/-- No dump replays to the packets it was written for: the last one is never given to the decoder.
Those before it are, in order, until one of them interrupts the tool. -/
theorem replay_incomplete {ps : List Packet} (hne : ps ≠ []) (hps : ∀ p ∈ ps, p.Fits) :
    (replay clock b g (Decoder.initial clock true) (dump ps)).1 ≠ ps ∧
      (replay clock b g (Decoder.initial clock true) (dump ps)).1 <+: ps.dropLast ∧
      ((replay clock b g (Decoder.initial clock true) (dump ps)).2 = none →
        (replay clock b g (Decoder.initial clock true) (dump ps)).1 = ps.dropLast) := by
  obtain ⟨hstart, hall⟩ := replay_dump clock b g hps (Decoder.initial clock true)
  refine ⟨fun h => ?_, hstart, hall⟩
  have hlength := hstart.length_le
  rw [h, List.length_dropLast] at hlength
  have := List.length_pos_iff.mpr hne
  omega

/-- The source 0 of one byte. -/
def sourcePacket : Packet := ⟨[0, 0, 0, 0, 0, 0, 0, 0, 0, 2, 0, 0, 0, 0, 0, 1, 97]⟩

theorem sourcePacket_fits : sourcePacket.Fits := ⟨by decide, by decide⟩

/-- Of a source received twice, one is replayed at most. -/
theorem replay_incomplete_twice : (replay (fun _ => 0) .debug (galois .w8)
    (Decoder.initial (fun _ => 0) true) (dump [sourcePacket, sourcePacket])).1 <+: [sourcePacket] :=
  (replay_incomplete (fun _ => 0) .debug (galois .w8) (List.cons_ne_nil _ _)
    (by simp [sourcePacket_fits])).2.1

theorem sourcePacket_lost : sourcePacket.Fits ∧ (replay (fun _ => 0) .debug (galois .w8)
    (Decoder.initial (fun _ => 0) true) (dump [sourcePacket])).1 = [] := by
  refine ⟨sourcePacket_fits, List.prefix_nil.mp ?_⟩
  have hall : ∀ p ∈ [sourcePacket], p.Fits := by simp [sourcePacket_fits]
  exact (replay_dump (fun _ => 0) .debug (galois .w8) hall _).1

end Replay

end Netcode
