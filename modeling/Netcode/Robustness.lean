import Netcode.Robustness.Receiving
import Netcode.Reading
import Netcode.Watermark

/-! Whatever bytes a decoder is given, it throws or returns, as long as what they announce is
consistent with what it stores. -/
namespace Netcode.Decoder

open Containers Encodings Runs

variable {w : FieldSize} {b : Build} {g : GfComplete w} {clock : ℕ → ℤ} {d d' : Decoder w}
  {p : List Byte} {q : Detail.Incoming} {c : Call} {calls : List Call} {inOrder : Bool}

/-- What is read in a packet is in it. -/
theorem reads_buffered (h : Reads b p q) : Detail.Decoder.Incoming.Buffered q := by
  cases q with
  | source src =>
    obtain ⟨-, n, hread⟩ := h
    exact ⟨readSource_fits (p := p) (by rw [hread]; rfl) src.id List.mem_cons_self,
      readSource_stored hread⟩
  | repair r =>
    obtain ⟨-, n, hread⟩ := h
    exact ⟨fun i hi => readRepair_fits (p := p) (q := .repair r) (by rw [hread]; rfl) i hi,
      readRepair_stored hread⟩

/-- What a call makes the real decoder receive is consistent with what it stores. -/
def Withstands (b : Build) (g : GfComplete w) (d : Decoder w) : Call → Prop
  | .packet p => ∀ q, Reads b p q → d.decoder.Withstands g q
  | _ => True

theorem sound_call (hI : d.decoder.Sound) (h : d.call clock b g c = .ok d') : d'.decoder.Sound := by
  rcases call_cases h with heq | ⟨p, q, -, hreads, hreceive⟩
  · rwa [heq]
  · exact Detail.Decoder.sound_receive hI (reads_buffered hreads) hreceive

theorem handle_returns {x : Except Stop (Detail.Incoming × ℕ)} (hthrows : FailsOnly Stop.Thrown x)
    (hreturns : ∀ q n, x = .ok (q, n) → ∃ u, d.decoder.receive b g q = .ok u) :
    ∃ d' y, d.handle clock b g x = .ok (d', y) := by
  cases x with
  | error e =>
    obtain ⟨e, rfl⟩ := hthrows e rfl
    exact ⟨d, .error e, rfl⟩
  | ok x =>
    obtain ⟨q, n⟩ := x
    obtain ⟨u, hu⟩ := hreturns q n rfl
    exact ⟨_, .ok n, by
      rw [handle, forward, hu]
      rfl⟩

theorem notify_returns (hI : d.decoder.Sound) (hp : p ≠ []) (hfit : d.Withstands b g (.packet p)) :
    ∃ d' y, d.notify clock b g p = .ok (d', y) := by
  have hassert : b.assert .emptyPacket (!p.isEmpty) = .ok () := by
    cases p with
    | nil => exact absurd rfl hp
    | cons x p => exact Build.assert_true
  rw [notify, hassert, ok_bind]
  cases htype : getPacketType p with
  | error e =>
    obtain ⟨x, rfl⟩ := getPacketType_throws hp e htype
    exact ⟨d, .error x, rfl⟩
  | ok ty =>
    cases ty with
    | ack => exact ⟨d, .error .packetTypeError, rfl⟩
    | repair =>
      refine handle_returns (failsOnly_map (readRepair_throws htype) _) fun q n hread => ?_
      have hreads := reads_repair htype hread
      exact Detail.Decoder.receive_returns hI (reads_buffered hreads) (hfit q hreads)
    | source =>
      refine handle_returns (failsOnly_map (readSource_throws htype) _) fun q n hread => ?_
      have hreads := reads_source htype hread
      exact Detail.Decoder.receive_returns hI (reads_buffered hreads) (hfit q hreads)

/-- In a run whose packets are consistent with what is stored, any other such packet makes the
decoder throw an exception or return: no assertion fails, nothing is read from an empty list, and no
symbol is accessed past its size. -/
theorem notify_run
    (hrun : Run (call clock b g) (Withstands b g) (initial clock inOrder) calls d) (hp : p ≠ [])
    (hfit : d.Withstands b g (.packet p)) : ∃ d' y, d.notify clock b g p = .ok (d', y) := by
  refine notify_returns (hrun.invariant (fun u => u.decoder.Sound) (fun u c v hu _ hv => ?_) ?_) hp
    hfit
  · exact sound_call hu hv
  · exact Detail.Decoder.sound_initial inOrder

/-- A source of identifier 0, then a repair of sources 0 and 1. -/
def zeroBytes : List Byte := [2, 0, 0, 0, 0, 0, 1, 1]

def pairBytes : List Byte := [1, 0, 0, 0, 0, 0, 1, 11, 0, 2, 0, 0, 0, 0, 1, 0, 1, 0, 7]

/-- What is read in the repair of sources 0 and 1. -/
def pairRepair : DecoderRepair := ⟨0, idsOfList [0, 1], 7#16, pairBytes.drop 7, 1⟩

theorem reads_zeroBytes (h : Reads b zeroBytes q) : ∃ src, q = .source src := by
  cases q with
  | source src => exact ⟨src, rfl⟩
  | repair r =>
    have htype : getPacketType zeroBytes = .ok .source := rfl
    rw [h.1] at htype
    cases htype

theorem reads_pairBytes (h : Reads .checked pairBytes q) : q = .repair pairRepair := by
  cases q with
  | source src =>
    have htype : getPacketType pairBytes = .ok .repair := rfl
    rw [h.1] at htype
    cases htype
  | repair r =>
    obtain ⟨-, n, hread⟩ := h
    have hpair : readRepair .checked pairBytes = .ok (pairRepair, 19) := rfl
    rw [hpair] at hread
    cases hread
    rfl

theorem notify_run_pairBytes : ∃ d d' : Decoder .w4, ∃ y,
    Run (call (fun _ => 0) .checked gf16) (Withstands .checked gf16) (initial (fun _ => 0) true)
      [.packet zeroBytes] d ∧
    d.Withstands .checked gf16 (.packet pairBytes) ∧
    d.notify (fun _ => 0) .checked gf16 pairBytes = .ok (d', y) := by
  have hcall : ((initial (fun _ => 0) true).call (fun _ => 0) .checked gf16
      (.packet zeroBytes)).toOption.any (fun d => decide (
        d.decoder.missingSources.isEmpty = true ∧ d.decoder.repairs.isEmpty = true ∧
        ((d.decoder.keeping 0).unknown pairRepair).toList = [1] ∧
        (∀ s ∈ d.decoder.sources.entries,
          Detail.Decoder.FitsIn .w4 s.2.symbolSize pairRepair) ∧
        Detail.Decoder.FitsIn .w4 (Detail.Decoder.decodedSize gf16
          ((d.decoder.keeping 0).announced gf16 pairRepair) 1) pairRepair)) = true := by
    decide +kernel
  obtain ⟨d, hd, hcheck⟩ := exists_ok_of_any hcall
  obtain ⟨hm, hr, hone, hknown, hfits⟩ := of_decide_eq_true hcheck
  have hrun : Run (call (fun _ => 0) .checked gf16) (Withstands .checked gf16)
      (initial (fun _ => 0) true) [.packet zeroBytes] d := by
    refine .cons (fun q hq => ?_) hd .nil
    obtain ⟨src, rfl⟩ := reads_zeroBytes hq
    exact Detail.Decoder.withstands_source fun _ => rfl
  have hpair : d.Withstands .checked gf16 (.packet pairBytes) := by
    intro q hq
    rw [reads_pairBytes hq]
    exact Detail.Decoder.withstands_repair (OrdMap.isEmpty_iff.mp hm) (OrdMap.isEmpty_iff.mp hr)
      hone (fun i _ src hsrc => hknown (i, src) (OrdMap.mem_entries_iff.mpr hsrc)) hfits
  obtain ⟨d', y, hy⟩ := notify_run hrun (by decide) hpair
  exact ⟨d, d', y, hrun, hpair, hy⟩

/-- A repair of no source. -/
def emptyRepairBytes : List Byte := [1, 0, 0, 0, 0, 0, 0, 0, 0, 0, 0]

theorem emptyRepairBytes_breaks :
    (initial (fun _ => 0) true).notify (fun _ => 0) .debug gf16 emptyRepairBytes =
      .error (.assertion .emptyRepair) ∧
    (initial (fun _ => 0) true).notify (fun _ => 0) .release gf16 emptyRepairBytes =
      .error (.undefined .emptyList) := by
  constructor
  · rfl
  · rfl

end Netcode.Decoder
