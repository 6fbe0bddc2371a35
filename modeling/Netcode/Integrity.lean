import Netcode.PacketFormat
import Netcode.Contents
import Netcode.FullDecoding
import Netcode.Window

/-! Whatever the channel does, the sources given to the callback hold the data committed to the
encoder, as long as every repair is linked to the missing sources it lists. -/
namespace Netcode

open Containers Encodings Runs

variable {w : FieldSize} {b b' : Build} {g : GfComplete w}

namespace Detail.Decoder

variable {d d' : Decoder w} {D : ℕ → Option (List Byte)} {p : Incoming}

/-- All that is stored or given to the callback holds the data committed. -/
abbrev Faithful (g : GfComplete w) (D : ℕ → Option (List Byte)) (d : Decoder w) : Prop :=
  Contents (DecoderSource.Intact D) (DecoderRepair.Right g D) (fun _ => True) d []

/-- Removing an intact source keeps a repair right, and what is rebuilt is intact. -/
theorem closed_intact (hw : w ≠ .w32) (hD : ∀ i x, D i = some x → Sendable w x) :
    Closed b g (DecoderSource.Intact D) (DecoderRepair.Right g D) (fun _ => True) where
  remove hs hr hmem h := remove_right hw hs hr hmem h
  create hr hids h := by
    obtain ⟨src, hsrc, -, hintact⟩ := create_right (b := b) hw hD hr hids
    rw [h] at hsrc
    cases hsrc
    exact hintact
  lists _ _ := trivial

/-- With links, full decoding gives intact sources. -/
theorem decodesFully_intact (hw : w ≠ .w32) (hD : ∀ i x, D i = some x → Sendable w x)
    (hlinked : d.Linked) (hI : d.Faithful g D) :
    DecodesFully b g (DecoderSource.Intact D) d := by
  intro henough coefficients m hfill hinv miss hmiss rows symbol hrows hsymbol
  have hle : d.missingSources.size ≤ d.repairs.size := by
    simp only [enoughRepairs, Bool.and_eq_true, decide_eq_true_eq] at henough
    exact henough.2
  have hkey : d.missingSources.keys[miss.2]? = some miss.1 := List.mem_zipIdx_iff_getElem?.mp hmiss
  have hids := fun ρ r hr => (hI.repairs ρ r hr).1
  have hsolves := (recovers_of_invert hle hids hfill hinv hkey).solves hlinked hkey
  obtain rfl : rows = d.inverseRows g m.inv miss.2 := decodingRows_eq rfl hrows
  obtain ⟨symbol', hsymbol', hintact⟩ := hsolves.decode (b := b) hw hD fun row hrow => by
    obtain ⟨ρ, hρ⟩ := inverseRows_stored hrow
    exact (hI.repairs ρ row.2 hρ).2
  rw [hsymbol] at hsymbol'
  cases hsymbol'
  exact hintact

/-- Receiving what carries the data committed keeps all that is stored or given faithful to it. -/
theorem faithful_receive (hw : w ≠ .w32) (hD : ∀ i x, D i = some x → Sendable w x)
    (hlinked : d.Linked) (hI : d.Faithful g D)
    (hp : Carries (DecoderSource.Intact D) (DecoderRepair.Right g D) p)
    (h : d.receive b g p = .ok d') : d'.Faithful g D :=
  contents_receive (closed_intact hw hD) hlinked.listed hI hp
    (fun _ hkeep hI1 => decodesFully_intact hw hD (hkeep hlinked) hI1) h

end Detail.Decoder

/-- A packet whose identifier list is encodable brings the decoder what the encoder sent. -/
theorem WirePacket.Faithful.carries {D : List (List Byte)} {p : WirePacket} {q : Detail.Incoming}
    (hD : D.length < 2 ^ 32) (hsend : ∀ x ∈ D, Sendable w x) (h : p.Faithful g (Encoder.dataOf D))
    (he : p.EncodableIds) (hq : p.incoming b = .ok q) :
    Detail.Decoder.Carries (DecoderSource.Intact (Encoder.dataOf D))
      (DecoderRepair.Right g (Encoder.dataOf D)) q := by
  have h32 : ∀ i x, Encoder.dataOf D i = some x → i < 2 ^ 32 := fun i x hi =>
    (List.getElem?_eq_some_iff.mp hi).1.trans hD
  cases p with
  | ack a => cases hq
  | repair r =>
    obtain ⟨rest, n, hread⟩ := readRepair_encodable b h.id (fun i hi => by
      obtain ⟨x, hx, -⟩ := h.combines.committed i hi
      exact h32 i x hx) h.length he
    rw [incoming, hread] at hq
    cases hq
    exact EncoderRepair.received_right h.combines rest
  | source s =>
    have hlen : s.symbol.length ≤ 65535 := (hsend _ (List.mem_of_getElem? h)).2.1
    have hid : s.id % 256 ^ 4 = s.id := Nat.mod_eq_of_lt (h32 _ _ h)
    rw [incoming, readSource_writeSource b hlen, hid] at hq
    cases hq
    exact ⟨s.symbol, h, rfl, List.take_length⟩

/-- The packets of a run carry the data committed during the run. -/
theorem packets_faithful {cs : List Encoder.Call} (hw : w ≠ .w32)
    (hD : ∀ x ∈ Encoder.committed cs, Sendable w x)
    (hcount : (Encoder.committed cs).length < 2 ^ 32) :
    ∀ p ∈ packets b g cs, p.Faithful g (Encoder.dataOf (Encoder.committed cs)) := by
  rw [packets]
  split
  · next e he => exact Encoder.faithful_run hw hD hcount he
  · exact fun p hp => absurd hp List.not_mem_nil

/-- What arrives carries the data committed, when the identifier lists that travel are encodable. -/
theorem arrivals_carry {sent : List WirePacket} {order : List ℕ} {D : List (List Byte)}
    (hD : D.length < 2 ^ 32) (hsend : ∀ x ∈ D, Sendable w x)
    (hsent : ∀ p ∈ sent, p.Faithful g (Encoder.dataOf D))
    (he : ∀ k ∈ order, ∀ p, sent[k]? = some p → p.EncodableIds) :
    ∀ q ∈ arrivals b sent order, Detail.Decoder.Carries (DecoderSource.Intact (Encoder.dataOf D))
      (DecoderRepair.Right g (Encoder.dataOf D)) q := by
  intro q hq
  obtain ⟨k, hk, hq⟩ := List.mem_filterMap.mp hq
  obtain ⟨p, hp, hq⟩ := Option.bind_eq_some_iff.mp hq
  refine (hsent p (List.mem_of_getElem? hp)).carries (b := b) hD hsend (he k hk p hp) ?_
  cases hr : p.incoming b with
  | error e => simp [hr, Except.toOption] at hq
  | ok q' => simpa [hr, Except.toOption] using hq

namespace Detail.Decoder

/-- In every run whose steps rebuild no source directly while another repair references it, and to
which only encodable identifier lists travel, every source given to the callback holds the data
committed under its identifier. -/
theorem callbacks_intact (hw : w ≠ .w32) {cs : List Encoder.Call} {order : List ℕ} {inOrder : Bool}
    (hD : ∀ x ∈ Encoder.committed cs, Sendable w x)
    (hcount : (Encoder.committed cs).length < 2 ^ 32)
    (he : ∀ k ∈ order, ∀ p, (packets b' g cs)[k]? = some p → p.EncodableIds)
    (h : Run (receive b g) (fun d p => d.rebuildsShared p = false) (initial inOrder)
      (arrivals b (packets b' g cs) order) d) :
    ∀ c ∈ d.callbacks, c.source.Intact (Encoder.dataOf (Encoder.committed cs)) := by
  have hcarry := arrivals_carry (b := b) hcount hD (packets_faithful hw hD hcount) he
  have hsend : ∀ i x, Encoder.dataOf (Encoder.committed cs) i = some x → Sendable w x :=
    fun i x hx => hD x (List.mem_of_getElem? hx)
  have hrun := h.of_forall (D := fun (d : Decoder w) p => d.rebuildsShared p = false ∧
    Carries (DecoderSource.Intact (Encoder.dataOf (Encoder.committed cs)))
      (DecoderRepair.Right g (Encoder.dataOf (Encoder.committed cs))) p)
    fun p hp _ hc => ⟨hc, hcarry p hp⟩
  have hfinal := hrun.invariant
    (fun u => u.Linked ∧ u.Faithful g (Encoder.dataOf (Encoder.committed cs))) ?_
    ⟨linked_initial inOrder, contents_initial inOrder⟩
  · exact fun c hc => (hfinal.2.callbacks c hc).1
  · rintro u p v ⟨hlinked, hI⟩ ⟨hfree, hp⟩ hs
    exact ⟨(linked_receive_iff hlinked hs).mpr hfree,
      faithful_receive hw hsend hlinked hI hp hs⟩

/-- Source 0 is received after the repair, and source 1 is rebuilt from both. -/
theorem callbacks_intact_pairCalls : ∃ d,
    runWhile (receive .release gf16) (fun d p => d.rebuildsShared p = false) (initial false)
      (arrivals .release (packets .release gf16 pairCalls) [2, 0]) = some d ∧
    d.callbacks.map (fun c => c.source.id) = [0, 1] ∧
    ∀ c ∈ d.callbacks, c.source.Intact (Encoder.dataOf (Encoder.committed pairCalls)) := by
  have hrun : (runWhile (receive .release gf16) (fun d p => d.rebuildsShared p = false)
      (initial false) (arrivals .release (packets .release gf16 pairCalls) [2, 0])).any
        (fun d => decide (d.callbacks.map (fun c => c.source.id) = [0, 1])) = true := by
    decide +kernel
  have he : ∀ k ∈ [2, 0], ∀ p, (packets .release gf16 pairCalls)[k]? = some p → p.EncodableIds := by
    decide +kernel
  obtain ⟨d, hd, hids⟩ := (Option.any_eq_true _ _).mp hrun
  exact ⟨d, hd, of_decide_eq_true hids,
    callbacks_intact (by decide) (by decide) (by decide) he (run_of_runWhile hd)⟩

/-- The late repair of source 0 rebuilds it, the repair of sources 0 and 1 still contains it, and a
third repair makes the matrix of source 1 and source 2 invertible. -/
theorem growingCalls_corrupted : (∀ x ∈ Encoder.committed growingCalls, Sendable .w4 x) ∧
    ∃ d, deliver .release gf16 false growingCalls [3, 1, 5] = .ok d ∧
      ∃ c ∈ d.callbacks, ¬ c.source.Intact (Encoder.dataOf (Encoder.committed growingCalls)) := by
  have hrun : (deliver .release gf16 false growingCalls [3, 1, 5]).toOption.any (fun d =>
      d.callbacks.any fun c => decide (c.source.id = 1 ∧ c.source.symbolSize ≠ 1)) = true := by
    decide +kernel
  obtain ⟨d, hd, hbad⟩ := exists_ok_of_any hrun
  obtain ⟨c, hc, hwrong⟩ := List.any_eq_true.mp hbad
  obtain ⟨hid, hsize⟩ := of_decide_eq_true hwrong
  refine ⟨by decide, d, hd, c, hc, ?_⟩
  rintro ⟨x, hx, hlen, -⟩
  rw [hid] at hx
  cases hx
  exact hsize hlen

end Detail.Decoder

end Netcode
