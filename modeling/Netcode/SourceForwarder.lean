import Netcode.Redelivery
import Netcode.Schedule
import Netcode.Streaming
import Netcode.Transcoder

/-! source_forwarder.cc: the data of sources is forwarded, and repairs are ignored. -/
namespace Netcode

open Containers Encodings Runs

variable {w : FieldSize} {b : Build} {g : GfComplete w}

namespace SourceForwarder

/-- The number of bytes of the buffer a packet is received in. -/
def bufferSize : ℕ := 4096

/-- What is forwarded of a packet, received in a buffer that was not initialized. -/
def forward (b : Build) (bytes : List Byte) (buffer : Buffer bufferSize) :
    Except Stop (Option (List Byte)) :=
  if bytes.length = 0 then .ok none
  else if (buffer.fill bytes).head? = some 2 then do
    let src ← readSource b (buffer.fill bytes)
    .ok (some (src.1.symbol.take src.1.symbolSize))
  else .ok none

/-- The next packet is received. -/
def receive (b : Build) (out : List (List Byte)) (x : List Byte × Buffer bufferSize) :
    Except Stop (List (List Byte)) := do
  let data ← forward b x.1 x.2
  .ok (out ++ data.toList)

/-- What is forwarded of packets. -/
def main (b : Build) (received : List (List Byte × Buffer bufferSize)) :
    Except Stop (List (List Byte)) :=
  received.foldlM (receive b) []

/-- The packets that arrive, known by their positions among those sent, and their buffers. -/
def datagrams (sent : List WirePacket) (order : List (ℕ × Buffer bufferSize)) :
    List (List Byte × Buffer bufferSize) :=
  order.filterMap fun x => sent[x.1]?.map fun p => (p.bytes, x.2)

/-- The sources that arrive. -/
def arrived (sent : List WirePacket) (order : List ℕ) : List EncoderSource :=
  order.filterMap fun k => sent[k]?.bind Encoder.sourceOf

/-- With its header of 7 bytes, a source is not longer than the buffer. -/
def Fits (src : EncoderSource) : Prop := src.symbol.length + 7 ≤ bufferSize

variable {sent : List WirePacket} {order : List (ℕ × Buffer bufferSize)} {p : WirePacket}
  {cs : List Encoder.Call} {e : Encoder} {ks : List ℕ} {src : EncoderSource}

theorem fill_head (hp : p.bytes ≠ []) (buffer : Buffer bufferSize) :
    (buffer.fill p.bytes).head? = p.bytes.head? := by
  obtain ⟨x, l, hx⟩ := List.exists_cons_of_ne_nil hp
  rw [Buffer.fill, hx]
  rfl

/-- Of a packet as it was sent, only a source is forwarded, and only its data. -/
theorem forward_bytes (h : ∀ src, p = .source src → Fits src) (buffer : Buffer bufferSize) :
    forward b p.bytes buffer = .ok ((Encoder.sourceOf p).map EncoderSource.symbol) := by
  have hne := Decoder.bytes_ne_nil p
  rw [forward, if_neg (mt List.length_eq_zero_iff.mp hne), fill_head hne]
  cases p with
  | ack a =>
    rw [if_neg (by simp [WirePacket.bytes, writeAck, PacketType.code])]
    rfl
  | repair r =>
    rw [if_neg (by simp [WirePacket.bytes, repairBytes, PacketType.code])]
    rfl
  | source src =>
    have hfits : src.symbol.length + 7 ≤ 4096 := h src rfl
    have hbytes : (WirePacket.source src).bytes = writeSource src := rfl
    have hlen : (writeSource src).length ≤ bufferSize := by
      rw [writeSource, List.length_cons, List.length_append, List.length_append,
        length_bigEndian, length_bigEndian, bufferSize]
      omega
    have hread := readSource_writeSource (s := src) b (by omega)
    obtain ⟨s, hlong, hs⟩ :=
      readSource_append (p := writeSource src) hne hread (buffer.1.drop (writeSource src).length)
    have hsymbol := hs.symbol
    dsimp only at hsymbol
    rw [hbytes, if_pos (by simp [writeSource, PacketType.code]), buffer.fill_fits hlen, hlong,
      ok_bind, hsymbol, List.take_length]
    rfl

theorem receive_datagrams (h : ∀ src, .source src ∈ sent → Fits src) (out : List (List Byte)) :
    (datagrams sent order).foldlM (receive b) out =
      .ok (out ++ (arrived sent (order.map Prod.fst)).map EncoderSource.symbol) := by
  induction order generalizing out with
  | nil => exact congrArg Except.ok (List.append_nil out).symm
  | cons x order ih =>
    rw [datagrams, arrived, List.map_cons, List.filterMap_cons, List.filterMap_cons, ← datagrams,
      ← arrived]
    cases hp : sent[x.1]? with
    | none => exact ih out
    | some p =>
      have hforward := forward_bytes (b := b) (p := p)
        (fun src hsrc => h src (hsrc ▸ List.mem_of_getElem? hp)) x.2
      dsimp only [Option.map_some, Option.bind_some]
      rw [List.foldlM_cons, receive, hforward, ok_bind, ok_bind, ih]
      cases Encoder.sourceOf p with
      | none => rw [Option.map_none, Option.toList_none, List.append_nil]
      | some src => rw [Option.map_some, Option.toList_some, List.map_cons, List.append_assoc]; rfl

theorem mem_arrived : src ∈ arrived sent ks ↔ ∃ k ∈ ks, sent[k]? = some (.source src) := by
  simp only [arrived, List.mem_filterMap, Option.bind_eq_some_iff, Encoder.sourceOf_eq_some,
    exists_eq_right]

/-- What arrives in order is the data of sources with increasing identifiers. -/
theorem arrived_sorted (hI : (Encoder.sourcesOf sent).Pairwise fun s t => s.id < t.id)
    (hks : ks.Pairwise (· < ·)) : (arrived sent ks).Pairwise fun s t => s.id < t.id := by
  rw [arrived, List.pairwise_filterMap]
  refine hks.imp fun {j k} hjk s hs t ht => ?_
  obtain ⟨p, hp, hs⟩ := Option.bind_eq_some_iff.mp hs
  obtain ⟨q, hq, ht⟩ := Option.bind_eq_some_iff.mp ht
  obtain ⟨hj, rfl⟩ := List.getElem?_eq_some_iff.mp hp
  obtain ⟨hk, rfl⟩ := List.getElem?_eq_some_iff.mp hq
  exact List.pairwise_iff_getElem.mp (List.pairwise_filterMap.mp hI) j k hj hk hjk s hs t ht

/-- Elements whose numbers increase are taken in order from the list they come from. -/
theorem map_sublist_drop {α β : Type} (f : α → β) (id : α → ℕ) {L : List α} {D : List β} {n : ℕ}
    (hids : L.Pairwise fun x y => id x < id y) (h : ∀ x ∈ L, n ≤ id x ∧ D[id x]? = some (f x)) :
    (L.map f).Sublist (D.drop n) := by
  induction L generalizing n with
  | nil => exact List.nil_sublist _
  | cons x L ih =>
    rw [List.pairwise_cons] at hids
    obtain ⟨hn, hx⟩ := h x List.mem_cons_self
    obtain ⟨hlt, hx⟩ := List.getElem?_eq_some_iff.mp hx
    have hrest := ih hids.2 fun y hy => ⟨hids.1 y hy, (h y (List.mem_cons_of_mem x hy)).2⟩
    have hdrop : (f x :: D.drop (id x + 1)).Sublist (D.drop n) := by
      rw [← hx, ← List.drop_eq_getElem_cons hlt]
      exact List.drop_sublist_drop_left D hn
    exact (hrest.cons_cons (f x)).trans hdrop

/-- Whatever is lost, repeated or reordered between an encoder and the forwarder, and whatever its
buffers held, it forwards the data of the sources that arrive and goes on; without reordering, a
sublist of the data committed. -/
theorem forwarded_run (hcount : (Encoder.committed cs).length < 2 ^ 32)
    (hshort : ∀ x ∈ Encoder.committed cs, x.length + 7 ≤ bufferSize)
    (h : Encoder.run b g cs = .ok e) (order : List (ℕ × Buffer bufferSize)) :
    main b (datagrams e.sent order) =
      .ok ((arrived e.sent (order.map Prod.fst)).map EncoderSource.symbol) ∧
    (∀ s ∈ arrived e.sent (order.map Prod.fst), (Encoder.committed cs)[s.id]? = some s.symbol) ∧
    ((order.map Prod.fst).Pairwise (· < ·) →
      ((arrived e.sent (order.map Prod.fst)).map EncoderSource.symbol).Sublist
        (Encoder.committed cs)) := by
  have hI := Encoder.catalogued_run hcount h
  have hdata : ∀ s, .source s ∈ e.sent → (Encoder.committed cs)[s.id]? = some s.symbol :=
    fun s hs => hI.data s (Encoder.mem_sourcesOf.mpr hs)
  have harrived : ∀ s ∈ arrived e.sent (order.map Prod.fst),
      (Encoder.committed cs)[s.id]? = some s.symbol := by
    intro s hs
    obtain ⟨k, -, hk⟩ := mem_arrived.mp hs
    exact hdata s (List.mem_of_getElem? hk)
  refine ⟨?_, harrived, fun hsorted => ?_⟩
  · rw [main, receive_datagrams fun s hs => hshort _ (List.mem_of_getElem? (hdata s hs))]
    rfl
  · exact map_sublist_drop EncoderSource.symbol EncoderSource.id (arrived_sorted hI.ids hsorted)
      fun s hs => ⟨Nat.zero_le _, harrived s hs⟩

theorem map_fst_dirty (ks : List ℕ) :
    (ks.map fun k => (k, Buffer.dirty bufferSize)).map Prod.fst = ks := by
  rw [List.map_map]
  exact List.map_id ks

/-- The second source arrives twice, a repair and then the first source in between. -/
theorem forwarded_run_pacedCalls : ∃ e, Encoder.run .release gf16 Encoder.pacedCalls = .ok e ∧
    main .release (datagrams e.sent ([1, 2, 0, 1].map fun k => (k, Buffer.dirty bufferSize))) =
      .ok [[2], [1], [2]] := by
  have hrun : (Encoder.run .release gf16 Encoder.pacedCalls).toOption.any (fun e => decide (
      (arrived e.sent [1, 2, 0, 1]).map EncoderSource.symbol = [[2], [1], [2]])) = true := by
    decide +kernel
  obtain ⟨e, he, hd⟩ := (Option.any_eq_true _ _).mp hrun
  have hsymbols := of_decide_eq_true hd
  have hcalls : Encoder.run .release gf16 Encoder.pacedCalls = .ok e := by
    cases hres : Encoder.run .release gf16 Encoder.pacedCalls with
    | error x => rw [hres] at he; cases he
    | ok u => rw [hres] at he; cases he; rfl
  obtain ⟨hmain, -, -⟩ := forwarded_run (by decide) (by decide) hcalls
    ([1, 2, 0, 1].map fun k => (k, Buffer.dirty bufferSize))
  rw [map_fst_dirty, hsymbols] at hmain
  exact ⟨e, hcalls, hmain⟩

end SourceForwarder

namespace Detail.Decoder

variable {d d' : Decoder w} {src : DecoderSource} {ps : List Incoming}

theorem held_receiveSource (hL : d.ListedStored) (h : d.receive b g (.source src) = .ok d') :
    d'.Held src.id := by
  rcases receiveSource_cases h with ⟨rfl, hheld⟩ | ⟨-, -, d1, hadd, hattempt⟩
  · exact hheld
  · exact Or.inr (contains_keeps (keeps_attemptFullDecoding hattempt) (contains_addSource hL hadd))

/-- Sources that were received are held. -/
theorem held_received {inOrder : Bool}
    (h : Run (receive b g) (fun d p => d.Retains g p) (initial inOrder) ps d) :
    ∀ src, .source src ∈ ps → d.Held src.id := by
  have hstart : (initial inOrder : Decoder w).ListedStored ∧
      ∀ src, .source src ∈ ([] : List Incoming) → (initial inOrder : Decoder w).Held src.id :=
    ⟨listedStored_initial inOrder, fun src hsrc => absurd hsrc List.not_mem_nil⟩
  refine (h.inputs (fun done (u : Decoder w) => u.ListedStored ∧
    ∀ src, .source src ∈ done → u.Held src.id) ?_ hstart).2
  rintro done u p v ⟨hL, hu⟩ hc hs
  refine ⟨listedStored_receive hL hs, fun src hsrc => ?_⟩
  rcases List.mem_append.mp hsrc with hsrc | hsrc
  · exact held_receive hL (not_retreats hc.remembers) hs (hu src hsrc)
  · obtain rfl := List.mem_singleton.mp hsrc
    exact held_receiveSource hL hs

end Detail.Decoder

namespace System

open SourceForwarder

variable {clock : ℕ → ℤ} {s : System w} {l : List Event} {inOrder : Bool}

theorem held_arrived (hb : Bounded l s)
    (h : Run (step clock b g) (Orderly b g) (initial clock inOrder) l s) :
    ∀ src ∈ arrived s.encoder.sent (positions l), s.decoder.decoder.Held src.id := by
  intro src hsrc
  have hI := followed_run hb h
  obtain ⟨k, hk, hsent⟩ := mem_arrived.mp hsrc
  have hsmall := hI.fits hb (List.mem_of_getElem? hsent) (List.mem_singleton_self src.id)
  obtain ⟨n, hn⟩ := (WirePacket.source src).bytesRead_short (b := b) trivial
  obtain ⟨x, hx, -⟩ := map_ok_iff.mp hn
  have hread : (WirePacket.source src).incoming b = .ok (.source x.1) := by
    rw [WirePacket.incoming, show readSource b (writeSource src) = .ok x from hx]
    rfl
  obtain ⟨q, heq, hid⟩ := WirePacket.incoming_source hsmall hread
  cases heq
  rw [← hid]
  exact Detail.Decoder.held_received hI.run x.1
    (WirePacket.mem_arrivals.mpr ⟨k, hk, _, hsent, hread⟩)

/-- Over a channel that loses packets but keeps their order, all that a forwarder of sources would
give from the packets that arrive is given to the user of an out-of-order decoder. -/
theorem forwarded_given (hw : w ≠ .w32) (hD : ∀ x ∈ l.flatMap Event.committed, Sendable w x)
    (hshort : ∀ x ∈ l.flatMap Event.committed, x.length + 7 ≤ SourceForwarder.bufferSize)
    (hb : Bounded l s) (h : Run (step clock b g) (Orderly b g) (initial clock false) l s)
    {order : List (ℕ × Buffer SourceForwarder.bufferSize)}
    (horder : order.map Prod.fst = positions l) :
    ∃ out, SourceForwarder.main b (datagrams s.encoder.sent order) = .ok out ∧
      out.Subperm (s.decoder.data.map fun src => src.symbol.take src.symbolSize) := by
  obtain ⟨cs, hcs, hcommitted⟩ := encoder_run (run_iff_foldlM.mp (h.mono fun _ _ _ => trivial))
  have hcount := hb.sources
  rw [← hcommitted] at hshort hcount
  have hI := Encoder.catalogued_run hcount hcs
  have hfits : ∀ src : EncoderSource, .source src ∈ s.encoder.sent → SourceForwarder.Fits src :=
    fun src hsrc => hshort _ (List.mem_of_getElem? (hI.data src (Encoder.mem_sourcesOf.mpr hsrc)))
  refine ⟨_, receive_datagrams hfits [], ?_⟩
  rw [List.nil_append, horder]
  have hnodup : ((arrived s.encoder.sent (positions l)).map fun src =>
      (src.id, src.symbol)).Nodup :=
    List.pairwise_map.mpr ((arrived_sorted hI.ids hb.fifo).imp fun hlt heq =>
      absurd (congrArg Prod.fst heq) (Nat.ne_of_lt hlt))
  have hgiven : ((arrived s.encoder.sent (positions l)).map fun src => (src.id, src.symbol)) ⊆
      s.decoder.data.map fun src => (src.id, src.symbol.take src.symbolSize) := by
    intro x hx
    obtain ⟨src, hsrc, rfl⟩ := List.mem_map.mp hx
    obtain ⟨given, hmem, hid⟩ := (held_iff_given hb h src.id).mp (held_arrived hb h src hsrc)
    obtain ⟨x, hx, -, hdata⟩ := intact_fifo hw hD hb h given hmem
    obtain ⟨k, -, hsent⟩ := mem_arrived.mp hsrc
    have hsymbol := hI.data src (Encoder.mem_sourcesOf.mpr (List.mem_of_getElem? hsent))
    rw [hcommitted, ← hid] at hsymbol
    obtain rfl := Option.some.inj (hx.symm.trans hsymbol)
    exact List.mem_map.mpr ⟨given, hmem, by rw [hid, hdata]⟩
  obtain ⟨m, hperm, hsub⟩ := List.subperm_of_subset hnodup hgiven
  have hout := hperm.map Prod.snd
  have hdata := hsub.map Prod.snd
  rw [List.map_map] at hout hdata
  exact ⟨m.map Prod.snd, hout, hdata⟩

/-- Two sources arrive, and four are given. -/
theorem forwarded_given_lossyEvents : ∃ s,
    runWhile (step (fun _ => 0) .release gf16) (fun s e => s.orderly .release e = true)
      (initial (fun _ => 0) false) lossyEvents = some s ∧
    (arrived s.encoder.sent (positions lossyEvents)).map EncoderSource.id = [0, 2] ∧
    s.decoder.data.map DecoderSource.id = [0, 2, 1, 3] ∧
    ∃ out, SourceForwarder.main .release (datagrams s.encoder.sent
        ((positions lossyEvents).map fun k => (k, Buffer.dirty bufferSize))) = .ok out ∧
      out.Subperm (s.decoder.data.map fun src => src.symbol.take src.symbolSize) := by
  have hrun : (runWhile (step (fun _ => 0) .release gf16) (fun s e => s.orderly .release e = true)
      (initial (fun _ => 0) false) lossyEvents).any (fun s => decide (
        (arrived s.encoder.sent (positions lossyEvents)).map EncoderSource.id = [0, 2] ∧
        s.decoder.data.map DecoderSource.id = [0, 2, 1, 3] ∧
        (Encoder.repairsOf s.encoder.sent).length < 2 ^ 32)) = true := by
    decide +kernel
  obtain ⟨s, hs, hd⟩ := (Option.any_eq_true _ _).mp hrun
  obtain ⟨harrived, hids, hrepairs⟩ := of_decide_eq_true hd
  have horderly := (run_of_runWhile hs).mono (D := Orderly .release gf16)
    fun u e hc => orderly_spec hc
  exact ⟨s, hs, harrived, hids, forwarded_given (by decide) (by decide) (by decide)
    ⟨by decide, hrepairs, by decide⟩ horderly (map_fst_dirty _)⟩

end System

end Netcode
