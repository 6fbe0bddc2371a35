import Netcode.Acknowledged
import Netcode.Schedule

/-! What an encoder sends: each packet follows those sent before, and names sources that were
committed. -/
namespace Netcode

open Containers Encodings Runs

variable {w : FieldSize} {b : Build} {g : GfComplete w}

namespace Encoder

variable {e e' : Encoder} {c : Call} {src : EncoderSource}

/-- A call sends its source, if any, before repairs. -/
def SendsFirst (e e' : Encoder) (k : ℕ) : Prop :=
  ∃ (l : List EncoderSource) (rs : List EncoderRepair),
    e'.sent = e.sent ++ (l.map WirePacket.source ++ rs.map WirePacket.repair) ∧ ∀ s ∈ l, s.id = k

theorem sendsFirst_call (h : e.call b g c = .ok e') : SendsFirst e e' e.currentSourceId := by
  obtain ⟨-, rs, hsent, -⟩ := call_sent h
  refine ⟨e.sentSources c, rs, hsent, fun s hs => ?_⟩
  obtain ⟨x, -, rfl⟩ := mem_sentSources hs
  rfl

theorem Sends.mem {sources : List EncoderSource} {n m : ℕ} {sent : List WirePacket}
    (h : Sends b g sources n sent m) (hsrc : .source src ∈ sent) : src ∈ sources := by
  induction h with
  | nil => cases hsrc
  | source hs _ ih =>
    rcases List.mem_cons.mp hsrc with heq | hsrc
    · cases heq
      exact hs
    · exact ih hsrc
  | repair _ _ ih => exact ih (by simpa using hsrc)

/-- No repair is generated from an empty window. -/
theorem Sends.nonempty {sources : List EncoderSource} {n m : ℕ} {sent : List WirePacket}
    {r : EncoderRepair} (h : Sends b g sources n sent m) (hr : .repair r ∈ sent) : sources ≠ [] := by
  induction h with
  | nil => cases hr
  | source _ _ ih => exact ih (by simpa using hr)
  | repair hencode _ _ =>
    rintro rfl
    obtain ⟨-, -, h⟩ := bind_ok_iff.mp hencode
    cases h

end Encoder

/-- A repair sent later starts later, and encodes all that the former one does but for what is
held; a source sent after a repair is newer than all that it encodes. -/
def WirePacket.Precedes (held : ℕ → Prop) : WirePacket → WirePacket → Prop
  | .repair r, .repair r' => (∀ i ∈ r.sourceIds, i ∈ r'.sourceIds ∨ held i) ∧
      ∀ k, r.sourceIds.toList.head? = some k → ∀ i ∈ r'.sourceIds, k ≤ i
  | .repair r, .source src => ∀ i ∈ r.sourceIds, i < src.id
  | _, _ => True

theorem WirePacket.Precedes.mono {held held' : ℕ → Prop} (hheld : ∀ i, held i → held' i)
    {p q : WirePacket} (h : p.Precedes held q) : p.Precedes held' q := by
  cases p with
  | ack a => trivial
  | source src => trivial
  | repair r =>
    cases q with
    | ack a => trivial
    | source src => exact h
    | repair r' => exact ⟨fun i hi => (h.1 i hi).imp_right (hheld i), h.2⟩

/-- The identifiers a packet of the encoder names. -/
def WirePacket.ids : WirePacket → List ℕ
  | .ack _ => []
  | .repair r => r.sourceIds.toList
  | .source src => [src.id]

namespace WirePacket

variable {p : WirePacket} {r : EncoderRepair} {src : EncoderSource} {q : Detail.Incoming}
  {sent : List WirePacket} {order : List ℕ} {k : ℕ}

theorem mem_arrivals : q ∈ arrivals b sent order ↔
    ∃ k ∈ order, ∃ p, sent[k]? = some p ∧ p.incoming b = .ok q := by
  simp only [arrivals, List.mem_filterMap, Option.bind_eq_some_iff]
  refine exists_congr fun k => and_congr_right fun _ => exists_congr fun p => and_congr_right fun _ => ?_
  cases p.incoming b <;> simp [Except.toOption]

theorem incoming_repair (hlen : r.symbol.length ≤ 65535) (h32 : ∀ i ∈ r.sourceIds, i < 2 ^ 32)
    (he : Encodable r.sourceIds) (hq : (repair r).incoming b = .ok q) :
    ∃ q', q = .repair q' ∧ q'.id = r.id % 256 ^ 4 ∧ q'.sourceIds = r.sourceIds := by
  rw [incoming, readRepair_repairBytes b hlen, decodedIds_of_encodable h32 he] at hq
  cases hq
  exact ⟨_, rfl, rfl, rfl⟩

theorem incoming_source (h32 : src.id < 2 ^ 32) (hq : (source src).incoming b = .ok q) :
    ∃ q', q = .source q' ∧ q'.id = src.id := by
  have hid : src.id % 256 ^ 4 = src.id := Nat.mod_eq_of_lt h32
  rw [incoming, readSource, writeSource, assertPacketType_code] at hq
  simp only [ok_bind, read_byte, read_bigEndian, map_ok_iff, bind_ok_iff, Prod.exists] at hq
  obtain ⟨a, n, ⟨r1, -, h⟩, rfl⟩ := hq
  cases h
  exact ⟨_, rfl, hid⟩

/-- A packet read as a repair is one. -/
theorem eq_repair {q : DecoderRepair} (hq : p.incoming b = .ok (.repair q)) : ∃ r, p = repair r := by
  cases p with
  | ack a => cases hq
  | repair r => exact ⟨r, rfl⟩
  | source src =>
    rw [incoming] at hq
    obtain ⟨x, -, h⟩ := map_ok_iff.mp hq
    cases h

/-- What reached the decoder was sent earlier than what it now receives. -/
theorem arrivals_append {later : List WirePacket} (h : ∀ k ∈ order, k < sent.length) :
    arrivals b (sent ++ later) order = arrivals b sent order :=
  List.filterMap_congr fun k hk => by rw [List.getElem?_append_left (h k hk)]

end WirePacket

namespace System

variable {s s' : System w} {l : List Event} {D : List (List Byte)} {i k : ℕ} {q : Detail.Incoming}

/-- Packets follow those sent before, and name sources that were committed, repairs at least one. -/
structure Logged (s : System w) : Prop where
  follow : s.encoder.sent.Pairwise (WirePacket.Precedes s.decoder.decoder.Held)
  nonempty : ∀ r, .repair r ∈ s.encoder.sent → r.sourceIds.toList ≠ []
  committed : ∀ p ∈ s.encoder.sent, ∀ i ∈ p.ids, i < s.encoder.currentSourceId

theorem logged_sent (hI : s.Logged) (hheld : ∀ i, s.decoder.decoder.Held i →
    s'.decoder.decoder.Held i) (henc : s'.encoder = s.encoder) : s'.Logged := by
  refine ⟨?_, by rw [henc]; exact hI.nonempty, by rw [henc]; exact hI.committed⟩
  rw [henc]
  exact hI.follow.imp fun h => h.mono hheld

theorem head_le {l : List ℕ} (hsorted : l.Pairwise (· < ·)) (hk : l.head? = some k) (hi : i ∈ l) :
    k ≤ i := by
  cases l with
  | nil => cases hk
  | cons j l =>
    cases hk
    rcases List.mem_cons.mp hi with rfl | hi
    · exact le_rfl
    · exact ((List.pairwise_cons.mp hsorted).1 i hi).le

/-- What a call sends follows what was sent before. -/
theorem logged_called {c : Encoder.Call} (hI : s.Logged) (hs : s'.Accounted D)
    (hheld : ∀ i, s.decoder.decoder.Held i → s'.decoder.decoder.Held i)
    (hle : s.encoder.currentSourceId ≤ s'.encoder.currentSourceId)
    (h : s.encoder.call b g c = .ok s'.encoder) : s'.Logged := by
  have hcalled := Encoder.call_called h
  obtain ⟨l, rs, hsent, hl⟩ := Encoder.sendsFirst_call h
  obtain ⟨sent, hsent', hsends⟩ := hcalled.sent
  obtain rfl : sent = l.map WirePacket.source ++ rs.map WirePacket.repair :=
    List.append_cancel_left (hsent'.symm.trans hsent)
  have hsorted := hs.ordered.window.sorted
  have hlists : ∀ r ∈ rs, r.sourceIds.toList = s'.encoder.sources.map EncoderSource.id :=
    fun r hr => hsends.lists hsorted (List.mem_append_right _ (List.mem_map_of_mem hr))
  have hwindow : ∀ i ∈ s'.encoder.sources.map EncoderSource.id, i < s'.encoder.currentSourceId := by
    intro i hi
    obtain ⟨src, hsrc, rfl⟩ := List.mem_map.mp hi
    exact hs.ordered.window.lt hsrc
  refine ⟨?_, fun r hr => ?_, fun p hp i hi => ?_⟩
  · rw [hsent, List.pairwise_append, List.pairwise_append]
    refine ⟨hI.follow.imp fun h => h.mono hheld, ⟨?_, ?_, ?_⟩, fun p hp q hq => ?_⟩
    · exact List.pairwise_map.mpr (List.pairwise_of_forall fun _ _ => trivial)
    · refine List.pairwise_map.mpr (List.pairwise_of_forall_mem_list fun r hr r' hr' => ?_)
      refine ⟨fun i hi => Or.inl ?_, fun k hk i hi => ?_⟩
      · rwa [FlatSet.mem_iff, hlists r' hr', ← hlists r hr]
      · rw [hlists r hr] at hk
        rw [FlatSet.mem_iff, hlists r' hr'] at hi
        exact head_le hsorted hk hi
    · intro p hp q _
      obtain ⟨src, -, rfl⟩ := List.mem_map.mp hp
      trivial
    · cases p with
      | ack a => trivial
      | source src => trivial
      | repair r =>
        rcases List.mem_append.mp hq with hq | hq
        · obtain ⟨src, hsrc, rfl⟩ := List.mem_map.mp hq
          exact fun i hi => hl src hsrc ▸ hI.committed _ hp i hi
        · obtain ⟨r', hr', rfl⟩ := List.mem_map.mp hq
          refine ⟨fun i hi => ?_, fun k hk i hi => ?_⟩
          · rw [FlatSet.mem_iff, hlists r' hr']
            exact hs.sources i ((hI.committed _ hp i hi).trans_le hle)
          · rw [FlatSet.mem_iff, hlists r' hr'] at hi
            obtain ⟨src, hsrc, rfl⟩ := List.mem_map.mp hi
            refine ((hs.ordered.repairs r ?_).ids k hk).2.window src hsrc
            rw [hsent]
            exact List.mem_append_left _ hp
  · rw [hsent] at hr
    rcases List.mem_append.mp hr with hr | hr
    · exact hI.nonempty r hr
    · rw [hsends.lists hsorted hr]
      exact fun hnil => hsends.nonempty hr (List.map_eq_nil_iff.mp hnil)
  · rw [hsent] at hp
    rcases List.mem_append.mp hp with hp | hp
    · exact (hI.committed p hp i hi).trans_le hle
    · refine hwindow i ?_
      rcases List.mem_append.mp hp with hnew | hnew
      · obtain ⟨src, hsrc, rfl⟩ := List.mem_map.mp hnew
        rw [List.mem_singleton.mp hi]
        exact List.mem_map_of_mem (hsends.mem hp)
      · obtain ⟨r, hr, rfl⟩ := List.mem_map.mp hnew
        rw [← hlists r hr]
        exact hi

end System

end Netcode
