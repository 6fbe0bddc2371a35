import Netcode.Acknowledgement
import Netcode.Watermark.Keeping
import Netcode.Window

/-! What a call makes the decoder read, and what a call of the encoder sends. -/
namespace Netcode

open Containers Encodings Runs

variable {w : FieldSize} {b : Build} {g : GfComplete w} {clock : ℕ → ℤ}

namespace Decoder

variable {d d' : Decoder w} {c : Call} {p : List Byte} {held : List ℕ}

/-- What a packet is read as, by its type. -/
def Reads (b : Build) (p : List Byte) : Detail.Incoming → Prop
  | .source s => getPacketType p = .ok .source ∧ ∃ n, readSource b p = .ok (s, n)
  | .repair r => getPacketType p = .ok .repair ∧ ∃ n, readRepair b p = .ok (r, n)

theorem reads_repair {q : Detail.Incoming} {n : ℕ} (htype : getPacketType p = .ok .repair)
    (h : (readRepair b p).map (fun r => (Detail.Incoming.repair r.1, r.2)) = .ok (q, n)) :
    Reads b p q := by
  obtain ⟨r, hr, heq⟩ := map_ok_iff.mp h
  obtain ⟨rfl, -⟩ := Prod.mk.inj heq
  exact ⟨htype, r.2, hr⟩

theorem reads_source {q : Detail.Incoming} {n : ℕ} (htype : getPacketType p = .ok .source)
    (h : (readSource b p).map (fun s => (Detail.Incoming.source s.1, s.2)) = .ok (q, n)) :
    Reads b p q := by
  obtain ⟨s, hs, heq⟩ := map_ok_iff.mp h
  obtain ⟨rfl, -⟩ := Prod.mk.inj heq
  exact ⟨htype, s.2, hs⟩

theorem decoder_maybeAckOf (d : Decoder w) : (d.maybeAckOf clock held).decoder = d.decoder := by
  rw [maybeAckOf]
  split
  · rfl
  · split
    · dsimp only
      split
      · rfl
      · rfl
    · rfl

theorem decoder_handleSources (l : List Detail.Callback) (d : Decoder w) :
    (l.foldl (handleSource clock) d).decoder = d.decoder := by
  induction l generalizing d with
  | nil => rfl
  | cons c l ih => exact (ih (d.handleSource clock c)).trans (decoder_maybeAckOf _)

theorem handle_cases {x : Except Stop (Detail.Incoming × ℕ)} {y : Except Exception ℕ}
    (h : d.handle clock b g x = .ok (d', y)) : d'.decoder = d.decoder ∨
      ∃ q n, x = .ok (q, n) ∧ d.decoder.receive b g q = .ok d'.decoder := by
  cases x with
  | error e =>
    cases e with
    | fault f => cases h
    | thrown e =>
      cases h
      exact Or.inl rfl
  | ok q =>
    obtain ⟨q, n⟩ := q
    simp only [handle, forward, bind_ok_iff, Except.ok.injEq, Prod.mk.injEq] at h
    obtain ⟨u, ⟨v, hv, rfl⟩, rfl, -⟩ := h
    exact Or.inr ⟨q, n, rfl, by rw [decoder_handleSources]; exact hv⟩

/-- A call gives the real decoder at most what it reads in a packet. -/
theorem call_cases (h : d.call clock b g c = .ok d') : d'.decoder = d.decoder ∨
    ∃ p q, c = .packet p ∧ Reads b p q ∧ d.decoder.receive b g q = .ok d'.decoder := by
  cases c with
  | packet p =>
    obtain ⟨t, hn, rfl⟩ := map_ok_iff.mp h
    simp only [notify, bind_ok_iff] at hn
    obtain ⟨-, -, hn⟩ := hn
    split at hn
    · cases hn
    · cases hn
      exact Or.inl rfl
    · next htype =>
      rcases handle_cases hn with heq | ⟨q, n, hread, hreceive⟩
      · exact Or.inl heq
      · exact Or.inr ⟨p, q, rfl, reads_repair htype hread, hreceive⟩
    · next htype =>
      rcases handle_cases hn with heq | ⟨q, n, hread, hreceive⟩
      · exact Or.inl heq
      · exact Or.inr ⟨p, q, rfl, reads_source htype hread, hreceive⟩
    · cases hn
      exact Or.inl rfl
  | generateAck =>
    cases h
    exact Or.inl rfl
  | maybeAck =>
    cases h
    exact Or.inl (decoder_maybeAckOf d)
  | setAckFrequency f =>
    cases h
    exact Or.inl rfl
  | setAckNbPackets nb =>
    simp only [call, bind_ok_iff, Except.ok.injEq] at h
    obtain ⟨-, -, rfl⟩ := h
    exact Or.inl rfl

end Decoder

/-- The first identifier of a written list is read back, if any is. -/
theorem first_mem_decodedIds {ids : SourceIdList} {i k : ℕ} (h32 : k < 2 ^ 32)
    (hfirst : ids.toList.head? = some k) (hi : i ∈ decodedIds ids) : k ∈ decodedIds ids := by
  rw [decodedIds] at hi ⊢
  cases hids : ids.toList with
  | nil => simp [hids] at hfirst
  | cons first rest =>
    rw [hids, List.head?_cons, Option.some.injEq] at hfirst
    subst hfirst
    simp only [hids] at hi ⊢
    split at hi
    · exact absurd hi FlatSet.not_mem_empty
    · next hne =>
      rw [if_neg hne, mem_idsOfList, Nat.mod_eq_of_lt h32]
      exact List.mem_cons_self

namespace Encoder

variable {e e' : Encoder} {c : Call} {D : List (List Byte)} {sources : List EncoderSource}
  {sent : List WirePacket} {r : EncoderRepair} {k n m : ℕ}

/-- The sources of the window, and those to come, are not before an identifier. -/
structure StartsFrom (e : Encoder) (k : ℕ) : Prop where
  next : k ≤ e.currentSourceId
  window : ∀ s ∈ e.sources, k ≤ s.id

theorem startsFrom_called (hI : e.Window D) (hcount : (D ++ committed [c]).length < 2 ^ 32)
    (h : Called b g e c e') (hk : e.StartsFrom k) : e'.StartsFrom k := by
  rcases h.window with ⟨x, rfl, hs, hn⟩ | ⟨-, hn, hs⟩
  · have hlen : D.length + 1 < 2 ^ 32 := by
      rwa [show committed [Call.data x] = [x] from rfl, List.length_append] at hcount
    have hle := hk.next
    refine ⟨?_, fun s hmem => ?_⟩
    · rw [hn, hI.next, Nat.mod_eq_of_lt hlen]
      rw [hI.next] at hle
      omega
    · rw [hs] at hmem
      rcases List.mem_append.mp hmem with hmem | hmem
      · exact hk.window s (e.kept_sublist.subset hmem)
      · rw [List.mem_singleton.mp hmem]
        exact hle
  · refine ⟨hn ▸ hk.next, fun s hmem => hk.window s ?_⟩
    rcases hs with hs | ⟨p, a, l, -, -, hs⟩
    · rwa [hs] at hmem
    · rw [hs] at hmem
      exact (eraseSources_sublist e.sources _).subset hmem

/-- A repair whose first source is not past the window, and which its format can hold. -/
structure Follows (e : Encoder) (r : EncoderRepair) : Prop where
  length : r.symbol.length ≤ 65535
  ids : ∀ k, r.sourceIds.toList.head? = some k → k < 2 ^ 32 ∧ e.StartsFrom k

theorem follows_called (hI : e.Window D) (hcount : (D ++ committed [c]).length < 2 ^ 32)
    (h : Called b g e c e') (hr : e.Follows r) : e'.Follows r :=
  ⟨hr.length, fun k hk => ⟨(hr.ids k hk).1, startsFrom_called hI hcount h (hr.ids k hk).2⟩⟩

/-- The symbol of a repair is as long as the narrowed size of one of its sources. -/
theorem encode_length_le {repair : EncoderRepair}
    (h : Detail.Encoder.encode b g repair sources = .ok r) : r.symbol.length ≤ 65535 := by
  have hsize : ∀ src : EncoderSource, src.size ≤ 65535 := fun src =>
    Nat.le_of_lt_succ (Nat.mod_lt src.symbol.length (by decide))
  simp only [Detail.Encoder.encode, bind_ok_iff] at h
  obtain ⟨-, -, h⟩ := h
  cases sources with
  | nil => cases h
  | cons src sources =>
    obtain ⟨s, hs, h⟩ := bind_ok_iff.mp h
    refine foldlM_invariant (f := Detail.Encoder.addSource g) (fun u => u.symbol.length ≤ 65535)
      (fun a _ u v hu hv => ?_) ?_ h
    · simp only [Detail.Encoder.addSource, bind_ok_iff, Except.ok.injEq] at hv
      obtain ⟨t, ht, rfl⟩ := hv
      rw [(vec_multiplyAdd ht).1]
      split
      · rw [Detail.Encoder.length_resize]
        exact hsize a
      · exact hu
    · rw [(vec_multiply_exact (Detail.Encoder.length_resize _ _) hs).1]
      exact hsize src

theorem Sends.length_le (h : Sends b g sources n sent m) (hr : .repair r ∈ sent) :
    r.symbol.length ≤ 65535 := by
  induction h with
  | nil => cases hr
  | source _ _ ih => exact ih (by simpa using hr)
  | repair hencode _ ih =>
    rcases List.mem_cons.mp hr with heq | hr
    · cases heq
      exact encode_length_le hencode
    · exact ih hr

/-- A repair just sent lists the window. -/
theorem Sends.follows (hI : e.Window D) (hcount : D.length < 2 ^ 32)
    (h : Sends b g e.sources n sent m) (hr : .repair r ∈ sent) : e.Follows r := by
  refine ⟨h.length_le hr, fun k hk => ?_⟩
  rw [h.lists hI.sorted hr] at hk
  cases hs : e.sources with
  | nil => simp [hs] at hk
  | cons s l =>
    have hsorted := hI.sorted
    rw [hs, List.map_cons, List.pairwise_cons] at hsorted
    rw [hs, List.map_cons, List.head?_cons, Option.some.injEq] at hk
    subst hk
    have hlt : s.id < e.currentSourceId := hI.lt (by rw [hs]; exact List.mem_cons_self)
    refine ⟨hlt.trans (hI.next ▸ hcount), hlt.le, fun t ht => ?_⟩
    rw [hs] at ht
    rcases List.mem_cons.mp ht with rfl | ht
    · exact le_rfl
    · exact (hsorted.1 t.id (List.mem_map_of_mem ht)).le

end Encoder

end Netcode
