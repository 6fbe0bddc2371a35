import Netcode.Optimality

/-! What a decoder knows or forgot stays so, and an acknowledgement lists such sources only. -/
namespace Netcode

open Containers Runs

variable {w : FieldSize} {b : Build} {g : GfComplete w} {clock : ℕ → ℤ}

namespace Detail.Decoder

variable {d d' d1 : Decoder w} {src : DecoderSource} {p : Incoming} {l : List ℕ} {i k : ℕ}

/-- The known sources stay, and the callback only sees sources that are known afterwards. -/
structure Shows (d d' : Decoder w) : Prop where
  keeps : d.Keeps d'
  calls : ∃ cs, d'.callbacks = d.callbacks ++ cs ∧
    ∀ c ∈ cs, ∀ i ∈ c.known, d'.sources.contains i = true

theorem shows_quiet (h : d.Keeps d') (hc : d'.callbacks = d.callbacks) : d.Shows d' :=
  ⟨h, [], by rw [hc, List.append_nil], fun _ hc => absurd hc List.not_mem_nil⟩

theorem Shows.refl (d : Decoder w) : d.Shows d := shows_quiet (Keeps.refl d) rfl

theorem Shows.trans (h : d.Shows d1) (h' : d1.Shows d') : d.Shows d' := by
  obtain ⟨cs, hcs, hknown⟩ := h.calls
  obtain ⟨cs', hcs', hknown'⟩ := h'.calls
  refine ⟨h.keeps.trans h'.keeps, cs ++ cs', by rw [hcs', hcs, List.append_assoc], fun c hc => ?_⟩
  rcases List.mem_append.mp hc with hc | hc
  · exact fun i hi => contains_keeps h'.keeps (hknown c hc i hi)
  · exact hknown' c hc

theorem shows_hands (h : Hands l d d') : d.Shows d' := by
  obtain ⟨cs, hcs, -, hknown⟩ := h.calls
  refine ⟨keeps_delivers h.frame, cs, hcs, fun c hc i hi => ?_⟩
  rw [sources_delivers h.frame, OrdMap.contains_iff_mem_keys, ← hknown c hc]
  exact hi

theorem shows_callback (src : DecoderSource) (d : Decoder w) : d.Shows (d.callback src) := by
  refine ⟨keeps_of_eq rfl rfl rfl, [_], rfl, fun c hc i hi => ?_⟩
  rw [List.mem_singleton.mp hc] at hi
  exact OrdMap.contains_iff_mem_keys.mpr hi

theorem shows_flush (h : d.flushOrderedSources b = .ok d') : d.Shows d' :=
  flushOrderedSources_rule (fun u => d.Shows u)
    (fun _ v hu _ hv => hu.trans ((shows_hands (hands_sweep hv)).trans
      (shows_hands (hands_advance v)))) (Shows.refl d) h

theorem shows_give (h : (d.callback src).advance.flushOrderedSources b = .ok d') : d.Shows d' :=
  ((shows_callback src d).trans (shows_hands (hands_advance _))).trans (shows_flush h)

theorem shows_offer (h : d.offer b src = .ok d') : d.Shows d' := by
  rcases offer_cases h with ⟨-, rfl⟩ | ⟨-, ⟨-, hf⟩ | ⟨-, rfl⟩⟩
  · exact shows_callback src d
  · exact shows_give hf
  · exact Shows.refl d'

theorem shows_dropOrdered (h : d.dropOrdered b k = .ok d') : d.Shows d' := by
  rw [dropOrdered] at h
  split at h
  · obtain ⟨d1, h1, h2⟩ := bind_ok_iff.mp h
    have hmove : d1.Shows { d1 with
        firstMissingSourceInOrder := max d1.firstMissingSourceInOrder k } :=
      shows_quiet (keeps_of_eq rfl rfl rfl) rfl
    exact (shows_hands (hands_sweepLoop h1)).trans (hmove.trans (shows_flush h2))
  · cases h
    exact Shows.refl d

theorem shows_insertDecoded (h : d.insertDecoded b src = .ok d') : d.Shows d' := by
  have hkeeps := keeps_insertDecoded h
  obtain ⟨inserted, d1, hins, rfl, hcases⟩ := insertDecoded_cases h
  have hsame : d.sources.find? src.id = none ∨ d.sources.find? src.id = some inserted := by
    rw [hins]
    cases d.sources.find? src.id with
    | none => exact Or.inl rfl
    | some x => exact Or.inr rfl
  have hinsert : d.Shows { d with sources := d.sources.insert src.id inserted } :=
    shows_quiet (keeps_insert hsame) rfl
  rcases hcases with ⟨-, rfl⟩ | ⟨-, -, hf⟩ | ⟨-, -, rfl⟩
  · exact hinsert.trans (shows_callback inserted _)
  · exact hinsert.trans (shows_give hf)
  · exact shows_quiet hkeeps rfl

theorem shows_rule (d0 : Decoder w) :
    PeelRule b g (fun _ _ d => d0.Shows d) (fun _ d => d0.Shows d) where
  add hP _ ho hs := by
    have heq := (stripFromRepairs_spec hs).1
    refine (hP.trans (shows_offer ho)).trans (shows_quiet ?_ (by rw [heq]))
    exact keeps_of_eq (by rw [heq]) (by rw [heq]) (by rw [heq])
  decode hI _ _ _ _ _ _ := hI.trans (shows_quiet (keeps_of_eq rfl rfl rfl) rfl)
  store hI h := hI.trans (shows_quiet (keeps_store h) (by rw [(store_spec h).2]))

theorem shows_attemptFullDecoding (h : d.attemptFullDecoding b g = .ok d') : d.Shows d' := by
  rcases attemptFullDecoding_cases h with
    ⟨rfl, -⟩ | ⟨-, _, _, m, -, -, ⟨k, -, hf⟩ | ⟨-, ha⟩⟩
  · exact Shows.refl d'
  · obtain ⟨_, _, -, heq, -⟩ := dropFaulty_spec hf
    refine shows_quiet (keeps_of_eq ?_ ?_ ?_) ?_
    all_goals rw [heq]
  · obtain ⟨d1, h1, rfl⟩ := decodeAll_cases ha
    have hstart : d.Shows { d with coefficients := m.mat, inv := m.inv } :=
      shows_quiet (keeps_of_eq rfl rfl rfl) rfl
    have hloop := foldlM_invariant (f := decodeColumn b g _) (fun u => d.Shows u) ?_ hstart h1
    · exact hloop.trans (shows_quiet (keeps_of_eq rfl rfl rfl) rfl)
    · intro miss _ u v hu hv
      obtain ⟨_, _, -, -, hins⟩ := decodeColumn_cases hv
      exact hu.trans (shows_insertDecoded hins)

/-- A source is known, or is older than what the decoder keeps. -/
def Held (d : Decoder w) (i : ℕ) : Prop := d.outdated i = true ∨ d.sources.contains i = true

/-- The calls of the callback only see sources that are known afterwards, but for the outdated
ones. -/
theorem calls_receive (hL : d.ListedStored) (h : d.receive b g p = .ok d') :
    ∃ cs, d'.callbacks = d.callbacks ++ cs ∧ ∀ c ∈ cs, ∀ i ∈ c.known, d'.Held i := by
  have hshows : d.Shows d' → ∃ cs, d'.callbacks = d.callbacks ++ cs ∧
      ∀ c ∈ cs, ∀ i ∈ c.known, d'.Held i := by
    intro hs
    obtain ⟨cs, hcs, hknown⟩ := hs.calls
    exact ⟨cs, hcs, fun c hc i hi => Or.inr (hknown c hc i hi)⟩
  cases p with
  | source src =>
    rcases receiveSource_cases h with ⟨rfl, -⟩ | ⟨-, -, d1, h1, h2⟩
    · exact hshows (Shows.refl d')
    · exact hshows (((shows_rule d).addSource hL (Shows.refl d) h1).trans
        (shows_attemptFullDecoding h2))
  | repair r =>
    have hforgotten : ∀ i, d.sources.contains i = true → d'.Held i := by
      intro i hi
      cases hgone : d'.sources.contains i with
      | true => exact Or.inr hgone
      | false => exact Or.inl (outdated_of_forgotten hL h hi hgone)
    have hdropped : ∀ u : Decoder w, d.dropOutdated b (firstId r) = .ok u → u.Shows d' →
        ∃ cs, d'.callbacks = d.callbacks ++ cs ∧ ∀ c ∈ cs, ∀ i ∈ c.known, d'.Held i := by
      intro u hu hs
      obtain ⟨u1, u2, heq, h2, rfl, -⟩ := dropOutdated_cases hu
      obtain ⟨cs, hcs, hknown⟩ := (shows_dropOrdered h2).calls
      obtain ⟨cs', hcs', hknown'⟩ := hs.calls
      have hsources : u2.sources = d.sources := by
        rw [sources_delivers (dropOrdered_delivers h2), heq]
      refine ⟨cs ++ cs', ?_, fun c hc i hi => ?_⟩
      · rw [hcs', ← List.append_assoc]
        refine congrArg (· ++ cs') (hcs.trans ?_)
        rw [heq]
      · rcases List.mem_append.mp hc with hc | hc
        · exact hforgotten i (hsources ▸ hknown c hc i hi)
        · exact Or.inr (hknown' c hc i hi)
    obtain ⟨-, ⟨rfl, -⟩ | ⟨hacc, ⟨d1, h1, -, rfl⟩ | ⟨d1, d2, r2, ha, h2⟩⟩⟩ :=
      receiveRepair_cases h
    · exact hshows (Shows.refl d')
    · exact hdropped d1 h1 (shows_quiet (keeps_of_eq rfl rfl rfl) rfl)
    · have hA := ha.accepted (contains_of_accepts hacc)
      have hlinked : d1.Shows d2 := by
        refine shows_quiet (keeps_of_eq ?_ ?_ ?_) ?_
        all_goals rw [hA.frame]
      refine hdropped d1 ha.drop (hlinked.trans ?_)
      rcases h2 with ⟨hone, src, hc, hadd⟩ | ⟨-, hfull⟩
      · exact (shows_rule d2).addSource (listedStored_removeDecoded (hA.listedStored hL) hA.stored
          (createSourceFromRepair_only hc hone)) (shows_quiet (keeps_of_eq rfl rfl rfl) rfl) hadd
      · exact shows_attemptFullDecoding hfull

/-- What is held remains so, unless the oldest identifier to keep moves backwards. -/
theorem held_receive (hL : d.ListedStored) (hr : d.retreats p = false)
    (h : d.receive b g p = .ok d') (hi : d.Held i) : d'.Held i := by
  rcases hi with hi | hi
  · exact Or.inl (outdated_receive hL hr h hi)
  · cases hgone : d'.sources.contains i with
    | true => exact Or.inr hgone
    | false => exact Or.inl (outdated_of_forgotten hL h hi hgone)

end Detail.Decoder

namespace Decoder

variable {d d' : Decoder w} {c : Call} {a : SentAck} {held : List ℕ} {q : Detail.Incoming}
  {l : List Detail.Callback}

theorem sent_maybeAckOf (h : a ∈ (d.maybeAckOf clock held).sent) : a ∈ d.sent ∨ a.held = held := by
  have hgenerated : a ∈ (d.generateAckOf held).sent → a ∈ d.sent ∨ a.held = held := by
    intro h
    rcases List.mem_append.mp h with h | h
    · exact Or.inl h
    · rw [List.mem_singleton.mp h]
      exact Or.inr rfl
  rw [maybeAckOf] at h
  split at h
  · exact hgenerated h
  · split at h
    · dsimp only at h
      split at h
      · exact hgenerated h
      · exact Or.inl h
    · exact Or.inl h

theorem sent_handleSources (h : a ∈ (l.foldl (handleSource clock) d).sent) :
    a ∈ d.sent ∨ ∃ c ∈ l, a.held = c.known := by
  induction l generalizing d with
  | nil => exact Or.inl h
  | cons c l ih =>
    rcases ih h with h | ⟨c', hc', ha⟩
    · rcases sent_maybeAckOf h with h | ha
      · exact Or.inl h
      · exact Or.inr ⟨c, List.mem_cons_self, ha⟩
    · exact Or.inr ⟨c', List.mem_cons_of_mem c hc', ha⟩

/-- Whatever was acknowledged is held. -/
def Answers (d : Decoder w) : Prop := ∀ a ∈ d.sent, ∀ i ∈ a.held, d.decoder.Held i

theorem answers_maybeAckOf (hI : d.Answers) (hheld : ∀ i ∈ held, d.decoder.Held i) :
    (d.maybeAckOf clock held).Answers := by
  intro a ha i hi
  rw [decoder_maybeAckOf]
  rcases sent_maybeAckOf ha with ha | heq
  · exact hI a ha i hi
  · exact hheld i (heq ▸ hi)

theorem answers_forward (hL : d.decoder.ListedStored) (hr : d.decoder.retreats q = false)
    (hI : d.Answers) (h : d.forward clock b g q = .ok d') : d'.Answers := by
  simp only [forward, bind_ok_iff, Except.ok.injEq] at h
  obtain ⟨u, hu, rfl⟩ := h
  obtain ⟨cs, hcs, hknown⟩ := Detail.Decoder.calls_receive hL hu
  intro a ha i hi
  rw [decoder_handleSources]
  rcases sent_handleSources ha with ha | ⟨c, hc, heq⟩
  · exact Detail.Decoder.held_receive hL hr hu (hI a ha i hi)
  · rw [hcs, List.drop_left] at hc
    exact hknown c hc i (heq ▸ hi)

/-- What was read is given to the real decoder. -/
theorem handle_forwards {x : Except Stop (Detail.Incoming × ℕ)} {y : Except Exception ℕ}
    (h : d.handle clock b g x = .ok (d', y)) : x.toOption = none ∧ d' = d ∨
      ∃ q n, x = .ok (q, n) ∧ d.forward clock b g q = .ok d' := by
  cases x with
  | error e =>
    cases e with
    | fault f => cases h
    | thrown e =>
      cases h
      exact Or.inl ⟨rfl, rfl⟩
  | ok q =>
    obtain ⟨q, n⟩ := q
    simp only [handle, bind_ok_iff, Except.ok.injEq, Prod.mk.injEq] at h
    obtain ⟨u, hu, rfl, -⟩ := h
    exact Or.inr ⟨q, n, rfl, hu⟩

/-- Nothing but counters differs. -/
structure Counts (d d' : Decoder w) : Prop where
  decoder : d'.decoder = d.decoder
  sent : d'.sent = d.sent
  data : d'.data = d.data

/-- A packet of the encoder is given to the real decoder, unless it cannot be read. -/
theorem call_bytes {p : WirePacket} (h : d.call clock b g (.packet p.bytes) = .ok d') :
    (p.incoming b).toOption = none ∧ d.Counts d' ∨
      ∃ q, ∃ u : Decoder w, p.incoming b = .ok q ∧ d.Counts u ∧
        u.forward clock b g q = .ok d' := by
  obtain ⟨⟨d', y⟩, hn, rfl⟩ := map_ok_iff.mp h
  simp only [notify, bind_ok_iff] at hn
  obtain ⟨-, -, hn⟩ := hn
  cases p with
  | ack a =>
    have htype : getPacketType (writeAck a) = .ok .ack := by
      simp [writeAck, getPacketType, PacketType.code]
    simp only [WirePacket.bytes, htype] at hn
    cases hn
    exact Or.inl ⟨rfl, rfl, rfl, rfl⟩
  | repair r =>
    have htype : getPacketType (repairBytes r) = .ok .repair := by
      simp [repairBytes, getPacketType, PacketType.code]
    simp only [WirePacket.bytes, htype] at hn
    rw [WirePacket.incoming]
    cases hread : readRepair b (repairBytes r) with
    | error e =>
      rw [hread] at hn
      rcases handle_forwards hn with ⟨-, rfl⟩ | ⟨q, n, hq, -⟩
      · exact Or.inl ⟨rfl, rfl, rfl, rfl⟩
      · cases hq
    | ok q =>
      rw [hread] at hn
      rcases handle_forwards hn with ⟨hq, -⟩ | ⟨q, n, hq, hf⟩
      · cases hq
      · cases hq
        exact Or.inr ⟨_, { d with nbReceivedRepairs := d.nbReceivedRepairs + 1 }.countPacket,
          rfl, ⟨rfl, rfl, rfl⟩, hf⟩
  | source src =>
    have htype : getPacketType (writeSource src) = .ok .source := by
      simp [writeSource, getPacketType, PacketType.code]
    simp only [WirePacket.bytes, htype] at hn
    rw [WirePacket.incoming]
    cases hread : readSource b (writeSource src) with
    | error e =>
      rw [hread] at hn
      rcases handle_forwards hn with ⟨-, rfl⟩ | ⟨q, n, hq, -⟩
      · exact Or.inl ⟨rfl, rfl, rfl, rfl⟩
      · cases hq
    | ok q =>
      rw [hread] at hn
      rcases handle_forwards hn with ⟨hq, -⟩ | ⟨q, n, hq, hf⟩
      · cases hq
      · cases hq
        exact Or.inr ⟨_, { d with nbReceivedSources := d.nbReceivedSources + 1 }.countPacket,
          rfl, ⟨rfl, rfl, rfl⟩, hf⟩

/-- A call of the user leaves the real decoder alone, and acknowledges what it knows. -/
theorem answers_quiet (hc : ∀ p, c ≠ .packet p) (hI : d.Answers)
    (h : d.call clock b g c = .ok d') : d'.decoder = d.decoder ∧ d'.Answers := by
  have hkeys : ∀ i ∈ d.decoder.sources.keys, d.decoder.Held i := fun i hi =>
    Or.inr (OrdMap.contains_iff_mem_keys.mpr hi)
  cases c with
  | packet p => exact absurd rfl (hc p)
  | generateAck =>
    cases h
    refine ⟨rfl, fun a ha i hi => ?_⟩
    rcases List.mem_append.mp ha with ha | ha
    · exact hI a ha i hi
    · rw [List.mem_singleton.mp ha] at hi
      exact hkeys i hi
  | maybeAck =>
    cases h
    exact ⟨decoder_maybeAckOf d, answers_maybeAckOf hI hkeys⟩
  | setAckFrequency f =>
    cases h
    exact ⟨rfl, hI⟩
  | setAckNbPackets nb =>
    simp only [call, bind_ok_iff, Except.ok.injEq] at h
    obtain ⟨-, -, rfl⟩ := h
    exact ⟨rfl, hI⟩

end Decoder

end Netcode
