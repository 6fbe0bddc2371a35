import Netcode.Totality

/-! The parameters of an encoder: what its calls keep of them, what it counts, and how the window
stays within its limit. -/
namespace Netcode

open Containers Encodings Runs

variable {w : FieldSize} {b : Build} {g : GfComplete w}

namespace Encoder

variable {e e' e1 : Encoder} {c : Call} {cs : List Call} {a : Ack} {n : ℕ}

/-- A call processes an acknowledgement. -/
def Acknowledges (b : Build) (c : Call) (a : Ack) : Prop :=
  ∃ p n, c = .packet p ∧ getPacketType p = .ok .ack ∧ readAck b p = .ok (a, n)

/-- What is given to the packet handler is counted, on 16 bits; the parameters stay. -/
structure Counts (e e' : Encoder) : Prop where
  rate : e'.rate = e.rate
  adaptive : e'.adaptive = e.adaptive
  windowSize : e'.windowSize = e.windowSize
  sent : e'.nbSentPackets + e.sent.length ≡ e.nbSentPackets + e'.sent.length [MOD 2 ^ 16]
  bounded : e.nbSentPackets < 2 ^ 16 → e'.nbSentPackets < 2 ^ 16

theorem Counts.trans (h : Counts e e1) (h' : Counts e1 e') : Counts e e' where
  rate := h'.rate.trans h.rate
  adaptive := h'.adaptive.trans h.adaptive
  windowSize := h'.windowSize.trans h.windowSize
  sent := by
    have hsum := h.sent.add h'.sent
    refine Nat.ModEq.add_right_cancel' (e1.nbSentPackets + e1.sent.length) ?_
    rw [Nat.ModEq] at hsum ⊢
    omega
  bounded := h'.bounded ∘ h.bounded

/-- Nothing is sent. -/
theorem counts_quiet (hr : e'.rate = e.rate) (ha : e'.adaptive = e.adaptive)
    (hw : e'.windowSize = e.windowSize) (hs : e'.sent = e.sent)
    (hn : e'.nbSentPackets = e.nbSentPackets) : Counts e e' :=
  ⟨hr, ha, hw, by rw [hs, hn], by rw [hn]; exact id⟩

/-- One packet is sent. -/
theorem counts_one {p : WirePacket} (hr : e'.rate = e.rate) (ha : e'.adaptive = e.adaptive)
    (hw : e'.windowSize = e.windowSize) (hs : e'.sent = e.sent ++ [p])
    (hn : e'.nbSentPackets = (e.nbSentPackets + 1) % 2 ^ 16) : Counts e e' := by
  refine ⟨hr, ha, hw, ?_, fun _ => ?_⟩
  · rw [hs, hn, List.length_append, List.length_singleton, Nat.ModEq]
    omega
  · rw [hn]
    exact Nat.mod_lt _ (by decide)

theorem counts_generateRepair (h : generateRepair b g e = .ok e') : Counts e e' := by
  obtain ⟨r, -, -, rfl⟩ := generateRepair_ok_iff.mp h
  exact counts_one rfl rfl rfl rfl rfl

theorem counts_sendSource {src : EncoderSource} (h : sendSource b g src e = .ok e') :
    Counts e e' := by
  rw [sendSource] at h
  split at h
  · cases h
    exact counts_one rfl rfl rfl rfl rfl
  · exact counts_generateRepair h

theorem counts_repairIfNeeded (h : repairIfNeeded b g e = .ok e') : Counts e e' := by
  rw [repairIfNeeded] at h
  split at h
  · cases h
  · split at h
    · exact counts_generateRepair h
    · cases h
      exact counts_quiet rfl rfl rfl rfl rfl

theorem counts_commit {d : List Byte} (h : commit b g d e = .ok e') : Counts e e' := by
  simp only [commit, bind_ok_iff, Except.ok.injEq] at h
  obtain ⟨e1, h1, e2, h2, e3, h3, rfl⟩ := h
  obtain rfl := evict_ok h1
  have hquiet : Counts e
      { e with sources := e.kept ++ [⟨e.currentSourceId, d⟩] } := counts_quiet rfl rfl rfl rfl rfl
  have hlast : Counts e3 { e3 with currentSourceId := (e3.currentSourceId + 1) % 2 ^ 32 } :=
    counts_quiet rfl rfl rfl rfl rfl
  exact ((hquiet.trans (counts_sendSource h2)).trans (counts_repairIfNeeded h3)).trans hlast

/-- What a call does to the rate, the mode and the count of packets sent. -/
theorem call_counts (h : e.call b g c = .ok e') :
    (Counts e e' ∧ ∀ a, ¬ Acknowledges b c a) ∨
    (∃ rate, c = .setRate rate ∧ e' = { e with rate := rate }) ∨
    (∃ adaptive, c = .setAdaptive adaptive ∧ e' = { e with adaptive := adaptive }) ∨
    (∃ sz, c = .setWindowSize sz ∧ e' = { e with windowSize := sz }) ∨
    ∃ a, Acknowledges b c a ∧ e' = { e with nbAcks := e.nbAcks + 1 }.notifyAck a := by
  have hother : (∀ p, c ≠ .packet p) → ∀ a, ¬ Acknowledges b c a := by
    rintro hc a ⟨p, n, rfl, -⟩
    exact hc p rfl
  cases c with
  | data d =>
    simp only [call, data, bind_ok_iff] at h
    obtain ⟨-, -, -, -, h⟩ := h
    exact Or.inl ⟨counts_commit h, hother fun _ => by simp⟩
  | packet p =>
    obtain ⟨q, hn, rfl⟩ := map_ok_iff.mp h
    rcases notify_cases hn with ⟨hq, x, hx⟩ | ⟨a, n, htype, hread, -, hq⟩
    · refine Or.inl ⟨?_, ?_⟩
      · rcases hq with hq | hq
        · rw [hq]
          exact counts_quiet rfl rfl rfl rfl rfl
        · rw [hq]
          exact counts_quiet rfl rfl rfl rfl rfl
      · rintro a ⟨p', n, hp, htype, hread⟩
        cases hp
        rw [notify_acknowledged htype hread] at hn
        cases hn
        cases hx
    · exact Or.inr (Or.inr (Or.inr (Or.inr ⟨a, ⟨p, n, rfl, htype, hread⟩, hq⟩)))
  | generateRepair => exact Or.inl ⟨counts_generateRepair h, hother fun _ => by simp⟩
  | setRate rate =>
    simp only [call, bind_ok_iff, Except.ok.injEq] at h
    obtain ⟨-, -, rfl⟩ := h
    exact Or.inr (Or.inl ⟨rate, rfl, rfl⟩)
  | setWindowSize sz =>
    simp only [call, bind_ok_iff, Except.ok.injEq] at h
    obtain ⟨-, -, rfl⟩ := h
    exact Or.inr (Or.inr (Or.inr (Or.inl ⟨sz, rfl, rfl⟩)))
  | setCodeType systematic =>
    cases h
    exact Or.inl ⟨counts_quiet rfl rfl rfl rfl rfl, hother fun _ => by simp⟩
  | setAdaptive adaptive =>
    cases h
    exact Or.inr (Or.inr (Or.inl ⟨adaptive, rfl, rfl⟩))

/-- A call that processes an acknowledgement returns. -/
theorem call_acknowledges (ha : Acknowledges b c a) (e : Encoder) :
    e.call b g c = .ok ({ e with nbAcks := e.nbAcks + 1 }.notifyAck a) := by
  obtain ⟨p, n, rfl, htype, hread⟩ := ha
  rw [call, notify_acknowledged htype hread]
  rfl

/-- After an acknowledgement is processed nothing is counted. -/
theorem counted_acknowledged (h : e.call b g c = .ok e') (ha : Acknowledges b c a) :
    e'.rate = e.adaptRate a.nbPackets ∧ e'.nbSentPackets = 0 ∧ e'.sent = e.sent := by
  rw [call_acknowledges ha] at h
  cases h
  exact ⟨rfl, rfl, rfl⟩

/-- Data is committed with a window within its limit, by every call of a run that returns. -/
def Fitting (b : Build) (g : GfComplete w) (cs : List Call) : Prop :=
  ∀ cs1 d cs2 e e', cs = cs1 ++ .data d :: cs2 → run b g cs1 = .ok e →
    e.call b g (.data d) = .ok e' → e.sources.length ≤ e.windowSize

/-- Right after each commit of a run, the window is within its limit. -/
def Limited (b : Build) (g : GfComplete w) (cs : List Call) : Prop :=
  ∀ cs1 d cs2 e e', cs = cs1 ++ .data d :: cs2 → run b g cs1 = .ok e →
    e.call b g (.data d) = .ok e' → e'.sources.length ≤ e'.windowSize

/-- The limit is set to no less than what the window holds. -/
def Resizes (e : Encoder) : Call → Prop
  | .setWindowSize sz => e.sources.length ≤ sz
  | _ => True

theorem length_kept (e : Encoder) : e.kept.length =
    if e.sources.length = e.windowSize then e.sources.length - 1 else e.sources.length := by
  rw [kept]
  split
  · exact List.length_tail
  · rfl

/-- A commit evicts one source at most. -/
theorem commit_limited {d : List Byte} (hpos : 0 < e.windowSize)
    (h : e.call b g (.data d) = .ok e') :
    e'.sources.length ≤ e'.windowSize ↔ e.sources.length ≤ e.windowSize := by
  have hlen : e'.sources.length = e.kept.length + 1 := by
    rcases (call_called h).window with ⟨x, -, hs, -⟩ | ⟨hc, -⟩
    · rw [hs, List.length_append, List.length_singleton]
    · cases hc
  have hsize : e'.windowSize = e.windowSize := by
    simp only [call, data, bind_ok_iff] at h
    obtain ⟨-, -, -, -, h⟩ := h
    exact (counts_commit h).windowSize
  rw [hlen, hsize, length_kept]
  split
  · omega
  · omega

theorem windowSize_run (hcs : ∀ sz, .setWindowSize sz ∈ cs → 0 < sz) (h : run b g cs = .ok e) :
    0 < e.windowSize := by
  refine foldlM_invariant (fun u => 0 < u.windowSize) (fun c hc u v hu hv => ?_) (by decide) h
  rcases call_counts hv with ⟨hcounts, -⟩ | ⟨rate, -, rfl⟩ | ⟨adaptive, -, rfl⟩ |
    ⟨sz, rfl, rfl⟩ | ⟨a, -, rfl⟩
  · rw [hcounts.windowSize]
    exact hu
  · exact hu
  · exact hu
  · exact hcs sz hc
  · exact hu

/-- A call that commits no data leaves no more sources in the window. -/
theorem length_sources_call (hc : committed [c] = []) (h : e.call b g c = .ok e') :
    e'.sources.length ≤ e.sources.length := by
  rcases (call_called h).window with ⟨x, rfl, -⟩ | ⟨-, -, hs | ⟨p, a, n, -, -, hs⟩⟩
  · cases hc
  · exact hs ▸ le_rfl
  · rw [hs]
    exact (eraseSources_sublist e.sources _).length_le

/-- While the limit is set to no less than what the window holds, the window is within it. -/
theorem fits_call (hpos : 0 < e.windowSize) (hc : e.Resizes c)
    (hI : e.sources.length ≤ e.windowSize) (h : e.call b g c = .ok e') :
    e'.sources.length ≤ e'.windowSize := by
  by_cases hd : committed [c] = []
  · have hle := length_sources_call hd h
    rcases call_counts h with ⟨hcounts, -⟩ | ⟨rate, -, rfl⟩ | ⟨adaptive, -, rfl⟩ |
      ⟨sz, rfl, rfl⟩ | ⟨a, -, rfl⟩
    · rw [hcounts.windowSize]
      exact hle.trans hI
    · exact hI
    · exact hI
    · exact hc
    · exact hle.trans hI
  · cases c with
    | data d => exact (commit_limited hpos h).mpr hI
    | packet | generateRepair | setRate | setWindowSize | setCodeType | setAdaptive =>
      exact absurd rfl hd

theorem fits_run (hcs : ∀ sz, .setWindowSize sz ∈ cs → 0 < sz)
    (hresizes : ∀ cs1 c cs2 e, cs = cs1 ++ c :: cs2 → run b g cs1 = .ok e → e.Resizes c)
    (h : run b g cs = .ok e) : e.sources.length ≤ e.windowSize := by
  refine foldlM_inputs (fun _ u => u.sources.length ≤ u.windowSize)
    (fun done c rest u v hdone hu hfits hv => ?_) (Nat.zero_le _) h
  have hpos := windowSize_run (fun sz hsz => hcs sz (hdone ▸ List.mem_append_left _ hsz)) hu
  exact fits_call hpos (hresizes done c rest u hdone hu) hfits hv

/-- In every run, the window is within its limit right after each commit if and only if it is before
each of them; this is so if the limit is never set to less than what the window holds. -/
theorem limited_iff (hcs : ∀ sz, .setWindowSize sz ∈ cs → 0 < sz) :
    (Limited b g cs ↔ Fitting b g cs) ∧
      ((∀ cs1 c cs2 e, cs = cs1 ++ c :: cs2 → run b g cs1 = .ok e → e.Resizes c) →
        Limited b g cs) := by
  have hpos : ∀ cs1 d cs2 e, cs = cs1 ++ .data d :: cs2 → run b g cs1 = .ok e →
      0 < e.windowSize := by
    intro cs1 d cs2 e heq h1
    exact windowSize_run (fun sz hsz => hcs sz (heq ▸ List.mem_append_left _ hsz)) h1
  refine ⟨⟨fun h cs1 d cs2 e e' heq h1 h2 => ?_, fun h cs1 d cs2 e e' heq h1 h2 => ?_⟩,
    fun h cs1 d cs2 e e' heq h1 h2 => ?_⟩
  · exact (commit_limited (hpos cs1 d cs2 e heq h1) h2).mp (h cs1 d cs2 e e' heq h1 h2)
  · exact (commit_limited (hpos cs1 d cs2 e heq h1) h2).mpr (h cs1 d cs2 e e' heq h1 h2)
  · refine (commit_limited (hpos cs1 d cs2 e heq h1) h2).mpr (fits_run ?_ ?_ h1)
    · exact fun sz hsz => hcs sz (heq ▸ List.mem_append_left _ hsz)
    · intro l1 c l2 u hl hu
      exact h l1 c (l2 ++ .data d :: cs2) u (by rw [heq, hl, List.append_assoc]; rfl) hu

/-- The limit is set to less than the window holds. -/
def shrinkingCalls : List Call := [.data [1], .data [2], .setWindowSize 1, .data [3]]

theorem limited_iff_shrinkingCalls :
    Limited .debug gf16 shrinkingCalls ↔ Fitting .debug gf16 shrinkingCalls :=
  (limited_iff (by simp [shrinkingCalls])).1

theorem shrinkingCalls_not_limited : ¬ Limited .debug gf16 shrinkingCalls := by
  intro h
  obtain ⟨e, he, hp⟩ := exists_ok_of_any
    (x := run .debug gf16 [.data [1], .data [2], .setWindowSize 1])
    (p := fun e : Encoder => (e.call .debug gf16 (.data [3])).toOption.any fun e' : Encoder =>
      decide (¬ e'.sources.length ≤ e'.windowSize)) (by decide +kernel)
  obtain ⟨e', he', hlen⟩ := exists_ok_of_any hp
  exact of_decide_eq_true hlen (h _ _ [] e e' rfl he he')

end Encoder

end Netcode
