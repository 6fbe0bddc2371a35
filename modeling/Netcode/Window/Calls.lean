import Netcode.Encoding

/-! What a call of an encoder makes of its window, and the packets it sends. -/
namespace Netcode

open Containers Encodings Runs

variable {w : FieldSize} {b : Build} {g : GfComplete w}

/-- Removing a sorted list of identifiers in one pass keeps exactly the other sources. -/
theorem eraseSources_eq_filter {sources : List EncoderSource} {ids : List ℕ}
    (hs : (sources.map EncoderSource.id).Pairwise (· < ·)) (hids : ids.Pairwise (· < ·)) :
    eraseSources sources ids = sources.filter fun s => decide (s.id ∉ ids) := by
  fun_induction eraseSources sources ids with
  | case1 ids => rfl
  | case2 sources => simp
  | case3 s sources ids ih =>
    rw [List.map_cons, List.pairwise_cons] at hs
    rw [List.pairwise_cons] at hids
    rw [ih hs.2 hids.2, List.filter_cons_of_neg (by simp)]
    refine List.filter_congr fun t ht => ?_
    have hne := (hs.1 t.id (List.mem_map_of_mem ht)).ne'
    simp [hne]
  | case4 s sources id ids hne hlt ih =>
    rw [List.pairwise_cons] at hids
    rw [ih hs hids.2]
    refine List.filter_congr fun t ht => ?_
    -- The first source has the least identifier, and it is past the one to remove.
    have hle : s.id ≤ t.id := by
      rw [List.map_cons, List.pairwise_cons] at hs
      rcases List.mem_cons.mp ht with rfl | ht
      · exact le_rfl
      · exact (hs.1 t.id (List.mem_map_of_mem ht)).le
    have hne : t.id ≠ id := (hlt.trans_le hle).ne'
    simp [hne]
  | case5 s sources id ids hne hge ih =>
    rw [List.map_cons, List.pairwise_cons] at hs
    rw [ih hs.2 hids]
    refine (List.filter_cons_of_pos ?_).symm
    -- The identifiers to remove are all past the first source.
    rw [List.pairwise_cons] at hids
    have hlt : s.id < id := lt_of_le_of_ne (not_lt.mp hge) hne
    have hnot : s.id ∉ ids := fun h => (hids.1 s.id h).not_gt hlt
    simp [hne, hnot]

theorem eraseSources_sublist (sources : List EncoderSource) (ids : List ℕ) :
    (eraseSources sources ids).Sublist sources := by
  fun_induction eraseSources sources ids with
  | case1 ids => exact List.Sublist.refl _
  | case2 sources => exact List.Sublist.refl _
  | case3 s sources ids ih => exact ih.cons s
  | case4 s sources id ids hne hlt ih => exact ih
  | case5 s sources id ids hne hge ih => exact ih.cons_cons s

namespace Encoder

variable {e e' : Encoder} {c : Call} {x : List Byte} {sources : List EncoderSource}
  {sent : List WirePacket} {n m : ℕ}

/-- Packets sent about a window, whose repairs are numbered from `n` on. -/
inductive Sends (b : Build) (g : GfComplete w) (sources : List EncoderSource) :
    ℕ → List WirePacket → ℕ → Prop
  | nil {n : ℕ} : Sends b g sources n [] n
  | source {n m : ℕ} {s : EncoderSource} {sent : List WirePacket} (hs : s ∈ sources)
      (h : Sends b g sources n sent m) : Sends b g sources n (.source s :: sent) m
  | repair {n m : ℕ} {r : EncoderRepair} {z : BitVec 16} {sent : List WirePacket}
      (hr : Detail.Encoder.encode b g ⟨n, FlatSet.empty, z, []⟩ sources = .ok r)
      (h : Sends b g sources ((n + 1) % 2 ^ 32) sent m) :
      Sends b g sources n (.repair r :: sent) m

/-- What is left of the window before a source joins it. -/
def kept (e : Encoder) : List EncoderSource :=
  if e.sources.length = e.windowSize then e.sources.tail else e.sources

/-- A call for data makes it the last source of the window, and another call leaves the window or
removes what an acknowledgement names; the packets sent are about the window left. -/
structure Called (b : Build) (g : GfComplete w) (e : Encoder) (c : Call) (e' : Encoder) :
    Prop where
  sent : ∃ sent, e'.sent = e.sent ++ sent ∧
    Sends b g e'.sources e.currentRepairId sent e'.currentRepairId
  window : (∃ x, c = .data x ∧ e'.sources = e.kept ++ [⟨e.currentSourceId, x⟩] ∧
      e'.currentSourceId = (e.currentSourceId + 1) % 2 ^ 32) ∨
    committed [c] = [] ∧ e'.currentSourceId = e.currentSourceId ∧
      (e'.sources = e.sources ∨ ∃ p a k, c = .packet p ∧ readAck b p = .ok (a, k) ∧
        e'.sources = eraseSources e.sources a.sourceIds.toList)

theorem Sends.append {l l' : List WirePacket} {k : ℕ} (h : Sends b g sources n l m)
    (h' : Sends b g sources m l' k) : Sends b g sources n (l ++ l') k := by
  induction h with
  | nil => exact h'
  | source hs _ ih => exact .source hs (ih h')
  | repair hr _ ih => exact .repair hr (ih h')

/-- Sending about the window, which stays. -/
structure Emits (b : Build) (g : GfComplete w) (e e' : Encoder) : Prop where
  sources : e'.sources = e.sources
  next : e'.currentSourceId = e.currentSourceId
  sent : ∃ sent, e'.sent = e.sent ++ sent ∧
    Sends b g e.sources e.currentRepairId sent e'.currentRepairId

theorem Emits.refl (e : Encoder) : Emits b g e e := ⟨rfl, rfl, [], (List.append_nil _).symm, .nil⟩

theorem Emits.trans {e1 e2 : Encoder} (h : Emits b g e e1) (h' : Emits b g e1 e2) :
    Emits b g e e2 := by
  obtain ⟨l, hl, hs⟩ := h.sent
  obtain ⟨l', hl', hs'⟩ := h'.sent
  rw [h.sources] at hs'
  exact ⟨h'.sources.trans h.sources, h'.next.trans h.next, l ++ l',
    by rw [hl', hl, List.append_assoc], hs.append hs'⟩

theorem generateRepair_emits (h : generateRepair b g e = .ok e') : Emits b g e e' := by
  obtain ⟨r, hr, -, rfl⟩ := generateRepair_ok_iff.mp h
  exact ⟨rfl, rfl, [.repair r], rfl, .repair hr .nil⟩

theorem sendSource_emits {s : EncoderSource} (hs : s ∈ e.sources)
    (h : sendSource b g s e = .ok e') : Emits b g e e' := by
  rw [sendSource] at h
  split at h
  · cases h
    exact ⟨rfl, rfl, [.source s], rfl, .source hs .nil⟩
  · exact generateRepair_emits h

theorem repairIfNeeded_emits (h : repairIfNeeded b g e = .ok e') : Emits b g e e' := by
  rw [repairIfNeeded] at h
  split at h
  · cases h
  · split at h
    · exact generateRepair_emits h
    · cases h
      exact Emits.refl e

theorem evict_ok (h : e.evict = .ok e') : e' = { e with sources := e.kept } := by
  rw [evict] at h
  split at h
  · next hfull =>
    cases hs : e.sources with
    | nil => simp [hs] at h
    | cons s l =>
      simp only [hs, Except.ok.injEq] at h
      rw [← h, kept, if_pos hfull, hs, List.tail_cons]
  · next hfull =>
    cases h
    rw [kept, if_neg hfull]

theorem commit_called (h : commit b g x e = .ok e') : Called b g e (.data x) e' := by
  simp only [commit, bind_ok_iff, Except.ok.injEq] at h
  obtain ⟨e1, h1, e2, h2, e3, h3, rfl⟩ := h
  obtain rfl := evict_ok h1
  have hemits := (sendSource_emits (List.mem_append_right _ (List.mem_singleton_self _)) h2).trans
    (repairIfNeeded_emits h3)
  obtain ⟨sent, hsent, hsends⟩ := hemits.sent
  refine ⟨⟨sent, hsent, ?_⟩, Or.inl ⟨x, rfl, hemits.sources, ?_⟩⟩
  · rw [← hemits.sources] at hsends
    exact hsends
  · rw [hemits.next]

/-- A call that sends nothing. -/
theorem called_quiet (hc : committed [c] = []) (hsent : e'.sent = e.sent)
    (hr : e'.currentRepairId = e.currentRepairId) (hn : e'.currentSourceId = e.currentSourceId)
    (hs : e'.sources = e.sources ∨ ∃ p a k, c = .packet p ∧ readAck b p = .ok (a, k) ∧
      e'.sources = eraseSources e.sources a.sourceIds.toList) : Called b g e c e' :=
  ⟨⟨[], by rw [hsent, List.append_nil], by rw [hr]; exact .nil⟩, Or.inr ⟨hc, hn, hs⟩⟩

/-- What a notification can do to the state. -/
theorem notify_cases {p : List Byte} {t : Except Exception ℕ} (h : notify b p e = .ok (e', t)) :
    (e' = e ∨ e' = { e with nbAcks := e.nbAcks + 1 }) ∧ (∃ x, t = .error x) ∨
      ∃ a n, getPacketType p = .ok .ack ∧ readAck b p = .ok (a, n) ∧ t = .ok n ∧
        e' = { e with nbAcks := e.nbAcks + 1 }.notifyAck a := by
  simp only [notify, bind_ok_iff] at h
  obtain ⟨-, -, h⟩ := h
  split at h
  · cases h
  · next x hx =>
    cases h
    exact Or.inl ⟨Or.inl rfl, x, rfl⟩
  · next htype =>
    split at h
    · cases h
    · next x hx =>
      cases h
      exact Or.inl ⟨Or.inr rfl, x, rfl⟩
    · next a n hread =>
      cases h
      exact Or.inr ⟨a, n, htype, hread, rfl, rfl⟩
  · cases h
    exact Or.inl ⟨Or.inl rfl, _, rfl⟩

/-- An acknowledgement that can be read is processed. -/
theorem notify_acknowledged {p : List Byte} {a : Ack} {n : ℕ} (htype : getPacketType p = .ok .ack)
    (hread : readAck b p = .ok (a, n)) (e : Encoder) :
    notify b p e = .ok ({ e with nbAcks := e.nbAcks + 1 }.notifyAck a, .ok n) := by
  have hne : (!p.isEmpty) = true := by
    cases p with
    | nil => cases htype
    | cons => rfl
  simp only [notify, Build.assert_eq_ok hne, ok_bind, htype, hread]

theorem call_called (h : e.call b g c = .ok e') : Called b g e c e' := by
  cases c with
  | data x =>
    simp only [call, data, bind_ok_iff] at h
    obtain ⟨-, -, -, -, h⟩ := h
    exact commit_called h
  | packet p =>
    obtain ⟨q, hn, rfl⟩ := map_ok_iff.mp h
    rcases notify_cases hn with ⟨hq | hq, -⟩ | ⟨a, n, -, hread, -, hq⟩
    · rw [hq]
      exact called_quiet rfl rfl rfl rfl (Or.inl rfl)
    · rw [hq]
      exact called_quiet rfl rfl rfl rfl (Or.inl rfl)
    · rw [hq]
      exact called_quiet rfl rfl rfl rfl (Or.inr ⟨p, a, n, rfl, hread, rfl⟩)
  | generateRepair =>
    have hemits := generateRepair_emits h
    refine ⟨hemits.sources.symm ▸ hemits.sent, Or.inr ⟨rfl, hemits.next, Or.inl hemits.sources⟩⟩
  | setRate rate =>
    simp only [call, bind_ok_iff, Except.ok.injEq] at h
    obtain ⟨-, -, rfl⟩ := h
    exact called_quiet rfl rfl rfl rfl (Or.inl rfl)
  | setWindowSize sz =>
    simp only [call, bind_ok_iff, Except.ok.injEq] at h
    obtain ⟨-, -, rfl⟩ := h
    exact called_quiet rfl rfl rfl rfl (Or.inl rfl)
  | setCodeType systematic =>
    cases h
    exact called_quiet rfl rfl rfl rfl (Or.inl rfl)
  | setAdaptive adaptive =>
    cases h
    exact called_quiet rfl rfl rfl rfl (Or.inl rfl)

end Encoder

end Netcode
