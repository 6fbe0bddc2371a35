import Netcode.Window.Calls

/-! The window of an encoder during a run, and what the packets it sends say of it. -/
namespace Netcode

open Containers Encodings Runs

variable {w : FieldSize} {b : Build} {g : GfComplete w}

namespace Encoder

variable {e e' : Encoder} {c : Call} {cs : List Call} {D : List (List Byte)} {x : List Byte}
  {sources : List EncoderSource} {sent : List WirePacket} {n m : ℕ}

/-- The data committed under an identifier. -/
def dataOf (D : List (List Byte)) (i : ℕ) : Option (List Byte) := D[i]?

/-- The window holds committed data, under increasing identifiers. -/
structure Window (D : List (List Byte)) (e : Encoder) : Prop where
  next : e.currentSourceId = D.length
  sorted : (e.sources.map EncoderSource.id).Pairwise (· < ·)
  committed : ∀ s ∈ e.sources, dataOf D s.id = some s.symbol

theorem dataOf_append {l : List (List Byte)} {i : ℕ} (h : dataOf D i = some x) :
    dataOf (D ++ l) i = some x := by
  obtain ⟨hi, rfl⟩ := List.getElem?_eq_some_iff.mp h
  rw [dataOf, List.getElem?_append_left hi, List.getElem?_eq_getElem hi]

theorem Window.lt (hI : e.Window D) {s : EncoderSource} (hs : s ∈ e.sources) :
    s.id < e.currentSourceId := by
  obtain ⟨hlt, -⟩ := List.getElem?_eq_some_iff.mp (hI.committed s hs)
  rwa [hI.next]

theorem committed_cons (c : Call) (cs : List Call) :
    Encoder.committed (c :: cs) = Encoder.committed [c] ++ Encoder.committed cs := by
  cases c <;> rfl

theorem committed_append (cs cs' : List Call) :
    Encoder.committed (cs ++ cs') = Encoder.committed cs ++ Encoder.committed cs' :=
  List.filterMap_append

theorem kept_sublist (e : Encoder) : e.kept.Sublist e.sources := by
  rw [kept]
  split
  · exact List.tail_sublist e.sources
  · exact List.Sublist.refl e.sources

theorem window_sublist (hI : e.Window D) (hn : e'.currentSourceId = e.currentSourceId)
    (hsub : e'.sources.Sublist e.sources) : e'.Window D :=
  ⟨hn.trans hI.next, hI.sorted.sublist (hsub.map _), fun s hs => hI.committed s (hsub.subset hs)⟩

theorem window_called (hI : e.Window D) (hcount : (D ++ committed [c]).length < 2 ^ 32)
    (h : Called b g e c e') : e'.Window (D ++ committed [c]) := by
  rcases h.window with ⟨x, rfl, hs, hn⟩ | ⟨hc, hn, hs⟩
  · have hcommitted : committed [Call.data x] = [x] := rfl
    rw [hcommitted] at hcount ⊢
    rw [List.length_append, List.length_singleton] at hcount
    refine ⟨?_, ?_, fun s hmem => ?_⟩
    · rw [hn, hI.next, List.length_append, List.length_singleton, Nat.mod_eq_of_lt hcount]
    · rw [hs, List.map_append, List.pairwise_append]
      refine ⟨hI.sorted.sublist (e.kept_sublist.map _), List.pairwise_singleton _ _, ?_⟩
      rintro i hi j hj
      rw [List.map_singleton, List.mem_singleton] at hj
      obtain ⟨s, hsk, rfl⟩ := List.mem_map.mp hi
      rw [hj]
      exact hI.lt (e.kept_sublist.subset hsk)
    · rw [hs] at hmem
      rcases List.mem_append.mp hmem with hmem | hmem
      · exact dataOf_append (hI.committed s (e.kept_sublist.subset hmem))
      · rw [List.mem_singleton.mp hmem, hI.next]
        simp [dataOf]
  · rw [hc, List.append_nil]
    refine window_sublist hI hn ?_
    rcases hs with hs | ⟨-, a, -, -, -, hs⟩
    · rw [hs]
    · rw [hs]
      exact eraseSources_sublist e.sources _

theorem window_initial : initial.Window [] :=
  ⟨rfl, List.Pairwise.nil, fun s hs => by cases hs⟩

/-- What holds of an encoder and of the data given to it, and is kept by every call, holds at the
end of a run. -/
theorem run_rule (J : List (List Byte) → Encoder → Prop)
    (hJ : ∀ D e c e', e.Window D → J D e → (∃ l, committed cs = D ++ committed [c] ++ l) →
      Called b g e c e' → J (D ++ committed [c]) e')
    (hcount : (committed cs).length < 2 ^ 32) (h0 : J [] initial) (h : run b g cs = .ok e) :
    e.Window (committed cs) ∧ J (committed cs) e := by
  have hrun := foldlM_induction (f := call b g) (fun l u => ∃ D, committed cs = D ++ committed l ∧
    u.Window D ∧ J D u) ?_ ⟨[], rfl, window_initial, h0⟩ h
  · obtain ⟨D, heq, hI, hJ⟩ := hrun
    obtain rfl : committed cs = D := heq.trans (List.append_nil D)
    exact ⟨hI, hJ⟩
  · rintro c l u v ⟨D, heq, hI, hJu⟩ hv
    rw [committed_cons, ← List.append_assoc] at heq
    have hcalled := call_called hv
    refine ⟨_, heq, window_called hI ?_ hcalled, hJ D u c v hI hJu ⟨_, heq⟩ hcalled⟩
    rw [heq, List.length_append] at hcount
    omega

theorem window_run (hcount : (committed cs).length < 2 ^ 32) (h : run b g cs = .ok e) :
    e.Window (committed cs) :=
  (run_rule (fun _ _ => True) (fun _ _ _ _ _ _ _ _ => trivial) hcount trivial h).1

/-- The repairs that were sent. -/
def repairsOf (sent : List WirePacket) : List EncoderRepair :=
  sent.filterMap fun
    | .repair r => some r
    | _ => none

/-- Repairs are numbered in sequence. -/
def Numbered (e : Encoder) : Prop :=
  e.currentRepairId = (repairsOf e.sent).length % 2 ^ 32 ∧
    (repairsOf e.sent).map EncoderRepair.id =
      (List.range (repairsOf e.sent).length).map (· % 2 ^ 32)

/-- A repair has the identifier it is given and lists the identifiers of its sources. -/
theorem encode_lists {repair r : EncoderRepair} (hempty : repair.sourceIds = FlatSet.empty)
    (h : Detail.Encoder.encode b g repair sources = .ok r) :
    r.id = repair.id ∧ ∀ i, i ∈ r.sourceIds ↔ i ∈ sources.map EncoderSource.id := by
  simp only [Detail.Encoder.encode, bind_ok_iff] at h
  obtain ⟨-, -, h⟩ := h
  cases sources with
  | nil => cases h
  | cons src sources =>
    obtain ⟨s, -, h⟩ := bind_ok_iff.mp h
    have hrun := foldlM_induction (f := Detail.Encoder.addSource g) (fun l u => u.id = repair.id ∧
      ∀ i, i ∈ u.sourceIds ∨ i ∈ l.map EncoderSource.id ↔
        i ∈ (src :: sources).map EncoderSource.id) ?_ ?_ h
    · exact ⟨hrun.1, fun i => by rw [← hrun.2 i, List.map_nil, or_iff_left List.not_mem_nil]⟩
    · rintro a l u v ⟨hid, hu⟩ hv
      simp only [Detail.Encoder.addSource, bind_ok_iff, Except.ok.injEq] at hv
      obtain ⟨t, -, rfl⟩ := hv
      refine ⟨hid, fun i => ?_⟩
      rw [← hu i, FlatSet.mem_insert, List.map_cons, List.mem_cons, or_assoc, or_left_comm]
    · refine ⟨rfl, fun i => ?_⟩
      rw [hempty, FlatSet.mem_insert, List.map_cons, List.mem_cons,
        or_iff_left FlatSet.not_mem_empty]

/-- A repair sent about a window in order lists it. -/
theorem Sends.lists (h : Sends b g sources n sent m)
    (hsorted : (sources.map EncoderSource.id).Pairwise (· < ·)) {r : EncoderRepair}
    (hr : .repair r ∈ sent) : r.sourceIds.toList = sources.map EncoderSource.id := by
  induction h with
  | nil => cases hr
  | source _ _ ih => exact ih (by simpa using hr)
  | repair hencode _ ih =>
    rcases List.mem_cons.mp hr with heq | hr
    · cases heq
      have hids : r.sourceIds = ⟨sources.map EncoderSource.id, hsorted⟩ :=
        FlatSet.ext_mem fun i => (encode_lists rfl hencode).2 i
      rw [hids]
    · exact ih hr

theorem Sends.numbered (h : Sends b g sources n sent m) : ∀ {k : ℕ}, n = k % 2 ^ 32 →
    m = (k + (repairsOf sent).length) % 2 ^ 32 ∧ (repairsOf sent).map EncoderRepair.id =
      (List.range' k (repairsOf sent).length).map (· % 2 ^ 32) := by
  induction h with
  | nil => exact fun hk => ⟨hk, rfl⟩
  | source _ _ ih => exact fun hk => ih hk
  | @repair n m r z sent hencode _ ih =>
    intro k hk
    obtain ⟨hm, hids⟩ := ih (k := k + 1) (by rw [hk, Nat.mod_add_mod])
    have hlist : repairsOf (.repair r :: sent) = r :: repairsOf sent := rfl
    rw [hlist, List.length_cons, List.map_cons, hids, (encode_lists rfl hencode).1, hk,
      List.range'_succ, List.map_cons]
    exact ⟨by rw [hm]; congr 1; omega, rfl⟩

theorem numbered_called (hI : e.Numbered) (h : Called b g e c e') : e'.Numbered := by
  obtain ⟨sent, hsent, hsends⟩ := h.sent
  obtain ⟨hm, hids⟩ := hsends.numbered hI.1
  have hlist : repairsOf e'.sent = repairsOf e.sent ++ repairsOf sent := by
    rw [hsent, repairsOf, List.filterMap_append]
    rfl
  rw [Numbered, hlist, List.length_append, List.map_append, hI.2, hids, List.range_eq_range',
    List.range_eq_range', ← List.map_append, ← List.range'_append_1, Nat.zero_add]
  exact ⟨hm, rfl⟩

theorem numbered_initial : initial.Numbered := ⟨rfl, rfl⟩

/-- An acknowledgement that was read leaves the sources it does not name. -/
theorem notify_ack {p : List Byte} {a : Ack} (hI : e.Window D)
    (htype : getPacketType p = .ok .ack) (hread : readAck b p = .ok (a, n)) :
    ∃ e', notify b p e = .ok (e', .ok n) ∧
      e'.sources = e.sources.filter fun s => decide (s.id ∉ a.sourceIds) :=
  ⟨_, notify_acknowledged htype hread e, eraseSources_eq_filter hI.sorted a.sourceIds.sorted⟩

theorem sent_prefix (h : cs.foldlM (call b g) e = .ok e') : ∃ later, e'.sent = e.sent ++ later := by
  refine foldlM_invariant (fun u => ∃ later, u.sent = e.sent ++ later) (fun c _ u v hu hv => ?_)
    ⟨[], (List.append_nil _).symm⟩ h
  obtain ⟨l, hl⟩ := hu
  obtain ⟨sent, hsent, -⟩ := (call_called hv).sent
  exact ⟨l ++ sent, by rw [hsent, hl, List.append_assoc]⟩

theorem run_append {cs' : List Call} (h : run b g (cs ++ cs') = .ok e) :
    ∃ e1, run b g cs = .ok e1 ∧ cs'.foldlM (call b g) e1 = .ok e := by
  rw [run, List.foldlM_append] at h
  exact bind_ok_iff.mp h

end Encoder

/-- What a packet carries of the data committed. -/
def WirePacket.Faithful (g : GfComplete w) (D : ℕ → Option (List Byte)) : WirePacket → Prop
  | ack _ => True
  | repair r => r.Right g D
  | source s => D s.id = some s.symbol

theorem WirePacket.Faithful.extend {D D' : ℕ → Option (List Byte)}
    (hD : ∀ i x, D i = some x → D' i = some x) {p : WirePacket} (h : p.Faithful g D) :
    p.Faithful g D' := by
  cases p with
  | ack a => trivial
  | repair r => exact ⟨h.id, h.length, h.combines.extend hD⟩
  | source s => exact hD _ _ h

namespace Encoder

variable {e : Encoder} {cs : List Call} {D : List (List Byte)} {sources : List EncoderSource}
  {sent : List WirePacket} {n m : ℕ}

theorem Sends.faithful (hw : w ≠ .w32) (h : Sends b g sources n sent m) (hn : n < 2 ^ 32)
    (hsend : ∀ s ∈ sources, Sendable w s.symbol)
    (hsrc : ∀ s ∈ sources, dataOf D s.id = some s.symbol)
    (hsorted : (sources.map EncoderSource.id).Pairwise (· < ·)) :
    m < 2 ^ 32 ∧ ∀ p ∈ sent, p.Faithful g (dataOf D) := by
  induction h with
  | nil => exact ⟨hn, fun p hp => by cases hp⟩
  | source hs _ ih =>
    obtain ⟨hm, hsent⟩ := ih hn
    refine ⟨hm, fun p hp => ?_⟩
    rcases List.mem_cons.mp hp with rfl | hp
    exacts [hsrc _ hs, hsent p hp]
  | @repair n m r z sent hr _ ih =>
    obtain ⟨hm, hsent⟩ := ih (Nat.mod_lt _ (by decide))
    refine ⟨hm, fun p hp => ?_⟩
    rcases List.mem_cons.mp hp with rfl | hp
    · have hne : sources ≠ [] := by
        rintro rfl
        simp [Detail.Encoder.encode, bind_ok_iff] at hr
      obtain ⟨r', hr', hencodes⟩ := Detail.Encoder.encode_encodes (b := b) (g := g)
        hne hsend
        (rfl : EncoderRepair.id ⟨n, FlatSet.empty, z, []⟩ = n) rfl
      rw [hr] at hr'
      cases hr'
      exact hencodes.right hw hn hsend hsrc (hsorted.imp ne_of_lt)
    · exact hsent p hp

/-- Every packet of a run carries the data committed during the run. -/
theorem faithful_run (hw : w ≠ .w32) (hD : ∀ x ∈ committed cs, Sendable w x)
    (hcount : (committed cs).length < 2 ^ 32) (h : run b g cs = .ok e) :
    ∀ p ∈ e.sent, p.Faithful g (dataOf (committed cs)) := by
  refine (run_rule (fun D u => u.currentRepairId < 2 ^ 32 ∧
    ∀ p ∈ u.sent, p.Faithful g (dataOf D)) ?_ hcount ⟨by decide, fun p hp => by cases hp⟩ h).2.2
  rintro D u c v hI ⟨hid, hu⟩ ⟨l, heq⟩ hc
  have hlen : (D ++ committed [c]).length < 2 ^ 32 := by
    rw [heq, List.length_append] at hcount
    omega
  have hI' := window_called hI hlen hc
  obtain ⟨sent, hsent, hsends⟩ := hc.sent
  have hsendable : ∀ s ∈ v.sources, Sendable w s.symbol := by
    intro s hs
    refine hD _ ?_
    rw [heq]
    exact List.mem_append_left _ (List.mem_of_getElem? (hI'.committed s hs))
  obtain ⟨hm, hnew⟩ := hsends.faithful hw hid hsendable hI'.committed hI'.sorted
  refine ⟨hm, fun p hp => ?_⟩
  rw [hsent] at hp
  rcases List.mem_append.mp hp with hp | hp
  · exact (hu p hp).extend fun i x => dataOf_append
  · exact hnew p hp

end Encoder

end Netcode
