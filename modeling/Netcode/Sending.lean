import Netcode.Window

/-! What each call makes of the window and gives to the packet handler, and which of the committed
sources a run leaves in the window. -/
namespace Netcode.Encoder

open Containers Encodings Runs

variable {w : FieldSize} {b : Build} {g : GfComplete w} {e e1 e' : Encoder} {c : Call}
  {cs : List Call} {D : List (List Byte)} {x p : List Byte} {l : List EncoderSource} {i n m : ℕ}

/-- The sources sent by a call. -/
def sentSources (e : Encoder) : Call → List EncoderSource
  | .data x => if e.systematic then [⟨e.currentSourceId, x⟩] else []
  | _ => []

theorem mem_sentSources {s : EncoderSource} (hs : s ∈ e.sentSources c) :
    ∃ x, c = .data x ∧ s = ⟨e.currentSourceId, x⟩ := by
  cases c with
  | data x =>
    rw [sentSources] at hs
    split at hs
    · exact ⟨x, rfl, List.mem_singleton.mp hs⟩
    · exact absurd hs List.not_mem_nil
  | _ => exact absurd hs List.not_mem_nil

/-- How many repairs a call sends after its sources. -/
def sentRepairs (e : Encoder) : Call → ℕ
  | .data _ => (if e.systematic then 0 else 1) +
      if e.rate ∣ (e.currentSourceId + 1) % 2 ^ 32 then 1 else 0
  | .generateRepair => 1
  | _ => 0

/-- The identifiers of the acknowledgement that a call processes. -/
def acknowledgedBy (b : Build) : Call → List ℕ
  | .packet p =>
    match getPacketType p, readAck b p with
    | .ok .ack, .ok (a, _) => a.sourceIds.toList
    | _, _ => []
  | _ => []

/-- What a call makes of the window. -/
def windowAfter (b : Build) (e : Encoder) : Call → List EncoderSource
  | .data x => e.kept ++ [⟨e.currentSourceId, x⟩]
  | c => e.sources.filter fun s => decide (s.id ∉ acknowledgedBy b c)

/-- The type of the code after a call. -/
def codeType (systematic : Bool) : Call → Bool
  | .setCodeType systematic => systematic
  | _ => systematic

/-- These sources and then so many repairs of the window were sent. -/
def Sent (e e' : Encoder) (l : List EncoderSource) (n : ℕ) : Prop :=
  ∃ rs : List EncoderRepair,
    e'.sent = e.sent ++ (l.map WirePacket.source ++ rs.map WirePacket.repair) ∧ rs.length = n ∧
    ∀ r ∈ rs, ∀ i, i ∈ r.sourceIds ↔ i ∈ e'.sources.map EncoderSource.id

theorem sent_nothing (h : e'.sent = e.sent) : Sent e e' [] 0 :=
  ⟨[], h.trans (List.append_nil _).symm, rfl, fun _ hr => absurd hr List.not_mem_nil⟩

theorem Sent.trans (h : Sent e e1 l n) (hs : e'.sources = e1.sources) (h' : Sent e1 e' [] m) :
    Sent e e' l (n + m) := by
  obtain ⟨rs, hsent, hn, hlists⟩ := h
  obtain ⟨rs', hsent', hm, hlists'⟩ := h'
  refine ⟨rs ++ rs', ?_, by rw [List.length_append, hn, hm], fun r hr => ?_⟩
  · rw [hsent', hsent, List.map_append, List.append_assoc, List.append_assoc]
    rfl
  · rcases List.mem_append.mp hr with hr | hr
    · rw [hs]
      exact hlists r hr
    · exact hlists' r hr

/-- Sending leaves the window, the rate and the type of the code. -/
structure Steady (e e' : Encoder) : Prop where
  sources : e'.sources = e.sources
  next : e'.currentSourceId = e.currentSourceId
  rate : e'.rate = e.rate
  systematic : e'.systematic = e.systematic

theorem Steady.trans (h : Steady e e1) (h' : Steady e1 e') : Steady e e' :=
  ⟨h'.sources.trans h.sources, h'.next.trans h.next, h'.rate.trans h.rate,
    h'.systematic.trans h.systematic⟩

theorem generateRepair_sent (h : generateRepair b g e = .ok e') :
    Steady e e' ∧ Sent e e' [] 1 := by
  obtain ⟨r, hr, -, rfl⟩ := generateRepair_ok_iff.mp h
  refine ⟨⟨rfl, rfl, rfl, rfl⟩, [r], rfl, rfl, fun q hq => ?_⟩
  rw [List.mem_singleton.mp hq]
  exact (encode_lists rfl hr).2

theorem sendSource_sent {src : EncoderSource} (h : sendSource b g src e = .ok e') :
    Steady e e' ∧ Sent e e' (if e.systematic then [src] else []) (if e.systematic then 0 else 1) := by
  rw [sendSource] at h
  split at h
  · next hsys =>
    cases h
    rw [if_pos hsys, if_pos hsys]
    exact ⟨⟨rfl, rfl, rfl, rfl⟩, [], rfl, rfl, fun _ hr => absurd hr List.not_mem_nil⟩
  · next hsys =>
    rw [if_neg hsys, if_neg hsys]
    exact generateRepair_sent h

theorem repairIfNeeded_sent (h : repairIfNeeded b g e = .ok e') : 0 < e.rate ∧ Steady e e' ∧
    Sent e e' [] (if e.rate ∣ (e.currentSourceId + 1) % 2 ^ 32 then 1 else 0) := by
  rw [repairIfNeeded] at h
  split at h
  · cases h
  · next hrate =>
    refine ⟨Nat.pos_of_ne_zero hrate, ?_⟩
    split at h
    · next hmod =>
      rw [if_pos (Nat.dvd_of_mod_eq_zero hmod)]
      exact generateRepair_sent h
    · next hmod =>
      cases h
      rw [if_neg fun hdvd => hmod (Nat.mod_eq_zero_of_dvd hdvd)]
      exact ⟨⟨rfl, rfl, rfl, rfl⟩, sent_nothing rfl⟩

/-- A commit sends the source or a repair in its place, and then a repair if the rate divides the
number of sources. -/
theorem commit_sent (h : commit b g x e = .ok e') : 0 < e.rate ∧ e'.systematic = e.systematic ∧
    Sent e e' (e.sentSources (.data x)) (e.sentRepairs (.data x)) := by
  simp only [commit, bind_ok_iff, Except.ok.injEq] at h
  obtain ⟨e1, h1, e2, h2, e3, h3, rfl⟩ := h
  obtain rfl := evict_ok h1
  obtain ⟨hsteady, hsource⟩ := sendSource_sent h2
  obtain ⟨hpos, hsteady', hrepair⟩ := repairIfNeeded_sent h3
  rw [hsteady.rate] at hpos
  rw [hsteady.rate, hsteady.next] at hrepair
  exact ⟨hpos, (hsteady.trans hsteady').systematic, hsource.trans hsteady'.sources hrepair⟩

/-- A packet that is not processed as an acknowledgement names nothing. -/
theorem acknowledgedBy_error {t : Exception} (h : notify b p e = .ok (e', .error t)) :
    acknowledgedBy b (.packet p) = [] := by
  rw [acknowledgedBy]
  split
  · next a k htype hread =>
    rw [notify_acknowledged htype hread] at h
    cases h
  · rfl

theorem acknowledgedBy_ack {a : Ack} (htype : getPacketType p = .ok .ack)
    (hread : readAck b p = .ok (a, n)) : acknowledgedBy b (.packet p) = a.sourceIds.toList := by
  rw [acknowledgedBy, htype, hread]

/-- The packets a call sends, and the type of the code it leaves. -/
theorem call_sent (h : e.call b g c = .ok e') : e'.systematic = codeType e.systematic c ∧
    Sent e e' (e.sentSources c) (e.sentRepairs c) := by
  cases c with
  | data x =>
    simp only [call, data, bind_ok_iff] at h
    obtain ⟨-, -, -, -, h⟩ := h
    exact (commit_sent h).2
  | packet p =>
    obtain ⟨q, hn, rfl⟩ := map_ok_iff.mp h
    rcases notify_cases hn with ⟨hq | hq, -⟩ | ⟨a, n, -, -, -, hq⟩
    · rw [hq]
      exact ⟨rfl, sent_nothing rfl⟩
    · rw [hq]
      exact ⟨rfl, sent_nothing rfl⟩
    · rw [hq]
      exact ⟨rfl, sent_nothing rfl⟩
  | generateRepair => exact ⟨(generateRepair_sent h).1.systematic, (generateRepair_sent h).2⟩
  | setRate rate =>
    simp only [call, bind_ok_iff, Except.ok.injEq] at h
    obtain ⟨-, -, rfl⟩ := h
    exact ⟨rfl, sent_nothing rfl⟩
  | setWindowSize sz =>
    simp only [call, bind_ok_iff, Except.ok.injEq] at h
    obtain ⟨-, -, rfl⟩ := h
    exact ⟨rfl, sent_nothing rfl⟩
  | setCodeType systematic =>
    cases h
    exact ⟨rfl, sent_nothing rfl⟩
  | setAdaptive adaptive =>
    cases h
    exact ⟨rfl, sent_nothing rfl⟩

theorem filter_nothing (l : List EncoderSource) :
    l.filter (fun s => decide (s.id ∉ ([] : List ℕ))) = l :=
  List.filter_eq_self.mpr fun _ _ => decide_eq_true List.not_mem_nil

theorem windowAfter_packet (e : Encoder) (p : List Byte) : e.windowAfter b (.packet p) =
    e.sources.filter fun s => decide (s.id ∉ acknowledgedBy b (.packet p)) := rfl

/-- Data joins the window, which makes room for it if it is full, and an acknowledgement removes
what it names. -/
theorem call_window (hI : e.Window D) (h : e.call b g c = .ok e') :
    e'.sources = e.windowAfter b c := by
  cases c with
  | data x =>
    rcases (call_called h).window with ⟨y, hy, hs, -⟩ | ⟨hc, -⟩
    · cases hy
      exact hs
    · cases hc
  | packet p =>
    obtain ⟨q, hn, rfl⟩ := map_ok_iff.mp h
    rcases notify_cases hn with ⟨hq, t, ht⟩ | ⟨a, n, htype, hread, -, hq⟩
    · have hsources : q.1.sources = e.sources := by
        rcases hq with hq | hq
        · rw [hq]
        · rw [hq]
      rw [windowAfter_packet, acknowledgedBy_error (hn.trans (by rw [← ht])), hsources,
        filter_nothing]
    · rw [windowAfter_packet, acknowledgedBy_ack htype hread, hq]
      exact eraseSources_eq_filter hI.sorted a.sourceIds.sorted
  | generateRepair => exact (generateRepair_sent h).1.sources.trans (filter_nothing _).symm
  | setRate rate =>
    simp only [call, bind_ok_iff, Except.ok.injEq] at h
    obtain ⟨-, -, rfl⟩ := h
    exact (filter_nothing _).symm
  | setWindowSize sz =>
    simp only [call, bind_ok_iff, Except.ok.injEq] at h
    obtain ⟨-, -, rfl⟩ := h
    exact (filter_nothing _).symm
  | setCodeType systematic =>
    cases h
    exact (filter_nothing _).symm
  | setAdaptive adaptive =>
    cases h
    exact (filter_nothing _).symm

theorem windowAfter_quiet (hc : committed [c] = []) : e.windowAfter b c =
    e.sources.filter fun s => decide (s.id ∉ acknowledgedBy b c) := by
  cases c with
  | data x => cases hc
  | packet p => rfl
  | generateRepair => rfl
  | setRate rate => rfl
  | setWindowSize sz => rfl
  | setCodeType systematic => rfl
  | setAdaptive adaptive => rfl

/-- A full window keeps all its sources but the first. -/
theorem mem_kept (hI : e.Window D) {s : EncoderSource} : s ∈ e.kept ↔ s ∈ e.sources ∧
    ¬ (e.sources.length = e.windowSize ∧ (e.sources.map EncoderSource.id).head? = some s.id) := by
  rw [kept]
  split
  · next hfull =>
    rw [and_iff_right hfull]
    have hsorted := hI.sorted
    cases hsources : e.sources with
    | nil => simp
    | cons t l =>
      rw [hsources, List.map_cons, List.pairwise_cons] at hsorted
      rw [List.tail_cons, List.map_cons, List.head?_cons, Option.some.injEq, List.mem_cons]
      constructor
      · exact fun hs => ⟨Or.inr hs, (hsorted.1 s.id (List.mem_map_of_mem hs)).ne⟩
      · rintro ⟨rfl | hs, hne⟩
        · exact absurd rfl hne
        · exact hs
  · next hfull =>
    rw [and_iff_left fun h => hfull h.1]

/-- The source was committed, and an acknowledgement named it later. -/
def Acknowledged (b : Build) (cs : List Call) (i : ℕ) : Prop :=
  Occurs (fun before c => i < (committed before).length ∧ i ∈ acknowledgedBy b c) cs

/-- Data was committed while the window was full and the source was its first one. -/
def Evicted (b : Build) (g : GfComplete w) (cs : List Call) (i : ℕ) : Prop :=
  Occurs (fun before c => committed [c] ≠ [] ∧ ∃ e, run b g before = .ok e ∧
    e.sources.length = e.windowSize ∧ (e.sources.map EncoderSource.id).head? = some i) cs

theorem committed_before {before : List Call} (h : before ++ [c] <+: cs) :
    (committed before).length ≤ (committed cs).length :=
  (((List.prefix_append before [c]).trans h).filterMap _).length_le

theorem acknowledged_lt (h : Acknowledged b cs i) : i < (committed cs).length := by
  obtain ⟨before, c, hprefix, hi, -⟩ := h
  exact hi.trans_le (committed_before hprefix)

theorem evicted_lt (hcount : (committed cs).length < 2 ^ 32) (h : Evicted b g cs i) :
    i < (committed cs).length := by
  obtain ⟨before, c, hprefix, -, e, he, -, hhead⟩ := h
  have hle := committed_before hprefix
  have hI := window_run (hle.trans_lt hcount) he
  obtain ⟨s, hs, rfl⟩ := List.mem_map.mp (List.mem_of_head? hhead)
  have hlt := hI.lt hs
  rw [hI.next] at hlt
  exact hlt.trans_le hle

/-- The window holds the committed sources which were neither acknowledged nor evicted. -/
def Holds (b : Build) (g : GfComplete w) (cs : List Call) (e : Encoder) : Prop :=
  ∀ s, s ∈ e.sources ↔ dataOf (committed cs) s.id = some s.symbol ∧
    ¬ Acknowledged b cs s.id ∧ ¬ Evicted b g cs s.id

theorem dataOf_concat {s : EncoderSource} : dataOf (D ++ [x]) s.id = some s.symbol ↔
    dataOf D s.id = some s.symbol ∨ s = ⟨D.length, x⟩ := by
  obtain ⟨i, y⟩ := s
  dsimp only [dataOf]
  rcases lt_trichotomy i D.length with hlt | rfl | hlt
  · rw [List.getElem?_append_left hlt, EncoderSource.mk.injEq, or_iff_left fun h => hlt.ne h.1]
  · simp [eq_comm]
  · simp [List.getElem?_append_right hlt.le, hlt.ne', hlt.le, Nat.sub_ne_zero_of_lt hlt]

theorem dataOf_lt (h : dataOf D i = some x) : i < D.length := (List.getElem?_eq_some_iff.mp h).1

/-- Data joins what the window holds, whose first source is evicted if it is full. -/
theorem holds_data (hI : e.Window (committed cs)) (hH : Holds b g cs e)
    (hcount : (committed cs).length < 2 ^ 32) (hrun : run b g cs = .ok e)
    (hs : e'.sources = e.kept ++ [⟨e.currentSourceId, x⟩]) : Holds b g (cs ++ [.data x]) e' := by
  have hack : ∀ i, Acknowledged b (cs ++ [.data x]) i ↔ Acknowledged b cs i := fun i =>
    occurs_concat.trans (or_iff_left fun h => absurd h.2 List.not_mem_nil)
  have hevict : ∀ i, Evicted b g (cs ++ [.data x]) i ↔ Evicted b g cs i ∨
      e.sources.length = e.windowSize ∧ (e.sources.map EncoderSource.id).head? = some i := by
    intro i
    refine occurs_concat.trans (or_congr_right ⟨?_, fun h => ⟨List.cons_ne_nil _ _, e, hrun, h⟩⟩)
    rintro ⟨-, u, hu, h⟩
    cases hrun.symm.trans hu
    exact h
  intro s
  have hcommitted : committed (cs ++ [.data x]) = committed cs ++ [x] := committed_append cs _
  rw [hs, List.mem_append, List.mem_singleton, mem_kept hI, hH s, hcommitted, dataOf_concat, hack,
    hevict, hI.next, not_or]
  constructor
  · rintro (⟨⟨hdata, hacked, hevicted⟩, hfirst⟩ | rfl)
    · exact ⟨Or.inl hdata, hacked, hevicted, hfirst⟩
    -- The new identifier is past those that were acknowledged or evicted.
    · refine ⟨Or.inr rfl, fun h => (acknowledged_lt h).false, fun h => (evicted_lt hcount h).false,
        fun h => ?_⟩
      obtain ⟨t, ht, heq⟩ := List.mem_map.mp (List.mem_of_head? h.2)
      have hlt := hI.lt ht
      rw [heq, hI.next] at hlt
      exact hlt.false
  · rintro ⟨hdata | rfl, hacked, hevicted, hfirst⟩
    · exact Or.inl ⟨⟨hdata, hacked, hevicted⟩, hfirst⟩
    · exact Or.inr rfl

/-- A call that commits no data leaves what the window holds but for what it acknowledges. -/
theorem holds_quiet (hH : Holds b g cs e) (hc : committed [c] = [])
    (hs : e'.sources = e.sources.filter fun s => decide (s.id ∉ acknowledgedBy b c)) :
    Holds b g (cs ++ [c]) e' := by
  intro s
  have hevict : Evicted b g (cs ++ [c]) s.id ↔ Evicted b g cs s.id :=
    occurs_concat.trans (or_iff_left fun h => h.1 hc)
  have hack : Acknowledged b (cs ++ [c]) s.id ↔ Acknowledged b cs s.id ∨
      s.id < (committed cs).length ∧ s.id ∈ acknowledgedBy b c := occurs_concat
  rw [hs, List.mem_filter, decide_eq_true_eq, hH s, committed_append, hc, List.append_nil, hevict,
    hack, not_or, not_and]
  constructor
  · rintro ⟨⟨hdata, hacked, hevicted⟩, hnot⟩
    exact ⟨hdata, ⟨hacked, fun _ => hnot⟩, hevicted⟩
  · rintro ⟨hdata, ⟨hacked, hnot⟩, hevicted⟩
    exact ⟨⟨hdata, hacked, hevicted⟩, hnot (dataOf_lt hdata)⟩

theorem holds_run (hcount : (committed cs).length < 2 ^ 32) (h : run b g cs = .ok e) :
    Holds b g cs e := by
  refine foldlM_inputs (f := call b g) (fun done u => Holds b g done u) ?_ ?_ h
  · rintro done c rest u v rfl hu hH hv
    rw [committed_append, List.length_append] at hcount
    have hdone : (committed done).length < 2 ^ 32 := by omega
    have hI := window_run hdone hu
    have hs := call_window hI hv
    by_cases hc : committed [c] = []
    · exact holds_quiet hH hc (hs.trans (windowAfter_quiet hc))
    · cases c with
      | data x => exact holds_data hI hH hdone hu hs
      | _ => exact absurd rfl hc
  · intro s
    refine iff_of_false List.not_mem_nil fun h => ?_
    cases h.1

/-- In every run, the window is exactly what was committed and neither acknowledged nor evicted: it
is in order and holds the committed bytes, data joins it, a full window losing its first source, and
an acknowledgement leaves the sources it does not name. The repairs are numbered in sequence. A call
sends its source, if the code is systematic, and then so many repairs, which list the window as it is
from the first of them on. -/
theorem run_window (hcommits : (committed cs).length < 2 ^ 32)
    (hrepairs : (repairsOf e.sent).length < 2 ^ 32) (h : run b g cs = .ok e) :
    e.Window (committed cs) ∧ (∀ s ∈ e.sources, s.id < e.currentSourceId) ∧ Holds b g cs e ∧
      (∀ p a n, getPacketType p = .ok .ack → readAck b p = .ok (a, n) →
        ∃ e', notify b p e = .ok (e', .ok n) ∧
          e'.sources = e.sources.filter fun s => decide (s.id ∉ a.sourceIds)) ∧
      (repairsOf e.sent).map EncoderRepair.id = List.range (repairsOf e.sent).length ∧
      ∀ cs1 c cs2, cs = cs1 ++ c :: cs2 →
        ∃ (e1 e2 : Encoder) (rs : List EncoderRepair) (later : List WirePacket),
        run b g cs1 = .ok e1 ∧ e1.call b g c = .ok e2 ∧ e2.sources = e1.windowAfter b c ∧
        e2.sent = e1.sent ++
          ((e1.sentSources c).map WirePacket.source ++ rs.map WirePacket.repair) ∧
        e.sent = e2.sent ++ later ∧ rs.length = e1.sentRepairs c ∧
        ∀ r ∈ rs, r.sourceIds.toList = e2.sources.map EncoderSource.id := by
  obtain ⟨hI, hnum⟩ := run_rule (fun _ => Numbered) (fun _ _ _ _ _ hu _ hc => numbered_called hu hc)
    hcommits numbered_initial h
  refine ⟨hI, fun s => hI.lt, holds_run hcommits h, fun p a n => notify_ack hI, ?_, ?_⟩
  · rw [hnum.2]
    conv_rhs => rw [← List.map_id (List.range _)]
    refine List.map_congr_left fun i hi => ?_
    rw [id_eq, Nat.mod_eq_of_lt ((List.mem_range.mp hi).trans hrepairs)]
  · rintro cs1 c cs2 rfl
    obtain ⟨e1, h1, hrest⟩ := run_append h
    rw [List.foldlM_cons] at hrest
    obtain ⟨e2, h2, hrest⟩ := bind_ok_iff.mp hrest
    obtain ⟨later, hlater⟩ := sent_prefix hrest
    obtain ⟨-, rs, hsent, hcount, hlists⟩ := call_sent h2
    rw [committed_append, committed_cons, ← List.append_assoc, List.length_append] at hcommits
    have hI1 := window_run (by rw [List.length_append] at hcommits; omega) h1
    have hI2 := window_called hI1 (by omega) (call_called h2)
    refine ⟨e1, e2, rs, later, h1, h2, call_window hI1 h2, hsent, hlater, hcount, fun r hr => ?_⟩
    have hids : r.sourceIds = ⟨e2.sources.map EncoderSource.id, hI2.sorted⟩ :=
      FlatSet.ext_mem (hlists r hr)
    rw [hids]

/-- Three sources, of which the first is evicted and the second acknowledged before a repair. -/
def ackedCalls : List Call :=
  [.setWindowSize 2, .data [1], .data [2, 3], .data [4], .packet (writeAck ⟨FlatSet.singleton 1, 2⟩),
    .generateRepair]

theorem run_window_ackedCalls : ∃ e r, run .debug gf16 ackedCalls = .ok e ∧
    e.sources = [⟨2, [4]⟩] ∧ repairsOf e.sent = [r] ∧ r.id = 0 ∧ r.sourceIds.toList = [2] ∧
    (∀ i < 2, Acknowledged .debug ackedCalls i ∨ Evicted .debug gf16 ackedCalls i) ∧
    ¬ Acknowledged .debug ackedCalls 2 ∧ ¬ Evicted .debug gf16 ackedCalls 2 := by
  have hrun : (run .debug gf16 ackedCalls).toOption.any (fun e => decide (e.sources = [⟨2, [4]⟩] ∧
      (repairsOf e.sent).length = 1)) = true := by
    decide +kernel
  obtain ⟨e, he, hd⟩ := exists_ok_of_any hrun
  obtain ⟨hsources, hlength⟩ := of_decide_eq_true hd
  obtain ⟨-, -, hholds, -, hids, hcalls⟩ := run_window (by decide) (by rw [hlength]; decide) he
  obtain ⟨r, hr⟩ := List.length_eq_one_iff.mp hlength
  rw [hr] at hids
  -- The last call sends the repair.
  obtain ⟨e1, e2, rs, later, h1, h2, -, hsent, hlater, hone, hlists⟩ :=
    hcalls (ackedCalls.take 5) .generateRepair [] rfl
  obtain rfl : e2 = e := Except.ok.inj ((foldlM_concat h1 h2).symm.trans he)
  obtain ⟨q, rfl⟩ := List.length_eq_one_iff.mp hone
  have hq : q ∈ repairsOf e2.sent := by
    refine List.mem_filterMap.mpr ⟨.repair q, ?_, rfl⟩
    rw [hsent]
    exact List.mem_append_right _ (List.mem_singleton_self _)
  rw [hr, List.mem_singleton] at hq
  have hlist := hlists q (List.mem_singleton_self q)
  rw [hsources, hq] at hlist
  refine ⟨e2, r, he, hsources, hr, (List.cons.inj hids).1, hlist, fun i hi => ?_, ?_⟩
  · obtain ⟨y, hy⟩ : ∃ y, dataOf (committed ackedCalls) i = some y :=
      ⟨_, List.getElem?_eq_getElem (hi.trans (by decide))⟩
    have hnot : (⟨i, y⟩ : EncoderSource) ∉ e2.sources := by
      rw [hsources, List.mem_singleton]
      exact fun h => hi.ne (congrArg EncoderSource.id h)
    by_contra hneither
    rw [not_or] at hneither
    exact hnot ((hholds ⟨i, y⟩).mpr ⟨hy, hneither⟩)
  · exact ((hholds ⟨2, [4]⟩).mp (hsources ▸ List.mem_singleton_self _)).2

end Netcode.Encoder
