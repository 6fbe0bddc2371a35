import Netcode.Sending

/-! What an encoder sends, and when: a packet for every data, and a repair of the whole window each
time as many sources as the rate says were committed. -/
namespace Netcode.Encoder

open Containers Encodings Runs

variable {w : FieldSize} {b : Build} {g : GfComplete w} {e e' : Encoder} {c : Call}
  {cs : List Call} {x : List Byte} {l : List EncoderSource} {n rate : ℕ}

/-- Data is committed at this rate. -/
def AtRate (rate : ℕ) (e : Encoder) (c : Call) : Prop := committed [c] ≠ [] → e.rate = rate

instance (rate : ℕ) (e : Encoder) (c : Call) : Decidable (AtRate rate e c) :=
  inferInstanceAs (Decidable (_ → _))

/-- How many repairs are requested. -/
def requested (cs : List Call) : ℕ := cs.countP fun c => decide (c = .generateRepair)

/-- The type of the code after calls, and how many data were committed while it was not systematic. -/
def coded (cs : List Call) : Bool × ℕ :=
  cs.foldl (fun t c => (codeType t.1 c, if t.1 then t.2 else t.2 + (committed [c]).length)) (true, 0)

/-- The source a packet is, if it is one. -/
def sourceOf : WirePacket → Option EncoderSource
  | .source src => some src
  | _ => none

/-- The sources among packets. -/
def sourcesOf (sent : List WirePacket) : List EncoderSource := sent.filterMap sourceOf

theorem sourceOf_eq_some {p : WirePacket} {src : EncoderSource} :
    sourceOf p = some src ↔ p = .source src := by
  cases p <;> simp [sourceOf]

theorem mem_sourcesOf {sent : List WirePacket} {src : EncoderSource} :
    src ∈ sourcesOf sent ↔ .source src ∈ sent := by
  simp only [sourcesOf, List.mem_filterMap, sourceOf_eq_some, exists_eq_right]

theorem mem_repairsOf {sent : List WirePacket} {r : EncoderRepair} :
    r ∈ repairsOf sent ↔ .repair r ∈ sent := by
  rw [repairsOf, List.mem_filterMap]
  constructor
  · rintro ⟨p, hp, h⟩
    cases p with
    | repair q =>
      cases h
      exact hp
    | _ => cases h
  · exact fun h => ⟨_, h, rfl⟩

theorem sourcesOf_packets (l : List EncoderSource) (rs : List EncoderRepair) :
    sourcesOf (l.map WirePacket.source ++ rs.map WirePacket.repair) = l := by
  rw [sourcesOf, List.filterMap_append, List.filterMap_map, List.filterMap_map]
  exact (congrArg₂ _ (List.filterMap_some (l := l)) (List.filterMap_none rs)).trans
    (List.append_nil l)

theorem repairsOf_packets (l : List EncoderSource) (rs : List EncoderRepair) :
    repairsOf (l.map WirePacket.source ++ rs.map WirePacket.repair) = rs := by
  rw [repairsOf, List.filterMap_append, List.filterMap_map, List.filterMap_map]
  exact congrArg₂ _ (List.filterMap_none l) (List.filterMap_some (l := rs))

/-- What is sent adds its sources and its repairs. -/
theorem Sent.sourcesOf (h : Sent e e' l n) : sourcesOf e'.sent = sourcesOf e.sent ++ l := by
  obtain ⟨rs, hsent, -⟩ := h
  rw [hsent, Encoder.sourcesOf, List.filterMap_append]
  exact congrArg _ (sourcesOf_packets l rs)

theorem Sent.repairsOf (h : Sent e e' l n) : ∃ rs, repairsOf e'.sent = repairsOf e.sent ++ rs ∧
    rs.length = n ∧ ∀ r ∈ rs, ∀ i, i ∈ r.sourceIds ↔ i ∈ e'.sources.map EncoderSource.id := by
  obtain ⟨rs, hsent, hn, hlists⟩ := h
  refine ⟨rs, ?_, hn, hlists⟩
  rw [hsent, Encoder.repairsOf, List.filterMap_append]
  exact congrArg _ (repairsOf_packets l rs)

theorem Sent.grows (h : Sent e e' l n) {p : WirePacket} (hp : p ∈ e.sent) : p ∈ e'.sent := by
  obtain ⟨rs, hsent, -⟩ := h
  rw [hsent]
  exact List.mem_append_left _ hp

theorem Sent.length (h : Sent e e' l n) : e'.sent.length = e.sent.length + l.length + n := by
  obtain ⟨rs, hsent, hn, -⟩ := h
  rw [hsent, List.length_append, List.length_append, List.length_map, List.length_map, hn,
    Nat.add_assoc]

/-- As many packets were sent as data was committed: the source, or a repair in its place when the
code is not systematic. A repair more was sent for each group of `rate` data and for each request.
Every source of a complete group that the window still holds is listed by a repair that was sent. -/
structure Paced (rate : ℕ) (cs : List Call) (e : Encoder) : Prop where
  next : e.currentSourceId = (committed cs).length
  systematic : e.systematic = (coded cs).1
  sources : (sourcesOf e.sent).length + (coded cs).2 = (committed cs).length
  repairs : (repairsOf e.sent).length =
    (coded cs).2 + (committed cs).length / rate + requested cs
  sent : e.sent.length = (committed cs).length + (committed cs).length / rate + requested cs
  listed : ∀ s ∈ e.sources, (s.id / rate + 1) * rate ≤ (committed cs).length →
    ∃ q, .repair q ∈ e.sent ∧ s.id ∈ q.sourceIds

theorem requested_concat (cs : List Call) (c : Call) :
    requested (cs ++ [c]) = requested cs + requested [c] := List.countP_append

theorem coded_concat (cs : List Call) (c : Call) : coded (cs ++ [c]) = (codeType (coded cs).1 c,
    if (coded cs).1 then (coded cs).2 else (coded cs).2 + (committed [c]).length) := by
  rw [coded, List.foldl_append]
  rfl

theorem paced_initial (rate : ℕ) : Paced rate [] initial := by
  have hzero : 0 = 0 + 0 / rate + 0 := by rw [Nat.zero_div]
  exact ⟨rfl, rfl, rfl, hzero, hzero, fun s hs => absurd hs List.not_mem_nil⟩

/-- A source is committed. -/
theorem paced_commit (hI : Paced rate cs e) (hrate : e.rate = rate)
    (hcount : (committed cs).length + 1 < 2 ^ 32) (hpos : 0 < e.rate)
    (hsources : e'.sources = e.kept ++ [⟨e.currentSourceId, x⟩])
    (hid : e'.currentSourceId = (e.currentSourceId + 1) % 2 ^ 32)
    (hsystematic : e'.systematic = e.systematic)
    (h : Sent e e' (e.sentSources (.data x)) (e.sentRepairs (.data x))) :
    Paced rate (cs ++ [.data x]) e' := by
  have hlen : (committed (cs ++ [.data x])).length = (committed cs).length + 1 := by
    rw [committed_append]
    exact List.length_append
  have hnarrow : (e.currentSourceId + 1) % 2 ^ 32 = (committed cs).length + 1 := by
    rw [hI.next]
    exact Nat.mod_eq_of_lt hcount
  have hrequested : requested (cs ++ [.data x]) = requested cs := requested_concat cs _
  have hcoded : coded (cs ++ [.data x]) =
      ((coded cs).1, if (coded cs).1 then (coded cs).2 else (coded cs).2 + 1) := coded_concat cs _
  have hdiv : ((committed cs).length + 1) / rate = _ := Nat.succ_div
  have hrepair : e.sentRepairs (.data x) = (if (coded cs).1 then 0 else 1) +
      if rate ∣ (committed cs).length + 1 then 1 else 0 := by
    rw [sentRepairs, hnarrow, hrate, hI.systematic]
  have hsource : (e.sentSources (.data x)).length = if (coded cs).1 then 1 else 0 := by
    rw [sentSources, hI.systematic, apply_ite List.length]
    rfl
  have hmore : (coded (cs ++ [.data x])).2 = (coded cs).2 + if (coded cs).1 then 0 else 1 := by
    rw [hcoded]
    dsimp only
    split
    · rfl
    · rfl
  have hone : (if (coded cs).1 then 1 else 0) + (if (coded cs).1 then 0 else 1) = 1 := by
    split
    · rfl
    · rfl
  obtain ⟨rs, hrs, hn, hlists⟩ := h.repairsOf
  rw [hrate] at hpos
  have hold := hI.repairs
  have hall := hI.sources
  have hsent := hI.sent
  refine ⟨hid.trans (hnarrow.trans hlen.symm), ?_, ?_, ?_, ?_, fun s hs hgroup => ?_⟩
  · rw [hsystematic, hcoded, hI.systematic]
  · rw [h.sourcesOf, hlen, List.length_append]
    omega
  · rw [hrs, hlen, hrequested, hdiv, List.length_append, hn]
    omega
  · rw [h.length, hlen, hrequested, hdiv]
    omega
  · by_cases hdvd : rate ∣ (committed cs).length + 1
    -- The last repair lists the whole window.
    · rw [if_pos hdvd] at hrepair
      obtain ⟨r, hr⟩ : ∃ r, r ∈ rs := List.exists_mem_of_length_pos (by omega)
      have hmem : r ∈ Encoder.repairsOf e'.sent := hrs ▸ List.mem_append_right _ hr
      exact ⟨r, mem_repairsOf.mp hmem, (hlists r hr s.id).mpr (List.mem_map_of_mem hs)⟩
    -- The new source does not complete a group, and other groups were complete before.
    · rw [hlen] at hgroup
      have hne : (s.id / rate + 1) * rate ≠ (committed cs).length + 1 := fun heq =>
        hdvd (heq ▸ Nat.dvd_mul_left rate _)
      rw [hsources, List.mem_append, List.mem_singleton] at hs
      rcases hs with hs | rfl
      · obtain ⟨r, hr, hmem⟩ := hI.listed s ((kept_sublist e).subset hs) (by omega)
        exact ⟨r, h.grows hr, hmem⟩
      · have hlt := Nat.lt_mul_div_succ (committed cs).length hpos
        rw [Nat.mul_comm, ← hI.next] at hlt
        rw [← hI.next] at hgroup hne
        dsimp only at hgroup hne
        omega

/-- No data is committed. -/
theorem paced_quiet (hI : Paced rate cs e) (hc : committed [c] = [])
    (hid : e'.currentSourceId = e.currentSourceId) (hsources : ∀ s ∈ e'.sources, s ∈ e.sources)
    (hsystematic : e'.systematic = codeType e.systematic c)
    (h : Sent e e' (e.sentSources c) (e.sentRepairs c)) : Paced rate (cs ++ [c]) e' := by
  have hcommitted : committed (cs ++ [c]) = committed cs := by
    rw [committed_append, hc, List.append_nil]
  have hcoded : coded (cs ++ [c]) = (codeType (coded cs).1 c, (coded cs).2) := by
    rw [coded_concat, hc, List.length_nil, Nat.add_zero, ite_self]
  obtain ⟨hsource, hrepair⟩ : e.sentSources c = [] ∧ e.sentRepairs c = requested [c] := by
    cases c with
    | data x => cases hc
    | _ => exact ⟨rfl, rfl⟩
  rw [hsource, hrepair] at h
  obtain ⟨rs, hrs, hn, -⟩ := h.repairsOf
  refine ⟨?_, ?_, ?_, ?_, ?_, fun s hs hgroup => ?_⟩
  · rw [hid, hcommitted, hI.next]
  · rw [hsystematic, hcoded, hI.systematic]
  · rw [h.sourcesOf, hcoded, hcommitted, List.append_nil, hI.sources]
  · rw [hrs, List.length_append, hn, hI.repairs, hcoded, hcommitted, requested_concat,
      Nat.add_assoc]
  · rw [h.length, hI.sent, hcommitted, requested_concat, List.length_nil, Nat.add_zero,
      Nat.add_assoc]
  · rw [hcommitted] at hgroup
    obtain ⟨r, hr, hmem⟩ := hI.listed s (hsources s hs) hgroup
    exact ⟨r, h.grows hr, hmem⟩

theorem paced_call (hI : Paced rate cs e) (hrate : AtRate rate e c)
    (hcount : (committed (cs ++ [c])).length < 2 ^ 32) (h : e.call b g c = .ok e') :
    Paced rate (cs ++ [c]) e' := by
  obtain ⟨hsystematic, hsent⟩ := call_sent h
  rcases (call_called h).window with ⟨x, rfl, hsources, hid⟩ | ⟨hc, hid, hsources⟩
  · rw [committed_append, List.length_append] at hcount
    have hpos : 0 < e.rate := by
      simp only [call, data, bind_ok_iff] at h
      obtain ⟨-, -, -, -, h⟩ := h
      exact (commit_sent h).1
    exact paced_commit hI (hrate (List.cons_ne_nil _ _)) hcount hpos hsources hid hsystematic hsent
  · refine paced_quiet hI hc hid (fun s hs => ?_) hsystematic hsent
    rcases hsources with hsources | ⟨-, a, -, -, -, hsources⟩
    · rwa [← hsources]
    · rw [hsources] at hs
      exact (eraseSources_sublist e.sources _).subset hs

/-- Whatever the type of the code, the window and the acknowledgements, data committed at a constant
rate is sent with one repair more for each group of `rate` sources, and a repair lists every source of
a complete group which is neither acknowledged nor evicted. -/
theorem paced_run (hcount : (committed cs).length < 2 ^ 32)
    (h : Run (call b g) (AtRate rate) initial cs e) : Paced rate cs e := by
  have hstart : (committed []).length < 2 ^ 32 → Paced rate [] initial := fun _ => paced_initial rate
  have hI := h.inputs (fun done u => (committed done).length < 2 ^ 32 → Paced rate done u)
    (fun done u c v hu hc hv hlt => ?_) hstart
  · exact hI hcount
  · refine paced_call (hu ?_) hc hlt hv
    rw [committed_append, List.length_append] at hlt
    exact Nat.lt_of_le_of_lt (Nat.le_add_right _ _) hlt

/-- Four data at rate 2, of which the first one is evicted, and a repair on request. -/
def pacedCalls : List Call :=
  [.setRate 2, .setWindowSize 3, .data [1], .data [2], .setCodeType false, .data [3],
    .generateRepair, .data [4]]

theorem paced_run_pacedCalls : ∃ e, run .release gf16 pacedCalls = .ok e ∧
    e.sent.length = 4 + 2 + 1 ∧ (sourcesOf e.sent).length + 2 = 4 ∧
    (repairsOf e.sent).length = 2 + 2 + 1 ∧ e.sources.map EncoderSource.id = [1, 2, 3] ∧
    ∀ s ∈ e.sources, ∃ q, .repair q ∈ e.sent ∧ s.id ∈ q.sourceIds := by
  have hrun : (runWhile (call .release gf16) (AtRate 2) initial pacedCalls).any (fun e => decide (
      e.sources.map EncoderSource.id = [1, 2, 3])) = true := by
    decide +kernel
  obtain ⟨e, he, hd⟩ := (Option.any_eq_true _ _).mp hrun
  have hids := of_decide_eq_true hd
  have hpaced := paced_run (by decide) (run_of_runWhile he)
  refine ⟨e, run_iff_foldlM.mp ((run_of_runWhile he).mono fun _ _ _ => trivial), hpaced.sent,
    hpaced.sources, hpaced.repairs, hids, fun s hs => hpaced.listed s hs ?_⟩
  have hmem : s.id ∈ [1, 2, 3] := hids ▸ List.mem_map_of_mem hs
  have hgroup : ∀ i ∈ [1, 2, 3], (i / 2 + 1) * 2 ≤ (committed pacedCalls).length := by decide
  exact hgroup s.id hmem

/-- Sources are sent in the order of their identifiers, with the data that was committed. -/
structure Catalogued (cs : List Call) (e : Encoder) : Prop where
  next : e.currentSourceId = (committed cs).length
  ids : (sourcesOf e.sent).Pairwise fun s t => s.id < t.id
  data : ∀ s ∈ sourcesOf e.sent, (committed cs)[s.id]? = some s.symbol

theorem catalogued_call (hI : Catalogued cs e) (hcount : (committed (cs ++ [c])).length < 2 ^ 32)
    (h : e.call b g c = .ok e') : Catalogued (cs ++ [c]) e' := by
  rw [committed_append, List.length_append] at hcount
  have hold : ∀ s ∈ sourcesOf e.sent, (committed (cs ++ [c]))[s.id]? = some s.symbol := by
    intro s hs
    rw [committed_append]
    exact List.getElem?_append_left (List.getElem?_eq_some_iff.mp (hI.data s hs)).1 ▸ hI.data s hs
  have hsent := (call_sent h).2.sourcesOf
  rcases (call_called h).window with ⟨x, rfl, -, hid⟩ | ⟨hc, hid, -⟩
  · have hone : (committed [.data x]).length = 1 := rfl
    have hnext : e'.currentSourceId = (committed (cs ++ [.data x])).length := by
      rw [hid, hI.next, committed_append, List.length_append, hone]
      exact Nat.mod_eq_of_lt (by omega)
    have hnew : ∀ s ∈ e.sentSources (.data x), s = ⟨e.currentSourceId, x⟩ := by
      intro s hs
      obtain ⟨y, hy, hs⟩ := mem_sentSources hs
      cases hy
      exact hs
    refine ⟨hnext, ?_, ?_⟩
    · rw [hsent, List.pairwise_append]
      refine ⟨hI.ids, ?_, fun s hs t ht => ?_⟩
      · rw [sentSources]
        split
        · exact List.pairwise_singleton _ _
        · exact List.Pairwise.nil
      · rw [hnew t ht, hI.next]
        exact (List.getElem?_eq_some_iff.mp (hI.data s hs)).1
    · rw [hsent, List.forall_mem_append]
      refine ⟨hold, fun s hs => ?_⟩
      rw [hnew s hs, hI.next, committed_append]
      exact List.getElem?_concat_length
  · have hnone : e.sentSources c = [] := by
      cases c with
      | data x => cases hc
      | _ => rfl
    rw [hnone, List.append_nil] at hsent
    refine ⟨?_, hsent ▸ hI.ids, hsent ▸ hold⟩
    rw [hid, hI.next, committed_append, hc, List.append_nil]

theorem catalogued_run (hcount : (committed cs).length < 2 ^ 32) (h : run b g cs = .ok e) :
    Catalogued cs e := by
  have hstart : (committed []).length < 2 ^ 32 → Catalogued [] initial :=
    fun _ => ⟨rfl, .nil, fun s hs => absurd hs List.not_mem_nil⟩
  have hI := (run_iff_foldlM.mpr h).inputs
    (fun done u => (committed done).length < 2 ^ 32 → Catalogued done u)
    (fun done u c v hu _ hv hlt => ?_) hstart
  · exact hI hcount
  · refine catalogued_call (hu ?_) hlt hv
    rw [committed_append, List.length_append] at hlt
    exact Nat.lt_of_le_of_lt (Nat.le_add_right _ _) hlt

end Netcode.Encoder
