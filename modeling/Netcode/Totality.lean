import Netcode.Window
import Netcode.Reading

/-! When the calls of an encoder's public interface return. -/
namespace Netcode

open Containers Encodings Runs

variable {w : FieldSize} {b : Build} {g : GfComplete w}

namespace Detail.Encoder

variable {src : EncoderSource} {repair : EncoderRepair} {sources : List EncoderSource}

/-- The symbol holds whole words. -/
def Aligned (w : FieldSize) (s : EncoderSource) : Prop := w.wordBytes ∣ s.symbol.length

theorem aligned_size (h : Aligned w src) : w.wordBytes ∣ src.size := by
  have h65536 : w.wordBytes ∣ 2 ^ 16 := by cases w <;> decide
  exact (Nat.dvd_mod_iff h65536).mpr h

theorem size_le (src : EncoderSource) : src.size ≤ src.symbol.length := Nat.mod_le _ _

/-- Filling a repair from sources that hold whole words returns, with an empty symbol only if all
their narrowed sizes are zero. -/
theorem encode_returns (repair : EncoderRepair) (hne : sources ≠ []) (h : ∀ s ∈ sources, Aligned w s) :
    ∃ r, encode b g repair sources = .ok r ∧
      (0 < r.symbol.length ↔ ∃ s ∈ sources, s.size ≠ 0) := by
  cases sources with
  | nil => exact absurd rfl hne
  | cons src sources =>
    have hs := h src List.mem_cons_self
    obtain ⟨s, hm⟩ : ∃ s, multiply g src.symbol (resize repair.symbol src.size) src.size
        (coefficient w repair.id src.id) = .ok s :=
      ⟨_, multiply_ok_iff.mpr ⟨aligned_size hs, size_le src, (length_resize _ _).ge, rfl⟩⟩
    have hlen : s.length = src.size := (vec_multiply_exact (length_resize _ _) hm).1
    have hrun := foldlM_ok_induction (f := addSource g) (l := sources) (s := { repair with
        sourceIds := repair.sourceIds.insert src.id
        symbol := s
        encodedSize := multiplySize g (BitVec.ofNat 16 src.size)
          (coefficient w repair.id src.id) })
      (fun l u => (∀ t ∈ l, Aligned w t) ∧
        ((0 < u.symbol.length ∨ ∃ t ∈ l, t.size ≠ 0) ↔ ∃ t ∈ src :: sources, t.size ≠ 0)) ?_
      ⟨fun t ht => h t (List.mem_cons_of_mem src ht), ?_⟩
    · obtain ⟨r, hr, -, hiff⟩ := hrun
      refine ⟨r, ?_, ?_⟩
      · simp only [encode, List.isEmpty_cons, Bool.not_false, Build.assert_true, hm, ok_bind, hr]
      · rw [← hiff]
        simp
    · rintro a l u ⟨hl, hu⟩
      have ha := hl a List.mem_cons_self
      obtain ⟨hbuffer, -⟩ := buffer_spec (g := g) u.symbol a.size
      obtain ⟨t, ht⟩ : ∃ t, multiplyAdd g a.symbol
          (if u.symbol.length < a.size then resize u.symbol a.size else u.symbol) a.size
          (coefficient w u.id a.id) = .ok t :=
        ⟨_, multiplyAdd_ok_iff.mpr ⟨aligned_size ha, size_le a, hbuffer ▸ le_max_right _ _, rfl⟩⟩
      refine ⟨{ u with
        sourceIds := u.sourceIds.insert a.id
        symbol := t
        encodedSize := multiplySize g (BitVec.ofNat 16 a.size) (coefficient w u.id a.id) ^^^
          u.encodedSize }, by simp only [addSource, ht, ok_bind],
        fun x hx => hl x (List.mem_cons_of_mem a hx), ?_⟩
      rw [← hu]
      dsimp only
      rw [(vec_multiplyAdd ht).1, hbuffer]
      simp only [List.mem_cons, exists_eq_or_imp, ← or_assoc]
      exact or_congr_left (by omega)
    · dsimp only
      rw [hlen]
      simp only [List.mem_cons, exists_eq_or_imp]
      exact or_congr_left Nat.pos_iff_ne_zero

end Detail.Encoder

namespace Encoder

open Detail.Encoder (Aligned)

variable {e e' : Encoder} {c : Call} {cs : List Call}

/-- The arguments the assertions of the public interface allow. -/
def Call.Admissible (w : FieldSize) : Call → Prop
  | .data d => 0 < d.length ∧ w.wordBytes ∣ d.length
  | .packet p => p ≠ []
  | .setRate rate => 0 < rate
  | .setWindowSize sz => 0 < sz
  | _ => True

instance (w : FieldSize) : (c : Call) → Decidable (c.Admissible w)
  | .data d => inferInstanceAs (Decidable (0 < d.length ∧ w.wordBytes ∣ d.length))
  | .packet p => inferInstanceAs (Decidable (p ≠ []))
  | .setRate rate => inferInstanceAs (Decidable (0 < rate))
  | .setWindowSize sz => inferInstanceAs (Decidable (0 < sz))
  | .generateRepair | .setCodeType _ | .setAdaptive _ => inferInstanceAs (Decidable True)

/-- A call generates a repair. -/
def generates (e : Encoder) : Call → Bool
  | .data _ => !e.systematic || decide ((e.currentSourceId + 1) % 2 ^ 32 % e.rate = 0)
  | .generateRepair => true
  | _ => false

/-- The window of the repairs a call generates. -/
def encoded (e : Encoder) : Call → List EncoderSource
  | .data d => e.kept ++ [⟨e.currentSourceId, d⟩]
  | _ => e.sources

/-- If a call generates a repair, the narrowed size of some source of its window is not zero. -/
def Generable (e : Encoder) (c : Call) : Prop :=
  e.generates c = true → ∃ s ∈ e.encoded c, s.size ≠ 0

instance (e : Encoder) (c : Call) : Decidable (e.Generable c) :=
  inferInstanceAs (Decidable (_ → _))

/-- The parameters are positive and the sources hold whole words. -/
structure Able (w : FieldSize) (e : Encoder) : Prop where
  rate : 0 < e.rate
  windowSize : 0 < e.windowSize
  aligned : ∀ s ∈ e.sources, Aligned w s

theorem rateForLoss_pos (loss : ℚ) : 0 < rateForLoss loss := by
  rw [rateForLoss]
  split
  · decide
  · next hlow =>
    have hpos : 0 < loss := lt_of_lt_of_le (by norm_num) (not_lt.mp hlow)
    rw [Nat.ceil_pos]
    positivity

theorem adaptRate_pos (h : 0 < e.rate) (nb : ℕ) : 0 < e.adaptRate nb := by
  rw [adaptRate]
  split
  · split
    · exact rateForLoss_pos _
    · exact rateForLoss_pos _
  · exact h

/-- Generating a repair returns if the size of some source is not zero once narrowed. -/
theorem generateRepair_returns (h : ∀ s ∈ e.sources, Aligned w s)
    (hsize : ∃ s ∈ e.sources, s.size ≠ 0) : ∃ e', generateRepair b g e = .ok e' := by
  obtain ⟨s, hs, hne⟩ := hsize
  obtain ⟨r, hr, hiff⟩ := Detail.Encoder.encode_returns (b := b) (g := g)
    ⟨e.currentRepairId, FlatSet.empty, e.repair.encodedSize, []⟩
    (List.ne_nil_of_mem hs) h
  exact ⟨_, generateRepair_ok_iff.mpr ⟨r, hr, fun _ => hiff.mpr ⟨s, hs, hne⟩, rfl⟩⟩

/-- With assertions, it returns only then. -/
theorem size_of_generateRepair (hb : b.asserts = true) (h : ∀ s ∈ e.sources, Aligned w s)
    (he : generateRepair b g e = .ok e') : ∃ s ∈ e.sources, s.size ≠ 0 := by
  obtain ⟨r, hr, hlen, -⟩ := generateRepair_ok_iff.mp he
  have hne : e.sources ≠ [] := by
    intro hnil
    simp [hnil, Detail.Encoder.encode, bind_ok_iff] at hr
  obtain ⟨r', hr', hiff⟩ := Detail.Encoder.encode_returns (b := b) (g := g)
    ⟨e.currentRepairId, FlatSet.empty, e.repair.encodedSize, []⟩ hne h
  rw [hr] at hr'
  cases hr'
  exact hiff.mp (hlen hb)

theorem evict_returns (h : 0 < e.windowSize) : e.evict = .ok { e with sources := e.kept } := by
  rw [evict, kept]
  split
  · next hfull =>
    cases hs : e.sources with
    | nil =>
      rw [hs, List.length_nil] at hfull
      omega
    | cons s l => rfl
  · rfl

theorem able_generateRepair (hI : e.Able w) (h : generateRepair b g e = .ok e') : e'.Able w := by
  obtain ⟨r, -, -, rfl⟩ := generateRepair_ok_iff.mp h
  exact ⟨hI.rate, hI.windowSize, hI.aligned⟩

theorem kept_able (hI : e.Able w) {d : List Byte} (hd : w.wordBytes ∣ d.length) :
    ({ e with sources := e.kept ++ [⟨e.currentSourceId, d⟩] } : Encoder).Able w := by
  refine ⟨hI.rate, hI.windowSize, fun s hs => ?_⟩
  rcases List.mem_append.mp hs with hs | hs
  · exact hI.aligned s (e.kept_sublist.subset hs)
  · rw [List.mem_singleton.mp hs]
    exact hd

theorem sendSource_able {src : EncoderSource} (hI : e.Able w) (h : sendSource b g src e = .ok e') :
    e'.Able w ∧ e'.rate = e.rate := by
  rw [sendSource] at h
  split at h
  · cases h
    exact ⟨⟨hI.rate, hI.windowSize, hI.aligned⟩, rfl⟩
  · obtain ⟨r, -, -, rfl⟩ := generateRepair_ok_iff.mp h
    exact ⟨⟨hI.rate, hI.windowSize, hI.aligned⟩, rfl⟩

theorem repairIfNeeded_eq (h : 0 < e.rate) : repairIfNeeded b g e =
    if (e.currentSourceId + 1) % 2 ^ 32 % e.rate = 0 then generateRepair b g e else .ok e := by
  rw [repairIfNeeded, if_neg h.ne']

/-- Committing data returns if the repairs it generates have a symbol. -/
theorem commit_returns (hI : e.Able w) {d : List Byte} (hd : w.wordBytes ∣ d.length)
    (hgen : e.Generable (.data d)) : ∃ e', commit b g d e = .ok e' := by
  have hwindow := kept_able hI hd
  have hmem : (⟨e.currentSourceId, d⟩ : EncoderSource) ∈ e.kept ++ [⟨e.currentSourceId, d⟩] :=
    List.mem_append_right _ (List.mem_singleton_self _)
  simp only [Generable, generates, encoded, Bool.or_eq_true, Bool.not_eq_true',
    decide_eq_true_eq] at hgen
  obtain ⟨e2, h2⟩ : ∃ e2, sendSource b g ⟨e.currentSourceId, d⟩
      { e with sources := e.kept ++ [⟨e.currentSourceId, d⟩] } = .ok e2 := by
    rw [sendSource]
    split
    · exact ⟨_, rfl⟩
    · next hsys =>
      exact generateRepair_returns hwindow.aligned (hgen (Or.inl (Bool.not_eq_true _ ▸ hsys)))
  have hemits := sendSource_emits hmem h2
  obtain ⟨hI2, hrate⟩ := sendSource_able hwindow h2
  obtain ⟨e3, h3⟩ : ∃ e3, repairIfNeeded b g e2 = .ok e3 := by
    rw [repairIfNeeded_eq hI2.rate, hemits.next, hrate]
    split
    · next hnow =>
      refine generateRepair_returns hI2.aligned ?_
      rw [hemits.sources]
      exact hgen (Or.inr hnow)
    · exact ⟨_, rfl⟩
  exact ⟨{ e3 with currentSourceId := (e3.currentSourceId + 1) % 2 ^ 32 },
    by simp only [commit, evict_returns hI.windowSize, ok_bind, h2, h3]⟩

/-- With assertions, it returns only then. -/
theorem generable_of_commit (hb : b.asserts = true) (hI : e.Able w) {d : List Byte}
    (hd : w.wordBytes ∣ d.length) (h : commit b g d e = .ok e') : e.Generable (.data d) := by
  have hwindow := kept_able hI hd
  simp only [commit, evict_returns hI.windowSize, ok_bind, bind_ok_iff, Except.ok.injEq] at h
  obtain ⟨e2, h2, e3, h3, -⟩ := h
  have hemits := sendSource_emits (List.mem_append_right _ (List.mem_singleton_self _)) h2
  obtain ⟨hI2, hrate⟩ := sendSource_able hwindow h2
  intro hgen
  simp only [generates, Bool.or_eq_true, Bool.not_eq_true', decide_eq_true_eq] at hgen
  rcases hgen with hsys | hnow
  · rw [sendSource, if_neg (by rw [hsys]; decide)] at h2
    exact size_of_generateRepair hb hwindow.aligned h2
  · rw [repairIfNeeded_eq hI2.rate, hemits.next, hrate, if_pos hnow] at h3
    have hsize := size_of_generateRepair hb hI2.aligned h3
    rwa [hemits.sources] at hsize

/-- The notification of a packet always returns. -/
theorem notify_returns {p : List Byte} (hp : p ≠ []) (e : Encoder) :
    ∃ q, notify b p e = .ok q := by
  have hne : (!p.isEmpty) = true := by simpa using hp
  simp only [notify, Build.assert_eq_ok hne, ok_bind]
  cases htype : getPacketType p with
  | error s =>
    obtain ⟨x, rfl⟩ := getPacketType_throws hp s htype
    exact ⟨_, rfl⟩
  | ok ty =>
    cases ty with
    | ack =>
      cases hread : readAck b p with
      | error s =>
        obtain ⟨x, rfl⟩ := readAck_throws htype s hread
        exact ⟨_, rfl⟩
      | ok q => exact ⟨_, rfl⟩
    | repair => exact ⟨_, rfl⟩
    | source => exact ⟨_, rfl⟩

/-- A call returns if the repairs it generates have a symbol. -/
theorem call_returns (hI : e.Able w) (hc : c.Admissible w) (hgen : e.Generable c) :
    ∃ e', e.call b g c = .ok e' := by
  cases c with
  | data d =>
    rw [call, data, Build.assert_eq_ok (decide_eq_true hc.1), Build.assert_eq_ok (decide_eq_true hc.2),
      ok_bind, ok_bind]
    exact commit_returns hI hc.2 hgen
  | packet p =>
    obtain ⟨q, hq⟩ := notify_returns (b := b) hc e
    exact ⟨q.1, by rw [call, hq]; rfl⟩
  | generateRepair => exact generateRepair_returns hI.aligned (hgen rfl)
  | setRate rate =>
    exact ⟨{ e with rate := rate },
      by rw [call, Build.assert_eq_ok (decide_eq_true (p := 0 < rate) hc), ok_bind]⟩
  | setWindowSize sz =>
    exact ⟨{ e with windowSize := sz },
      by rw [call, Build.assert_eq_ok (decide_eq_true (p := 0 < sz) hc), ok_bind]⟩
  | setCodeType systematic => exact ⟨_, rfl⟩
  | setAdaptive adaptive => exact ⟨_, rfl⟩

/-- With assertions, it returns only then. -/
theorem generable_of_call (hb : b.asserts = true) (hI : e.Able w) (hc : c.Admissible w)
    (h : e.call b g c = .ok e') : e.Generable c := by
  cases c with
  | data d =>
    rw [call, data, Build.assert_eq_ok (decide_eq_true hc.1), Build.assert_eq_ok (decide_eq_true hc.2),
      ok_bind, ok_bind] at h
    exact generable_of_commit hb hI hc.2 h
  | generateRepair => exact fun _ => size_of_generateRepair hb hI.aligned h
  | packet | setRate | setWindowSize | setCodeType | setAdaptive => exact fun hgen => by cases hgen

theorem able_call (hI : e.Able w) (hc : c.Admissible w) (h : e.call b g c = .ok e') :
    e'.Able w := by
  have hquiet : ∀ {u : Encoder} {r z : ℕ}, 0 < r → 0 < z → u.sources.Sublist e.sources →
      u.rate = r → u.windowSize = z → u.Able w := by
    intro u r z hr hz hsub hur huz
    exact ⟨hur ▸ hr, huz ▸ hz, fun s hs => hI.aligned s (hsub.subset hs)⟩
  cases c with
  | data d =>
    simp only [call, data, commit, bind_ok_iff, Except.ok.injEq] at h
    obtain ⟨-, -, -, -, e1, h1, e2, h2, e3, h3, rfl⟩ := h
    rw [evict_returns hI.windowSize] at h1
    cases h1
    obtain ⟨hI2, -⟩ := sendSource_able (kept_able hI hc.2) h2
    have hI3 : e3.Able w := by
      rw [repairIfNeeded_eq hI2.rate] at h3
      split at h3
      · exact able_generateRepair hI2 h3
      · cases h3
        exact hI2
    exact ⟨hI3.rate, hI3.windowSize, hI3.aligned⟩
  | packet p =>
    obtain ⟨q, hn, rfl⟩ := map_ok_iff.mp h
    rcases notify_cases hn with ⟨hq | hq, -⟩ | ⟨a, n, -, -, -, hq⟩
    · rw [hq]
      exact hI
    · rw [hq]
      exact ⟨hI.rate, hI.windowSize, hI.aligned⟩
    · rw [hq]
      refine hquiet (adaptRate_pos hI.rate a.nbPackets) hI.windowSize ?_ rfl rfl
      exact eraseSources_sublist e.sources _
  | generateRepair => exact able_generateRepair hI h
  | setRate rate =>
    simp only [call, bind_ok_iff, Except.ok.injEq] at h
    obtain ⟨-, -, rfl⟩ := h
    exact ⟨hc, hI.windowSize, hI.aligned⟩
  | setWindowSize sz =>
    simp only [call, bind_ok_iff, Except.ok.injEq] at h
    obtain ⟨-, -, rfl⟩ := h
    exact ⟨hI.rate, hc, hI.aligned⟩
  | setCodeType systematic =>
    cases h
    exact ⟨hI.rate, hI.windowSize, hI.aligned⟩
  | setAdaptive adaptive =>
    cases h
    exact ⟨hI.rate, hI.windowSize, hI.aligned⟩

theorem able_initial : initial.Able w := ⟨by decide, by decide, fun s hs => by cases hs⟩

theorem able_run (hcs : ∀ c ∈ cs, c.Admissible w) (h : run b g cs = .ok e) : e.Able w :=
  foldlM_invariant (fun u => u.Able w) (fun c hc _ _ hu hv => able_call hu (hcs c hc) hv)
    able_initial h

/-- Every call of a run that generates a repair does so from a source whose narrowed size is not
zero. -/
def Generating (b : Build) (g : GfComplete w) (cs : List Call) : Prop :=
  ∀ cs1 c cs2 e, cs = cs1 ++ c :: cs2 → run b g cs1 = .ok e → e.Generable c

theorem run_returns (hcs : ∀ c ∈ cs, c.Admissible w) (h : Generating b g cs) :
    ∃ e, run b g cs = .ok e := by
  refine foldlM_ok_inputs fun done c rest u hdone hu => ?_
  have hI := able_run (fun a ha => hcs a (hdone ▸ List.mem_append_left _ ha)) hu
  have hc := hcs c (hdone ▸ List.mem_append_right _ List.mem_cons_self)
  obtain ⟨v, hv⟩ := call_returns (b := b) (g := g) hI hc (h done c rest u hdone hu)
  exact ⟨v, hv⟩

/-- The encoder is total exactly on the runs whose calls generate repairs only from windows with a
source whose size is not zero once narrowed to 16 bits: with assertions no other run completes, and
without them these do too. -/
theorem run_returns_iff (hcs : ∀ c ∈ cs, c.Admissible w) :
    ((∃ e, run .debug g cs = .ok e) ↔ Generating .debug g cs) ∧
      ∀ b, Generating b g cs → ∃ e, run b g cs = .ok e := by
  refine ⟨⟨?_, run_returns hcs⟩, fun b => run_returns hcs⟩
  rintro ⟨e, he⟩ cs1 c cs2 e1 rfl h1
  obtain ⟨u, hu, hrest⟩ := run_append he
  rw [h1] at hu
  cases hu
  rw [List.foldlM_cons] at hrest
  obtain ⟨e2, h2, -⟩ := bind_ok_iff.mp hrest
  have hI := able_run (fun a ha => hcs a (List.mem_append_left _ ha)) h1
  exact generable_of_call rfl hI (hcs c (List.mem_append_right _ List.mem_cons_self)) h2

/-- A repair is requested before and after data is given. -/
theorem run_returns_iff_requests :
    ((∃ e, run .debug gf16 [.data [1], .generateRepair] = .ok e) ↔
      Generating .debug gf16 [.data [1], .generateRepair]) ∧
    ∀ b, Generating b gf16 [.data [1], .generateRepair] →
      ∃ e, run b gf16 [.data [1], .generateRepair] = .ok e :=
  run_returns_iff (by decide)

/-- A repair requested from a fresh encoder fails an assertion, and without assertions reads the
first element of an empty list. -/
theorem generateRepair_not_total :
    ¬ (∀ cs : List Call, (∀ c ∈ cs, c.Admissible .w4) → ∃ e, run .debug gf16 cs = .ok e) ∧
      run .debug gf16 [.generateRepair] = .error (.assertion .emptySourceList) ∧
      run .release gf16 [.generateRepair] = .error (.undefined .emptyList) := by
  have hfail : run .debug gf16 [.generateRepair] = .error (.assertion .emptySourceList) := rfl
  refine ⟨fun h => ?_, hfail, rfl⟩
  obtain ⟨e, he⟩ := h [.generateRepair] (by simp [Call.Admissible])
  rw [hfail] at he
  cases he

end Encoder

end Netcode
