import Netcode.Ledger.Spent

/-! Every source given or waiting was received or decoded. -/
namespace Netcode.Detail.Decoder

open Containers Runs

variable {w : FieldSize} {b : Build} {g : GfComplete w}

variable {d d' d1 d2 : Decoder w} {src y : DecoderSource} {r r2 : DecoderRepair} {p : Incoming}
  {pending : List DecoderSource} {k m ρ first : ℕ}

theorem size_insert_le {α : Type*} [LinearOrder α] (s : FlatSet α) (a : α) :
    (s.insert a).size ≤ s.size + 1 := by
  have hle := FlatSet.size_le_erase (s.insert a) a
  have herase : (s.insert a).erase a = s.erase a := by
    apply FlatSet.ext_mem
    intro c
    rw [FlatSet.mem_erase, FlatSet.mem_erase, FlatSet.mem_insert]
    tauto
  have hfilter : (s.erase a).size ≤ s.size := List.length_filter_le _ _
  rw [herase] at hle
  omega

/-- The sources given to the callback, and those that wait for it. -/
def given (d : Decoder w) : ℕ := d.callbacks.length + d.orderedSources.size

/-- Once stored, a source waits. -/
def mayWait (d : Decoder w) (x : DecoderSource) : Bool :=
  d.inOrder && decide (d.firstMissingSourceInOrder ≤ x.id)

/-- In order, an identifier after which the counter of sources does not wrap. -/
def Before (inOrder : Bool) (i : ℕ) : Prop := inOrder = true → i + 1 < 2 ^ 32

/-- No source is the last one before the counter wraps. -/
structure Ahead (inOrder : Bool) (d : Decoder w) (pending : List DecoderSource) : Prop where
  order : d.inOrder = inOrder
  contents : Naming (Before inOrder) d pending
  waiting : ∀ k ∈ d.orderedSources, Before inOrder k

theorem given_sweep (hk : k ∈ d.orderedSources) (h : d.sweep k = .ok d') : d'.given = d.given := by
  obtain ⟨src, -, rfl⟩ := sweep_ok_iff.mp h
  have hsize := FlatSet.size_erase hk
  show (d.callbacks ++ [_]).length + (d.orderedSources.erase k).size = d.given
  rw [List.length_append, List.length_singleton, given]
  omega

theorem given_flush (h : d.flushOrderedSources b = .ok d') : d'.given = d.given :=
  flushOrderedSources_rule (fun u => u.given = d.given)
    (fun _ _ hu hmem hv => (given_sweep hmem hv).trans hu) rfl h

theorem given_give (h : (d.callback src).advance.flushOrderedSources b = .ok d') :
    d'.given = d.given + 1 := by
  rw [given_flush h]
  show (d.callbacks ++ [_]).length + d.orderedSources.size = d.given + 1
  rw [List.length_append, List.length_singleton, given]
  omega

/-- Nothing that waits is last, so that the first missing source only advances. -/
theorem first_flush (hwait : ∀ k ∈ d.orderedSources, k + 1 < 2 ^ 32)
    (h : d.flushOrderedSources b = .ok d') :
    d.firstMissingSourceInOrder ≤ d'.firstMissingSourceInOrder := by
  refine (flushOrderedSources_rule (fun u => (∀ k ∈ u.orderedSources, k + 1 < 2 ^ 32) ∧
    d.firstMissingSourceInOrder ≤ u.firstMissingSourceInOrder) ?_ ⟨hwait, le_rfl⟩ h).2
  rintro u v ⟨hu, hle⟩ hmem hv
  obtain ⟨src, -, rfl⟩ := sweep_ok_iff.mp hv
  refine ⟨fun k hk => hu k (FlatSet.mem_erase.mp hk).1, hle.trans ?_⟩
  show u.firstMissingSourceInOrder ≤ (u.firstMissingSourceInOrder + 1) % 2 ^ 32
  rw [Nat.mod_eq_of_lt (hu _ hmem)]
  exact Nat.le_succ _

theorem mayWait_anti (hio : d'.inOrder = d.inOrder)
    (hle : d.firstMissingSourceInOrder ≤ d'.firstMissingSourceInOrder) {x : DecoderSource}
    (h : d'.mayWait x = true) : d.mayWait x = true := by
  rw [mayWait, Bool.and_eq_true, decide_eq_true_eq, hio] at h
  rw [mayWait, Bool.and_eq_true, decide_eq_true_eq]
  exact ⟨h.1, hle.trans h.2⟩

theorem countP_congr_mayWait (hio : d'.inOrder = d.inOrder)
    (hf : d'.firstMissingSourceInOrder = d.firstMissingSourceInOrder) :
    pending.countP d'.mayWait = pending.countP d.mayWait := by
  refine List.countP_congr fun x _ => ?_
  rw [mayWait, mayWait, hio, hf]

/-- A source is given to the callback at once, or may wait once it is stored. -/
theorem due_offer {inOrder : Bool} (hI : d.Ahead inOrder pending) (hsrc : Before inOrder src.id)
    (h : d.offer b src = .ok d') : (∀ k ∈ d'.orderedSources, Before inOrder k) ∧
      d'.given + (src :: pending).countP d'.mayWait ≤ d.given + pending.countP d.mayWait + 1 := by
  rcases offer_cases h with ⟨hio, rfl⟩ | ⟨hio, ⟨hid, hf⟩ | ⟨-, rfl⟩⟩
  · have hnone : (src :: pending).countP (d.callback src).mayWait = 0 := by
      refine List.countP_eq_zero.mpr fun x _ => ?_
      rw [mayWait, show (d.callback src).inOrder = false from hio]
      exact Bool.false_ne_true
    refine ⟨hI.waiting, ?_⟩
    rw [hnone]
    show (d.callbacks ++ [_]).length + d.orderedSources.size + 0 ≤ _
    rw [List.length_append, List.length_singleton, given]
    omega
  · have hordered : inOrder = true := hI.order.symm.trans hio
    have hbound := hsrc hordered
    have hwait : ∀ k ∈ (d.callback src).advance.orderedSources, k + 1 < 2 ^ 32 :=
      fun k hk => hI.waiting k hk hordered
    have hstart : (d.callback src).advance.firstMissingSourceInOrder = src.id + 1 := by
      show (d.firstMissingSourceInOrder + 1) % 2 ^ 32 = src.id + 1
      rw [← hid, Nat.mod_eq_of_lt hbound]
    have hfirst := first_flush hwait hf
    rw [hstart] at hfirst
    have hdel := flushOrderedSources_delivers hf
    have hio' : d'.inOrder = d.inOrder := (inOrder_delivers hdel).trans rfl
    have hno : d'.mayWait src = false := by
      rw [mayWait, decide_eq_false (by omega), Bool.and_false]
    have hcount : pending.countP d'.mayWait ≤ pending.countP d.mayWait :=
      List.countP_mono_left fun x _ => mayWait_anti hio' (by omega)
    rw [List.countP_cons_of_neg (by rw [hno]; exact Bool.false_ne_true), given_give hf]
    refine ⟨fun k hk => hI.waiting k (waiting_flush hf k hk), by omega⟩
  · refine ⟨hI.waiting, ?_⟩
    rw [List.countP_cons]
    split <;> omega

/-- Whatever is decoded next to a source is given or waits too, unless it is older than what was
given. -/
theorem due_rule (inOrder : Bool) (m : ℕ) : PeelRule b g
    (fun pending src (d : Decoder w) => (d.Ahead inOrder pending ∧ Before inOrder src.id) ∧
      d.given + pending.countP d.mayWait + 1 ≤ m + d.nbDecoded)
    (fun pending d => d.Ahead inOrder pending ∧
      d.given + pending.countP d.mayWait ≤ m + d.nbDecoded) where
  add := by
    rintro pending src d d1 d2 ⟨⟨hI, hsrc⟩, hdue⟩ hL ho hs
    obtain ⟨hwait, hgiven⟩ := due_offer hI hsrc ho
    have hdel := offer_delivers ho
    have hdecoded : d1.nbDecoded = d.nbDecoded := by
      obtain ⟨c, f, o, rfl⟩ := hdel
      rfl
    have hcontents := (contents_rule (closed_naming (Before inOrder))).add ⟨hI.contents, hsrc⟩ hL ho hs
    have heq := (stripFromRepairs_spec hs).1
    refine ⟨⟨?_, hcontents, ?_⟩, ?_⟩
    · rw [heq]
      exact (inOrder_delivers hdel).trans hI.order
    · rw [heq]
      exact hwait
    · have hsame : d2.given = d1.given ∧ d2.nbDecoded = d1.nbDecoded := by
        rw [heq]
        exact ⟨rfl, rfl⟩
      rw [countP_congr_mayWait (d := d1) (by rw [heq]) (by rw [heq]), hsame.1, hsame.2]
      omega
  decode := by
    rintro pending src d k ρ r y ⟨hI, hdue⟩ hL hk hmin hids hd hy
    obtain ⟨hcontents, hbefore⟩ :=
      (contents_rule (closed_naming (Before inOrder))).decode hI.contents hL hk hmin hids hd hy
    refine ⟨⟨⟨hI.order, hcontents, hI.waiting⟩, hbefore⟩, ?_⟩
    show d.given + (src :: pending).countP d.mayWait + 1 ≤ m + (d.nbDecoded + 1)
    omega
  store := by
    rintro pending src d d' ⟨hI, hdue⟩ h
    have hcontents := contents_store hI.contents h
    have hsrc := hI.contents.pending src List.mem_cons_self
    have heq := (store_spec h).2
    have hio : d'.inOrder = d.inOrder := by rw [heq]
    have hsame : d'.callbacks = d.callbacks ∧ d'.nbDecoded = d.nbDecoded ∧
        d'.firstMissingSourceInOrder = d.firstMissingSourceInOrder ∧
        d'.orderedSources = if d.inOrder = true ∧ d.firstMissingSourceInOrder < src.id
          then d.orderedSources.insert src.id else d.orderedSources := by
      rw [heq]
      exact ⟨rfl, rfl, rfl, rfl⟩
    obtain ⟨hc, hn, hf, hordered⟩ := hsame
    rw [List.countP_cons] at hdue
    rw [countP_congr_mayWait hio hf, given, hc, hn, hordered]
    rw [given] at hdue
    refine ⟨⟨hio.trans hI.order, hcontents, fun k hk => ?_⟩, ?_⟩
    · rw [hordered] at hk
      split at hk
      · rcases FlatSet.mem_insert.mp hk with rfl | hk
        · exact hsrc
        · exact hI.waiting k hk
      · exact hI.waiting k hk
    · split
      · next hlt =>
        have hwait : d.mayWait src = true := by
          rw [mayWait, hlt.1, decide_eq_true hlt.2.le]
          rfl
        have hsize := size_insert_le d.orderedSources src.id
        rw [if_pos hwait] at hdue
        omega
      · omega

theorem given_insertDecoded (h : d.insertDecoded b src = .ok d') : d'.given ≤ d.given + 1 ∧
    ∀ k ∈ d'.orderedSources, k ∈ d.orderedSources ∨ k = src.id := by
  obtain ⟨inserted, d1, -, rfl, ⟨-, rfl⟩ | ⟨-, -, hf⟩ | ⟨-, -, rfl⟩⟩ := insertDecoded_cases h
  · refine ⟨?_, fun k hk => Or.inl hk⟩
    show (d.callbacks ++ [_]).length + d.orderedSources.size ≤ d.given + 1
    rw [List.length_append, List.length_singleton, given]
    omega
  · exact ⟨(given_give hf).le, fun k hk => Or.inl (waiting_flush hf k hk)⟩
  · have hsize := size_insert_le d.orderedSources src.id
    refine ⟨?_, fun k hk => (FlatSet.mem_insert.mp hk).symm⟩
    show d.callbacks.length + (d.orderedSources.insert src.id).size ≤ d.given + 1
    rw [given]
    omega

/-- A full decoding gives no more sources than it decodes. -/
theorem due_attemptFullDecoding {inOrder : Bool} (hI : d.Ahead inOrder [])
    (hdue : d.given ≤ m + d.nbDecoded) (h : d.attemptFullDecoding b g = .ok d') :
    d'.Ahead inOrder [] ∧ d'.given ≤ m + d'.nbDecoded := by
  have hcontents := contents_attemptFullDecoding (closed_naming (Before inOrder)) hI.contents
    (decodesFully_naming hI.contents) h
  rcases attemptFullDecoding_cases h with ⟨rfl, -⟩ | ⟨-, _, _, n, -, -, ⟨k, -, hf⟩ | ⟨-, ha⟩⟩
  · exact ⟨hI, hdue⟩
  · obtain ⟨_, _, -, heq, -⟩ := dropFaulty_spec hf
    have hsame : d'.inOrder = d.inOrder ∧ d'.orderedSources = d.orderedSources ∧
        d'.given = d.given ∧ d'.nbDecoded = d.nbDecoded := by
      rw [heq]
      exact ⟨rfl, rfl, rfl, rfl⟩
    obtain ⟨hio, ho, hg, hn⟩ := hsame
    exact ⟨⟨hio.trans hI.order, hcontents, ho ▸ hI.waiting⟩, by rw [hg, hn]; exact hdue⟩
  · obtain ⟨d1, h1, rfl⟩ := decodeAll_cases ha
    have hloop := foldlM_induction (f := decodeColumn b g _) (fun l u => (∀ e ∈ l, Before inOrder e.1) ∧
      u.inOrder = inOrder ∧ (∀ k ∈ u.orderedSources, Before inOrder k) ∧
      u.given + l.length ≤ d.given + d.missingSources.size ∧ u.nbDecoded = d.nbDecoded) ?_ ?_ h1
    · obtain ⟨-, hio, hwait, hgiven, hdecoded⟩ := hloop
      refine ⟨⟨hio, hcontents, hwait⟩, ?_⟩
      rw [List.length_nil] at hgiven
      show d1.given ≤ m + (d1.nbDecoded + d.missingSources.size)
      omega
    · rintro e l u v ⟨hl, hio, hwait, hgiven, hdecoded⟩ hv
      obtain ⟨_, _, -, -, hins⟩ := decodeColumn_cases hv
      obtain ⟨hmore, hordered⟩ := given_insertDecoded hins
      obtain ⟨⟨c, f, o, t, rfl⟩, -⟩ := insertDecoded_decoding hins
      refine ⟨fun e' he' => hl e' (List.mem_cons_of_mem e he'), hio, fun k hk => ?_, ?_, hdecoded⟩
      · rcases hordered k hk with hk | rfl
        · exact hwait k hk
        · exact hl e List.mem_cons_self
      · rw [List.length_cons] at hgiven
        omega
    · have hlength : d.missingSources.keys.zipIdx.length = d.missingSources.size := by
        rw [List.length_zipIdx, OrdMap.keys, List.length_map]
        rfl
      refine ⟨fun e he => ?_, hI.order, hI.waiting, ?_, rfl⟩
      · have hkey := List.mem_zipIdx' he
        exact hI.contents.missing e.1 (OrdMap.contains_iff_mem_keys.mpr
          (hkey.2 ▸ List.getElem_mem hkey.1))
      · exact (congrArg (d.given + ·) hlength).le

theorem given_dropOrdered (h : d.dropOrdered b k = .ok d') : d'.given = d.given ∧
    ∀ i ∈ d'.orderedSources, i ∈ d.orderedSources := by
  rw [dropOrdered] at h
  split at h
  · obtain ⟨d1, h1, h2⟩ := bind_ok_iff.mp h
    have hloop := foldlM_induction (f := sweep) (fun l u => (l.Nodup ∧ ∀ a ∈ l, a ∈ u.orderedSources) ∧
      u.given = d.given ∧ ∀ i ∈ u.orderedSources, i ∈ d.orderedSources) ?_
      ⟨⟨d.orderedSources.nodup.filter _, fun a ha => (List.mem_filter.mp ha).1⟩, rfl,
        fun _ hi => hi⟩ h1
    · obtain ⟨-, hgiven, hordered⟩ := hloop
      exact ⟨(given_flush h2).trans hgiven, fun i hi => hordered i (waiting_flush h2 i hi)⟩
    · rintro a l u v ⟨⟨hnd, hmem⟩, hgiven, hordered⟩ hv
      have hsame := given_sweep (hmem a List.mem_cons_self) hv
      obtain ⟨hal, hnd⟩ := List.nodup_cons.mp hnd
      obtain ⟨src, -, rfl⟩ := sweep_ok_iff.mp hv
      refine ⟨⟨hnd, fun j hj => ?_⟩, hsame.trans hgiven,
        fun i hi => hordered i (FlatSet.mem_erase.mp hi).1⟩
      refine FlatSet.mem_erase.mpr ⟨hmem j (List.mem_cons_of_mem a hj), ?_⟩
      rintro rfl
      exact hal hj
  · cases h
    exact ⟨rfl, fun _ hi => hi⟩

theorem due_dropOutdated {inOrder : Bool} (hI : d.Ahead inOrder [])
    (h : d.dropOutdated b k = .ok d') : d'.Ahead inOrder [] ∧ d'.given = d.given ∧
      d'.nbDecoded = d.nbDecoded := by
  have hcontents := contents_dropOutdated hI.contents h
  obtain ⟨d1, d2, heq, h2, rfl, -⟩ := dropOutdated_cases h
  obtain ⟨hgiven, hordered⟩ := given_dropOrdered h2
  have hdel := dropOrdered_delivers h2
  have hio : d1.inOrder = d.inOrder := by rw [heq]
  have ho : d1.orderedSources = d.orderedSources := by rw [heq]
  have hg : d1.given = d.given := by rw [heq]; rfl
  have hn : d2.nbDecoded = d.nbDecoded := by
    obtain ⟨c, f, o, rfl⟩ := hdel
    rw [heq]
  exact ⟨⟨(inOrder_delivers hdel).trans (hio.trans hI.order), hcontents,
    fun i hi => hI.waiting i (ho ▸ hordered i hi)⟩, hgiven.trans hg, hn⟩

/-- A source received is given at most once, and a repair gives only what is decoded. -/
theorem due_receive {inOrder : Bool} (hL : d.ListedStored) (hI : d.Ahead inOrder [])
    (hdue : d.given ≤ m + d.nbDecoded) (hp : ∀ i ∈ p.ids, Before inOrder i)
    (h : d.receive b g p = .ok d') : d'.Ahead inOrder [] ∧
      d'.given ≤ m + p.sources + d'.nbDecoded := by
  cases p with
  | source src =>
    rcases receiveSource_cases h with ⟨rfl, -⟩ | ⟨-, -, d1, h1, h2⟩
    · exact ⟨hI, by show d'.given ≤ m + 1 + d'.nbDecoded; omega⟩
    · have hsrc := hp src.id (List.mem_singleton_self _)
      have hadded := (due_rule inOrder (m + 1)).addSource hL ⟨⟨hI, hsrc⟩, by
        show d.given + 0 + 1 ≤ m + 1 + d.nbDecoded
        omega⟩ h1
      exact due_attemptFullDecoding hadded.1 hadded.2 h2
  | repair r =>
    obtain ⟨-, ⟨rfl, -⟩ | ⟨hacc, ⟨d1, h1, -, rfl⟩ | ⟨d1, d2, r2, ha, h2⟩⟩⟩ :=
      receiveRepair_cases h
    · exact ⟨hI, hdue⟩
    · obtain ⟨hI1, hgiven, hdecoded⟩ := due_dropOutdated hI h1
      refine ⟨⟨hI1.order, contents_congr (d := d1) rfl rfl rfl rfl hI1.contents, hI1.waiting⟩, ?_⟩
      show d1.given ≤ m + d1.nbDecoded
      omega
    · have hA := ha.accepted (contains_of_accepts hacc)
      obtain ⟨hI1, hgiven, hdecoded⟩ := due_dropOutdated hI ha.drop
      have hcontents := contents_accepts (closed_naming (Before inOrder)) hI.contents hp ha
      have hsame : d2.inOrder = d1.inOrder ∧ d2.orderedSources = d1.orderedSources ∧
          d2.given = d1.given ∧ d2.nbDecoded = d1.nbDecoded := by
        rw [hA.frame]
        exact ⟨rfl, rfl, rfl, rfl⟩
      obtain ⟨hio, ho, hg, hn⟩ := hsame
      have hI2 : d2.Ahead inOrder [] := ⟨hio.trans hI1.order, hcontents, ho ▸ hI1.waiting⟩
      rcases h2 with ⟨hone, src, hc, hadd⟩ | ⟨-, hfull⟩
      · have hids := createSourceFromRepair_only hc hone
        refine (due_rule inOrder m).addSource
          (listedStored_removeDecoded (hA.listedStored hL) hA.stored hids) ⟨⟨?_, ?_⟩, ?_⟩ hadd
        · exact ⟨hI2.order, contents_removeDecoded hI2.contents, hI2.waiting⟩
        · exact (closed_naming (Before inOrder)).create (hcontents.repairs _ _ hA.stored).2 hids hc
        · show d2.given + 0 + 1 ≤ m + (d2.nbDecoded + 1)
          omega
      · exact due_attemptFullDecoding hI2 (by omega) hfull

end Netcode.Detail.Decoder
