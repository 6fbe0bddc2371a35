import Netcode.Buffers

/-! A decoder drops, decodes and receives the same when the symbols are in longer buffers. -/
namespace Netcode.Detail.Decoder

open Containers Encodings Runs Simulation

variable {w : FieldSize} {b : Build} {g : GfComplete w} {d d' : Decoder w} {src src' : DecoderSource}
  {r r' : DecoderRepair}

theorem within_unlink (h : d.Within d') (rCit id : ℕ) :
    Simulates Within (unlink rCit d id) (unlink rCit d' id) := by
  rw [unlink, unlink, h.rest.missingSources]
  cases d.missingSources.find? id with
  | none => exact simulates_error _ _
  | some cits => exact simulates_ok (within_setMissing h _)

theorem within_dropRepair (h : d.Within d') {e e' : ℕ × DecoderRepair}
    (he : EntryRel DecoderRepair.Within e e') (id : ℕ) :
    Simulates Within (dropRepair b id d e) (dropRepair b id d' e') := by
  obtain ⟨k, r⟩ := e
  obtain ⟨k', r'⟩ := e'
  obtain ⟨hk, hr⟩ := he
  obtain rfl : k = k' := hk
  obtain ⟨t⟩ := hr
  rw [dropRepair, dropRepair]
  refine simulates_bind fun _ => ?_
  dsimp only
  cases r.sourceIds.toList with
  | nil => exact simulates_error _ _
  | cons first rest =>
    dsimp only
    split
    · refine (simulates_foldlM_same _ h fun srcId u u' hu => within_unlink hu k srcId).bind
        fun u u' hu => simulates_ok ?_
      obtain ⟨hr, hs, hc⟩ := hu
      exact ⟨hr.erase k, hs, hc⟩
    · exact simulates_ok h

theorem within_dropOrdered (h : d.Within d') (id : ℕ) :
    Simulates Within (d.dropOrdered b id) (d'.dropOrdered b id) := by
  rw [dropOrdered, dropOrdered, h.rest.inOrder, h.rest.orderedSources]
  split
  · refine (simulates_foldlM_same _ h fun cit u u' hu => within_sweep hu cit).bind
      fun u u' hu => within_flush ?_
    rw [hu.rest.firstMissing]
    obtain ⟨hr, hs, hc⟩ := hu
    exact ⟨hr, hs, hc⟩
  · exact simulates_ok h

theorem within_dropOutdated (h : d.Within d') (id : ℕ) :
    Simulates Within (d.dropOutdated b id) (d'.dropOutdated b id) := by
  have hlast : Within { d with lastId := some id } { d' with lastId := some id } := by
    obtain ⟨hr, hs, hc⟩ := h
    exact ⟨hr, hs, hc⟩
  rw [dropOutdated, dropOutdated]
  refine (simulates_foldlM h.repairs hlast fun e e' he u u' hu => within_dropRepair hu he id).bind
    fun d1 d1' h1 => (within_dropOrdered h1 id).bind fun d2 d2' h2 => simulates_ok ?_
  obtain ⟨hr, hs, hc⟩ := h2
  exact ⟨hr, hs.eraseBelow id, hc⟩

theorem within_fillCoefficients (h : d.Within d') :
    Simulates Eq d.fillCoefficients d'.fillCoefficients := by
  rw [fillCoefficients, fillCoefficients, h.rest.missingSources, h.rest.coefficients, h.repairs.size]
  refine simulates_foldlM (forall₂_zipIdx h.repairs 0) rfl fun e e' he m m' hm => ?_
  obtain ⟨⟨k, r⟩, col⟩ := e
  obtain ⟨⟨k', r'⟩, col'⟩ := e'
  obtain ⟨⟨hk, hr⟩, hcol⟩ := he
  obtain rfl : k = k' := hk
  obtain rfl : col = col' := hcol
  obtain ⟨t⟩ := hr
  rw [← hm]
  exact simulates_same _

theorem within_dropFaulty (h : d.Within d') (rCol : ℕ) :
    Simulates Within (d.dropFaulty rCol) (d'.dropFaulty rCol) := by
  rw [dropFaulty, dropFaulty, h.rest.missingSources]
  rcases forall₂_getElem? h.repairs rCol with ⟨hk, -⟩ | ⟨e, e', hk, hk', he⟩
  · rw [hk]
    exact simulates_error _ _
  · obtain ⟨k, r⟩ := e
    obtain ⟨k', r'⟩ := e'
    obtain ⟨hkey, hr⟩ := he
    obtain rfl : k = k' := hkey
    obtain ⟨t⟩ := hr
    rw [hk, hk']
    refine simulates_ok ?_
    obtain ⟨hr, hs, hc⟩ := h
    exact ⟨hr.erase k, hs, hc⟩

/-- Repairs with their coefficients. -/
abbrev RowsWithin (rows rows' : List (BitVec w.bits × DecoderRepair)) : Prop :=
  List.Forall₂ (EntryRel DecoderRepair.Within) rows rows'

variable {rows rows' : List (BitVec w.bits × DecoderRepair)}

theorem decodeSize_within (h : RowsWithin rows rows') :
    decodeSize g rows' = decodeSize g rows := by
  have hfold : ∀ z, rows'.foldl (fun res row => if row.1 = 0#w.bits then res else
      multiplySize g row.2.encodedSize row.1 ^^^ res) z = rows.foldl (fun res row =>
        if row.1 = 0#w.bits then res else multiplySize g row.2.encodedSize row.1 ^^^ res) z := by
    induction h with
    | nil => exact fun z => rfl
    | @cons row row' _ _ he _ ih =>
      intro z
      obtain ⟨c, r⟩ := row
      obtain ⟨c', r'⟩ := row'
      obtain ⟨hc, ⟨t⟩⟩ := he
      obtain rfl : c = c' := hc
      rw [List.foldl_cons, List.foldl_cons, ih]
  exact hfold 0#16

theorem within_decodeSymbol (h : RowsWithin rows rows') (srcSz : ℕ) :
    Simulates (fun s s' => s = s' ∧ s.length = srcSz + 9) (decodeSymbol b g srcSz rows)
      (decodeSymbol b g srcSz rows') := by
  suffices hsame : Simulates Eq (decodeSymbol b g srcSz rows) (decodeSymbol b g srcSz rows') by
    intro s hs
    obtain ⟨s', hs', heq⟩ := hsame s hs
    exact ⟨s', hs', heq, length_decodeSymbol hs⟩
  have hdrop := forall₂_dropWhile (p := fun c => decide (c = 0#w.bits)) h
  rw [decodeSymbol, decodeSymbol]
  revert hdrop
  generalize rows.dropWhile (fun row => decide (row.1 = 0#w.bits)) = first
  generalize rows'.dropWhile (fun row => decide (row.1 = 0#w.bits)) = first'
  intro hdrop
  cases hdrop with
  | nil => exact simulates_bind fun _ => simulates_error _ _
  | @cons row row' _ _ he hrest =>
    obtain ⟨c, r⟩ := row
    obtain ⟨c', r'⟩ := row'
    obtain ⟨hc, ⟨t⟩⟩ := he
    obtain rfl : c = c' := hc
    refine Simulates.bind (R := Eq) ?_ fun symbol symbol' hsymbol => ?_
    · exact fun s hs => ⟨s, multiply_within hs t, rfl⟩
    · refine simulates_foldlM hrest hsymbol fun row row' he s s' hs => ?_
      obtain ⟨c, r⟩ := row
      obtain ⟨c', r'⟩ := row'
      obtain ⟨hc, ⟨t⟩⟩ := he
      obtain rfl : c = c' := hc
      rw [← hs]
      dsimp only
      split
      · exact simulates_same _
      · intro s1 hs1
        have hadd := multiplyAdd_within hs1 t []
        rw [List.append_nil, List.append_nil] at hadd
        exact ⟨s1, hadd, rfl⟩

theorem within_decodingRows (h : d.Within d') {index index' : List DecoderRepair}
    (hi : List.Forall₂ DecoderRepair.Within index index') (srcCol : ℕ) :
    Simulates RowsWithin (d.decodingRows index srcCol) (d'.decodingRows index' srcCol) := by
  rw [decodingRows, decodingRows, h.rest.inv]
  exact simulates_bind fun coeffs => simulates_ok (forall₂_zip coeffs hi)

/-- A decoded source is given to the callback, or waits for older ones. -/
theorem within_give (h : d.Within d') (hsrc : src.Within src') (id : ℕ) : Simulates Within
    (if !d.inOrder then .ok (d.callback src)
      else if id = d.firstMissingSourceInOrder then flushOrderedSources b (d.callback src).advance
      else .ok { d with orderedSources := d.orderedSources.insert id })
    (if !d'.inOrder then .ok (d'.callback src')
      else if id = d'.firstMissingSourceInOrder then flushOrderedSources b (d'.callback src').advance
      else .ok { d' with orderedSources := d'.orderedSources.insert id }) := by
  have hcallback := within_callback h hsrc
  obtain ⟨hr, hs, hc⟩ := h
  dsimp only
  split
  · exact simulates_ok hcallback
  · split
    · exact within_flush (within_advance hcallback)
    · exact simulates_ok ⟨hr, hs, hc⟩

theorem within_insertDecoded (h : d.Within d') (hsrc : src.Within src) :
    Simulates Within (d.insertDecoded b src) (d'.insertDecoded b src) := by
  have hinserted : ((d.sources.find? src.id).getD src).Within
      ((d'.sources.find? src.id).getD src) := by
    rcases h.sources.find? src.id with ⟨hk, hk'⟩ | ⟨u, u', hk, hk', hu⟩
    · rw [hk, hk']
      exact hsrc
    · rw [hk, hk']
      exact hu
  have hstored : Within
      { d with sources := d.sources.insert src.id ((d.sources.find? src.id).getD src) }
      { d' with sources := d'.sources.insert src.id ((d'.sources.find? src.id).getD src) } := by
    obtain ⟨hr, hs, hc⟩ := h
    exact ⟨hr, hs.insert _ hinserted, hc⟩
  rw [insertDecoded, insertDecoded, h.sources.contains]
  exact simulates_bind fun _ => within_give hstored hinserted src.id

theorem within_decodeColumn (h : d.Within d') {index index' : List DecoderRepair}
    (hi : List.Forall₂ DecoderRepair.Within index index') (miss : ℕ × ℕ) :
    Simulates Within (decodeColumn b g index d miss) (decodeColumn b g index' d' miss) := by
  rw [decodeColumn, decodeColumn]
  refine (within_decodingRows h hi miss.2).bind fun rows rows' hrows => ?_
  dsimp only
  rw [decodeSize_within hrows]
  refine (within_decodeSymbol hrows _).bind fun symbol symbol' hsymbol => ?_
  rw [← hsymbol.1]
  exact within_insertDecoded h (DecoderSource.within_refl (by dsimp only; omega))

theorem within_decodeAll (h : d.Within d') :
    Simulates Within (d.decodeAll b g) (d'.decodeAll b g) := by
  rw [decodeAll, decodeAll, h.rest.missingSources]
  refine (simulates_foldlM_same _ h fun miss u u' hu =>
    within_decodeColumn hu h.repairs.values miss).bind fun u u' hu => simulates_ok ?_
  obtain ⟨-, hs, hc⟩ := hu
  exact ⟨mapRel_empty, hs, hc⟩

theorem within_attempt (h : d.Within d') :
    Simulates Within (d.attemptFullDecoding b g) (d'.attemptFullDecoding b g) := by
  have henough : d'.enoughRepairs = d.enoughRepairs := by
    rw [enoughRepairs, enoughRepairs, h.repairs.isEmpty, h.repairs.size, h.rest.missingSources]
  have hset : ∀ m : Matrices w, Within { d with coefficients := m.mat, inv := m.inv }
      { d' with coefficients := m.mat, inv := m.inv } := by
    obtain ⟨hr, hs, hc⟩ := h
    exact fun m => ⟨hr, hs, hc⟩
  rw [attemptFullDecoding, attemptFullDecoding, henough]
  split
  · exact simulates_ok h
  · rw [h.repairs.size, h.rest.inv, show d'.missingSources.size = d.missingSources.size by
      rw [h.rest.missingSources]]
    refine simulates_bind fun _ => simulates_bind fun _ => ?_
    refine (within_fillCoefficients h).bind fun m m' hm => ?_
    rw [← hm]
    refine simulates_bind fun p => ?_
    obtain ⟨rCol, m⟩ := p
    cases rCol with
    | some rCol => exact within_dropFaulty (hset m) rCol
    | none => exact within_decodeAll (hset m)

theorem within_receiveSource (h : d.Within d') (hsrc : src.Within src') :
    Simulates Within (d.receiveSource b g src) (d'.receiveSource b g src') := by
  rw [receiveSource, receiveSource, hsrc.id, h.outdated, h.sources.contains]
  split
  · exact simulates_ok h
  · split
    · exact simulates_ok h
    · exact (within_addSourceRecursive h hsrc).bind fun u u' hu => within_attempt hu

theorem within_link (h : d.Within d') (rCit id : ℕ) :
    Simulates Within (link b g rCit d id) (link b g rCit d' id) := by
  rw [link, link]
  rcases h.sources.find? id with ⟨hk, hk'⟩ | ⟨src, src', hk, hk', hsrc⟩
  · rw [hk, hk']
    refine simulates_ok ?_
    obtain ⟨hr, hs, hc⟩ := h
    exact ⟨hr, hs, hc⟩
  · rw [hk, hk']
    dsimp only
    rcases h.repairs.find? rCit with ⟨hk, -⟩ | ⟨r, r', hk, hk', hr⟩
    · rw [hk]
      exact simulates_error _ _
    · rw [hk, hk']
      refine (within_removeData hsrc hr).bind fun u u' hu => simulates_ok ?_
      have herase : DecoderRepair.Within { u with sourceIds := u.sourceIds.erase id }
          { u' with sourceIds := u'.sourceIds.erase id } := by
        obtain ⟨t⟩ := hu
        exact .mk _ t
      exact within_insertRepair h herase rCit

theorem within_useRepair (h : d.Within d') (rCit : ℕ) :
    Simulates Within (d.useRepair b g rCit) (d'.useRepair b g rCit) := by
  rw [useRepair, useRepair]
  rcases h.repairs.find? rCit with ⟨hk, -⟩ | ⟨r, r', hk, hk', hr⟩
  · rw [hk]
    exact simulates_error _ _
  · have hids : r'.sourceIds = r.sourceIds := by
      obtain ⟨t⟩ := hr
      rfl
    rw [hk, hk']
    dsimp only
    rw [hr.sourceIds]
    refine simulates_bind fun _ => ?_
    split
    · refine (within_createSource hr).bind fun src src' hsrc => ?_
      rw [hsrc.id]
      exact within_addSourceRecursive (within_removeDecoded h src.id rCit) hsrc
    · exact within_attempt h

theorem within_addRepair (h : d.Within d') (hr : r.Within r') :
    Simulates Within (d.addRepair b g r) (d'.addRepair b g r') := by
  have hinserted := within_insertRepair h hr r.id
  obtain ⟨t⟩ := hr
  rw [addRepair, addRepair, h.repairs.contains]
  refine simulates_bind fun _ => ?_
  exact (simulates_foldlM_same _ hinserted fun id u u' hu => within_link hu r.id id).bind
    fun u u' hu => within_useRepair hu r.id

theorem within_receiveRepair (h : d.Within d') (hr : r.Within r') :
    Simulates Within (d.receiveRepair b g r) (d'.receiveRepair b g r') := by
  have hid : r'.id = r.id := by
    obtain ⟨t⟩ := hr
    rfl
  rw [receiveRepair, receiveRepair, hr.sourceIds]
  refine simulates_bind fun _ => ?_
  cases r.sourceIds.toList with
  | nil => exact simulates_error _ _
  | cons first rest =>
    dsimp only
    rw [h.outdated, hid, h.repairs.contains]
    split
    · exact simulates_ok h
    · split
      · exact simulates_ok h
      · refine (within_dropOutdated h first).bind fun u u' hu => ?_
        have huseless : u'.useless r' = u.useless r := by
          rw [useless, useless, hr.sourceIds]
          exact congrArg _ (funext fun id => hu.sources.contains id)
        rw [huseless]
        split
        · refine simulates_ok ?_
          obtain ⟨hr, hs, hc⟩ := hu
          exact ⟨hr, hs, hc⟩
        · exact within_addRepair hu hr

/-- A decoder does the same with what is in longer buffers. -/
theorem within_receive (h : d.Within d') {p p' : Incoming} (hp : p.Within p') :
    Simulates Within (d.receive b g p) (d'.receive b g p') := by
  cases hp with
  | source hsrc => exact within_receiveSource h hsrc
  | repair hr => exact within_receiveRepair h hr

end Netcode.Detail.Decoder
