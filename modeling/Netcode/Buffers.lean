import Netcode.Library.Simulation
import Netcode.Sound

/-! A packet is not copied: its symbol stays in the buffer it was received in. What this buffer holds
after the packet changes nothing but what follows the symbols. -/
namespace Netcode

open Containers Encodings Runs Simulation

variable {w : FieldSize} {b : Build} {g : GfComplete w}

/-- The same source, whose symbol is in a longer buffer. -/
inductive DecoderSource.Within : DecoderSource → DecoderSource → Prop
  | mk {src : DecoderSource} (tail : List Byte) (h : src.symbolSize ≤ src.symbol.length) :
      src.Within { src with symbol := src.symbol ++ tail }

/-- The same repair, whose symbol is in a longer buffer. -/
inductive DecoderRepair.Within : DecoderRepair → DecoderRepair → Prop
  | mk (r : DecoderRepair) (tail : List Byte) : r.Within { r with symbol := r.symbol ++ tail }

namespace Detail

inductive Callback.Within : Callback → Callback → Prop
  | mk {src src' : DecoderSource} (known waiting : List ℕ) (h : src.Within src') :
      Callback.Within ⟨src, known, waiting⟩ ⟨src', known, waiting⟩

inductive Incoming.Within : Incoming → Incoming → Prop
  | source {src src' : DecoderSource} (h : src.Within src') :
      Incoming.Within (.source src) (.source src')
  | repair {r r' : DecoderRepair} (h : r.Within r') : Incoming.Within (.repair r) (.repair r')

/-- The same state, whose symbols are in longer buffers. -/
inductive Decoder.Within : Decoder w → Decoder w → Prop
  | mk {d : Decoder w} {repairs : OrdMap ℕ DecoderRepair} {sources : OrdMap ℕ DecoderSource}
      {callbacks : List Callback} (hr : MapRel DecoderRepair.Within d.repairs repairs)
      (hs : MapRel DecoderSource.Within d.sources sources)
      (hc : List.Forall₂ Callback.Within d.callbacks callbacks) :
      d.Within { d with repairs := repairs, sources := sources, callbacks := callbacks }

end Detail

section Regions

variable {src dst s t u : List Byte} {len n : ℕ} {c : BitVec w.bits}

/-- A region is read in a longer buffer as in its own. -/
theorem multiply_within (h : multiply g src dst len c = .ok s) (t : List Byte) :
    multiply g (src ++ t) dst len c = .ok s := by
  obtain ⟨hw, hsrc, hdst, rfl⟩ := multiply_ok_iff.mp h
  refine multiply_ok_iff.mpr ⟨hw, by rw [List.length_append]; omega, hdst, ?_⟩
  rw [List.take_append_of_le_length hsrc]

/-- What follows both regions stays. -/
theorem multiplyAdd_within (h : multiplyAdd g src dst len c = .ok s) (t u : List Byte) :
    multiplyAdd g (src ++ t) (dst ++ u) len c = .ok (s ++ u) := by
  obtain ⟨hw, hsrc, hdst, rfl⟩ := multiplyAdd_ok_iff.mp h
  refine multiplyAdd_ok_iff.mpr ⟨hw, by rw [List.length_append]; omega,
    by rw [List.length_append]; omega, ?_⟩
  rw [List.take_append_of_le_length hsrc, List.take_append_of_le_length hdst,
    List.drop_append_of_le_length hdst, List.append_assoc]

end Regions

namespace DecoderSource

variable {src src' : DecoderSource}

theorem within_refl (h : src.symbolSize ≤ src.symbol.length) : src.Within src := by
  have hsrc := Within.mk [] h
  rwa [List.append_nil] at hsrc

theorem Within.id (h : src.Within src') : src'.id = src.id := by
  obtain ⟨tail, -⟩ := h
  rfl

/-- The symbol is the same. -/
theorem Within.symbol (h : src.Within src') :
    src'.symbol.take src'.symbolSize = src.symbol.take src.symbolSize := by
  obtain ⟨tail, h⟩ := h
  exact List.take_append_of_le_length h

end DecoderSource

theorem DecoderRepair.Within.sourceIds {r r' : DecoderRepair} (h : r.Within r') :
    r'.sourceIds = r.sourceIds := by
  obtain ⟨tail⟩ := h
  rfl

namespace Detail.Decoder

variable {d d' : Decoder w} {src src' : DecoderSource} {r r' : DecoderRepair} {k id : ℕ}

/-- What does not depend on the symbols is the same. -/
structure SameRest (d d' : Decoder w) : Prop where
  inOrder : d'.inOrder = d.inOrder
  firstMissing : d'.firstMissingSourceInOrder = d.firstMissingSourceInOrder
  orderedSources : d'.orderedSources = d.orderedSources
  missingSources : d'.missingSources = d.missingSources
  coefficients : d'.coefficients = d.coefficients
  inv : d'.inv = d.inv

namespace Within

theorem repairs (h : d.Within d') : MapRel DecoderRepair.Within d.repairs d'.repairs := by
  obtain ⟨hr, -, -⟩ := h
  exact hr

theorem sources (h : d.Within d') : MapRel DecoderSource.Within d.sources d'.sources := by
  obtain ⟨-, hs, -⟩ := h
  exact hs

theorem callbacks (h : d.Within d') : List.Forall₂ Callback.Within d.callbacks d'.callbacks := by
  obtain ⟨-, -, hc⟩ := h
  exact hc

theorem rest (h : d.Within d') : d.SameRest d' := by
  obtain ⟨-, -, -⟩ := h
  exact ⟨rfl, rfl, rfl, rfl, rfl, rfl⟩

theorem outdated (h : d.Within d') (id : ℕ) : d'.outdated id = d.outdated id := by
  obtain ⟨-, -, -⟩ := h
  rfl

end Within

theorem within_callback (h : d.Within d') (hsrc : src.Within src') :
    (d.callback src).Within (d'.callback src') := by
  obtain ⟨hr, hs, hc⟩ := h
  refine ⟨hr, hs, List.rel_append hc (.cons ?_ .nil)⟩
  dsimp only
  rw [hs.keys]
  exact .mk _ _ hsrc

theorem within_callbackOrdered (h : d.Within d') (cit : ℕ) :
    Simulates Within (d.callbackOrdered cit) (d'.callbackOrdered cit) := by
  rw [callbackOrdered, callbackOrdered]
  rcases h.sources.find? cit with ⟨hk, -⟩ | ⟨src, src', hk, hk', hsrc⟩
  · rw [hk]
    exact simulates_error _ _
  · rw [hk, hk']
    exact simulates_ok (within_callback h hsrc)

theorem within_advance (h : d.Within d') : d.advance.Within d'.advance := by
  obtain ⟨hr, hs, hc⟩ := h
  exact ⟨hr, hs, hc⟩

theorem within_sweep (h : d.Within d') (cit : ℕ) :
    Simulates Within (d.sweep cit) (d'.sweep cit) := by
  rw [sweep, sweep]
  refine (within_callbackOrdered h cit).bind fun u u' hu => simulates_ok ?_
  obtain ⟨hr, hs, hc⟩ := hu
  exact ⟨hr, hs, hc⟩

theorem within_flushLoop (h : d.Within d') (fuel cit : ℕ) :
    Simulates Within (flushLoop b fuel cit d) (flushLoop b fuel cit d') := by
  induction fuel generalizing cit d d' with
  | zero => exact simulates_error _ _
  | succ fuel ih =>
    rw [flushLoop, flushLoop, h.rest.firstMissing, h.rest.orderedSources]
    refine simulates_bind fun _ => (within_sweep h cit).bind fun u u' hu => ?_
    have hnext := within_advance hu
    cases d.orderedSources.next? cit with
    | none => exact simulates_ok hnext
    | some cit =>
      dsimp only
      rw [hnext.rest.firstMissing]
      split
      · exact simulates_ok hnext
      · exact ih hnext cit

theorem within_flush (h : d.Within d') :
    Simulates Within (d.flushOrderedSources b) (d'.flushOrderedSources b) := by
  rw [flushOrderedSources, flushOrderedSources, h.rest.firstMissing, h.rest.orderedSources]
  split
  · exact within_flushLoop h _ _
  · exact simulates_ok h

theorem within_offer (h : d.Within d') (hsrc : src.Within src') :
    Simulates Within (d.offer b src) (d'.offer b src') := by
  have hcallback := within_callback h hsrc
  rw [offer, offer, h.rest.inOrder, h.rest.firstMissing, hsrc.id]
  split
  · exact simulates_ok hcallback
  · split
    · exact within_flush (within_advance hcallback)
    · exact simulates_ok h

theorem within_removeData (hsrc : src.Within src') (hr : r.Within r') :
    Simulates DecoderRepair.Within (removeSourceDataFromRepair b g src r)
      (removeSourceDataFromRepair b g src' r') := by
  obtain ⟨t, -⟩ := hsrc
  obtain ⟨u⟩ := hr
  rw [removeSourceDataFromRepair, removeSourceDataFromRepair]
  refine simulates_bind fun _ => simulates_bind fun _ => simulates_bind fun _ => ?_
  intro r' h
  obtain ⟨s, hs, hr'⟩ := bind_ok_iff.mp h
  cases hr'
  exact ⟨_, by rw [multiplyAdd_within hs t u, ok_bind], .mk _ u⟩

theorem within_remove (hsrc : src.Within src') (hr : r.Within r') :
    Simulates DecoderRepair.Within (removeSourceFromRepair b g src r)
      (removeSourceFromRepair b g src' r') := by
  rw [removeSourceFromRepair, removeSourceFromRepair]
  refine (within_removeData hsrc hr).bind fun u u' hu => ?_
  obtain ⟨t, -⟩ := hsrc
  obtain ⟨t⟩ := hu
  refine simulates_bind fun _ => ?_
  dsimp only
  split
  · exact simulates_ok (.mk _ t)
  · exact simulates_error _ _

/-- A repair replaces another one. -/
theorem within_insertRepair (h : d.Within d') (hr : r.Within r') (rCit : ℕ) :
    Within { d with repairs := d.repairs.insert rCit r }
      { d' with repairs := d'.repairs.insert rCit r' } := by
  obtain ⟨hrs, hs, hc⟩ := h
  exact ⟨hrs.insert rCit hr, hs, hc⟩

theorem within_setMissing (h : d.Within d') (m : OrdMap ℕ (FlatSet ℕ)) :
    Within { d with missingSources := m } { d' with missingSources := m } := by
  obtain ⟨hr, hs, hc⟩ := h
  exact ⟨hr, hs, hc⟩

theorem within_stripRepair (h : d.Within d') (hsrc : src.Within src') (rCit : ℕ) :
    Simulates Within (stripRepair b g src d rCit) (stripRepair b g src' d' rCit) := by
  rw [stripRepair, stripRepair]
  rcases h.repairs.find? rCit with ⟨hk, -⟩ | ⟨r, r', hk, hk', hr⟩
  · rw [hk]
    exact simulates_error _ _
  · rw [hk, hk']
    exact (within_remove hsrc hr).bind fun u u' hu => simulates_ok (within_insertRepair h hu rCit)

theorem within_strip (h : d.Within d') (hsrc : src.Within src') :
    Simulates Within (d.stripFromRepairs b g src) (d'.stripFromRepairs b g src') := by
  rw [stripFromRepairs, stripFromRepairs, h.rest.missingSources, hsrc.id]
  cases d.missingSources.find? src.id with
  | none => exact simulates_ok h
  | some cits =>
    refine (simulates_foldlM_same _ h fun cit u u' hu => within_stripRepair hu hsrc cit).bind
      fun u u' hu => simulates_ok ?_
    rw [hu.rest.missingSources]
    exact within_setMissing hu _

/-- The same source is decoded, in a buffer of its own. -/
theorem within_createSource (hr : r.Within r') : Simulates DecoderSource.Within
    (createSourceFromRepair b g r) (createSourceFromRepair b g r') := by
  have hsame : Simulates Eq (createSourceFromRepair b g r) (createSourceFromRepair b g r') := by
    obtain ⟨t⟩ := hr
    rw [createSourceFromRepair, createSourceFromRepair]
    refine simulates_bind fun _ => ?_
    dsimp only
    cases r.sourceIds.toList with
    | nil => exact simulates_error _ _
    | cons srcId _ =>
      refine simulates_bind fun inv => simulates_bind fun _ => ?_
      intro src h
      obtain ⟨s, hs, hsrc⟩ := bind_ok_iff.mp h
      exact ⟨src, by rw [multiply_within hs t, ok_bind, hsrc], rfl⟩
  intro src h
  obtain ⟨_, h', rfl⟩ := hsame src h
  exact ⟨src, h', DecoderSource.within_refl (createSourceFromRepair_stored h)⟩

/-- The same repair is found, or none is. -/
inductive FoundWithin : Option (ℕ × DecoderRepair) → Option (ℕ × DecoderRepair) → Prop
  | none : FoundWithin none none
  | some (rCit : ℕ) {r r' : DecoderRepair} (h : r.Within r') :
      FoundWithin (some (rCit, r)) (some (rCit, r'))

theorem within_onlyRepair (h : d.Within d') (cits : FlatSet ℕ) :
    Simulates FoundWithin (d.onlyRepair cits) (d'.onlyRepair cits) := by
  rw [onlyRepair, onlyRepair]
  split
  · next rCit _ =>
    rcases h.repairs.find? rCit with ⟨hk, -⟩ | ⟨r, r', hk, hk', hr⟩
    · rw [hk]
      exact simulates_error _ _
    · rw [hk, hk']
      exact simulates_ok (.some rCit hr)
  · exact simulates_ok .none

theorem within_removeDecoded (h : d.Within d') (missCit rCit : ℕ) :
    (d.removeDecoded missCit rCit).Within (d'.removeDecoded missCit rCit) := by
  obtain ⟨hr, hs, hc⟩ := h
  exact ⟨hr.erase rCit, hs, hc⟩

theorem within_decodeMissing (h : d.Within d') (hr : r.Within r') (missCit rCit : ℕ) :
    Simulates (fun p p' => p.1.Within p'.1 ∧ p.2.Within p'.2)
      (d.decodeMissing b g missCit rCit r) (d'.decodeMissing b g missCit rCit r') := by
  rw [decodeMissing, decodeMissing, hr.sourceIds]
  cases r.sourceIds.toList with
  | nil => exact simulates_error _ _
  | cons id _ =>
    dsimp only
    rw [h.outdated, h.sources.contains]
    refine simulates_bind fun _ => simulates_bind fun _ => ?_
    exact (within_createSource hr).bind fun src src' hsrc =>
      simulates_ok ⟨hsrc, within_removeDecoded h missCit rCit⟩

section Recursion

variable {f f' : DecoderSource → Decoder w → Except Fault (Decoder w)}

theorem within_cascade (h : d.Within d')
    (hf : ∀ src src' u u', src.Within src' → u.Within u' → Simulates Within (f src u) (f' src' u'))
    (fuel : ℕ) (cit : Option ℕ) :
    Simulates Within (d.cascade b g f fuel cit) (d'.cascade b g f' fuel cit) := by
  induction fuel generalizing cit d d' with
  | zero =>
    cases cit with
    | none => exact simulates_ok h
    | some missCit => exact simulates_error _ _
  | succ fuel ih =>
    cases cit with
    | none => exact simulates_ok h
    | some missCit =>
      rw [cascade, cascade, h.rest.missingSources]
      cases d.missingSources.find? missCit with
      | none => exact simulates_error _ _
      | some cits =>
        refine (within_onlyRepair h cits).bind fun o o' ho => ?_
        obtain _ | ⟨rCit, hr⟩ := ho
        · exact ih h _
        · have hids := hr
          obtain ⟨t⟩ := hids
          dsimp only
          split
          · refine (within_decodeMissing h hr missCit rCit).bind fun p p' hp => ?_
            exact (hf _ _ _ _ hp.1 hp.2).bind fun u u' hu => ih hu _
          · exact ih h _

end Recursion

/-- An identifier waits for older ones. -/
theorem within_wait (h : d.Within d') (id : ℕ) : Simulates Within
    (if d.inOrder ∧ d.firstMissingSourceInOrder < id then
      .ok { d with orderedSources := d.orderedSources.insert id } else .ok d : Except Fault (Decoder w))
    (if d'.inOrder ∧ d'.firstMissingSourceInOrder < id then
      .ok { d' with orderedSources := d'.orderedSources.insert id } else .ok d' :
        Except Fault (Decoder w)) := by
  obtain ⟨hr, hs, hc⟩ := h
  dsimp only
  split
  · exact simulates_ok ⟨hr, hs, hc⟩
  · exact simulates_ok ⟨hr, hs, hc⟩

theorem within_store (h : d.Within d') (hsrc : src.Within src') :
    Simulates Within (d.store b src) (d'.store b src') := by
  have hinserted : Within { d with sources := d.sources.insert src.id src }
      { d' with sources := d'.sources.insert src.id src' } := by
    obtain ⟨hr, hs, hc⟩ := h
    exact ⟨hr, hs.insert _ hsrc, hc⟩
  rw [store, store, hsrc.id, h.sources.contains]
  refine simulates_bind fun _ => ?_
  cases d.sources.contains src.id with
  | true => exact within_wait h src.id
  | false => exact within_wait hinserted src.id

theorem within_addSource (h : d.Within d') (hsrc : src.Within src') (depth : ℕ) :
    Simulates Within (addSource b g depth src d) (addSource b g depth src' d') := by
  induction depth generalizing d d' src src' with
  | zero => exact simulates_error _ _
  | succ depth ih =>
    rw [addSource, addSource]
    refine (within_offer h hsrc).bind fun d1 d1' h1 => ?_
    refine (within_strip h1 hsrc).bind fun d2 d2' h2 => ?_
    rw [h2.rest.missingSources]
    refine (within_cascade h2 (fun _ _ _ _ hs hu => ih hu hs) _ _).bind fun d3 d3' h3 => ?_
    exact within_store h3 hsrc

theorem within_addSourceRecursive (h : d.Within d') (hsrc : src.Within src') :
    Simulates Within (d.addSourceRecursive b g src) (d'.addSourceRecursive b g src') := by
  rw [addSourceRecursive, addSourceRecursive, h.repairs.size]
  exact within_addSource h hsrc _

end Detail.Decoder

end Netcode
