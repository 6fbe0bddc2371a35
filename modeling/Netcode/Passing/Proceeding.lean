import Netcode.Passing.Passed
import Netcode.Integrity

/-! Sources are given at most once and right, when the decoder retains what it receives. -/
namespace Netcode.Detail.Decoder

open Containers Encodings Runs

variable {w : FieldSize} {b : Build} {g : GfComplete w}

variable {d d' : Decoder w} {src : DecoderSource} {r : DecoderRepair} {p : Incoming} {i : ℕ}

theorem once_reachable {ps : List Incoming} (h : Run (receive b g)
    (fun d p => d.rebuildsShared p = false ∧ d.reopens p = false) (initial false) ps d) :
    d.ListedStored ∧ d.OnceWhile [] :=
  h.invariant (fun d : Decoder w => d.ListedStored ∧ d.OnceWhile [])
    (fun _ _ _ hI hc hs =>
      ⟨listedStored_receive hI.1 hs, once_receive hI.1 hI.2 hc.1 hc.2 hs⟩)
    ⟨listedStored_initial false, once_initial⟩

/-- A packet names the identifier after which identifiers start again from 0. -/
def namesLast (p : Incoming) : Bool := p.ids.any fun i => decide (2 ^ 32 ≤ i + 1)

theorem bounded_of_namesLast (h : namesLast p = false) (hi : i ∈ p.ids) : i + 1 < 2 ^ 32 := by
  rw [namesLast, List.any_eq_false] at h
  have := h i hi
  rw [decide_eq_true_eq] at this
  omega

/-- What an in-order decoder that retains what it receives keeps, as long as the last identifier of
all is not named. -/
structure Proceeds (d : Decoder w) : Prop where
  inSequence : d.InSequence
  balanced : d.Balanced
  fresh : ∀ i, d.missingSources.contains i = true → d.outdated i = false
  naming : Naming (fun i => i + 1 < 2 ^ 32) d []
  passed : d.Passed []

theorem Proceeds.frontier (hI : d.Proceeds) : d.Frontier := by
  intro i hi
  by_contra hlt
  rcases hI.passed.before i (not_le.mp hlt) with (ho | hs) | ⟨x, hx, -⟩
  · rw [hI.fresh i hi] at ho
    cases ho
  · rw [hI.inSequence.linked.disjoint i hi] at hs
    cases hs
  · exact absurd hx List.not_mem_nil

theorem firstId_lt (hr : ∀ i ∈ r.sourceIds, i < n) (hn : 0 < n) : firstId r < n := by
  rw [firstId]
  cases hids : r.sourceIds.toList with
  | nil => exact hn
  | cons i l => exact hr i (FlatSet.mem_iff.mpr (hids ▸ List.mem_cons_self))

/-- The source of the greatest identifier is lacking. -/
theorem Proceeds.bounded (hI : d.Proceeds) (hlast : namesLast p = false) : d.mayWrap p = false := by
  have hlacks : ∀ (f : ℕ) (ids : List ℕ), f < 2 ^ 32 → (∀ i ∈ ids, i + 1 < 2 ^ 32) →
      d.spans f ids = false := by
    intro f ids hf hids
    refine spans_eq_false.mpr ⟨2 ^ 32 - 1, Nat.le_sub_one_of_lt hf, by decide, ?_, ?_, fun hi => ?_⟩
    · rw [← Bool.not_eq_true]
      intro hs
      obtain ⟨src, hsrc⟩ := OrdMap.contains_iff.mp hs
      obtain ⟨hid, hlt⟩ := hI.naming.sources _ _ hsrc
      omega
    · rw [← Bool.not_eq_true]
      intro hm
      have := hI.naming.missing _ hm
      omega
    · have := hids _ hi
      omega
  have hids : ∀ i ∈ p.ids, i + 1 < 2 ^ 32 := fun i hi => bounded_of_namesLast hlast hi
  cases p with
  | source src =>
    rw [mayWrap, hlacks _ [src.id] hI.inSequence.first hids, Bool.and_false]
  | repair r =>
    have hfirst : firstId r < 2 ^ 32 :=
      firstId_lt (fun i hi => Nat.lt_of_succ_lt (hids i hi)) (Nat.two_pow_pos 32)
    rw [mayWrap, hlacks _ r.sourceIds.toList (max_lt hI.inSequence.first hfirst) hids,
      Bool.and_false]

theorem Proceeds.keeps (hI : d.Proceeds) (hr : d.Retains g p) (hlast : namesLast p = false) :
    d.KeepsSequence g p :=
  ⟨hr.unshared, not_rewinds hI.frontier (not_namesPassed hI.passed (not_retreats hr.remembers)),
    hI.bounded hlast⟩

theorem proceeds_receive (hI : d.Proceeds) (hr : d.Retains g p) (hlast : namesLast p = false)
    (h : d.receive b g p = .ok d') : d'.Proceeds := by
  have hL := hI.balanced.linked.listed
  have hids : ∀ i ∈ p.ids, i + 1 < 2 ^ 32 := fun i hi => bounded_of_namesLast hlast hi
  have hcontents := hI.naming.mono (fun _ _ => trivial) (fun _ _ => trivial) fun _ _ => trivial
  exact ⟨sequenced_receive hL hI.inSequence (fun i hi => Nat.lt_of_succ_lt (hids i hi))
      (hI.keeps hr hlast) h, balanced_receive hI.balanced (balances_of_retains hr) h,
    fresh_receive hI.balanced hcontents hI.fresh hr h, naming_receive hL hI.naming hids h,
    passed_receive hL hI.passed hI.inSequence.sequenced.inOrder (not_retreats hr.remembers) h⟩

theorem proceeds_initial : (initial true : Decoder w).Proceeds :=
  ⟨inSequence_initial, balanced_initial true, fun _ hi => (by cases hi), contents_initial true,
    passed_initial true⟩

/-- Out of order, a decoder that retains what it receives gives each source at most once; in order,
it gives them in increasing order. -/
theorem delivered_of_retains {ps : List Incoming} {inOrder : Bool}
    (hids : ∀ p ∈ ps, namesLast p = false)
    (h : Run (receive b g) (fun d p => d.Retains g p) (initial inOrder) ps d) :
    d.delivered.Nodup ∧ (inOrder = true → d.delivered.Pairwise (· < ·)) := by
  cases inOrder with
  | false =>
    have hsteps : Run (receive b g) (fun d p => d.rebuildsShared p = false ∧ d.reopens p = false)
        (initial false) ps d :=
      h.mono fun d p hr => ⟨hr.unshared, not_reopens (not_retreats hr.remembers)⟩
    exact ⟨(once_reachable hsteps).2.nodup, fun h => by cases h⟩
  | true =>
    have hrun := h.of_forall (D := fun (d : Decoder w) p => d.Retains g p ∧ namesLast p = false)
      fun p hp _ hr => ⟨hr, hids p hp⟩
    have hI := hrun.invariant Proceeds (fun _ _ _ hI hc hs => proceeds_receive hI hc.1 hc.2 hs)
      proceeds_initial
    have hsorted := hI.inSequence.sequenced.sorted
    exact ⟨hsorted.imp ne_of_lt, fun _ => hsorted⟩

/-- What a decoder holds and gives is what was committed, if what it retains carries it. -/
theorem faithful_carried {D : List (List Byte)} {ps : List Incoming} {inOrder : Bool}
    (hw : w ≠ .w32) (hD : ∀ x ∈ D, Sendable w x)
    (hcarry : ∀ p ∈ ps, Carries (DecoderSource.Intact (Encoder.dataOf D))
      (DecoderRepair.Right g (Encoder.dataOf D)) p)
    (h : Run (receive b g) (fun d p => d.Retains g p) (initial inOrder) ps d) :
    d.Faithful g (Encoder.dataOf D) := by
  have hsend : ∀ i x, Encoder.dataOf D i = some x → Sendable w x :=
    fun i x hx => hD x (List.mem_of_getElem? hx)
  have hrun := h.of_forall (D := fun (d : Decoder w) p => d.Retains g p ∧
    Carries (DecoderSource.Intact (Encoder.dataOf D)) (DecoderRepair.Right g (Encoder.dataOf D)) p)
    fun p hp _ hr => ⟨hr, hcarry p hp⟩
  refine (hrun.invariant (fun u => u.Linked ∧ u.Faithful g (Encoder.dataOf D)) ?_
    ⟨linked_initial inOrder, contents_initial inOrder⟩).2
  rintro u p v ⟨hlinked, hI⟩ ⟨hr, hp⟩ hs
  exact ⟨(linked_receive_iff hlinked hs).mpr hr.unshared,
    faithful_receive hw hsend hlinked hI hp hs⟩

end Netcode.Detail.Decoder
