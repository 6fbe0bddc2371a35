import Netcode.Library.Containers

/-! Sets listed under keys, as the equations of a linear system list their unknowns. -/
namespace Incidence

open Containers

variable {α β K : Type*} [LinearOrder α] [LinearOrder β] {L M : OrdMap α (FlatSet β)}
  {s : FlatSet β} {k : α} {i x : β}

/-- The elements some set lists. -/
def listed (L : OrdMap α (FlatSet β)) : Finset β :=
  (L.entries.flatMap fun e => e.2.toList).toFinset

theorem mem_listed : i ∈ listed L ↔ ∃ k s, L.find? k = some s ∧ i ∈ s := by
  simp only [listed, List.mem_toFinset, List.mem_flatMap, Prod.exists, OrdMap.mem_entries_iff,
    FlatSet.mem_iff]

/-- The sets without an element. -/
def without (x : β) (L : OrdMap α (FlatSet β)) : OrdMap α (FlatSet β) := L.map fun _ s => s.erase x

theorem without_of_not_listed (h : x ∉ listed L) : without x L = L := by
  apply OrdMap.ext_find?
  intro k
  rw [without, OrdMap.find?_map]
  cases hk : L.find? k with
  | none => rfl
  | some s =>
    refine congrArg some (FlatSet.ext_mem fun i => ?_)
    rw [FlatSet.mem_erase, and_iff_left_iff_imp]
    rintro hi rfl
    exact h (mem_listed.mpr ⟨k, s, hk, hi⟩)

/-- A set has one element only, and no other set lists it. -/
def Isolated (L : OrdMap α (FlatSet β)) (k : α) (s : FlatSet β) : Prop :=
  ∃ i, s.toList = [i] ∧ ∀ j t, L.find? j = some t → i ∈ t → j = k

/-- The sets but the isolated ones. -/
def settle (L : OrdMap α (FlatSet β)) : OrdMap α (FlatSet β) :=
  L.filter fun k s => match s.toList with
    | [i] => L.entries.any fun e => decide (e.1 ≠ k ∧ i ∈ e.2)
    | _ => true

theorem find?_settle : (settle L).find? k = some s ↔ L.find? k = some s ∧ ¬ Isolated L k s := by
  rw [settle, OrdMap.find?_eq_some_filter]
  refine and_congr_right fun _ => ?_
  split
  · next i hi =>
    simp only [List.any_eq_true, decide_eq_true_eq, Prod.exists, OrdMap.mem_entries_iff, Isolated]
    constructor
    · rintro ⟨j, t, ht, hj, hit⟩ ⟨i', hi', hno⟩
      rw [hi] at hi'
      cases hi'
      exact hj (hno j t ht hit)
    · intro hno
      by_contra hall
      push Not at hall
      exact hno ⟨i, hi, fun j t ht hit => by_contra fun hj => hall j t ht hj hit⟩
  · next hmany =>
    simp only [true_iff]
    rintro ⟨i, hi, -⟩
    exact hmany i hi

/-- Some combination of the rows of coefficients vanishes. -/
def Dependent [Field K] (c : α → β → K) (L : OrdMap α (FlatSet β)) : Prop :=
  ∃ v : Fin L.size → K, v ≠ 0 ∧
    ∀ i, ∑ k, (if i ∈ L.entries[k].2 then c L.entries[k].1 i * v k else 0) = 0

/-- Without its last set, the others list as much. -/
def SparesLast (L : OrdMap α (FlatSet β)) : Prop :=
  ∀ e, L.entries.getLast? = some e → listed (L.erase e.1) = listed L

/-- If there are as many sets as elements and their rows depend on each other, the last set can be
spared. -/
def Survives [Field K] (c : α → β → K) (L : OrdMap α (FlatSet β)) : Prop :=
  L.size = (listed L).card → Dependent c L → SparesLast L

end Incidence
