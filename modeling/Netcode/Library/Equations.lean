import Netcode.Library.Combinations
import Netcode.Library.Incidence

/-! Homogeneous linear equations, each with the set of its unknowns: what solves them, and how many
of them are needed. -/
namespace Equations

open Combinations Containers Incidence

section Combinations

variable {ι K : Type} [Field K] {a v : ι → K} {s : Finset ι} {i : ι}

/-- An unknown whose value is zero may be removed. -/
theorem combination_erase_zero [DecidableEq ι] (h : v i = 0) :
    combination a (s.erase i) v = combination a s v := by
  by_cases hi : i ∈ s
  · rw [combination_erase hi, h, smul_zero, sub_zero]
  · rw [Finset.erase_eq_of_notMem hi]

/-- An equation of one unknown determines it. -/
theorem combination_singleton_eq_zero_iff (h : a i ≠ 0) : combination a {i} v = 0 ↔ v i = 0 := by
  rw [combination, Finset.sum_singleton, smul_eq_mul, mul_eq_zero, or_iff_right h]

theorem combination_eq_zero (h : ∀ i ∈ s, v i = 0) : combination a s v = 0 :=
  Finset.sum_eq_zero fun i hi => by rw [h i hi, smul_zero]

end Combinations

variable {α β K : Type} [LinearOrder α] [LinearOrder β] [Field K] {c : α → β → K}
  {L : OrdMap α (FlatSet β)} {s : FlatSet β} {v : β → K} {k : α} {x : β}

/-- Values of the unknowns for which every equation vanishes. -/
def Satisfies (c : α → β → K) (L : OrdMap α (FlatSet β)) (v : β → K) : Prop :=
  ∀ k s, L.find? k = some s → combination (c k) s.toFinset v = 0

theorem satisfies_iff_entries : Satisfies c L v ↔ ∀ k : Fin L.size,
    combination (c L.entries[k].1) L.entries[k].2.toFinset v = 0 := by
  constructor
  · exact fun h k => h _ _ (OrdMap.mem_entries_iff.mp (List.getElem_mem k.isLt))
  · intro h k s hs
    obtain ⟨j, hj, heq⟩ := List.mem_iff_getElem.mp (OrdMap.mem_entries_iff.mpr hs)
    have hzero := h ⟨j, hj⟩
    simpa only [Fin.getElem_fin, heq] using hzero

/-- The coefficients of the equations, for the unknowns they list. -/
def coefficients (c : α → β → K) (L : OrdMap α (FlatSet β)) : Matrix (Fin L.size) (listed L) K :=
  Matrix.of fun k i => if i.1 ∈ L.entries[k].2.toFinset then c L.entries[k].1 i.1 else 0

theorem mulVec_coefficients (u : listed L → K) (hv : ∀ i : listed L, v i = u i) (k : Fin L.size) :
    (coefficients c L).mulVec u k =
      combination (c L.entries[k].1) L.entries[k].2.toFinset v := by
  have hsub : L.entries[k].2.toFinset ⊆ listed L := by
    intro i hi
    exact mem_listed.mpr ⟨_, _, OrdMap.mem_entries_iff.mp (List.getElem_mem k.isLt),
      FlatSet.mem_toFinset.mp hi⟩
  rw [combination_eq_sum hsub, ← Finset.sum_coe_sort, Matrix.mulVec, dotProduct]
  exact Finset.sum_congr rfl fun i _ => by rw [hv i]; rfl

/-- Values of the unknowns some equation lists, the other ones being zero. -/
def extend (L : OrdMap α (FlatSet β)) (u : listed L → K) (i : β) : K :=
  if h : i ∈ listed L then u ⟨i, h⟩ else 0

/-- Fewer equations than unknowns leave some unknown free. -/
theorem exists_satisfies_of_lt (c : α → β → K) (h : L.size < (listed L).card) :
    ∃ v, Satisfies c L v ∧ (∃ i ∈ listed L, v i ≠ 0) ∧ ∀ i ∉ listed L, v i = 0 := by
  have hker : LinearMap.ker (coefficients c L).mulVecLin ≠ ⊥ := by
    apply LinearMap.ker_ne_bot_of_finrank_lt
    simpa using h
  obtain ⟨u, hu, hne⟩ := (Submodule.ne_bot_iff _).mp hker
  obtain ⟨i, hi⟩ := Function.ne_iff.mp hne
  have hv : ∀ i : listed L, extend L u i.1 = u i := fun i => dif_pos i.2
  refine ⟨extend L u, satisfies_iff_entries.mpr fun k => ?_, ⟨i.1, i.2, (hv i).trans_ne hi⟩,
    fun j hj => dif_neg hj⟩
  rw [← mulVec_coefficients u hv k]
  exact congrFun (LinearMap.mem_ker.mp hu) k

/-- The equations cancel with these factors. -/
def Cancels (c : α → β → K) (L : OrdMap α (FlatSet β)) (u : Fin L.size → K) : Prop :=
  ∀ i, ∑ k, (if i ∈ L.entries[k].2 then c L.entries[k].1 i * u k else 0) = 0

/-- If there are as many equations as unknowns and they depend on each other, they cancel with a
factor for the last one. -/
def SparesEquation (c : α → β → K) (L : OrdMap α (FlatSet β)) : Prop :=
  L.size = (listed L).card → Dependent c L →
    ∃ u, Cancels c L u ∧ ∀ k : Fin L.size, k.val + 1 = L.size → u k ≠ 0

/-- Values that satisfy the other equations satisfy one that cancels with them. -/
theorem combination_eq_zero_of_cancels {u : Fin L.size → K} (hu : Cancels c L u) {j : Fin L.size}
    (hj : u j ≠ 0) (h : ∀ k ≠ j, combination (c L.entries[k].1) L.entries[k].2.toFinset v = 0) :
    combination (c L.entries[j].1) L.entries[j].2.toFinset v = 0 := by
  have hsub : ∀ k : Fin L.size, L.entries[k].2.toFinset ⊆ listed L := by
    intro k i hi
    exact mem_listed.mpr ⟨_, _, OrdMap.mem_entries_iff.mp (List.getElem_mem k.isLt),
      FlatSet.mem_toFinset.mp hi⟩
  have hsum : ∑ k, u k * combination (c L.entries[k].1) L.entries[k].2.toFinset v = 0 := by
    calc ∑ k, u k * combination (c L.entries[k].1) L.entries[k].2.toFinset v
        = ∑ k, ∑ i ∈ listed L,
            (if i ∈ L.entries[k].2 then c L.entries[k].1 i * u k else 0) * v i := by
          refine Finset.sum_congr rfl fun k _ => ?_
          rw [combination_eq_sum (hsub k), Finset.mul_sum]
          refine Finset.sum_congr rfl fun i _ => ?_
          simp only [FlatSet.mem_toFinset, smul_eq_mul]
          split
          · ring
          · ring
      _ = ∑ i ∈ listed L, (∑ k,
            (if i ∈ L.entries[k].2 then c L.entries[k].1 i * u k else 0)) * v i := by
          rw [Finset.sum_comm]
          exact Finset.sum_congr rfl fun i _ => (Finset.sum_mul _ _ _).symm
      _ = 0 := Finset.sum_eq_zero fun i _ => by rw [hu i, zero_mul]
  rw [Finset.sum_eq_single j] at hsum
  · exact (mul_eq_zero.mp hsum).resolve_left hj
  · exact fun k _ hk => by rw [h k hk, mul_zero]
  · exact fun hno => absurd (Finset.mem_univ j) hno

/-- Equations that cancel with a factor for one of them list its unknowns elsewhere. -/
theorem exists_other_of_cancels (hc : ∀ k i, c k i ≠ 0) {u : Fin L.size → K} (hu : Cancels c L u)
    {j : Fin L.size} (hj : u j ≠ 0) (hx : x ∈ L.entries[j].2) : ∃ k ≠ j, x ∈ L.entries[k].2 := by
  by_contra hno
  push Not at hno
  have hsum := hu x
  rw [Finset.sum_eq_single j (fun k _ hk => if_neg (hno k hk))
    (fun h => absurd (Finset.mem_univ j) h), if_pos hx] at hsum
  exact mul_ne_zero (hc _ _) hj hsum

theorem entry_inj {j k : Fin L.size} (h : L.entries[k].1 = L.entries[j].1) : k = j := by
  have hk : k.val < L.keys.length := (List.length_map _).symm ▸ k.isLt
  have hj : j.val < L.keys.length := (List.length_map _).symm ▸ j.isLt
  have hinj : L.keys[k.val] = L.keys[j.val] ↔ k.val = j.val := L.keys_nodup.getElem_inj_iff
  simp only [OrdMap.keys, List.getElem_map] at hinj
  exact Fin.ext (hinj.mp h)

/-- The entries but one. -/
theorem find?_erase_entry {j : Fin L.size} : (L.erase L.entries[j].1).find? k = some s ↔
    ∃ i ≠ j, L.entries[i] = (k, s) := by
  rw [OrdMap.find?_erase]
  constructor
  · intro h
    split at h
    · cases h
    · next hne =>
      obtain ⟨i, hi, heq⟩ := List.mem_iff_getElem.mp (OrdMap.mem_entries_iff.mpr h)
      refine ⟨⟨i, hi⟩, ?_, heq⟩
      rintro rfl
      exact hne (congrArg Prod.fst heq).symm
  · rintro ⟨i, hne, heq⟩
    have hk : k = L.entries[i].1 := (congrArg Prod.fst heq).symm
    rw [if_neg fun hkj => hne (entry_inj (hk.symm.trans hkj))]
    exact OrdMap.mem_entries_iff.mp (heq ▸ List.getElem_mem i.isLt)

/-- An equation that cancels with the other ones is satisfied with them. -/
theorem satisfies_erase_entry {u : Fin L.size → K} (hu : Cancels c L u) {j : Fin L.size}
    (hj : u j ≠ 0) : Satisfies c (L.erase L.entries[j].1) v ↔ Satisfies c L v := by
  constructor
  · intro h
    have hother : ∀ k ≠ j, combination (c L.entries[k].1) L.entries[k].2.toFinset v = 0 :=
      fun k hk => h _ _ (find?_erase_entry.mpr ⟨k, hk, rfl⟩)
    refine satisfies_iff_entries.mpr fun k => ?_
    by_cases hk : k = j
    · rw [hk]
      exact combination_eq_zero_of_cancels hu hj hother
    · exact hother k hk
  · intro h k s hs
    obtain ⟨i, -, heq⟩ := find?_erase_entry.mp hs
    exact h k s (OrdMap.mem_entries_iff.mp (heq ▸ List.getElem_mem i.isLt))

/-- Without an equation that cancels with the other ones, these list as many unknowns. -/
theorem listed_erase_entry (hc : ∀ k i, c k i ≠ 0) {u : Fin L.size → K} (hu : Cancels c L u)
    {j : Fin L.size} (hj : u j ≠ 0) : listed (L.erase L.entries[j].1) = listed L := by
  ext x
  simp only [mem_listed]
  constructor
  · rintro ⟨k, s, hs, hx⟩
    obtain ⟨i, -, heq⟩ := find?_erase_entry.mp hs
    exact ⟨k, s, OrdMap.mem_entries_iff.mp (heq ▸ List.getElem_mem i.isLt), hx⟩
  · rintro ⟨k, s, hs, hx⟩
    obtain ⟨i, hi, heq⟩ := List.mem_iff_getElem.mp (OrdMap.mem_entries_iff.mpr hs)
    by_cases hij : (⟨i, hi⟩ : Fin L.size) = j
    · have hxj : x ∈ L.entries[j].2 := by
        rw [← hij, Fin.getElem_fin, heq]
        exact hx
      obtain ⟨k', hk', hx'⟩ := exists_other_of_cancels hc hu hj hxj
      exact ⟨_, _, find?_erase_entry.mpr ⟨k', hk', rfl⟩, hx'⟩
    · exact ⟨k, s, find?_erase_entry.mpr ⟨⟨i, hi⟩, hij, heq⟩, hx⟩

theorem last_entry {e : α × FlatSet β} (h : L.entries.getLast? = some e) :
    ∃ k : Fin L.size, k.val + 1 = L.size ∧ L.entries[k] = e := by
  rw [List.getLast?_eq_getElem?] at h
  obtain ⟨hlt, heq⟩ := List.getElem?_eq_some_iff.mp h
  exact ⟨⟨_, hlt⟩, Nat.sub_add_cancel (Nat.one_le_of_lt hlt), heq⟩

/-- When the last equation cancels with the other ones, the last set can be spared. -/
theorem survives_of_spares (hc : ∀ k i, c k i ≠ 0) (h : SparesEquation c L) : Survives c L := by
  intro hsize hdep e hlast
  obtain ⟨u, hu, hne⟩ := h hsize hdep
  obtain ⟨k, hk, rfl⟩ := last_entry hlast
  exact listed_erase_entry hc hu (hne k hk)

/-- Without an unknown there is at most one less. -/
theorem card_listed_without (x : β) (L : OrdMap α (FlatSet β)) :
    (listed L).card ≤ (listed (without x L)).card + 1 := by
  have hsub : listed L ⊆ insert x (listed (without x L)) := by
    intro i hi
    obtain ⟨k, s, hs, his⟩ := mem_listed.mp hi
    by_cases hix : i = x
    · exact hix ▸ Finset.mem_insert_self i _
    · refine Finset.mem_insert_of_mem (mem_listed.mpr ⟨k, s.erase x, ?_, ?_⟩)
      · rw [without, OrdMap.find?_map, hs]
        rfl
      · exact FlatSet.mem_erase.mpr ⟨his, hix⟩
  exact (Finset.card_le_card hsub).trans (Finset.card_insert_le _ _)

theorem card_entries (L : OrdMap α (FlatSet β)) : L.entries.toFinset.card = L.size :=
  List.toFinset_card_of_nodup (List.Nodup.of_map Prod.fst L.keys_nodup)

/-- The isolated sets. -/
def isolated (L : OrdMap α (FlatSet β)) : Finset (α × FlatSet β) :=
  L.entries.toFinset \ (settle L).entries.toFinset

theorem mem_isolated {e : α × FlatSet β} :
    e ∈ isolated L ↔ L.find? e.1 = some e.2 ∧ Isolated L e.1 e.2 := by
  rw [isolated, Finset.mem_sdiff, List.mem_toFinset, List.mem_toFinset, OrdMap.mem_entries_iff,
    OrdMap.mem_entries_iff, find?_settle]
  tauto

theorem card_isolated (L : OrdMap α (FlatSet β)) : (isolated L).card + (settle L).size = L.size := by
  have hsub : (settle L).entries.toFinset ⊆ L.entries.toFinset := by
    intro e he
    rw [List.mem_toFinset, OrdMap.mem_entries_iff, find?_settle] at he
    exact List.mem_toFinset.mpr (OrdMap.mem_entries_iff.mpr he.1)
  rw [isolated, ← card_entries, ← card_entries, Finset.card_sdiff_add_card_eq_card hsub]

/-- Each isolated set takes at most one unknown with it. -/
theorem card_listed_settle (L : OrdMap α (FlatSet β)) :
    (listed L).card + (settle L).size ≤ (listed (settle L)).card + L.size := by
  have hsub : listed L ⊆ listed (settle L) ∪ (isolated L).biUnion fun e => e.2.toFinset := by
    intro i hi
    obtain ⟨k, s, hs, his⟩ := mem_listed.mp hi
    rw [Finset.mem_union, Finset.mem_biUnion]
    by_cases hk : Isolated L k s
    · exact Or.inr ⟨(k, s), mem_isolated.mpr ⟨hs, hk⟩, FlatSet.mem_toFinset.mpr his⟩
    · exact Or.inl (mem_listed.mpr ⟨k, s, find?_settle.mpr ⟨hs, hk⟩, his⟩)
  have hone : ((isolated L).biUnion fun e => e.2.toFinset).card ≤ (isolated L).card * 1 := by
    refine Finset.card_biUnion_le_card_mul _ _ 1 fun e he => ?_
    obtain ⟨-, i, hi, -⟩ := mem_isolated.mp he
    rw [FlatSet.toFinset_eq_singleton hi, Finset.card_singleton]
  have hcard := (Finset.card_le_card hsub).trans (Finset.card_union_le _ _)
  have hsize := card_isolated L
  omega

end Equations
