import Mathlib

/-! Ordered associative containers kept as strictly sorted lists, so that iteration order,
successors and range erasure are those of a red-black tree or of a sorted vector. -/
namespace Containers

/-- A sorted set without duplicates. -/
@[ext]
structure FlatSet (α : Type*) [LinearOrder α] where
  toList : List α
  sorted : toList.Pairwise (· < ·)
deriving DecidableEq

/-- A map whose entries are listed by strictly increasing keys. -/
@[ext]
structure OrdMap (α β : Type*) [LinearOrder α] where
  entries : List (α × β)
  sorted : entries.Pairwise (fun a b => a.1 < b.1)

/-- In a sorted list, the first element above `a` is the least one. -/
theorem find?_above_eq_some {α : Type*} [LinearOrder α] {l : List α} {a b : α}
    (hs : l.Pairwise (· < ·)) : l.find? (fun c => decide (a < c)) = some b ↔
    b ∈ l ∧ a < b ∧ ∀ c ∈ l, a < c → b ≤ c := by
  constructor
  · intro h
    have hab : a < b := by simpa using List.find?_some h
    refine ⟨List.mem_of_find?_eq_some h, hab, ?_⟩
    intro c hc hac
    obtain ⟨_, as, bs, rfl, has⟩ := List.find?_eq_some_iff_append.mp h
    rw [List.pairwise_append, List.pairwise_cons] at hs
    rcases List.mem_append.mp hc with hc | hc
    · have := has c hc
      simp [hac] at this
    · rcases List.mem_cons.mp hc with rfl | hc
      exacts [le_rfl, (hs.2.1.1 c hc).le]
  · rintro ⟨hb, hab, hmin⟩
    cases h : l.find? (fun c => decide (a < c)) with
    | none =>
      have := List.find?_eq_none.mp h b hb
      simp [hab] at this
    | some c =>
      have hac : a < c := by simpa using List.find?_some h
      have hbc := hmin c (List.mem_of_find?_eq_some h) hac
      obtain ⟨_, as, bs, rfl, has⟩ := List.find?_eq_some_iff_append.mp h
      rw [List.pairwise_append, List.pairwise_cons] at hs
      rcases List.mem_append.mp hb with hb | hb
      · have := has b hb
        simp [hab] at this
      · rcases List.mem_cons.mp hb with rfl | hb
        · rfl
        · exact absurd (hs.2.1.1 b hb) hbc.not_gt

namespace FlatSet

variable {α : Type*} [LinearOrder α] {s t : FlatSet α} {a b : α}

instance : Membership α (FlatSet α) := ⟨fun s a => a ∈ s.toList⟩

instance : Decidable (a ∈ s) := inferInstanceAs (Decidable (a ∈ s.toList))

theorem mem_iff : a ∈ s ↔ a ∈ s.toList := Iff.rfl

def empty : FlatSet α := ⟨[], List.Pairwise.nil⟩

def singleton (a : α) : FlatSet α := ⟨[a], List.pairwise_singleton _ a⟩

def size (s : FlatSet α) : ℕ := s.toList.length

def isEmpty (s : FlatSet α) : Bool := s.toList.isEmpty

def filter (p : α → Bool) (s : FlatSet α) : FlatSet α := ⟨s.toList.filter p, s.sorted.filter p⟩

def erase (s : FlatSet α) (a : α) : FlatSet α := s.filter (fun b => decide (b ≠ a))

def insert (s : FlatSet α) (a : α) : FlatSet α where
  toList := s.toList.filter (fun b => decide (b < a)) ++
    a :: s.toList.filter (fun b => decide (a < b))
  sorted := by
    rw [List.pairwise_append, List.pairwise_cons]
    refine ⟨s.sorted.filter _, ⟨?_, s.sorted.filter _⟩, ?_⟩
    · intro b hb
      simpa using (List.mem_filter.mp hb).2
    · intro b hb c hc
      have hba : b < a := by simpa using (List.mem_filter.mp hb).2
      rcases List.mem_cons.mp hc with rfl | hc
      · exact hba
      · exact hba.trans (by simpa using (List.mem_filter.mp hc).2)

/-- The element that follows `a`, where an iterator to `a` points after an increment or an
erasure. -/
def next? (s : FlatSet α) (a : α) : Option α := s.toList.find? (fun b => decide (a < b))

@[simp] theorem not_mem_empty : a ∉ (empty : FlatSet α) := List.not_mem_nil

@[simp] theorem mem_singleton : b ∈ singleton a ↔ b = a := List.mem_singleton

@[simp] theorem mem_filter {p : α → Bool} : a ∈ s.filter p ↔ a ∈ s ∧ p a = true :=
  List.mem_filter

@[simp] theorem mem_erase : b ∈ s.erase a ↔ b ∈ s ∧ b ≠ a := by simp [erase]

@[simp] theorem mem_insert : b ∈ s.insert a ↔ b = a ∨ b ∈ s := by
  simp only [insert, List.mem_append, List.mem_cons, List.mem_filter, decide_eq_true_eq, mem_iff]
  constructor
  · rintro (⟨h, _⟩ | rfl | ⟨h, _⟩)
    exacts [Or.inr h, Or.inl rfl, Or.inr h]
  · rintro (rfl | h)
    · exact Or.inr (Or.inl rfl)
    · rcases lt_trichotomy b a with hlt | rfl | hgt
      exacts [Or.inl ⟨h, hlt⟩, Or.inr (Or.inl rfl), Or.inr (Or.inr ⟨h, hgt⟩)]

theorem nodup (s : FlatSet α) : s.toList.Nodup := s.sorted.imp ne_of_lt

/-- Two sorted sets with the same elements are the same list. -/
theorem ext_mem (h : ∀ a, a ∈ s ↔ a ∈ t) : s = t := by
  apply FlatSet.ext
  have hp : s.toList.Perm t.toList := (List.perm_ext_iff_of_nodup s.nodup t.nodup).mpr h
  exact hp.eq_of_pairwise (fun a b _ _ hab hba => absurd hab hba.not_gt) s.sorted t.sorted

theorem erase_erase (s : FlatSet α) (a : α) : (s.erase a).erase a = s.erase a :=
  ext_mem fun b => by simp

theorem insert_insert (s : FlatSet α) (a : α) : (s.insert a).insert a = s.insert a :=
  ext_mem fun b => by simp

theorem isEmpty_iff : s.isEmpty = true ↔ ∀ a, a ∉ s := by
  simp [isEmpty, mem_iff, List.eq_nil_iff_forall_not_mem]

theorem isEmpty_eq_false_iff : s.isEmpty = false ↔ ∃ a, a ∈ s := by
  rw [← Bool.not_eq_true, isEmpty_iff]
  simp

theorem next?_eq_some : s.next? a = some b ↔ b ∈ s ∧ a < b ∧ ∀ c ∈ s, a < c → b ≤ c :=
  find?_above_eq_some s.sorted

theorem next?_eq_none : s.next? a = none ↔ ∀ c ∈ s, c ≤ a := by
  simp [next?, mem_iff]

/-- Erasing an element removes one. -/
theorem size_erase (h : a ∈ s) : (s.erase a).size + 1 = s.size := by
  have hone : (s.toList.filter (fun b => !decide (b ≠ a))).length = 1 := by
    rw [← List.count_eq_one_of_mem s.nodup h, List.count, List.countP_eq_length_filter]
    congr 1
    apply List.filter_congr
    intro b _
    rw [Bool.eq_iff_iff]
    simp
  have hsplit := List.length_eq_length_filter_add (l := s.toList) (fun b => decide (b ≠ a))
  simp only [size, erase, filter]
  omega

theorem size_le_erase (s : FlatSet α) (a : α) : s.size ≤ (s.erase a).size + 1 := by
  by_cases h : a ∈ s
  · exact (size_erase h).ge
  · have herase : s.erase a = s := ext_mem fun b => by
      rw [mem_erase, and_iff_left_iff_imp]
      rintro hb rfl
      exact h hb
    rw [herase]
    exact Nat.le_succ _

theorem size_eq_one_iff : s.size = 1 ↔ ∃ a, s.toList = [a] := List.length_eq_one_iff

theorem size_pos_iff : 0 < s.size ↔ ∃ a, a ∈ s := List.length_pos_iff_exists_mem

theorem toList_eq_singleton_iff : s.toList = [a] ↔ ∀ b, b ∈ s ↔ b = a := by
  constructor
  · intro h b
    rw [mem_iff, h, List.mem_singleton]
  · intro h
    have hs : s = ⟨[a], List.pairwise_singleton _ a⟩ := ext_mem fun b => by
      rw [h, mem_iff, List.mem_singleton]
    rw [hs]

theorem one_lt_size (ha : a ∈ s) (hb : b ∈ s) (hne : a ≠ b) : 1 < s.size := by
  refine lt_of_le_of_ne (size_pos_iff.mpr ⟨a, ha⟩) fun h => ?_
  obtain ⟨c, hc⟩ := size_eq_one_iff.mp h.symm
  rw [mem_iff, hc, List.mem_singleton] at ha hb
  exact hne (ha.trans hb.symm)

/-- The first element is a lower bound. -/
theorem head_le {l : List α} (h : s.toList = b :: l) (ha : a ∈ s) : b ≤ a := by
  have hs := s.sorted
  rw [h, List.pairwise_cons] at hs
  rw [mem_iff, h] at ha
  rcases List.mem_cons.mp ha with rfl | ha
  exacts [le_rfl, (hs.1 a ha).le]

/-- The elements, as a finite set. -/
def toFinset (s : FlatSet α) : Finset α := s.toList.toFinset

@[simp] theorem mem_toFinset : a ∈ s.toFinset ↔ a ∈ s := List.mem_toFinset

theorem toFinset_erase : (s.erase a).toFinset = s.toFinset.erase a := by
  ext b
  simp [and_comm]

theorem toFinset_eq_singleton (h : s.toList = [a]) : s.toFinset = {a} := by
  simp [toFinset, h]

end FlatSet

namespace OrdMap

variable {α β : Type*} [LinearOrder α] {m n : OrdMap α β} {k j : α} {v w : β}

instance [DecidableEq β] : DecidableEq (OrdMap α β) := fun m n =>
  decidable_of_iff (m.entries = n.entries) OrdMap.ext_iff.symm

def empty : OrdMap α β := ⟨[], List.Pairwise.nil⟩

def size (m : OrdMap α β) : ℕ := m.entries.length

def isEmpty (m : OrdMap α β) : Bool := m.entries.isEmpty

def keys (m : OrdMap α β) : List α := m.entries.map Prod.fst

def find? (m : OrdMap α β) (k : α) : Option β :=
  (m.entries.find? (fun e => decide (e.1 = k))).map Prod.snd

def contains (m : OrdMap α β) (k : α) : Bool := (m.find? k).isSome

def filter (p : α → β → Bool) (m : OrdMap α β) : OrdMap α β :=
  ⟨m.entries.filter (fun e => p e.1 e.2), m.sorted.filter _⟩

def erase (m : OrdMap α β) (k : α) : OrdMap α β := m.filter (fun j _ => decide (j ≠ k))

/-- Erase every entry before the lower bound of `k`. -/
def eraseBelow (m : OrdMap α β) (k : α) : OrdMap α β := m.filter (fun j _ => decide (k ≤ j))

/-- Apply a function to every entry. -/
def map {γ : Type*} (f : α → β → γ) (m : OrdMap α β) : OrdMap α γ :=
  ⟨m.entries.map fun e => (e.1, f e.1 e.2), List.pairwise_map.mpr m.sorted⟩

/-- Bind `k` to `v`, replacing an existing binding. -/
def insert (m : OrdMap α β) (k : α) (v : β) : OrdMap α β where
  entries := m.entries.filter (fun e => decide (e.1 < k)) ++
    (k, v) :: m.entries.filter (fun e => decide (k < e.1))
  sorted := by
    rw [List.pairwise_append, List.pairwise_cons]
    refine ⟨m.sorted.filter _, ⟨?_, m.sorted.filter _⟩, ?_⟩
    · intro e he
      simpa using (List.mem_filter.mp he).2
    · intro e he f hf
      have hek : e.1 < k := by simpa using (List.mem_filter.mp he).2
      rcases List.mem_cons.mp hf with rfl | hf
      · exact hek
      · exact hek.trans (by simpa using (List.mem_filter.mp hf).2)

/-- The first key, where an iterator to the beginning points. -/
def firstKey? (m : OrdMap α β) : Option α := m.keys.head?

/-- The key that follows `k`, where an iterator to `k` points after an increment or an erasure. -/
def nextKey? (m : OrdMap α β) (k : α) : Option α := m.keys.find? (fun j => decide (k < j))

theorem keys_sorted (m : OrdMap α β) : m.keys.Pairwise (· < ·) := by
  rw [keys, List.pairwise_map]
  exact m.sorted

theorem keys_nodup (m : OrdMap α β) : m.keys.Nodup := m.keys_sorted.imp ne_of_lt

theorem mem_entries_iff : (k, v) ∈ m.entries ↔ m.find? k = some v := by
  rw [find?, Option.map_eq_some_iff]
  constructor
  · intro h
    cases he : m.entries.find? (fun e => decide (e.1 = k)) with
    | none =>
      have hn := List.find?_eq_none.mp he _ h
      simp at hn
    | some e =>
      refine ⟨e, rfl, ?_⟩
      have hk : e.1 = k := by simpa using List.find?_some he
      have hm := List.mem_of_find?_eq_some he
      have hd : (m.entries.map Prod.fst).Nodup := m.keys_nodup
      exact congrArg Prod.snd (List.inj_on_of_nodup_map hd hm h (by simp [hk]))
  · rintro ⟨e, he, rfl⟩
    have hk : e.1 = k := by simpa using List.find?_some he
    have hm := List.mem_of_find?_eq_some he
    rwa [← hk]

theorem mem_keys_iff : k ∈ m.keys ↔ ∃ v, m.find? k = some v := by
  simp only [keys, List.mem_map, Prod.exists, exists_and_right, exists_eq_right, mem_entries_iff]

theorem contains_iff : m.contains k = true ↔ ∃ v, m.find? k = some v := Option.isSome_iff_exists

theorem contains_iff_mem_keys : m.contains k = true ↔ k ∈ m.keys :=
  contains_iff.trans mem_keys_iff.symm

theorem contains_eq_false_iff : m.contains k = false ↔ m.find? k = none := by
  simp [contains]

theorem contains_of_find? (h : m.find? k = some v) : m.contains k = true := contains_iff.mpr ⟨v, h⟩

/-- Lookup decides a map. -/
theorem ext_find? (h : ∀ k, m.find? k = n.find? k) : m = n := by
  apply OrdMap.ext
  have hp : m.entries.Perm n.entries := by
    rw [List.perm_ext_iff_of_nodup (List.Nodup.of_map _ m.keys_nodup)
      (List.Nodup.of_map _ n.keys_nodup)]
    rintro ⟨k, v⟩
    rw [mem_entries_iff, mem_entries_iff, h]
  exact hp.eq_of_pairwise (fun a b _ _ hab hba => absurd hab hba.not_gt) m.sorted n.sorted

@[simp] theorem find?_empty : (empty : OrdMap α β).find? k = none := rfl

theorem find?_eq_some_filter {p : α → β → Bool} :
    (m.filter p).find? k = some v ↔ m.find? k = some v ∧ p k v = true := by
  simp only [← mem_entries_iff, filter, List.mem_filter]

theorem find?_map {γ : Type*} {f : α → β → γ} : (m.map f).find? k = (m.find? k).map (f k) := by
  apply Option.ext
  intro v
  rw [← mem_entries_iff, Option.map_eq_some_iff]
  simp only [map, List.mem_map, Prod.exists, mem_entries_iff, Prod.mk.injEq]
  constructor
  · rintro ⟨j, u, hu, rfl, rfl⟩
    exact ⟨u, hu, rfl⟩
  · rintro ⟨u, hu, rfl⟩
    exact ⟨k, u, hu, rfl, rfl⟩

theorem size_map {γ : Type*} (f : α → β → γ) (m : OrdMap α β) : (m.map f).size = m.size :=
  List.length_map _

/-- Filtering on keys alone. -/
theorem find?_filter_key {p : α → Bool} :
    (m.filter fun j _ => p j).find? k = if p k = true then m.find? k else none := by
  apply Option.ext
  intro v
  rw [find?_eq_some_filter]
  split <;> simp_all

theorem find?_erase : (m.erase k).find? j = if j = k then none else m.find? j := by
  rw [erase, find?_filter_key]
  simp only [decide_eq_true_eq, ne_eq, ite_not]

@[simp] theorem find?_erase_self : (m.erase k).find? k = none := by simp [find?_erase]

theorem find?_erase_ne (h : j ≠ k) : (m.erase k).find? j = m.find? j := by simp [find?_erase, h]

theorem erase_of_find?_none (h : m.find? k = none) : m.erase k = m := by
  apply ext_find?
  intro j
  rw [find?_erase]
  split
  · next hj => rw [hj, h]
  · rfl

theorem find?_eraseBelow :
    (m.eraseBelow k).find? j = if k ≤ j then m.find? j else none := by
  rw [eraseBelow, find?_filter_key]
  simp only [decide_eq_true_eq]

theorem find?_insert : (m.insert k v).find? j = if j = k then some v else m.find? j := by
  apply Option.ext
  intro w
  rw [← mem_entries_iff]
  simp only [insert, List.mem_append, List.mem_cons, List.mem_filter, decide_eq_true_eq,
    mem_entries_iff, Prod.mk.injEq]
  split
  · next h =>
    subst h
    simp [eq_comm]
  · next h =>
    simp only [h, false_and, false_or, ← and_or_left]
    exact and_iff_left_of_imp fun _ => lt_or_gt_of_ne h

@[simp] theorem find?_insert_self : (m.insert k v).find? k = some v := by simp [find?_insert]

theorem find?_insert_ne (h : j ≠ k) : (m.insert k v).find? j = m.find? j := by
  simp [find?_insert, h]

/-- Updating the bindings of the keys of a list, each as often as it is listed. -/
theorem find?_updateEach {f : β → β} {e : β} (hf : ∀ v, f (f v) = f v) (l : List α)
    (m : OrdMap α β) : (l.foldl (fun m k => m.insert k (f ((m.find? k).getD e))) m).find? j =
      if j ∈ l then some (f ((m.find? j).getD e)) else m.find? j := by
  induction l generalizing m with
  | nil => simp
  | cons a l ih =>
    rw [List.foldl_cons, ih, find?_insert]
    by_cases hja : j = a
    · subst hja
      simp [hf]
    · simp [hja]

theorem contains_insert : (m.insert k v).contains j = (decide (j = k) || m.contains j) := by
  simp only [contains, find?_insert]
  split <;> simp_all

theorem contains_erase : (m.erase k).contains j = (decide (j ≠ k) && m.contains j) := by
  simp only [contains, find?_erase]
  split <;> simp_all

theorem contains_eraseBelow : (m.eraseBelow k).contains j = (decide (k ≤ j) && m.contains j) := by
  simp only [contains, find?_eraseBelow]
  split <;> simp_all

theorem isEmpty_iff : m.isEmpty = true ↔ ∀ k, m.find? k = none := by
  rw [isEmpty, List.isEmpty_iff]
  constructor
  · intro h k
    simp [find?, h]
  · intro h
    rw [List.eq_nil_iff_forall_not_mem]
    rintro ⟨k, v⟩ hk
    rw [mem_entries_iff, h] at hk
    cases hk

/-- Erasing a present key removes one entry. -/
theorem size_erase (h : m.find? k = some v) : (m.erase k).size + 1 = m.size := by
  have hone : (m.entries.filter (fun e => !decide (e.1 ≠ k))).length = 1 := by
    have hd : m.keys.count k = 1 :=
      List.count_eq_one_of_mem m.keys_nodup (mem_keys_iff.mpr ⟨v, h⟩)
    rw [← hd, keys, List.count, List.countP_map, List.countP_eq_length_filter]
    congr 1
    apply List.filter_congr
    intro e _
    rw [Bool.eq_iff_iff]
    simp
  have hsplit := List.length_eq_length_filter_add (l := m.entries) (fun e => decide (e.1 ≠ k))
  simp only [size, erase, filter]
  omega

theorem size_insert_old (h : m.find? k = some w) : (m.insert k v).size = m.size := by
  have he := size_erase (m := m.insert k v) find?_insert_self
  have hm : (m.insert k v).erase k = m.erase k := by
    apply ext_find?
    intro j
    rw [find?_erase, find?_erase]
    split
    · rfl
    · next hj => exact find?_insert_ne hj
  rw [hm] at he
  have := size_erase h
  omega

theorem firstKey?_eq_none : m.firstKey? = none ↔ ∀ k, m.find? k = none := by
  rw [← isEmpty_iff, firstKey?, keys, isEmpty]
  cases m.entries <;> simp

/-- The successor is the least key above. -/
theorem nextKey?_eq_some : m.nextKey? k = some j ↔
    j ∈ m.keys ∧ k < j ∧ ∀ i ∈ m.keys, k < i → j ≤ i := find?_above_eq_some m.keys_sorted

theorem nextKey?_eq_none : m.nextKey? k = none ↔ ∀ i ∈ m.keys, i ≤ k := by
  simp [nextKey?]

theorem firstKey?_eq_some : m.firstKey? = some j ↔ j ∈ m.keys ∧ ∀ i ∈ m.keys, j ≤ i := by
  rw [firstKey?]
  have hs := m.keys_sorted
  cases h : m.keys with
  | nil => simp
  | cons i l =>
    rw [h, List.pairwise_cons] at hs
    simp only [List.head?_cons, Option.some.injEq, List.mem_cons, forall_eq_or_imp]
    constructor
    · rintro rfl
      exact ⟨Or.inl rfl, le_rfl, fun a ha => (hs.1 a ha).le⟩
    · rintro ⟨rfl | hj, hle, _⟩
      · rfl
      · exact absurd (hs.1 j hj) hle.not_gt

end OrdMap

end Containers
