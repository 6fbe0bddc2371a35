import Netcode.Library.Containers

/-! Two computations that may fail, the second of which succeeds whenever the first does, with a
related result. Maps with the same keys and related values. -/
namespace Simulation

open Containers

variable {α β γ δ ε ζ : Type}

/-- Whenever the first computation succeeds, so does the second, and their results are related. -/
def Simulates (R : α → β → Prop) (x : Except ε α) (y : Except ζ β) : Prop :=
  ∀ a, x = .ok a → ∃ b, y = .ok b ∧ R a b

section Rules

variable {R : α → β → Prop} {S : γ → δ → Prop} {x : Except ε α} {y : Except ζ β}
  {f : α → Except ε γ} {f' : β → Except ζ δ} {a : α} {b : β}

theorem simulates_ok (h : R a b) : Simulates R (.ok a : Except ε α) (.ok b : Except ζ β) := by
  rintro _ ⟨⟩
  exact ⟨b, rfl, h⟩

theorem simulates_error (e : ε) (y : Except ζ β) : Simulates R (.error e) y := by
  rintro _ ⟨⟩

theorem simulates_same (x : Except ε α) : Simulates Eq x x := fun a h => ⟨a, h, rfl⟩

theorem Simulates.bind (hx : Simulates R x y) (hf : ∀ a b, R a b → Simulates S (f a) (f' b)) :
    Simulates S (x >>= f) (y >>= f') := by
  intro c hc
  cases x with
  | error e => cases hc
  | ok a =>
    obtain ⟨b, rfl, hab⟩ := hx a rfl
    exact hf a b hab c hc

/-- Both computations begin with the same one. -/
theorem simulates_bind {x : Except ε α} {f' : α → Except ε δ}
    (hf : ∀ a, Simulates S (f a) (f' a)) : Simulates S (x >>= f) (x >>= f') :=
  (simulates_same x).bind fun a _ hab => hab ▸ hf a

theorem Simulates.map {f : α → γ} {f' : β → δ} (hx : Simulates R x y)
    (hf : ∀ a b, R a b → S (f a) (f' b)) : Simulates S (x.map f) (y.map f') := by
  intro c hc
  cases x with
  | error e => cases hc
  | ok a =>
    obtain ⟨b, rfl, hab⟩ := hx a rfl
    cases hc
    exact ⟨f' b, rfl, hf a b hab⟩

end Rules

section Loops

variable {R : α → β → Prop} {Q : γ → δ → Prop} {f : α → γ → Except ε α} {f' : β → δ → Except ζ β}
  {l : List γ} {l' : List δ} {s : α} {t : β}

/-- Loops over related elements whose iterations keep the relation. -/
theorem simulates_foldlM (hl : List.Forall₂ Q l l') (hs : R s t)
    (hf : ∀ c d, Q c d → ∀ u v, R u v → Simulates R (f u c) (f' v d)) :
    Simulates R (l.foldlM f s) (l'.foldlM f' t) := by
  induction hl generalizing s t with
  | nil => exact simulates_ok hs
  | cons hcd _ ih =>
    rw [List.foldlM_cons, List.foldlM_cons]
    exact (hf _ _ hcd s t hs).bind fun u v huv => ih huv

/-- Loops over the same elements. -/
theorem simulates_foldlM_same {f' : β → γ → Except ζ β} (l : List γ) (hs : R s t)
    (hf : ∀ c u v, R u v → Simulates R (f u c) (f' v c)) :
    Simulates R (l.foldlM f s) (l.foldlM f' t) :=
  simulates_foldlM (Q := Eq) (List.forall₂_eq_eq_eq ▸ rfl) hs
    fun c _ hcd u v huv => hcd ▸ hf c u v huv

end Loops

section Lists

variable {R : α → β → Prop} {l : List α} {l' : List β}

theorem forall₂_getElem? (h : List.Forall₂ R l l') (i : ℕ) : (l[i]? = none ∧ l'[i]? = none) ∨
    ∃ a b, l[i]? = some a ∧ l'[i]? = some b ∧ R a b := by
  induction h generalizing i with
  | nil => exact Or.inl ⟨rfl, rfl⟩
  | @cons a b _ _ hab _ ih =>
    cases i with
    | zero => exact Or.inr ⟨a, b, rfl, rfl, hab⟩
    | succ i => exact ih i

theorem map_eq_of_forall₂ {f : α → γ} {f' : β → γ} (h : List.Forall₂ R l l')
    (hf : ∀ a b, R a b → f' b = f a) : l'.map f' = l.map f := by
  induction h with
  | nil => rfl
  | cons hab _ ih => rw [List.map_cons, List.map_cons, hf _ _ hab, ih]

theorem forall₂_zipIdx (h : List.Forall₂ R l l') (n : ℕ) :
    List.Forall₂ (fun p q => R p.1 q.1 ∧ p.2 = q.2) (l.zipIdx n) (l'.zipIdx n) := by
  induction h generalizing n with
  | nil => exact .nil
  | cons hab _ ih => exact .cons ⟨hab, rfl⟩ (ih (n + 1))

end Lists

section Maps

variable {κ : Type} {R : α → β → Prop}

/-- Entries with the same key and related values. -/
def EntryRel (R : α → β → Prop) (e : κ × α) (e' : κ × β) : Prop := e.1 = e'.1 ∧ R e.2 e'.2

/-- Lists with the same keys and related values. -/
theorem forall₂_zip (keys : List κ) {l : List α} {l' : List β} (h : List.Forall₂ R l l') :
    List.Forall₂ (EntryRel R) (keys.zip l) (keys.zip l') := by
  induction h generalizing keys with
  | nil =>
    rw [List.zip_nil_right, List.zip_nil_right]
    exact .nil
  | cons hab _ ih =>
    cases keys with
    | nil => exact .nil
    | cons k keys => exact .cons ⟨rfl, hab⟩ (ih keys)

theorem forall₂_dropWhile {p : κ → Bool} {l : List (κ × α)} {l' : List (κ × β)}
    (h : List.Forall₂ (EntryRel R) l l') : List.Forall₂ (EntryRel R)
      (l.dropWhile fun e => p e.1) (l'.dropWhile fun e => p e.1) := by
  induction h with
  | nil => exact .nil
  | cons he hrest ih =>
    rw [List.dropWhile_cons, List.dropWhile_cons, ← he.1]
    split
    · exact ih
    · exact .cons he hrest

variable [LinearOrder κ] {m : OrdMap κ α} {m' : OrdMap κ β} {k : κ} {a : α} {b : β}

/-- Maps with the same keys and related values. -/
def MapRel (R : α → β → Prop) (m : OrdMap κ α) (m' : OrdMap κ β) : Prop :=
  List.Forall₂ (EntryRel R) m.entries m'.entries

theorem mapRel_empty : MapRel R (OrdMap.empty : OrdMap κ α) (OrdMap.empty : OrdMap κ β) := .nil

theorem MapRel.keys (h : MapRel R m m') : m'.keys = m.keys := by
  have hkeys : List.Forall₂ Eq m.keys m'.keys :=
    List.forall₂_map_left_iff.mpr (List.forall₂_map_right_iff.mpr (h.imp fun _ _ he => he.1))
  rw [List.forall₂_eq_eq_eq] at hkeys
  exact hkeys.symm

theorem MapRel.values (h : MapRel R m m') :
    List.Forall₂ R (m.entries.map Prod.snd) (m'.entries.map Prod.snd) :=
  List.forall₂_map_left_iff.mpr (List.forall₂_map_right_iff.mpr (h.imp fun _ _ he => he.2))

theorem MapRel.size (h : MapRel R m m') : m'.size = m.size := h.length_eq.symm

theorem MapRel.isEmpty (h : MapRel R m m') : m'.isEmpty = m.isEmpty := by
  rw [OrdMap.isEmpty, OrdMap.isEmpty, Bool.eq_iff_iff, List.isEmpty_iff_length_eq_zero,
    List.isEmpty_iff_length_eq_zero, h.length_eq]

/-- A key is in both maps or in none. -/
theorem MapRel.find? (h : MapRel R m m') (k : κ) : (m.find? k = none ∧ m'.find? k = none) ∨
    ∃ a b, m.find? k = some a ∧ m'.find? k = some b ∧ R a b := by
  have hfind : ∀ {l : List (κ × α)} {l' : List (κ × β)}, List.Forall₂ (EntryRel R) l l' →
      (l.find? (fun e => decide (e.1 = k)) = none ∧
        l'.find? (fun e => decide (e.1 = k)) = none) ∨
      ∃ e e', l.find? (fun e => decide (e.1 = k)) = some e ∧
        l'.find? (fun e => decide (e.1 = k)) = some e' ∧ EntryRel R e e' := by
    intro l l' hl
    induction hl with
    | nil => exact Or.inl ⟨rfl, rfl⟩
    | @cons e e' _ _ he _ ih =>
      rw [List.find?_cons, List.find?_cons, ← he.1]
      split
      · exact Or.inr ⟨e, e', rfl, rfl, he⟩
      · exact ih
  rw [OrdMap.find?, OrdMap.find?]
  rcases hfind h with ⟨hl, hl'⟩ | ⟨e, e', hl, hl', he⟩
  · rw [hl, hl']
    exact Or.inl ⟨rfl, rfl⟩
  · rw [hl, hl']
    exact Or.inr ⟨e.2, e'.2, rfl, rfl, he.2⟩

theorem MapRel.contains (h : MapRel R m m') (k : κ) : m'.contains k = m.contains k := by
  rw [OrdMap.contains, OrdMap.contains]
  rcases h.find? k with ⟨hk, hk'⟩ | ⟨a, b, hk, hk', -⟩
  · rw [hk, hk']
    rfl
  · rw [hk, hk']
    rfl

/-- Keeping the entries of some keys. -/
theorem MapRel.filter {p : κ → Bool} (h : MapRel R m m') :
    MapRel R (m.filter fun k _ => p k) (m'.filter fun k _ => p k) :=
  List.rel_filter (fun _ _ he => by dsimp only; rw [he.1]) h

theorem MapRel.erase (h : MapRel R m m') (k : κ) : MapRel R (m.erase k) (m'.erase k) :=
  h.filter

theorem MapRel.eraseBelow (h : MapRel R m m') (k : κ) :
    MapRel R (m.eraseBelow k) (m'.eraseBelow k) :=
  h.filter

theorem MapRel.insert (h : MapRel R m m') (k : κ) (hab : R a b) :
    MapRel R (m.insert k a) (m'.insert k b) :=
  List.rel_append (h.filter (p := fun j => decide (j < k)))
    (.cons ⟨rfl, hab⟩ (h.filter (p := fun j => decide (k < j))))

end Maps

end Simulation
