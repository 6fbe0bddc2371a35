import Mathlib

/-! Computations that may fail, loops of them, and runs of a fallible step function. -/
namespace Runs

variable {σ α β ε : Type}

theorem bind_ok_iff {x : Except ε α} {f : α → Except ε β} {b : β} :
    (x >>= f) = .ok b ↔ ∃ a, x = .ok a ∧ f a = .ok b := by
  cases x <;> simp [bind, Except.bind]

@[simp] theorem ok_bind (a : α) (f : α → Except ε β) : ((Except.ok a : Except ε α) >>= f) = f a := rfl

@[simp] theorem error_bind (e : ε) (f : α → Except ε β) :
    ((Except.error e : Except ε α) >>= f) = .error e := rfl

theorem bind_error_iff {x : Except ε α} {f : α → Except ε β} {e : ε} :
    (x >>= f) = .error e ↔ x = .error e ∨ ∃ a, x = .ok a ∧ f a = .error e := by
  cases x <;> simp [bind, Except.bind]

theorem map_ok_iff {x : Except ε α} {f : α → β} {b : β} :
    x.map f = .ok b ↔ ∃ a, x = .ok a ∧ f a = b := by
  cases x <;> simp [Except.map]

/-- A computation whose result passes a check succeeds. -/
theorem exists_ok_of_any {x : Except ε α} {p : α → Bool} (h : x.toOption.any p = true) :
    ∃ a, x = .ok a ∧ p a = true := by
  cases x with
  | error e => cases h
  | ok a => exact ⟨a, rfl, h⟩

/-- A property of the state and of the elements still to visit, kept by every iteration, holds
of no remaining element when the loop is done. -/
theorem foldlM_induction {f : σ → α → Except ε σ} (I : List α → σ → Prop)
    (hI : ∀ a l u v, I (a :: l) u → f u a = .ok v → I l v) :
    ∀ {l : List α} {s t : σ}, I l s → l.foldlM f s = .ok t → I [] t := by
  intro l
  induction l with
  | nil =>
    intro s t hs h
    cases h
    exact hs
  | cons a l ih =>
    intro s t hs h
    rw [List.foldlM_cons] at h
    obtain ⟨u, hu, h⟩ := bind_ok_iff.mp h
    exact ih (hI a l s u hs hu) h

/-- A property every iteration of a loop keeps holds when the loop is done. -/
theorem foldlM_invariant {f : σ → α → Except ε σ} (I : σ → Prop) {l : List α} {s t : σ}
    (hf : ∀ a ∈ l, ∀ u v, I u → f u a = .ok v → I v) (hs : I s)
    (h : l.foldlM f s = .ok t) : I t := by
  refine (foldlM_induction (fun r u => (∀ a ∈ r, a ∈ l) ∧ I u) ?_ ⟨fun _ h => h, hs⟩ h).2
  intro a r u v hu hv
  exact ⟨fun b hb => hu.1 b (List.mem_cons_of_mem a hb),
    hf a (hu.1 a List.mem_cons_self) u v hu.2 hv⟩

/-- A loop whose iterations leave the state as it is does so too. -/
theorem foldlM_fixed {f : σ → α → Except ε σ} {l : List α} {s : σ} (hf : ∀ a ∈ l, f s a = .ok s) :
    l.foldlM f s = .ok s := by
  induction l with
  | nil => rfl
  | cons a l ih =>
    rw [List.foldlM_cons, hf a List.mem_cons_self, ok_bind]
    exact ih fun c hc => hf c (List.mem_cons_of_mem a hc)

/-- A loop whose iterations all succeed and keep a property of the state and of the elements still
to visit succeeds. -/
theorem foldlM_ok_induction {f : σ → α → Except ε σ} (I : List α → σ → Prop)
    (hI : ∀ a l u, I (a :: l) u → ∃ v, f u a = .ok v ∧ I l v) :
    ∀ {l : List α} {s : σ}, I l s → ∃ t, l.foldlM f s = .ok t ∧ I [] t := by
  intro l
  induction l with
  | nil => exact fun hs => ⟨_, rfl, hs⟩
  | cons a l ih =>
    intro s hs
    obtain ⟨u, hu, hi⟩ := hI a l s hs
    obtain ⟨t, ht, hit⟩ := ih hi
    exact ⟨t, by rw [List.foldlM_cons, hu, ok_bind, ht], hit⟩

/-- A loop whose iterations all succeed from states of an invariant succeeds. -/
theorem foldlM_ok {f : σ → α → Except ε σ} (I : σ → Prop) {l : List α} {s : σ}
    (hf : ∀ a ∈ l, ∀ u, I u → ∃ v, f u a = .ok v ∧ I v) (hs : I s) :
    ∃ t, l.foldlM f s = .ok t ∧ I t := by
  have hrun := foldlM_ok_induction (f := f) (fun r u => (∀ a ∈ r, a ∈ l) ∧ I u) ?_
    ⟨fun _ h => h, hs⟩
  · obtain ⟨t, ht, -, hit⟩ := hrun
    exact ⟨t, ht, hit⟩
  · intro a r u hu
    obtain ⟨v, hv, hi⟩ := hf a (hu.1 a List.mem_cons_self) u hu.2
    exact ⟨v, hv, fun c hc => hu.1 c (List.mem_cons_of_mem a hc), hi⟩

section Inputs

variable {f : σ → α → Except ε σ} {l : List α} {s t u v : σ} {a : α}

theorem foldlM_concat (hu : l.foldlM f s = .ok u) (hv : f u a = .ok v) :
    (l ++ [a]).foldlM f s = .ok v := by
  rw [List.foldlM_append, hu, ok_bind, List.foldlM_cons, hv]
  rfl

/-- A property of the inputs so far and of the state they lead to, kept by every step of a run,
holds at its end. -/
theorem foldlM_inputs (I : List α → σ → Prop)
    (hI : ∀ done a rest u v, l = done ++ a :: rest → done.foldlM f s = .ok u → I done u →
      f u a = .ok v → I (done ++ [a]) v) (hs : I [] s) (h : l.foldlM f s = .ok t) : I l t := by
  have hrun := foldlM_induction (f := f)
    (fun rest u => ∃ done, l = done ++ rest ∧ done.foldlM f s = .ok u ∧ I done u) ?_
    ⟨[], rfl, rfl, hs⟩ h
  · obtain ⟨done, hdone, -, hdoneI⟩ := hrun
    rw [List.append_nil] at hdone
    exact hdone ▸ hdoneI
  · rintro a rest u v ⟨done, hdone, hu, hdoneI⟩ hv
    exact ⟨done ++ [a], by rw [hdone, List.append_assoc, List.singleton_append],
      foldlM_concat hu hv, hI done a rest u v hdone hu hdoneI hv⟩

/-- A run whose steps succeed from the states that the inputs before them lead to succeeds. -/
theorem foldlM_ok_inputs
    (hf : ∀ done a rest u, l = done ++ a :: rest → done.foldlM f s = .ok u → ∃ v, f u a = .ok v) :
    ∃ t, l.foldlM f s = .ok t := by
  have hrun := foldlM_ok_induction (f := f)
    (fun rest u => ∃ done, l = done ++ rest ∧ done.foldlM f s = .ok u) ?_ ⟨[], rfl, rfl⟩
  · obtain ⟨t, ht, -⟩ := hrun
    exact ⟨t, ht⟩
  · rintro a rest u ⟨done, hdone, hu⟩
    obtain ⟨v, hv⟩ := hf done a rest u hdone hu
    exact ⟨v, hv, done ++ [a], by rw [hdone, List.append_assoc, List.singleton_append],
      foldlM_concat hu hv⟩

end Inputs

/-- The error of a computation, if it fails, is of a kind. -/
def FailsOnly (Q : ε → Prop) (x : Except ε α) : Prop := ∀ e, x = .error e → Q e

section FailsOnly

variable {Q : ε → Prop} {x : Except ε α} {f : α → Except ε β}

theorem failsOnly_ok (a : α) : FailsOnly Q (.ok a) := fun _ h => by cases h

theorem failsOnly_error {e : ε} (h : Q e) : FailsOnly Q (.error e : Except ε α) := by
  intro e' h'
  cases h'
  exact h

theorem failsOnly_bind (hx : FailsOnly Q x) (hf : ∀ a, x = .ok a → FailsOnly Q (f a)) :
    FailsOnly Q (x >>= f) := by
  intro e h
  rcases bind_error_iff.mp h with h | ⟨a, ha, h⟩
  · exact hx e h
  · exact hf a ha e h

theorem failsOnly_map (hx : FailsOnly Q x) (f : α → β) : FailsOnly Q (x.map f) := by
  cases x with
  | error e => exact failsOnly_error (hx e rfl)
  | ok a => exact failsOnly_ok (f a)

/-- Every iteration fails only so, from what the earlier ones make of the state. -/
theorem failsOnly_foldlM_induction {f : σ → α → Except ε σ} (I : List α → σ → Prop)
    (hf : ∀ a l s, I (a :: l) s → FailsOnly Q (f s a))
    (hI : ∀ a l s t, I (a :: l) s → f s a = .ok t → I l t) {l : List α} {s : σ} (hs : I l s) :
    FailsOnly Q (l.foldlM f s) := by
  induction l generalizing s with
  | nil => exact failsOnly_ok s
  | cons a l ih =>
    rw [List.foldlM_cons]
    exact failsOnly_bind (hf a l s hs) fun u hu => ih (hI a l s u hs hu)

theorem failsOnly_foldlM {f : σ → α → Except ε σ} (hf : ∀ s a, FailsOnly Q (f s a)) (l : List α)
    (s : σ) : FailsOnly Q (l.foldlM f s) :=
  failsOnly_foldlM_induction (fun _ _ => True) (fun a _ s _ => hf s a) (fun _ _ _ _ _ _ => trivial)
    trivial

theorem failsOnly_mapM {f : α → Except ε β} (hf : ∀ a, FailsOnly Q (f a)) (l : List α) :
    FailsOnly Q (l.mapM f) := by
  induction l with
  | nil => exact failsOnly_ok []
  | cons a l ih =>
    rw [List.mapM_cons]
    exact failsOnly_bind (hf a) fun _ _ => failsOnly_bind ih fun _ _ => failsOnly_ok _

end FailsOnly

/-- The runs of a fallible step function all of whose steps meet a condition on the state
before the step and the step's input. -/
inductive Run (step : σ → α → Except ε σ) (C : σ → α → Prop) : σ → List α → σ → Prop
  | nil {s : σ} : Run step C s [] s
  | cons {s t u : σ} {a : α} {l : List α} (hc : C s a) (hs : step s a = .ok t)
      (hr : Run step C t l u) : Run step C s (a :: l) u

namespace Run

variable {step : σ → α → Except ε σ} {C D : σ → α → Prop} {s t u : σ} {l l' : List α} {a : α}

/-- What every step of a run keeps, the run keeps. -/
theorem invariant (I : σ → Prop) (hI : ∀ s a t, I s → C s a → step s a = .ok t → I t)
    (h : Run step C s l t) (hs : I s) : I t := by
  induction h with
  | nil => exact hs
  | cons hc hstep _ ih => exact ih (hI _ _ _ hs hc hstep)

theorem mono (hCD : ∀ s a, C s a → D s a) (h : Run step C s l t) : Run step D s l t := by
  induction h with
  | nil => exact .nil
  | cons hc hstep _ ih => exact .cons (hCD _ _ hc) hstep ih

theorem concat (h : Run step C s l t) (hc : C t a) (hs : step t a = .ok u) :
    Run step C s (l ++ [a]) u := by
  induction h with
  | nil => exact .cons hc hs .nil
  | cons hc' hs' _ ih => exact .cons hc' hs' (ih hc hs)

/-- What every step keeps of the state and of the inputs so far holds at the end of the run. -/
theorem inputs (I : List α → σ → Prop)
    (hI : ∀ done s a t, I done s → C s a → step s a = .ok t → I (done ++ [a]) t)
    (h : Run step C s l t) (hs : I l' s) : I (l' ++ l) t := by
  induction h generalizing l' with
  | nil => rwa [List.append_nil]
  | cons hc hstep _ ih =>
    rw [List.append_cons]
    exact ih (hI _ _ _ _ hs hc hstep)

/-- When another system matches each step by at most one of its own, it has a run that matches the
whole run. -/
theorem simulate {τ β δ : Type} {next : τ → β → Except δ τ} {E : τ → β → Prop} {x : τ}
    (R : List α → σ → List β → τ → Prop)
    (hR : ∀ done s a t made y, R done s made y → C s a → step s a = .ok t →
      R (done ++ [a]) t made y ∨
        ∃ c z, E y c ∧ next y c = .ok z ∧ R (done ++ [a]) t (made ++ [c]) z)
    (h : Run step C s l t) (hs : R [] s [] x) :
    ∃ made y, Run next E x made y ∧ R l t made y := by
  have hstart : ∃ made y, Run next E x made y ∧ R [] s made y :=
    ⟨[], x, .nil, hs⟩
  refine h.inputs (fun done u => ∃ made y, Run next E x made y ∧ R done u made y)
    (fun done u a v hI hc hv => ?_) hstart
  obtain ⟨made, y, hrun, hy⟩ := hI
  rcases hR done u a v made y hy hc hv with hsame | ⟨c, z, he, hz, hmatch⟩
  · exact ⟨made, y, hrun, hsame⟩
  · exact ⟨made ++ [c], z, hrun.concat he hz, hmatch⟩

/-- Inputs all satisfy what the condition says about them alone. -/
theorem of_forall (hl : ∀ a ∈ l, ∀ s, C s a → D s a) (h : Run step C s l t) :
    Run step D s l t := by
  induction h with
  | nil => exact .nil
  | cons hc hstep _ ih =>
    exact .cons (hl _ List.mem_cons_self _ hc) hstep
      (ih fun a ha => hl a (List.mem_cons_of_mem _ ha))

end Run

/-- The end of the run on a list of inputs, if every step meets the condition and succeeds. -/
def runWhile (step : σ → α → Except ε σ) (C : σ → α → Prop) [∀ s a, Decidable (C s a)] :
    σ → List α → Option σ
  | s, [] => some s
  | s, a :: l =>
    if C s a then
      match step s a with
      | .ok t => runWhile step C t l
      | .error _ => none
    else none

theorem run_of_runWhile {step : σ → α → Except ε σ} {C : σ → α → Prop}
    [∀ s a, Decidable (C s a)] {s t : σ} {l : List α} (h : runWhile step C s l = some t) :
    Run step C s l t := by
  induction l generalizing s with
  | nil =>
    cases h
    exact .nil
  | cons a l ih =>
    rw [runWhile] at h
    split at h
    · next hc =>
      cases hs : step s a with
      | error e => simp [hs] at h
      | ok u =>
        rw [hs] at h
        exact .cons hc hs (ih h)
    · cases h

theorem run_iff_foldlM {step : σ → α → Except ε σ} {s t : σ} {l : List α} :
    Run step (fun _ _ => True) s l t ↔ l.foldlM step s = .ok t := by
  constructor
  · intro h
    induction h with
    | nil => rfl
    | cons _ hs _ ih => rw [List.foldlM_cons, hs, ok_bind, ih]
  · induction l generalizing s with
    | nil =>
      intro h
      cases h
      exact .nil
    | cons a l ih =>
      intro h
      rw [List.foldlM_cons] at h
      obtain ⟨u, hu, h⟩ := bind_ok_iff.mp h
      exact .cons trivial hu (ih h)

/-- At some input, this holds of the inputs before it and of it. -/
def Occurs (P : List α → α → Prop) (l : List α) : Prop :=
  ∃ before a, before ++ [a] <+: l ∧ P before a

theorem occurs_concat {P : List α → α → Prop} {l : List α} {a : α} :
    Occurs P (l ++ [a]) ↔ Occurs P l ∨ P l a := by
  constructor
  · rintro ⟨before, c, hprefix, hP⟩
    rcases List.prefix_concat_iff.mp hprefix with heq | hprefix
    · obtain ⟨rfl, hc⟩ := List.append_inj' heq rfl
      cases hc
      exact Or.inr hP
    · exact Or.inl ⟨before, c, hprefix, hP⟩
  · rintro (⟨before, c, hprefix, hP⟩ | hP)
    · exact ⟨before, c, hprefix.trans (List.prefix_append l [a]), hP⟩
    · exact ⟨l, a, List.prefix_rfl, hP⟩

end Runs
