import Mathlib

/-! loss/: which packets the models of losses of the proxy lose. -/
namespace Netcode.Loss

/-- Whether a packet should be lost, and the model for the next one. -/
abbrev Model (σ : Type) := σ → Bool × σ

variable {σ : Type}

/-- The model after some packets. -/
def after (lose : Model σ) (s : σ) (n : ℕ) : σ := (fun s => (lose s).2)^[n] s

/-- Whether the packet after some others should be lost. -/
def lost (lose : Model σ) (s : σ) (n : ℕ) : Bool := (lose (after lose s n)).1

theorem after_succ (lose : Model σ) (s : σ) (n : ℕ) :
    after lose s (n + 1) = (lose (after lose s n)).2 := Function.iterate_succ_apply' _ _ _

/-- The numbers between 1 and 100 that a generator gives. -/
abbrev Draws := ℕ → Finset.Icc 1 100

/-- The generator once a number was drawn. -/
def Draws.next (gen : Draws) : Draws := fun n => gen (n + 1)

inductive Burst.State
  | good
  | bad
deriving DecidableEq

structure Burst where
  state : Burst.State
  gen : Draws
  good : ℕ
  bad : ℕ

def Burst.lose : Model Burst := fun l =>
  match l.state with
  | .good =>
    if l.gen 0 < l.good then (false, { l with gen := l.gen.next })
    else (true, { l with gen := l.gen.next, state := .bad })
  | .bad =>
    if l.gen 0 < l.bad then (true, { l with gen := l.gen.next })
    else (false, { l with gen := l.gen.next, state := .good })

structure Uniform where
  gen : Draws
  threshold : ℕ

def Uniform.lose : Model Uniform := fun l =>
  (decide (l.threshold < l.gen 0), { l with gen := l.gen.next })

/-- The lines left in a file of losses. -/
structure Stream where
  lines : List (List Char)

def Stream.lose : Model Stream := fun l =>
  match l.lines with
  | [] => (false, l)
  | line :: lines => (decide (line.head? ≠ some '0'), ⟨lines⟩)

theorem lose_burst (l : Burst) : (Burst.lose l).1 = (match l.state with
    | .good => !decide (l.gen 0 < l.good)
    | .bad => decide (l.gen 0 < l.bad)) ∧
    (Burst.lose l).2 = { l with
      state := if (Burst.lose l).1 then .bad else .good
      gen := l.gen.next } := by
  obtain ⟨state, gen, good, bad⟩ := l
  cases state with
  | good => by_cases h : gen 0 < good <;> simp [Burst.lose, h]
  | bad => by_cases h : gen 0 < bad <;> simp [Burst.lose, h]

theorem after_burst (l : Burst) (n : ℕ) : ∃ state,
    after Burst.lose l n = ⟨state, fun k => l.gen (n + k), l.good, l.bad⟩ := by
  induction n with
  | zero => exact ⟨l.state, by simp [after]⟩
  | succ n ih =>
    obtain ⟨state, hstate⟩ := ih
    have hgen : Draws.next (fun k => l.gen (n + k)) = fun k => l.gen (n + 1 + k) := by
      funext k
      exact congrArg l.gen (by omega)
    rw [after_succ, (lose_burst _).2, hstate]
    exact ⟨_, by rw [hgen]⟩

/-- A packet after a lost one is lost below the second threshold, and one after a forwarded one from
the first threshold on. -/
theorem lost_burst_succ (l : Burst) (n : ℕ) : lost Burst.lose l (n + 1) =
    if lost Burst.lose l n then decide (l.gen (n + 1) < l.bad)
    else !decide (l.gen (n + 1) < l.good) := by
  obtain ⟨state, hstate⟩ := after_burst l n
  rw [lost, after_succ, (lose_burst _).1, (lose_burst (after Burst.lose l n)).2, ← lost, hstate]
  cases lost Burst.lose l n with
  | true => rfl
  | false => rfl

theorem lost_uniform (l : Uniform) (n : ℕ) :
    lost Uniform.lose l n = decide (l.threshold < l.gen n) := by
  have hafter : after Uniform.lose l n = ⟨fun k => l.gen (n + k), l.threshold⟩ := by
    induction n with
    | zero => simp [after]
    | succ n ih =>
      have hgen : Draws.next (fun k => l.gen (n + k)) = fun k => l.gen (n + 1 + k) := by
        funext k
        exact congrArg l.gen (by omega)
      rw [after_succ, ih, Uniform.lose]
      dsimp only
      rw [hgen]
  rw [lost, hafter]
  rfl

/-- A packet without a line of its own is not lost. -/
theorem lost_stream (l : Stream) (n : ℕ) : lost Stream.lose l n =
    (l.lines[n]?).any fun line => decide (line.head? ≠ some '0') := by
  have hafter : after Stream.lose l n = ⟨l.lines.drop n⟩ := by
    induction n with
    | zero => rfl
    | succ n ih =>
      rw [after_succ, ih, Stream.lose]
      cases hdrop : l.lines.drop n with
      | nil => rw [← List.drop_drop, hdrop]; rfl
      | cons line lines => rw [← List.drop_drop, hdrop]; rfl
  rw [lost, hafter, Stream.lose, ← List.head?_drop]
  cases l.lines.drop n with
  | nil => rfl
  | cons line lines => rfl

end Netcode.Loss
