import Mathlib.Data.List.Basic

/-! A list that merges two others: the elements that meet a predicate, and those that do not.
A position in the whole is a position in one of the parts. -/
namespace Merging

variable {α : Type*} {p : α → Bool} {l l' : List α} {a a' : α} {j k : ℕ}

/-- The position an element takes among those that meet the predicate. -/
def rank (p : α → Bool) (l : List α) (k : ℕ) : ℕ := (l.take k).countP p

theorem getElem?_filter_rank (h : l[k]? = some a) (ha : p a = true) :
    (l.filter p)[rank p l k]? = some a := by
  induction l generalizing k with
  | nil => cases h
  | cons c l ih =>
    cases k with
    | zero =>
      obtain rfl : c = a := Option.some.inj h
      rw [List.filter_cons_of_pos ha]
      rfl
    | succ k =>
      have htail := ih h
      cases hc : p c with
      | false =>
        have hrank : rank p (c :: l) (k + 1) = rank p l k :=
          List.countP_cons_of_neg (by rw [hc]; exact Bool.false_ne_true)
        rw [List.filter_cons_of_neg (by rw [hc]; exact Bool.false_ne_true), hrank]
        exact htail
      | true =>
        have hrank : rank p (c :: l) (k + 1) = rank p l k + 1 := List.countP_cons_of_pos hc
        rw [List.filter_cons_of_pos hc, hrank]
        exact htail

/-- What follows changes no position. -/
theorem rank_append (h : k ≤ l.length) : rank p (l ++ l') k = rank p l k := by
  rw [rank, rank, List.take_append_of_le_length h]

theorem rank_succ (h : l[k]? = some a) (ha : p a = true) : rank p l (k + 1) = rank p l k + 1 := by
  rw [rank, List.take_add_one, h, Option.toList_some, List.countP_append,
    List.countP_singleton, if_pos ha, rank]

theorem rank_mono (h : j ≤ k) : rank p l j ≤ rank p l k :=
  List.Sublist.countP_le (List.take_sublist_take_left h)

/-- The parts keep the order of the whole. -/
theorem rank_lt_rank (hjk : j < k) (h : l[j]? = some a) (ha : p a = true) :
    rank p l j < rank p l k := by
  have hsucc := rank_succ h ha
  have hmono : rank p l (j + 1) ≤ rank p l k := rank_mono hjk
  omega

end Merging
