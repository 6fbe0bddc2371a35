import Netcode.Loss

/-! One direction of the proxy: what it received, what it forwarded and what has arrived. -/
namespace Netcode

variable {σ : Type}

/-- One direction of the proxy. The packets it received and forwarded are known by their positions
in the flow. -/
structure Link (σ : Type) where
  loss : σ
  losses : ℕ
  total : ℕ
  received : List ℕ
  forwarded : List ℕ
  /-- How many of the forwarded packets have arrived or never will. -/
  arrived : ℕ

namespace Link

variable {lose : Loss.Model σ} {l : Link σ} {k size : ℕ}

def initial (loss : σ) : Link σ := ⟨loss, 0, 0, [], [], 0⟩

/-- Forward or drop a packet, only if one is received. -/
def listen (lose : Loss.Model σ) (k size : ℕ) (l : Link σ) : Link σ :=
  if size = 0 then l
  else
    let r := lose l.loss
    let l := { l with loss := r.2, total := l.total + 1, received := l.received ++ [k] }
    if r.1 then { l with losses := l.losses + 1 } else { l with forwarded := l.forwarded ++ [k] }

/-- The packets received that the model of losses spares. -/
def spared (lose : Loss.Model σ) (loss : σ) (received : List ℕ) : List ℕ :=
  (received.zipIdx.filter fun p => !Loss.lost lose loss p.2).map Prod.fst

/-- What a direction counts and forwards is what its model of losses decides. -/
structure Accounts (lose : Loss.Model σ) (loss : σ) (l : Link σ) : Prop where
  state : l.loss = Loss.after lose loss l.total
  received : l.received.length = l.total
  forwarded : l.forwarded = spared lose loss l.received
  losses : l.losses + l.forwarded.length = l.total

theorem accounts_initial (loss : σ) : (initial loss).Accounts lose loss := ⟨rfl, rfl, rfl, rfl⟩

theorem accounts_listen {loss : σ} (h : l.Accounts lose loss) :
    (l.listen lose k size).Accounts lose loss := by
  rw [listen]
  split
  · exact h
  · have hlost : (lose l.loss).1 = Loss.lost lose loss l.total := by rw [Loss.lost, ← h.state]
    have hspared : spared lose loss (l.received ++ [k]) = l.forwarded ++
        if Loss.lost lose loss l.total then [] else [k] := by
      rw [spared, List.zipIdx_append, List.filter_append, List.map_append, ← spared, ← h.forwarded,
        h.received, Nat.zero_add]
      cases hk : Loss.lost lose loss l.total <;> simp [hk]
    have hafter : (lose l.loss).2 = Loss.after lose loss (l.total + 1) := by
      rw [Loss.after_succ, ← h.state]
    have hreceived : (l.received ++ [k]).length = l.total + 1 := by
      rw [List.length_append, h.received]
      rfl
    dsimp only
    rw [hlost]
    cases hk : Loss.lost lose loss l.total with
    | true =>
      rw [hk, if_pos rfl, List.append_nil] at hspared
      exact ⟨hafter, hreceived, hspared.symm, by have := h.losses; simp only [if_true]; omega⟩
    | false =>
      rw [hk, if_neg Bool.false_ne_true] at hspared
      refine ⟨hafter, hreceived, hspared.symm, ?_⟩
      have := h.losses
      have hlen : (l.forwarded ++ [k]).length = l.forwarded.length + 1 := List.length_append
      simp only [Bool.false_eq_true, if_false]
      omega

/-- A packet received is forwarded after those before it, or is not. -/
theorem listen_cases (lose : Loss.Model σ) (k size : ℕ) (l : Link σ) :
    (l.listen lose k size).arrived = l.arrived ∧
    ((l.listen lose k size).received = l.received ∧
        (l.listen lose k size).forwarded = l.forwarded ∨
      (l.listen lose k size).received = l.received ++ [k] ∧
        ((l.listen lose k size).forwarded = l.forwarded ∨
          (l.listen lose k size).forwarded = l.forwarded ++ [k])) := by
  rw [listen]
  dsimp only
  split_ifs
  · exact ⟨rfl, Or.inl ⟨rfl, rfl⟩⟩
  · exact ⟨rfl, Or.inr ⟨rfl, Or.inl rfl⟩⟩
  · exact ⟨rfl, Or.inr ⟨rfl, Or.inr rfl⟩⟩

/-- Packets are received, forwarded and passed on in the order of the flow. -/
structure Ordered (l : Link σ) (ks : List ℕ) : Prop where
  received : l.received.Pairwise (· < ·)
  forwarded : l.forwarded.Sublist l.received
  passed : ∀ k ∈ ks, ∃ n < l.arrived, l.forwarded[n]? = some k
  fifo : ks.Pairwise (· < ·)

variable {ks : List ℕ} {n : ℕ}

theorem ordered_initial (loss : σ) : (initial loss).Ordered [] :=
  ⟨.nil, .slnil, fun _ hk => absurd hk List.not_mem_nil, .nil⟩

theorem ordered_listen (hI : l.Ordered ks) (hk : ∀ j ∈ l.received, j < k) :
    (l.listen lose k size).Ordered ks := by
  have hconcat : (l.received ++ [k]).Pairwise (· < ·) := by
    rw [List.pairwise_append]
    refine ⟨hI.received, List.pairwise_singleton _ k, fun j hj k' hk' => ?_⟩
    rw [List.mem_singleton.mp hk']
    exact hk j hj
  obtain ⟨harrived, ⟨hr, hf⟩ | ⟨hr, hf | hf⟩⟩ := listen_cases lose k size l
  · exact ⟨hr ▸ hI.received, hr ▸ hf ▸ hI.forwarded, harrived ▸ hf ▸ hI.passed, hI.fifo⟩
  · refine ⟨hr ▸ hconcat, ?_, harrived ▸ hf ▸ hI.passed, hI.fifo⟩
    rw [hr, hf]
    exact hI.forwarded.trans (List.sublist_append_left _ _)
  · refine ⟨hr ▸ hconcat, ?_, fun p hp => ?_, hI.fifo⟩
    · rw [hr, hf]
      exact hI.forwarded.append (List.Sublist.refl _)
    · obtain ⟨n, hn, hp⟩ := hI.passed p hp
      rw [harrived, hf]
      exact ⟨n, hn, by rw [List.getElem?_append_left (List.getElem?_eq_some_iff.mp hp).1, hp]⟩

theorem ordered_arrive (hI : l.Ordered ks) (hn : l.arrived ≤ n)
    (hk : l.forwarded[n]? = some k) : Ordered { l with arrived := n + 1 } (ks ++ [k]) := by
  refine ⟨hI.received, hI.forwarded, fun p hp => ?_, ?_⟩
  · rcases List.mem_append.mp hp with hp | hp
    · obtain ⟨m, hm, hp⟩ := hI.passed p hp
      exact ⟨m, by dsimp only; omega, hp⟩
    · rw [List.mem_singleton.mp hp]
      exact ⟨n, Nat.lt_succ_self n, hk⟩
  · rw [List.pairwise_append]
    refine ⟨hI.fifo, List.pairwise_singleton _ k, fun p hp k' hk' => ?_⟩
    obtain ⟨m, hm, hp⟩ := hI.passed p hp
    obtain ⟨hlt, hpk⟩ := List.getElem?_eq_some_iff.mp hp
    obtain ⟨hlt', hkk⟩ := List.getElem?_eq_some_iff.mp hk
    have hsorted := (hI.received.sublist hI.forwarded)
    rw [List.mem_singleton.mp hk', ← hpk, ← hkk]
    exact List.pairwise_iff_getElem.mp hsorted m n hlt hlt' (by omega)

end Link

end Netcode
