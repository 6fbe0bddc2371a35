import Netcode.Progress
import Netcode.Tunnel

/-! Each direction of a two-way channel is a run of a one-way channel. -/
namespace Netcode.Tunnel

open Encodings Runs Merging

variable {w : FieldSize} {b : Build} {g : GfComplete w} {clock : Side → ℕ → ℤ} {t t' : Tunnel w}
  {s : System w} {i j : Side} {x : Event} {l : List Event}

/-- The data one end is given to send. -/
def Event.committed (i : Side) : Event → List (List Byte)
  | .encoder j c => if j = i then Encoder.committed [c.1] else []
  | _ => []

/-- The position of the packet that leaves an end and reaches the other, if one does. -/
def Event.passed (i : Side) : Event → Option ℕ
  | .pass j k => if j = i then some k else none
  | _ => none

/-- The arguments the assertions of the public interface allow. -/
def Event.Admissible (w : FieldSize) : Event → Prop
  | .encoder _ c => c.1.Admissible w
  | .decoder _ c => c.1.Admissible
  | .pass _ _ => True

instance (w : FieldSize) : (x : Event) → Decidable (x.Admissible w)
  | .encoder _ c => inferInstanceAs (Decidable (c.1.Admissible w))
  | .decoder _ c => inferInstanceAs (Decidable c.1.Admissible)
  | .pass _ _ => inferInstanceAs (Decidable True)

theorem committed_oneWay (t : Tunnel w) (i : Side) (x : Event) :
    (x.oneWay t i).elim [] Netcode.Event.committed = x.committed i := by
  cases x with
  | encoder j c =>
    rw [Event.oneWay, Event.committed]
    split <;> rfl
  | decoder j c =>
    rw [Event.oneWay]
    split <;> rfl
  | pass j k =>
    rw [Event.oneWay]
    cases (t.peer j).flow[k]? with
    | none => rfl
    | some p =>
      rw [Option.bind_some]
      split
      · split <;> rfl
      · split <;> rfl

/-- What reaches the decoder is a source or a repair of the flow. -/
theorem position_oneWay {y : Netcode.Event} {n : ℕ} (hy : x.oneWay t i = some y)
    (hn : y.position = some n) : ∃ k p, x.passed i = some k ∧ (t.peer i).flow[k]? = some p ∧
      p.isData = true ∧ n = rank WirePacket.isData (t.peer i).flow k := by
  cases x with
  | encoder j c =>
    rw [Event.oneWay] at hy
    split at hy
    · cases hy
      cases hn
    · cases hy
  | decoder j c =>
    rw [Event.oneWay] at hy
    split at hy
    · cases hy
      cases hn
    · cases hy
  | pass j k =>
    obtain ⟨p, hp, hsome⟩ := Option.bind_eq_some_iff.mp hy
    split at hsome
    · next hdata =>
      split at hsome
      · next hj =>
        obtain rfl := Option.some.inj hsome
        cases hn
        exact ⟨k, p, if_pos hj, hj ▸ hp, hdata, by rw [hj]⟩
      · cases hsome
    · split at hsome
      · obtain rfl := Option.some.inj hsome
        cases hn
      · cases hsome

theorem admissible_oneWay {y : Netcode.Event} (hy : x.oneWay t i = some y)
    (hx : x.Admissible w) : y.Admissible w := by
  cases x with
  | encoder j c =>
    rw [Event.oneWay] at hy
    split at hy
    · cases hy
      exact hx
    · cases hy
  | decoder j c =>
    rw [Event.oneWay] at hy
    split at hy
    · cases hy
      exact hx
    · cases hy
  | pass j k =>
    obtain ⟨p, -, hsome⟩ := Option.bind_eq_some_iff.mp hy
    split at hsome
    · split at hsome
      · obtain rfl := Option.some.inj hsome
        trivial
      · cases hsome
    · split at hsome
      · obtain rfl := Option.some.inj hsome
        trivial
      · cases hsome

theorem grows_step (h : t.step clock b g x = .ok t') (i : Side) :
    ∃ later, (t'.peer i).flow = (t.peer i).flow ++ later := by
  have hset : ∀ j (p : Peer w), (∃ later, p.flow = (t.peer j).flow ++ later) →
      ∃ later, ((t.set j p).peer i).flow = (t.peer i).flow ++ later := by
    intro j p hp
    rw [peer_set]
    split
    · next hi => rwa [hi]
    · exact ⟨[], (List.append_nil _).symm⟩
  cases x with
  | encoder j c =>
    simp only [step, bind_ok_iff, Except.ok.injEq] at h
    obtain ⟨u, -, rfl⟩ := h
    exact hset j _ ⟨_, rfl⟩
  | decoder j c =>
    simp only [step, bind_ok_iff, Except.ok.injEq] at h
    obtain ⟨v, -, rfl⟩ := h
    exact hset j _ ⟨_, rfl⟩
  | pass j k =>
    cases hp : (t.peer j).flow[k]? with
    | none =>
      simp only [step, hp, Except.ok.injEq] at h
      exact ⟨[], by rw [← h, List.append_nil]⟩
    | some p =>
      rcases step_pass hp h with ⟨-, v, -, rfl⟩ | ⟨-, u, -, rfl⟩
      · exact hset _ _ ⟨_, rfl⟩
      · exact hset _ _ ⟨_, rfl⟩

/-- Events of both ends, and those of the one-way system they are in one direction. -/
structure Mirrors (t : Tunnel w) (i : Side) (l : List Event) (m : List Netcode.Event)
    (s : System w) : Prop where
  merged : t.Merged
  views : t.Views i s
  committed : m.flatMap Netcode.Event.committed = l.flatMap (Event.committed i)
  passed : ∀ n ∈ positions m, ∃ k ∈ l.filterMap (Event.passed i),
    ∃ p, (t.peer i).flow[k]? = some p ∧ p.isData = true ∧
      n = rank WirePacket.isData (t.peer i).flow k
  fifo : (l.filterMap (Event.passed i)).Pairwise (· < ·) → (positions m).Pairwise (· < ·)
  admissible : (∀ x ∈ l, x.Admissible w) → ∀ y ∈ m, y.Admissible w

theorem mirrors_initial (inOrder : Side → Bool) : (initial clock inOrder : Tunnel w).Mirrors i [] []
    (System.initial (clock i.other) (inOrder i.other)) := by
  refine ⟨fun j => ?_, ?_, rfl, fun n hn => absurd hn List.not_mem_nil, fun _ => .nil,
    fun _ y hy => absurd hy List.not_mem_nil⟩
  · cases j <;> exact ⟨rfl, rfl⟩
  · cases i <;> exact ⟨rfl, rfl⟩

theorem Mirrors.grows (h : t.step clock b g x = .ok t') {m : List Netcode.Event}
    (hI : t.Mirrors i l m s) (n : ℕ) (hn : n ∈ positions m) :
    ∃ k ∈ l.filterMap (Event.passed i), ∃ p, (t'.peer i).flow[k]? = some p ∧ p.isData = true ∧
      n = rank WirePacket.isData (t'.peer i).flow k := by
  obtain ⟨k, hk, p, hp, hdata, rfl⟩ := hI.passed n hn
  obtain ⟨later, hlater⟩ := grows_step h i
  have hlt := (List.getElem?_eq_some_iff.mp hp).1
  refine ⟨k, hk, p, ?_, hdata, ?_⟩
  · rw [hlater, List.getElem?_append_left hlt, hp]
  · rw [hlater, rank_append hlt.le]

theorem committed_concat (l : List Event) (x : Event) (i : Side) :
    (l ++ [x]).flatMap (Event.committed i) = l.flatMap (Event.committed i) ++ x.committed i := by
  rw [List.flatMap_append, List.flatMap_singleton]

theorem passed_concat (l : List Event) (x : Event) (i : Side) :
    (l ++ [x]).filterMap (Event.passed i) =
      l.filterMap (Event.passed i) ++ (x.passed i).toList := by
  rw [List.filterMap_append]
  cases hx : x.passed i <;> simp [hx]

/-- What an event seen in the direction adds there. -/
theorem Mirrors.next {m : List Netcode.Event} {y : Netcode.Event} (hI : t.Mirrors i l m s)
    (hy : x.oneWay t i = some y) :
    (m ++ [y]).flatMap Netcode.Event.committed = (l ++ [x]).flatMap (Event.committed i) ∧
    (((l ++ [x]).filterMap (Event.passed i)).Pairwise (· < ·) →
      (positions (m ++ [y])).Pairwise (· < ·)) ∧
    ((∀ z ∈ l ++ [x], z.Admissible w) → ∀ z ∈ m ++ [y], z.Admissible w) := by
  refine ⟨?_, fun hf => ?_, fun hl z hz => ?_⟩
  · have hsome := committed_oneWay t i x
    rw [hy, Option.elim_some] at hsome
    rw [committed_concat, ← hsome, List.flatMap_append, List.flatMap_singleton, hI.committed]
  · rw [passed_concat, List.pairwise_append] at hf
    rw [System.positions_concat, List.pairwise_append]
    refine ⟨hI.fifo hf.1, ?_, fun n hn n' hn' => ?_⟩
    · cases y.position with
      | none => exact .nil
      | some n => exact List.pairwise_singleton _ n
    · obtain ⟨k, hk, p, hp, hdata, rfl⟩ := hI.passed n hn
      obtain ⟨k', p', hk', -, -, rfl⟩ := position_oneWay hy (Option.mem_toList.mp hn')
      exact rank_lt_rank (hf.2.2 k hk k' (by rw [hk']; exact List.mem_singleton_self k')) hp hdata
  · rcases List.mem_append.mp hz with hz | hz
    · exact hI.admissible (fun z hz => hl z (List.mem_append_left _ hz)) z hz
    · obtain rfl := List.mem_singleton.mp hz
      exact admissible_oneWay hy (hl x (List.mem_append_right _ (List.mem_singleton_self x)))

/-- One more event is seen in the direction, or none. -/
theorem mirrors_step (h : t.step clock b g x = .ok t') {m : List Netcode.Event}
    (hI : t.Mirrors i l m s) : (x.oneWay t i = none ∧ t'.Mirrors i (l ++ [x]) m s) ∨
      ∃ y s', x.oneWay t i = some y ∧ s.step (clock i.other) b g y = .ok s' ∧
        t'.Mirrors i (l ++ [x]) (m ++ [y]) s' := by
  have hmerged := merged_step hI.merged h
  rcases step_oneWay hI.merged hI.views h with ⟨hx, hviews⟩ | ⟨y, s', hx, hstep, hviews⟩
  · refine Or.inl ⟨hx, hmerged, hviews, ?_, fun n hn => ?_, fun hf => hI.fifo ?_,
      fun hl => hI.admissible fun z hz => hl z (List.mem_append_left _ hz)⟩
    · have hnone := committed_oneWay t i x
      rw [hx, Option.elim_none] at hnone
      rw [committed_concat, ← hnone, List.append_nil, hI.committed]
    · obtain ⟨k, hk, hrest⟩ := hI.grows h n hn
      exact ⟨k, passed_concat l x i ▸ List.mem_append_left _ hk, hrest⟩
    · rw [passed_concat] at hf
      exact (List.pairwise_append.mp hf).1
  · obtain ⟨hcommitted, hfifo, hadmissible⟩ := hI.next hx
    refine Or.inr ⟨y, s', hx, hstep, hmerged, hviews, hcommitted, fun n hn => ?_, hfifo,
      hadmissible⟩
    rw [System.positions_concat, List.mem_append] at hn
    rcases hn with hn | hn
    · obtain ⟨k, hk, hrest⟩ := hI.grows h n hn
      exact ⟨k, passed_concat l x i ▸ List.mem_append_left _ hk, hrest⟩
    · obtain ⟨k, p, hk, hp, hdata, rfl⟩ := position_oneWay hx (Option.mem_toList.mp hn)
      obtain ⟨later, hlater⟩ := grows_step h i
      have hlt := (List.getElem?_eq_some_iff.mp hp).1
      refine ⟨k, ?_, p, ?_, hdata, ?_⟩
      · rw [passed_concat, hk]
        exact List.mem_append_right _ (List.mem_singleton_self k)
      · rw [hlater, List.getElem?_append_left hlt, hp]
      · rw [hlater, rank_append hlt.le]

/-- Each direction of a two-way run is seen as a run of the one-way system. -/
theorem run_mirrors {C : Tunnel w → Event → Prop} {D : System w → Netcode.Event → Prop}
    {inOrder : Side → Bool} (i : Side)
    (hCD : ∀ t s x y, t.Views i s → C t x → x.oneWay t i = some y → D s y)
    (h : Run (step clock b g) C (initial clock inOrder) l t) :
    ∃ m s, Run (System.step (clock i.other) b g) D
      (System.initial (clock i.other) (inOrder i.other)) m s ∧ t.Mirrors i l m s := by
  refine h.simulate (fun done t m s => t.Mirrors i done m s)
    (fun done t x t' m s hI hc hs => ?_) (mirrors_initial inOrder)
  rcases mirrors_step hs hI with ⟨-, hsame⟩ | ⟨y, s', hy, hstep, hnext⟩
  · exact Or.inl hsame
  · exact Or.inr ⟨y, s', hCD t s x y hI.views hc hy, hstep, hnext⟩

/-- Each direction of a two-way run is a run of the one-way system: it carries the data its sender
was given, whatever acknowledgements travel in the same flow, and keeps the order of the channel. -/
theorem run_oneWay {C : Tunnel w → Event → Prop} {D : System w → Netcode.Event → Prop}
    {inOrder : Side → Bool} (i : Side)
    (hCD : ∀ t s x y, t.Views i s → C t x → x.oneWay t i = some y → D s y)
    (h : Run (step clock b g) C (initial clock inOrder) l t) :
    ∃ m s, Run (System.step (clock i.other) b g) D
        (System.initial (clock i.other) (inOrder i.other)) m s ∧
      s.encoder = (t.peer i).encoder ∧ s.decoder = (t.peer i.other).decoder ∧
      m.flatMap Netcode.Event.committed = l.flatMap (Event.committed i) ∧
      ((l.filterMap (Event.passed i)).Pairwise (· < ·) → (positions m).Pairwise (· < ·)) := by
  obtain ⟨m, s, hrun, hI⟩ := run_mirrors i hCD h
  exact ⟨m, s, hrun, hI.views.encoder, hI.views.decoder, hI.committed, hI.fifo⟩

end Netcode.Tunnel
