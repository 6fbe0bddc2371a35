import Netcode.Streaming
import Netcode.Tunnel.Directions

/-! Two-way channels that lose packets but keep their order: each user is given what the other one
committed, and nothing fails. -/
namespace Netcode.Tunnel

open Encodings Runs Merging

variable {w : FieldSize} {b : Build} {g : GfComplete w} {clock : Side → ℕ → ℤ} {t t' : Tunnel w}
  {s : System w} {i j : Side} {x : Event} {l : List Event}

/-- One direction, seen alone. -/
def direction (t : Tunnel w) (i : Side) : System w :=
  ⟨(t.peer i).encoder, (t.peer i.other).decoder, []⟩

/-- In both directions, the step is orderly. -/
def Orderly (b : Build) (g : GfComplete w) (t : Tunnel w) (x : Event) : Prop :=
  ∀ i y, x.oneWay t i = some y → (t.direction i).Orderly b g y

theorem orderly_views {y : Netcode.Event} (hs : t.Views i s) (hc : t.Orderly b g x)
    (hy : x.oneWay t i = some y) : s.Orderly b g y := by
  obtain ⟨encoder, decoder, removed⟩ := s
  obtain ⟨rfl, rfl⟩ := hs
  have horderly := hc i y hy
  cases y <;>
    exact ⟨horderly.room, horderly.near, horderly.sent, horderly.spares⟩

/-- In both directions, the step is orderly, and full decoding succeeds if it is attempted. -/
def orderly (b : Build) (t : Tunnel w) (x : Event) : Bool :=
  [Side.left, Side.right].all fun i => (x.oneWay t i).all fun y => (t.direction i).orderly b y

theorem orderly_spec (h : t.orderly b x = true) : t.Orderly b g x := by
  intro i y hy
  have hi := List.all_eq_true.mp h i (by cases i <;> decide)
  rw [hy, Option.all_some] at hi
  exact System.orderly_spec hi

/-- Fewer than 2^32 sources and repairs each way, and packets are received in the order they were
sent in. -/
structure Bounded (l : List Event) (t : Tunnel w) : Prop where
  sources : ∀ i, (l.flatMap (Event.committed i)).length < 2 ^ 32
  repairs : ∀ i, (Encoder.repairsOf (t.peer i).encoder.sent).length < 2 ^ 32
  fifo : ∀ i, (l.filterMap (Event.passed i)).Pairwise (· < ·)

theorem Bounded.direction {m : List Netcode.Event} (hb : Bounded l t) (hI : t.Mirrors i l m s) :
    System.Bounded m s :=
  ⟨hI.committed ▸ hb.sources i, hI.views.encoder ▸ hb.repairs i, hI.fifo (hb.fifo i)⟩

/-- What the user of one direction is given. -/
theorem Mirrors.given {inOrder : Side → Bool} {m : List Netcode.Event} (hI : t.Mirrors i l m s)
    (hw : w ≠ .w32) (hD : ∀ i, ∀ d ∈ l.flatMap (Event.committed i), Sendable w d)
    (hb : Bounded l t) (h : Run (System.step (clock i.other) b g) (System.Orderly b g)
      (System.initial (clock i.other) (inOrder i.other)) m s) :
    (∀ src ∈ (t.peer i.other).decoder.data,
      src.Intact (Encoder.dataOf (l.flatMap (Event.committed i)))) ∧
    ((t.peer i.other).decoder.data.map DecoderSource.id).Nodup ∧
    (inOrder i.other = true →
      (t.peer i.other).decoder.data.map (fun src => src.symbol.take src.symbolSize) =
        (l.flatMap (Event.committed i)).take (t.peer i.other).decoder.data.length) := by
  have hsend := hI.committed ▸ hD i
  have hintact := System.intact_fifo hw hsend (hb.direction hI) h
  have hnodup := (System.once_fifo (hb.direction hI) h).1
  rw [hI.committed, hI.views.decoder] at hintact
  rw [hI.views.decoder] at hnodup
  refine ⟨hintact, hnodup, fun hio => ?_⟩
  rw [hio] at h
  have hstream := System.prefix_fifo hw hsend (hb.direction hI) h
  rwa [hI.committed, hI.views.decoder] at hstream

/-- Over a two-way channel that loses packets but keeps their order, each user is given the data the
other one committed, each at most once, and without a gap by an in-order decoder. -/
theorem data_both {inOrder : Side → Bool} (hw : w ≠ .w32)
    (hD : ∀ i, ∀ d ∈ l.flatMap (Event.committed i), Sendable w d) (hb : Bounded l t)
    (h : Run (step clock b g) (Orderly b g) (initial clock inOrder) l t) (i : Side) :
    (∀ src ∈ (t.peer i.other).decoder.data,
      src.Intact (Encoder.dataOf (l.flatMap (Event.committed i)))) ∧
    ((t.peer i.other).decoder.data.map DecoderSource.id).Nodup ∧
    (inOrder i.other = true →
      (t.peer i.other).decoder.data.map (fun src => src.symbol.take src.symbolSize) =
        (l.flatMap (Event.committed i)).take (t.peer i.other).decoder.data.length) := by
  obtain ⟨m, s, hrun, hI⟩ := run_mirrors i (fun t s x y => orderly_views) h
  exact hI.given hw hD hb hrun

/-- The first source of the left end is lost, and decoded from a repair. Then the right end
acknowledges both sources, behind a source of its own. -/
def exchangeEvents : List Event :=
  [.data .left [1], .data .left [2], .generateRepair .left, .data .right [3], .pass .left 1,
    .pass .left 2, .generateAck .right, .pass .right 0, .pass .right 1, .data .left [4]]

theorem data_both_exchangeEvents : ∃ t,
    runWhile (step (fun _ _ => 0) .release gf16) (fun t x => t.orderly .release x = true)
      (initial (fun _ _ => 0) fun _ => true) exchangeEvents = some t ∧
    (t.peer .right).decoder.data.map DecoderSource.id = [0, 1] ∧
    (t.peer .left).decoder.data.map DecoderSource.id = [0] ∧
    (t.peer .left).encoder.sources.map EncoderSource.id = [2] ∧
    (t.peer .right).decoder.data.map (fun src => src.symbol.take src.symbolSize) =
      [[1], [2]] := by
  have hrun : (runWhile (step (fun _ _ => 0) .release gf16)
      (fun t x => t.orderly .release x = true) (initial (fun _ _ => 0) fun _ => true)
      exchangeEvents).any (fun t => decide (
        (t.peer .right).decoder.data.map DecoderSource.id = [0, 1] ∧
        (t.peer .left).decoder.data.map DecoderSource.id = [0] ∧
        (t.peer .left).encoder.sources.map EncoderSource.id = [2] ∧
        (Encoder.repairsOf (t.peer .left).encoder.sent).length < 2 ^ 32 ∧
        (Encoder.repairsOf (t.peer .right).encoder.sent).length < 2 ^ 32)) = true := by
    decide +kernel
  obtain ⟨t, ht, hd⟩ := (Option.any_eq_true _ _).mp hrun
  obtain ⟨hright, hleft, hwindow, hrepairs, hrepairs'⟩ := of_decide_eq_true hd
  have horderly := (run_of_runWhile ht).mono (D := Orderly .release gf16)
    fun u x hc => orderly_spec hc
  have hbounded : Bounded exchangeEvents t :=
    ⟨fun i => by cases i <;> decide, fun i => by cases i <;> assumption,
      fun i => by cases i <;> decide⟩
  obtain ⟨-, -, hstream⟩ := data_both (by decide) (fun i => by cases i <;> decide) hbounded
    horderly .left
  have hlen : (t.peer .right).decoder.data.length = 2 := by
    have := congrArg List.length hright
    rwa [List.length_map] at this
  have htwo := hstream rfl
  rw [show Side.left.other = .right from rfl, hlen] at htwo
  exact ⟨t, ht, hright, hleft, hwindow, htwo⟩

/-- What the left end sends is a run of its own: source 1, then the repair, reach the right end, and
both sources are acknowledged. -/
theorem run_oneWay_exchangeEvents : ∃ t m s,
    runWhile (step (fun _ _ => 0) .release gf16) (fun t x => t.orderly .release x = true)
      (initial (fun _ _ => 0) fun _ => true) exchangeEvents = some t ∧
    Run (System.step (fun _ => 0) .release gf16) (System.Orderly .release gf16)
      (System.initial (fun _ => 0) true) m s ∧
    m.flatMap Netcode.Event.committed = [[1], [2], [4]] ∧
    s.encoder.sources.map EncoderSource.id = [2] ∧
    s.decoder.data.map DecoderSource.id = [0, 1] := by
  have hrun : (runWhile (step (fun _ _ => 0) .release gf16)
      (fun t x => t.orderly .release x = true) (initial (fun _ _ => 0) fun _ => true)
      exchangeEvents).any (fun t => decide (
        (t.peer .left).encoder.sources.map EncoderSource.id = [2] ∧
        (t.peer .right).decoder.data.map DecoderSource.id = [0, 1])) = true := by
    decide +kernel
  obtain ⟨t, ht, hd⟩ := (Option.any_eq_true _ _).mp hrun
  obtain ⟨hwindow, hright⟩ := of_decide_eq_true hd
  have horderly := (run_of_runWhile ht).mono (D := Orderly .release gf16)
    fun u x hc => orderly_spec hc
  obtain ⟨m, s, hm, hencoder, hdecoder, hcommitted, -⟩ := run_oneWay .left
    (D := System.Orderly .release gf16) (fun t s x y => orderly_views) horderly
  exact ⟨t, m, s, ht, hm, hcommitted, hencoder ▸ hwindow, hdecoder ▸ hright⟩

/-- Repairs are requested only from a window that is not empty. -/
def Event.Requests (t : Tunnel w) (x : Event) : Prop :=
  ∀ i c, x = .encoder i c → c.1 = .generateRepair → (t.peer i).encoder.sources ≠ []

/-- What the next event of a direction does there. -/
theorem returns_oneWay {inOrder : Side → Bool} {y : Netcode.Event} (hw : w ≠ .w32)
    (hD : ∀ i, ∀ d ∈ (l ++ [x]).flatMap (Event.committed i), Sendable w d)
    (hl : ∀ y ∈ l ++ [x], y.Admissible w) (hb : Bounded l t)
    (hfifo : ∀ i, ((l ++ [x]).filterMap (Event.passed i)).Pairwise (· < ·))
    (h : Run (step clock b g) (Orderly b g) (initial clock inOrder) l t) (hc : t.Orderly b g x)
    (hrepair : x.Requests t) (hy : x.oneWay t i = some y) :
    ∃ s s', t.Views i s ∧ s.step (clock i.other) b g y = .ok s' := by
  obtain ⟨m, s, hrun, hI⟩ := run_mirrors i (fun t s x y => orderly_views) h
  obtain ⟨hcommitted, hnext, hadmissible⟩ := hI.next hy
  have hsend := hcommitted ▸ hD i
  have hdone : ∀ d ∈ m.flatMap Netcode.Event.committed, Sendable w d := fun d hd =>
    hsend d (by rw [System.committed_concat]; exact List.mem_append_left _ hd)
  have hall := hadmissible hl
  have hready := System.ready_run hw hdone (fun z hz => hall z (List.mem_append_left _ hz))
    (hb.direction hI) hrun
  obtain ⟨s', hs'⟩ := hready.returns hw hsend
    (hall y (List.mem_append_right _ (List.mem_singleton_self y))) (hb.direction hI)
    (hnext (hfifo i)) (orderly_views hI.views hc hy) (by
      rintro rfl
      cases x with
      | encoder j c =>
        rw [Event.oneWay] at hy
        split at hy
        · next hj =>
          have hcall : c.1 = .generateRepair :=
            congrArg Subtype.val (Netcode.Event.encoder.inj (Option.some.inj hy))
          rw [hI.views.encoder, ← hj]
          exact hrepair j c rfl hcall
        · cases hy
      | decoder j c =>
        rw [Event.oneWay] at hy
        split at hy <;> cases hy
      | pass j k =>
        obtain ⟨p, -, hsome⟩ := Option.bind_eq_some_iff.mp hy
        split at hsome
        · split at hsome <;> cases hsome
        · split at hsome <;> cases hsome)
  exact ⟨s, s', hI.views, hs'⟩

/-- Over a two-way channel that loses packets but keeps their order, nothing fails: whatever the
run, neither the next call at either end nor the dispatch of the next packet does. -/
theorem step_returns {inOrder : Side → Bool} (hw : w ≠ .w32)
    (hD : ∀ i, ∀ d ∈ (l ++ [x]).flatMap (Event.committed i), Sendable w d)
    (hl : ∀ y ∈ l ++ [x], y.Admissible w) (hb : Bounded l t)
    (hfifo : ∀ i, ((l ++ [x]).filterMap (Event.passed i)).Pairwise (· < ·))
    (h : Run (step clock b g) (Orderly b g) (initial clock inOrder) l t) (hc : t.Orderly b g x)
    (hrepair : x.Requests t) : ∃ t', t.step clock b g x = .ok t' := by
  have hreturns := fun i y => returns_oneWay (i := i) (y := y) hw hD hl hb hfifo h hc hrepair
  have hmerged := h.invariant Merged (fun _ _ _ hI _ hs => merged_step hI hs)
    fun j => by cases j <;> exact ⟨rfl, rfl⟩
  cases x with
  | encoder j c =>
    obtain ⟨s, s', hs, hstep⟩ := hreturns j (.encoder c) (if_pos rfl)
    simp only [System.step, bind_ok_iff] at hstep
    obtain ⟨u, hu, -⟩ := hstep
    rw [hs.encoder] at hu
    exact ⟨_, by rw [step, hu, ok_bind]⟩
  | decoder j c =>
    have hj : j.other.other = j := by cases j <;> rfl
    obtain ⟨s, s', hs, hstep⟩ := hreturns j.other (.decoder c) (if_pos hj.symm)
    simp only [System.step, bind_ok_iff] at hstep
    obtain ⟨v, hv, -⟩ := hstep
    rw [hs.decoder, hj] at hv
    exact ⟨_, by rw [step, hv, ok_bind]⟩
  | pass j k =>
    cases hp : (t.peer j).flow[k]? with
    | none => exact ⟨t, by simp only [step, hp]⟩
    | some p =>
      cases hdata : p.isData with
      | true =>
        obtain ⟨s, s', hs, hstep⟩ := hreturns j
          (.toDecoder (rank WirePacket.isData (t.peer j).flow k))
          (by rw [Event.oneWay, hp, Option.bind_some, if_pos hdata, if_pos rfl])
        have hsent := getElem?_filter_rank hp hdata
        rw [(hmerged j).data, ← hs.encoder] at hsent
        simp only [System.step, hsent, bind_ok_iff] at hstep
        obtain ⟨v, hv, -⟩ := hstep
        rw [hs.decoder] at hv
        exact ⟨_, by rw [step_pass_data hp hdata, hv]; rfl⟩
      | false =>
        have hj : j.other.other = j := by cases j <;> rfl
        obtain ⟨s, s', hs, hstep⟩ := hreturns j.other
          (.toEncoder (rank WirePacket.isAck (t.peer j).flow k))
          (by rw [Event.oneWay, hp, Option.bind_some, if_neg (by rw [hdata]; exact Bool.false_ne_true),
            if_pos hj.symm])
        have hack : p.isAck = true := by
          rw [WirePacket.isAck, hdata]
          rfl
        have hsent := getElem?_filter_rank hp hack
        rw [(hmerged j).acks, ← hj, ← hs.decoder, List.getElem?_map, Option.map_eq_some_iff, hj]
          at hsent
        obtain ⟨a, ha, rfl⟩ := hsent
        simp only [System.step, ha, bind_ok_iff] at hstep
        obtain ⟨u, hu, -⟩ := hstep
        rw [hs.encoder] at hu
        have hcall : (t.peer j.other).encoder.call b g (.packet (WirePacket.ack a.ack).bytes) =
            .ok u := hu
        exact ⟨_, by rw [step_pass_ack hp hdata, hcall]; rfl⟩

/-- The last source of the left end is on its way. -/
theorem step_returns_exchangeEvents : ∃ t t',
    runWhile (step (fun _ _ => 0) .checked gf16) (fun t x => t.orderly .checked x = true)
      (initial (fun _ _ => 0) fun _ => true) exchangeEvents = some t ∧
    (t.peer .right).decoder.data.map DecoderSource.id = [0, 1] ∧
    t.step (fun _ _ => 0) .checked gf16 (.pass .left 3) = .ok t' := by
  have hrun : (runWhile (step (fun _ _ => 0) .checked gf16)
      (fun t x => t.orderly .checked x = true) (initial (fun _ _ => 0) fun _ => true)
      exchangeEvents).any (fun t => decide (
        (t.peer .right).decoder.data.map DecoderSource.id = [0, 1] ∧
        t.orderly .checked (.pass .left 3) = true ∧
        (Encoder.repairsOf (t.peer .left).encoder.sent).length < 2 ^ 32 ∧
        (Encoder.repairsOf (t.peer .right).encoder.sent).length < 2 ^ 32)) = true := by
    decide +kernel
  obtain ⟨t, ht, hd⟩ := (Option.any_eq_true _ _).mp hrun
  obtain ⟨hright, hnext, hrepairs, hrepairs'⟩ := of_decide_eq_true hd
  have horderly := (run_of_runWhile ht).mono (D := Orderly .checked gf16)
    fun u x hc => orderly_spec hc
  have hbounded : Bounded exchangeEvents t :=
    ⟨fun i => by cases i <;> decide, fun i => by cases i <;> assumption,
      fun i => by cases i <;> decide⟩
  obtain ⟨t', ht'⟩ := step_returns (x := .pass .left 3) (by decide)
    (fun i => by cases i <;> decide) (by decide) hbounded (fun i => by cases i <;> decide) horderly
    (orderly_spec hnext) (fun i c hc => by cases hc)
  exact ⟨t, t', ht, hright, ht'⟩

end Netcode.Tunnel
