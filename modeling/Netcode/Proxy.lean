import Netcode.Proxy.Link
import Netcode.Transcoder

/-! lossy_proxy.cc: between both ends, a proxy forwards the packets it receives or loses them, as a
model of losses decides. -/
namespace Netcode

open Encodings Runs

variable {w : FieldSize} {b : Build} {g : GfComplete w} {σ : Type}

/-- Both ends, and the proxy between them. -/
structure Proxy (w : FieldSize) (σ : Type) where
  tunnel : Tunnel w
  link : Side → Link σ

namespace Proxy

/-- What happens next: a user calls one end, the proxy receives a packet of one end, known by its
position in the flow, or a packet it forwarded reaches the other end. Packets between two that are
received are lost outside the proxy. -/
inductive Event
  | encoder (i : Side) (c : { c : Encoder.Call // ∀ p, c ≠ .packet p })
  | decoder (i : Side) (c : { c : Decoder.Call // ∀ p, c ≠ .packet p })
  | listen (i : Side) (k : ℕ)
  | arrive (i : Side) (n : ℕ)

def initial (loss : Side → σ) (clock : Side → ℕ → ℤ) (inOrder : Side → Bool) : Proxy w σ :=
  ⟨Tunnel.initial clock inOrder, fun i => Link.initial (loss i)⟩

def setLink (s : Proxy w σ) (i : Side) (l : Link σ) : Proxy w σ :=
  { s with link := Function.update s.link i l }

/-- The number of bytes the proxy's buffers hold. -/
def bufferSize : ℕ := 4096

def step (lose : Loss.Model σ) (clock : Side → ℕ → ℤ) (b : Build) (g : GfComplete w)
    (s : Proxy w σ) : Event → Except Fault (Proxy w σ)
  | .encoder i c => do
    let t ← s.tunnel.step clock b g (.encoder i c)
    .ok { s with tunnel := t }
  | .decoder i c => do
    let t ← s.tunnel.step clock b g (.decoder i c)
    .ok { s with tunnel := t }
  | .listen i k =>
    match (s.tunnel.peer i).flow[k]? with
    | none => .ok s
    | some p => .ok (s.setLink i ((s.link i).listen lose k (min p.bytes.length bufferSize)))
  | .arrive i n =>
    match (s.link i).forwarded[n]?.bind fun k => (s.tunnel.peer i).flow[k]? with
    | none => .ok s
    | some p => do
      let t ← s.tunnel.receive clock b g i.other (p.bytes.take bufferSize)
      .ok ({ s with tunnel := t }.setLink i { s.link i with arrived := n + 1 })

/-- On both sides of the proxy packets keep their order, and those it forwards fit its buffers. -/
def Keeps (s : Proxy w σ) : Event → Prop
  | .listen i k => ∀ j ∈ (s.link i).received, j < k
  | .arrive i n => (s.link i).arrived ≤ n ∧
      ∀ p ∈ (s.link i).forwarded[n]?.bind fun k => (s.tunnel.peer i).flow[k]?,
        p.bytes.length ≤ bufferSize
  | _ => True

instance (s : Proxy w σ) : (x : Event) → Decidable (s.Keeps x)
  | .listen _ _ => inferInstanceAs (Decidable (∀ j ∈ _, j < _))
  | .arrive _ _ => inferInstanceAs (Decidable (_ ∧ ∀ p ∈ (_ : Option WirePacket), _))
  | .encoder _ _ | .decoder _ _ => inferInstanceAs (Decidable True)

/-- The event of both ends, if it is one. -/
def Event.tunnel (s : Proxy w σ) : Event → Option Tunnel.Event
  | .encoder i c => some (.encoder i c)
  | .decoder i c => some (.decoder i c)
  | .listen _ _ => none
  | .arrive i n => ((s.link i).forwarded[n]?).map (.pass i)

/-- The data one end is given to send. -/
def Event.committed (i : Side) : Event → List (List Byte)
  | .encoder j c => if j = i then Encoder.committed [c.1] else []
  | _ => []

variable {lose : Loss.Model σ} {clock : Side → ℕ → ℤ} {s s' : Proxy w σ} {x : Event} {i j : Side}
  {l : List Event} {m : List Tunnel.Event} {loss : Side → σ} {inOrder : Side → Bool} {k n : ℕ}

theorem link_setLink (s : Proxy w σ) (i j : Side) (v : Link σ) :
    (s.setLink j v).link i = if i = j then v else s.link i := Function.update_apply _ _ _ _

theorem accounts_setLink {v : Link σ} (hI : ∀ i, (s.link i).Accounts lose (loss i))
    (hv : v.Accounts lose (loss j)) (i : Side) :
    ((s.setLink j v).link i).Accounts lose (loss i) := by
  rw [link_setLink]
  split
  · next hi => exact hi ▸ hv
  · exact hI i

theorem accounts_step (hI : ∀ i, (s.link i).Accounts lose (loss i))
    (h : s.step lose clock b g x = .ok s') (i : Side) : (s'.link i).Accounts lose (loss i) := by
  cases x with
  | encoder j c =>
    simp only [step, bind_ok_iff, Except.ok.injEq] at h
    obtain ⟨t, -, rfl⟩ := h
    exact hI i
  | decoder j c =>
    simp only [step, bind_ok_iff, Except.ok.injEq] at h
    obtain ⟨t, -, rfl⟩ := h
    exact hI i
  | listen j k =>
    rw [step] at h
    split at h
    · cases h
      exact hI i
    · cases h
      exact accounts_setLink hI (Link.accounts_listen (hI j)) i
  | arrive j n =>
    rw [step] at h
    split at h
    · cases h
      exact hI i
    · simp only [bind_ok_iff, Except.ok.injEq] at h
      obtain ⟨t, -, rfl⟩ := h
      have hv : Link.Accounts lose (loss j) { s.link j with arrived := n + 1 } :=
        ⟨(hI j).state, (hI j).received, (hI j).forwarded, (hI j).losses⟩
      exact accounts_setLink (s := { s with tunnel := t }) hI hv i

theorem accounts_link {C : Proxy w σ → Event → Prop}
    (h : Run (step lose clock b g) C (initial loss clock inOrder) l s) (i : Side) :
    (s.link i).Accounts lose (loss i) :=
  h.invariant (fun u => ∀ i, (u.link i).Accounts lose (loss i))
    (fun _ _ _ hI _ hs => accounts_step hI hs) (fun i => Link.accounts_initial (loss i)) i

/-- In every run, and whatever the model of losses, the proxy forwards in order the packets it received
but those the model loses, and counts exactly these as losses. -/
theorem accounts_run {C : Proxy w σ → Event → Prop}
    (h : Run (step lose clock b g) C (initial loss clock inOrder) l s) (i : Side) :
    (s.link i).forwarded = Link.spared lose (loss i) (s.link i).received ∧
      (s.link i).total = (s.link i).received.length ∧
      (s.link i).losses + (s.link i).forwarded.length = (s.link i).total := by
  have hI := accounts_link h i
  exact ⟨hI.forwarded, hI.received.symm, hI.losses⟩

/-- The first source of the left end is lost, and decoded from a repair. The other packets are
forwarded. -/
def relayedEvents : List Event :=
  [.encoder .left ⟨.data [1], Event.data_ne_packet [1]⟩,
    .encoder .left ⟨.data [2], Event.data_ne_packet [2]⟩,
    .encoder .left ⟨.generateRepair, Event.generateRepair_ne_packet⟩,
    .listen .left 0, .listen .left 1, .listen .left 2, .arrive .left 0, .arrive .left 1,
    .encoder .right ⟨.data [3], Event.data_ne_packet [3]⟩,
    .decoder .right ⟨.generateAck, Event.generateAck_ne_packet⟩,
    .listen .right 0, .listen .right 1, .arrive .right 0, .arrive .right 1]

/-- A file of losses for each direction. -/
def lossFiles : Side → Loss.Stream
  | .left => ⟨[['1'], ['0']]⟩
  | .right => ⟨[]⟩

theorem accounts_run_relayedEvents : ∃ s,
    runWhile (step Loss.Stream.lose (fun _ _ => 0) .release gf16) (fun _ _ => True)
      (initial lossFiles (fun _ _ => 0) fun _ => true) relayedEvents = some s ∧
    (s.link .left).received = [0, 1, 2] ∧ (s.link .left).forwarded = [1, 2] ∧
    (s.link .left).total = 3 ∧ (s.link .left).losses = 1 := by
  have hrun : (runWhile (step Loss.Stream.lose (fun _ _ => 0) .release gf16) (fun _ _ => True)
      (initial lossFiles (fun _ _ => 0) fun _ => true) relayedEvents).any (fun s => decide (
        (s.link .left).received = [0, 1, 2])) = true := by
    decide +kernel
  obtain ⟨s, hs, hd⟩ := (Option.any_eq_true _ _).mp hrun
  have hreceived := of_decide_eq_true hd
  obtain ⟨hforwarded, htotal, hlosses⟩ := accounts_run (run_of_runWhile hs) .left
  rw [hreceived] at hforwarded htotal
  have hspared : Link.spared Loss.Stream.lose (lossFiles .left) [0, 1, 2] = [1, 2] := by decide
  rw [hspared] at hforwarded
  rw [hforwarded, htotal] at hlosses
  exact ⟨s, hs, hreceived, hforwarded, htotal, Nat.add_right_cancel (m := 2) hlosses⟩

/-- A proxy with uniform losses forwards the packets whose number is within the threshold. -/
theorem forwarded_uniform {loss : Side → Loss.Uniform} {s : Proxy w Loss.Uniform}
    {C : Proxy w Loss.Uniform → Event → Prop}
    (h : Run (step Loss.Uniform.lose clock b g) C (initial loss clock inOrder) l s) (i : Side) :
    (s.link i).forwarded = ((s.link i).received.zipIdx.filter fun p =>
      !decide ((loss i).threshold < (loss i).gen p.2)).map Prod.fst := by
  rw [(accounts_link h i).forwarded, Link.spared]
  simp only [Loss.lost_uniform]

/-- A proxy with losses in bursts forwards the packets that are not lost after the one before. -/
theorem forwarded_burst {loss : Side → Loss.Burst} {s : Proxy w Loss.Burst}
    {C : Proxy w Loss.Burst → Event → Prop}
    (h : Run (step Loss.Burst.lose clock b g) C (initial loss clock inOrder) l s) (i : Side) :
    ∃ lost : ℕ → Bool, lost 0 = (Loss.Burst.lose (loss i)).1 ∧
      (∀ n, lost (n + 1) = if lost n then decide ((loss i).gen (n + 1) < (loss i).bad)
        else !decide ((loss i).gen (n + 1) < (loss i).good)) ∧
      (s.link i).forwarded =
        ((s.link i).received.zipIdx.filter fun p => !lost p.2).map Prod.fst :=
  ⟨Loss.lost Loss.Burst.lose (loss i), rfl, Loss.lost_burst_succ (loss i),
    (accounts_link h i).forwarded⟩

/-- A proxy which reads its losses from a file forwards the packets that have a line starting with 0
or none. -/
theorem forwarded_stream {loss : Side → Loss.Stream} {s : Proxy w Loss.Stream}
    {C : Proxy w Loss.Stream → Event → Prop}
    (h : Run (step Loss.Stream.lose clock b g) C (initial loss clock inOrder) l s) (i : Side) :
    (s.link i).forwarded = ((s.link i).received.zipIdx.filter fun p =>
      !((loss i).lines[p.2]?).any fun line => decide (line.head? ≠ some '0')).map Prod.fst := by
  rw [(accounts_link h i).forwarded, Link.spared]
  simp only [Loss.lost_stream]

/-- What both ends did, in the order that every link keeps. -/
structure Follows (s : Proxy w σ) (l : List Event) (m : List Tunnel.Event) (t : Tunnel w) :
    Prop where
  tunnel : s.tunnel = t
  committed : ∀ i, m.flatMap (Tunnel.Event.committed i) = l.flatMap (Event.committed i)
  ordered : ∀ i, (s.link i).Ordered (m.filterMap (Tunnel.Event.passed i))

theorem follows_initial : (initial loss clock inOrder : Proxy w σ).Follows [] []
    (Tunnel.initial clock inOrder) :=
  ⟨rfl, fun _ => rfl, fun i => Link.ordered_initial (loss i)⟩

/-- An event of both ends that receives nothing. -/
theorem Follows.call {t t' : Tunnel w} {y : Tunnel.Event} (hI : s.Follows l m t)
    (hy : ∀ i, y.passed i = none) (hx : ∀ i, y.committed i = x.committed i) :
    { s with tunnel := t' }.Follows (l ++ [x]) (m ++ [y]) t' := by
  refine ⟨rfl, fun i => ?_, fun i => ?_⟩
  · rw [Tunnel.committed_concat, List.flatMap_append, List.flatMap_singleton, hI.committed, hx]
  · rw [Tunnel.passed_concat, hy, Option.toList_none, List.append_nil]
    exact hI.ordered i

/-- An event of the proxy alone. -/
theorem Follows.stay {t : Tunnel w} (hI : s.Follows l m t) (hx : ∀ i, x.committed i = []) :
    s.Follows (l ++ [x]) m t := by
  refine ⟨hI.tunnel, fun i => ?_, hI.ordered⟩
  rw [List.flatMap_append, List.flatMap_singleton, hx, List.append_nil]
  exact hI.committed i

theorem Follows.listen {t : Tunnel w} {size : ℕ} (hI : s.Follows l m t)
    (hc : s.Keeps (.listen j k)) :
    (s.setLink j ((s.link j).listen lose k size)).Follows l m t := by
  refine ⟨hI.tunnel, hI.committed, fun i => ?_⟩
  rw [link_setLink]
  split
  · next hi =>
    subst hi
    exact Link.ordered_listen (hI.ordered i) hc
  · exact hI.ordered i

/-- A packet that was forwarded reaches the other end. -/
theorem Follows.arrive {t t' : Tunnel w} (hI : s.Follows l m t) (hc : s.Keeps (.arrive j n))
    (hk : (s.link j).forwarded[n]? = some k) :
    ({ s with tunnel := t' }.setLink j { s.link j with arrived := n + 1 }).Follows
      (l ++ [Event.arrive j n]) (m ++ [Tunnel.Event.pass j k]) t' := by
  refine ⟨rfl, fun i => ?_, fun i => ?_⟩
  · rw [Tunnel.committed_concat, List.flatMap_append, List.flatMap_singleton, hI.committed]
    rfl
  · rw [link_setLink, Tunnel.passed_concat, Tunnel.Event.passed]
    split
    · next hi =>
      subst hi
      rw [if_pos rfl, Option.toList_some]
      exact Link.ordered_arrive (hI.ordered i) hc.1 hk
    · next hi =>
      rw [if_neg (Ne.symm hi), Option.toList_none, List.append_nil]
      exact hI.ordered i

/-- An event is one of both ends, or changes nothing there. -/
theorem follows_step {t : Tunnel w} (hI : s.Follows l m t) (hc : s.Keeps x)
    (h : s.step lose clock b g x = .ok s') : s'.Follows (l ++ [x]) m t ∨
      ∃ y t', x.tunnel s = some y ∧ t.step clock b g y = .ok t' ∧
        s'.Follows (l ++ [x]) (m ++ [y]) t' := by
  cases x with
  | encoder j c =>
    simp only [step, bind_ok_iff, Except.ok.injEq] at h
    obtain ⟨t', ht', rfl⟩ := h
    rw [hI.tunnel] at ht'
    exact Or.inr ⟨_, t', rfl, ht', hI.call (fun _ => rfl) fun _ => rfl⟩
  | decoder j c =>
    simp only [step, bind_ok_iff, Except.ok.injEq] at h
    obtain ⟨t', ht', rfl⟩ := h
    rw [hI.tunnel] at ht'
    exact Or.inr ⟨_, t', rfl, ht', hI.call (fun _ => rfl) fun _ => rfl⟩
  | listen j k =>
    rw [step] at h
    split at h
    · cases h
      exact Or.inl (hI.stay fun _ => rfl)
    · cases h
      exact Or.inl ((hI.listen hc).stay fun _ => rfl)
  | arrive j n =>
    rw [step] at h
    split at h
    · cases h
      exact Or.inl (hI.stay fun _ => rfl)
    · next p hp =>
      simp only [bind_ok_iff, Except.ok.injEq] at h
      obtain ⟨t', ht', rfl⟩ := h
      obtain ⟨k, hk, hflow⟩ := Option.bind_eq_some_iff.mp hp
      rw [List.take_of_length_le (hc.2 p hp), hI.tunnel] at ht'
      rw [hI.tunnel] at hflow
      refine Or.inr ⟨.pass j k, t', ?_, ?_, hI.arrive hc hk⟩
      · rw [Event.tunnel, hk]
        rfl
      · rw [Tunnel.step_pass_receive hflow, ht']

/-- Both ends do what they do when packets pass between them in order, some of them lost. -/
theorem run_tunnel {C : Proxy w σ → Event → Prop} {D : Tunnel w → Tunnel.Event → Prop}
    (hC : ∀ s x, C s x → s.Keeps x) (hCD : ∀ s x y, C s x → x.tunnel s = some y → D s.tunnel y)
    (h : Run (step lose clock b g) C (initial loss clock inOrder) l s) :
    ∃ m, Run (Tunnel.step clock b g) D (Tunnel.initial clock inOrder) m s.tunnel ∧
      (∀ i, m.flatMap (Tunnel.Event.committed i) = l.flatMap (Event.committed i)) ∧
      ∀ i, (m.filterMap (Tunnel.Event.passed i)).Pairwise (· < ·) := by
  have hrun : ∃ m t, Run (Tunnel.step clock b g) D (Tunnel.initial clock inOrder) m t ∧
      s.Follows l m t := by
    refine h.simulate (fun done u m t => u.Follows done m t)
      (fun done u x u' m t hI hc hu => ?_) follows_initial
    rcases follows_step hI (hC u x hc) hu with hstay | ⟨y, t', hy, hstep, hnext⟩
    · exact Or.inl hstay
    · exact Or.inr ⟨y, t', hI.tunnel ▸ hCD u x y hc hy, hstep, hnext⟩
  obtain ⟨m, t, hm, hI⟩ := hrun
  exact ⟨m, hI.tunnel ▸ hm, hI.committed, fun i => (hI.ordered i).fifo⟩

/-- Packets keep their order, and the step is orderly at both ends. -/
structure Orderly (b : Build) (g : GfComplete w) (s : Proxy w σ) (x : Event) : Prop where
  keeps : s.Keeps x
  tunnel : ∀ y, x.tunnel s = some y → s.tunnel.Orderly b g y

/-- Through the proxy, and whatever it loses, each user is given the data the other one committed,
each at most once, and without a gap by an in-order decoder. -/
theorem data_proxied (hw : w ≠ .w32)
    (hD : ∀ i, ∀ d ∈ l.flatMap (Event.committed i), Sendable w d)
    (hsources : ∀ i, (l.flatMap (Event.committed i)).length < 2 ^ 32)
    (hrepairs : ∀ i, (Encoder.repairsOf (s.tunnel.peer i).encoder.sent).length < 2 ^ 32)
    (h : Run (step lose clock b g) (Orderly b g) (initial loss clock inOrder) l s) (i : Side) :
    (∀ src ∈ (s.tunnel.peer i.other).decoder.data,
      src.Intact (Encoder.dataOf (l.flatMap (Event.committed i)))) ∧
    ((s.tunnel.peer i.other).decoder.data.map DecoderSource.id).Nodup ∧
    (inOrder i.other = true →
      (s.tunnel.peer i.other).decoder.data.map (fun src => src.symbol.take src.symbolSize) =
        (l.flatMap (Event.committed i)).take (s.tunnel.peer i.other).decoder.data.length) := by
  obtain ⟨m, hm, hcommitted, hfifo⟩ := run_tunnel (fun _ _ hc => hc.keeps)
    (fun _ _ y hc hy => hc.tunnel y hy) h
  have hbounded : Tunnel.Bounded m s.tunnel :=
    ⟨fun j => by rw [hcommitted]; exact hsources j, hrepairs, hfifo⟩
  obtain ⟨_, _, hrun, hI⟩ := Tunnel.run_mirrors i (fun t s x y => Tunnel.orderly_views) hm
  have hdata := hI.given hw (fun j => by rw [hcommitted]; exact hD j) hbounded hrun
  rwa [hcommitted] at hdata

def orderly (b : Build) (s : Proxy w σ) (x : Event) : Bool :=
  decide (s.Keeps x) && (x.tunnel s).all fun y => s.tunnel.orderly b y

theorem orderly_spec (h : s.orderly b x = true) : s.Orderly b g x := by
  rw [orderly, Bool.and_eq_true, decide_eq_true_eq] at h
  refine ⟨h.1, fun y hy => Tunnel.orderly_spec ?_⟩
  have hall := h.2
  rwa [hy, Option.all_some] at hall

theorem data_proxied_relayedEvents : ∃ s,
    runWhile (step Loss.Stream.lose (fun _ _ => 0) .release gf16)
      (fun s x => s.orderly .release x = true)
      (initial lossFiles (fun _ _ => 0) fun _ => true) relayedEvents = some s ∧
    (s.link .left).losses = 1 ∧
    (s.tunnel.peer .left).encoder.sources = [] ∧
    (s.tunnel.peer .right).decoder.data.map (fun src => src.symbol.take src.symbolSize) =
      [[1], [2]] := by
  have hrun : (runWhile (step Loss.Stream.lose (fun _ _ => 0) .release gf16)
      (fun s x => s.orderly .release x = true)
      (initial lossFiles (fun _ _ => 0) fun _ => true) relayedEvents).any (fun s => decide (
        (s.link .left).losses = 1 ∧ (s.tunnel.peer .left).encoder.sources = [] ∧
        (s.tunnel.peer .right).decoder.data.length = 2 ∧
        (Encoder.repairsOf (s.tunnel.peer .left).encoder.sent).length < 2 ^ 32 ∧
        (Encoder.repairsOf (s.tunnel.peer .right).encoder.sent).length < 2 ^ 32)) = true := by
    decide +kernel
  obtain ⟨s, hs, hd⟩ := (Option.any_eq_true _ _).mp hrun
  obtain ⟨hlosses, hwindow, hlen, hrepairs, hrepairs'⟩ := of_decide_eq_true hd
  have horderly := (run_of_runWhile hs).mono (D := Orderly .release gf16)
    fun u x hc => orderly_spec hc
  obtain ⟨-, -, hstream⟩ := data_proxied (by decide) (fun i => by cases i <;> decide)
    (fun i => by cases i <;> decide) (fun i => by cases i <;> assumption) horderly .left
  have hdata := hstream rfl
  rw [show Side.left.other = .right from rfl, hlen] at hdata
  exact ⟨s, hs, hlosses, hwindow, hdata⟩

end Proxy

end Netcode
