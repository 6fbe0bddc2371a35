import Netcode.Acknowledgement
import Netcode.Parameters

/-! How the rate of an adaptive encoder follows the losses that acknowledgements report. -/
namespace Netcode

open Containers Encodings Runs

variable {w : FieldSize} {b : Build} {g : GfComplete w}

namespace Encoder

variable {e e' e1 e2 e3 : Encoder} {c : Call} {cs cs1 cs2 : List Call} {a a' : Ack} {n nb r k : ℕ}
  {loss loss' : ℚ}

theorem rateForLoss_of_low (h : loss < 1 / 100) : rateForLoss loss = 50 := if_pos h

theorem rateForLoss_of_high (h : 1 / 100 ≤ loss) : rateForLoss loss = ⌈1 / loss / 2⌉₊ :=
  if_neg (not_lt.mpr h)

/-- The rate is at most `k` if and only if half a packet out of `k` is lost. -/
theorem rateForLoss_le_iff (hk : k < 50) : rateForLoss loss ≤ k ↔ 1 ≤ 2 * (k : ℚ) * loss := by
  have hk' : (k : ℚ) ≤ 49 := by exact_mod_cast Nat.le_of_lt_succ hk
  rcases lt_or_ge loss (1 / 100) with hlow | hhigh
  · rw [rateForLoss_of_low hlow]
    refine iff_of_false (by omega) fun h => ?_
    nlinarith [(Nat.cast_nonneg k : (0 : ℚ) ≤ k)]
  · have hpos : 0 < loss := lt_of_lt_of_le (by norm_num) hhigh
    rw [rateForLoss_of_high hhigh, Nat.ceil_le, div_le_iff₀ (by norm_num), div_le_iff₀ hpos,
      mul_comm (k : ℚ) 2]

theorem rateForLoss_le (loss : ℚ) : rateForLoss loss ≤ 50 := by
  rcases lt_or_ge loss (1 / 100) with hlow | hhigh
  · exact (rateForLoss_of_low hlow).le
  · have hpos : 0 < loss := lt_of_lt_of_le (by norm_num) hhigh
    rw [rateForLoss_of_high hhigh, Nat.ceil_le, div_le_iff₀ (by norm_num), div_le_iff₀ hpos]
    norm_num
    linarith

/-- The more is lost, the more often a repair is sent. -/
theorem rateForLoss_antitone : Antitone rateForLoss := by
  intro loss loss' h
  rcases (rateForLoss_le loss).lt_or_eq with hlt | heq
  · have hle := (rateForLoss_le_iff hlt).mp le_rfl
    refine (rateForLoss_le_iff hlt).mpr (hle.trans ?_)
    gcongr
  · exact heq ▸ rateForLoss_le loss'

/-- With acknowledgements of any content, the rate of an adaptive encoder is between 1 and 50. -/
theorem adaptRate_bounds (h : e.adaptive = true) (r : ℕ) : 1 ≤ e.adaptRate r ∧ e.adaptRate r ≤ 50 := by
  rw [adaptRate, if_pos h]
  split
  · exact ⟨rateForLoss_pos _, rateForLoss_le _⟩
  · exact ⟨rateForLoss_pos _, rateForLoss_le _⟩

theorem adaptRate_monotone (h : e.adaptive = true) : Monotone e.adaptRate := by
  intro r r' hr
  show e.adaptRate r ≤ e.adaptRate r'
  rw [adaptRate, adaptRate, if_pos h, if_pos h]
  split
  · apply rateForLoss_antitone
    gcongr
  · exact le_rfl

/-- Between acknowledgements, the counter is how many packets were sent, on 16 bits. -/
theorem counted_run (hno : ∀ c ∈ cs, ∀ a, ¬ Acknowledges b c a) (h0 : e.nbSentPackets = 0)
    (h : cs.foldlM (call b g) e = .ok e') : ∃ n, e'.sent.length = e.sent.length + n ∧
      e'.nbSentPackets = n % 2 ^ 16 := by
  have hrun := foldlM_invariant (f := call b g)
    (fun u => u.nbSentPackets < 2 ^ 16 ∧ e.sent.length ≤ u.sent.length ∧
      u.nbSentPackets + e.sent.length ≡ u.sent.length [MOD 2 ^ 16]) ?_ ?_ h
  · obtain ⟨hlt, hle, hmod⟩ := hrun
    refine ⟨e'.sent.length - e.sent.length, by omega, ?_⟩
    rw [Nat.ModEq] at hmod
    omega
  · rintro c hc u v ⟨hlt, hle, hmod⟩ hv
    rcases call_counts hv with ⟨hcounts, -⟩ | ⟨rate, -, rfl⟩ | ⟨adaptive, -, rfl⟩ |
      ⟨sz, -, rfl⟩ | ⟨a, ha, -⟩
    · have hone : [c].foldlM (call b g) u = .ok v := by
        rw [List.foldlM_cons, hv]
        rfl
      obtain ⟨later, hlater⟩ := sent_prefix hone
      have hsent := hcounts.sent
      refine ⟨hcounts.bounded hlt, ?_, ?_⟩
      · rw [hlater, List.length_append]
        omega
      · rw [Nat.ModEq] at hmod hsent ⊢
        omega
    · exact ⟨hlt, hle, hmod⟩
    · exact ⟨hlt, hle, hmod⟩
    · exact ⟨hlt, hle, hmod⟩
    · exact absurd ha (hno c hc a)
  · rw [h0, Nat.zero_add]
    exact ⟨by decide, le_rfl, rfl⟩

/-- The rate wanted once `r` of `n` packets were received. -/
def wantedRate (n r : ℕ) : ℕ :=
  if ((n : ℚ) - r) / n < 1 / 100 then 50 else ⌈(n : ℚ) / (2 * (n - r))⌉₊

theorem wantedRate_eq (n r : ℕ) : wantedRate n r = rateForLoss (((n : ℚ) - r) / n) := by
  rw [wantedRate, rateForLoss, one_div_div, div_div, mul_comm]

/-- It is at most `k` if and only if half a packet out of `k` is lost. -/
theorem lossRate_le_iff (hn : 0 < n) (hk : k < 50) :
    rateForLoss (((n : ℚ) - r) / n) ≤ k ↔ n ≤ 2 * k * (n - r) := by
  have hn' : (0 : ℚ) < n := by exact_mod_cast hn
  rw [rateForLoss_le_iff hk, ← mul_div_assoc, le_div_iff₀ hn', one_mul]
  rcases le_total r n with hle | hle
  · rw [← Nat.cast_sub hle]
    exact_mod_cast Iff.rfl
  · rw [Nat.sub_eq_zero_of_le hle, Nat.mul_zero]
    refine iff_of_false (fun h => ?_) (by omega)
    have hle' : (n : ℚ) - r ≤ 0 := sub_nonpos.mpr (by exact_mod_cast hle)
    have hneg := mul_nonpos_of_nonneg_of_nonpos (by positivity : (0 : ℚ) ≤ 2 * k) hle'
    linarith

/-- The rate after an acknowledgement depends on the packets sent as they were counted. -/
theorem adaptRate_le_iff (h : e.adaptive = true) (hk : k < 50) :
    e.adaptRate r ≤ k ↔ 0 < e.nbSentPackets ∧ e.nbSentPackets ≤ 2 * k * (e.nbSentPackets - r) := by
  rw [adaptRate, if_pos h]
  split
  · next hpos => rw [lossRate_le_iff hpos hk, and_iff_right hpos]
  · next hzero =>
    rw [rateForLoss_of_low (by norm_num)]
    exact iff_of_false (by omega) fun h => hzero h.1

/-- Rates are compared through what they are at most. -/
theorem rate_eq_iff {x y : ℕ} (hx : 1 ≤ x ∧ x ≤ 50) (hy : 1 ≤ y ∧ y ≤ 50) :
    x = y ↔ ∀ k, 0 < k → k < 50 → (x ≤ k ↔ y ≤ k) := by
  constructor
  · rintro rfl k _ _
    exact Iff.rfl
  · intro h
    rcases lt_trichotomy x y with hlt | heq | hlt
    · have := (h x (by omega) (by omega)).mp le_rfl
      omega
    · exact heq
    · have := (h y (by omega) (by omega)).mpr le_rfl
      omega

/-- Nothing is counted at the beginning of a run, nor after an acknowledgement. -/
theorem nbSentPackets_acknowledged (h : run b g cs = .ok e)
    (hlast : cs = [] ∨ ∃ c a, cs.getLast? = some c ∧ Acknowledges b c a) :
    e.nbSentPackets = 0 := by
  rcases hlast with rfl | ⟨c, a, hc, hack⟩
  · cases h
    rfl
  · obtain ⟨done, rfl⟩ := List.getLast?_eq_some_iff.mp hc
    obtain ⟨u, -, hlast⟩ := run_append h
    rw [List.foldlM_cons] at hlast
    obtain ⟨v, hv, hlast⟩ := bind_ok_iff.mp hlast
    cases hlast
    exact (counted_acknowledged hv hack).2.1

/-- In every run, the rate after an acknowledgement of `a.nbPackets` packets out of the `n` given to
the packet handler since the previous one is the rate wanted for this loss if and only if `n` fits
the counter, or it and what is left of it in the counter make no difference. -/
theorem acknowledged_rate (h1 : run b g cs1 = .ok e1)
    (hlast : cs1 = [] ∨ ∃ c a, cs1.getLast? = some c ∧ Acknowledges b c a)
    (h2 : cs2.foldlM (call b g) e1 = .ok e2) (hno : ∀ c ∈ cs2, ∀ a, ¬ Acknowledges b c a)
    (hadaptive : e2.adaptive = true) (hack : Acknowledges b c a) (h3 : e2.call b g c = .ok e3)
    (hn : e2.sent.length = e1.sent.length + n) (hpos : 1 ≤ n) :
    e3.rate = wantedRate n a.nbPackets ↔ n < 2 ^ 16 ∨ ∀ k, 0 < k → k < 50 →
      (n ≤ 2 * k * (n - a.nbPackets) ↔
        0 < n % 2 ^ 16 ∧ n % 2 ^ 16 ≤ 2 * k * (n % 2 ^ 16 - a.nbPackets)) := by
  have hzero : e1.nbSentPackets = 0 := nbSentPackets_acknowledged h1 hlast
  obtain ⟨n', hn', hcount⟩ := counted_run hno hzero h2
  obtain rfl : n' = n := by omega
  obtain ⟨hrate, -, -⟩ := counted_acknowledged h3 hack
  have hwanted : 1 ≤ wantedRate n' a.nbPackets ∧ wantedRate n' a.nbPackets ≤ 50 := by
    rw [wantedRate_eq]
    exact ⟨rateForLoss_pos _, rateForLoss_le _⟩
  have hexact : e3.rate = wantedRate n' a.nbPackets ↔ ∀ k, 0 < k → k < 50 →
      (n' ≤ 2 * k * (n' - a.nbPackets) ↔
        0 < n' % 2 ^ 16 ∧ n' % 2 ^ 16 ≤ 2 * k * (n' % 2 ^ 16 - a.nbPackets)) := by
    rw [hrate, eq_comm, rate_eq_iff hwanted (adaptRate_bounds hadaptive _)]
    refine forall_congr' fun k => imp_congr_right fun _ => imp_congr_right fun hk => ?_
    rw [wantedRate_eq, lossRate_le_iff hpos hk, adaptRate_le_iff hadaptive hk, hcount]
  rw [hexact, or_iff_right_of_imp]
  intro hlt k _ _
  rw [Nat.mod_eq_of_lt hlt, and_iff_right (show 0 < n' from hpos)]

/-- An acknowledgement of no source, which reports packets. -/
def report (nb : ℕ) : Call := .packet (writeAck ⟨FlatSet.empty, nb⟩)

theorem acknowledges_report (b : Build) (h : nb < 2 ^ 16) :
    Acknowledges b (report nb) ⟨FlatSet.empty, nb⟩ := by
  have hread := readAck_writeAck b ⟨FlatSet.empty, nb⟩
  rw [show nb % 256 ^ 2 = nb from Nat.mod_eq_of_lt h] at hread
  exact ⟨_, _, rfl, rfl, hread⟩

/-- Of two packets sent, one was received. -/
theorem acknowledged_rate_report : ∃ e e' : Encoder,
    run .debug gf16 [.setAdaptive true, .data [1], .data [2]] = .ok e ∧
      e.call .debug gf16 (report 1) = .ok e' ∧ e'.rate = wantedRate 2 1 := by
  obtain ⟨e, he, hsent⟩ := exists_ok_of_any
    (x := run .debug gf16 [.setAdaptive true, .data [1], .data [2]])
    (p := fun e => decide (e.adaptive = true ∧ e.sent.length = 2)) (by decide +kernel)
  obtain ⟨hadaptive, hlen⟩ := of_decide_eq_true hsent
  have hack := acknowledges_report .debug (show 1 < 2 ^ 16 by decide)
  have hnext := call_acknowledges (g := gf16) hack e
  have hno : ∀ c ∈ [Call.setAdaptive true, .data [1], .data [2]], ∀ a,
      ¬ Acknowledges .debug c a := by
    rintro c hc a ⟨p, n, rfl, -⟩
    simp at hc
  have hinit : run .debug gf16 [] = .ok initial := rfl
  exact ⟨e, _, he, hnext, (acknowledged_rate hinit (Or.inl rfl) he hno hadaptive hack hnext hlen
    (by decide)).mpr (Or.inl (by decide))⟩

/-- An adaptive encoder that only sent its first sources. -/
def adaptiveFilled (n : ℕ) : Encoder := { System.filled n with adaptive := true }

theorem data_adaptiveFilled (hn : n < 65536) :
    (adaptiveFilled n).call .release gf16 (.data [0]) = .ok (adaptiveFilled (n + 1)) := by
  have hlen : (adaptiveFilled n).sources.length = n := by
    simp [adaptiveFilled, System.filled, System.firstSources]
  have hevict : (adaptiveFilled n).evict = .ok (adaptiveFilled n) := by
    rw [evict, hlen, if_neg]
    show n ≠ 2 ^ 64 - 1
    omega
  have hmod : (n + 1) % 4294967296 = n + 1 := Nat.mod_eq_of_lt (by omega)
  simp only [call, data, commit, hevict, ok_bind, Build.assert, Build.release]
  simp [adaptiveFilled, System.filled, System.firstSources, sendSource, repairIfNeeded, initial,
    hmod, List.range_succ, Nat.mod_eq_of_lt (show n + 1 < 70000 by omega), FieldSize.wordBytes]

theorem run_adaptiveFilled (hn : n ≤ 65536) :
    run .release gf16 (.setAdaptive true :: .setRate 70000 :: List.replicate n (.data [0])) =
      .ok (adaptiveFilled n) := by
  induction n with
  | zero => rfl
  | succ n ih =>
    rw [List.replicate_succ', ← List.cons_append, ← List.cons_append, run, List.foldlM_append,
      ← run, ih (by omega), ok_bind, List.foldlM_cons, data_adaptiveFilled (by omega)]
    rfl

/-- Once as many packets were sent as the counter wraps at, the loss of all of them is not seen. -/
theorem adaptiveFilled_rate : ∃ e e' : Encoder,
    run .release gf16 (.setAdaptive true :: .setRate 70000 :: List.replicate 65536 (.data [0])) =
      .ok e ∧ e.sent.length = 65536 ∧ e.call .release gf16 (report 0) = .ok e' ∧ e'.rate = 50 ∧
      wantedRate 65536 0 = 1 := by
  have hack := acknowledges_report .release (show 0 < 2 ^ 16 by decide)
  refine ⟨_, _, run_adaptiveFilled le_rfl, ?_, call_acknowledges hack _, ?_, ?_⟩
  · simp [adaptiveFilled, System.filled, System.firstSources]
  · exact rateForLoss_of_low (by norm_num)
  · rw [wantedRate, if_neg (by norm_num), Nat.ceil_eq_iff (by decide)]
    norm_num

/-- Division by zero is none of the ways an operation fails. -/
def Divides (f : Fault) : Prop := f ≠ .undefined .divisionByZero

theorem addSource_divides (repair : EncoderRepair) (src : EncoderSource) :
    FailsOnly Divides (Detail.Encoder.addSource g repair src) :=
  failsOnly_bind (multiplyAdd_fails (by simp [Divides]) (by simp [Divides]) _ _ _ _) fun _ _ =>
    failsOnly_ok _

theorem encode_divides (repair : EncoderRepair) (sources : List EncoderSource) :
    FailsOnly Divides (Detail.Encoder.encode b g repair sources) := by
  cases sources with
  | nil =>
    exact failsOnly_bind (Build.assert_fails (Or.inr (by simp [Divides]))) fun _ _ =>
      failsOnly_error (by simp [Divides])
  | cons src sources =>
    rw [Detail.Encoder.encode]
    refine failsOnly_bind (Build.assert_fails (Or.inr (by simp [Divides]))) fun _ _ => ?_
    refine failsOnly_bind (multiply_fails (by simp [Divides]) (by simp [Divides]) _ _ _ _)
      fun _ _ => ?_
    exact failsOnly_foldlM addSource_divides _ _

theorem generateRepair_divides (e : Encoder) : FailsOnly Divides (generateRepair b g e) := by
  rw [generateRepair, mkRepair]
  refine failsOnly_bind (failsOnly_bind (Build.assert_fails (Or.inr (by simp [Divides]))) fun _ _ =>
    failsOnly_bind (encode_divides _ _) fun _ _ => failsOnly_ok _) fun _ _ => ?_
  exact failsOnly_bind (Build.assert_fails (Or.inr (by simp [Divides]))) fun _ _ => failsOnly_ok _

/-- The modulo by a positive rate is defined. -/
theorem data_divides (h : 0 < e.rate) (d : List Byte) : FailsOnly Divides (data b g d e) := by
  rw [data, commit]
  refine failsOnly_bind (Build.assert_fails (Or.inr (by simp [Divides]))) fun _ _ =>
    failsOnly_bind (Build.assert_fails (Or.inr (by simp [Divides]))) fun _ _ =>
    failsOnly_bind ?_ fun e1 h1 => failsOnly_bind ?_ fun e2 h2 => failsOnly_bind ?_ fun _ _ =>
    failsOnly_ok _
  · rw [evict]
    split
    · split
      · exact failsOnly_error (by simp [Divides])
      · exact failsOnly_ok _
    · exact failsOnly_ok _
  · rw [sendSource]
    split
    · exact failsOnly_ok _
    · exact generateRepair_divides _
  · obtain rfl := evict_ok h1
    have hrate : e2.rate = e.rate := (counts_sendSource h2).rate
    rw [repairIfNeeded_eq (hrate ▸ h)]
    split
    · exact generateRepair_divides _
    · exact failsOnly_ok _

theorem rate_call (hc : ∀ rate, c = .setRate rate → 0 < rate) (hI : 0 < e.rate)
    (h : e.call b g c = .ok e') : 0 < e'.rate := by
  rcases call_counts h with ⟨hcounts, -⟩ | ⟨rate, rfl, rfl⟩ | ⟨adaptive, -, rfl⟩ |
    ⟨sz, -, rfl⟩ | ⟨a, -, rfl⟩
  · rw [hcounts.rate]
    exact hI
  · exact hc rate rfl
  · exact hI
  · exact hI
  · exact adaptRate_pos (e := { e with nbAcks := e.nbAcks + 1 }) hI a.nbPackets

/-- With acknowledgements of any content in any order, the rate of every run is positive when data
is committed, so that no modulo divides by zero. After an acknowledgement an adaptive encoder's rate
is between 1 and 50; for as many packets sent, the more are reported the greater it is. -/
theorem run_rate (hcs : ∀ rate, .setRate rate ∈ cs → 0 < rate) (h : run b g cs = .ok e) :
    0 < e.rate ∧ (∀ d, e.call b g (.data d) ≠ .error (.undefined .divisionByZero)) ∧
    (∀ c a e', e.adaptive = true → Acknowledges b c a → e.call b g c = .ok e' →
      1 ≤ e'.rate ∧ e'.rate ≤ 50) ∧
    ∀ (u : Encoder) c c' a a' e' u', e.adaptive = true → u.adaptive = true →
      u.nbSentPackets = e.nbSentPackets → Acknowledges b c a → Acknowledges b c' a' →
      a.nbPackets ≤ a'.nbPackets → e.call b g c = .ok e' → u.call b g c' = .ok u' →
      e'.rate ≤ u'.rate := by
  have hrate : 0 < e.rate := foldlM_invariant (fun u => 0 < u.rate)
    (fun c hc u v hu hv => rate_call (fun rate heq => hcs rate (heq ▸ hc)) hu hv) (by decide) h
  refine ⟨hrate, fun d hd => data_divides hrate d _ hd rfl, fun c a e' ha hack he' => ?_, ?_⟩
  · rw [(counted_acknowledged he' hack).1]
    exact adaptRate_bounds ha _
  · intro u c c' a a' e' u' ha hua hsame hack hack' hle he' hu'
    rw [(counted_acknowledged he' hack).1, (counted_acknowledged hu' hack').1]
    calc e.adaptRate a.nbPackets ≤ e.adaptRate a'.nbPackets := adaptRate_monotone ha hle
      _ = u.adaptRate a'.nbPackets := by rw [adaptRate, adaptRate, if_pos ha, if_pos hua, hsame]

/-- Of one packet sent, two are reported, then none. -/
theorem run_rate_report : ∃ e e' : Encoder,
    run .debug gf16 [.setRate 3, .setAdaptive true, .data [1]] = .ok e ∧ 0 < e.rate ∧
      e.call .debug gf16 (report 2) = .ok e' ∧ 1 ≤ e'.rate ∧ e'.rate ≤ 50 := by
  obtain ⟨e, he, hadaptive⟩ := exists_ok_of_any
    (x := run .debug gf16 [.setRate 3, .setAdaptive true, .data [1]])
    (p := fun e => e.adaptive) (by decide +kernel)
  have hack := acknowledges_report .debug (show 2 < 2 ^ 16 by decide)
  have hnext := call_acknowledges (g := gf16) hack e
  obtain ⟨hrate, -, hbounds, -⟩ := run_rate (by simp) he
  exact ⟨e, _, he, hrate, hnext, hbounds _ _ _ hadaptive hack hnext⟩

end Encoder

end Netcode
