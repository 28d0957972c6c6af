import ControlGames.Proofs.NumberedTransitions
import ControlGames.Scenario.Tank

/-!
# Transitions of a tank

After every step the level of a tank is one of its levels, since an empty tank stays empty and a
full one full. So the store that is built holds one transition for each level, rate and demand, as
long as all parameters are small enough for signed arithmetic.
-/
namespace ControlGames.Scenario.Tank

variable {t : Tank} {k i j d q : ℕ}

/-- A tank with at least one level, some demand, and parameters of 31 bits. -/
structure Ordinary (t : Tank) : Prop where
  levels_pos : 0 < t.levels
  demand_le : t.demandMin ≤ t.demandMax
  levels_lt : t.levels < 0x80000000
  rates_lt : t.rates < 0x80000000
  demandMax_lt : t.demandMax < 0x80000000
  low_lt : t.low < 0x80000000
  high_lt : t.high < 0x80000000

/-! ### Steps -/

variable (t) in
/-- The level after a step: an empty tank loses nothing, a full one overflows. -/
def after (level rate demand : ℕ) : ℕ := min (level + rate - demand) (t.levels - 1)

variable (t) in
def pairTransitions (k : ℕ) : List Triple :=
  (List.range' t.demandMin (t.demandMax + 1 - t.demandMin)).map fun demand =>
    (k / t.rates, k % t.rates, t.after (k / t.rates) (k % t.rates) demand)

variable (t) in
def transitions : List Triple := (List.range (t.levels * t.rates)).flatMap t.pairTransitions

theorem mem_transitions : (i, j, q) ∈ t.transitions ↔ i < t.levels ∧ j < t.rates ∧
    ∃ d, t.demandMin ≤ d ∧ d ≤ t.demandMax ∧ t.after i j d = q := by
  simp only [transitions, pairTransitions, List.mem_flatMap, List.mem_range, List.mem_map,
    List.mem_range'_1, Prod.mk.injEq]
  constructor
  · rintro ⟨k, hk, d, hd, rfl, rfl, rfl⟩
    have hpos : 0 < t.rates := Nat.pos_of_mul_pos_left (Nat.zero_lt_of_lt hk)
    rw [Nat.mul_comm] at hk
    exact ⟨Nat.div_lt_of_lt_mul hk, Nat.mod_lt k hpos, d, hd.1, by omega, rfl⟩
  · rintro ⟨hi, hj, d, hmin, hmax, rfl⟩
    have hk : i * t.rates + j < t.levels * t.rates :=
      (Table.place (⟨i, hi⟩ : Fin t.levels) (⟨j, hj⟩ : Fin t.rates)).isLt
    have hdiv : (i * t.rates + j) / t.rates = i := by
      rw [Nat.mul_comm, Nat.mul_add_div (Nat.zero_lt_of_lt hj), Nat.div_eq_of_lt hj, Nat.add_zero]
    have hmod : (i * t.rates + j) % t.rates = j := by
      rw [Nat.mul_add_mod_self_right, Nat.mod_eq_of_lt hj]
    exact ⟨i * t.rates + j, hk, d, ⟨hmin, by omega⟩, hdiv, hmod, by rw [hdiv, hmod]⟩

theorem length_transitions (t : Tank) :
    t.transitions.length = t.levels * t.rates * (t.demandMax + 1 - t.demandMin) := by
  simp [transitions, pairTransitions, List.length_flatMap]

namespace Ordinary

variable (h : t.Ordinary)

include h

theorem after_lt (i j d : ℕ) : t.after i j d < t.levels := by
  have hpos := h.levels_pos
  rw [after]
  omega

theorem inRange : InRange t.levels t.rates t.transitions := by
  rintro ⟨p, j, q⟩ ht
  obtain ⟨hp, hj, d, -, -, rfl⟩ := mem_transitions.mp ht
  exact ⟨hp, hj, h.after_lt p j d⟩

theorem lastPlace_levels : lastPlace t.levels = .ok ((t.levels - 1 : ℕ) : ℤ) := by
  have hpos := h.levels_pos
  have hlt := h.levels_lt
  obtain ⟨n, hn⟩ := Nat.exists_eq_add_one.mpr hpos
  rw [hn]
  apply lastPlace_succ
  unfold signedBound
  omega

theorem next_eq_ok (hi : i < t.levels) (hj : j < t.rates) (hd : d ≤ t.demandMax) :
    next (t.levels - 1 : ℕ) i j d = .ok (t.after i j d) := by
  have hlevels := h.levels_lt
  have hrates := h.rates_lt
  have hdemand := h.demandMax_lt
  have hsigned : signed d = d := signed_of_lt (by unfold signedBound; omega)
  have hsub : signedSub (i + j) (signed d) = .ok (i + j - d) := by
    rw [hsigned, signedSub_eq_ok_iff]
    unfold signedBound
    omega
  have htoNat : ((i : ℤ) + j - d).toNat = i + j - d := by omega
  refine bind_eq_ok_iff.mpr ⟨_, hsub, ?_⟩
  rw [nearestPlace_natCast, htoNat, after]

theorem addStep_eq (hi : i < t.levels) (hj : j < t.rates) (hd : d ≤ t.demandMax) (b : Builder) :
    addStep (t.levels - 1 : ℕ) i j b d = b.addIds (i, j, t.after i j d) := by
  have hlevels := h.levels_lt
  have hrates := h.rates_lt
  have hafter := h.after_lt i j d
  rw [addStep, h.next_eq_ok hi hj hd]
  change b.addIds (i % wordSize, j % wordSize, t.after i j d % wordSize) = _
  rw [Nat.mod_eq_of_lt (by unfold wordSize; omega), Nat.mod_eq_of_lt (by unfold wordSize; omega),
    Nat.mod_eq_of_lt (by unfold wordSize; omega)]

theorem addSteps_eq (hk : k < t.levels * t.rates) (b : Builder) :
    t.addSteps (t.levels - 1 : ℕ) b k = (t.pairTransitions k).foldlM Builder.addIds b := by
  have hpos : 0 < t.rates := Nat.pos_of_mul_pos_left (Nat.zero_lt_of_lt hk)
  have hi : k / t.rates < t.levels := Nat.div_lt_of_lt_mul (by rwa [Nat.mul_comm])
  have hj : k % t.rates < t.rates := Nat.mod_lt k hpos
  have hdemand := h.demand_le
  rw [addSteps, pairTransitions, List.map_eq_flatMap]
  apply foldCount_eq_foldlM_flatMap
  intro b d hd
  have hle : d ≤ t.demandMax := by omega
  rw [h.addStep_eq hi hj hle, List.foldlM_cons]
  simp

theorem build_eq {mem : Memory} {b : Builder}
    (hb : t.transitions.foldlM Builder.addIds (Builder.new t.levels t.rates) = .ok b) :
    t.build mem = (b.build mem).result := by
  have hpair : ∀ b, ∀ k < 0 + t.levels * t.rates,
      t.addSteps (t.levels - 1 : ℕ) b k = (t.pairTransitions k).foldlM Builder.addIds b := by
    intro b k hk
    exact h.addSteps_eq (by omega) b
  have hfold : foldCount (t.addSteps (t.levels - 1 : ℕ)) 0 (t.levels * t.rates)
      (Builder.new t.levels t.rates) = .ok b := by
    rw [foldCount_eq_foldlM_flatMap hpair, ← hb, transitions, List.range_eq_range']
  rw [build, h.lastPlace_levels]
  simp only [orFail, hfold, bind, Except.bind]

theorem exists_builder {mem : Memory} {s : Store} (hs : t.build mem = .ok s) :
    ∃ b : Builder, (b.build mem).result = .ok s ∧ b.triples = t.transitions ∧
      s.numStates = t.levels ∧ s.numInputs = t.rates := by
  have hlevels := h.levels_lt
  have hrates := h.rates_lt
  have hacceptable : ∀ x ∈ t.transitions, Acceptable t.levels t.rates x := by
    intro x hx
    obtain ⟨hpre, hinput, hpost⟩ := h.inRange x hx
    refine ⟨⟨hpre, hinput, hpost⟩, ?_, ?_, ?_⟩ <;> unfold reserved wordSize <;> omega
  obtain ⟨b, hb, hext⟩ := Builder.exists_foldlM_addIds_eq_ok
    (b := Builder.new t.levels t.rates) hacceptable
  rw [h.build_eq hb] at hs
  obtain ⟨hn, hm⟩ := Builder.sizes_of_build hs
  exact ⟨b, hs, hext.triples, hn.trans hext.numStates, hm.trans hext.numInputs⟩

theorem exists_build_ample (hpairs : t.levels * t.rates < 0x100000000000)
    (hcount : t.transitions.length ≤ maxTransitions) : ∃ s, t.build .ample = .ok s := by
  have hcard : t.transitions.toFinset.card ≤ maxTransitions :=
    (List.toFinset_card_le _).trans hcount
  have htables : Store.reserveTables .ample (t.levels * t.rates) = .ok () := by
    simp only [Store.reserveTables, Memory.reserve_ample _ hpairs]
    rfl
  have hslots := Memory.reserve_ample .predecessorArray (hcard.trans_lt (by decide))
  have hlevels : t.levels ≤ reserved := (h.levels_lt.trans (by decide)).le
  have hrates : t.rates ≤ reserved := (h.rates_lt.trans (by decide)).le
  obtain ⟨b, s, hb, hs, -⟩ := Builder.exists_build_foldlM_addIds hlevels hrates h.inRange hcard
    htables hslots (Memory.reserve_ample _ hpairs)
  exact ⟨s, (h.build_eq hb).trans hs⟩

end Ordinary

theorem leads_iff {b : Builder} {s : Store} (hb : b.triples = t.transitions)
    (hn : s.numStates = t.levels) (hm : s.numInputs = t.rates) (i : Fin s.numStates)
    (j : Fin s.numInputs) (k : Fin s.numStates) :
    b.Leads i j k ↔ ∃ d, t.demandMin ≤ d ∧ d ≤ t.demandMax ∧ t.after i j d = k := by
  rw [Builder.leads_iff_mem_triples, hb, mem_transitions]
  exact ⟨fun hleads => hleads.2.2, fun hleads => ⟨i.isLt.trans_eq hn, j.isLt.trans_eq hm, hleads⟩⟩

end ControlGames.Scenario.Tank
