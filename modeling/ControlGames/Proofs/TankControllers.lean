import ControlGames.Proofs.InvarianceKernel
import ControlGames.Proofs.ReportLines
import ControlGames.Proofs.Regions
import ControlGames.Proofs.TankTransitions

/-!
# Controllers of a tank

Either all levels of the band win or none does. Below its lower end the level has to be made up for
the largest demand, above its upper end for the smallest one; where the band can be kept, it is kept
by just the rates that allow for both. If the pump is too weak, the lowest winning level could not
be kept; if the demands spread too far, no level of the band could.
-/
namespace ControlGames.Scenario.Tank

variable {t : Tank}

variable (t) in
/-- The level lies between the ends of the band. -/
def InBand (level : ℕ) : Prop := t.low ≤ level ∧ level ≤ t.high

variable (t) in
/-- There is a pump, and if the lower end of the band matters, the pump makes up for the largest
demand, and the demands spread no farther than the band is wide, if its upper end matters. -/
def Sustainable : Prop :=
  0 < t.rates ∧ (t.low = 0 ∨ t.demandMax < t.rates ∧
    (t.levels - 1 ≤ t.high ∨ (t.demandMax : ℤ) - t.demandMin ≤ t.high - t.low))

variable (t) in
/-- After a step at the rate the level is high enough for the largest demand and low enough for the
smallest one, if the ends of the band matter. -/
def Keeps (level rate : ℕ) : Prop :=
  (t.low = 0 ∨ t.low + t.demandMax ≤ level + rate) ∧
    (t.levels - 1 ≤ t.high ∨ level + rate ≤ t.high + t.demandMin)

instance (level : ℕ) : Decidable (t.InBand level) := inferInstanceAs (Decidable (_ ∧ _))

instance : Decidable t.Sustainable := inferInstanceAs (Decidable (_ ∧ _))

instance (level : ℕ) : DecidablePred (t.Keeps level) :=
  fun _ => inferInstanceAs (Decidable (_ ∧ _))

variable (t) in
def validRates (level : ℕ) : List ℕ :=
  if t.Sustainable ∧ t.InBand level then (List.range t.rates).filter fun rate => t.Keeps level rate
  else []

/-! ### The kernel of the band -/

section Kernel

variable {n m : ℕ} {R : Fin n → Fin m → Fin n → Prop} {i : Fin n} {j : Fin m}

/-- The levels of a tank, its rates and the steps between its levels. -/
structure Steps (t : Tank) (R : Fin n → Fin m → Fin n → Prop) : Prop where
  levels : n = t.levels
  rates : m = t.rates
  leads_iff : ∀ i j k, R i j k ↔ ∃ d, t.demandMin ≤ d ∧ d ≤ t.demandMax ∧ t.after i j d = k.val

variable (h : t.Ordinary) (hR : Steps t R)

include h hR

theorem Steps.exists_leads (i : Fin n) (j : Fin m) {d : ℕ} (hmin : t.demandMin ≤ d)
    (hmax : d ≤ t.demandMax) : ∃ k, R i j k ∧ k.val = t.after i j d := by
  have hlt : t.after i j d < n := (h.after_lt i j d).trans_eq hR.levels.symm
  exact ⟨⟨_, hlt⟩, (hR.leads_iff i j _).mpr ⟨d, hmin, hmax, rfl⟩, rfl⟩

/-- At a level of the band, a rate forces the band just if it keeps it. -/
theorem Steps.forces_band_iff (hi : t.InBand i) :
    Forces R i j {k | t.InBand k} ↔ t.Keeps i j := by
  have hlevel : i.val < t.levels := i.isLt.trans_eq hR.levels
  have hdemand := h.demand_le
  rw [InBand] at hi
  rw [Keeps]
  constructor
  · rintro ⟨-, hall⟩
    obtain ⟨k, hk, hlow⟩ := hR.exists_leads h i j hdemand le_rfl
    obtain ⟨k', hk', hhigh⟩ := hR.exists_leads h i j le_rfl hdemand
    have hkband : t.InBand k := hall k hk
    have hkband' : t.InBand k' := hall k' hk'
    rw [InBand, hlow, after] at hkband
    rw [InBand, hhigh, after] at hkband'
    omega
  · intro hkeeps
    obtain ⟨k, hk, -⟩ := hR.exists_leads h i j le_rfl hdemand
    refine ⟨⟨k, hk⟩, fun k hk => ?_⟩
    obtain ⟨d, hmin, hmax, hd⟩ := (hR.leads_iff i j k).mp hk
    change t.InBand k
    rw [InBand, ← hd, after]
    omega

omit h in
theorem Steps.exists_keeps (hs : t.Sustainable) (hi : t.InBand i) : ∃ j : Fin m, t.Keeps i j := by
  have hlevel : i.val < t.levels := i.isLt.trans_eq hR.levels
  obtain ⟨hrates, hs⟩ := hs
  rw [InBand] at hi
  by_cases hlow : t.low = 0
  · refine ⟨⟨0, hrates.trans_eq hR.rates.symm⟩, ?_⟩
    simp only [Keeps]
    omega
  · -- The rate makes up for what the largest demand takes the level below the band.
    have hrate : t.low + t.demandMax - i < m := by
      rw [hR.rates]
      omega
    refine ⟨⟨t.low + t.demandMax - i, hrate⟩, ?_⟩
    simp only [Keeps]
    omega

/-- Without that the kernel of the band is empty, since no level of it can be the lowest. -/
theorem Steps.notMem_kernel (hs : ¬ t.Sustainable) (i : Fin n) :
    i ∉ kernel R {k | t.InBand k} := by
  induction i using WellFoundedLT.induction with
  | _ i ih =>
    intro hi
    obtain ⟨j, hj⟩ := exists_forces_kernel hi
    have hband : i ∈ {k : Fin n | t.InBand k} := kernel_subset hi
    have hkeeps := (hR.forces_band_iff h hband).mp (hj.mono kernel_subset)
    have hrate : j.val < t.rates := j.isLt.trans_eq hR.rates
    rw [Sustainable] at hs
    rw [Set.mem_ofPred_eq, InBand] at hband
    rw [Keeps] at hkeeps
    -- Either the demands spread too far, or the pump cannot keep up with the largest one.
    have hweak : t.rates ≤ t.demandMax ∧ 0 < t.low := by omega
    obtain ⟨k, hk, hlow⟩ := hR.exists_leads h i j h.demand_le le_rfl
    have hki : k < i := by
      rw [Fin.lt_def, hlow, after]
      omega
    exact ih k hki (hj.2 k hk)

theorem Steps.kernel_eq : kernel R {k | t.InBand k} =
    {k : Fin n | t.Sustainable ∧ t.InBand k} := by
  by_cases hs : t.Sustainable
  · simp only [hs, true_and]
    refine kernel_subset.antisymm (subset_kernel subset_rfl fun k hk => ?_)
    obtain ⟨j, hj⟩ := hR.exists_keeps hs hk
    exact ⟨j, (hR.forces_band_iff h hk).mpr hj⟩
  · ext k
    exact iff_of_false (hR.notMem_kernel h hs k) fun hk => hs hk.1

end Kernel

/-! ### The region -/

theorem Ordinary.band_eq_ok (h : t.Ordinary) : t.band = .ok ⟨t.low, t.high + 1⟩ := by
  have hlow : t.low < wordSize := h.low_lt.trans (by decide)
  have hhigh : t.high + 1 < wordSize := (Nat.succ_lt_succ h.high_lt).trans (by decide)
  simp only [band, Nat.mod_eq_of_lt hlow, Nat.mod_eq_of_lt (Nat.lt_of_succ_lt hhigh), hhigh,
    if_true]

theorem members_band (s : Store) :
    s.members (⟨t.low, t.high + 1⟩ : IdRange) = {k : Fin s.numStates | t.InBand k} := by
  ext k
  change (decide (t.low ≤ k.val) && decide (k.val < t.high + 1)) = true ↔ _
  simp [InBand]

theorem filter_finRange_val {m : ℕ} {p : Fin m → Bool} {p' : ℕ → Bool}
    (hp : ∀ j : Fin m, p j = p' j) :
    ((List.finRange m).filter p).map Fin.val = (List.range m).filter p' := by
  rw [← List.map_coe_finRange_eq_range, List.filter_map]
  exact congrArg _ (List.filter_congr fun j _ => hp j)

/-- What a region tells about the levels of a tank. -/
structure Controls (t : Tank) (r : Region) : Prop where
  isWinning : ∀ c : State, c.id < t.levels →
    r.isWinning c = .ok (decide (t.Sustainable ∧ t.InBand c.id))
  inputs : ∀ c : State, c.id < t.levels →
    ∃ us, r.inputs c = .ok us ∧ us.map Input.id = t.validRates c.id

open Invariance in
theorem Ordinary.controls_of_solve (h : t.Ordinary) {b : Builder} {mem mem' : Memory} {s : Store}
    {r : Region} (hb : (b.build mem).result = .ok s) (htriples : b.triples = t.transitions)
    (hn : s.numStates = t.levels) (hm : s.numInputs = t.rates)
    (hr : (s.solveInvariance mem' (⟨t.low, t.high + 1⟩ : IdRange)).result = .ok r) :
    t.Controls r := by
  have hsteps : Steps t (b.Leads (n := s.numStates) (m := s.numInputs)) :=
    ⟨hn, hm, leads_iff htriples hn hm⟩
  have hkernel := hsteps.kernel_eq h
  rw [← members_band] at hkernel
  constructor
  · intro c hc
    obtain ⟨i, rfl⟩ := Store.exists_state_eq (hc.trans_eq hn.symm)
    obtain ⟨w, hw, hwin⟩ := exists_isWinning_eq_ok hb hr i
    rw [hkernel] at hwin
    rw [hw, Except.ok.injEq, Bool.eq_iff_iff, decide_eq_true_iff]
    exact hwin
  · intro c hc
    obtain ⟨i, rfl⟩ := Store.exists_state_eq (hc.trans_eq hn.symm)
    have hvalid := isValid_eq_true_iff hb hr i
    obtain ⟨valid, rfl, -⟩ := exists_eq_ofMatrix (Builder.exact_of_build hb).inside hr
    simp only [Region.isValid_ofMatrix, Except.ok.injEq, hkernel, Set.mem_ofPred_eq] at hvalid
    refine ⟨_, rfl, ?_⟩
    rw [Region.row, List.map_map]
    change ((List.finRange s.numInputs).filter fun j : Fin s.numInputs =>
      valid.contains (Region.bit s.numInputs i j)).map Fin.val = t.validRates i
    rw [validRates]
    split
    · next hband =>
      have hforces : ∀ j : Fin s.numInputs,
          valid.contains (Region.bit s.numInputs i j) = decide (t.Keeps i j) := by
        intro j
        rw [Bool.eq_iff_iff, decide_eq_true_iff, hvalid, and_iff_right hband,
          ← hsteps.forces_band_iff h hband.2]
        simp only [hband.1, true_and]
      rw [← hm]
      exact filter_finRange_val hforces
    · next hband =>
      rw [List.map_eq_nil_iff, List.filter_eq_nil_iff]
      exact fun j _ hj => hband ((hvalid j).mp hj).1

/-! ### The report -/

open Reporting

def levelText (level : ℕ) (rates : List ℕ) : String :=
  "  " ++ "".pushn ' ' (3 - (toString level).length) ++ toString level ++ ": " ++
    if rates.isEmpty then "-" else " ".intercalate (rates.map toString)

theorem Controls.levelLine_eq {r : Region} (hr : t.Controls r) {c : State} (hc : c.id < t.levels) :
    levelLine r c = .ok (levelText c.id (t.validRates c.id)) := by
  obtain ⟨us, hus, hrates⟩ := hr.inputs c hc
  rw [levelLine]
  refine bind_eq_ok_iff.mpr ⟨us, hus, ?_⟩
  rw [levelText, ← hrates, List.map_map]
  cases us <;> rfl

theorem Controls.levelLines_eq {r : Region} {s : Store} (hr : t.Controls r)
    (hn : s.numStates = t.levels) : s.states.reverse.mapM (levelLine r) =
      .ok ((List.range t.levels).reverse.map fun level =>
        levelText level (t.validRates level)) := by
  have hlines : s.states.reverse.mapM (levelLine r) =
      .ok (s.states.reverse.map fun c => levelText c.id (t.validRates c.id)) := by
    refine mapM_eq_ok fun c hc => hr.levelLine_eq ?_
    obtain ⟨i, -, rfl⟩ := List.mem_map.mp (List.mem_reverse.mp hc)
    exact i.isLt.trans_eq hn
  rw [hlines, ← hn, ← List.map_coe_finRange_eq_range, Store.states, ← List.map_reverse,
    ← List.map_reverse, List.map_map, List.map_map]
  rfl

theorem Ordinary.yields_check (h : t.Ordinary) : Yields t.check () [] := by
  rw [check, if_neg h.demand_le.not_gt, if_neg h.levels_pos.ne']
  exact (yields_pure ()).bind (yields_pure ())

theorem Ordinary.yields_reporting (h : t.Ordinary) {mem : Memory} {s : Store} {r : Region}
    (hs : t.build mem = .ok s) (hn : s.numStates = t.levels)
    (hr : (s.solveInvariance mem (⟨t.low, t.high + 1⟩ : IdRange)).result = .ok r)
    (hcontrols : t.Controls r) : Yields (t.reporting mem) none
      (.plain s!"tf = {s.describe}" ::
        .note s!"Winning levels: {r.size} of {s.numStates}" ::
        .note s!"Admissible memoryless controllers: {r.countControllers}" ::
        .plain "Valid pump rates per level:" ::
        ((List.range t.levels).reverse.map fun level =>
          levelText level (t.validRates level)).map .plain) := by
  rw [← List.append_nil (List.map Line.plain _)]
  refine h.yields_check.bind ((yields_orEnd hs).bind ((yields_say _).bind ?_))
  refine (yields_orFail h.band_eq_ok).bind ((yields_orEnd hr).bind ((yields_note _).bind ?_))
  refine (yields_note _).bind ((yields_say _).bind ?_)
  refine (yields_orFail (hcontrols.levelLines_eq hn)).bind ?_
  exact (yields_forM_say _).bind (yields_pure none)

/-- All levels of the band win, or none does, and the report shows which rates may be used. -/
theorem Ordinary.all_or_nothing (h : t.Ordinary) {mem : Memory} {s : Store}
    (hs : t.build mem = .ok s)
    (hmem : Invariance.reservePeeling mem t.levels t.rates = .ok ()) :
    ∃ band r, t.band = .ok band ∧ (s.solveInvariance mem band).result = .ok r ∧
      (∀ c : State, c.id < t.levels →
        r.isWinning c = .ok (decide (t.Sustainable ∧ t.InBand c.id)) ∧
        ∃ us, r.inputs c = .ok us ∧ us.map Input.id = t.validRates c.id) ∧
      (t.report mem).lines.toList =
        .plain s!"tf = {s.describe}" ::
        .note s!"Winning levels: {r.size} of {t.levels}" ::
        .note s!"Admissible memoryless controllers: {r.countControllers}" ::
        .plain "Valid pump rates per level:" ::
        (List.range t.levels).reverse.map fun level =>
          .plain (levelText level (t.validRates level)) := by
  obtain ⟨b, hb, htriples, hn, hm⟩ := h.exists_builder hs
  have halphabet : s.numInputs < reserved - 1 := hm.trans_lt (h.rates_lt.trans (by decide))
  obtain ⟨r, hr, -⟩ := Store.solveInvariance_eq_kernel hb halphabet (by rwa [hn, hm])
    (⟨t.low, t.high + 1⟩ : IdRange)
  have hcontrols := h.controls_of_solve hb htriples hn hm hr
  refine ⟨_, r, h.band_eq_ok, hr, fun c hc => ⟨hcontrols.isWinning c hc, hcontrols.inputs c hc⟩, ?_⟩
  rw [report, (h.yields_reporting hs hn hr hcontrols).prints.lines_run, List.map_map, hn]
  rfl

/-- At level 5 the standard tank may use just its two highest rates. -/
theorem Ordinary.all_or_nothing_standard : standard.Ordinary ∧ ∃ s band r,
    standard.build .ample = .ok s ∧
    Invariance.reservePeeling .ample standard.levels standard.rates = .ok () ∧
    standard.band = .ok band ∧ (s.solveInvariance .ample band).result = .ok r ∧
    ∃ us, r.inputs ⟨5, by decide⟩ = .ok us ∧ us.map Input.id = [3, 4] := by
  have hordinary : standard.Ordinary := ⟨by decide, by decide, by decide, by decide, by decide,
    by decide, by decide⟩
  have hmem : Invariance.reservePeeling .ample standard.levels standard.rates = .ok () := rfl
  have hcount : standard.transitions.length ≤ maxTransitions := by
    rw [length_transitions]
    decide
  obtain ⟨s, hs⟩ := hordinary.exists_build_ample (by decide) hcount
  obtain ⟨band, r, hband, hr, hlevels, -⟩ := hordinary.all_or_nothing hs hmem
  obtain ⟨-, us, hus, hrates⟩ := hlevels ⟨5, by decide⟩ (by decide)
  exact ⟨hordinary, s, band, r, hs, hmem, hband, hr, us, hus, hrates⟩

end ControlGames.Scenario.Tank
