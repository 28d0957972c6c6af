import ControlGames.Proofs.EqualRegions
import ControlGames.Proofs.IndexSetHistories

/-!
# The log of a peeling

The peeling writes one record for each state that loses its last input on the way. With the states
that are losing from the start and those that win, these are all states. In the same way the inputs
taken away and the inputs left are all that were valid at first.
-/
namespace ControlGames

/-- A state that loses its last input, since the input may lead to a losing state. -/
structure Loss (s : Store) where
  state : Fin s.numStates
  input : Fin s.numInputs
  via : Fin s.numStates

def Loss.event {s : Store} (l : Loss s) : Event :=
  .losesLast (s.state l.state) (s.input l.input) (s.state l.via)

theorem Loss.traced_messages {s : Store} {ls : List (Loss s)} {log : List Event}
    {n m t k w c : ℕ}
    (hlog : log = [.solvingInvariance n m t, .initiallyLosing k] ++ ls.map event ++
      [.invarianceSolved w c]) :
    (log.filter fun e => e.level = .trace).map Event.message = ls.map fun l =>
      s!"{s.state l.state} loses its last input {s.input l.input} via {s.state l.via}" := by
  have hlosses : ∀ e ∈ ls.map event, e.level = .trace := by
    intro e he
    obtain ⟨l, -, rfl⟩ := List.mem_map.mp he
    rfl
  rw [hlog, Event.filter_trace_eq (by simp [Event.level]) hlosses (by simp [Event.level]),
    List.map_map]
  rfl

namespace Invariance

variable {s : Store} {α : Type} [StateSet α] {safe : α} {log : Log} {p q : Peeling s}
  {H : List (Visit s.numStates s.numInputs)}

/-! ### Records -/

variable (s safe) in
def firstLosing : List (Fin s.numStates) := (initial s safe #[]).losing.arrivals.toList

theorem mem_firstLosing (i : Fin s.numStates) :
    i ∈ firstLosing s safe ↔ ∀ j, isValidFirst s safe i j = false := by
  have hinitial := progress_initial s safe #[]
  rw [firstLosing, hinitial.mem_iff, hinitial.countAt_eq_zero_iff]
  refine forall_congr' fun j => ?_
  rw [← Bool.not_eq_true, ← Bool.not_eq_true, hinitial.holds_iff,
    and_iff_left fun v hv => absurd hv List.not_mem_nil]

/-- Behind the states that are losing from the start, the worklist holds those that lose their last
input on the way. The latter are the losses recorded in the log, each of them by way of a state that
has arrived. -/
structure Ledger (s : Store) {α : Type} [StateSet α] (safe : α) (log : Log) (ls : List (Loss s))
    (p : Peeling s) : Prop where
  arrivals : p.losing.arrivals.toList = firstLosing s safe ++ ls.map Loss.state
  log : p.log.toList =
    log.toList ++ .initiallyLosing (firstLosing s safe).length :: ls.map Loss.event
  via : ∀ l ∈ ls, l.via ∈ p.losing.arrivals.toList ∧ s.Leads l.state l.input l.via

theorem ledger_initial : Ledger s safe log [] (initial s safe log) where
  arrivals := (List.append_nil _).symm
  log := Array.toList_push
  via := nofun

/-- A state that loses its last input goes to the end of the worklist and of the log. -/
theorem Ledger.lost {ls : List (Loss s)} (h : Ledger s safe log ls p) {i k : Fin s.numStates}
    {j : Fin s.numInputs} (hnew : p.losing.entered.isMarked i = false)
    (hk : k ∈ p.losing.arrivals.toList) (hleads : s.Leads i j k) (c : ℕ) :
    Ledger s safe log (ls ++ [⟨i, j, k⟩]) (p.lost i j c k hnew) := by
  constructor
  · rw [Peeling.lost_losing, Worklist.arrivals_enter, h.arrivals, List.map_append,
      List.append_assoc]
    rfl
  · change (p.log.push (Event.losesLast (s.state i) (s.input j) (s.state k))).toList = _
    rw [Array.toList_push, h.log, List.map_append, List.append_assoc, List.cons_append]
    rfl
  · intro l hl
    rw [Peeling.lost_losing, Worklist.arrivals_enter, List.mem_append]
    rcases List.mem_append.mp hl with hl | hl
    · exact ⟨Or.inl (h.via l hl).1, (h.via l hl).2⟩
    · rw [List.mem_singleton.mp hl]
      exact ⟨Or.inl hk, hleads⟩

theorem AfterVisits.exists_ledger (hp : AfterVisits s safe log H p) :
    ∃ ls, Ledger s safe log ls p := by
  induction hp with
  | initial => exact ⟨[], ledger_initial⟩
  | @visit H k v p q hp hk hv hq ih =>
    obtain ⟨ls, hls⟩ := ih
    have hlisted := (Store.mem_visits.mp hv).2
    generalize v.pre = x at hlisted hq
    cases hq with
    | kept hx => exact ⟨ls, hls⟩
    | dropped hi hc hopen => exact ⟨ls, hls.arrivals, hls.log, hls.via⟩
    | lost hi hc hnew => exact ⟨_, hls.lost hnew hk hlisted 0⟩

/-! ### Inputs taken away -/

/-- The inputs taken away and those that are still valid are the ones that were valid at first. -/
theorem AfterVisits.invalidated_add_count (hp : AfterVisits s safe log H p) :
    p.invalidated + p.valid.count = (initialBits s safe).count := by
  induction hp with
  | initial => exact Nat.zero_add _
  | @visit H k v p q hp hk hv hq ih =>
    have hdropped : ∀ (i : Fin s.numStates) (c : ℕ), p.holds i v.input = true →
        (p.dropped i v.input c).invalidated + (p.dropped i v.input c).valid.count =
          (initialBits s safe).count := by
      intro i c hi
      have hremove := hp.progress.fits.counted.count_remove hi
      change p.invalidated + 1 + (p.valid.remove (Region.bit s.numInputs i v.input)).2.count = _
      omega
    generalize v.pre = x at hq
    cases hq with
    | kept hx => exact ih
    | dropped hi hc hopen => exact hdropped _ _ hi
    | lost hi hc hnew => exact hdropped _ 0 hi

theorem Matrix.count_eq_ncard (h : Matrix s safe H p) :
    p.valid.count = {x : Fin s.numStates × Fin s.numInputs | p.holds x.1 x.2 = true}.ncard := by
  let place (x : Fin s.numStates × Fin s.numInputs) : ℕ := Region.bit s.numInputs x.1 x.2
  have hinj : Function.Injective place := by
    rintro ⟨i, j⟩ ⟨i', j'⟩ hbit
    obtain ⟨hi, hj⟩ := Region.bit_inj.mp hbit
    exact Prod.ext (Fin.ext hi) hj
  have himage : p.valid.members = place '' {x | p.holds x.1 x.2 = true} := by
    ext b
    rw [IndexSet.mem_members]
    constructor
    · intro hb
      obtain ⟨i, j, rfl⟩ := h.inside b hb
      exact ⟨(i, j), hb, rfl⟩
    · rintro ⟨x, hx, rfl⟩
      exact hx
  rw [h.fits.counted, himage, Set.ncard_image_of_injective _ hinj]

variable (s safe) in
theorem count_initialBits : (initialBits s safe).count =
    {x : Fin s.numStates × Fin s.numInputs | isValidFirst s safe x.1 x.2 = true}.ncard := by
  have hinitial := matrix_initial s safe #[]
  refine hinitial.count_eq_ncard.trans (congrArg Set.ncard (Set.ext fun x => ?_))
  exact (hinitial.holds_iff x.1 x.2).trans (and_iff_left nofun)

end Invariance

/-! ### The log of a region -/

/-- There is one loss for each state that does not win although it is safe and an input can be
applied there, by way of a state that does not win either. -/
structure Region.ExplainedBy (r : Region) (s : Store) {α : Type} [StateSet α] (safe : α)
    (ls : List (Loss s)) : Prop where
  nodup : (ls.map Loss.state).Nodup
  mem_iff : ∀ i, i ∈ ls.map Loss.state ↔
    r.isWinning (s.state i) = .ok false ∧ i ∈ s.members safe ∧ ∃ j, 0 < s.successorCountAt i j
  via : ∀ l ∈ ls, r.isWinning (s.state l.via) = .ok false ∧ s.Leads l.state l.input l.via

namespace Invariance

variable {s : Store} {mem : Memory} {α : Type} [StateSet α] {safe : α} {log : Log} {p : Peeling s}

theorem isValidFirst_eq_true_iff (i : Fin s.numStates) (j : Fin s.numInputs) :
    isValidFirst s safe i j = true ↔ i ∈ s.members safe ∧ 0 < s.successorCountAt i j := by
  rw [isValidFirst, Bool.and_eq_true, Store.containsId_eq_true_iff, Store.applicable,
    decide_eq_true_iff]

theorem Progress.isWinning_eq_false_iff
    (h : Progress s safe (p.losing.arrivals.toList.flatMap s.visits) p) (i : Fin s.numStates) :
    (Region.ofMatrix s.sizes_le p.valid).isWinning (s.state i) = .ok false ↔ Losing s safe i := by
  obtain ⟨w, hw, hwin⟩ := h.exists_isWinning i
  rw [hw, Except.ok.injEq, ← Bool.not_eq_true, hwin, not_not]

theorem Ledger.explainedBy {ls : List (Loss s)} (h : Ledger s safe log ls p)
    (hend : Progress s safe (p.losing.arrivals.toList.flatMap s.visits) p) :
    (Region.ofMatrix s.sizes_le p.valid).ExplainedBy s safe ls := by
  have hnodup := hend.faithful.nodup
  rw [h.arrivals] at hnodup
  have hopen : ∀ i, i ∉ firstLosing s safe ↔
      i ∈ s.members safe ∧ ∃ j, 0 < s.successorCountAt i j := by
    intro i
    rw [mem_firstLosing, not_forall, ← exists_and_left]
    refine exists_congr fun j => ?_
    rw [Bool.not_eq_false, isValidFirst_eq_true_iff]
  refine ⟨hnodup.of_append_right, fun i => ?_, fun l hl => ?_⟩
  · rw [hend.isWinning_eq_false_iff, ← hend.mem_arrivals_iff, h.arrivals, List.mem_append, ← hopen]
    constructor
    · intro hi
      exact ⟨Or.inr hi, fun hfirst => (List.disjoint_of_nodup_append hnodup) hfirst hi⟩
    · rintro ⟨hi, hfirst⟩
      exact hi.resolve_left hfirst
  · obtain ⟨hvia, hleads⟩ := h.via l hl
    exact ⟨(hend.isWinning_eq_false_iff _).mpr ((hend.mem_arrivals_iff _).mp hvia), hleads⟩

/-- The log with which a game is begun. -/
def openingLog (s : Store) : Log :=
  #[.solvingInvariance s.numStates s.numInputs s.transitionCount]

theorem solveInvariance_of_run (hm : s.numInputs < reserved - 1)
    (hmem : reservePeeling mem s.numStates s.numInputs = .ok ())
    (hrun : run (initial s safe (openingLog s)) 0 = .ok p) :
    s.solveInvariance mem safe =
      ⟨p.log.push (.invarianceSolved (Region.ofMatrix s.sizes_le p.valid).size p.invalidated),
        .ok (.ofMatrix s.sizes_le p.valid)⟩ := by
  rw [openingLog] at hrun
  rw [Store.solveInvariance, Region.checkAlphabet_eq_ok_iff.mpr hm]
  simp only [hmem, hrun]

theorem AfterVisits.invalidated_add_ncard {H : List (Visit s.numStates s.numInputs)}
    (hp : AfterVisits s safe log H p) :
    p.invalidated + {x : Fin s.numStates × Fin s.numInputs |
        (Region.ofMatrix s.sizes_le p.valid).isValid (s.state x.1) (s.input x.2) = .ok true}.ncard =
      {x : Fin s.numStates × Fin s.numInputs |
        x.1 ∈ s.members safe ∧ 0 < s.successorCountAt x.1 x.2}.ncard := by
  have hbalance := hp.invalidated_add_count
  rw [hp.progress.count_eq_ncard, count_initialBits] at hbalance
  simp only [isValidFirst_eq_true_iff] at hbalance
  simp only [Region.isValid_ofMatrix, Except.ok.injEq]
  exact hbalance

theorem ncard_pairs_le (X : Set (Fin s.numStates × Fin s.numInputs)) :
    X.ncard ≤ s.numStates * s.numInputs := by
  have hle := Set.ncard_le_card X
  rwa [Nat.card_prod, Nat.card_fin, Nat.card_fin] at hle

end Invariance

open Invariance in
/-- The log of an invariance game on a store whose groups lie inside the flat array balances. The
states that are losing from the start, those of the traced losses and the winning ones are all
states, and the losses are explained by the region. The inputs taken away and those valid in the
region are the ones that can be applied at safe states. -/
theorem Store.solveInvariance_log_balances {s : Store} {mem : Memory} (hin : s.Inside)
    (hm : s.numInputs < reserved - 1)
    (hmem : reservePeeling mem s.numStates s.numInputs = .ok ()) {α : Type} [StateSet α]
    (safe : α) :
    ∃ r log first taken, ∃ ls : List (Loss s),
      s.solveInvariance mem safe = ⟨log, .ok r⟩ ∧
      log.toList = [.solvingInvariance s.numStates s.numInputs s.transitionCount,
          .initiallyLosing first] ++ ls.map Loss.event ++ [.invarianceSolved r.size taken] ∧
      (log.toList.filter fun e => e.level = .trace).map Event.message = ls.map (fun l =>
        s!"{s.state l.state} loses its last input {s.input l.input} via {s.state l.via}") ∧
      first + ls.length + r.size = s.numStates ∧
      r.ExplainedBy s safe ls ∧
      taken + {x : Fin s.numStates × Fin s.numInputs |
          r.isValid (s.state x.1) (s.input x.2) = .ok true}.ncard =
        {x : Fin s.numStates × Fin s.numInputs |
          x.1 ∈ s.members safe ∧ 0 < s.successorCountAt x.1 x.2}.ncard ∧
      taken ≤ s.numStates * s.numInputs := by
  have hinitial : Reached s safe (openingLog s) 0 (initial s safe _) := .initial
  obtain ⟨p, hrun, hreached⟩ := hinitial.exists_run_eq_ok hin
  have hend := hreached.afterVisits_end
  obtain ⟨ls, hls⟩ := hend.exists_ledger
  have hsize := hend.progress.size_add_size
  rw [← Array.length_toList, hls.arrivals, List.length_append, List.length_map] at hsize
  have hlog : (p.log.push (.invarianceSolved (Region.ofMatrix s.sizes_le p.valid).size
      p.invalidated)).toList =
      [.solvingInvariance s.numStates s.numInputs s.transitionCount,
        .initiallyLosing (firstLosing s safe).length] ++ ls.map Loss.event ++
      [.invarianceSolved (Region.ofMatrix s.sizes_le p.valid).size p.invalidated] := by
    rw [Array.toList_push, hls.log]
    rfl
  have hbalance := hend.invalidated_add_ncard
  exact ⟨_, _, _, p.invalidated, ls, solveInvariance_of_run hm hmem hrun, hlog,
    Loss.traced_messages hlog, hsize, hls.explainedBy hend.progress, hbalance,
    (Nat.le.intro hbalance).trans (ncard_pairs_le _)⟩

/-- On the scrambled store, which lists a state twice and one that does not exist, the numbers of
the log add up to its four states if all of them are safe. -/
theorem Store.solveInvariance_scrambled_log_balances :
    scrambled.Inside ∧ scrambled.numInputs < reserved - 1 ∧
    Invariance.reservePeeling .ample scrambled.numStates scrambled.numInputs = .ok () ∧
    ∃ r log first taken, ∃ ls : List (Loss scrambled),
      scrambled.solveInvariance .ample StateSet.everything = ⟨log, .ok r⟩ ∧
      log[1]? = some (.initiallyLosing first) ∧
      (log.toList.filter fun e => e.level = .trace).length = ls.length ∧
      first + ls.length + r.size = 4 ∧ taken ≤ 4 := by
  have hin : scrambled.Inside := inside_iff.mpr (by decide)
  have hm : scrambled.numInputs < reserved - 1 := by decide
  have hmem : Invariance.reservePeeling .ample scrambled.numStates scrambled.numInputs =
      .ok () := rfl
  obtain ⟨r, log, first, taken, ls, hsolve, hlog, htraced, hsize, -, -, htaken⟩ :=
    solveInvariance_log_balances hin hm hmem StateSet.everything
  have hlength := congrArg List.length htraced
  rw [List.length_map, List.length_map] at hlength
  refine ⟨hin, hm, hmem, r, log, first, taken, ls, hsolve, ?_, hlength, hsize, htaken⟩
  rw [← Array.getElem?_toList, hlog]
  rfl

end ControlGames
