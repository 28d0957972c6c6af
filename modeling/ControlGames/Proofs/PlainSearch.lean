import ControlGames.Proofs.ReachAvoidValues
import ControlGames.Proofs.SearchMoments

/-!
# A plain breadth-first search

The plain search finds a state as soon as one of its pairs is complete, one step further away than
the state that completes it. It does not remember which states have been expanded, nor the worst
values of pairs: a state enters the queue when its value becomes finite, so it enters only once. The
two searches go the same way from a common head, with or without a fault.
-/
namespace ControlGames.Reachability

/-- What the plain search knows about states and about pairs of a state and an input. -/
structure PlainLabels (s : Store) where
  value : Vector (Option ℕ) s.numStates
  choice : Vector (Option (Fin s.numInputs)) s.numStates
  remaining : Table s.numStates s.numInputs ℕ
  arrivals : Array (Fin s.numStates)
  log : Log

namespace PlainLabels

variable {s : Store}

def account (l : PlainLabels s) : ℕ := l.arrivals.size + l.value.count none

def valueAt (l : PlainLabels s) (i : Fin s.numStates) : Option ℕ := cell l.value i

def counted (l : PlainLabels s) (i : Fin s.numStates) (j : Fin s.numInputs) (k : ℕ) :
    PlainLabels s :=
  { l with remaining := l.remaining.set i j k }

def found (l : PlainLabels s) (i : Fin s.numStates) (j : Fin s.numInputs) (w : ℕ) :
    PlainLabels s :=
  { l with
    value := setCell l.value i (some w)
    choice := setCell l.choice i (some j)
    arrivals := l.arrivals.push i
    log := l.log.push (.wins (s.state i) (s.input j) w) }

def solution (l : PlainLabels s) : Solution where
  region := ⟨s.numStates, s.numInputs, s.sizes_le, l.choice.map (·.map s.input), none⟩
  value := ⟨s.numStates, s.numStates_le, l.value⟩

/-- A state that is found goes over from the states to be found to those in the queue. -/
theorem account_found {l : PlainLabels s} {i : Fin s.numStates} {j : Fin s.numInputs} {w : ℕ}
    (hi : l.valueAt i = none) : (l.found i j w).account = l.account := by
  have hi : l.value[i.val] = none := hi
  have hpos : 0 < l.value.count none := Vector.count_pos_iff.mpr (hi ▸ Vector.getElem_mem i.isLt)
  rw [account, account, found, Array.size_push, setCell, Vector.count_set, hi, if_pos (by simp),
    if_neg (by simp)]
  omega

end PlainLabels

/-! ### The search -/

section Search

variable (g : ReachabilityGame)

/-- Counts one successor of the pair of state `x` and input `j`. With the last one the state is
found, unless it has been before. -/
def plainRelax (j : Fin g.store.numInputs) (steps : ℕ) (l : PlainLabels g.store) (x : State) :
    Except Interruption (PlainLabels g.store) :=
  if g.avoid.contains x.id then .ok l
  else if h : x.id < g.store.numStates then
    let i : Fin g.store.numStates := ⟨x.id, h⟩
    match l.remaining.get i j with
    | 0 => .error ⟨.subtractOverflow, l.log⟩
    | k + 1 =>
      let l := l.counted i j k
      if k = 0 ∧ l.valueAt i = none then .ok (l.found i j steps) else .ok l
  else .error ⟨.indexOutOfBounds, l.log⟩

def plainRelaxGroup (q : Fin g.store.numStates) (steps : ℕ) (l : PlainLabels g.store)
    (j : Fin g.store.numInputs) : Except Interruption (PlainLabels g.store) :=
  match g.store.groupAt q j with
  | .ok xs => xs.foldlM (plainRelax g j steps) l
  | .error f => .error ⟨f, l.log⟩

def plainExpand (q : Fin g.store.numStates) (l : PlainLabels g.store) :
    Except Interruption (PlainLabels g.store) :=
  let steps := (l.valueAt q).getD reserved + 1
  if steps < wordSize then (List.finRange g.store.numInputs).foldlM (plainRelaxGroup g q steps) l
  else .error ⟨.addOverflow, l.log⟩

variable {g}

theorem account_plainRelax {j : Fin g.store.numInputs} {steps : ℕ} {l l' : PlainLabels g.store}
    {x : State} (h : plainRelax g j steps l x = .ok l') : l'.account = l.account := by
  rw [plainRelax] at h
  split at h
  · cases h
    rfl
  · split at h
    · dsimp only at h
      split at h
      · cases h
      · split at h
        · next hfound =>
          cases h
          exact PlainLabels.account_found hfound.2
        · cases h
          rfl
    · cases h

theorem account_plainExpand {q : Fin g.store.numStates} {l l' : PlainLabels g.store}
    (h : plainExpand g q l = .ok l') : l'.account = l.account := by
  rw [plainExpand] at h
  split at h
  · refine foldlM_keeps (fun _ l' => l'.account = l.account) ?_ rfl h
    intro _ j _ l₁ l₂ _ hl₁ hl₂
    rw [plainRelaxGroup] at hl₂
    split at hl₂
    · refine foldlM_keeps (fun _ l' => l'.account = l.account) ?_ hl₁ hl₂
      intro _ x _ l₃ l₄ _ hl₃ hl₄
      exact (account_plainRelax hl₄).trans hl₃
    · cases hl₂
  · cases h

variable (g)

def plainRun (l : PlainLabels g.store) (next : ℕ) : Except Interruption (PlainLabels g.store) :=
  if _hk : next < l.arrivals.size then
    match _hl : plainExpand g l.arrivals[next] l with
    | .ok l' => plainRun l' (next + 1)
    | .error e => .error e
  else .ok l
termination_by l.account - next
decreasing_by
  have h := account_plainExpand _hl
  have hsize : l.arrivals.size ≤ l.account := Nat.le_add_right _ _
  omega

variable {α : Type} [StateSet α] (target : α)

def initialPlainLabels (log : Log) : PlainLabels g.store :=
  let seeds := (List.finRange g.store.numStates).filter (isSeed g target)
  { value := .ofFn fun i => if isSeed g target i then some 0 else none
    choice := .ofFn fun i => if isSeed g target i then homeChoice g.store i else none
    remaining := g.store.successorCounts.map UInt32.toNat
    arrivals := seeds.toArray
    log := log.push (.targets seeds.length) }

def reservePlainLabels (mem : Memory) (n m : ℕ) : Except Refusal Unit := do
  mem.reserve .valueFunction n
  mem.reserve .winningDomain n
  mem.reserve .successorCounters (n * m)

end Search

end Reachability

open Reachability in
def ReachabilityGame.plainSolve {α : Type} [StateSet α] (mem : Memory) (g : ReachabilityGame)
    (target : α) : Logged Solution :=
  let n := g.store.numStates
  let m := g.store.numInputs
  match Region.checkAlphabet m with
  | .error r => ⟨#[], .error r⟩
  | .ok () =>
    let log : Log := #[.solvingReachability n m g.store.transitionCount]
    match reservePlainLabels mem n m with
    | .error r => ⟨log, .error r⟩
    | .ok () =>
      match plainRun g (initialPlainLabels g target log) 0 with
      | .error e => ⟨e.log, .error e.fault⟩
      | .ok l =>
        let sol := l.solution
        ⟨l.log.push (.reachabilitySolved sol.region.size sol.layers), .ok sol⟩

namespace Reachability

/-! ### The same way -/

variable {g : ReachabilityGame} {α : Type} [StateSet α] {target : α} {log : Log}
  {t : Search g.store} {l l' : Labels g.store} {c : ℕ}

def Labels.plain {s : Store} (l : Labels s) : PlainLabels s :=
  ⟨l.value, l.choice, l.remaining, l.arrivals, l.log⟩

theorem Labels.Below.relaxed (h : l.Below c) {j : Fin g.store.numInputs} {x : State}
    (hr : Relaxed g j c l x l') : l'.Below c := by
  cases hr with
  | avoided hx => exact h
  | @counted i k hi hk hopen =>
    refine ⟨fun i' j' => ?_, h.value_le, h.room⟩
    rw [Labels.counted_worst]
    split
    · exact le_rfl
    · exact h.worst_le i' j'
  | @found i hi hk hopen =>
    refine ⟨fun i' j' => ?_, fun i' b hb => ?_, fun _ _ => h.room i hopen⟩
    · rw [Labels.found_worst, Labels.counted_worst]
      split
      · exact le_rfl
      · exact h.worst_le i' j'
    · rw [Labels.found_valueAt] at hb
      split at hb
      · exact (Option.some.inj hb).ge
      · exact h.value_le i' b hb

/-- Below the steps at hand both searches make a visit alike, with the same fault if there is
one. -/
theorem plainRelax_plain (h : l.Below c) (j : Fin g.store.numInputs) (x : State) :
    plainRelax g j c l.plain x = (relax g j c l x).map Labels.plain := by
  by_cases hx : g.avoid.contains x.id = true
  · simp only [plainRelax, relax, if_pos hx, Except.map]
  · by_cases hlt : x.id < g.store.numStates
    · obtain ⟨i, rfl⟩ := Store.exists_state_eq hlt
      have hplain : plainRelax g j c l.plain (g.store.state i) =
          match l.remaining.get i j with
          | 0 => .error ⟨.subtractOverflow, l.log⟩
          | k + 1 => if k = 0 ∧ l.valueAt i = none then .ok ((l.counted i j k c).found i j c).plain
            else .ok (l.counted i j k c).plain := by
        simp only [plainRelax, if_neg hx, dif_pos hlt]
        rfl
      rw [hplain]
      cases hk : l.remaining.get i j with
      | zero =>
        have hi : ¬ g.avoid.contains i = true := hx
        rw [relax_state_eq, if_neg hi, hk]
        rfl
      | succ k =>
        rw [relax_state h (Bool.eq_false_iff.mpr hx) hk]
        dsimp only
        split
        · next hfound =>
          obtain ⟨rfl, -⟩ := hfound
          rfl
        · rfl
    · simp only [plainRelax, relax, if_neg hx, dif_neg hlt, Except.map]
      rfl

theorem Labels.Below.of_relaxGroup {q : Fin g.store.numStates} {j : Fin g.store.numInputs}
    (h : l.Below c) (hok : relaxGroup g q c l j = .ok l') : l'.Below c := by
  rw [relaxGroup] at hok
  split at hok
  · refine foldlM_keeps (fun _ l' => l'.Below c) ?_ h hok
    intro _ x _ l₁ l₂ _ hl₁ hl₂
    exact hl₁.relaxed (relaxed_of_relax hl₁ hl₂)
  · cases hok

theorem plainRelaxGroup_plain (h : l.Below c) (q : Fin g.store.numStates)
    (j : Fin g.store.numInputs) :
    plainRelaxGroup g q c l.plain j = (relaxGroup g q c l j).map Labels.plain := by
  rw [plainRelaxGroup, relaxGroup]
  cases g.store.groupAt q j with
  | error f => rfl
  | ok xs =>
    exact foldlM_map_eq Labels.plain (Labels.Below · c) (fun l x hl => plainRelax_plain hl j x)
      (fun l x l' hl hok => hl.relaxed (relaxed_of_relax hl hok)) h

theorem plainExpand_plain {q : Fin g.store.numStates} {a : ℕ} (hq : l.valueAt q = some a)
    (h : l.Below (a + 1)) : plainExpand g q l.plain = (expand g q l).map Labels.plain := by
  have hq' : l.plain.valueAt q = some a := hq
  rw [plainExpand, hq', Option.getD_some, expand_of_valueAt hq]
  split
  · exact foldlM_map_eq Labels.plain (Labels.Below · (a + 1))
      (fun l j hl => plainRelaxGroup_plain hl q j) (fun l j l' hl hok => hl.of_relaxGroup hok) h
  · rfl

theorem plainRun_eq (l : PlainLabels g.store) (next : ℕ) : plainRun g l next =
    if hk : next < l.arrivals.size then
      plainExpand g l.arrivals[next] l >>= fun l' => plainRun g l' (next + 1)
    else .ok l := by
  rw [plainRun]
  split
  · split
    · next l' hl => rw [hl]; rfl
    · next e he => rw [he]; rfl
  · rfl

theorem plainRun_of_fresh? (h : AtHead g target t) {k : ℕ} {hk : k < t.labels.arrivals.size}
    (hfresh : t.fresh? t.next = some ⟨k, hk⟩) : plainRun g t.labels.plain t.next =
      (expand g t.labels.arrivals[k] t.labels).map Labels.plain >>=
        fun l => plainRun g l (k + 1) := by
  rw [h.fresh?_eq] at hfresh
  split at hfresh
  · next hlt =>
    cases hfresh
    obtain ⟨q, a, hq, ha, hacc, -⟩ := h.exists_next hlt
    have hlt' : t.next < t.labels.plain.arrivals.size := hlt
    have hq' : t.labels.plain.arrivals[t.next] = q := hq
    rw [plainRun_eq, dif_pos hlt', hq', plainExpand_plain ha (hacc.below ha), hq]
  · cases hfresh

theorem plainRun_plain (h : AtHead g target t) :
    plainRun g t.labels.plain t.next = (run g t).map fun u => u.labels.plain := by
  fun_induction run g t with
  | case1 t hdone =>
    have hle : ¬ t.next < t.labels.plain.arrivals.size :=
      Nat.not_lt.mpr (h.fresh?_eq_none_iff.mp hdone)
    rw [plainRun_eq, dif_neg hle]
    rfl
  | case2 t k hk u hu ih =>
    obtain ⟨l, hl, rfl⟩ := turn_eq_ok_iff.mp hu
    rw [plainRun_of_fresh? h hk, hl]
    exact ih (h.turned hk hu).1
  | case3 t k hk e he =>
    rw [turn, Fin.getElem_fin] at he
    rw [plainRun_of_fresh? h hk]
    split at he
    · cases he
    · next e' he' =>
      cases he
      rw [he']
      rfl

theorem reserveLabels_eq_ok_iff {mem : Memory} {n m : ℕ} : reserveLabels mem n m = .ok () ↔
    reservePlainLabels mem n m = .ok () ∧ mem.reserve .hyperedgeValues (n * m) = .ok () := by
  simp only [reserveLabels, reservePlainLabels, bind_eq_ok_iff, Unique.exists_iff, and_assoc]

end Reachability

open Reachability in
/-- Whenever memory lasts for the labels, the plain search comes to the same end as the search with
its guards. -/
theorem ReachabilityGame.plainSolve_eq_solve {g : ReachabilityGame} {mem : Memory}
    (hmem : reserveLabels mem g.store.numStates g.store.numInputs = .ok ()) {α : Type} [StateSet α]
    (target : α) : g.plainSolve mem target = g.solve mem target := by
  have hrun (log : Log) : plainRun g (initialPlainLabels g target log) 0 =
      (run g (initial g target log)).map fun u => u.labels.plain :=
    plainRun_plain (atHead_initial g target log)
  rw [plainSolve, solve]
  cases Region.checkAlphabet g.store.numInputs with
  | error r => rfl
  | ok =>
    simp only [hmem, (reserveLabels_eq_ok_iff.mp hmem).1, hrun]
    cases run g (initial g target _) with
    | error e => rfl
    | ok u => rfl

end ControlGames
