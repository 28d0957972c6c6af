import ControlGames.Reachability
import ControlGames.Proofs.FailingFolds
import ControlGames.Proofs.StoredRelation
import ControlGames.Proofs.VectorCells

/-!
# One step of the search

Expanding a state visits all slots of its groups, and each visit relaxes one pair of a state and an
input. As long as no label exceeds the number of steps at hand, a visit does one of three things: it
skips a state to avoid, it counts one successor of the pair, or it counts the last one and finds
that the state wins.
-/
namespace ControlGames.Reachability

namespace Labels

variable {s : Store}

def valueAt (l : Labels s) (i : Fin s.numStates) : Option ℕ := cell l.value i

def choiceAt (l : Labels s) (i : Fin s.numStates) : Option (Fin s.numInputs) := cell l.choice i

def counted (l : Labels s) (i : Fin s.numStates) (j : Fin s.numInputs) (k w : ℕ) : Labels s :=
  { l with remaining := l.remaining.set i j k, worst := l.worst.set i j w }

def found (l : Labels s) (i : Fin s.numStates) (j : Fin s.numInputs) (w : ℕ) : Labels s :=
  { l with
    value := setCell l.value i (some w)
    choice := setCell l.choice i (some j)
    arrivals := l.arrivals.push i
    log := l.log.push (.wins (s.state i) (s.input j) w) }

variable (l : Labels s) (i i' : Fin s.numStates) (j j' : Fin s.numInputs) (k w : ℕ)

@[simp] theorem counted_remaining : (l.counted i j k w).remaining.get i' j' =
    if i = i' ∧ j = j' then k else l.remaining.get i' j' := Table.get_set ..

@[simp] theorem counted_worst : (l.counted i j k w).worst.get i' j' =
    if i = i' ∧ j = j' then w else l.worst.get i' j' := Table.get_set ..

@[simp] theorem found_remaining : (l.found i j w).remaining = l.remaining := rfl

@[simp] theorem found_worst : (l.found i j w).worst = l.worst := rfl

@[simp] theorem found_arrivals : (l.found i j w).arrivals.toList = l.arrivals.toList ++ [i] :=
  Array.toList_push

@[simp] theorem found_valueAt :
    (l.found i j w).valueAt i' = if i = i' then some w else l.valueAt i' := cell_setCell ..

@[simp] theorem found_choiceAt :
    (l.found i j w).choiceAt i' = if i = i' then some j else l.choiceAt i' := cell_setCell ..

end Labels

variable {g : ReachabilityGame} {j : Fin g.store.numInputs} {c : ℕ} {l l' : Labels g.store}

/-- What a visit does to the labels: all that can happen while no label exceeds `c` steps. -/
inductive Relaxed (g : ReachabilityGame) (j : Fin g.store.numInputs) (c : ℕ) (l : Labels g.store) :
    State → Labels g.store → Prop
  | avoided {x : State} (hx : g.avoid.contains x.id = true) : Relaxed g j c l x l
  | counted {i : Fin g.store.numStates} {k : ℕ} (hi : g.avoid.contains i = false)
      (hk : l.remaining.get i j = k + 1) (hopen : k = 0 → l.valueAt i ≠ none) :
      Relaxed g j c l (g.store.state i) (l.counted i j k c)
  | found {i : Fin g.store.numStates} (hi : g.avoid.contains i = false)
      (hk : l.remaining.get i j = 1) (hopen : l.valueAt i = none) :
      Relaxed g j c l (g.store.state i) ((l.counted i j 0 c).found i j c)

/-- No label exceeds `c`, and there is room for `c` below the reserved number while states are left
to be found. -/
structure Labels.Below (l : Labels g.store) (c : ℕ) : Prop where
  worst_le : ∀ i j, l.worst.get i j ≤ c
  value_le : ∀ i a, l.valueAt i = some a → a ≤ c
  room : ∀ i, l.valueAt i = none → c < reserved

theorem relax_state_eq (i : Fin g.store.numStates) :
    relax g j c l (g.store.state i) =
      if g.avoid.contains i then .ok l
      else match l.remaining.get i j with
        | 0 => .error ⟨.subtractOverflow, l.log⟩
        | k + 1 =>
          let w := max (l.worst.get i j) c
          if k = 0 ∧ w < (l.valueAt i).getD reserved then .ok ((l.counted i j k w).found i j w)
          else .ok (l.counted i j k w) := by
  have hlt : (g.store.state i).id < g.store.numStates := i.isLt
  simp only [relax, dif_pos hlt]
  rfl

/-- Below the steps at hand, the last successor of a pair is news just for a state not yet found. -/
theorem relax_state (h : l.Below c) {i : Fin g.store.numStates} {k : ℕ}
    (hi : g.avoid.contains i = false) (hk : l.remaining.get i j = k + 1) :
    relax g j c l (g.store.state i) =
      .ok (if k = 0 ∧ l.valueAt i = none then (l.counted i j 0 c).found i j c
        else l.counted i j k c) := by
  have hworst : max (l.worst.get i j) c = c := max_eq_right (h.worst_le i j)
  have htest : (c < (l.valueAt i).getD reserved) ↔ l.valueAt i = none := by
    cases hv : l.valueAt i with
    | none => simpa using h.room i hv
    | some a => simpa using h.value_le i a hv
  rw [relax_state_eq, if_neg (Bool.eq_false_iff.mp hi), hk]
  simp only [hworst, htest]
  split
  · next hfound =>
    obtain ⟨rfl, -⟩ := hfound
    rfl
  · rfl

theorem relaxed_of_relax (h : l.Below c) {x : State} (hok : relax g j c l x = .ok l') :
    Relaxed g j c l x l' := by
  by_cases hx : g.avoid.contains x.id = true
  · simp only [relax, if_pos hx] at hok
    cases hok
    exact .avoided hx
  · by_cases hlt : x.id < g.store.numStates
    · obtain ⟨i, rfl⟩ := Store.exists_state_eq hlt
      have hi : g.avoid.contains i = false := Bool.eq_false_iff.mpr hx
      cases hk : l.remaining.get i j with
      | zero =>
        rw [relax_state_eq, if_neg (Bool.eq_false_iff.mp hi), hk] at hok
        cases hok
      | succ k =>
        rw [relax_state h hi hk, Except.ok.injEq] at hok
        subst hok
        split
        · next hfound =>
          obtain ⟨rfl, hopen⟩ := hfound
          exact .found hi hk hopen
        · next hfound => exact .counted hi hk fun h0 hopen => hfound ⟨h0, hopen⟩
    · simp only [relax, if_neg hx, dif_neg hlt] at hok
      cases hok

/-- A visit succeeds at a state of the store with a successor left to count. -/
theorem exists_relax_eq_ok (h : l.Below c) {x : State} (hx : x.id < g.store.numStates)
    (hleft : ∀ i : Fin g.store.numStates, x = g.store.state i → g.avoid.contains i = false →
      0 < l.remaining.get i j) : ∃ l', relax g j c l x = .ok l' := by
  obtain ⟨i, rfl⟩ := Store.exists_state_eq hx
  by_cases hi : g.avoid.contains i = true
  · exact ⟨l, by rw [relax_state_eq, if_pos hi]⟩
  · have hi : g.avoid.contains i = false := Bool.eq_false_iff.mpr hi
    obtain ⟨k, hk⟩ := Nat.exists_eq_add_one_of_ne_zero (hleft i rfl hi).ne'
    exact ⟨_, relax_state h hi hk⟩

theorem expand_of_valueAt {q : Fin g.store.numStates} {a : ℕ} (hq : l.valueAt q = some a) :
    expand g q l = if a + 1 < wordSize then
      (List.finRange g.store.numInputs).foldlM (relaxGroup g q (a + 1)) l
    else .error ⟨.addOverflow, l.log⟩ := by
  have hsteps : l.value[q].getD reserved + 1 = a + 1 := by
    change (l.valueAt q).getD reserved + 1 = a + 1
    rw [hq, Option.getD_some]
  rw [expand, hsteps]

theorem expand_eq_foldlM (hin : g.store.Inside) {q : Fin g.store.numStates} {a : ℕ}
    (hq : l.valueAt q = some a) (ha : a + 1 < wordSize) :
    expand g q l = (g.store.visits q).foldlM (fun l v => relax g v.input (a + 1) l v.pre) l := by
  have hgroup : ∀ (l : Labels g.store) (j : Fin g.store.numInputs),
      relaxGroup g q (a + 1) l j = (g.store.listed q j).foldlM (relax g j (a + 1)) l := by
    intro l j
    rw [relaxGroup, hin q j]
  rw [expand_of_valueAt hq, if_pos ha, Store.visits, foldlM_flatMap]
  congr 1
  funext l j
  rw [hgroup, List.foldlM_map]

end ControlGames.Reachability
