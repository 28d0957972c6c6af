import Mathlib.Data.Prod.Lex
import Mathlib.Order.Lattice.Nat
import ControlGames.Proofs.AddedTransitions
import ControlGames.Proofs.SearchLog

/-!
# The order of finding

On a built store a state is found when the first of its pairs gets complete. The pairs get complete
in the order of their last successors; for one last successor the lower input comes first, and then
the lower state. So the order of finding, and with it the choice of witnesses, follows from the
relation alone.
-/
namespace ControlGames

/-! ### When a pair gets complete -/

section Finish

variable {n m : ℕ} (R : Fin n → Fin m → Fin n → Prop) [∀ i j, DecidablePred (R i j)]
  {order order' : List (Fin n)} {i k : Fin n} {j : Fin m} {p : ℕ}

/-- The place at which the last of the successors of a pair comes. -/
def lastPos (order : List (Fin n)) (i : Fin n) (j : Fin m) : ℕ :=
  (Finset.univ.filter (R i j)).sup order.idxOf

/-- Pairs get complete in the order of their last successors, their inputs and their states. -/
def finish (order : List (Fin n)) (i : Fin n) (j : Fin m) : ℕ ×ₗ Fin m ×ₗ Fin n :=
  toLex (lastPos R order i j, toLex (j, i))

variable {R}

theorem lastPos_le_iff : lastPos R order i j ≤ p ↔ ∀ k, R i j k → order.idxOf k ≤ p := by
  simp [lastPos]

theorem idxOf_le_lastPos (h : R i j k) : order.idxOf k ≤ lastPos R order i j :=
  lastPos_le_iff.mp le_rfl k h

/-- While the order grows at its end, no pair gets complete earlier than before. -/
theorem lastPos_mono (h : order <+: order') (i : Fin n) (j : Fin m) :
    lastPos R order i j ≤ lastPos R order' i j :=
  lastPos_le_iff.mpr fun k hk => (h.idxOf_le k).trans (idxOf_le_lastPos hk)

/-- Once all its successors have come, it is settled when a pair gets complete. -/
theorem lastPos_eq (h : order <+: order') (hmem : ∀ k, R i j k → k ∈ order) :
    lastPos R order i j = lastPos R order' i j := by
  apply le_antisymm (lastPos_mono h i j)
  apply lastPos_le_iff.mpr
  intro k hk
  rw [← h.idxOf_eq_of_mem (hmem k hk)]
  exact idxOf_le_lastPos hk

theorem finish_le_finish {i' : Fin n} {j' : Fin m} (hp : lastPos R order i j ≤ p)
    (hp' : p ≤ lastPos R order i' j')
    (hji : p < lastPos R order i' j' ∨ toLex (j, i) ≤ toLex (j', i')) :
    finish R order i j ≤ finish R order i' j' := by
  rw [finish, finish, Prod.Lex.toLex_le_toLex]
  dsimp only
  rcases hji with hlt | hji
  · exact .inl (hp.trans_lt hlt)
  · rcases (hp.trans hp').lt_or_eq with hlt | heq
    · exact .inl hlt
    · exact .inr ⟨heq, hji⟩

theorem finish_lt_finish {i' : Fin n} {j' : Fin m} (hp : lastPos R order i j ≤ p)
    (hp' : p ≤ lastPos R order i' j')
    (hji : lastPos R order i j < p ∨ toLex (j, i) < toLex (j', i')) :
    finish R order i j < finish R order i' j' := by
  rw [finish, finish, Prod.Lex.toLex_lt_toLex]
  dsimp only
  rcases hji with hlt | hji
  · exact .inl (hlt.trans_le hp')
  · rcases (hp.trans hp').lt_or_eq with hlt | heq
    · exact .inl hlt
    · exact .inr ⟨heq, hji⟩

end Finish

namespace Reachability

variable {g : ReachabilityGame} {α : Type} [StateSet α] {target : α} {log : Log}
  {t u : Search g.store} {q i : Fin g.store.numStates} {a : ℕ}
  {done : List (Visit g.store.numStates g.store.numInputs)} {l l' : Labels g.store}

/-! ### Places -/

namespace Expanding

variable {order : List (Fin g.store.numStates)}

theorem length_past (h : Expanding g target log t q a done l) : t.past.length = t.next := by
  obtain ⟨hlt, -⟩ := Array.getElem?_eq_some_iff.mp h.taken
  rw [Search.past, List.length_take, Array.length_toList, Nat.min_eq_left hlt.le]

theorem isPrefix (h : Expanding g target log t q a done l) :
    t.past ++ [q] <+: l.arrivals.toList := by
  obtain ⟨hlt, hget⟩ := Array.getElem?_eq_some_iff.mp h.taken
  have hlen : t.next < t.labels.arrivals.toList.length := by rwa [Array.length_toList]
  have hpast := take_succ_of_isPrefix (List.prefix_refl t.labels.arrivals.toList) hlen
  rw [Array.getElem_toList, hget] at hpast
  rw [Search.past, ← hpast]
  exact (List.take_prefix _ _).trans h.account.2.2

theorem nodup (h : Expanding g target log t q a done l) : (t.past ++ [q]).Nodup :=
  h.account.1.nodup.sublist h.isPrefix.sublist

theorem mem_past_iff (h : Expanding g target log t q a done l) (horder : t.past ++ [q] <+: order)
    (k : Fin g.store.numStates) : k ∈ t.past ↔ order.idxOf k < t.next := by
  rw [← h.length_past]
  exact ((List.prefix_append _ _).trans horder).mem_iff_idxOf_lt_length k

theorem idxOf_taken (h : Expanding g target log t q a done l)
    (horder : t.past ++ [q] <+: order) : order.idxOf q = t.next := by
  have hout : q ∉ t.past := fun hq => (List.disjoint_of_nodup_append h.nodup) hq (by simp)
  have hmem : q ∈ t.past ++ [q] := by simp
  rw [← horder.idxOf_eq_of_mem hmem, List.idxOf_append_of_notMem hout, h.length_past]
  simp

/-- At any moment a pair is complete just if its successors have been taken out before, or are being
taken out and the slot of the pair has been visited. -/
theorem remaining_eq_zero_iff (hs : g.store.Exact) (h : Expanding g target log t q a done l)
    (hi : g.avoid.contains i = false) (j : Fin g.store.numInputs) : l.remaining.get i j = 0 ↔
      ∀ k, g.store.Leads i j k → k ∈ t.past ∨ k = q ∧ ∃ v ∈ done, v.hits i j = true := by
  have hsum := h.account.1.remaining i j hi
  rw [Visit.count_append] at hsum
  have hsplit := Visit.count_append (t.past.flatMap g.store.visits) (g.store.visits q) i j
  have hle : Visit.count done i j ≤ Visit.count (g.store.visits q) i j :=
    h.first.sublist.countP_le
  by_cases hhit : ∃ v ∈ done, v.hits i j = true
  · have hpos : 0 < Visit.count done i j := Visit.count_pos_iff.mpr hhit
    have hone : Visit.count (g.store.visits q) i j ≤ 1 := by
      rw [Store.count_visits, hs.count_listed]
      split <;> omega
    have hall := hs.count_eq_iff h.nodup i j
    rw [List.flatMap_append, List.flatMap_singleton] at hall
    simp only [List.mem_append, List.mem_singleton] at hall
    simp only [hhit, and_true, ← hall]
    omega
  · have hzero : Visit.count done i j = 0 :=
      Nat.eq_zero_of_not_pos fun hpos => hhit (Visit.count_pos_iff.mp hpos)
    have hall := hs.count_eq_iff (h.nodup.sublist (List.sublist_append_left _ _)) i j
    simp only [hhit, and_false, or_false, ← hall]
    omega

theorem leads_last {v : Visit g.store.numStates g.store.numInputs}
    (h : Expanding g target log t q a (done ++ [v]) l) (hpre : v.pre = g.store.state i) :
    g.store.Leads i v.input q := by
  have hlisted := (Store.mem_visits.mp (h.first.subset (by simp : v ∈ done ++ [v]))).2
  rwa [hpre] at hlisted

section LastSlot

variable {v : Visit g.store.numStates g.store.numInputs} (hs : g.store.Exact)
  (hsorted : ∀ k j, (g.store.listed k j).Pairwise fun x y => x.id < y.id)
  (h : Expanding g target log t q a done l) (h' : Expanding g target log t q a (done ++ [v]) l')
  (hpre : v.pre = g.store.state i) (horder : t.past ++ [q] <+: order)

include hsorted h'

theorem before_last {w : Visit g.store.numStates g.store.numInputs} (hw : w ∈ done) :
    w.input < v.input ∨ w.input = v.input ∧ w.pre.id < v.pre.id := by
  have hpairs := (Store.pairwise_visits hsorted q).sublist h'.first.sublist
  exact (List.pairwise_append.mp hpairs).2.2 w hw v (List.mem_singleton_self v)

theorem last_before {w : Visit g.store.numStates g.store.numInputs} (hw : w ∈ g.store.visits q)
    (hout : w ∉ done) : w = v ∨ v.input < w.input ∨ v.input = w.input ∧ v.pre.id < w.pre.id := by
  have hpairs := Store.pairwise_visits hsorted q
  obtain ⟨rest, hrest⟩ := h'.first
  rw [← hrest, List.append_assoc, List.singleton_append] at hw hpairs
  rcases List.mem_append.mp hw with hw | hw
  · exact absurd hw hout
  · rcases List.mem_cons.mp hw with rfl | hw
    · exact .inl rfl
    · exact .inr (List.rel_of_pairwise_cons (List.pairwise_append.mp hpairs).2.1 hw)

include hs h hpre horder

omit hsorted h in
theorem lastPos_last (hi : g.avoid.contains i = false) (hzero : l'.remaining.get i v.input = 0) :
    (∀ k, g.store.Leads i v.input k → k ∈ t.past ++ [q]) ∧
      lastPos g.store.Leads order i v.input = t.next := by
  have hknown : ∀ k, g.store.Leads i v.input k → k ∈ t.past ++ [q] := by
    intro k hk
    rcases (h'.remaining_eq_zero_iff hs hi v.input).mp hzero k hk with hpast | ⟨rfl, -⟩
    · exact List.mem_append_left _ hpast
    · simp
  refine ⟨hknown, le_antisymm (lastPos_le_iff.mpr fun k hk => ?_) ?_⟩
  · have hlt := (horder.mem_iff_idxOf_lt_length k).mp (hknown k hk)
    rw [List.length_append, h'.length_past, List.length_singleton] at hlt
    omega
  · rw [← h'.idxOf_taken horder]
    exact idxOf_le_lastPos (h'.leads_last hpre)

/-- The pair by which a state is found gets complete before all its other pairs. -/
theorem finish_last_le (hi : g.avoid.contains i = false) (hopen : l.valueAt i = none)
    (hzero : l'.remaining.get i v.input = 0) {j : Fin g.store.numInputs}
    (hj : ∃ k, g.store.Leads i j k) :
    finish g.store.Leads order i v.input ≤ finish g.store.Leads order i j := by
  obtain ⟨-, hlast⟩ := h'.lastPos_last hs hpre horder hi hzero
  -- No pair of the state has been complete, so some successor has not been counted yet.
  have hleft : l.remaining.get i j ≠ 0 := by
    intro hj0
    have hpos : 0 < g.store.successorCountAt i j :=
      of_decide_eq_true ((hs.applicable_iff i j).mpr hj)
    obtain ⟨b, -, hb⟩ := h.account.1.complete i j hi hj0 hpos
    rw [hopen] at hb
    cases hb
  rw [ne_eq, h.remaining_eq_zero_iff hs hi j] at hleft
  push Not at hleft
  obtain ⟨k, hk, hpast, hdone⟩ := hleft
  have hle : t.next ≤ order.idxOf k := by
    rw [h.mem_past_iff horder] at hpast
    omega
  have hkle : order.idxOf k ≤ lastPos g.store.Leads order i j := idxOf_le_lastPos hk
  rcases hle.lt_or_eq with hlt | heq
  · exact finish_le_finish hlast.le (hle.trans hkle) (.inl (hlt.trans_le hkle))
  · -- It is the state taken out, and its slot comes later.
    have hmem : k ∈ t.past ++ [q] := by
      rw [horder.mem_iff_idxOf_lt_length, List.length_append, h.length_past, ← heq]
      simp
    obtain rfl : k = q := by simpa [hpast] using hmem
    have hslot : (⟨k, j, g.store.state i⟩ : Visit _ _) ∈ g.store.visits k :=
      Store.mem_visits.mpr ⟨rfl, hk⟩
    have hnew : (⟨k, j, g.store.state i⟩ : Visit _ _) ∉ done := fun hmem =>
      hdone rfl _ hmem (Visit.hits_eq_true_iff.mpr ⟨rfl, rfl⟩)
    refine finish_le_finish hlast.le (hle.trans hkle) (.inr ?_)
    rw [Prod.Lex.toLex_le_toLex]
    rcases h'.last_before hsorted hslot hnew with hv | hlt | ⟨heq, hlt⟩
    · exact .inr ⟨(congrArg Visit.input hv).symm, le_rfl⟩
    · exact .inl hlt
    · exact .inr ⟨heq, le_rfl⟩

theorem finish_lt_last (hi : g.avoid.contains i = false) (hzero : l'.remaining.get i v.input = 0)
    {i' : Fin g.store.numStates} (hi' : g.avoid.contains i' = false) {j' : Fin g.store.numInputs}
    (hzero' : l.remaining.get i' j' = 0) (hj' : ∃ k, g.store.Leads i' j' k) :
    finish g.store.Leads order i' j' < finish g.store.Leads order i v.input := by
  obtain ⟨-, hlast⟩ := h'.lastPos_last hs hpre horder hi hzero
  have hcounted := (h.remaining_eq_zero_iff hs hi' j').mp hzero'
  by_cases hdone : ∃ w ∈ done, w.hits i' j' = true
  · have hle : lastPos g.store.Leads order i' j' ≤ t.next := by
      refine lastPos_le_iff.mpr fun k hk => ?_
      rcases hcounted k hk with hpast | ⟨rfl, -⟩
      · exact ((h.mem_past_iff horder k).mp hpast).le
      · exact (h.idxOf_taken horder).le
    obtain ⟨w, hw, hhits⟩ := hdone
    obtain ⟨rfl, hid⟩ := Visit.hits_eq_true_iff.mp hhits
    refine finish_lt_finish hle hlast.ge (.inr ?_)
    rw [Prod.Lex.toLex_lt_toLex]
    rcases h'.before_last hsorted hw with hlt | ⟨heq, hlt⟩
    · exact .inl hlt
    · rw [hid, hpre] at hlt
      exact .inr ⟨heq, hlt⟩
  · -- All its successors have been taken out before.
    have hbelow : ∀ k, g.store.Leads i' j' k → order.idxOf k < t.next := by
      intro k hk
      exact (h.mem_past_iff horder k).mp ((hcounted k hk).resolve_right fun hq => hdone hq.2)
    have hlt : lastPos g.store.Leads order i' j' < t.next := by
      obtain ⟨k, hk⟩ := hj'
      have hpos : 0 < t.next := (Nat.zero_le _).trans_lt (hbelow k hk)
      have hle : lastPos g.store.Leads order i' j' ≤ t.next - 1 :=
        lastPos_le_iff.mpr fun k hk => Nat.le_sub_one_of_lt (hbelow k hk)
      omega
    exact finish_lt_finish hlt.le hlast.ge (.inl hlt)

end LastSlot

end Expanding

/-! ### Wins in turn -/

/-- All successors of the pairs by which states have been found come in the order, each of these
pairs gets complete before all others of its state, and the states have been found in the order in
which these pairs get complete. -/
structure InTurn (s : Store) (order : List (Fin s.numStates)) (ws : List (Win s)) : Prop where
  known : ∀ w ∈ ws, ∀ k, s.Leads w.state w.input k → k ∈ order
  applicable : ∀ w ∈ ws, ∃ k, s.Leads w.state w.input k
  least : ∀ w ∈ ws, ∀ j, (∃ k, s.Leads w.state j k) →
    finish s.Leads order w.state w.input ≤ finish s.Leads order w.state j
  sorted : ws.Pairwise fun w w' =>
    finish s.Leads order w.state w.input < finish s.Leads order w'.state w'.input

section InTurn

variable {s : Store} {order order' : List (Fin s.numStates)} {ws : List (Win s)}

theorem InTurn.grow (h : InTurn s order ws) (horder : order <+: order') : InTurn s order' ws := by
  have heq : ∀ w ∈ ws, finish s.Leads order' w.state w.input =
      finish s.Leads order w.state w.input := fun w hw => by
    rw [finish, finish, lastPos_eq horder (h.known w hw)]
  constructor
  · exact fun w hw k hk => horder.subset (h.known w hw k hk)
  · exact h.applicable
  · intro w hw j hj
    rw [heq w hw]
    apply (h.least w hw j hj).trans
    apply Prod.Lex.toLex_mono
    exact ⟨lastPos_mono horder _ _, le_rfl⟩
  · refine h.sorted.imp_of_mem fun {w w'} hw hw' hlt => ?_
    rwa [heq w hw, heq w' hw']

theorem InTurn.snoc (h : InTurn s order ws) {w : Win s}
    (hknown : ∀ k, s.Leads w.state w.input k → k ∈ order)
    (happlicable : ∃ k, s.Leads w.state w.input k)
    (hleast : ∀ j, (∃ k, s.Leads w.state j k) →
      finish s.Leads order w.state w.input ≤ finish s.Leads order w.state j)
    (hlast : ∀ w' ∈ ws,
      finish s.Leads order w'.state w'.input < finish s.Leads order w.state w.input) :
    InTurn s order (ws ++ [w]) where
  known := by simpa [or_imp, forall_and] using ⟨h.known, hknown⟩
  applicable := by simpa [or_imp, forall_and] using ⟨h.applicable, happlicable⟩
  least := by simpa only [List.mem_append, List.mem_singleton, or_imp, forall_and, forall_eq]
    using ⟨h.least, hleast⟩
  sorted := by
    rw [List.pairwise_append]
    exact ⟨h.sorted, List.pairwise_singleton _ _, by simpa using hlast⟩

end InTurn

theorem Reached.exists_inTurn (hs : g.store.Exact)
    (hsorted : ∀ k j, (g.store.listed k j).Pairwise fun x y => x.id < y.id)
    (ht : Reached g target log t) :
    ∃ ws, Chronicle g target log ws t.labels ∧ InTurn g.store t.labels.arrivals.toList ws := by
  apply ht.keeps (P := fun _ l => ∃ ws, Chronicle g target log ws l ∧
    InTurn g.store l.arrivals.toList ws)
  · exact ⟨[], chronicle_initial, nofun, nofun, nofun, .nil⟩
  · rintro t q a done v l l' h h' hr ⟨ws, hws, hturn⟩
    generalize hpre : v.pre = x at hr
    cases hr with
    | avoided hx => exact ⟨ws, hws, hturn⟩
    | @counted i k hi hk hopen => exact ⟨ws, hws.counted i v.input k (a + 1), hturn⟩
    | @found i hi hk hopen =>
      have hgrow : l.arrivals.toList <+: l.arrivals.toList ++ [i] := List.prefix_append _ _
      have horder : t.past ++ [q] <+: l.arrivals.toList ++ [i] := h.isPrefix.trans hgrow
      have hzero : ((l.counted i v.input 0 (a + 1)).found i v.input (a + 1)).remaining.get i
          v.input = 0 := by
        rw [Labels.found_remaining, Labels.counted_remaining, if_pos ⟨rfl, rfl⟩]
      obtain ⟨hknown, -⟩ := h'.lastPos_last hs hpre horder hi hzero
      refine ⟨_, (hws.counted i v.input 0 (a + 1)).found hopen v.input a.succ_pos, ?_⟩
      rw [Labels.found_arrivals]
      refine (hturn.grow hgrow).snoc (fun k hk => horder.subset (hknown k hk))
        ⟨q, h'.leads_last hpre⟩
        (fun j hj => h.finish_last_le hs hsorted h' hpre horder hi hopen hzero hj) ?_
      intro w hw
      -- The pairs of the states found before are complete.
      have hseed : isSeed g target w.state = false := by
        rw [Bool.eq_false_iff]
        intro hseed
        have hvalue := (h.account.1.seed w.state hseed).1
        rw [hws.value w hw, Option.some.injEq] at hvalue
        exact (hws.pos w hw).ne' hvalue
      obtain ⟨j, hj, hi', hzero', -⟩ := h.account.1.won w.state w.steps hseed (hws.value w hw)
      obtain rfl : w.input = j := Option.some.inj ((hws.choice w hw).symm.trans hj)
      exact h.finish_lt_last hs hsorted h' hpre horder hi hzero hi' hzero' (hturn.applicable w hw)

theorem exists_homeChoice_eq {s : Store} (hs : s.Exact) (hpos : 0 < s.numInputs)
    (i : Fin s.numStates) : ∃ j, homeChoice s i = some j ∧
      (IsLeast {j | ∃ k, s.Leads i j k} j ∨ (∀ j k, ¬ s.Leads i j k) ∧ j.val = 0) := by
  simp only [homeChoice]
  cases hfind : (List.finRange s.numInputs).find? (s.applicable i) with
  | some j =>
    refine ⟨j, rfl, .inl ⟨(hs.applicable_iff i j).mp (List.find?_some hfind), ?_⟩⟩
    intro j' hj'
    obtain ⟨-, before, after, hsplit, hbefore⟩ := List.find?_eq_some_iff_append.mp hfind
    have hlt := List.pairwise_lt_finRange s.numInputs
    have hmem := List.mem_finRange j'
    rw [hsplit] at hlt hmem
    rcases List.mem_append.mp hmem with hmem | hmem
    · have hnot := hbefore j' hmem
      rw [(hs.applicable_iff i j').mpr hj'] at hnot
      cases hnot
    · rcases List.mem_cons.mp hmem with rfl | hmem
      · exact le_rfl
      · exact (List.rel_of_pairwise_cons (List.pairwise_append.mp hlt).2.1 hmem).le
  | none =>
    refine ⟨⟨0, hpos⟩, ?_, .inr ⟨fun j k hk => ?_, rfl⟩⟩
    · rw [Option.none_or, List.head?_eq_getElem?, List.getElem?_eq_some_iff]
      exact ⟨by rwa [List.length_finRange], List.getElem_finRange _⟩
    · have hnone := List.find?_eq_none.mp hfind j (List.mem_finRange j)
      exact hnone ((hs.applicable_iff i j).mpr ⟨k, hk⟩)

end Reachability

/-- The winning states stand in the order in which the solution has found them. The target states
that need not be avoided come first, in increasing order, each with its lowest input that has a
successor, or else with input 0. The other winning states follow in the order in which the pairs
with their witnesses get complete; of all pairs of such a state with winning successors only, the
one with the witness gets complete first. -/
structure Solution.FoundInOrder (sol : Solution) {s : Store}
    (R : Fin s.numStates → Fin s.numInputs → Fin s.numStates → Prop)
    [∀ i j, DecidablePred (R i j)] (T A : Set (Fin s.numStates)) (order : List (Fin s.numStates)) :
    Prop where
  nodup : order.Nodup
  mem_iff : ∀ i, i ∈ order ↔ sol.region.isWinning (s.state i) = .ok true
  home : ∀ i ∈ T \ A, ∃ j, sol.region.witness (s.state i) = .ok (some (s.input j)) ∧
    (IsLeast {j | ∃ k, R i j k} j ∨ (∀ j k, ¬ R i j k) ∧ j.val = 0)
  parts : ∃ first, ∃ rest : List (Win s), order = first ++ rest.map Win.state ∧
    first.Pairwise (· < ·) ∧ (∀ i, i ∈ first ↔ i ∈ T \ A) ∧
    (∀ w ∈ rest, sol.region.witness (s.state w.state) = .ok (some (s.input w.input)) ∧
      Forces R w.state w.input {k | k ∈ order} ∧
      ∀ j, Forces R w.state j {k | k ∈ order} →
        finish R order w.state w.input ≤ finish R order w.state j) ∧
    rest.Pairwise fun w w' => finish R order w.state w.input < finish R order w'.state w'.input

theorem Solution.FoundInOrder.congr {sol : Solution} {s : Store}
    {R R' : Fin s.numStates → Fin s.numInputs → Fin s.numStates → Prop}
    [inst : ∀ i j, DecidablePred (R i j)] [inst' : ∀ i j, DecidablePred (R' i j)]
    {T A A' : Set (Fin s.numStates)} {order : List (Fin s.numStates)}
    (h : sol.FoundInOrder R T A order) (hR : R = R') (hA : A = A') :
    sol.FoundInOrder R' T A' order := by
  subst hR hA
  rwa [Subsingleton.elim inst' inst]

namespace Reachability

variable {g : ReachabilityGame} {mem : Memory} {α : Type} [StateSet α] {target : α} {sol : Solution}

theorem exists_foundInOrder_of_solve (hs : g.store.Exact)
    (hsorted : ∀ k j, (g.store.listed k j).Pairwise fun x y => x.id < y.id)
    (hpos : 0 < g.store.numInputs) (hsol : (g.solve mem target).result = .ok sol) :
    ∃ u, Reached g target (openingLog g) u ∧ u.fresh? u.next = none ∧ u.labels.solution = sol ∧
      sol.FoundInOrder g.store.Leads (g.store.members target) {i | g.avoid.contains i = true}
        u.past := by
  obtain ⟨-, -, u, hrun, rfl⟩ := solve_eq_ok_iff.mp hsol
  obtain ⟨hu, hdone, -⟩ := Reached.initial.ended hrun
  obtain ⟨ws, hws, hturn⟩ := hu.exists_inTurn hs hsorted
  obtain ⟨c, hacc, -⟩ := hu.atHead.account
  have hmem_seeds : ∀ i, i ∈ seeds g target ↔
      i ∈ g.store.members target \ {i | g.avoid.contains i = true} := by
    intro i
    rw [mem_seeds, isSeed_eq_true_iff, Set.mem_sdiff, Set.mem_ofPred_eq, Bool.not_eq_true]
  refine ⟨u, hu, hdone, rfl, ?_⟩
  rw [(hu.past_eq hdone).2]
  constructor
  · exact hacc.nodup
  · intro i
    rw [u.labels.tells.isWinning, Except.ok.injEq, hacc.choiceAt_isSome_iff hpos, hacc.mem_iff,
      Option.ne_none_iff_exists']
  · intro i hi
    obtain ⟨j, hj, hleast⟩ := exists_homeChoice_eq hs hpos i
    rw [← hmem_seeds, mem_seeds] at hi
    rw [u.labels.tells.witness, (hacc.seed i hi).2, hj, Option.map_some]
    exact ⟨j, rfl, hleast⟩
  · refine ⟨seeds g target, ws, hws.arrivals, ?_, hmem_seeds, fun w hw => ⟨?_, ?_, ?_⟩,
      hturn.sorted⟩
    · exact (List.pairwise_lt_finRange _).sublist List.filter_sublist
    · rw [u.labels.tells.witness, hws.choice w hw, Option.map_some]
    · exact ⟨hturn.applicable w hw, hturn.known w hw⟩
    · exact fun j hj => hturn.least w hw j hj.1

end Reachability

open Reachability in
/-- On a built store with at least one input, the order in which winning states are found and the
witnesses that they get are determined by the relation. -/
theorem ReachabilityGame.solve_finds_in_order {b : Builder} {mem mem' : Memory} {s : Store}
    (hb : (b.build mem).result = .ok s) (hm : s.numInputs < reserved - 1)
    (hmem : reserveLabels mem' s.numStates s.numInputs = .ok ()) (hpos : 0 < s.numInputs)
    {α β : Type} [StateSet α] [StateSet β] (target : α) (avoid : β) :
    ∃ sol u, (((new s).avoiding avoid).solve mem' target).result = .ok sol ∧
      Reached ((new s).avoiding avoid) target (openingLog ((new s).avoiding avoid)) u ∧
      u.fresh? u.next = none ∧ u.labels.solution = sol ∧
      sol.FoundInOrder b.Leads (s.members target) (s.members avoid) u.past := by
  have hs : s.Exact := Builder.exact_of_build hb
  obtain ⟨sol, hsol⟩ := exists_solve_eq_ok (g := (new s).avoiding avoid) target hs.adequate hm hmem
  obtain ⟨u, hu, hdone, hread, hfound⟩ := exists_foundInOrder_of_solve
    (g := (new s).avoiding avoid) hs (Builder.pairwise_listed_of_build hb) hpos hsol
  refine ⟨sol, u, hsol, hu, hdone, hread, ?_⟩
  have hfound : sol.FoundInOrder (s := s) s.Leads (s.members target)
      {i | ((new s).avoiding avoid).avoid.contains i = true} u.past := hfound
  exact hfound.congr (Builder.leads_of_build hb) (Set.ext (contains_avoiding s avoid))

/-- On the fork the target 2 gets input 0, as no input has a successor there. -/
theorem ReachabilityGame.solve_fork_finds_in_order :
    (Builder.fork.build .ample).result = .ok Builder.forkStore ∧
    Builder.forkStore.numInputs < reserved - 1 ∧
    Reachability.reserveLabels .ample Builder.forkStore.numStates Builder.forkStore.numInputs =
      .ok () ∧
    0 < Builder.forkStore.numInputs ∧
    ∃ sol, (((new Builder.forkStore).avoiding StateSet.nothing).solve .ample
        fun x : State => x.id == 2).result = .ok sol ∧
      sol.region.witness (Builder.forkStore.state (2 : Fin 4)) =
        .ok (some (Builder.forkStore.input (0 : Fin 2))) := by
  have hm : Builder.forkStore.numInputs < reserved - 1 := by decide
  have hmem : Reachability.reserveLabels .ample Builder.forkStore.numStates
      Builder.forkStore.numInputs = .ok () := rfl
  have hpos : 0 < Builder.forkStore.numInputs := by decide
  obtain ⟨sol, u, hsol, -, -, -, hfound⟩ := solve_finds_in_order Builder.build_fork hm hmem hpos
    (fun x : State => x.id == 2) StateSet.nothing
  have hnone : ∀ (j : Fin 2) (k : Fin 4), ¬ Builder.fork.Leads (2 : Fin 4) j k := by decide
  obtain ⟨j, hj, hhome⟩ := hfound.home (2 : Fin 4) ⟨rfl, Bool.false_ne_true⟩
  refine ⟨Builder.build_fork, hm, hmem, hpos, sol, hsol, ?_⟩
  rcases hhome with ⟨⟨k, hk⟩, -⟩ | ⟨-, hzero⟩
  · exact absurd hk (hnone j k)
  · rw [hj, (Fin.ext hzero : j = (0 : Fin 2))]

end ControlGames
