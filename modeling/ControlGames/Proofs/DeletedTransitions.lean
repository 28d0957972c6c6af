import ControlGames.Proofs.EqualRegions
import ControlGames.Proofs.ParallelSearches

/-!
# Deleted transitions

A state that has no transitions left has no inputs to choose from. Avoiding some states comes to the
same as deleting the transitions that start there, and so does staying inside a safe set with the
states outside it.
-/
namespace ControlGames

namespace Builder

variable {b : Builder}

theorem granted_of_build {mem : Memory} {s : Store} (hb : (b.build mem).result = .ok s) :
    Store.reserveTables mem (b.numStates * b.numInputs) = .ok () ∧
      mem.reserve .builderCounts (b.numStates * b.numInputs) = .ok () := by
  have hstore := store_of_build hb
  rw [store] at hstore
  split at hstore
  · obtain ⟨_, htables, hstore⟩ := bind_eq_ok_iff.mp hstore
    obtain ⟨_, -, hstore⟩ := bind_eq_ok_iff.mp hstore
    obtain ⟨_, hcounts, -⟩ := bind_eq_ok_iff.mp hstore
    exact ⟨htables, hcounts⟩
  · cases hstore

end Builder

theorem Memory.reserve_unlimited {mem : Memory} {what : Backing} {count : ℕ}
    (h : mem.reserve what count = .ok ()) : unlimited.reserve what count = .ok () := by
  simp only [reserve] at h ⊢
  split at h
  · cases h
  · next hle =>
    rw [if_neg hle]
    exact if_pos (Or.inr rfl)

theorem Store.reserveTables_unlimited {mem : Memory} {cells : ℕ}
    (h : reserveTables mem cells = .ok ()) : reserveTables .unlimited cells = .ok () := by
  obtain ⟨_, hcounts, h⟩ := bind_eq_ok_iff.mp h
  obtain ⟨_, hsuccessors, hoffsets⟩ := bind_eq_ok_iff.mp h
  refine bind_eq_ok_iff.mpr ⟨(), Memory.reserve_unlimited hcounts, bind_eq_ok_iff.mpr ?_⟩
  exact ⟨(), Memory.reserve_unlimited hsuccessors, Memory.reserve_unlimited hoffsets⟩

namespace Store.BuiltFrom

variable {s s' : Store} {n m : ℕ} {R : List Triple}

theorem exists_filter (h : s.BuiltFrom n m R) (p : Triple → Bool) :
    ∃ s' : Store, s'.BuiltFrom n m (R.filter p) := by
  obtain ⟨b, mem, hadd, hb⟩ := h
  obtain ⟨hn, hm, htriples⟩ := Builder.eq_of_addAll_new hadd
  obtain ⟨b', hadd'⟩ : ∃ b', (Builder.new n m).addAll (R.filter p) = (.ok (), b') := by
    rw [Builder.exists_addAll_eq_ok_iff]
    intro t ht
    exact Builder.exists_addAll_eq_ok_iff.mp ⟨b, hadd⟩ t (List.mem_of_mem_filter ht)
  obtain ⟨hn', hm', htriples'⟩ := Builder.eq_of_addAll_new hadd'
  obtain ⟨hsizes, hlen, -⟩ := Builder.store_eq_ok (Builder.store_of_build hb)
  have hcount : b'.triples.toFinset.card ≤ maxTransitions := by
    rw [Builder.length_sorted_edges, htriples] at hlen
    rw [htriples']
    refine (Finset.card_le_card fun t ht => ?_).trans hlen
    exact List.mem_toFinset.mpr (List.mem_of_mem_filter (List.mem_toFinset.mp ht))
  have hslots : Memory.unlimited.reserve .predecessorArray b'.triples.toFinset.card = .ok () := by
    have hbytes : ¬ Memory.maxBytes <
        b'.triples.toFinset.card * Backing.predecessorArray.elementBytes := by
      change ¬ 0x7fffffffffffffff < _ * 4
      change _ ≤ 0x100000000 - 1 at hcount
      omega
    rw [Memory.reserve, if_neg hbytes]
    exact if_pos (Or.inr rfl)
  obtain ⟨htables, hcounts⟩ := Builder.granted_of_build hb
  rw [hn, hm, ← hn', ← hm'] at htables hcounts
  obtain ⟨s', hb'⟩ := Builder.exists_build_eq_ok (by rwa [hn', hm', ← hn, ← hm]) hcount
    (reserveTables_unlimited htables) hslots (Memory.reserve_unlimited hcounts)
  exact ⟨s', b', .unlimited, hadd', hb'⟩

theorem pairwise_listed (h : s.BuiltFrom n m R) (k : Fin s.numStates) (j : Fin s.numInputs) :
    (s.listed k j).Pairwise fun x y => x.id < y.id := by
  obtain ⟨b, mem, -, hb⟩ := h
  exact Builder.pairwise_listed_of_build hb k j

/-! ### Without the transitions of some states -/

section Filtered

variable {p : ℕ → Bool} (h : s.BuiltFrom n m R)
  (h' : s'.BuiltFrom n m (R.filter fun t => p t.1))

include h h'

theorem listed_filter (k : Fin s.numStates) (j : Fin s.numInputs) :
    s'.listed (k.cast (h.sameSize h').numStates) (j.cast (h.sameSize h').numInputs) =
      (s.listed k j).filter fun x => p x.id := by
  have : Std.Irrefl fun x y : State => x.id < y.id := ⟨fun x => Nat.lt_irrefl x.id⟩
  have : Std.Antisymm fun x y : State => x.id < y.id :=
    ⟨fun x y hxy hyx => absurd hyx (Nat.lt_asymm hxy)⟩
  -- Both lists increase strictly, so it is enough that they have the same members.
  refine (h'.pairwise_listed _ _).eq_of_mem_iff ((h.pairwise_listed k j).filter _) fun x => ?_
  rw [h'.records.mem_listed, List.mem_filter, List.mem_filter, h.records.mem_listed]
  rfl

theorem leads_filter_iff (i : Fin s.numStates) (j : Fin s.numInputs) (k : Fin s.numStates) :
    s'.Leads (i.cast (h.sameSize h').numStates) (j.cast (h.sameSize h').numInputs)
      (k.cast (h.sameSize h').numStates) ↔ s.Leads i j k ∧ p i = true := by
  rw [h'.records.leads_iff, h.records.leads_iff, List.mem_filter]
  rfl

theorem successorCountAt_filter {i : Fin s.numStates} (hi : p i = true) (j : Fin s.numInputs) :
    s.successorCountAt i j = s'.successorCountAt (i.cast (h.sameSize h').numStates)
      (j.cast (h.sameSize h').numInputs) := by
  rw [h.records.counted, h'.records.counted]
  congr 1
  ext q
  change (i.val, j.val, q) ∈ R ↔ (i.val, j.val, q) ∈ R.filter fun t => p t.1
  rw [List.mem_filter]
  exact (and_iff_left hi).symm

end Filtered

open Reachability ReachabilityGame in
/-- Without the transitions of the states to avoid nothing is left to be skipped. -/
theorem thinned {β : Type} [StateSet β] {avoid : β} (h : s.BuiltFrom n m R)
    (h' : s'.BuiltFrom n m (R.filter fun t => !StateSet.containsId avoid t.1)) :
    Thinned ((new s).avoiding avoid) (new s') := by
  have havoid : ∀ i : Fin s.numStates,
      ((new s).avoiding avoid).avoid.contains i = StateSet.containsId avoid i := fun i =>
    Bool.eq_iff_iff.mpr ((contains_avoiding s avoid i).trans (containsId_eq_true_iff i).symm)
  let left (a : ℕ) : Bool := !StateSet.containsId avoid a
  refine ⟨h.sameSize h', IndexSet.contains_empty, fun k j => ?_, fun i j hi => ?_⟩
  · refine (listed_filter (p := left) h h' k j).trans (List.filter_congr fun x hx => ?_)
    obtain ⟨i, rfl⟩ := exists_state_eq (h.exact.known k j x hx)
    exact congrArg not (havoid i).symm
  · refine successorCountAt_filter (p := left) h h' ?_ j
    exact congrArg not ((havoid i).symm.trans hi)

open Reachability ReachabilityGame StateSet in
theorem isSeed_avoiding {α β : Type} [StateSet α] [StateSet β] (target : α) (avoid : β)
    (hn : s.numStates = s'.numStates) (i : Fin s.numStates) :
    isSeed ((new s).avoiding avoid) target i =
      isSeed (new s') (fun x : State => contains target x && !contains avoid x) (i.cast hn) := by
  have havoid : ((new s).avoiding avoid).avoid.contains i = false ↔ i ∉ s.members avoid :=
    Bool.eq_false_iff.trans (not_congr (contains_avoiding s avoid i))
  have hseed : isSeed ((new s).avoiding avoid) target i = true ↔
      i ∈ s.members target ∧ i ∉ s.members avoid :=
    (isSeed_eq_true_iff (g := (new s).avoiding avoid) i).trans (and_congr_right' havoid)
  have hkept : (new s').avoid.contains (i.cast hn) = false := IndexSet.contains_empty _
  have hseed' : isSeed (new s') (fun x : State => contains target x && !contains avoid x)
      (i.cast hn) = true ↔ (contains target (s.state i) && !contains avoid (s.state i)) = true :=
    (isSeed_eq_true_iff (g := new s') (i.cast hn)).trans (and_iff_left hkept)
  rw [Bool.eq_iff_iff, hseed, hseed', Bool.and_eq_true, Bool.not_eq_true', ← Bool.not_eq_true]
  rfl

open Invariance in
/-- Without the transitions of the other states the same inputs are valid at first. -/
theorem sameMoves {γ : Type} [StateSet γ] {safe : γ} (h : s.BuiltFrom n m R)
    (h' : s'.BuiltFrom n m (R.filter fun t => StateSet.containsId safe t.1)) :
    SameMoves s safe s' StateSet.everything := by
  have hleads := leads_filter_iff (p := StateSet.containsId safe) h h'
  refine ⟨h.sameSize h', fun i j => ?_, fun i j k hj => ?_⟩
  · rw [Bool.eq_iff_iff, isValidFirst_iff h.exact, isValidFirst_iff h'.exact]
    constructor
    · rintro ⟨hi, k, hk⟩
      exact ⟨rfl, _, (hleads i j k).mpr ⟨hk, (containsId_eq_true_iff i).mpr hi⟩⟩
    · rintro ⟨-, k, hk⟩
      obtain ⟨hk, hi⟩ := (hleads i j (k.cast (h.sameSize h').numStates.symm)).mp hk
      exact ⟨(containsId_eq_true_iff i).mp hi, _, hk⟩
  · have hi := ((isValidFirst_iff h.exact i j).mp hj).1
    rw [hleads, and_iff_left ((containsId_eq_true_iff i).mpr hi)]

end Store.BuiltFrom

open Reachability ReachabilityGame Invariance StateSet in
/-- Leaving out the transitions of the states to avoid gives a store on which the same game without
these targets and with nothing to avoid has the same result. Leaving out the transitions of the
states outside a safe set gives one on which staying anywhere has the result of staying inside. -/
theorem Store.BuiltFrom.solve_eq_solve_filter {n m : ℕ} {R : List Triple} {s : Store}
    (hs : s.BuiltFrom n m R) {α β γ : Type} [StateSet α] [StateSet β] [StateSet γ] (target : α)
    (avoid : β) (safe : γ) :
    ((∃ s', BuiltFrom s' n m (R.filter fun t => !containsId avoid t.1)) ∧
      ∀ s', BuiltFrom s' n m (R.filter fun t => !containsId avoid t.1) → ∀ mem,
        (((new s).avoiding avoid).solve mem target).result =
          ((new s').solve mem fun x : State => contains target x && !contains avoid x).result ∧
        (m < reserved - 1 → reserveLabels mem n m = .ok () →
          ∃ sol, (((new s).avoiding avoid).solve mem target).result = .ok sol)) ∧
    ((∃ s', BuiltFrom s' n m (R.filter fun t => containsId safe t.1)) ∧
      ∀ s', BuiltFrom s' n m (R.filter fun t => containsId safe t.1) → ∀ mem,
        (s.solveInvariance mem safe).result = (s'.solveInvariance mem everything).result ∧
        (m < reserved - 1 → reservePeeling mem n m = .ok () →
          ∃ r, (s.solveInvariance mem safe).result = .ok r)) := by
  refine ⟨⟨hs.exists_filter _, fun s' hs' mem => ⟨?_, fun hm hmem => ?_⟩⟩,
    hs.exists_filter _, fun s' hs' mem => ⟨?_, fun hm hmem => ?_⟩⟩
  · have hthin := hs.thinned hs'
    obtain ⟨t, t', ht, ht', hsol⟩ := hthin.exists_solution_eq hs.exact.adequate
      hs'.exact.adequate (isSeed_avoiding target avoid hthin.numStates) _ _
    rw [solve_result_of_run ht mem, solve_result_of_run ht' mem, hsol, hthin.numStates,
      hthin.numInputs]
  · rw [← hs.records.numStates, ← hs.records.numInputs] at hmem
    rw [← hs.records.numInputs] at hm
    exact exists_solve_eq_ok target hs.exact.adequate hm hmem
  · exact (hs.sameMoves hs').solveInvariance_eq hs.exact.inside hs'.exact.inside mem
  · rw [← hs.records.numStates, ← hs.records.numInputs] at hmem
    rw [← hs.records.numInputs] at hm
    obtain ⟨valid, hr, -⟩ := exists_solveInvariance_eq_ok hs.exact.inside hm hmem safe
    exact ⟨_, hr⟩

open ReachabilityGame in
/-- On the fork state 1 is avoided by deleting its only transition. -/
theorem Store.BuiltFrom.solve_fork_eq_solve_filter :
    Builder.forkStore.BuiltFrom 4 2 Builder.forkTriples ∧
    ∃ s', BuiltFrom s' 4 2 [(0, 0, 1), (0, 0, 2), (0, 1, 3), (3, 1, 3)] ∧
      (((new Builder.forkStore).avoiding fun x : State => x.id == 1).solve .ample
          fun x : State => x.id == 2).result =
        ((new s').solve .ample fun x : State => x.id == 2 && !(x.id == 1)).result ∧
      (Builder.forkStore.solveInvariance .ample fun x : State => x.id != 1).result =
        (s'.solveInvariance .ample StateSet.everything).result := by
  obtain ⟨⟨⟨s', hs'⟩, hreach⟩, -, hsafe⟩ :=
    Builder.builtFrom_fork.solve_eq_solve_filter (fun x : State => x.id == 2)
      (fun x : State => x.id == 1) fun x : State => x.id != 1
  exact ⟨Builder.builtFrom_fork, s', hs', (hreach s' hs' .ample).1, (hsafe s' hs' .ample).1⟩

end ControlGames
