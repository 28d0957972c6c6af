import ControlGames.Proofs.FailingFolds
import ControlGames.Proofs.RawStores

/-!
# Allocations

An allocation gives up the arrays of a store and asks memory for three new ones in turn. Where
memory refuses one of them, those before it stay behind, full of zeros; but the sizes come last, so
no query reaches them, and seen from outside the store is empty whatever it held. To allocate
transitions replaces the flat array only, and if this fails it changes nothing.
-/
namespace ControlGames

namespace Memory

variable {mem : Memory} {what : Backing} {count : ℕ}

def lacking (what : Backing) : Memory := ⟨fun w _ => w ≠ what⟩

theorem exists_of_reserve {r : Refusal} (h : mem.reserve what count = .error r) :
    ∃ why, r = .allocation what why := by
  simp only [reserve] at h
  split at h
  · cases h
    exact ⟨.capacity, rfl⟩
  · split at h
    · cases h
    · cases h
      exact ⟨.exhausted, rfl⟩

variable {α : Type} (x : α)

theorem fill_of_granted (h : mem.reserve what count = .ok ()) :
    mem.fill what count x = .ok (Array.replicate count x) := by
  rw [fill, h]
  rfl

theorem fill_of_refused {r : Refusal} (h : mem.reserve what count = .error r) :
    mem.fill what count x = .error r := by
  rw [fill, h]
  rfl

end Memory

namespace Filling

variable {mem : Memory} {what : Backing} {count : ℕ} {α β : Type} {x : α}
  {g : Array α → Filling β} {a : RawStore}

theorem on_fill_of_granted (h : mem.reserve what count = .ok ()) :
    ((liftM (mem.fill what count x) : Filling (Array α)) >>= g).on a =
      (g (Array.replicate count x)).on a := by
  rw [Memory.fill_of_granted x h, on_ok_bind]

theorem on_fill_of_refused {r : Refusal} (h : mem.reserve what count = .error r) :
    ((liftM (mem.fill what count x) : Filling (Array α)) >>= g).on a = (.error r, a) := by
  rw [Memory.fill_of_refused x h, on_error_bind]
  rfl

end Filling

namespace Store

/-! ### Tables -/

/-- The arrays that an allocation asks for, in this order. -/
def tables : List Backing := [.predecessorCounts, .successorCounts, .predecessorOffsets]

/-- Of the arrays for so many pairs, memory grants those before this one and refuses this one. -/
def FirstRefused (mem : Memory) (cells : ℕ) (what : Backing) (why : Shortage) : Prop :=
  ∃ pre post, tables = pre ++ what :: post ∧ (∀ w ∈ pre, mem.reserve w cells = .ok ()) ∧
    mem.reserve what cells = .error (.allocation what why)

variable {mem : Memory} {cells : ℕ}

theorem eq_of_tables_eq {what : Backing} {got got' rest rest' : List Backing}
    (h : tables = got ++ what :: rest) (h' : tables = got' ++ what :: rest') : got = got' := by
  have hnodup : tables.Nodup := by decide
  rw [h, List.nodup_middle, List.nodup_cons, List.mem_append, not_or] at hnodup
  exact ((List.append_cons_inj_of_notMem hnodup.1.1 hnodup.1.2).mp (h.symm.trans h')).1

theorem reserveTables_eq_forM :
    reserveTables mem cells = tables.forM fun what => mem.reserve what cells := by
  change (mem.reserve .predecessorCounts cells >>= fun _ =>
      mem.reserve .successorCounts cells >>= fun _ => mem.reserve .predecessorOffsets cells) =
    (mem.reserve .predecessorCounts cells >>= fun _ =>
      mem.reserve .successorCounts cells >>= fun _ =>
      mem.reserve .predecessorOffsets cells >>= fun _ => pure ())
  rw [bind_pure_unit]

theorem reserveTables_eq_error_iff {r : Refusal} : reserveTables mem cells = .error r ↔
    ∃ what why, FirstRefused mem cells what why ∧ r = .allocation what why := by
  rw [reserveTables_eq_forM, forM_eq_error_iff]
  constructor
  · rintro ⟨pre, what, post, hsplit, hpre, hwhat⟩
    obtain ⟨why, rfl⟩ := Memory.exists_of_reserve hwhat
    exact ⟨what, why, ⟨pre, post, hsplit, hpre, hwhat⟩, rfl⟩
  · rintro ⟨what, why, ⟨pre, post, hsplit, hpre, hwhat⟩, rfl⟩
    exact ⟨pre, what, post, hsplit, hpre, hwhat⟩

theorem reserveTables_eq_ok_iff :
    reserveTables mem cells = .ok () ↔ ∀ what ∈ tables, mem.reserve what cells = .ok () := by
  rw [reserveTables_eq_forM, forM_eq_ok_iff]

theorem reserveTables_eq_allocation_iff {what : Backing} {why : Shortage} :
    reserveTables mem cells = .error (.allocation what why) ↔ FirstRefused mem cells what why := by
  rw [reserveTables_eq_error_iff]
  constructor
  · rintro ⟨what', why', hfirst, heq⟩
    cases heq
    exact hfirst
  · intro hfirst
    exact ⟨what, why, hfirst, rfl⟩

end Store

namespace RawStore

open Filling Store

variable {mem : Memory} {n m total : ℕ} {a : RawStore}

/-! ### Allocating tables -/

/-- The arrays of an allocation that has got these tables so far. -/
def remnant (cells : ℕ) (got : List Backing) : RawStore where
  numStates := 0
  numInputs := 0
  slots := #[]
  offsets := if .predecessorOffsets ∈ got then Array.replicate cells 0 else #[]
  groupSizes := if .predecessorCounts ∈ got then Array.replicate cells 0 else #[]
  successorCounts := if .successorCounts ∈ got then Array.replicate cells 0 else #[]

def blank (n m : ℕ) : RawStore :=
  ⟨n, m, #[], .replicate (n * m) 0, .replicate (n * m) 0, .replicate (n * m) 0⟩

theorem renew_of_refused {got rest : List Backing} {what : Backing} {r : Refusal}
    (hsplit : tables = got ++ what :: rest)
    (hgot : ∀ w ∈ got, mem.reserve w (n * m) = .ok ())
    (hwhat : mem.reserve what (n * m) = .error r) :
    (renew mem n m).on a = (.error r, remnant (n * m) got) := by
  rw [renew, on_set_bind]
  cases got with
  | nil =>
    cases hsplit
    rw [on_fill_of_refused hwhat]
    rfl
  | cons _ got =>
    cases got with
    | nil =>
      cases hsplit
      rw [on_fill_of_granted (hgot _ (by simp)), on_modify_bind, on_fill_of_refused hwhat]
      rfl
    | cons _ got =>
      cases got with
      | nil =>
        cases hsplit
        rw [on_fill_of_granted (hgot _ (by simp)), on_modify_bind,
          on_fill_of_granted (hgot _ (by simp)), on_modify_bind, on_fill_of_refused hwhat]
        rfl
      | cons _ _ => simp [tables] at hsplit

theorem renew_of_granted (h : ∀ what ∈ tables, mem.reserve what (n * m) = .ok ()) :
    (renew mem n m).on a = (.ok (), blank n m) := by
  rw [renew, on_set_bind, on_fill_of_granted (h _ (by simp [tables])), on_modify_bind,
    on_fill_of_granted (h _ (by simp [tables])), on_modify_bind,
    on_fill_of_granted (h _ (by simp [tables]))]
  rfl

/-- It goes as the three requests go one after another. -/
theorem renew_fst : ((renew mem n m).on a).1 =
    (reserveTables mem (n * m)).mapError Failure.refusal := by
  cases htables : reserveTables mem (n * m) with
  | ok _ =>
    rw [renew_of_granted (reserveTables_eq_ok_iff.mp htables)]
    rfl
  | error r =>
    obtain ⟨what, why, ⟨got, rest, hsplit, hgot, hwhat⟩, rfl⟩ :=
      reserveTables_eq_error_iff.mp htables
    rw [renew_of_refused hsplit hgot hwhat]
    rfl

theorem allocate_of_tooManyStates (hn : reserved < n) :
    (allocate mem n m).on a = (.error (Refusal.tooManyStates n), a) := by
  rw [allocate, if_pos hn]
  rfl

theorem allocate_of_tooManyInputs (hn : n ≤ reserved) (hm : reserved < m) :
    (allocate mem n m).on a = (.error (Refusal.tooManyInputs m), a) := by
  rw [allocate, if_neg (not_lt_of_ge hn), if_pos hm]
  rfl

theorem allocate_of_misfit (h : ¬ (n ≤ reserved ∧ m ≤ reserved)) :
    (allocate mem n m).on a = (.error (misfit n m), a) := by
  rw [misfit]
  split
  · next hn => exact allocate_of_tooManyStates hn
  · next hn => exact allocate_of_tooManyInputs (not_lt.mp hn) (by omega)

theorem allocate_of_fits (hn : n ≤ reserved) (hm : m ≤ reserved) :
    (allocate mem n m).on a = (renew mem n m).on a := by
  rw [allocate, if_neg (not_lt_of_ge hn), if_neg (not_lt_of_ge hm)]

theorem misfit_ne_allocation {what : Backing} {why : Shortage} :
    misfit n m ≠ .allocation what why := by
  rw [misfit]
  split
  · exact nofun
  · exact nofun

/-- An allocation fails for want of memory exactly if memory refuses one of the arrays, and names
the first. -/
theorem allocate_eq_allocation_iff {what : Backing} {why : Shortage} :
    ((allocate mem n m).on a).1 = .error (Refusal.allocation what why) ↔
      n ≤ reserved ∧ m ≤ reserved ∧ FirstRefused mem (n * m) what why := by
  rw [← reserveTables_eq_allocation_iff, ← and_assoc]
  by_cases hfit : n ≤ reserved ∧ m ≤ reserved
  · rw [and_iff_right hfit, allocate_of_fits hfit.1 hfit.2, renew_fst]
    cases reserveTables mem (n * m) with
    | ok _ => simp [Except.mapError]
    | error r => simp [Except.mapError]
  · rw [allocate_of_misfit hfit]
    refine iff_of_false (fun h => ?_) fun h => hfit h.1
    exact misfit_ne_allocation (Failure.refusal.inj (Except.error.inj h))

theorem allocate_eq_ok_iff : ((allocate mem n m).on a).1 = .ok () ↔
    n ≤ reserved ∧ m ≤ reserved ∧ ∀ what ∈ tables, mem.reserve what (n * m) = .ok () := by
  rw [← reserveTables_eq_ok_iff, ← and_assoc]
  by_cases hfit : n ≤ reserved ∧ m ≤ reserved
  · rw [and_iff_right hfit, allocate_of_fits hfit.1 hfit.2, renew_fst]
    cases reserveTables mem (n * m) with
    | ok _ => simp [Except.mapError]
    | error r => simp [Except.mapError]
  · rw [allocate_of_misfit hfit]
    exact iff_of_false nofun fun h => hfit h.1

section Refused

variable {what : Backing} {why : Shortage}
  (h : ((allocate mem n m).on a).1 = .error (Refusal.allocation what why))

include h

/-- The tables before the one that is refused stay behind. -/
theorem allocate_snd_of_allocation {got rest : List Backing}
    (hsplit : tables = got ++ what :: rest) :
    ((allocate mem n m).on a).2 = remnant (n * m) got := by
  obtain ⟨hn, hm, got', rest', hsplit', hgot, hwhat⟩ := allocate_eq_allocation_iff.mp h
  rw [allocate_of_fits hn hm, renew_of_refused hsplit' hgot hwhat, eq_of_tables_eq hsplit hsplit']

theorem exists_remnant : ∃ got, ((allocate mem n m).on a).2 = remnant (n * m) got := by
  obtain ⟨-, -, got, rest, hsplit, -⟩ := allocate_eq_allocation_iff.mp h
  exact ⟨got, allocate_snd_of_allocation h hsplit⟩

end Refused

theorem allocate_snd_of_ok (h : ((allocate mem n m).on a).1 = .ok ()) :
    ((allocate mem n m).on a).2 = blank n m := by
  obtain ⟨hn, hm, htables⟩ := allocate_eq_ok_iff.mp h
  rw [allocate_of_fits hn hm, renew_of_granted htables]

/-! ### Queries where nothing is left to see -/

theorem locate_of_no_states (h : a.numStates = 0) (x : State) (u : Input) :
    a.locate x u = .error (.stateNotInStore x) := by
  rw [locate, if_neg (by omega)]

theorem group_of_no_states (h : a.numStates = 0) (x : State) (u : Input) :
    a.group x u = .error (.stateNotInStore x) := by
  rw [group, locate_of_no_states h]
  rfl

theorem successorCount_of_no_states (h : a.numStates = 0) (x : State) (u : Input) :
    a.successorCount x u = .error (.stateNotInStore x) := by
  rw [successorCount, locate_of_no_states h]
  rfl

theorem predecessors_of_no_slots (h : a.slots = #[]) (x : State) (u : Input) :
    a.predecessors x u = .error Refusal.emptyRelation := by
  rw [predecessors, isEmpty, h]
  rfl

/-! ### Allocating transitions -/

theorem allocateTransitions_of_tooMany (h : maxTransitions < total) :
    (allocateTransitions mem total).on a = (.error (Refusal.tooManyTransitions total), a) := by
  rw [allocateTransitions, if_pos h]
  rfl

theorem allocateTransitions_of_refused (h : total ≤ maxTransitions) {r : Refusal}
    (hslots : mem.reserve .predecessorArray total = .error r) :
    (allocateTransitions mem total).on a = (.error r, a) := by
  rw [allocateTransitions, if_neg (not_lt_of_ge h), on_fill_of_refused hslots]

theorem allocateTransitions_of_granted (h : total ≤ maxTransitions)
    (hslots : mem.reserve .predecessorArray total = .ok ()) :
    (allocateTransitions mem total).on a =
      (.ok (), { a with slots := .replicate total State.zero }) := by
  rw [allocateTransitions, if_neg (not_lt_of_ge h), on_fill_of_granted hslots, on_modify]

theorem allocateTransitions_snd_of_error {f : Failure}
    (h : ((allocateTransitions mem total).on a).1 = .error f) :
    ((allocateTransitions mem total).on a).2 = a := by
  rcases lt_or_ge maxTransitions total with htotal | htotal
  · rw [allocateTransitions_of_tooMany htotal]
  · cases hslots : mem.reserve .predecessorArray total with
    | ok _ =>
      rw [allocateTransitions_of_granted htotal hslots] at h
      cases h
    | error r => rw [allocateTransitions_of_refused htotal hslots]

theorem allocateTransitions_eq_ok_iff : ((allocateTransitions mem total).on a).1 = .ok () ↔
    total ≤ maxTransitions ∧ mem.reserve .predecessorArray total = .ok () := by
  rcases lt_or_ge maxTransitions total with htotal | htotal
  · rw [allocateTransitions_of_tooMany htotal]
    exact iff_of_false nofun fun h => absurd h.1 (not_le_of_gt htotal)
  · rw [and_iff_right htotal]
    cases hslots : mem.reserve .predecessorArray total with
    | ok _ => simp [allocateTransitions_of_granted htotal hslots]
    | error r => simp [allocateTransitions_of_refused htotal hslots]

theorem allocateTransitions_eq_allocation_iff {what : Backing} {why : Shortage} :
    ((allocateTransitions mem total).on a).1 = .error (Refusal.allocation what why) ↔
      total ≤ maxTransitions ∧ what = .predecessorArray ∧
        mem.reserve .predecessorArray total = .error (.allocation what why) := by
  rcases lt_or_ge maxTransitions total with htotal | htotal
  · rw [allocateTransitions_of_tooMany htotal]
    exact iff_of_false nofun fun h => absurd h.1 (not_le_of_gt htotal)
  · rw [and_iff_right htotal]
    cases hslots : mem.reserve .predecessorArray total with
    | ok _ => simp [allocateTransitions_of_granted htotal hslots]
    | error r =>
      obtain ⟨why', rfl⟩ := Memory.exists_of_reserve hslots
      rw [allocateTransitions_of_refused htotal hslots]
      constructor
      · intro h
        cases h
        exact ⟨rfl, rfl⟩
      · rintro ⟨rfl, h⟩
        cases h
        rfl

theorem allocateTransitions_snd_of_ok (h : ((allocateTransitions mem total).on a).1 = .ok ()) :
    ((allocateTransitions mem total).on a).2 =
      { a with slots := .replicate total State.zero } := by
  obtain ⟨htotal, hslots⟩ := allocateTransitions_eq_ok_iff.mp h
  rw [allocateTransitions_of_granted htotal hslots]

end RawStore

/-! ### Seen from outside -/

namespace Store

open RawStore

variable {mem : Memory} {n m total : ℕ} {a : RawStore}

/-- The store has the given size and nothing in it. -/
structure IsBlank (s : Store) (n m : ℕ) : Prop where
  numStates : s.numStates = n
  numInputs : s.numInputs = m
  group : ∀ k j, s.groups.get k j = ⟨0, 0⟩
  count : ∀ i j, s.successorCountAt i j = 0
  slots : s.slots = #[]

theorem isBlank_blank {n m : ℕ} (h : n ≤ reserved ∧ m ≤ reserved) : (blank n m h).IsBlank n m where
  numStates := rfl
  numInputs := rfl
  group k j := Table.get_replicate _ k j
  count i j := congrArg UInt32.toNat (Table.get_replicate (0 : UInt32) i j)
  slots := rfl

theorem ofRaw_blank (hfit : n ≤ reserved ∧ m ≤ reserved) (h : (RawStore.blank n m).Sound) :
    ofRaw (RawStore.blank n m) h = blank n m hfit := by
  simp only [ofRaw, RawStore.blank, blank, Table.ofArray_replicate, Table.zipWith_replicate]

theorem isBlank_of_eq_blank (h : a.Sound) (ha : a = RawStore.blank n m) :
    (ofRaw a h).IsBlank n m := by
  subst ha
  have hfit : n ≤ reserved ∧ m ≤ reserved := h.sizes_le
  rw [ofRaw_blank hfit]
  exact isBlank_blank hfit

theorem isBlank_of_eq_remnant {cells : ℕ} {got : List Backing} (h : a.Sound)
    (ha : a = remnant cells got) : (ofRaw a h).IsBlank 0 0 := by
  subst ha
  rw [ofRaw_eq_empty h rfl rfl rfl]
  exact isBlank_blank _

section Filled

variable {h : a.Sound} {s : Store} (hs : ofRaw a h = s)

include hs

theorem filled_allocate :
    filled (RawStore.allocate mem n m) (keepsSound_allocate mem n m) h =
      if hfit : n ≤ reserved ∧ m ≤ reserved then
        match reserveTables mem (n * m) with
        | .ok () => (.ok (), blank n m hfit)
        | .error r => (.error r, empty)
      else (.error (misfit n m), s) := by
  subst hs
  by_cases hfit : n ≤ reserved ∧ m ≤ reserved
  · rw [dif_pos hfit]
    cases htables : reserveTables mem (n * m) with
    | ok _ =>
      have hon : (RawStore.allocate mem n m).on a = (.ok (), RawStore.blank n m) := by
        rw [allocate_of_fits hfit.1 hfit.2, renew_of_granted (reserveTables_eq_ok_iff.mp htables)]
      have hb := keepsSound_allocate mem n m h
      rw [hon] at hb
      rw [filled_of_on hon hb, ofRaw_blank hfit]
    | error r =>
      obtain ⟨what, why, ⟨got, rest, hsplit, hgot, hwhat⟩, rfl⟩ :=
        reserveTables_eq_error_iff.mp htables
      have hon : (RawStore.allocate mem n m).on a =
          (.error (Refusal.allocation what why), remnant (n * m) got) := by
        rw [allocate_of_fits hfit.1 hfit.2, renew_of_refused hsplit hgot hwhat]
      rw [filled_of_on hon (sound_of_no_pairs rfl rfl), ofRaw_eq_empty _ rfl rfl rfl]
  · rw [dif_neg hfit, filled_of_on (allocate_of_misfit hfit) h]

theorem filled_allocateTransitions :
    filled (RawStore.allocateTransitions mem total) (keepsSound_allocateTransitions mem total) h =
      match reserveSlots mem total with
      | .ok () => (.ok (), { s with slots := Array.replicate total State.zero })
      | .error r => (.error r, s) := by
  subst hs
  rcases lt_or_ge maxTransitions total with htotal | htotal
  · rw [filled_of_on (allocateTransitions_of_tooMany htotal) h, reserveSlots, if_pos htotal]
  · rw [reserveSlots, if_neg (not_lt_of_ge htotal)]
    cases hslots : mem.reserve .predecessorArray total with
    | ok _ => exact filled_of_on (allocateTransitions_of_granted htotal hslots) { h with }
    | error _ => exact filled_of_on (allocateTransitions_of_refused htotal hslots) h

end Filled

theorem allocate_eq (s : Store) : s.allocate mem n m =
    if hfit : n ≤ reserved ∧ m ≤ reserved then
      match reserveTables mem (n * m) with
      | .ok () => (.ok (), blank n m hfit)
      | .error r => (.error r, empty)
    else (.error (misfit n m), s) := filled_allocate s.ofRaw_raw

theorem allocateTransitions_eq (s : Store) : s.allocateTransitions mem total =
    match reserveSlots mem total with
    | .ok () => (.ok (), { s with slots := Array.replicate total State.zero })
    | .error r => (.error r, s) := filled_allocateTransitions s.ofRaw_raw

/-- A call on the arrays is the call on the store that they show. -/
theorem filled_perform (mem : Memory) (c : Call) (h : a.Sound) :
    filled (RawStore.perform mem c) (keepsSound_perform mem c) h = (ofRaw a h).perform mem c := by
  cases c with
  | allocate n m => exact (filled_allocate rfl).trans (allocate_eq _).symm
  | allocateTransitions total =>
    exact (filled_allocateTransitions rfl).trans (allocateTransitions_eq _).symm
  | setLayout post u g => exact (filled_setLayout rfl post u g).trans (setLayout_eq _ post u g).symm
  | setPredecessor slot pre =>
    exact (filled_setPredecessor rfl pre slot).trans (setPredecessor_eq _ pre slot).symm
  | setSuccessorCount pre u count =>
    exact (filled_setSuccessorCount rfl pre u count).trans (setSuccessorCount_eq _ pre u count).symm

end Store

/-! ### Main result -/

namespace RawStore

open Store

/-- Whatever the arrays hold and whichever of them memory refuses. Sizes out of range change
nothing. If one of the three tables is refused, those before it hold zeros, it and those after it
nothing, and with the sizes at zero no query finds a state; so the store that is seen is empty. If
all are granted the sizes are the new ones, and all tables hold zeros. To allocate transitions
changes the flat array if it succeeds and nothing if it fails. Sound arrays answer as the store that
is seen, and both calls do to them what they do to it. -/
theorem allocations_leave_defined_store (mem : Memory) (a : RawStore) :
    (∀ n m, let r := (allocate mem n m).on a
      (reserved < n → r = (.error (Refusal.tooManyStates n), a)) ∧
      (n ≤ reserved → reserved < m → r = (.error (Refusal.tooManyInputs m), a)) ∧
      (∀ what why, r.1 = .error (Refusal.allocation what why) ↔
        n ≤ reserved ∧ m ≤ reserved ∧ FirstRefused mem (n * m) what why) ∧
      (∀ what why, r.1 = .error (Refusal.allocation what why) →
        (∀ got rest, tables = got ++ what :: rest → r.2 = remnant (n * m) got) ∧
        r.2.numStates = 0 ∧ r.2.numInputs = 0 ∧ r.2.slots = #[] ∧
        ∀ x u, r.2.predecessors x u = .error Refusal.emptyRelation ∧
          r.2.group x u = .error (.stateNotInStore x) ∧
          r.2.successorCount x u = .error (.stateNotInStore x)) ∧
      (r.1 = .ok () ↔
        n ≤ reserved ∧ m ≤ reserved ∧ ∀ what ∈ tables, mem.reserve what (n * m) = .ok ()) ∧
      (r.1 = .ok () →
        r.2 = ⟨n, m, #[], .replicate (n * m) 0, .replicate (n * m) 0, .replicate (n * m) 0⟩ ∧
        ∀ x u, r.2.predecessors x u = .error Refusal.emptyRelation)) ∧
    (∀ total, let r := (allocateTransitions mem total).on a
      (maxTransitions < total → r.1 = .error (Refusal.tooManyTransitions total)) ∧
      (∀ what why, r.1 = .error (Refusal.allocation what why) ↔
        total ≤ maxTransitions ∧ what = .predecessorArray ∧
          mem.reserve .predecessorArray total = .error (.allocation what why)) ∧
      (∀ f, r.1 = .error f → r.2 = a) ∧
      (r.1 = .ok () ↔ total ≤ maxTransitions ∧ mem.reserve .predecessorArray total = .ok ()) ∧
      (r.1 = .ok () → r.2 = { a with slots := .replicate total State.zero })) ∧
    ∀ h : a.Sound,
      (∀ x u, a.predecessors x u = (ofRaw a h).predecessors x u ∧
        a.group x u = (ofRaw a h).group x u ∧
        a.successorCount x u = (ofRaw a h).successorCount x u) ∧
      (∀ n m, let s := (ofRaw a h).allocate mem n m
        s = filled (allocate mem n m) (keepsSound_allocate mem n m) h ∧
        (∀ what why, s.1 = .error (Refusal.allocation what why) → s.2.IsBlank 0 0) ∧
        (s.1 = .ok () → s.2.IsBlank n m)) ∧
      ∀ total, (ofRaw a h).allocateTransitions mem total =
        filled (allocateTransitions mem total) (keepsSound_allocateTransitions mem total) h := by
  refine ⟨fun n m => ?_, fun total => ?_, fun h => ⟨fun x u => ?_, fun n m => ?_, fun total => ?_⟩⟩
  · intro r
    refine ⟨allocate_of_tooManyStates, allocate_of_tooManyInputs, ?_, ?_, allocate_eq_ok_iff, ?_⟩
    · intro what why
      exact allocate_eq_allocation_iff
    · intro what why hrefused
      obtain ⟨got, hgot⟩ := exists_remnant hrefused
      have hn : r.2.numStates = 0 := congrArg numStates hgot
      have hslots : r.2.slots = #[] := congrArg slots hgot
      refine ⟨fun _ _ => allocate_snd_of_allocation hrefused, hn, congrArg numInputs hgot, hslots,
        fun x u => ⟨?_, ?_, ?_⟩⟩
      · exact predecessors_of_no_slots hslots x u
      · exact group_of_no_states hn x u
      · exact successorCount_of_no_states hn x u
    · intro hok
      have hblank := allocate_snd_of_ok hok
      exact ⟨hblank, predecessors_of_no_slots (congrArg slots hblank)⟩
  · intro r
    refine ⟨?_, ?_, ?_, allocateTransitions_eq_ok_iff, allocateTransitions_snd_of_ok⟩
    · intro htotal
      exact congrArg Prod.fst (allocateTransitions_of_tooMany htotal)
    · intro what why
      exact allocateTransitions_eq_allocation_iff
    · intro f
      exact allocateTransitions_snd_of_error
  · exact ⟨predecessors_raw h x u, group_raw h x u, successorCount_raw h x u⟩
  · intro s
    have hs : s = filled (allocate mem n m) (keepsSound_allocate mem n m) h :=
      (filled_perform mem (.allocate n m) h).symm
    rw [hs]
    refine ⟨rfl, ?_, ?_⟩
    · intro what why hrefused
      obtain ⟨got, hgot⟩ := exists_remnant hrefused
      exact isBlank_of_eq_remnant (keepsSound_allocate mem n m h) hgot
    · intro hok
      exact isBlank_of_eq_blank (keepsSound_allocate mem n m h) (allocate_snd_of_ok hok)
  · exact (filled_perform mem (.allocateTransitions total) h).symm

def loop : RawStore := ⟨1, 1, #[State.zero], #[0], #[1], #[1]⟩

theorem sound_loop : loop.Sound :=
  ⟨⟨by decide, by decide⟩, Nat.le_refl 1, Nat.le_refl 1, Nat.le_refl 1⟩

/-- Two of three tables are granted and stay behind, out of reach; the loop is gone all the same. It
outlives a size that does not fit and a flat array that cannot be had. -/
theorem allocations_leave_defined_store_loop :
    ((allocate (.lacking .predecessorOffsets) 2 1).on loop).2 =
      ⟨0, 0, #[], #[], #[0, 0], #[0, 0]⟩ ∧
    (∀ x u, ((allocate (.lacking .predecessorOffsets) 2 1).on loop).2.predecessors x u =
      .error Refusal.emptyRelation) ∧
    (allocate .unlimited (reserved + 1) (reserved + 1)).on loop =
      (.error (Refusal.tooManyStates (reserved + 1)), loop) ∧
    ((ofRaw loop sound_loop).allocate .unlimited 2 1).2.IsBlank 2 1 ∧
    ((allocateTransitions (.lacking .predecessorArray) 2).on loop).2 = loop := by
  have hcalls := (allocations_leave_defined_store (.lacking .predecessorOffsets) loop).1 2 1
  have hpre : ∀ what ∈ [Backing.predecessorCounts, .successorCounts],
      (Memory.lacking .predecessorOffsets).reserve what (2 * 1) = .ok () :=
    List.forall_mem_cons.mpr ⟨rfl, List.forall_mem_singleton.mpr rfl⟩
  have hrefused := (hcalls.2.2.1 _ _).mpr ⟨by decide, by decide, _, [], rfl, hpre, rfl⟩
  obtain ⟨hremnant, -, -, -, hqueries⟩ := hcalls.2.2.2.1 _ _ hrefused
  refine ⟨hremnant [.predecessorCounts, .successorCounts] [] rfl, fun x u => (hqueries x u).1, ?_,
    ?_, ?_⟩
  · exact ((allocations_leave_defined_store .unlimited loop).1 _ _).1 (by decide)
  · exact (((allocations_leave_defined_store .unlimited loop).2.2 sound_loop).2.1 2 1).2.2 rfl
  · exact ((allocations_leave_defined_store (.lacking .predecessorArray) loop).2.1 2).2.2.1
      (Refusal.allocation .predecessorArray .exhausted) rfl

end RawStore

end ControlGames
