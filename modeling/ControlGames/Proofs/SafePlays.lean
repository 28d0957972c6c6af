import ControlGames.Proofs.InvarianceKernel
import ControlGames.Proofs.Plays

/-!
# Plays that stay in a safe set

A strategy keeps every play inside a set just if it forces the kernel of the set after every history
that it lets come about. The valid inputs of a region are those that force the kernel, so they allow
all safe strategies and no others, even if strategies remember all states visited so far.
-/
namespace ControlGames

variable {S I : Type*} {R : S → I → S → Prop} {P : Set S} {σ : List S → I} {x : S}

/-- No play of the strategy from `x` ever leaves `P` or is blocked by an input that cannot be
applied. -/
def StaysIn (R : S → I → S → Prop) (P : Set S) (σ : List S → I) (x : S) : Prop :=
  ∀ p : ℕ → S, p 0 = x → Legal R σ p → ∀ t, p t ∈ P ∧ ∃ y, R (p t) (σ (history p t)) y

/-- The history of `p` up to time `t` starts at `x` and comes about under the strategy. -/
def Consistent (R : S → I → S → Prop) (σ : List S → I) (x : S) (p : ℕ → S) (t : ℕ) : Prop :=
  p 0 = x ∧ ∀ r < t, Follows R σ p r

def visited (R : S → I → S → Prop) (σ : List S → I) (x : S) : Set S :=
  {y | ∃ p t, Consistent R σ x p t ∧ p t = y}

theorem Consistent.succ {p : ℕ → S} {t : ℕ} (h : Consistent R σ x p t) (ht : Follows R σ p t) :
    Consistent R σ x p (t + 1) := by
  refine ⟨h.1, fun r hr => ?_⟩
  rcases Nat.lt_succ_iff_lt_or_eq.mp hr with hlt | rfl
  · exact h.2 r hlt
  · exact ht

theorem Consistent.mem_visited {p : ℕ → S} {t : ℕ} (h : Consistent R σ x p t) {y : S}
    (hy : R (p t) (σ (history p t)) y) : y ∈ visited R σ x := by
  let q := Function.update p (t + 1) y
  have hsame : ∀ r ≤ t, p r = q r := fun r hr =>
    (Function.update_of_ne (Nat.ne_of_lt (Nat.lt_succ_of_le hr)) y p).symm
  have hlast : q (t + 1) = y := Function.update_self ..
  have hq : Consistent R σ x q t := by
    refine ⟨(hsame 0 t.zero_le).symm.trans h.1, fun r hr => ?_⟩
    exact (h.2 r hr).congr fun r' hr' => hsame r' (hr'.trans hr)
  have hmove : Follows R σ q t := by
    rw [Follows, hlast, ← history_congr hsame, ← hsame t le_rfl]
    exact hy
  exact ⟨q, t + 1, hq.succ hmove, hlast⟩

/-- A strategy that stays in `P` never leaves the states visited, which all lie in `P`. -/
theorem StaysIn.forces_visited (h : StaysIn R P σ x) {p : ℕ → S} {t : ℕ}
    (hp : Consistent R σ x p t) :
    p t ∈ P ∧ Forces R (p t) (σ (history p t)) (visited R σ x) := by
  obtain ⟨q, hsame, hlegal⟩ := exists_legal_extending hp.2
  have hq0 : q 0 = x := (hsame 0 t.zero_le).symm.trans hp.1
  obtain ⟨hP, happlicable⟩ := h q hq0 hlegal t
  rw [← hsame t le_rfl] at hP
  rw [← hsame t le_rfl, ← history_congr hsame] at happlicable
  exact ⟨hP, happlicable, fun y hy => hp.mem_visited hy⟩

theorem StaysIn.visited_subset_kernel (h : StaysIn R P σ x) : visited R σ x ⊆ kernel R P := by
  apply subset_kernel
  · rintro y ⟨p, t, hp, rfl⟩
    exact (h.forces_visited hp).1
  · rintro y ⟨p, t, hp, rfl⟩
    exact ⟨_, (h.forces_visited hp).2⟩

/-- Staying in a set is forcing its kernel after every history that comes about. -/
theorem staysIn_iff_forces_kernel :
    StaysIn R P σ x ↔ ∀ p t, Consistent R σ x p t →
      p t ∈ kernel R P ∧ Forces R (p t) (σ (history p t)) (kernel R P) := by
  constructor
  · intro h p t hp
    have hsub := h.visited_subset_kernel
    exact ⟨hsub ⟨p, t, hp, rfl⟩, (h.forces_visited hp).2.mono hsub⟩
  · intro h p hp0 hlegal t
    -- as no history so far was blocked, all of them come about
    have hconsistent : ∀ t, Consistent R σ x p t := by
      intro t
      induction t with
      | zero => exact ⟨hp0, nofun⟩
      | succ t ih => exact ih.succ (hlegal t (h p t ih).2.1)
    obtain ⟨hmem, hforces⟩ := h p t (hconsistent t)
    exact ⟨kernel_subset hmem, hforces.1⟩

/-- The valid inputs of a region describe the safe strategies: a strategy stays in the safe set for
ever just if it chooses a valid input after every history that it lets come about. -/
theorem Store.staysIn_iff_isValid {b : Builder} {mem mem' : Memory} {s : Store}
    (hb : (b.build mem).result = .ok s) {α : Type} [StateSet α] {safe : α} {r : Region}
    (hr : (s.solveInvariance mem' safe).result = .ok r) (i : Fin s.numStates)
    (σ : List (Fin s.numStates) → Fin s.numInputs) :
    StaysIn b.Leads (s.members safe) σ i ↔ ∀ p t, Consistent b.Leads σ i p t →
      r.isValid (s.state (p t)) (s.input (σ (history p t))) = .ok true := by
  rw [staysIn_iff_forces_kernel]
  refine forall₃_congr fun p t _ => ?_
  exact (Invariance.isValid_eq_true_iff hb hr (p t) _).symm

theorem Builder.staysIn_fork :
    StaysIn fork.Leads (forkStore.members fun x : State => x.id != 2) (fun _ => (1 : Fin 2))
      (0 : Fin 4) := by
  intro (p : ℕ → Fin 4) hp hlegal t
  have happlicable : ∀ x : Fin 4, x = 0 ∨ x = 3 → ∃ y, fork.Leads x (1 : Fin 2) y := by decide
  have honly : ∀ x y : Fin 4, x = 0 ∨ x = 3 → fork.Leads x (1 : Fin 2) y → y = 3 := by decide
  have hmem : p t = 0 ∨ p t = 3 := by
    induction t with
    | zero => exact Or.inl hp
    | succ t ih => exact Or.inr (honly _ _ ih (hlegal t (happlicable _ ih)))
  refine ⟨?_, happlicable _ hmem⟩
  rcases hmem with h | h <;> rw [h] <;> rfl

/-- So it is valid at state 0 if state 2 is to be avoided. -/
theorem Store.isValid_of_staysIn_fork : ∃ r,
    (Builder.fork.build .ample).result = .ok Builder.forkStore ∧
    (Builder.forkStore.solveInvariance .ample fun x : State => x.id != 2).result = .ok r ∧
    Consistent Builder.fork.Leads (fun _ => (1 : Fin 2)) (0 : Fin 4) (fun _ => 0) 0 ∧
    r.isValid (Builder.forkStore.state (0 : Fin 4)) (Builder.forkStore.input (1 : Fin 2)) =
      .ok true := by
  have hmem : Invariance.reservePeeling .ample Builder.forkStore.numStates
      Builder.forkStore.numInputs = .ok () := rfl
  obtain ⟨valid, hr, -⟩ := Invariance.exists_solveInvariance_eq_ok
    (Builder.exact_of_build Builder.build_fork).inside (by decide) hmem fun x : State => x.id != 2
  have hstart : Consistent Builder.fork.Leads (fun _ => (1 : Fin 2)) (0 : Fin 4) (fun _ => 0) 0 :=
    ⟨rfl, nofun⟩
  have hvalid := (staysIn_iff_isValid Builder.build_fork hr (0 : Fin 4) _).mp Builder.staysIn_fork
  exact ⟨_, Builder.build_fork, hr, hstart, hvalid (fun _ => (0 : Fin 4)) 0 hstart⟩

end ControlGames
