import Mathlib.Order.Bounds.Basic
import ControlGames.Proofs.Attractor

/-!
# Rankings and plays

A ranking gives each state from which a target can be forced the number of steps that this takes at
worst, and names an input that keeps to it. It is then the index of the first attractor layer of the
state. A controller that follows the named inputs needs no more steps than the rank, and the
environment can make it need as many, whatever strategy the controller uses instead.
-/
namespace ControlGames

variable {S I : Type*}

def within (val : S → Option ℕ) (k : ℕ) : Set S := {x | ∃ a ≤ k, val x = some a}

theorem within_mono (val : S → Option ℕ) {k l : ℕ} (h : k ≤ l) : within val k ⊆ within val l :=
  fun _ ⟨a, ha, hx⟩ => ⟨a, ha.trans h, hx⟩

/-- Rank zero is the target, a state of higher rank has an input whose worst successor ranks one
below, and no state that could be ranked is left out or ranked too high. -/
structure Ranking (R : S → I → S → Prop) (T A : Set S) (val : S → Option ℕ)
    (c : S → Option I) : Prop where
  zero_iff : ∀ x, val x = some 0 ↔ x ∈ T \ A
  forced : ∀ x k, val x = some (k + 1) → x ∉ T ∧ x ∉ A ∧ ∃ u, c x = some u ∧
    (∀ y, R x u y → y ∈ within val k) ∧ ∃ y, R x u y ∧ val y = some k
  complete : ∀ x u k, x ∉ A → Forces R x u (within val k) → x ∈ within val (k + 1)

variable {R : S → I → S → Prop} {T A : Set S} {val : S → Option ℕ} {c : S → Option I}

namespace Ranking

theorem exists_forces (h : Ranking R T A val c) {x : S} {k : ℕ} (hx : val x = some (k + 1)) :
    ∃ u, Forces R x u (within val k) := by
  obtain ⟨-, -, u, -, hall, y, hy, -⟩ := h.forced x k hx
  exact ⟨u, ⟨y, hy⟩, hall⟩

theorem notMem_avoid (h : Ranking R T A val c) {x : S} {a : ℕ} (hx : val x = some a) : x ∉ A := by
  cases a with
  | zero => exact ((h.zero_iff x).mp hx).2
  | succ k => exact (h.forced x k hx).2.1

theorem within_eq_layer (h : Ranking R T A val c) (k : ℕ) : within val k = layer R T A k := by
  induction k with
  | zero =>
    ext x
    constructor
    · intro hwithin
      rcases hwithin with ⟨a, ha, hx⟩
      rw [Nat.le_zero.mp ha] at hx
      exact (h.zero_iff x).mp hx
    · intro hx
      exact ⟨0, le_rfl, (h.zero_iff x).mpr hx⟩
  | succ k ih =>
    ext x
    constructor
    · intro hwithin
      rcases hwithin with ⟨a, ha, hx⟩
      rcases Nat.le_succ_iff.mp ha with hak | rfl
      · exact layer_subset_succ k (ih ▸ ⟨a, hak, hx⟩)
      · obtain ⟨u, hu⟩ := h.exists_forces hx
        exact mem_layer_succ_of_forces (h.notMem_avoid hx) (ih ▸ hu)
    · rintro (hx | ⟨hA, u, hu⟩)
      · exact within_mono val k.le_succ (ih ▸ hx)
      · exact h.complete x u k hA (ih ▸ hu)

theorem eq_none_iff (h : Ranking R T A val c) (x : S) :
    val x = none ↔ ∀ k, x ∉ layer R T A k := by
  constructor
  · rintro hx k hk
    rw [← h.within_eq_layer] at hk
    obtain ⟨a, -, ha⟩ := hk
    rw [hx] at ha
    cases ha
  · intro hx
    cases hv : val x with
    | none => rfl
    | some a =>
      exact absurd (h.within_eq_layer a ▸ ⟨a, le_rfl, hv⟩ : x ∈ layer R T A a) (hx a)

theorem notMem_layer_of_lt (h : Ranking R T A val c) {x : S} {v k : ℕ} (hx : val x = some v)
    (hk : k < v) : x ∉ layer R T A k := by
  intro hmem
  rw [← h.within_eq_layer] at hmem
  obtain ⟨a, ha, hxa⟩ := hmem
  rw [hx, Option.some.injEq] at hxa
  omega

/-- A rank above zero is one more than the best bound that an input has on all its successors. -/
theorem eq_some_succ_iff (h : Ranking R T A val c) (x : S) (k : ℕ) :
    val x = some (k + 1) ↔
      x ∉ T ∧ x ∉ A ∧ IsLeast {l | ∃ u, Forces R x u (within val l)} k := by
  constructor
  · intro hx
    obtain ⟨hT, hA, -⟩ := h.forced x k hx
    refine ⟨hT, hA, h.exists_forces hx, ?_⟩
    rintro l ⟨u, hu⟩
    obtain ⟨a, ha, hxa⟩ := h.complete x u l hA hu
    rw [hx, Option.some.injEq] at hxa
    omega
  · rintro ⟨hT, hA, ⟨u, hu⟩, hleast⟩
    obtain ⟨a, ha, hx⟩ := h.complete x u k hA hu
    cases a with
    | zero => exact absurd ((h.zero_iff x).mp hx).1 hT
    | succ b =>
      have hkb : k ≤ b := hleast (h.exists_forces hx)
      have hb : b = k := by omega
      rw [hx, hb]

theorem eq_some_iff (h : Ranking R T A val c) (x : S) (v : ℕ) :
    val x = some v ↔ IsLeast {k | x ∈ layer R T A k} v := by
  constructor
  · intro hx
    refine ⟨?_, fun k hk => Nat.le_of_not_lt fun hlt => h.notMem_layer_of_lt hx hlt hk⟩
    change x ∈ layer R T A v
    rw [← h.within_eq_layer]
    exact ⟨v, le_rfl, hx⟩
  · rintro ⟨hv, hleast⟩
    have hwithin : x ∈ within val v := h.within_eq_layer v ▸ hv
    obtain ⟨a, ha, hx⟩ := hwithin
    have hva : v ≤ a := hleast (h.within_eq_layer a ▸ ⟨a, le_rfl, hx⟩ : x ∈ layer R T A a)
    rw [hx, le_antisymm ha hva]

theorem mem_attractor_iff (h : Ranking R T A val c) (x : S) :
    x ∈ attractor R T A ↔ ∃ a, val x = some a := by
  rw [← Option.ne_none_iff_exists', ne_eq, h.eq_none_iff, not_forall_not]
  exact Iff.rfl

/-- If the layers do not grow, the states of the target rank zero and no others are ranked. -/
theorem val_eq_ite (h : Ranking R T A val c) (hT : ∀ k, layer R T A k = T) {x : S} {w : Bool}
    (hw : w = true ↔ x ∈ T) : val x = if w then some 0 else none := by
  cases w with
  | false =>
    refine (h.eq_none_iff x).mpr fun k => ?_
    rw [hT, ← hw]
    exact Bool.false_ne_true
  | true =>
    refine (h.zero_iff x).mpr ?_
    change x ∈ layer R T A 0
    rw [hT, ← hw]

/-! ### Ranks of different games -/

section TwoGames

variable {S' I' : Type*} {R' : S' → I' → S' → Prop} {T' A' : Set S'} {val' : S' → Option ℕ}
  {c' : S' → Option I'} {x : S} {x' : S'}

/-- A state that is in each layer of its game only if another one is in that layer of its own ranks
no lower. -/
theorem exists_le_of_layers (h : Ranking R T A val c) (h' : Ranking R' T' A' val' c')
    (hx : ∀ k, x ∈ layer R T A k → x' ∈ layer R' T' A' k) {v : ℕ} (hv : val x = some v) :
    ∃ v' ≤ v, val' x' = some v' := by
  have hmem := hx v ((h.eq_some_iff x v).mp hv).1
  rwa [← h'.within_eq_layer] at hmem

theorem val_eq_of_layers (h : Ranking R T A val c) (h' : Ranking R' T' A' val' c')
    (hx : ∀ k, x ∈ layer R T A k ↔ x' ∈ layer R' T' A' k) : val x = val' x' := by
  refine Option.ext fun v => ?_
  rw [h.eq_some_iff, h'.eq_some_iff]
  simp only [hx]

end TwoGames

theorem val_eq {val' : S → Option ℕ} {c' : S → Option I} (h : Ranking R T A val c)
    (h' : Ranking R T A val' c') : val = val' :=
  funext fun _ => h.val_eq_of_layers h' fun _ => Iff.rfl

end Ranking

/-! ### Plays of a controller -/

/-- The first `n` moves of `p` are moves of `M`, and `T` is not entered before the last of them. -/
def Plays (M : S → S → Prop) (T : Set S) (p : ℕ → S) (n : ℕ) : Prop :=
  ∀ t < n, p t ∉ T ∧ M (p t) (p (t + 1))

def Moves (R : S → I → S → Prop) (c : S → Option I) (x y : S) : Prop :=
  ∃ u, c x = some u ∧ R x u y

theorem Plays.mono {M : S → S → Prop} {p : ℕ → S} {n m : ℕ} (h : Plays M T p n) (hm : m ≤ n) :
    Plays M T p m :=
  fun t ht => h t (ht.trans_le hm)

namespace Ranking

/-- Every move outside the target lowers the rank. -/
theorem exists_rank_lt (h : Ranking R T A val c) {x y : S} {a : ℕ} (hx : val x = some a)
    (hT : x ∉ T) (hxy : Moves R c x y) : ∃ b < a, val y = some b := by
  cases a with
  | zero => exact absurd ((h.zero_iff x).mp hx).1 hT
  | succ k =>
    obtain ⟨-, -, u, hu, hall, -⟩ := h.forced x k hx
    obtain ⟨w, hw, hR⟩ := hxy
    rw [hu, Option.some.injEq] at hw
    obtain ⟨b, hb, hy⟩ := hall y (hw ▸ hR)
    exact ⟨b, Nat.lt_succ_of_le hb, hy⟩

theorem rank_add_le (h : Ranking R T A val c) {p : ℕ → S} {n v : ℕ} (hv : val (p 0) = some v)
    (hp : Plays (Moves R c) T p n) : ∃ a, val (p n) = some a ∧ a + n ≤ v := by
  induction n with
  | zero => exact ⟨v, hv, le_rfl⟩
  | succ n ih =>
    obtain ⟨a, ha, hle⟩ := ih (hp.mono n.le_succ)
    obtain ⟨hT, hmove⟩ := hp n n.lt_succ_self
    obtain ⟨b, hb, hy⟩ := h.exists_rank_lt ha hT hmove
    exact ⟨b, hy, by omega⟩

/-- A play that makes a move whenever it is outside the target enters it in time. -/
theorem exists_mem_target (h : Ranking R T A val c) {p : ℕ → S} {v : ℕ} (hv : val (p 0) = some v)
    (hp : ∀ t, (∀ r ≤ t, p r ∉ T) → Moves R c (p t) (p (t + 1))) : ∃ t ≤ v, p t ∈ T := by
  by_contra hcon
  have hout : ∀ t ≤ v, p t ∉ T := fun t ht hT => hcon ⟨t, ht, hT⟩
  have hplay : Plays (Moves R c) T p (v + 1) := by
    intro t ht
    have htv : t ≤ v := Nat.le_of_lt_succ ht
    exact ⟨hout t htv, hp t fun r hr => hout r (hr.trans htv)⟩
  obtain ⟨a, -, hle⟩ := h.rank_add_le hv hplay
  omega

/-- The environment can make the play last as long as the rank allows. -/
theorem exists_longest_play (h : Ranking R T A val c) {x : S} {v : ℕ} (hv : val x = some v) :
    ∃ p : ℕ → S, p 0 = x ∧ Plays (Moves R c) T p v ∧ p v ∈ T := by
  induction v generalizing x with
  | zero => exact ⟨fun _ => x, rfl, nofun, ((h.zero_iff x).mp hv).1⟩
  | succ v ih =>
    obtain ⟨hT, -, u, hu, -, y, hy, hyv⟩ := h.forced x v hv
    obtain ⟨p, rfl, hp, hend⟩ := ih hyv
    refine ⟨fun t => Nat.casesOn t x p, rfl, ?_, hend⟩
    intro t ht
    cases t with
    | zero => exact ⟨hT, u, hu, hy⟩
    | succ t => exact hp t (Nat.lt_of_succ_lt_succ ht)

end Ranking

/-! ### Strategies with memory -/

def history (p : ℕ → S) (t : ℕ) : List S := (List.range (t + 1)).map p

theorem history_congr {p q : ℕ → S} {t : ℕ} (h : ∀ r ≤ t, p r = q r) :
    history p t = history q t :=
  List.map_congr_left fun r hr => h r (Nat.le_of_lt_succ (List.mem_range.mp hr))

/-- The move at time `t` is one that the strategy allows. -/
def Follows (R : S → I → S → Prop) (σ : List S → I) (p : ℕ → S) (t : ℕ) : Prop :=
  R (p t) (σ (history p t)) (p (t + 1))

theorem Follows.congr {σ : List S → I} {p q : ℕ → S} {t : ℕ} (h : Follows R σ p t)
    (hpq : ∀ r ≤ t + 1, p r = q r) : Follows R σ q t := by
  have hhistory : history p t = history q t := history_congr fun r hr => hpq r (hr.trans t.le_succ)
  rw [Follows, ← hhistory, ← hpq t t.le_succ, ← hpq (t + 1) le_rfl]
  exact h

/-- The environment answers every input that can be applied. -/
def Legal (R : S → I → S → Prop) (σ : List S → I) (p : ℕ → S) : Prop :=
  ∀ t, (∃ y, R (p t) (σ (history p t)) y) → Follows R σ p t

/-- At time `t` the play is in the target. It has not been blocked before by an input that cannot be
applied, and it has visited no state to avoid. -/
def ReachesAt (R : S → I → S → Prop) (T A : Set S) (σ : List S → I) (p : ℕ → S) (t : ℕ) : Prop :=
  (∀ r < t, Follows R σ p r) ∧ p t ∈ T ∧ ∀ r ≤ t, p r ∉ A

/-- The histories and last states that come of a rule for the environment's answers. -/
private def outcome (reply : ℕ → S → I → S) (σ : List S → I) (x : S) : ℕ → List S × S
  | 0 => ([x], x)
  | t + 1 =>
    let y := reply t (outcome reply σ x t).2 (σ (outcome reply σ x t).1)
    ((outcome reply σ x t).1 ++ [y], y)

private theorem history_outcome (reply : ℕ → S → I → S) (σ : List S → I) (x : S) (t : ℕ) :
    history (fun t => (outcome reply σ x t).2) t = (outcome reply σ x t).1 := by
  induction t with
  | zero => rfl
  | succ t ih =>
    rw [history, List.range_succ, List.map_append]
    exact congrArg (· ++ [(outcome reply σ x (t + 1)).2]) ih

/-- If the environment can answer every input so that the next state lies in the next of some sets,
then against every strategy it has a play that lies in them until a state of `A` is visited. -/
theorem exists_play_mem (B : ℕ → Set S)
    (hB : ∀ t x u, x ∈ B t → x ∉ A → (∃ y, R x u y) → ∃ y, R x u y ∧ y ∈ B (t + 1))
    (σ : List S → I) {x : S} (hx : x ∈ B 0) :
    ∃ p : ℕ → S, p 0 = x ∧ Legal R σ p ∧
      ∀ t, (∀ r < t, Follows R σ p r ∧ p r ∉ A) → p t ∈ B t := by
  have hreply : ∀ t x u, ∃ y, ((∃ z, R x u z) → R x u y) ∧
      (x ∈ B t → x ∉ A → (∃ z, R x u z) → y ∈ B (t + 1)) := by
    intro t x u
    by_cases hkeep : x ∈ B t ∧ x ∉ A ∧ ∃ z, R x u z
    · obtain ⟨y, hy, hyB⟩ := hB t x u hkeep.1 hkeep.2.1 hkeep.2.2
      exact ⟨y, fun _ => hy, fun _ _ _ => hyB⟩
    · by_cases hz : ∃ z, R x u z
      · obtain ⟨z, hz⟩ := hz
        exact ⟨z, fun _ => hz, fun h₁ h₂ h₃ => absurd ⟨h₁, h₂, h₃⟩ hkeep⟩
      · exact ⟨x, fun h => absurd h hz, fun _ _ h => absurd h hz⟩
  choose reply hlegal hkeep using hreply
  refine ⟨fun t => (outcome reply σ x t).2, rfl, ?_, ?_⟩
  · intro t ht
    rw [Follows, history_outcome] at *
    exact hlegal t _ _ ht
  · intro t
    induction t with
    | zero => exact fun _ => hx
    | succ t ih =>
      intro ht
      have hmem := ih fun r hr => ht r (hr.trans t.lt_succ_self)
      obtain ⟨hfollows, hA⟩ := ht t t.lt_succ_self
      rw [Follows, history_outcome] at hfollows
      exact hkeep t _ _ hmem hA ⟨_, hfollows⟩

theorem exists_legal_extending {σ : List S → I} {p : ℕ → S} {n : ℕ}
    (hp : ∀ t < n, Follows R σ p t) : ∃ q, (∀ t ≤ n, p t = q t) ∧ Legal R σ q := by
  have hreply : ∀ x u, ∃ y, (∃ z, R x u z) → R x u y := by
    intro x u
    by_cases hz : ∃ z, R x u z
    · obtain ⟨z, hz⟩ := hz
      exact ⟨z, fun _ => hz⟩
    · exact ⟨x, fun h => absurd h hz⟩
  choose reply hreply using hreply
  let replay : ℕ → S → I → S := fun t x u => if t < n then p (t + 1) else reply x u
  have hsame : ∀ t ≤ n, p t = (outcome replay σ (p 0) t).2 := by
    intro t ht
    cases t with
    | zero => rfl
    | succ t => exact (if_pos ht).symm
  refine ⟨fun t => (outcome replay σ (p 0) t).2, hsame, ?_⟩
  intro t ht
  by_cases htn : t < n
  · exact (hp t htn).congr fun r hr => hsame r (hr.trans htn)
  · have hnext : (outcome replay σ (p 0) (t + 1)).2 =
        reply (outcome replay σ (p 0) t).2 (σ (outcome replay σ (p 0) t).1) := if_neg htn
    rw [history_outcome] at ht
    rw [Follows, history_outcome, hnext]
    exact hreply _ _ ht

/-- No strategy forces the target earlier than the layers say. -/
theorem exists_play_not_reachesAt_lt (σ : List S → I) {x : S} {v : ℕ}
    (hx : ∀ k < v, x ∉ layer R T A k) :
    ∃ p : ℕ → S, p 0 = x ∧ Legal R σ p ∧ ∀ t < v, ¬ ReachesAt R T A σ p t := by
  have hanswer : ∀ t x u, (∀ k, t + k < v → x ∉ layer R T A k) → x ∉ A → (∃ y, R x u y) →
      ∃ y, R x u y ∧ ∀ k, t + 1 + k < v → y ∉ layer R T A k := by
    intro t x u hx hA hu
    by_contra hcon
    by_cases ht : t + 1 < v
    · -- the largest bound still to be refuted; smaller ones follow since layers grow
      obtain ⟨K, rfl⟩ : ∃ K, v = t + 1 + K + 1 := ⟨v - (t + 2), by omega⟩
      refine hx (K + 1) (by omega) (mem_layer_succ_of_forces hA ⟨hu, fun y hy => ?_⟩)
      by_contra hyK
      exact hcon ⟨y, hy, fun k hk hyk => hyK (layer_mono (by omega) hyk)⟩
    · obtain ⟨y, hy⟩ := hu
      exact hcon ⟨y, hy, fun k hk => absurd hk (by omega)⟩
  obtain ⟨p, hp, hlegal, hmem⟩ :=
    exists_play_mem (fun t => {x | ∀ k, t + k < v → x ∉ layer R T A k}) hanswer σ
      (x := x) (fun k hk => hx k (by omega))
  refine ⟨p, hp, hlegal, ?_⟩
  rintro t ht ⟨hfollows, hT, hA⟩
  exact hmem t (fun r hr => ⟨hfollows r hr, hA r hr.le⟩) 0 ht ⟨hT, hA t le_rfl⟩

/-- From outside all layers no strategy ever forces the target. -/
theorem exists_play_not_reachesAt [Finite S] (σ : List S → I) {x : S}
    (hx : ∀ k, x ∉ layer R T A k) :
    ∃ p : ℕ → S, p 0 = x ∧ Legal R σ p ∧ ∀ t, ¬ ReachesAt R T A σ p t := by
  obtain ⟨p, hp, hlegal, hmem⟩ :=
    exists_play_mem (fun _ => {x | ∀ k, x ∉ layer R T A k})
      (fun _ _ _ hx hA hu => exists_notMem_layers hx hA hu) σ hx
  refine ⟨p, hp, hlegal, ?_⟩
  rintro t ⟨hfollows, hT, hA⟩
  exact hmem t (fun r hr => ⟨hfollows r hr, hA r hr.le⟩) 0 ⟨hT, hA t le_rfl⟩

end ControlGames
