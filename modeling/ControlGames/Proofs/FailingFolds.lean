import Mathlib.Data.List.Basic

/-!
# Folds that may fail

A fold in `Except` succeeds if an invariant of the part read so far lets every step succeed. Both
solvers fold over what they read from the front of a list that grows at its end.
-/
namespace ControlGames

variable {ε α β γ : Type}

theorem bind_eq_ok_iff {x : Except ε α} {f : α → Except ε β} {y : β} :
    (x >>= f) = .ok y ↔ ∃ a, x = .ok a ∧ f a = .ok y := by
  cases x with
  | error e => exact ⟨nofun, nofun⟩
  | ok a =>
    constructor
    · intro h
      exact ⟨a, rfl, h⟩
    · intro hmid
      rcases hmid with ⟨a', ha, h⟩
      cases ha
      exact h

theorem mapM_eq_ok {f : α → Except ε β} {f' : α → β} {xs : List α}
    (h : ∀ x ∈ xs, f x = .ok (f' x)) : xs.mapM f = .ok (xs.map f') := by
  induction xs with
  | nil => rfl
  | cons x xs ih =>
    rw [List.mapM_cons, h x List.mem_cons_self, ih fun y hy => h y (List.mem_cons_of_mem x hy)]
    rfl

/-- If all computations that fail do so for one reason, the list of them fails for it. -/
theorem mapM_eq_error {f : α → Except ε β} {xs : List α} {e : ε}
    (hall : ∀ x ∈ xs, (∃ y, f x = .ok y) ∨ f x = .error e) (hsome : ∃ x ∈ xs, f x = .error e) :
    xs.mapM f = .error e := by
  induction xs with
  | nil =>
    obtain ⟨x, hx, -⟩ := hsome
    cases hx
  | cons x xs ih =>
    obtain ⟨hfirst, hrest⟩ := List.forall_mem_cons.mp hall
    rw [List.mapM_cons]
    rcases hfirst with ⟨y, hy⟩ | he
    · have htail : ∃ x ∈ xs, f x = .error e := by
        obtain ⟨z, hz, hfz⟩ := hsome
        rcases List.mem_cons.mp hz with rfl | hz
        · rw [hy] at hfz
          cases hfz
        · exact ⟨z, hz, hfz⟩
      rw [hy, ih hrest htail]
      rfl
    · rw [he]
      rfl

theorem forM_cons (f : α → Except ε Unit) (x : α) (xs : List α) :
    (x :: xs).forM f = (f x >>= fun _ => xs.forM f) := rfl

theorem forM_eq_ok_iff {f : α → Except ε Unit} {xs : List α} :
    xs.forM f = .ok () ↔ ∀ x ∈ xs, f x = .ok () := by
  induction xs with
  | nil => exact ⟨fun _ => nofun, fun _ => rfl⟩
  | cons x xs ih =>
    rw [forM_cons, bind_eq_ok_iff, List.forall_mem_cons, ← ih]
    constructor
    · rintro ⟨u, hx, hxs⟩
      exact ⟨hx, hxs⟩
    · rintro ⟨hx, hxs⟩
      exact ⟨(), hx, hxs⟩

theorem forM_eq_error_iff {f : α → Except ε Unit} {xs : List α} {e : ε} :
    xs.forM f = .error e ↔
      ∃ pre x post, xs = pre ++ x :: post ∧ (∀ y ∈ pre, f y = .ok ()) ∧ f x = .error e := by
  constructor
  · intro h
    induction xs with
    | nil => cases h
    | cons x xs ih =>
      rw [forM_cons] at h
      cases hx : f x with
      | error e' =>
        rw [hx] at h
        cases h
        exact ⟨[], x, xs, rfl, nofun, hx⟩
      | ok u =>
        rw [hx] at h
        obtain ⟨pre, y, post, rfl, hpre, hy⟩ := ih h
        exact ⟨x :: pre, y, post, rfl, List.forall_mem_cons.mpr ⟨hx, hpre⟩, hy⟩
  · rintro ⟨pre, x, post, rfl, hpre, hx⟩
    induction pre with
    | nil =>
      rw [List.nil_append, forM_cons, hx]
      rfl
    | cons y pre ih =>
      obtain ⟨hy, hpre⟩ := List.forall_mem_cons.mp hpre
      rw [List.cons_append, forM_cons, hy]
      exact ih hpre

theorem foldlM_congr {f g : β → α → Except ε β} {xs : List α} (h : ∀ x ∈ xs, ∀ b, f b x = g b x)
    (b : β) : xs.foldlM f b = xs.foldlM g b := by
  induction xs generalizing b with
  | nil => rfl
  | cons x xs ih =>
    obtain ⟨hx, hxs⟩ := List.forall_mem_cons.mp h
    rw [List.foldlM_cons, List.foldlM_cons, hx]
    congr 1
    funext b'
    exact ih hxs b'

theorem foldlM_flatMap (f : β → γ → Except ε β) (group : α → List γ) (xs : List α) (b : β) :
    (xs.flatMap group).foldlM f b = xs.foldlM (fun b x => (group x).foldlM f b) b := by
  induction xs generalizing b with
  | nil => rfl
  | cons x xs ih =>
    rw [List.flatMap_cons, List.foldlM_append, List.foldlM_cons]
    congr 1
    funext b'
    exact ih b'

/-- If every step from a state that satisfies the invariant succeeds and keeps it, so does the fold.
A step may use where in the list it is taken. -/
theorem exists_foldlM_eq_ok {f : β → α → Except ε β} {xs : List α} (P : List α → β → Prop)
    (hstep : ∀ pre x post b, xs = pre ++ x :: post → P pre b →
      ∃ b', f b x = .ok b' ∧ P (pre ++ [x]) b')
    {b : β} (hb : P [] b) : ∃ b', xs.foldlM f b = .ok b' ∧ P xs b' := by
  have hsuffix : ∀ post pre b, xs = pre ++ post → P pre b →
      ∃ b', post.foldlM f b = .ok b' ∧ P xs b' := by
    intro post
    induction post with
    | nil =>
      intro pre b hxs hpre
      rw [List.append_nil] at hxs
      exact ⟨b, rfl, hxs ▸ hpre⟩
    | cons x post ih =>
      intro pre b hxs hpre
      obtain ⟨b₁, hf, hb₁⟩ := hstep pre x post b hxs hpre
      obtain ⟨b₂, hfold, hb₂⟩ := ih (pre ++ [x]) b₁ (by simp [hxs]) hb₁
      exact ⟨b₂, by rw [List.foldlM_cons, hf]; exact hfold, hb₂⟩
  exact hsuffix xs [] b rfl hb

/-- What every step that succeeds keeps holds at the end of a fold that succeeds. -/
theorem foldlM_keeps {f : β → α → Except ε β} {xs : List α} (P : List α → β → Prop)
    (hstep : ∀ pre x post b b', xs = pre ++ x :: post → P pre b → f b x = .ok b' →
      P (pre ++ [x]) b')
    {b b' : β} (hb : P [] b) (hb' : xs.foldlM f b = .ok b') : P xs b' := by
  have hsuffix : ∀ post pre b, xs = pre ++ post → P pre b → post.foldlM f b = .ok b' →
      P xs b' := by
    intro post
    induction post with
    | nil =>
      intro pre b hxs hpre hend
      cases hend
      rwa [hxs, List.append_nil]
    | cons x post ih =>
      intro pre b hxs hpre hend
      rw [List.foldlM_cons] at hend
      obtain ⟨b₁, hf, hend⟩ := bind_eq_ok_iff.mp hend
      exact ih (pre ++ [x]) b₁ (by simp [hxs]) (hstep pre x post b b₁ hxs hpre hf) hend
  exact hsuffix xs [] b rfl hb hb'

/-- A fold goes the same way on an image of its states if every step does while an invariant
holds. -/
theorem foldlM_map_eq {f : β → α → Except ε β} {f' : γ → α → Except ε γ} (φ : β → γ)
    (P : β → Prop) {xs : List α} (hstep : ∀ b x, P b → f' (φ b) x = (f b x).map φ)
    (hkeep : ∀ b x b', P b → f b x = .ok b' → P b') {b : β} (hb : P b) :
    xs.foldlM f' (φ b) = (xs.foldlM f b).map φ := by
  induction xs generalizing b with
  | nil => rfl
  | cons x xs ih =>
    rw [List.foldlM_cons, List.foldlM_cons, hstep b x hb]
    cases hf : f b x with
    | error e => rfl
    | ok b' => exact ih (hkeep b x b' hb hf)

theorem exists_foldlM_related {ε' : Type} {f : β → α → Except ε β} {g : γ → α → Except ε' γ}
    (rel : β → γ → Prop) {xs : List α} (hstep : ∀ x ∈ xs, ∀ b c b', rel b c → f b x = .ok b' →
      ∃ c', g c x = .ok c' ∧ rel b' c')
    {b b' : β} {c : γ} (hbc : rel b c) (hb' : xs.foldlM f b = .ok b') :
    ∃ c', xs.foldlM g c = .ok c' ∧ rel b' c' := by
  induction xs generalizing b c with
  | nil =>
    cases hb'
    exact ⟨c, rfl, hbc⟩
  | cons x xs ih =>
    rw [List.foldlM_cons] at hb'
    obtain ⟨b₁, hf, hb'⟩ := bind_eq_ok_iff.mp hb'
    obtain ⟨c₁, hg, hbc₁⟩ := hstep x List.mem_cons_self b c b₁ hbc hf
    obtain ⟨c', hc', hrel⟩ :=
      ih (fun y hy => hstep y (List.mem_cons_of_mem x hy)) hbc₁ hb'
    exact ⟨c', by rw [List.foldlM_cons, hg]; exact hc', hrel⟩

theorem foldlM_filter_eq {f : β → α → Except ε β} {p : α → Bool}
    (hskip : ∀ b x, p x = false → f b x = .ok b) (xs : List α) (b : β) :
    (xs.filter p).foldlM f b = xs.foldlM f b := by
  rw [List.foldlM_filter]
  congr 1
  funext b x
  split
  · rfl
  · next hx => exact (hskip b x (Bool.eq_false_iff.mpr hx)).symm

theorem take_succ_of_isPrefix {xs ys : List α} (h : xs <+: ys) {k : ℕ} (hk : k < xs.length) :
    ys.take (k + 1) = xs.take k ++ [xs[k]] := by
  obtain ⟨zs, rfl⟩ := h
  rw [List.take_append_of_le_length hk, List.take_append_getElem hk]

end ControlGames
