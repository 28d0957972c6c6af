import Mathlib.Data.Prod.Lex
import ControlGames.Dot
import ControlGames.Proofs.AddedTransitions
import ControlGames.Proofs.Regions
import ControlGames.Proofs.TextLines

/-!
# Drawings of built stores

The drawing of a built store has one line for each state and one line for each transition, in the
order of storage. No two transitions have the same line and edges differ from nodes, so the numbers
of states and the relation can be read off the text.
-/
namespace ControlGames

/-! ### All slots of a store -/

namespace Visit

variable {n m : ℕ}

def triple (v : Visit n m) : Triple := (v.pre.id, v.input.val, v.post.val)

/-- Slots are ordered by their post states, their inputs and their pre states. -/
def key (v : Visit n m) : ℕ ×ₗ ℕ ×ₗ ℕ := toLex (v.post.val, toLex (v.input.val, v.pre.id))

end Visit

namespace Store

variable {s : Store}

variable (s) in
/-- The slots of all groups, row by row. -/
def allVisits : List (Visit s.numStates s.numInputs) := (List.finRange s.numStates).flatMap s.visits

theorem mem_allVisits {v : Visit s.numStates s.numInputs} :
    v ∈ s.allVisits ↔ v.pre ∈ s.listed v.post v.input := by
  simp [allVisits, mem_visits]

theorem pairwise_allVisits (hs : ∀ k j, (s.listed k j).Pairwise fun x y => x.id < y.id) :
    s.allVisits.Pairwise fun v w => v.key < w.key := by
  rw [allVisits, List.pairwise_flatMap]
  constructor
  · intro k _
    refine (pairwise_visits hs k).imp_of_mem fun {v w} hv hw hlt => ?_
    obtain ⟨rfl, -⟩ := mem_visits.mp hv
    obtain ⟨hpost, -⟩ := mem_visits.mp hw
    rw [Visit.key, Visit.key, Prod.Lex.toLex_lt_toLex, hpost]
    refine .inr ⟨rfl, Prod.Lex.toLex_lt_toLex.mpr ?_⟩
    rcases hlt with hlt | ⟨heq, hlt⟩
    · exact .inl hlt
    · exact .inr ⟨congrArg Fin.val heq, hlt⟩
  · refine (List.pairwise_lt_finRange _).imp fun {k k'} hlt => ?_
    intro v hv w hw
    obtain ⟨rfl, -⟩ := mem_visits.mp hv
    obtain ⟨rfl, -⟩ := mem_visits.mp hw
    exact Prod.Lex.toLex_lt_toLex.mpr (.inl hlt)

theorem exists_mem_allVisits_iff {b : Builder} {mem : Memory}
    (hb : (b.build mem).result = .ok s) {t : Triple} :
    (∃ v ∈ s.allVisits, v.triple = t) ↔ t ∈ b.triples := by
  obtain ⟨hn, hm⟩ := Builder.sizes_of_build hb
  constructor
  · rintro ⟨v, hv, rfl⟩
    exact (Builder.mem_listed_of_build hb v.post v.input v.pre).mp (mem_allVisits.mp hv)
  · intro ht
    obtain ⟨hpre, hinput, hpost⟩ := Builder.lt_of_mem_triples ht
    let v : Visit s.numStates s.numInputs :=
      ⟨⟨t.2.2, hn ▸ hpost⟩, ⟨t.2.1, hm ▸ hinput⟩, s.state ⟨t.1, hn ▸ hpre⟩⟩
    refine ⟨v, mem_allVisits.mpr ?_, rfl⟩
    exact (Builder.mem_listed_of_build hb v.post v.input v.pre).mpr ht

end Store

/-! ### Lines -/

namespace Dot

def nodeText (color : Option String) (i : ℕ) : String :=
  match color with
  | none => s!"{i} [label=\"s{i}\"];"
  | some color => s!"{i} [label=\"s{i}\", style=filled, fillcolor={color}];"

def edgeText (style : String) : Triple → String
  | (pre, u, post) => s!"{pre} -> {post} [label=\"u{u}\", style={style}];"

def color (style : Style) (region : Option Region) (x : State) : Option String :=
  region.map fun r =>
    if r.isWinning x = .ok true then style.winningColor else style.losingColor

def witnessStyle (style : Style) (region : Option Region) (pre : State) (u : Input) : String :=
  if region.any fun r => r.witness pre = .ok (some u) then style.witnessEdgeStyle
  else style.edgeStyle

/-- The lines of a drawing: three lines ahead of the nodes and the edges, and one behind. -/
def pageLines (style : Style) (nodes edges : List String) : List String :=
  ["digraph \x7b", s!"rankdir={style.rankdir};", s!"node [shape={style.nodeShape}];"] ++
    nodes ++ edges ++ ["\x7d"]

def page (style : Style) (nodes edges : List String) : String :=
  textOf (pageLines style nodes edges)

variable {style : Style} {region : Option Region}

theorem toString_state (x : State) : toString x = "s" ++ toString x.id := rfl

theorem toString_input (u : Input) : toString u = "u" ++ toString u.id := rfl

theorem nodeLine_eq_ok {x : State} (h : ∀ r ∈ region, x.id < r.numStates) :
    nodeLine style region x = .ok (nodeText (color style region x) x.id) := by
  cases region with
  | none =>
    refine congrArg Except.ok (String.toList_injective ?_)
    simp [nodeText, color, toString_state]
  | some r =>
    have hwins : r.isWinning x = _ := r.isWinning_state ⟨x.id, h r rfl⟩
    simp only [nodeLine, color, Option.map_some, nodeText, hwins]
    refine congrArg Except.ok (String.toList_injective ?_)
    simp [toString_state]

theorem isWitness_eq_ok {x : State} {u : Input} (h : ∀ r ∈ region, x.id < r.numStates) :
    isWitness region x u = .ok (region.any fun r => r.witness x = .ok (some u)) := by
  cases region with
  | none => rfl
  | some r =>
    have hwitness : r.witness x = _ := r.witness_state ⟨x.id, h r rfl⟩
    rw [isWitness, Option.any_some, hwitness]
    refine congrArg Except.ok (Bool.eq_iff_iff.mpr ?_)
    rw [beq_iff_eq, decide_eq_true_eq, Except.ok.injEq]

theorem edgeLine_eq_ok {x post : State} {u : Input} (h : ∀ r ∈ region, x.id < r.numStates) :
    edgeLine style region post u x =
      .ok (edgeText (witnessStyle style region x u) (x.id, u.id, post.id)) := by
  rw [edgeLine, isWitness_eq_ok h]
  refine congrArg Except.ok (String.toList_injective ?_)
  simp [edgeText, witnessStyle, toString_input]

end Dot

/-! ### The drawing -/

namespace Store

open Dot

variable {s : Store} {style : Style} {region : Option Region}

theorem nodeLines_eq_ok (h : ∀ r ∈ region, s.numStates ≤ r.numStates) :
    s.nodeLines style region = .ok ((List.finRange s.numStates).map fun i =>
      nodeText (color style region (s.state i)) i) := by
  have hline : ∀ x ∈ s.states, nodeLine style region x =
      .ok (nodeText (color style region x) x.id) := by
    intro x hx
    obtain ⟨i, -, rfl⟩ := List.mem_map.mp hx
    exact nodeLine_eq_ok fun r hr => i.isLt.trans_le (h r hr)
  rw [nodeLines, mapM_eq_ok hline, states, List.map_map]
  rfl

theorem edgeLines_eq_ok (hs : s.Exact) (h : ∀ r ∈ region, s.numStates ≤ r.numStates) :
    s.edgeLines style region = .ok (s.allVisits.map fun v =>
      edgeText (witnessStyle style region v.pre (s.input v.input)) v.triple) := by
  let line (k : Fin s.numStates) (j : Fin s.numInputs) (x : State) : String :=
    edgeText (witnessStyle style region x (s.input j)) (x.id, j.val, k.val)
  have hgroup : ∀ k j, s.groupLines style region k j = .ok ((s.listed k j).map (line k j)) := by
    intro k j
    rw [groupLines, hs.inside k j]
    exact mapM_eq_ok fun x hx => edgeLine_eq_ok fun r hr => (hs.known k j x hx).trans_le (h r hr)
  have hrow : ∀ k, (List.finRange s.numInputs).mapM (s.groupLines style region k) =
      .ok ((List.finRange s.numInputs).map fun j => (s.listed k j).map (line k j)) :=
    fun k => mapM_eq_ok fun j _ => hgroup k j
  rw [edgeLines, mapM_eq_ok fun k _ => hrow k]
  refine congrArg Except.ok ?_
  simp only [allVisits, visits, List.flatMap_def, List.flatten_flatten, List.map_flatten,
    List.map_map, Function.comp_def]
  rfl

/-- Every state and every transition of a store with exact groups has its line in the drawing. -/
theorem dot_eq_ok (hs : s.Exact) (h : ∀ r ∈ region, s.numStates ≤ r.numStates) :
    s.dot style region = .ok (page style
      ((List.finRange s.numStates).map fun i => nodeText (color style region (s.state i)) i)
      (s.allVisits.map fun v =>
        edgeText (witnessStyle style region v.pre (s.input v.input)) v.triple)) := by
  rw [dot, dotLines, nodeLines_eq_ok h, edgeLines_eq_ok hs h]
  rfl

theorem dot_eq_error {r : Region} (h : r.numStates < s.numStates) :
    s.dot style (some r) = .error .indexOutOfBounds := by
  have houtside : ∀ x : State, ¬ x.id < r.numStates →
      nodeLine style (some r) x = .error .indexOutOfBounds := by
    intro x hx
    simp only [nodeLine, Region.isWinning, Region.witness, dif_neg hx]
    rfl
  have hnodes : s.nodeLines style (some r) = .error .indexOutOfBounds := by
    refine mapM_eq_error (fun x _ => ?_) ⟨s.state ⟨r.numStates, h⟩, ?_, ?_⟩
    · by_cases hx : x.id < r.numStates
      · exact .inl ⟨_, nodeLine_eq_ok fun r' hr' => by cases hr'; exact hx⟩
      · exact .inr (houtside x hx)
    · exact List.mem_map_of_mem (List.mem_finRange _)
    · exact houtside _ (lt_irrefl _)
  rw [dot, dotLines, hnodes]
  rfl

end Store

/-! ### Reading a drawing -/

namespace Dot

def isArrow (line : String) : Bool := decide ('>' ∈ line.toList)

theorem isArrow_nodeText (i : ℕ) : isArrow (nodeText none i) = false := by
  simp [isArrow, nodeText, notMem_digits]

theorem isArrow_edgeText (style : String) (t : Triple) : isArrow (edgeText style t) = true := by
  simp [isArrow, edgeText]

theorem toList_edgeText (style : String) (t : Triple) : (edgeText style t).toList =
    Nat.toDigits 10 t.1 ++ ' ' :: ("-> ".toList ++ (Nat.toDigits 10 t.2.2 ++
      ' ' :: ("[label=\"u".toList ++ (Nat.toDigits 10 t.2.1 ++
        '"' :: s!", style={style}];".toList)))) := by
  simp [edgeText]

theorem edgeText_injective (style : String) : Function.Injective (edgeText style) := by
  rintro ⟨pre, u, post⟩ ⟨pre', u', post'⟩ h
  have hlist := congrArg String.toList h
  rw [toList_edgeText, toList_edgeText] at hlist
  obtain ⟨rfl, hlist⟩ := digits_append_inj (by decide) hlist
  obtain ⟨rfl, hlist⟩ := digits_append_inj (by decide) (List.append_cancel_left hlist)
  obtain ⟨rfl, -⟩ := digits_append_inj (by decide) (List.append_cancel_left hlist)
  rfl

def plainLines (n : ℕ) (ts : List Triple) : List String :=
  pageLines defaultStyle ((List.finRange n).map fun i : Fin n => nodeText none i)
    (ts.map (edgeText "solid"))

theorem notMem_plainLines {n : ℕ} {ts : List Triple} :
    ∀ line ∈ plainLines n ts, '\n' ∉ line.toList := by
  have hnode : ∀ i, '\n' ∉ (nodeText none i).toList := by
    intro i
    simp [nodeText, notMem_digits]
  have hedge : ∀ t, '\n' ∉ (edgeText "solid" t).toList := by
    intro t
    simp [edgeText, notMem_digits]
  simp only [plainLines, pageLines, List.mem_append, List.mem_map]
  rintro line (((hline | ⟨i, -, rfl⟩) | ⟨t, -, rfl⟩) | hline)
  · revert line
    decide
  · exact hnode i
  · exact hedge t
  · revert line
    decide

theorem filter_plainLines (n : ℕ) (ts : List Triple) :
    (plainLines n ts).filter isArrow = ts.map (edgeText "solid") := by
  have hnodes : ((List.finRange n).map fun i : Fin n => nodeText none i).filter isArrow = [] := by
    refine List.filter_eq_nil_iff.mpr fun line hline => ?_
    obtain ⟨i, -, rfl⟩ := List.mem_map.mp hline
    rw [isArrow_nodeText]
    exact Bool.false_ne_true
  have hedges : (ts.map (edgeText "solid")).filter isArrow = ts.map (edgeText "solid") := by
    refine List.filter_eq_self.mpr fun line hline => ?_
    obtain ⟨t, -, rfl⟩ := List.mem_map.mp hline
    exact isArrow_edgeText "solid" t
  rw [plainLines, pageLines, List.filter_append, List.filter_append, List.filter_append, hnodes,
    hedges]
  simp [isArrow, defaultStyle]

/-- The number of nodes and the edges can be read off a plain drawing. -/
theorem plainLines_injective {n n' : ℕ} {ts ts' : List Triple}
    (h : textOf (plainLines n ts) = textOf (plainLines n' ts')) : n = n' ∧ ts = ts' := by
  have hlines := textOf_injective notMem_plainLines notMem_plainLines h
  have hedges := congrArg (List.filter isArrow) hlines
  rw [filter_plainLines, filter_plainLines] at hedges
  obtain rfl := List.map_injective_iff.mpr (edgeText_injective "solid") hedges
  have hlength := congrArg List.length hlines
  simp only [plainLines, pageLines, List.length_append, List.length_map, List.length_finRange]
    at hlength
  exact ⟨by omega, rfl⟩

end Dot

theorem Store.dot_plain {s : Store} (hs : s.Exact) : s.dot Dot.defaultStyle none =
    .ok (textOf (Dot.plainLines s.numStates (s.allVisits.map Visit.triple))) := by
  rw [dot_eq_ok hs (by rintro r ⟨⟩), Dot.plainLines, List.map_map]
  rfl

open Dot

/-- The drawing of a built store shows its relation and its region. There is a line for each state
in increasing order, with the colour that says whether it wins, and a line for each transition in
the order of post states, inputs and pre states, with the style that says whether its input is the
witness of its pre state. From a plain drawing the number of states and the relation can be read.
With a region of fewer states there is no drawing. -/
theorem Builder.dot_shows_relation {b : Builder} {mem : Memory} {s : Store}
    (hb : (b.build mem).result = .ok s) (style : Style) (region : Option Region) :
    ((∀ r ∈ region, s.numStates ≤ r.numStates) →
      ∃ vs : List (Visit s.numStates s.numInputs), vs.Pairwise (fun v w => v.key < w.key) ∧
        (∀ t, (∃ v ∈ vs, v.triple = t) ↔ t ∈ b.triples) ∧
        s.dot style region = .ok (page style
          ((List.finRange s.numStates).map fun i => nodeText (color style region (s.state i)) i)
          (vs.map fun v =>
            edgeText (witnessStyle style region v.pre (s.input v.input)) v.triple))) ∧
    ((∃ r ∈ region, r.numStates < s.numStates) →
      s.dot style region = .error .indexOutOfBounds) ∧
    ∀ (b' : Builder) (mem' : Memory) (s' : Store), (b'.build mem').result = .ok s' →
      s.dot defaultStyle none = s'.dot defaultStyle none →
      s.numStates = s'.numStates ∧ ∀ t, t ∈ b.triples ↔ t ∈ b'.triples := by
  refine ⟨fun hregion => ?_, ?_, fun b' mem' s' hb' h => ?_⟩
  · exact ⟨s.allVisits, Store.pairwise_allVisits (pairwise_listed_of_build hb),
      fun t => Store.exists_mem_allVisits_iff hb, Store.dot_eq_ok (exact_of_build hb) hregion⟩
  · rintro ⟨r, hr, hlt⟩
    cases Option.mem_def.mp hr
    exact Store.dot_eq_error hlt
  · rw [Store.dot_plain (exact_of_build hb), Store.dot_plain (exact_of_build hb'),
      Except.ok.injEq] at h
    obtain ⟨hn, htriples⟩ := plainLines_injective h
    refine ⟨hn, fun t => ?_⟩
    rw [← Store.exists_mem_allVisits_iff hb, ← Store.exists_mem_allVisits_iff hb',
      ← List.mem_map, htriples, List.mem_map]

/-- If states 0 and 3 of the fork are safe, the second input stays valid there. -/
def Builder.forkRegion : Region := .ofMatrix forkStore.sizes_le ⟨#[130], 2⟩

def Builder.prong : Builder := ((new 4 2).addAll [(0, 0, 1)]).2

/-- The drawing of the fork with its region shows its five edges and two safe states. With a region
that lacks a state there is no drawing, and without a region the drawing differs from that of a
store with fewer transitions. -/
theorem Builder.dot_shows_relation_fork :
    (∃ vs : List (Visit forkStore.numStates forkStore.numInputs),
      (∀ t, (∃ v ∈ vs, v.triple = t) ↔
        t ∈ [(0, 0, 1), (0, 0, 2), (1, 0, 2), (0, 1, 3), (3, 1, 3)]) ∧
      forkStore.dot defaultStyle (some forkRegion) = .ok (page defaultStyle
        [nodeText (some "palegreen") 0, nodeText (some "lightpink") 1,
          nodeText (some "lightpink") 2, nodeText (some "palegreen") 3]
        (vs.map fun v => edgeText (witnessStyle defaultStyle (some forkRegion) v.pre
          (forkStore.input v.input)) v.triple))) ∧
    forkStore.dot defaultStyle (some ⟨3, 2, by decide, #v[none, none, none], none⟩) =
      .error .indexOutOfBounds ∧
    ∀ s', (prong.build .ample).result = .ok s' →
      forkStore.dot defaultStyle none ≠ s'.dot defaultStyle none := by
  have hregion : ∀ r ∈ some forkRegion, forkStore.numStates ≤ r.numStates := by
    rintro r hr
    cases Option.mem_def.mp hr
    decide
  obtain ⟨hshown, -, -⟩ := dot_shows_relation build_fork defaultStyle (some forkRegion)
  obtain ⟨vs, -, htriples, hdot⟩ := hshown hregion
  obtain ⟨-, hsmall, hplain⟩ := dot_shows_relation build_fork defaultStyle
    (some ⟨3, 2, by decide, #v[none, none, none], none⟩)
  refine ⟨⟨vs, htriples, hdot⟩, hsmall ⟨_, rfl, by decide⟩, fun s' hs' h => ?_⟩
  have hloop := ((hplain _ _ s' hs' h).2 (3, 1, 3)).mp (by decide)
  exact absurd hloop (by decide)

end ControlGames
