import ControlGames.Proofs.AddedTransitions

/-!
# Stores that record a relation

A relation over some states and inputs is given by a list of triples. A store records it if every
group lists the predecessors that the relation gives it, each once and in any order, and every
number of successors is right. Where in the flat array the groups lie does not matter. Built stores
record the transitions added, and a store filled by hand may record them as well.
-/
namespace ControlGames

abbrev InRange (n m : ℕ) (R : List Triple) : Prop := ∀ t ∈ R, t.1 < n ∧ t.2.1 < m ∧ t.2.2 < n

theorem Builder.eq_of_addAll_new {n m : ℕ} {R : List Triple} {b : Builder}
    (h : (new n m).addAll R = (.ok (), b)) :
    b.numStates = n ∧ b.numInputs = m ∧ b.triples = R := by
  obtain ⟨hn, hm, htriples⟩ := extends_of_addAll h
  exact ⟨hn, hm, htriples⟩

namespace Store

/-- The store records the relation of the triples over `n` states and `m` inputs. -/
structure Records (s : Store) (n m : ℕ) (R : List Triple) : Prop where
  numStates : s.numStates = n
  numInputs : s.numInputs = m
  inside : s.Inside
  nodup : ∀ k j, (s.listed k j).Nodup
  mem_listed : ∀ k j (x : State), x ∈ s.listed k j ↔ (x.id, j.val, k.val) ∈ R
  counted : ∀ i j, s.successorCountAt i j = {q | (i.val, j.val, q) ∈ R}.ncard

/-- The store has been built after the triples were added to a new builder. -/
def BuiltFrom (s : Store) (n m : ℕ) (R : List Triple) : Prop :=
  ∃ b mem, (Builder.new n m).addAll R = (.ok (), b) ∧ (b.build mem).result = .ok s

variable {s s' : Store} {n m : ℕ} {R R' : List Triple}

theorem Records.sameSize (h : s.Records n m R) (h' : s'.Records n m R') : s.SameSize s' where
  numStates := h.numStates.trans h'.numStates.symm
  numInputs := h.numInputs.trans h'.numInputs.symm

theorem Records.leads_iff (h : s.Records n m R) (i : Fin s.numStates) (j : Fin s.numInputs)
    (k : Fin s.numStates) : s.Leads i j k ↔ (i.val, j.val, k.val) ∈ R :=
  h.mem_listed k j (s.state i)

theorem Records.exact (h : s.Records n m R) (hR : InRange n m R) : s.Exact where
  inside := h.inside
  known k j x hx := by
    rw [h.numStates]
    exact (hR _ ((h.mem_listed k j x).mp hx)).1
  nodup := h.nodup
  counted i j := by
    rw [h.counted]
    refine ncard_posts (h.leads_iff i j) fun q hq => ?_
    rw [h.numStates]
    exact (hR _ hq).2.2

theorem Exact.records (hs : s.Exact) (hn : s.numStates = n) (hm : s.numInputs = m)
    (hR : InRange n m R) (hleads : ∀ i j k, s.Leads i j k ↔ (i.val, j.val, k.val) ∈ R) :
    s.Records n m R where
  numStates := hn
  numInputs := hm
  inside := hs.inside
  nodup := hs.nodup
  mem_listed k j x := by
    constructor
    · intro hx
      obtain ⟨i, rfl⟩ := exists_state_eq (hs.known k j x hx)
      exact (hleads i j k).mp hx
    · intro hx
      have hid : x.id < s.numStates := by
        rw [hn]
        exact (hR _ hx).1
      obtain ⟨i, rfl⟩ := exists_state_eq hid
      exact (hleads i j k).mpr hx
  counted i j := by
    rw [hs.counted]
    refine (ncard_posts (hleads i j) fun q hq => ?_).symm
    rw [hn]
    exact (hR _ hq).2.2

namespace BuiltFrom

theorem inRange (h : s.BuiltFrom n m R) : InRange n m R := by
  obtain ⟨b, -, hadd, -⟩ := h
  obtain ⟨rfl, rfl, rfl⟩ := Builder.eq_of_addAll_new hadd
  exact fun t ht => Builder.lt_of_mem_triples ht

theorem records (h : s.BuiltFrom n m R) : s.Records n m R := by
  have hR := h.inRange
  obtain ⟨b, mem, hadd, hb⟩ := h
  obtain ⟨hn, hm, htriples⟩ := Builder.eq_of_addAll_new hadd
  obtain ⟨hstates, hinputs⟩ := Builder.sizes_of_build hb
  refine (Builder.exact_of_build hb).records (hstates.trans hn) (hinputs.trans hm) hR
    fun i j k => ?_
  rw [Builder.leads_of_build hb, Builder.leads_iff_mem_triples, htriples]

theorem exact (h : s.BuiltFrom n m R) : s.Exact := h.records.exact h.inRange

theorem sameSize (h : s.BuiltFrom n m R) (h' : s'.BuiltFrom n m R') : s.SameSize s' :=
  h.records.sameSize h'.records

end BuiltFrom

end Store

end ControlGames
