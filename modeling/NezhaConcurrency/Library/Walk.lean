import Mathlib

/-! Walks in the graph of a relation. Reachability is the reflexive transitive
closure; a walk is the list of the vertices it passes. -/
namespace Walk

open List

variable {Vertex : Type} {edge : Vertex → Vertex → Prop}

/-- No vertex lies on a closed walk. -/
def Acyclic (edge : Vertex → Vertex → Prop) : Prop :=
  ∀ vertex, ¬ Relation.TransGen edge vertex vertex

/-- A finite set has a vertex that no edge enters from within the set. -/
theorem exists_source (acyclic : Acyclic edge) {vertices : Finset Vertex}
    (nonempty : vertices.Nonempty) :
    ∃ first ∈ vertices, ∀ other ∈ vertices, ¬ edge other first := by
  have strict : IsStrictOrder Vertex (Relation.TransGen edge) :=
    { irrefl := acyclic, trans := fun _ _ _ => Relation.TransGen.trans }
  have wellFounded : (vertices : Set Vertex).WellFoundedOn (Relation.TransGen edge) :=
    vertices.finite_toSet.wellFoundedOn
  obtain ⟨first, hFirst, hLeast⟩ := (Set.wellFoundedOn_iff.mp wellFounded).has_min
    (vertices : Set Vertex) nonempty
  exact ⟨first, hFirst, fun other hOther hEdge =>
    hLeast other hOther ⟨.single hEdge, hOther, hFirst⟩⟩

variable {source target : Vertex}

theorem reach_closed (inside : Vertex → Prop)
    (closed : ∀ source target, inside source → edge source target → inside target)
    (walk : Relation.ReflTransGen edge source target) (hSource : inside source) :
    inside target := by
  induction walk with
  | refl => exact hSource
  | tail _ last ih => exact closed _ _ ih last

/-- A walk need not pass a vertex twice. -/
theorem exists_nodup_chain (walk : Relation.ReflTransGen edge source target) :
    ∃ rest, List.IsChain edge (source :: rest) ∧ (source :: rest).Nodup ∧
      (source :: rest).getLast? = some target := by
  induction walk using Relation.ReflTransGen.head_induction_on with
  | refl => exact ⟨[], by simp, by simp, by simp⟩
  | @head source next first _ ih =>
    obtain ⟨rest, hChain, hNodup, hLast⟩ := ih
    by_cases hm : source ∈ next :: rest
    · obtain ⟨before, after, hSplit⟩ := append_of_mem hm
      rw [hSplit] at hChain hNodup hLast
      refine ⟨after, (isChain_append.mp hChain).2.1, (nodup_append.mp hNodup).2.1, ?_⟩
      rwa [getLast?_append_of_ne_nil _ (cons_ne_nil _ _)] at hLast
    · refine ⟨next :: rest, isChain_cons_cons.mpr ⟨first, hChain⟩, nodup_cons.mpr ⟨hm, hNodup⟩, ?_⟩
      rwa [getLast?_cons_cons]

/-- Every vertex on a closed walk is on an elementary cycle. -/
theorem exists_elementary_cycle {vertex : Vertex} (walk : Relation.TransGen edge vertex vertex) :
    ∃ rest, List.IsChain edge (vertex :: (rest ++ [vertex])) ∧ (vertex :: rest).Nodup := by
  obtain ⟨next, first, back⟩ := Relation.TransGen.head'_iff.mp walk
  obtain ⟨rest, hChain, hNodup, hLast⟩ := exists_nodup_chain back
  obtain ⟨before, hSplit⟩ := getLast?_eq_some_iff.mp hLast
  refine ⟨before, ?_, ?_⟩
  · rw [← hSplit, isChain_cons_cons]
    exact ⟨first, hChain⟩
  · rw [hSplit] at hNodup
    exact (perm_append_singleton vertex before).nodup_iff.mp hNodup

/-- What holds of every vertex and those passed before it still does when the walk goes
on by a vertex of which it holds. -/
theorem forall_split_append {holds : List Vertex → Vertex → Prop} {passed : List Vertex}
    {last : Vertex}
    (hPassed : ∀ before vertex after, passed = before ++ vertex :: after → holds before vertex)
    (hLast : holds passed last) (before : List Vertex) (vertex : Vertex) (after : List Vertex)
    (hSplit : passed ++ [last] = before ++ vertex :: after) : holds before vertex := by
  rcases eq_nil_or_concat after with rfl | ⟨rest, final, rfl⟩
  · obtain ⟨rfl, hVertex⟩ := append_inj' hSplit rfl
    obtain rfl : last = vertex := head_eq_of_cons_eq hVertex
    exact hLast
  · rw [concat_eq_append, ← cons_append, ← append_assoc] at hSplit
    obtain ⟨hInit, _⟩ := append_inj' hSplit rfl
    exact hPassed before vertex rest hInit

theorem idxOf_lt_of_before [DecidableEq Vertex] {passed : List Vertex} (nodup : passed.Nodup)
    (hTarget : target ∈ passed)
    (hBefore : ∀ before after, passed = before ++ target :: after → source ∈ before) :
    passed.idxOf source < passed.idxOf target := by
  obtain ⟨before, after, rfl⟩ := append_of_mem hTarget
  have hSource := hBefore before after rfl
  have hNew : target ∉ before := fun hm =>
    (nodup_append.mp nodup).2.2 target hm target mem_cons_self rfl
  rw [idxOf_append_of_mem hSource, idxOf_append_of_notMem hNew]
  have := idxOf_lt_length_of_mem hSource
  omega

theorem transGen_of_chain {between : List Vertex}
    (hChain : List.IsChain edge (source :: (between ++ [target]))) :
    Relation.TransGen edge source target := by
  induction between generalizing source with
  | nil => exact .single (isChain_cons_cons.mp hChain).1
  | cons next rest ih =>
    obtain ⟨first, hRest⟩ := isChain_cons_cons.mp hChain
    exact .head first (ih hRest)

theorem transGen_of_closed_chain {vertex other : Vertex} {rest : List Vertex}
    (hChain : List.IsChain edge (vertex :: (rest ++ [vertex]))) (hm : other ∈ vertex :: rest) :
    Relation.TransGen edge other other := by
  rcases mem_cons.mp hm with rfl | hm
  · exact transGen_of_chain hChain
  · obtain ⟨before, after, rfl⟩ := append_of_mem hm
    rw [append_assoc, cons_append, isChain_cons_split] at hChain
    exact (transGen_of_chain hChain.2).trans (transGen_of_chain hChain.1)

/-- A rotation of a walk through different vertices that starts at the same one is the walk
itself. -/
theorem eq_of_isRotated_of_head {vertex : Vertex} {rest other : List Vertex}
    (nodup : (vertex :: rest).Nodup) (rotated : (vertex :: rest) ~r (vertex :: other)) :
    vertex :: rest = vertex :: other := by
  obtain ⟨n, hn, hRotate⟩ := isRotated_iff_mod.mp rotated
  rcases Nat.lt_or_eq_of_le hn with hLess | rfl
  · have hHead : (vertex :: rest)[n]? = (vertex :: rest)[0]? := by
      have hAt := congrArg List.head? hRotate
      rwa [head?_rotate hLess] at hAt
    have hZero : n = 0 := (getElem?_inj hLess nodup).mp hHead
    rw [← hRotate, hZero, rotate_zero]
  · rw [← hRotate, rotate_length]

end Walk
