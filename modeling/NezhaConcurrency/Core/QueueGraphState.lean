import NezhaConcurrency.Core.ConflictQueue

/-! What the operations on a `QueueGraph` do to whole transactions. All nodes of a
transaction carry the same number at every moment, so a state is described by the
number of each transaction, by which nodes are assigned and by which transactions
are aborted. -/
namespace Nezha

open Function List

section Heap

variable {nodes : List (List RWNode)} {m n : Ref} {i : Nat}

theorem mem_refsOf : n ∈ refsOf nodes i ↔ n.tx = i ∧ n.pos < ((nodes[i]?).getD []).length := by
  unfold refsOf
  rw [mem_map]
  constructor
  · rintro ⟨pos, hPos, rfl⟩
    exact ⟨rfl, mem_range.mp hPos⟩
  · rintro ⟨rfl, hPos⟩
    exact ⟨n.pos, mem_range.mpr hPos, rfl⟩

theorem mem_refs : n ∈ refs nodes ↔ n ∈ refsOf nodes n.tx := by
  unfold refs
  rw [mem_flatMap]
  constructor
  · rintro ⟨i, _, hn⟩
    rwa [(mem_refsOf.mp hn).1]
  · intro hn
    refine ⟨n.tx, mem_range.mpr ?_, hn⟩
    by_contra hOut
    have hPos := (mem_refsOf.mp hn).2
    rw [getElem?_eq_none (Nat.not_lt.mp hOut)] at hPos
    exact absurd hPos (Nat.not_lt_zero _)

theorem refsOf_subset (hn : n ∈ refsOf nodes i) : n ∈ refs nodes := by
  rw [mem_refs, (mem_refsOf.mp hn).1]
  exact hn

theorem head_refsOf (hi : ⟨i, 0⟩ ∈ refs nodes) : (refsOf nodes i).head? = some ⟨i, 0⟩ := by
  obtain ⟨rest, hLength⟩ := Nat.exists_eq_succ_of_ne_zero (mem_refsOf.mp (mem_refs.mp hi)).2.ne'
  rw [refsOf, hLength, range_succ_eq_map]
  rfl

theorem nodup_refsOf : (refsOf nodes i).Nodup :=
  nodup_range.map fun _ _ h => congrArg Ref.pos h

theorem nodup_refs : (refs nodes).Nodup := by
  refine nodup_flatMap.mpr ⟨fun i _ => nodup_refsOf, nodup_range.imp fun hne n hi hj => ?_⟩
  exact hne ((mem_refsOf.mp hi).1.symm.trans (mem_refsOf.mp hj).1)

theorem first_mem_refs (hn : n ∈ refs nodes) : ⟨n.tx, 0⟩ ∈ refs nodes := by
  have hPos := (mem_refsOf.mp (mem_refs.mp hn)).2
  exact mem_refs.mpr (mem_refsOf.mpr ⟨rfl, Nat.zero_lt_of_lt hPos⟩)

theorem refsOf_setNode (rw' : RWNode) : refsOf (setNode nodes n rw') i = refsOf nodes i := by
  unfold refsOf setNode
  rw [getElem?_modify]
  by_cases hi : n.tx = i
  · cases h : nodes[i]? with
    | none => simp [hi]
    | some tx => simp [hi]
  · simp [hi]

theorem refs_setNode (rw' : RWNode) : refs (setNode nodes n rw') = refs nodes := by
  unfold refs
  rw [setNode, length_modify]
  exact flatMap_congr fun i _ => refsOf_setNode rw'

theorem nodeAt_setNode_self (hn : n ∈ refs nodes) (rw' : RWNode) :
    nodeAt (setNode nodes n rw') n = rw' := by
  have hPos := (mem_refsOf.mp (mem_refs.mp hn)).2
  unfold nodeAt setNode
  rw [getElem?_modify]
  cases h : nodes[n.tx]? with
  | none => simp [h] at hPos
  | some tx =>
    rw [h] at hPos
    simp only [Option.getD_some] at hPos
    simp [hPos]

theorem nodeAt_setNode_of_ne (hne : m ≠ n) (rw' : RWNode) :
    nodeAt (setNode nodes n rw') m = nodeAt nodes m := by
  unfold nodeAt setNode
  rw [getElem?_modify]
  by_cases hTx : n.tx = m.tx
  · have hPos : n.pos ≠ m.pos := by
      intro hPos
      apply hne
      cases m
      cases n
      cases hTx
      cases hPos
      rfl
    cases h : nodes[m.tx]? with
    | none => simp [hTx]
    | some tx => simp [hTx, getElem?_set_ne hPos]
  · simp [hTx]

/-- The whole edge gets the number of `rw`, which `rw` itself already has. -/
theorem nodeAt_assignSequence {rw' : Ref} (edge : List Ref) (hEdge : ∀ e ∈ edge, e ∈ refs nodes)
    (m : Ref) :
    nodeAt (QueueGraph.assignSequence nodes rw' edge) m =
      if m ∈ edge then { nodeAt nodes m with Sequence := (nodeAt nodes rw').Sequence }
      else nodeAt nodes m := by
  unfold QueueGraph.assignSequence
  induction edge generalizing nodes with
  | nil => simp
  | cons e edge ih =>
    rw [foldl_cons]
    by_cases hSame : nodeAt nodes rw' = nodeAt nodes e
    · rw [if_pos hSame, ih fun x hx => hEdge x (mem_cons_of_mem _ hx)]
      by_cases hm : m ∈ edge
      · simp [hm]
      · by_cases he : m = e
        · subst he
          simp [hm, hSame]
        · simp [hm, he]
    · rw [if_neg hSame]
      have heRefs := hEdge e mem_cons_self
      have hSelf := nodeAt_setNode_self heRefs
        { nodeAt nodes e with Sequence := (nodeAt nodes rw').Sequence }
      have hOther : ∀ x, x ≠ e → nodeAt (setNode nodes e
          { nodeAt nodes e with Sequence := (nodeAt nodes rw').Sequence }) x = nodeAt nodes x :=
        fun x hne => nodeAt_setNode_of_ne hne _
      have hSequence : (nodeAt (setNode nodes e
          { nodeAt nodes e with Sequence := (nodeAt nodes rw').Sequence }) rw').Sequence =
            (nodeAt nodes rw').Sequence := by
        by_cases hne : rw' = e
        · exact absurd (congrArg _ hne) hSame
        · rw [hOther rw' hne]
      rw [ih fun x hx => by
        rw [refs_setNode]
        exact hEdge x (mem_cons_of_mem _ hx), hSequence]
      by_cases he : m = e
      · subst he
        rw [hSelf]
        simp
      · rw [hOther m he]
        simp [he]

theorem refsOf_assignSequence (rw' : Ref) (edge : List Ref) :
    refsOf (QueueGraph.assignSequence nodes rw' edge) i = refsOf nodes i := by
  unfold QueueGraph.assignSequence
  induction edge generalizing nodes with
  | nil => rfl
  | cons e edge ih =>
    rw [foldl_cons, ih]
    split
    · rfl
    · exact refsOf_setNode _

end Heap

/-- Fresh nodes, where two nodes have the same ID exactly if they belong to the
same transaction. -/
structure Captured (txs : List (List RWNode)) : Prop where
  fresh : ∀ n ∈ refs txs, (nodeAt txs n).Sequence = 0 ∧ (nodeAt txs n).isAssigned = false
  ids : ∀ m ∈ refs txs, ∀ n ∈ refs txs,
    (nodeAt txs m).TransInfo.ID = (nodeAt txs n).TransInfo.ID ↔ m.tx = n.tx

/-- What a node is about, and what no operation changes. -/
def RWNode.slot (rw : RWNode) : Nezha.RWSet × Nezha.TransInfo × Nezha.Label × String :=
  (rw.RWSet, rw.TransInfo, rw.Label, rw.ContractName)

namespace QueueGraph

/-- The number of a transaction. -/
def seq (cq : QueueGraph) (i : Nat) : Int := (cq.node ⟨i, 0⟩).Sequence

def aborted (cq : QueueGraph) (i : Nat) : Bool := (cq.edgeOf ⟨i, 0⟩).isAborted

structure Valid (txs : List (List RWNode)) (cq : QueueGraph) : Prop where
  slot : ∀ n, (cq.node n).slot = (nodeAt txs n).slot
  refsOf : ∀ i, Nezha.refsOf cq.nodes i = Nezha.refsOf txs i
  edges : ∀ n ∈ refs txs, (cq.edgeOf n).set = Nezha.refsOf txs n.tx
  uniform : ∀ n ∈ refs txs, (cq.node n).Sequence = cq.seq n.tx
  queues : ∀ key, (cq.Queues key).rSlice = ((CreateGraph txs).Queues key).rSlice ∧
    (cq.Queues key).wSlice = ((CreateGraph txs).Queues key).wSlice

variable {txs : List (List RWNode)} {cq : QueueGraph} {m n : Ref}

theorem Valid.label (valid : Valid txs cq) (n : Ref) : (cq.node n).Label = (nodeAt txs n).Label :=
  congrArg (fun slot => slot.2.2.1) (valid.slot n)

theorem Valid.rwSet (valid : Valid txs cq) (n : Ref) : (cq.node n).RWSet = (nodeAt txs n).RWSet :=
  congrArg (fun slot => slot.1) (valid.slot n)

theorem Valid.compositeKey (valid : Valid txs cq) (n : Ref) :
    (cq.node n).CompositeKey = (nodeAt txs n).CompositeKey := by
  have hContract : (cq.node n).ContractName = (nodeAt txs n).ContractName :=
    congrArg (fun slot => slot.2.2.2) (valid.slot n)
  rw [RWNode.CompositeKey, RWNode.CompositeKey, valid.rwSet, hContract]

theorem Valid.transInfo (valid : Valid txs cq) (n : Ref) :
    (cq.node n).TransInfo = (nodeAt txs n).TransInfo :=
  congrArg (fun slot => slot.2.1) (valid.slot n)

theorem Valid.mem_refs (valid : Valid txs cq) : n ∈ refs cq.nodes ↔ n ∈ refs txs := by
  rw [Nezha.mem_refs, Nezha.mem_refs, valid.refsOf]

theorem Valid.id_iff (captured : Captured txs) (valid : Valid txs cq) (hm : m ∈ refs txs)
    (hn : n ∈ refs txs) :
    (cq.node m).TransInfo.ID = (cq.node n).TransInfo.ID ↔ m.tx = n.tx := by
  rw [valid.transInfo, valid.transInfo]
  exact captured.ids m hm n hn

theorem Valid.isAborted_eq (captured : Captured txs) (valid : Valid txs cq) (hn : n ∈ refs txs) :
    (cq.edgeOf n).isAborted = cq.aborted n.tx := by
  unfold aborted edgeOf
  rw [(valid.id_iff captured hn (first_mem_refs hn)).mpr rfl]

theorem Valid.updateQueue (valid : Valid txs cq) {key : String} {queue : Queue}
    (hReads : queue.rSlice = (cq.Queues key).rSlice)
    (hWrites : queue.wSlice = (cq.Queues key).wSlice) :
    Valid txs { cq with Queues := update cq.Queues key queue } where
  slot := valid.slot
  refsOf := valid.refsOf
  edges := valid.edges
  uniform := valid.uniform
  queues := by
    intro other
    by_cases hOther : other = key
    · subst hOther
      simp only [update_self]
      exact ⟨hReads.trans (valid.queues other).1, hWrites.trans (valid.queues other).2⟩
    · simp only [update_of_ne hOther]
      exact valid.queues other

section Number

theorem Valid.node_number (valid : Valid txs cq) (hn : n ∈ refs txs) (v : Int) (m : Ref) :
    (cq.number n v).node m =
      if m ∈ Nezha.refsOf txs n.tx then
        { cq.node m with Sequence := v, isAssigned := decide (m = n) || (cq.node m).isAssigned }
      else cq.node m := by
  obtain ⟨marked, hMarked⟩ : ∃ marked : RWNode,
      marked = { cq.node n with Sequence := v, isAssigned := true } := ⟨_, rfl⟩
  have hNumber : (cq.number n v).node m =
      nodeAt (assignSequence (setNode cq.nodes n marked) n (cq.edgeOf n).set) m := by
    rw [hMarked]
    rfl
  have hSelf := nodeAt_setNode_self (valid.mem_refs.mpr hn) marked
  have hEdge : ∀ e ∈ (cq.edgeOf n).set, e ∈ refs (setNode cq.nodes n marked) := by
    intro e he
    rw [refs_setNode, valid.mem_refs]
    rw [valid.edges n hn] at he
    exact refsOf_subset he
  rw [hNumber, nodeAt_assignSequence _ hEdge, hSelf, valid.edges n hn]
  by_cases hm : m = n
  · subst hm
    have hOwn := Nezha.mem_refs.mp hn
    rw [if_pos hOwn, if_pos hOwn, hSelf, hMarked]
    simp
  · rw [nodeAt_setNode_of_ne hm, hMarked]
    simp [hm, node]

theorem Valid.slot_number (valid : Valid txs cq) (hn : n ∈ refs txs) (v : Int) (m : Ref) :
    ((cq.number n v).node m).slot = (cq.node m).slot := by
  rw [valid.node_number hn]
  split <;> rfl

theorem Valid.edgeOf_number (valid : Valid txs cq) (hn : n ∈ refs txs) (v : Int) (m : Ref) :
    (cq.number n v).edgeOf m = cq.edgeOf m := by
  have hSlot := congrArg (fun slot => slot.2.1.ID) (valid.slot_number hn v m)
  exact congrArg cq.Edges hSlot

theorem Valid.seq_number (valid : Valid txs cq) (hn : n ∈ refs txs) (v : Int) (i : Nat) :
    (cq.number n v).seq i = if i = n.tx then v else cq.seq i := by
  unfold seq
  rw [valid.node_number hn]
  by_cases hi : i = n.tx
  · subst hi
    rw [if_pos (Nezha.mem_refs.mp (first_mem_refs hn)), if_pos rfl]
  · rw [if_neg fun h => hi (mem_refsOf.mp h).1, if_neg hi]

theorem Valid.aborted_number (valid : Valid txs cq) (hn : n ∈ refs txs) (v : Int) (i : Nat) :
    (cq.number n v).aborted i = cq.aborted i :=
  congrArg Edge.isAborted (valid.edgeOf_number hn v ⟨i, 0⟩)

theorem Valid.isAssigned_number (valid : Valid txs cq) (hn : n ∈ refs txs) (v : Int) (m : Ref) :
    ((cq.number n v).node m).isAssigned = (decide (m = n) || (cq.node m).isAssigned) := by
  rw [valid.node_number hn]
  split
  · rfl
  · next hOut =>
      have hne : m ≠ n := by
        rintro rfl
        exact hOut (Nezha.mem_refs.mp hn)
      simp [hne]

theorem Valid.number (valid : Valid txs cq) (hn : n ∈ refs txs) (v : Int) :
    Valid txs (cq.number n v) where
  slot := fun m => (valid.slot_number hn v m).trans (valid.slot m)
  refsOf := by
    intro i
    unfold QueueGraph.number
    rw [refsOf_assignSequence, refsOf_setNode, valid.refsOf]
  edges := fun m hm => (congrArg Edge.set (valid.edgeOf_number hn v m)).trans (valid.edges m hm)
  uniform := by
    intro m hm
    rw [valid.seq_number hn, valid.node_number hn]
    by_cases hTx : m.tx = n.tx
    · rw [if_pos hTx, if_pos (hTx ▸ Nezha.mem_refs.mp hm)]
    · rw [if_neg hTx, if_neg fun h => hTx (mem_refsOf.mp h).1]
      exact valid.uniform m hm
  queues := valid.queues

end Number

section Abort

theorem Valid.aborted_abort (captured : Captured txs) (valid : Valid txs cq) (hn : n ∈ refs txs)
    (hm : m ∈ refs txs) :
    (cq.abort n).aborted m.tx = (decide (m.tx = n.tx) || cq.aborted m.tx) := by
  have hFirst := first_mem_refs hm
  change (update cq.Edges (cq.node n).TransInfo.ID _ (cq.node ⟨m.tx, 0⟩).TransInfo.ID).isAborted = _
  by_cases hTx : m.tx = n.tx
  · rw [(valid.id_iff captured hFirst hn).mpr hTx, update_self]
    simp [hTx]
  · rw [update_of_ne fun h => hTx ((valid.id_iff captured hFirst hn).mp h)]
    simp only [hTx, decide_false, Bool.false_or]
    rfl

theorem Valid.abort (captured : Captured txs) (valid : Valid txs cq) (hn : n ∈ refs txs) :
    Valid txs (cq.abort n) where
  slot := valid.slot
  refsOf := valid.refsOf
  edges := by
    intro m hm
    change (update cq.Edges (cq.node n).TransInfo.ID _ (cq.node m).TransInfo.ID).set = _
    by_cases hTx : m.tx = n.tx
    · rw [(valid.id_iff captured hm hn).mpr hTx, update_self]
      exact (valid.edges n hn).trans (by rw [hTx])
    · rw [update_of_ne fun h => hTx ((valid.id_iff captured hm hn).mp h)]
      exact valid.edges m hm
  uniform := valid.uniform
  queues := valid.queues

end Abort

section Assign

theorem Valid.node_assign (valid : Valid txs cq) (hn : n ∈ refs txs) (m : Ref) :
    (cq.assign n).node m =
      { cq.node m with isAssigned := decide (m = n) || (cq.node m).isAssigned } := by
  unfold QueueGraph.assign node
  by_cases hm : m = n
  · subst hm
    rw [nodeAt_setNode_self (valid.mem_refs.mpr hn)]
    simp
  · rw [nodeAt_setNode_of_ne hm]
    simp [hm]

theorem Valid.seq_assign (valid : Valid txs cq) (hn : n ∈ refs txs) (i : Nat) :
    (cq.assign n).seq i = cq.seq i := by
  unfold seq
  rw [valid.node_assign hn]

theorem Valid.edgeOf_assign (valid : Valid txs cq) (hn : n ∈ refs txs) (m : Ref) :
    (cq.assign n).edgeOf m = cq.edgeOf m := by
  unfold edgeOf
  rw [valid.node_assign hn]
  rfl

theorem Valid.assign (valid : Valid txs cq) (hn : n ∈ refs txs) : Valid txs (cq.assign n) where
  slot := by
    intro m
    rw [valid.node_assign hn]
    exact valid.slot m
  refsOf := by
    intro i
    unfold QueueGraph.assign
    rw [refsOf_setNode, valid.refsOf]
  edges := by
    intro m hm
    rw [valid.edgeOf_assign hn]
    exact valid.edges m hm
  uniform := by
    intro m hm
    rw [valid.seq_assign hn, valid.node_assign hn]
    exact valid.uniform m hm
  queues := valid.queues

end Assign

theorem edges_createGraph (captured : Captured txs) (hn : n ∈ refs txs) :
    (CreateGraph txs).edgeOf n = ⟨refsOf txs n.tx, false⟩ := by
  have hFold : ∀ (is : List Nat) (edges : String → Edge),
      (n.tx ∈ is ∨ edges (nodeAt txs n).TransInfo.ID = ⟨refsOf txs n.tx, false⟩) →
      is.foldl (fun edges i => if refsOf txs i = [] then edges
        else update edges (nodeAt txs ⟨i, 0⟩).TransInfo.ID ⟨refsOf txs i, false⟩) edges
        (nodeAt txs n).TransInfo.ID = ⟨refsOf txs n.tx, false⟩ := by
    intro is
    induction is with
    | nil =>
      rintro edges (h | h)
      · cases h
      · exact h
    | cons i is ih =>
      intro edges h
      rw [foldl_cons]
      apply ih
      by_cases hi : i = n.tx
      · subst hi
        have hNonempty : refsOf txs n.tx ≠ [] := ne_nil_of_mem (Nezha.mem_refs.mp hn)
        rw [if_neg hNonempty, (captured.ids n hn _ (first_mem_refs hn)).mpr rfl, update_self]
        exact Or.inr rfl
      · rcases h with h | h
        · exact Or.inl ((mem_cons.mp h).resolve_left fun he => hi he.symm)
        · refine Or.inr ?_
          split
          · exact h
          · next hNonempty =>
              obtain ⟨x, hx⟩ := exists_mem_of_ne_nil _ hNonempty
              have hFirst := first_mem_refs (refsOf_subset hx)
              rw [(mem_refsOf.mp hx).1] at hFirst
              rw [update_of_ne fun he =>
                hi ((captured.ids n hn _ hFirst).mp he).symm]
              exact h
  refine hFold (List.range txs.length) _ (Or.inl (mem_range.mpr ?_))
  by_contra hOut
  have hPos := (mem_refsOf.mp (Nezha.mem_refs.mp hn)).2
  rw [getElem?_eq_none (Nat.not_lt.mp hOut)] at hPos
  exact absurd hPos (Nat.not_lt_zero _)

theorem valid_createGraph (captured : Captured txs) : Valid txs (CreateGraph txs) where
  slot := fun _ => rfl
  refsOf := fun _ => rfl
  edges := by
    intro n hn
    rw [edges_createGraph captured hn]
  uniform := by
    intro n hn
    exact (captured.fresh n hn).1.trans (captured.fresh _ (first_mem_refs hn)).1.symm
  queues := fun _ => ⟨rfl, rfl⟩

end QueueGraph

end Nezha
