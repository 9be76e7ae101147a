import NezhaConcurrency.Core.QueueRanking
import NezhaConcurrency.Library.PartialLoop

/-! The pipelines of `QueueGraph` and `NezhaVariableData` with the operations that can
panic: an index out of range, and the dereference of the nil pointer that a map
gives for a missing key. Apart from the check for an empty transaction, the
pipelines differ only in what they do with the transactions that read and write
the key of a queue. -/
namespace Nezha

open Function List

namespace Panicking

section Ranking

/-- An arc is followed: `al.vertices` and `al.inDegree` are indexed by its target. -/
def rankArc (al : AlGraph) (s : AlGraph.Ranking) (farc : ArcNode) : Option AlGraph.Ranking :=
  if farc.adj < al.vertices.length then some (AlGraph.rankArc s farc) else none

def rankVertex (al : AlGraph) (s : AlGraph.Ranking) (top : Nat) : Option AlGraph.Ranking :=
  if top < al.vertices.length then
    ((al.arcs top).foldlM (rankArc al)
      { s with
        topologicalOrder := s.topologicalOrder ++ [top]
        isSorted := update s.isSorted top true }).map fun _ => al.rankVertex s top
  else none

def rankLoop (al : AlGraph) : Nat → AlGraph.Ranking → Option (List Nat)
  | 0, _ => none
  | rounds + 1, s =>
    match s.zeroDegreeVex with
    | [] => some s.topologicalOrder
    | top :: _ => (rankVertex al s top).bind (rankLoop al rounds)

def AdvancedTopologicalSort (al : AlGraph) : Option (List Nat) :=
  let zeroDegreeVex := (List.range al.vertices.length).filter fun i => al.inDegree i = 0
  let min := al.leastDegree al.inDegree fun _ => true
  rankLoop al (al.vertices.length + 1)
    { inDegree := al.inDegree
      isSorted := fun _ => false
      zeroDegreeVex :=
        if zeroDegreeVex = [] then [al.findMaxNode al.inDegree (fun _ => false) min]
        else zeroDegreeVex
      topologicalOrder := []
      min }

variable (graph : Graph)

theorem rankVertex_eq (s : AlGraph.Ranking) (top : Nat) :
    rankVertex (AlGraph.Init graph.adj) s top =
      if top < graph.nvertices then some ((AlGraph.Init graph.adj).rankVertex s top) else none := by
  unfold rankVertex
  rw [AlGraph.length_init]
  split
  · have hArc : ∀ s : AlGraph.Ranking, True → ∀ farc ∈ (AlGraph.Init graph.adj).arcs top,
        rankArc (AlGraph.Init graph.adj) s farc = some (AlGraph.rankArc s farc) ∧ True := by
      intro s _ farc hFarc
      rw [AlGraph.arcs_init] at hFarc
      obtain ⟨v, hv, rfl⟩ := mem_map.mp hFarc
      have hEdge : graph.Edge top v := hv
      rw [rankArc, AlGraph.length_init, if_pos hEdge.lt.2]
      exact ⟨rfl, trivial⟩
    rw [(PartialLoop.foldlM_eq_some _ _ _ hArc trivial).1]
    rfl
  · rfl

theorem rankLoop_eq (rounds : Nat) (s : AlGraph.Ranking) :
    rankLoop (AlGraph.Init graph.adj) rounds s = (AlGraph.Init graph.adj).rankLoop rounds s := by
  induction rounds generalizing s with
  | zero => rfl
  | succ rounds ih =>
    cases hQueue : s.zeroDegreeVex with
    | nil => simp only [rankLoop, AlGraph.rankLoop, hQueue]
    | cons top rest =>
      simp only [rankLoop, AlGraph.rankLoop, hQueue, rankVertex_eq, AlGraph.length_init]
      split
      · exact ih _
      · rfl

/-- The arcs of a graph are in range, so only the front of the queue can be no vertex. -/
theorem advancedTopologicalSort_eq : AdvancedTopologicalSort (AlGraph.Init graph.adj) =
    (AlGraph.Init graph.adj).AdvancedTopologicalSort :=
  rankLoop_eq graph _ _

end Ranking

section Pipeline

open QueueGraph (Checked firstFree lastWrite)

/-- `cq.Edges[id]` and `cq.Queues[key]`. -/
def edgeAt (cq : QueueGraph) (id : String) : Option Edge :=
  if id ∈ cq.ids then some (cq.Edges id) else none

def queueAt (cq : QueueGraph) (key : String) : Option Queue :=
  if key ∈ cq.keys then some (cq.Queues key) else none

/-- What is computed from the edge of a node's transaction. -/
def deref {Result : Type} (cq : QueueGraph) (rw : Ref) (result : Edge → Result) : Option Result :=
  (edgeAt cq (cq.node rw).TransInfo.ID).map result

/-- The first node of every transaction is looked at, also if it has none. -/
def CreateVariableGraph (txs : List (List RWNode)) : Option QueueGraph :=
  (txs.mapM List.head?).map fun _ => CreateGraph txs

def temp (cq : QueueGraph) (key : String) : Option (List String) :=
  (queueAt cq key).bind fun queue =>
    (queue.wSlice.mapM fun w => deref cq w fun edge =>
      (edge.set.filter fun n =>
        (cq.node n).Label = .r ∧ (cq.node n).CompositeKey ≠ (cq.node w).CompositeKey).map
        fun n => (cq.node n).CompositeKey).map fun found => found.flatten.dedup

/-- `sortedQueues[kk]`, zero for a key without a queue. -/
def sortedQueues (cq : QueueGraph) (kk : String) : Nat := (cq.sortedStrings.idxOf? kk).getD 0

def QueuesSort (cq : QueueGraph) (range : String → List String → List String) :
    Option (List String) :=
  (cq.sortedStrings.mapM fun key =>
    (temp cq key).map fun kks => (range key kks).map (sortedQueues cq)).bind fun deps =>
  (AdvancedTopologicalSort (AlGraph.Init deps)).bind fun order =>
    if 0 < cq.sortedStrings.length then order.mapM fun o => cq.sortedStrings[o]? else some []

def sortReads (cq : QueueGraph) (queue : Queue) : Option (QueueGraph × Int) :=
  (queue.rSlice.foldlM (fun tmpRQueue r =>
    if (cq.node r).Sequence ≠ 0 then
      deref cq r fun edge => if edge.isAborted then tmpRQueue else tmpRQueue ++ [r]
    else some tmpRQueue) []).bind fun tmpRQueue =>
  if tmpRQueue = [] then
    queue.rSlice.foldlM (fun s r =>
      deref s.1 r fun _ => (s.1.number r initialSequence, initialSequence)) (cq, queue.maxRead)
  else
    let min := tmpRQueue.foldl
      (fun min tr => if (cq.node tr).Sequence < min then (cq.node tr).Sequence else min) maxInt32
    let maxRead := tmpRQueue.foldl
      (fun max tr => if (cq.node tr).Sequence > max then (cq.node tr).Sequence else max)
      queue.maxRead
    (queue.rSlice.foldlM (fun cq r =>
      if (cq.node r).Sequence ≠ 0 then some cq else deref cq r fun _ => cq.number r min)
      (tmpRQueue.foldl QueueGraph.assign cq)).map fun cq => (cq, maxRead)

def checkWrite (maxRead : Int) (s : Checked) (w : Ref) : Option Checked :=
  if (s.cq.node w).Sequence = 0 then some s
  else deref s.cq w fun _ => QueueGraph.checkWrite maxRead s w

/-- Nezha numbers the first transaction that reads and writes the key and aborts the
others. -/
def sortSame (cq : QueueGraph) (maxRead maxWrite : Int) : List Ref → Option (QueueGraph × Int × Int)
  | [] => some (cq, maxRead, maxWrite)
  | w :: others =>
    let next := int32 (maxWrite + 1)
    (deref cq w fun _ => cq.number w next).bind fun first =>
      (others.foldlM (fun cq w => deref cq w fun _ => cq.abort w) first).map fun cq =>
        (cq, next, next)

/-- The variable algorithm numbers all of them. -/
def variableSame (cq : QueueGraph) (maxRead maxWrite : Int) (tmpWQueue : List Ref) :
    Option (QueueGraph × Int × Int) :=
  tmpWQueue.foldlM (fun s w =>
    deref s.1 w fun _ => (s.1.number w (int32 (s.2.2 + 1)), int32 (s.2.2 + 1), int32 (s.2.2 + 1)))
    (cq, maxRead, maxWrite)

def newWrite (keys : List Int) (s : QueueGraph × Int) (w : Ref) : Option (QueueGraph × Int) :=
  if (s.1.node w).Sequence ≠ 0 then some s
  else
    match firstFree keys (keys.length + 1) (int32 (s.2 + 1)) with
    | some i => deref s.1 w fun _ => (s.1.number w i, i)
    | none => some s

def adjustWrite (maxRead n : Int) (s : QueueGraph × Int) (ww : Ref × Nat) :
    Option (QueueGraph × Int) :=
  if n > maxRead ∧ ww.2 = 0 then some s
  else deref s.1 ww.1 fun _ => (s.1.number ww.1 (int32 (s.2 + 1)), int32 (s.2 + 1))

/-- The numbers of the writes that wait for the end of the call. -/
def waiting (checked : Checked) : List Int :=
  (checked.tmpWQueue2.map Prod.fst).dedup.insertionSort (· ≤ ·)

/-- The calls of both pipelines, by what they do in the middle. -/
def sortInQueueBy (same : QueueGraph → Int → Int → List Ref → Option (QueueGraph × Int × Int))
    (cq : QueueGraph) (key : String) : Option QueueGraph :=
  (queueAt cq key).bind fun queue =>
  (sortReads cq queue).bind fun reads =>
  (queue.wSlice.foldlM (checkWrite reads.2) ⟨reads.1, [], []⟩).bind fun checked =>
  (same checked.cq reads.2 (if reads.2 = 0 then initialSequence - 1 else reads.2)
    checked.tmpWQueue).bind fun same =>
  (queue.wSlice.foldlM (newWrite (waiting checked)) (same.1, same.2.2)).bind fun new =>
  ((waiting checked).foldlM (fun s n =>
    ((checked.tmpWQueue2.filter fun ww => ww.1 = n).map Prod.snd).zipIdx.foldlM
      (adjustWrite same.2.1 n) s) (new.1, lastWrite (waiting checked) new.2)).map fun adjusted =>
  { adjusted.1 with
    Queues := update adjusted.1.Queues key
      { queue with maxRead := same.2.1, maxWrite := adjusted.2 } }

/-- The commit order as the list of its entries, in the order `ids` in which the edges
are visited: the number of a transaction and its write nodes. -/
def commitEntries (cq : QueueGraph) (ids : List String) : Option (List (Int × List Ref)) :=
  (ids.filter fun t => !(cq.Edges t).isAborted).mapM fun t =>
    ((cq.Edges t).set.head?).map fun n =>
      ((cq.node n).Sequence, (cq.Edges t).set.filter fun e => (cq.node e).Label = .w)

def DeSS (same : QueueGraph → Int → Int → List Ref → Option (QueueGraph × Int × Int))
    (cq : QueueGraph) (sequence ids : List String) : Option (List (Int × List Ref)) :=
  (sequence.foldlM (sortInQueueBy same) cq).bind fun cq => commitEntries cq ids

/-- `CreateGraph`, `QueuesSort` and `DeSS`. -/
def nezha (txs : List (List RWNode)) (range : String → List String → List String)
    (ids : List String) : Option (List (Int × List Ref)) :=
  (QueuesSort (CreateGraph txs) range).bind fun sequence =>
    DeSS sortSame (CreateGraph txs) sequence ids

/-- `CreateVariableGraph`, `QueuesSort` and `DeSS`. -/
def nezhaVariable (txs : List (List RWNode)) (range : String → List String → List String)
    (ids : List String) : Option (List (Int × List Ref)) :=
  (CreateVariableGraph txs).bind fun nv =>
  (QueuesSort nv range).bind fun sequence => DeSS variableSame nv sequence ids

end Pipeline

section Linked

variable {txs : List (List RWNode)} {cq : QueueGraph}

/-- The nodes of a transaction carry its ID. -/
def Coherent (txs : List (List RWNode)) : Prop :=
  ∀ m ∈ refs txs, ∀ n ∈ refs txs, m.tx = n.tx →
    (nodeAt txs m).TransInfo.ID = (nodeAt txs n).TransInfo.ID

/-- Every node in a queue has an edge, and no edge is empty. -/
structure Linked (txs : List (List RWNode)) (cq : QueueGraph) : Prop where
  keys : cq.keys = (CreateGraph txs).keys
  ids : cq.ids = (CreateGraph txs).ids
  edge : ∀ n ∈ refs txs, (cq.node n).TransInfo.ID ∈ cq.ids
  nonempty : ∀ t ∈ cq.ids, (cq.Edges t).set ≠ []
  queues : ∀ key, (∀ r ∈ (cq.Queues key).rSlice, r ∈ refs txs) ∧
    ∀ w ∈ (cq.Queues key).wSlice, w ∈ refs txs

theorem transInfo_setNode (nodes : List (List RWNode)) (n m : Ref) (rw' : RWNode)
    (hSame : rw'.TransInfo = (nodeAt nodes n).TransInfo) :
    (nodeAt (setNode nodes n rw') m).TransInfo = (nodeAt nodes m).TransInfo := by
  by_cases hm : m = n
  · subst hm
    by_cases hIn : m ∈ refs nodes
    · rw [nodeAt_setNode_self hIn, hSame]
    · have hOut : ((nodes[m.tx]?).getD []).length ≤ m.pos := by
        rw [mem_refs, mem_refsOf] at hIn
        exact Nat.not_lt.mp fun h => hIn ⟨rfl, h⟩
      unfold nodeAt setNode
      rw [getElem?_modify_eq]
      cases hTx : nodes[m.tx]? with
      | none => rfl
      | some tx =>
        rw [hTx, Option.getD_some] at hOut
        simp only [Option.map_eq_map, Option.map_some, Option.getD_some, set_eq_of_length_le hOut]
  · rw [nodeAt_setNode_of_ne hm]

theorem transInfo_assignSequence (nodes : List (List RWNode)) (rw' : Ref) (edge : List Ref)
    (m : Ref) :
    (nodeAt (QueueGraph.assignSequence nodes rw' edge) m).TransInfo =
      (nodeAt nodes m).TransInfo := by
  unfold QueueGraph.assignSequence
  induction edge generalizing nodes with
  | nil => rfl
  | cons e edge ih =>
    rw [foldl_cons, ih]
    split
    · rfl
    · exact transInfo_setNode nodes e m _ rfl

theorem Linked.number (linked : Linked txs cq) (rw' : Ref) (v : Int) :
    Linked txs (cq.number rw' v) where
  keys := linked.keys
  ids := linked.ids
  edge := by
    intro n hn
    have hSame : ((cq.number rw' v).node n).TransInfo = (cq.node n).TransInfo :=
      (transInfo_assignSequence _ _ _ _).trans (transInfo_setNode _ _ _ _ rfl)
    rw [hSame]
    exact linked.edge n hn
  nonempty := linked.nonempty
  queues := linked.queues

theorem Linked.assign (linked : Linked txs cq) (rw' : Ref) : Linked txs (cq.assign rw') where
  keys := linked.keys
  ids := linked.ids
  edge := by
    intro n hn
    have hSame : ((cq.assign rw').node n).TransInfo = (cq.node n).TransInfo :=
      transInfo_setNode _ _ _ _ rfl
    rw [hSame]
    exact linked.edge n hn
  nonempty := linked.nonempty
  queues := linked.queues

theorem Linked.assignAll (linked : Linked txs cq) (rs : List Ref) :
    Linked txs (rs.foldl QueueGraph.assign cq) := by
  induction rs generalizing cq with
  | nil => exact linked
  | cons r rs ih => exact ih (linked.assign r)

theorem Linked.abort (linked : Linked txs cq) (rw' : Ref) : Linked txs (cq.abort rw') where
  keys := linked.keys
  ids := linked.ids
  edge := linked.edge
  nonempty := by
    intro t ht
    change (update cq.Edges _ _ t).set ≠ []
    by_cases hId : t = (cq.node rw').TransInfo.ID
    · rw [hId, update_self]
      exact linked.nonempty _ (hId ▸ ht)
    · rw [update_of_ne hId]
      exact linked.nonempty t ht
  queues := linked.queues

theorem Linked.updateQueue (linked : Linked txs cq) {key : String} {queue : Queue}
    (hReads : ∀ r ∈ queue.rSlice, r ∈ refs txs) (hWrites : ∀ w ∈ queue.wSlice, w ∈ refs txs) :
    Linked txs { cq with Queues := update cq.Queues key queue } where
  keys := linked.keys
  ids := linked.ids
  edge := linked.edge
  nonempty := linked.nonempty
  queues := by
    intro other
    by_cases hOther : other = key
    · simp only [hOther, update_self]
      exact ⟨hReads, hWrites⟩
    · simp only [update_of_ne hOther]
      exact linked.queues other

theorem Linked.deref {Result : Type} (linked : Linked txs cq) {n : Ref} (hn : n ∈ refs txs)
    (result : Edge → Result) : deref cq n result = some (result (cq.edgeOf n)) := by
  unfold Panicking.deref edgeAt
  rw [if_pos (linked.edge n hn)]
  rfl

end Linked

section Calls

open QueueGraph (Checked)

variable {txs : List (List RWNode)} {cq : QueueGraph} {key : String}

theorem Linked.sortReads (linked : Linked txs cq) {queue : Queue}
    (hRefs : ∀ r ∈ queue.rSlice, r ∈ refs txs) :
    sortReads cq queue = some (cq.sortReads queue) ∧ Linked txs (cq.sortReads queue).1 := by
  have hTmp : (queue.rSlice.foldlM (fun tmpRQueue r =>
      if (cq.node r).Sequence ≠ 0 then
        Panicking.deref cq r fun edge => if edge.isAborted then tmpRQueue else tmpRQueue ++ [r]
      else some tmpRQueue) []) = some (queue.rSlice.filter fun r =>
        decide ((cq.node r).Sequence ≠ 0) && !(cq.edgeOf r).isAborted) := by
    have hStep : ∀ tmpRQueue : List Ref, True → ∀ r ∈ queue.rSlice,
        (if (cq.node r).Sequence ≠ 0 then
          Panicking.deref cq r fun edge => if edge.isAborted then tmpRQueue else tmpRQueue ++ [r]
        else some tmpRQueue) =
          some (if decide ((cq.node r).Sequence ≠ 0) && !(cq.edgeOf r).isAborted
            then tmpRQueue ++ [r] else tmpRQueue) ∧ True := by
      intro tmpRQueue _ r hr
      rw [linked.deref (hRefs r hr)]
      cases (cq.edgeOf r).isAborted <;> by_cases hZero : (cq.node r).Sequence = 0 <;> simp [hZero]
    rw [(PartialLoop.foldlM_eq_some _ _ _ hStep trivial).1, PartialLoop.foldl_keep]
    rfl
  unfold Panicking.sortReads QueueGraph.sortReads
  rw [hTmp, Option.bind_some]
  generalize (queue.rSlice.filter fun r =>
    decide ((cq.node r).Sequence ≠ 0) && !(cq.edgeOf r).isAborted) = tmpRQueue
  by_cases hNone : tmpRQueue = []
  · simp only [if_pos hNone]
    have hStep : ∀ s : QueueGraph × Int, Linked txs s.1 → ∀ r ∈ queue.rSlice,
        (Panicking.deref s.1 r fun _ => (s.1.number r initialSequence, initialSequence)) =
          some (s.1.number r initialSequence, initialSequence) ∧
        Linked txs (s.1.number r initialSequence, initialSequence).1 :=
      fun s hs r hr => ⟨hs.deref (hRefs r hr) _, hs.number r _⟩
    exact PartialLoop.foldlM_eq_some _ _ (fun s : QueueGraph × Int => Linked txs s.1) hStep linked
  · simp only [if_neg hNone]
    have hStep : ∀ v cq, Linked txs cq → ∀ r ∈ queue.rSlice,
        (if (cq.node r).Sequence ≠ 0 then some cq
          else Panicking.deref cq r fun _ => cq.number r v) =
          some (if (cq.node r).Sequence ≠ 0 then cq else cq.number r v) ∧
        Linked txs (if (cq.node r).Sequence ≠ 0 then cq else cq.number r v) := by
      intro v cq hs r hr
      split
      · exact ⟨rfl, hs⟩
      · exact ⟨hs.deref (hRefs r hr) _, hs.number r v⟩
    obtain ⟨hRun, hLinked⟩ :=
      PartialLoop.foldlM_eq_some _ _ _ (hStep _) (linked.assignAll tmpRQueue)
    rw [hRun]
    exact ⟨rfl, hLinked⟩

/-- What holds while the writes are checked. -/
structure LinkedChecked (txs : List (List RWNode)) (s : Checked) : Prop where
  linked : Linked txs s.cq
  same : ∀ w ∈ s.tmpWQueue, w ∈ refs txs
  later : ∀ ww ∈ s.tmpWQueue2, ww.2 ∈ refs txs

theorem LinkedChecked.checkWrite {s : Checked} (linked : LinkedChecked txs s) (maxRead : Int)
    {w : Ref} (hw : w ∈ refs txs) :
    checkWrite maxRead s w = some (QueueGraph.checkWrite maxRead s w) ∧
      LinkedChecked txs (QueueGraph.checkWrite maxRead s w) := by
  refine ⟨?_, ?_, fun x hx => ?_, fun ww hww => ?_⟩
  · unfold Panicking.checkWrite
    split
    next hZero => rw [QueueGraph.checkWrite, if_pos hZero]
    · exact linked.linked.deref hw _
  · rcases QueueGraph.checkWrite_cq maxRead s w with hSame | ⟨hAbort, _⟩
    · rw [hSame]
      exact linked.linked
    · rw [hAbort]
      exact linked.linked.abort w
  · rcases QueueGraph.checkWrite_tmpWQueue maxRead s w with hSame | hMore
    · exact linked.same x (hSame ▸ hx)
    · rw [hMore, mem_append, mem_singleton] at hx
      rcases hx with hx | rfl
      · exact linked.same x hx
      · exact hw
  · rcases QueueGraph.checkWrite_tmpWQueue2 maxRead s w with hSame | hMore
    · exact linked.later ww (hSame ▸ hww)
    · rw [hMore, mem_append, mem_singleton] at hww
      rcases hww with hww | rfl
      · exact linked.later ww hww
      · exact hw

theorem Linked.sortSame (linked : Linked txs cq) (maxRead maxWrite : Int) {tmpWQueue : List Ref}
    (hRefs : ∀ w ∈ tmpWQueue, w ∈ refs txs) :
    sortSame cq maxRead maxWrite tmpWQueue = some (cq.sortSame maxRead maxWrite tmpWQueue) ∧
      Linked txs (cq.sortSame maxRead maxWrite tmpWQueue).1 := by
  cases tmpWQueue with
  | nil => exact ⟨rfl, linked⟩
  | cons w others =>
    have hFirst := linked.number w (int32 (maxWrite + 1))
    have hStep : ∀ cq, Linked txs cq → ∀ w ∈ others,
        (Panicking.deref cq w fun _ => cq.abort w) = some (cq.abort w) ∧
          Linked txs (cq.abort w) := fun cq hs w hw =>
      ⟨hs.deref (hRefs w (mem_cons_of_mem _ hw)) _, hs.abort w⟩
    obtain ⟨hRun, hLinked⟩ := PartialLoop.foldlM_eq_some _ _ _ hStep hFirst
    refine ⟨?_, hLinked⟩
    simp only [Panicking.sortSame, linked.deref (hRefs w mem_cons_self), Option.bind_some, hRun]
    rfl

/-- What the variable algorithm does, if nothing panics. -/
def variableSorted (cq : QueueGraph) (maxRead maxWrite : Int) (tmpWQueue : List Ref) :
    QueueGraph × Int × Int :=
  tmpWQueue.foldl (fun s w =>
    (s.1.number w (int32 (s.2.2 + 1)), int32 (s.2.2 + 1), int32 (s.2.2 + 1)))
    (cq, maxRead, maxWrite)

theorem Linked.variableSame (linked : Linked txs cq) (maxRead maxWrite : Int)
    {tmpWQueue : List Ref} (hRefs : ∀ w ∈ tmpWQueue, w ∈ refs txs) :
    variableSame cq maxRead maxWrite tmpWQueue =
        some (variableSorted cq maxRead maxWrite tmpWQueue) ∧
      Linked txs (variableSorted cq maxRead maxWrite tmpWQueue).1 := by
  have hStep : ∀ s : QueueGraph × Int × Int, Linked txs s.1 → ∀ w ∈ tmpWQueue,
      (Panicking.deref s.1 w fun _ =>
        (s.1.number w (int32 (s.2.2 + 1)), int32 (s.2.2 + 1), int32 (s.2.2 + 1))) =
        some (s.1.number w (int32 (s.2.2 + 1)), int32 (s.2.2 + 1), int32 (s.2.2 + 1)) ∧
      Linked txs (s.1.number w (int32 (s.2.2 + 1))) :=
    fun s hs w hw => ⟨hs.deref (hRefs w hw) _, hs.number w _⟩
  exact PartialLoop.foldlM_eq_some _ _ (fun s : QueueGraph × Int × Int => Linked txs s.1) hStep
    linked

theorem Linked.newWrite {s : QueueGraph × Int} (linked : Linked txs s.1) (keys : List Int) {w : Ref}
    (hw : w ∈ refs txs) :
    newWrite keys s w = some (QueueGraph.newWrite keys s w) ∧
      Linked txs (QueueGraph.newWrite keys s w).1 := by
  unfold Panicking.newWrite QueueGraph.newWrite
  split
  · exact ⟨rfl, linked⟩
  · cases QueueGraph.firstFree keys (keys.length + 1) (int32 (s.2 + 1)) with
    | some i => exact ⟨linked.deref hw _, linked.number w i⟩
    | none => exact ⟨rfl, linked⟩

theorem Linked.adjustWrite {s : QueueGraph × Int} (linked : Linked txs s.1) (maxRead n : Int)
    {ww : Ref × Nat} (hw : ww.1 ∈ refs txs) :
    adjustWrite maxRead n s ww = some (QueueGraph.adjustWrite maxRead n s ww) ∧
      Linked txs (QueueGraph.adjustWrite maxRead n s ww).1 := by
  unfold Panicking.adjustWrite QueueGraph.adjustWrite
  split
  · exact ⟨rfl, linked⟩
  · exact ⟨linked.deref hw _, linked.number ww.1 _⟩

/-- The call without its checks, by what it does in the middle. -/
def sortedBy (same : QueueGraph → Int → Int → List Ref → QueueGraph × Int × Int) (cq : QueueGraph)
    (key : String) : QueueGraph :=
  let queue := cq.Queues key
  let reads := cq.sortReads queue
  let checked := queue.wSlice.foldl (QueueGraph.checkWrite reads.2) ⟨reads.1, [], []⟩
  let same := same checked.cq reads.2 (if reads.2 = 0 then initialSequence - 1 else reads.2)
    checked.tmpWQueue
  let new := queue.wSlice.foldl (QueueGraph.newWrite (waiting checked)) (same.1, same.2.2)
  let adjusted := (waiting checked).foldl (fun s n =>
    ((checked.tmpWQueue2.filter fun ww => ww.1 = n).map Prod.snd).zipIdx.foldl
      (QueueGraph.adjustWrite same.2.1 n) s) (new.1, QueueGraph.lastWrite (waiting checked) new.2)
  { adjusted.1 with
    Queues := update adjusted.1.Queues key
      { queue with maxRead := same.2.1, maxWrite := adjusted.2 } }

theorem sortedBy_sortSame (cq : QueueGraph) (key : String) :
    sortedBy QueueGraph.sortSame cq key = cq.sortInQueue key := rfl

/-- The middle of a call returns, and the nodes keep their edges. -/
def Returns (txs : List (List RWNode))
    (same : QueueGraph → Int → Int → List Ref → Option (QueueGraph × Int × Int))
    (total : QueueGraph → Int → Int → List Ref → QueueGraph × Int × Int) : Prop :=
  ∀ cq, Linked txs cq → ∀ maxRead maxWrite tmpWQueue, (∀ w ∈ tmpWQueue, w ∈ refs txs) →
    same cq maxRead maxWrite tmpWQueue = some (total cq maxRead maxWrite tmpWQueue) ∧
      Linked txs (total cq maxRead maxWrite tmpWQueue).1

theorem Linked.sortInQueueBy {same : QueueGraph → Int → Int → List Ref →
      Option (QueueGraph × Int × Int)}
    {total : QueueGraph → Int → Int → List Ref → QueueGraph × Int × Int}
    (hSame : Returns txs same total) (linked : Linked txs cq) (hKey : key ∈ cq.keys) :
    sortInQueueBy same cq key = some (sortedBy total cq key) ∧
      Linked txs (sortedBy total cq key) := by
  obtain ⟨hReadRefs, hWriteRefs⟩ := linked.queues key
  obtain ⟨hReads, hLinkedReads⟩ := linked.sortReads hReadRefs
  have hQueue : queueAt cq key = some (cq.Queues key) := if_pos hKey
  unfold Panicking.sortInQueueBy sortedBy
  simp only [hQueue, hReads, Option.bind_some]
  generalize cq.sortReads (cq.Queues key) = reads at hLinkedReads ⊢
  obtain ⟨hChecked, hLinkedChecked⟩ := PartialLoop.foldlM_eq_some _ _ (LinkedChecked txs)
    (fun s hs w hw => hs.checkWrite reads.2 (hWriteRefs w hw))
    (s := ⟨reads.1, [], []⟩) ⟨hLinkedReads, by simp, by simp⟩
  rw [hChecked, Option.bind_some]
  generalize
    (cq.Queues key).wSlice.foldl (QueueGraph.checkWrite reads.2) ⟨reads.1, [], []⟩ = checked
    at hLinkedChecked ⊢
  obtain ⟨hMiddle, hLinkedSame⟩ := hSame checked.cq hLinkedChecked.linked reads.2
    (if reads.2 = 0 then initialSequence - 1 else reads.2) checked.tmpWQueue hLinkedChecked.same
  rw [hMiddle, Option.bind_some]
  generalize total checked.cq reads.2 (if reads.2 = 0 then initialSequence - 1 else reads.2)
    checked.tmpWQueue = moved at hLinkedSame ⊢
  obtain ⟨hNew, hLinkedNew⟩ :=
    PartialLoop.foldlM_eq_some _ _ (fun s : QueueGraph × Int => Linked txs s.1)
    (fun s hs w hw => hs.newWrite (waiting checked) (hWriteRefs w hw))
    (s := (moved.1, moved.2.2)) hLinkedSame
  rw [hNew, Option.bind_some]
  generalize (cq.Queues key).wSlice.foldl (QueueGraph.newWrite (waiting checked))
    (moved.1, moved.2.2) = new at hLinkedNew ⊢
  have hBucket : ∀ n, ∀ ww ∈ ((checked.tmpWQueue2.filter fun ww => ww.1 = n).map Prod.snd).zipIdx,
      ww.1 ∈ refs txs := by
    intro n ww hww
    obtain ⟨pair, hPair, hEq⟩ := mem_map.mp (fst_mem_of_mem_zipIdx hww)
    rw [← hEq]
    exact hLinkedChecked.later pair (mem_filter.mp hPair).1
  obtain ⟨hAdjusted, hLinkedAdjusted⟩ :=
    PartialLoop.foldlM_eq_some _ _ (fun s : QueueGraph × Int => Linked txs s.1)
    (fun s hs n _ => PartialLoop.foldlM_eq_some _ _ (fun s : QueueGraph × Int => Linked txs s.1)
      (fun s hs ww hww => hs.adjustWrite moved.2.1 n (hBucket n ww hww)) hs)
    (s := (new.1, QueueGraph.lastWrite (waiting checked) new.2)) hLinkedNew
  rw [hAdjusted]
  refine ⟨rfl, hLinkedAdjusted.updateQueue ?_ ?_⟩
  · exact hReadRefs
  · exact hWriteRefs

end Calls

section Runs

open QueueGraph (mem_keys mem_rSlice mem_wSlice)

variable {txs : List (List RWNode)}

variable (txs) in
theorem edges_cases (is : List Nat) (edges : String → Edge) (t : String) :
    let last := is.foldl (fun edges i => if refsOf txs i = [] then edges
      else update edges (nodeAt txs ⟨i, 0⟩).TransInfo.ID ⟨refsOf txs i, false⟩) edges
    (∃ i, refsOf txs i ≠ [] ∧ last t = ⟨refsOf txs i, false⟩) ∨
      last t = edges t ∧ ∀ i ∈ is, refsOf txs i ≠ [] → (nodeAt txs ⟨i, 0⟩).TransInfo.ID ≠ t := by
  induction is generalizing edges with
  | nil => exact Or.inr ⟨rfl, fun _ h => absurd h not_mem_nil⟩
  | cons i is ih =>
    by_cases hEmpty : refsOf txs i = []
    · simp only [foldl_cons, if_pos hEmpty]
      refine (ih edges).imp_right fun h => ⟨h.1, fun j hj hNonempty => ?_⟩
      rcases mem_cons.mp hj with rfl | hj
      · exact absurd hEmpty hNonempty
      · exact h.2 j hj hNonempty
    · simp only [foldl_cons, if_neg hEmpty]
      rcases ih (update edges (nodeAt txs ⟨i, 0⟩).TransInfo.ID ⟨refsOf txs i, false⟩)
        with h | ⟨hLast, hOthers⟩
      · exact Or.inl h
      · by_cases hId : t = (nodeAt txs ⟨i, 0⟩).TransInfo.ID
        · subst hId
          rw [update_self] at hLast
          exact Or.inl ⟨i, hEmpty, hLast⟩
        · rw [update_of_ne hId] at hLast
          refine Or.inr ⟨hLast, fun j hj hNonempty => ?_⟩
          rcases mem_cons.mp hj with rfl | hj
          · exact fun h => hId h.symm
          · exact hOthers j hj hNonempty

theorem edge_createGraph (t : String) : (∀ n ∈ ((CreateGraph txs).Edges t).set, n ∈ refs txs) ∧
      (t ∈ (CreateGraph txs).ids → ((CreateGraph txs).Edges t).set ≠ []) := by
  rcases edges_cases txs (List.range txs.length) (fun _ => ⟨[], false⟩) t with
    ⟨i, hNonempty, hEdge⟩ | ⟨hEdge, hNone⟩
  · change (CreateGraph txs).Edges t = _ at hEdge
    rw [hEdge]
    exact ⟨fun n hn => refsOf_subset hn, fun _ => hNonempty⟩
  · change (CreateGraph txs).Edges t = _ at hEdge
    rw [hEdge]
    refine ⟨fun n hn => absurd hn not_mem_nil, fun ht => ?_⟩
    obtain ⟨i, hi, hId⟩ := mem_map.mp (mem_dedup.mp ht)
    obtain ⟨hRange, hNonempty⟩ := mem_filter.mp hi
    exact absurd hId (hNone i hRange (of_decide_eq_true hNonempty))

theorem linked_createGraph (coherent : Coherent txs) : Linked txs (CreateGraph txs) where
  keys := rfl
  ids := rfl
  edge := by
    intro n hn
    have hFirst := first_mem_refs hn
    have hTx : n.tx < txs.length := by
      by_contra hOut
      have hPos := (mem_refsOf.mp (mem_refs.mp hn)).2
      rw [getElem?_eq_none (Nat.not_lt.mp hOut)] at hPos
      exact absurd hPos (Nat.not_lt_zero _)
    change (nodeAt txs n).TransInfo.ID ∈ List.dedup _
    rw [coherent n hn _ hFirst rfl, mem_dedup]
    refine mem_map.mpr ⟨n.tx, mem_filter.mpr ⟨mem_range.mpr hTx, ?_⟩, rfl⟩
    exact decide_eq_true (ne_nil_of_mem (mem_refs.mp hn))
  nonempty := fun t ht => (edge_createGraph t).2 ht
  queues := fun _ => ⟨fun _ hr => (mem_rSlice.mp hr).1, fun _ hw => (mem_wSlice.mp hw).1⟩

section

variable (coherent : Coherent txs) {range : String → List String → List String}
  (hRange : ∀ key kks, (range key kks).Perm kks)
  (hLength : ((CreateGraph txs).keys.length : Int) ≤ AlGraph.maxInt64)

theorem mem_temp {key kk : String} (h : kk ∈ (CreateGraph txs).temp key) :
    kk ∈ (CreateGraph txs).keys ∧ kk ≠ key :=
  QueueGraph.mem_temp_of_edges (fun _ _ n hn => (edge_createGraph _).1 n hn) h

include coherent in
theorem temp_eq {key : String} (hKey : key ∈ (CreateGraph txs).keys) :
    temp (CreateGraph txs) key = some ((CreateGraph txs).temp key) := by
  have hQueue : queueAt (CreateGraph txs) key = some ((CreateGraph txs).Queues key) := if_pos hKey
  unfold temp QueueGraph.temp
  rw [hQueue, Option.bind_some, PartialLoop.mapM_eq_some fun w hw =>
    (linked_createGraph coherent).deref (mem_wSlice.mp hw).1 _]
  rw [Option.map_some, flatMap_def]

include hLength in
theorem degreesFit :
    AlGraph.DegreesFit (QueueGraph.depGraph (CreateGraph txs) (fun _ _ => mem_temp) hRange) := by
  refine AlGraph.degreesFit_of_nodup (QueueGraph.depGraph_nodup _ (fun _ _ => mem_temp) hRange) ?_
  rw [QueueGraph.nvertices_depGraph]
  exact hLength

include coherent hRange in
theorem deps_eq :
    ((CreateGraph txs).sortedStrings.mapM fun key => (temp (CreateGraph txs) key).map fun kks =>
      (range key kks).map (sortedQueues (CreateGraph txs))) =
      some ((CreateGraph txs).deps range) := by
  refine PartialLoop.mapM_eq_some fun key hKey => ?_
  rw [temp_eq coherent ((QueueGraph.perm_sortedStrings _).mem_iff.mp hKey), Option.map_some]
  refine congrArg some (map_congr_left fun kk hkk => ?_)
  obtain ⟨hIn, _⟩ := QueueGraph.mem_visited _ (fun _ _ => mem_temp) hRange hkk
  obtain ⟨i, hi⟩ := Option.isSome_iff_exists.mp (isSome_idxOf?.mpr hIn)
  rw [idxOf_eq_getD_idxOf?, sortedQueues, hi]
  rfl

include coherent hRange hLength in
/-- The queues are ranked as without the checks: every rank is the place of a queue. -/
theorem queuesSort_eq :
    QueuesSort (CreateGraph txs) range = (CreateGraph txs).QueuesSort range := by
  have hSort := advancedTopologicalSort_eq
    (QueueGraph.depGraph (CreateGraph txs) (fun _ _ => mem_temp) hRange)
  change AdvancedTopologicalSort (AlGraph.Init ((CreateGraph txs).deps range)) =
    (AlGraph.Init ((CreateGraph txs).deps range)).AdvancedTopologicalSort at hSort
  have hTotal : (CreateGraph txs).QueuesSort range =
    (AlGraph.Init ((CreateGraph txs).deps range)).AdvancedTopologicalSort.map _ := rfl
  rw [QueuesSort, deps_eq coherent hRange, Option.bind_some, hSort]
  by_cases hEmpty : refs txs = []
  · have hNone := QueueGraph.queuesSort_none hEmpty range
    rw [hNone]
    rw [hTotal, Option.map_eq_none_iff] at hNone
    rw [hNone]
    rfl
  · have hKeys := QueueGraph.keys_ne_nil hEmpty
    obtain ⟨order, hRun, hPerm⟩ := QueueGraph.rankedDeps _ (fun _ _ => mem_temp) hRange
      (degreesFit hRange hLength) hKeys
    have hLengthPos : 0 < (CreateGraph txs).sortedStrings.length := by
      rw [QueueGraph.length_sortedStrings]
      exact length_pos_iff.mpr hKeys
    rw [hTotal, hRun, Option.bind_some, Option.map_some, if_pos hLengthPos]
    refine PartialLoop.mapM_eq_some fun o ho => ?_
    have hIn := mem_range.mp (hPerm.mem_iff.mp ho)
    rw [getElem?_eq_getElem hIn, Option.getD_some]

end

theorem Linked.commitEntries {cq : QueueGraph} (linked : Linked txs cq) {ids : List String}
    (hIds : ids.Perm cq.ids) : (commitEntries cq ids).isSome = true := by
  refine PartialLoop.mapM_isSome fun t ht => ?_
  have hSet := linked.nonempty t (hIds.mem_iff.mp (mem_filter.mp ht).1)
  rw [Option.isSome_map]
  simpa using hSet

section

variable {same : QueueGraph → Int → Int → List Ref → Option (QueueGraph × Int × Int)}
  {total : QueueGraph → Int → Int → List Ref → QueueGraph × Int × Int}
  (hSame : Returns txs same total) (coherent : Coherent txs)

include hSame coherent

theorem deSS_eq {sequence : List String}
    (hSequence : ∀ key ∈ sequence, key ∈ (CreateGraph txs).keys) (ids : List String) :
    DeSS same (CreateGraph txs) sequence ids =
        commitEntries (sequence.foldl (sortedBy total) (CreateGraph txs)) ids ∧
      Linked txs (sequence.foldl (sortedBy total) (CreateGraph txs)) := by
  obtain ⟨hRun, hLinked⟩ := PartialLoop.foldlM_eq_some (sortInQueueBy same) (sortedBy total)
    (Linked txs) (fun cq hs key hKey => hs.sortInQueueBy hSame (hs.keys ▸ hSequence key hKey))
    (linked_createGraph coherent)
  exact ⟨by rw [DeSS, hRun, Option.bind_some], hLinked⟩

/-- With any middle that returns, only the sort of no queue panics. -/
theorem pipeline_isSome (hLength : ((CreateGraph txs).keys.length : Int) ≤ AlGraph.maxInt64)
    {range : String → List String → List String} (hRange : ∀ key kks, (range key kks).Perm kks)
    {ids : List String} (hIds : ids.Perm (CreateGraph txs).ids) :
    ((QueuesSort (CreateGraph txs) range).bind fun sequence =>
      DeSS same (CreateGraph txs) sequence ids).isSome = true ↔ refs txs ≠ [] := by
  rw [queuesSort_eq coherent hRange hLength]
  by_cases hEmpty : refs txs = []
  · rw [QueueGraph.queuesSort_none hEmpty]
    simp [hEmpty]
  · obtain ⟨sequence, hSort, hPerm⟩ := QueueGraph.queuesSort_perm _ (fun _ _ => mem_temp) hRange
      (degreesFit hRange hLength) (QueueGraph.keys_ne_nil hEmpty)
    obtain ⟨hRun, hLinked⟩ := deSS_eq hSame coherent (fun key hKey => hPerm.mem_iff.mp hKey) ids
    rw [hSort, Option.bind_some, hRun]
    exact iff_of_true (hLinked.commitEntries (hLinked.ids ▸ hIds)) hEmpty

end

theorem refs_ne_nil : refs txs ≠ [] ↔ ∃ tx ∈ txs, tx ≠ [] := by
  constructor
  · intro hNonempty
    obtain ⟨n, hn⟩ := exists_mem_of_ne_nil _ hNonempty
    have hPos := (mem_refsOf.mp (mem_refs.mp hn)).2
    cases hTx : txs[n.tx]? with
    | none => simp [hTx] at hPos
    | some tx =>
      rw [hTx, Option.getD_some] at hPos
      exact ⟨tx, mem_of_getElem? hTx, ne_nil_of_length_pos (Nat.zero_lt_of_lt hPos)⟩
  · rintro ⟨tx, hTx, hNonempty⟩
    obtain ⟨i, hi⟩ := mem_iff_getElem?.mp hTx
    have hFirst : (⟨i, 0⟩ : Ref) ∈ refs txs := by
      refine mem_refs.mpr (mem_refsOf.mpr ⟨rfl, ?_⟩)
      rw [hi]
      exact length_pos_iff.mpr hNonempty
    exact ne_nil_of_mem hFirst

theorem createVariableGraph_eq (txs : List (List RWNode)) :
    CreateVariableGraph txs = if [] ∈ txs then none else some (CreateGraph txs) := by
  unfold CreateVariableGraph
  split
  case isTrue hEmpty => rw [PartialLoop.mapM_eq_none hEmpty rfl, Option.map_none]
  case isFalse hNone =>
    obtain ⟨firsts, hFirsts⟩ := Option.isSome_iff_exists.mp
      (PartialLoop.mapM_isSome fun tx hTx => show (List.head? tx).isSome = true by
        have hNonempty : tx ≠ [] := fun h => hNone (h ▸ hTx)
        simpa using hNonempty)
    rw [hFirsts, Option.map_some]

/-- When the pipelines return: the first needs a node, the second a node in every
transaction. So both return on the lists without an empty transaction, except the
list without any. -/
theorem pipelines_return_iff (coherent : Coherent txs)
    (hLength : ((CreateGraph txs).keys.length : Int) ≤ AlGraph.maxInt64)
    (range : String → List String → List String) (hRange : ∀ key kks, (range key kks).Perm kks)
    (ids : List String) (hIds : ids.Perm (CreateGraph txs).ids) :
    ((nezha txs range ids).isSome = true ↔ ∃ tx ∈ txs, tx ≠ []) ∧
    ((nezhaVariable txs range ids).isSome = true ↔ txs ≠ [] ∧ [] ∉ txs) ∧
    ((nezha txs range ids).isSome = true ∧ (nezhaVariable txs range ids).isSome = true ↔
      txs ≠ [] ∧ [] ∉ txs) := by
  have hNezha : (nezha txs range ids).isSome = true ↔ ∃ tx ∈ txs, tx ≠ [] :=
    (pipeline_isSome (fun _ linked maxRead maxWrite _ => linked.sortSame maxRead maxWrite)
      coherent hLength hRange hIds).trans refs_ne_nil
  have hVariable : (nezhaVariable txs range ids).isSome = true ↔ txs ≠ [] ∧ [] ∉ txs := by
    unfold nezhaVariable
    rw [createVariableGraph_eq]
    split
    case isTrue hEmpty => simp [hEmpty]
    case isFalse hNone =>
      rw [Option.bind_some, pipeline_isSome
        (fun _ linked maxRead maxWrite _ => linked.variableSame maxRead maxWrite)
        coherent hLength hRange hIds, refs_ne_nil]
      constructor
      · rintro ⟨tx, hTx, _⟩
        exact ⟨ne_nil_of_mem hTx, hNone⟩
      · rintro ⟨hTxs, _⟩
        obtain ⟨tx, hTx⟩ := exists_mem_of_ne_nil _ hTxs
        exact ⟨tx, hTx, fun h => hNone (h ▸ hTx)⟩
  refine ⟨hNezha, hVariable, ?_⟩
  rw [hNezha, hVariable]
  constructor
  · exact And.right
  · rintro ⟨hTxs, hNone⟩
    obtain ⟨tx, hTx⟩ := exists_mem_of_ne_nil _ hTxs
    exact ⟨⟨tx, hTx, fun h => hNone (h ▸ hTx)⟩, hTxs, hNone⟩

/-- A transaction that captured nothing, before one that reads a slot and writes another. -/
def afterEmpty : List (List RWNode) := [[], CreateRWNode "1" 0 "c" [⟨"0", ""⟩] [⟨"1", ""⟩]]

theorem coherent_afterEmpty : Coherent afterEmpty := by
  unfold Coherent
  decide +kernel

theorem afterEmpty_returns : (nezha afterEmpty (fun _ kks => kks) ["1"]).isSome = true ∧
      ¬ (nezhaVariable afterEmpty (fun _ kks => kks) ["1"]).isSome = true := by
  obtain ⟨hNezha, hVariable, _⟩ := pipelines_return_iff coherent_afterEmpty
    (by decide +kernel) (fun _ kks => kks) (fun _ _ => List.Perm.refl _) ["1"] (by decide +kernel)
  rw [hNezha, hVariable]
  decide

/-- An empty transaction stops the second pipeline, and alone it stops both. -/
theorem empty_transactions_panic : nezhaVariable afterEmpty (fun _ kks => kks) ["1"] = none ∧
      nezha [[]] (fun _ kks => kks) [] = none ∧ nezhaVariable [[]] (fun _ kks => kks) [] = none := by
  decide +kernel

end Runs

end Panicking

end Nezha
