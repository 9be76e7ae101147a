import Mathlib

/-! The per-key queue of the Depurge scheduler: a doubly linked list of
transaction IDs beside an index from an ID to its list element. List elements
keep their identity, because the index holds pointers into the list. The
agreement of the two is a field of the queue, so no operation can break it. -/
namespace Nezha

open Function List

/-- One `container/list` element: its heap cell and the ID stored there. -/
structure Element where
  addr : Nat
  Value : String
deriving DecidableEq, Repr

/-- `fresh` is the allocator behind `PushBack`: every cell in use is below it. -/
structure TransactionQueue where
  queue : List Element
  index : String → Option Element
  fresh : Nat
  addr_lt : ∀ e ∈ queue, e.addr < fresh
  nodup : queue.Nodup
  index_iff : ∀ txID e, index txID = some e ↔ e ∈ queue ∧ e.Value = txID

namespace TransactionQueue

def newTransactionQueue : TransactionQueue where
  queue := []
  index := fun _ => none
  fresh := 0
  addr_lt := by simp
  nodup := nodup_nil
  index_iff := by simp

/-- The IDs in list order, which is what the scheduler depends on. -/
def ids (q : TransactionQueue) : List String := q.queue.map Element.Value

theorem index_isSome_iff (q : TransactionQueue) (txID : String) :
    (q.index txID).isSome ↔ txID ∈ q.ids := by
  rw [Option.isSome_iff_exists, ids, mem_map]
  exact exists_congr fun e => q.index_iff txID e

theorem index_eq_none_iff (q : TransactionQueue) (txID : String) :
    q.index txID = none ↔ txID ∉ q.ids := by
  rw [← index_isSome_iff, Option.not_isSome_iff_eq_none]

theorem element_eq (q : TransactionQueue) {e e' : Element} (he : e ∈ q.queue)
    (he' : e' ∈ q.queue) (same : e.Value = e'.Value) : e = e' := by
  have hIndex := (q.index_iff e'.Value e).mpr ⟨he, same⟩
  have hIndex' := (q.index_iff e'.Value e').mpr ⟨he', rfl⟩
  exact Option.some.inj (hIndex.symm.trans hIndex')

theorem nodup_ids (q : TransactionQueue) : q.ids.Nodup :=
  q.nodup.map_on fun _ he _ he' same => q.element_eq he he' same

/-- `push` ignores an ID that is already queued. -/
def push (q : TransactionQueue) (txID : String) : TransactionQueue :=
  match h : q.index txID with
  | some _ => q
  | none =>
    { queue := q.queue ++ [⟨q.fresh, txID⟩]
      index := update q.index txID (some ⟨q.fresh, txID⟩)
      fresh := q.fresh + 1
      addr_lt := by
        intro e he
        rcases mem_append.mp he with he | he
        · exact Nat.lt_succ_of_lt (q.addr_lt e he)
        · rw [mem_singleton.mp he]
          exact Nat.lt_succ_self _
      nodup := by
        refine q.nodup.append (nodup_singleton _) ?_
        intro e he he'
        have hAddr := q.addr_lt e he
        rw [mem_singleton.mp he'] at hAddr
        exact Nat.lt_irrefl _ hAddr
      index_iff := by
        intro other e
        have hAbsent := (q.index_eq_none_iff txID).mp h
        by_cases same : other = txID
        · subst other
          rw [update_self, mem_append, mem_singleton]
          constructor
          · intro he
            cases he
            exact ⟨Or.inr rfl, rfl⟩
          · rintro ⟨he | he, hValue⟩
            · exact absurd (mem_map.mpr ⟨e, he, hValue⟩) hAbsent
            · rw [he]
        · rw [update_of_ne same, q.index_iff, mem_append, mem_singleton]
          constructor
          · rintro ⟨he, hValue⟩
            exact ⟨Or.inl he, hValue⟩
          · rintro ⟨he | rfl, hValue⟩
            · exact ⟨he, hValue⟩
            · exact absurd hValue.symm same }

/-- Unlink one element and delete its ID from the index. -/
def unlink (q : TransactionQueue) (elem : Element) (he : elem ∈ q.queue) : TransactionQueue where
  queue := q.queue.erase elem
  index := update q.index elem.Value none
  fresh := q.fresh
  addr_lt := fun e hm => q.addr_lt e (mem_of_mem_erase hm)
  nodup := q.nodup.erase elem
  index_iff := by
    intro other e
    rw [q.nodup.mem_erase_iff]
    by_cases same : other = elem.Value
    · subst other
      rw [update_self]
      constructor
      · intro h
        cases h
      · rintro ⟨⟨hne, hm⟩, hValue⟩
        exact absurd (q.element_eq hm he hValue) hne
    · rw [update_of_ne same, q.index_iff]
      constructor
      · rintro ⟨hm, hValue⟩
        refine ⟨⟨?_, hm⟩, hValue⟩
        rintro rfl
        exact same hValue.symm
      · rintro ⟨⟨_, hm⟩, hValue⟩
        exact ⟨hm, hValue⟩

def pop (q : TransactionQueue) : TransactionQueue × String :=
  match h : q.queue with
  | [] => (q, "")
  | elem :: _ => (q.unlink elem (by rw [h]; exact mem_cons_self), elem.Value)

def front (q : TransactionQueue) : String :=
  match q.queue with
  | [] => ""
  | elem :: _ => elem.Value

def isEmpty (q : TransactionQueue) : Bool := q.queue.length == 0

def len (q : TransactionQueue) : Nat := q.queue.length

def contains (q : TransactionQueue) (txID : String) : Bool := (q.index txID).isSome

def remove (q : TransactionQueue) (txID : String) : TransactionQueue × Bool :=
  match h : q.index txID with
  | none => (q, false)
  | some elem => (q.unlink elem ((q.index_iff txID elem).mp h).1, true)

theorem contains_iff (q : TransactionQueue) (txID : String) :
    q.contains txID = true ↔ txID ∈ q.ids := q.index_isSome_iff txID

theorem front_eq (q : TransactionQueue) : q.front = q.ids.headD "" := by
  unfold front ids
  cases q.queue <;> rfl

theorem ids_push (q : TransactionQueue) (txID : String) :
    (q.push txID).ids = if txID ∈ q.ids then q.ids else q.ids ++ [txID] := by
  unfold push
  split
  · rename_i e h
    rw [if_pos ((q.index_isSome_iff txID).mp (by rw [h]; rfl))]
  · rename_i h
    rw [if_neg ((q.index_eq_none_iff txID).mp h)]
    simp [ids]

theorem ids_unlink (q : TransactionQueue) (elem : Element) (he : elem ∈ q.queue) :
    (q.unlink elem he).ids = q.ids.erase elem.Value := by
  have hOn : ∀ e ∈ q.queue, e.Value = elem.Value → e = elem :=
    fun e hm same => q.element_eq hm he same
  change (q.queue.erase elem).map Element.Value = (q.queue.map Element.Value).erase elem.Value
  generalize q.queue = list at hOn
  induction list with
  | nil => rfl
  | cons head tail ih =>
    by_cases same : head = elem
    · subst head
      simp
    · have hValue : head.Value ≠ elem.Value := fun h => same (hOn head mem_cons_self h)
      rw [erase_cons_tail (by simpa using same), map_cons, map_cons,
        erase_cons_tail (by simpa using hValue),
        ih fun e hm => hOn e (mem_cons_of_mem _ hm)]

theorem ids_remove (q : TransactionQueue) (txID : String) :
    (q.remove txID).1.ids = q.ids.erase txID := by
  unfold remove
  split
  · rename_i h
    rw [erase_of_not_mem ((q.index_eq_none_iff txID).mp h)]
  · rename_i elem h
    dsimp only
    rw [ids_unlink, ((q.index_iff txID elem).mp h).2]

theorem remove_of_not_mem (q : TransactionQueue) {txID : String} (h : txID ∉ q.ids) :
    (q.remove txID).1 = q := by
  have hNone := (q.index_eq_none_iff txID).mpr h
  unfold remove
  split
  · rfl
  · rename_i elem hSome
    rw [hNone] at hSome
    cases hSome

/-- Popping the front and removing it are the same. -/
theorem pop_eq_remove (q : TransactionQueue) {txID : String} (hm : txID ∈ q.ids)
    (hFront : q.front = txID) : q.pop.1 = (q.remove txID).1 := by
  unfold pop remove
  split
  · rename_i hEmpty
    rw [ids, hEmpty] at hm
    cases hm
  · rename_i first rest hQueue
    have hFirst : first ∈ q.queue := by
      rw [hQueue]
      exact mem_cons_self
    have hValue : first.Value = txID := by
      rw [← hFront, front, hQueue]
    split
    · rename_i hNone
      exact absurd hm ((q.index_eq_none_iff txID).mp hNone)
    · rename_i elem hSome
      obtain ⟨hElem, hSame⟩ := (q.index_iff txID elem).mp hSome
      obtain rfl := q.element_eq hFirst hElem (hValue.trans hSame.symm)
      rfl

theorem pop_eq (q : TransactionQueue) : q.pop.1.ids = q.ids.tail ∧ q.pop.2 = q.ids.headD "" := by
  unfold pop
  split
  · rename_i h
    simp [ids, h]
  · rename_i first rest h
    rw [ids_unlink]
    simp [ids, h]

section History

inductive Operation where
  | push (txID : String)
  | pop
  | remove (txID : String)

/-- A list of IDs without duplicates, first in first out, as the queue is meant. -/
def listStep (list : List String) : Operation → List String
  | .push txID => if txID ∈ list then list else list ++ [txID]
  | .pop => list.tail
  | .remove txID => list.erase txID

/-- The number of operations so far and, for each ID that is queued, the number of operations
before its first push since it was last removed. -/
structure History where
  clock : Nat
  enteredAt : String → Option Nat

def History.step (history : History) (list : List String) (op : Operation) : History where
  clock := history.clock + 1
  enteredAt := match op with
    | .push txID => update history.enteredAt txID
        (some ((history.enteredAt txID).getD history.clock))
    | .pop => match list with
        | [] => history.enteredAt
        | txID :: _ => update history.enteredAt txID none
    | .remove txID => update history.enteredAt txID none

def step (q : TransactionQueue) : Operation → TransactionQueue
  | .push txID => q.push txID
  | .pop => q.pop.1
  | .remove txID => (q.remove txID).1

/-- The queue, the list it stands for and the history after some operations. -/
def run (ops : List Operation) : TransactionQueue × List String × History :=
  ops.foldl (fun s op => (s.1.step op, listStep s.2.1 op, s.2.2.step s.2.1 op))
    (newTransactionQueue, [], ⟨0, fun _ => none⟩)

theorem ids_step (q : TransactionQueue) (op : Operation) : (q.step op).ids = listStep q.ids op := by
  cases op with
  | push txID => exact q.ids_push txID
  | pop => exact q.pop_eq.1
  | remove txID => exact q.ids_remove txID

/-- The list is ordered by the first pushes, and these lie in the past. -/
structure Entered (list : List String) (clock : Nat) (enteredAt : String → Option Nat) : Prop where
  mem_iff : ∀ txID, txID ∈ list ↔ (enteredAt txID).isSome
  past : ∀ txID time, enteredAt txID = some time → time < clock
  ordered : list.Pairwise fun txID later =>
    (enteredAt txID).getD 0 < (enteredAt later).getD 0

variable {list : List String} {clock : Nat} {enteredAt : String → Option Nat}

theorem Entered.nodup (entered : Entered list clock enteredAt) :
    list.Nodup :=
  entered.ordered.imp fun h same => absurd h (by simp [same])

theorem Entered.leave (entered : Entered list clock enteredAt) (txID : String) :
    Entered (list.erase txID) (clock + 1) (update enteredAt txID none) where
  mem_iff := by
    intro other
    rw [entered.nodup.mem_erase_iff, entered.mem_iff, update_apply]
    split_ifs with h <;> simp [h]
  past := by
    intro other time h
    rw [update_apply] at h
    split_ifs at h
    exact Nat.lt_succ_of_lt (entered.past other time h)
  ordered := by
    refine (entered.ordered.sublist erase_sublist).imp_of_mem fun hFirst hLater h => ?_
    rw [entered.nodup.mem_erase_iff] at hFirst hLater
    rwa [update_of_ne hFirst.1, update_of_ne hLater.1]

theorem Entered.push (entered : Entered list clock enteredAt) (txID : String) :
    Entered (listStep list (.push txID)) (clock + 1)
      (update enteredAt txID (some ((enteredAt txID).getD clock))) := by
  unfold listStep
  dsimp only
  split_ifs with hMem
  · obtain ⟨time, hTime⟩ := Option.isSome_iff_exists.mp ((entered.mem_iff txID).mp hMem)
    rw [hTime, Option.getD_some, ← hTime, update_eq_self]
    exact ⟨entered.mem_iff, fun other time h => Nat.lt_succ_of_lt (entered.past other time h),
      entered.ordered⟩
  · have hNone : enteredAt txID = none := by
      simpa using (entered.mem_iff txID).not.mp hMem
    rw [hNone, Option.getD_none]
    have hOther : ∀ other ∈ list, other ≠ txID := fun other h same => hMem (same ▸ h)
    refine ⟨fun other => ?_, fun other time h => ?_, pairwise_append.mpr
      ⟨entered.ordered.imp_of_mem fun hFirst hLater h => ?_, pairwise_singleton _ _,
        fun other hFirst last hLast => ?_⟩⟩
    · by_cases same : other = txID
      · simp [same]
      · simp [same, entered.mem_iff]
    · by_cases same : other = txID
      · rw [same, update_self, Option.some.injEq] at h
        omega
      · rw [update_of_ne same] at h
        exact Nat.lt_succ_of_lt (entered.past other time h)
    · rwa [update_of_ne (hOther _ hFirst), update_of_ne (hOther _ hLater)]
    · -- the new ID enters now, all others before
      obtain ⟨time, hTime⟩ := Option.isSome_iff_exists.mp ((entered.mem_iff other).mp hFirst)
      rw [mem_singleton.mp hLast, update_self, update_of_ne (hOther _ hFirst), hTime]
      exact entered.past other time hTime

theorem Entered.step {history : History}
    (entered : Entered list history.clock history.enteredAt) (op : Operation) :
    Entered (listStep list op) (history.step list op).clock (history.step list op).enteredAt := by
  cases op with
  | push txID => exact entered.push txID
  | pop =>
    cases list with
    | nil => exact ⟨entered.mem_iff,
        fun other time h => Nat.lt_succ_of_lt (entered.past other time h), .nil⟩
    | cons txID list => simpa [listStep, History.step] using entered.leave txID
  | remove txID => exact entered.leave txID

/-- The two representations agree with the list, and the queue answers as the list does. -/
structure Refines (q : TransactionQueue) (list : List String) : Prop where
  order : q.ids = list
  nodup : list.Nodup
  domain : ∀ txID, (q.index txID).isSome ↔ txID ∈ list
  element : ∀ txID elem, q.index txID = some elem → elem ∈ q.queue ∧ elem.Value = txID
  front : q.front = list.headD ""
  popped : q.pop.2 = list.headD ""
  len : q.len = list.length
  contains : ∀ txID, q.contains txID = decide (txID ∈ list)
  isEmpty : q.isEmpty = list.isEmpty

theorem refines_ids (q : TransactionQueue) : Refines q q.ids where
  order := rfl
  nodup := q.nodup_ids
  domain := q.index_isSome_iff
  element := fun txID elem => (q.index_iff txID elem).mp
  front := q.front_eq
  popped := q.pop_eq.2
  len := (length_map _).symm
  contains := fun txID => by
    rw [Bool.eq_iff_iff, contains_iff, decide_eq_true_eq]
  isEmpty := by
    unfold isEmpty ids
    cases q.queue <;> rfl

/-- After any operations on a new queue it stands for the list, in the order of the first
pushes. -/
theorem run_refines (ops : List Operation) : Refines (run ops).1 (run ops).2.1 ∧
      Entered (run ops).2.1 (run ops).2.2.clock (run ops).2.2.enteredAt := by
  suffices h : (run ops).1.ids = (run ops).2.1 ∧
      Entered (run ops).2.1 (run ops).2.2.clock (run ops).2.2.enteredAt by
    refine ⟨?_, h.2⟩
    rw [← h.1]
    exact refines_ids _
  induction ops using List.reverseRecOn with
  | nil => exact ⟨rfl, by simp [run], by simp [run], .nil⟩
  | append_singleton ops op ih =>
    simp only [run, foldl_append, foldl_cons, foldl_nil] at ih ⊢
    exact ⟨(ids_step _ op).trans (by rw [ih.1]), ih.2.step op⟩

end History

end TransactionQueue
end Nezha
