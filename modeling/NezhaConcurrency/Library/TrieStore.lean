import Mathlib

/-! A database of tries over a key-value store. A trie that is committed stays in memory
under its root, until the root itself is committed to the store. What is found under a
root does not depend on where it lies. -/
namespace TrieStore

open Function

variable {Root Trie : Type}

/-- What lies in memory, and what the store below it has. -/
structure Database (Root Trie : Type) where
  dirties : Root → Option Trie
  diskdb : Root → Option Trie

namespace Database

/-- A database over a store, with nothing in memory. -/
def new (diskdb : Root → Option Trie) : Database Root Trie := ⟨fun _ => none, diskdb⟩

/-- What is found under a root. -/
def node (db : Database Root Trie) (root : Root) : Option Trie :=
  (db.dirties root).or (db.diskdb root)

/-- What lies in memory was put there under its own root. -/
def Rooted (rootOf : Trie → Root) (db : Database Root Trie) : Prop :=
  ∀ root trie, db.dirties root = some trie → rootOf trie = root

theorem rooted_new (rootOf : Trie → Root) (diskdb : Root → Option Trie) :
    (new diskdb).Rooted rootOf := nofun

variable [DecidableEq Root] (db : Database Root Trie)

/-- A root that lies in memory already is skipped. -/
def insert (root : Root) (trie : Trie) : Database Root Trie :=
  match db.dirties root with
  | some _ => db
  | none => { db with dirties := update db.dirties root (some trie) }

/-- The trie of a root moves from memory to the store. -/
def Commit (root : Root) : Database Root Trie :=
  match db.dirties root with
  | none => db
  | some trie => ⟨update db.dirties root none, update db.diskdb root (some trie)⟩

variable {db}

section Insert

variable {rootOf : Trie → Root} (hInjective : Function.Injective rootOf) (h : db.Rooted rootOf)

include hInjective h in
theorem dirties_insert_self (trie : Trie) :
    (db.insert (rootOf trie) trie).dirties (rootOf trie) = some trie := by
  unfold insert
  cases hOld : db.dirties (rootOf trie) with
  | none => exact update_self ..
  | some old =>
    -- the trie that is skipped for is the same one
    rw [← hInjective (h _ _ hOld)]
    dsimp only
    rw [h _ _ hOld, hOld]

theorem dirties_insert_of_some {root other : Root} {trie old : Trie}
    (hOld : db.dirties other = some old) : (db.insert root trie).dirties other = some old := by
  unfold insert
  cases hRoot : db.dirties root with
  | some _ => exact hOld
  | none =>
    have hNe : other ≠ root := by
      rintro rfl
      rw [hRoot] at hOld
      cases hOld
    exact (update_of_ne hNe ..).trans hOld

include h in
theorem Rooted.insert (trie : Trie) : (db.insert (rootOf trie) trie).Rooted rootOf := by
  unfold Database.insert
  cases hRoot : db.dirties (rootOf trie) with
  | some _ => exact h
  | none =>
    intro root found hFound
    by_cases hSame : root = rootOf trie
    · subst hSame
      have hFound : update db.dirties _ (some trie) (rootOf trie) = some found := hFound
      rw [update_self] at hFound
      cases hFound
      rfl
    · exact h root found ((update_of_ne hSame ..).symm.trans hFound)

end Insert

theorem node_commit (root : Root) : (db.Commit root).node = db.node := by
  unfold Commit
  cases hRoot : db.dirties root with
  | none => rfl
  | some trie =>
    funext other
    by_cases hSame : other = root
    · subst hSame
      simp [node, hRoot]
    · simp [node, hSame]

theorem dirties_commit_self (root : Root) : (db.Commit root).dirties root = none := by
  unfold Commit
  cases hRoot : db.dirties root with
  | none => exact hRoot
  | some trie => exact update_self ..

theorem dirties_commit_of_none {other : Root} (root : Root) (h : db.dirties other = none) :
    (db.Commit root).dirties other = none := by
  unfold Commit
  cases hRoot : db.dirties root with
  | none => exact h
  | some trie =>
    by_cases hSame : other = root
    · subst hSame
      exact update_self ..
    · exact (update_of_ne hSame ..).trans h

/-- After all roots have been committed, the store has what was found under each. -/
theorem diskdb_commits {roots : List Root} {root : Root} (hRoot : root ∈ roots) :
    (roots.foldl Commit db).diskdb root = db.node root := by
  have hNode : (roots.foldl Commit db).node = db.node :=
    List.foldlRecOn (motive := fun current => current.node = db.node) roots Commit rfl
      fun _ ih other _ => (node_commit other).trans ih
  have hGone : (roots.foldl Commit db).dirties root = none := by
    obtain ⟨earlier, later, rfl⟩ := List.append_of_mem hRoot
    rw [List.foldl_append, List.foldl_cons]
    exact List.foldlRecOn (motive := fun current : Database Root Trie =>
      current.dirties root = none) later Commit (dirties_commit_self root)
      fun _ ih other _ => dirties_commit_of_none other ih
  rw [← hNode, node, hGone, Option.none_or]

end Database

/-- The trie of a root. The empty trie has no node in the store. -/
def resolve [DecidableEq Root] (rootOf : Trie → Root) (empty : Trie) (diskdb : Root → Option Trie)
    (root : Root) : Option Trie :=
  if root = rootOf empty then some empty else diskdb root

section Resolve

variable [DecidableEq Root] {rootOf : Trie → Root} {empty trie : Trie} {diskdb : Root → Option Trie}

@[simp] theorem resolve_empty : resolve rootOf empty diskdb (rootOf empty) = some empty :=
  if_pos rfl

theorem resolve_of_diskdb (hInjective : Function.Injective rootOf)
    (h : diskdb (rootOf trie) = some trie) :
    resolve rootOf empty diskdb (rootOf trie) = some trie := by
  unfold resolve
  split_ifs with hEmpty
  · rw [hInjective hEmpty]
  · exact h

end Resolve

end TrieStore
