import FuzzerTestSuite.Library.BinaryCounter
import FuzzerTestSuite.Library.SearchTree
import FuzzerTestSuite.Sqlite.Malloc

/-! SQLite's row sets.

A `RowSet` collects rowids. Inserted ones go on a list; a test with a new batch number sorts the list,
without duplicates, into a forest of search trees, where a tree is merged with the next one when its
place is taken. Otherwise the rowids are taken out again from the smallest on.

A list of entries is the list of their rowids and a null pointer the empty one. Rowids are only
compared. A loop that runs past the end of `aBucket` is `none`. -/
namespace FuzzerTestSuite.Sqlite
open Library

/-- What an allocation changes in the connection. -/
structure Db where
  mem : Malloc
  mallocFailed : Bool

structure RowSet where
  /-- How many chunks `pChunk` lists. -/
  nChunk : Nat
  db : Db
  pEntry : List Int
  /-- The rowid of the last entry. -/
  pLast : Option Int
  nFresh : Nat
  /-- The trees of the forest, of which some places may be free. -/
  pForest : List (Option (BinaryTree Int))
  /-- `ROWSET_SORTED` -/
  sorted : Bool
  /-- `ROWSET_NEXT` -/
  next : Bool
  iBatch : Int

def ROWSET_ENTRY_PER_CHUNK : Nat := (1024 - 8) / 24

def sqlite3RowSetInit (db : Db) (nFresh : Nat) : RowSet := ⟨0, db, [], none, nFresh, [], true, false, 0⟩

def sqlite3RowSetClear (p : RowSet) : RowSet :=
  { p with nChunk := 0, nFresh := 0, pEntry := [], pLast := none, pForest := [], sorted := true, next := false }

/-- Whether there is a new entry, and the set without it in its pool. -/
def rowSetEntryAlloc (p : RowSet) : Bool × RowSet :=
  if p.nFresh = 0 then
    if p.db.mem 0 then
      (true, { p with
        nChunk := p.nChunk + 1, db := { p.db with mem := p.db.mem.later }, nFresh := ROWSET_ENTRY_PER_CHUNK - 1 })
    else (false, { p with db := ⟨p.db.mem.later, true⟩ })
  else (true, { p with nFresh := p.nFresh - 1 })

def sqlite3RowSetInsert (p : RowSet) (rowid : Int) : RowSet :=
  match rowSetEntryAlloc p with
  | (false, p) => p
  | (true, p) =>
    match p.pLast with
    | some v =>
      { p with sorted := p.sorted && !decide (rowid ≤ v), pEntry := p.pEntry ++ [rowid], pLast := some rowid }
    | none => { p with pEntry := [rowid], pLast := some rowid }

/-! ### Sorting -/

def rowSetEntryMerge : List Int → List Int → List Int
  | [], pB => pB
  | pA, [] => pA
  | a :: pA, b :: pB =>
    if a ≤ b then
      if a < b then a :: rowSetEntryMerge pA (b :: pB) else rowSetEntryMerge pA (b :: pB)
    else b :: rowSetEntryMerge (a :: pA) pB
termination_by pA pB => pA.length + pB.length

/-- An entry goes into the first free bucket, merged with those before. -/
def addBucket (aBucket : List (Option (List Int))) (rowid : Int) : Option (List (Option (List Int))) :=
  let (aBucket, carry) := BinaryCounter.add rowSetEntryMerge id aBucket [rowid]
  if carry.isSome then none else some aBucket

/-- One more bucket merged with those before it. -/
def mergeBucket (pIn : List Int) : Option (List Int) → List Int
  | none => pIn
  | some bucket => if pIn = [] then bucket else rowSetEntryMerge pIn bucket

def rowSetEntrySort (pIn : List Int) : Option (List Int) := do
  let aBucket ← pIn.foldlM addBucket (List.replicate 40 none)
  return aBucket.foldl mergeBucket []

/-! ### Trees -/

def rowSetTreeToList : BinaryTree Int → List Int := SearchTree.inorder

/-- The tree, and what is left of the list. -/
def rowSetNDeepTree : Nat → List Int → BinaryTree Int × List Int
  | _, [] => (.nil, [])
  | iDepth + 2, pList =>
    match rowSetNDeepTree (iDepth + 1) pList with
    | (pLeft, []) => (pLeft, [])
    | (pLeft, v :: pList) =>
      let (pRight, pList) := rowSetNDeepTree (iDepth + 1) pList
      (.node v pLeft pRight, pList)
  | _, v :: pList => (.node v .nil .nil, pList)

/-- The entries of a list are those of the tree, then the rest. -/
theorem nDeepTree_inorder (iDepth : Nat) (pList : List Int) :
    SearchTree.inorder (rowSetNDeepTree iDepth pList).1 ++ (rowSetNDeepTree iDepth pList).2 = pList := by
  induction iDepth, pList using rowSetNDeepTree.induct with
  | case1 iDepth =>
    rw [rowSetNDeepTree]
    rfl
  | case2 iDepth pList hne pLeft hleft ih =>
    rw [rowSetNDeepTree.eq_2 _ _ hne, hleft]
    rwa [hleft] at ih
  | case3 iDepth pList hne pLeft v later hleft pRight later' hright ihl ihr =>
    rw [rowSetNDeepTree.eq_2 _ _ hne, hleft]
    simp only [hleft, hright] at ihl ihr ⊢
    rw [SearchTree.inorder, List.append_assoc, List.cons_append, ihr, ihl]
  | case4 iDepth v pList hne =>
    rw [rowSetNDeepTree.eq_3 _ _ _ hne]
    rfl

theorem nDeepTree_length (iDepth : Nat) (pList : List Int) :
    (rowSetNDeepTree iDepth pList).2.length ≤ pList.length := by
  have h := congrArg List.length (nDeepTree_inorder iDepth pList)
  rw [List.length_append] at h
  omega

/-- The loop of `rowSetListToTree`. -/
def treeLoop (iDepth : Nat) (p : BinaryTree Int) : List Int → BinaryTree Int
  | [] => p
  | v :: pList =>
    treeLoop (iDepth + 1) (.node v p (rowSetNDeepTree iDepth pList).1) (rowSetNDeepTree iDepth pList).2
termination_by pList => pList.length
decreasing_by exact Nat.lt_succ_of_le (nDeepTree_length iDepth pList)

def rowSetListToTree : List Int → BinaryTree Int
  | [] => .nil
  | v :: pList => treeLoop 1 (.node v .nil .nil) pList

/-! ### Next and Test -/

/-- The entries, sorted if they need it. -/
def sortedEntries (p : RowSet) : Option (List Int) :=
  if p.sorted then some p.pEntry else rowSetEntrySort p.pEntry

/-- The first call of `sqlite3RowSetNext` sorts the entries. -/
def startNext (p : RowSet) : Option RowSet :=
  if p.next then some p
  else (sortedEntries p).map fun pEntry => { p with pEntry, sorted := true, next := true }

def sqlite3RowSetNext (p : RowSet) : Option (RowSet × Option Int) := do
  let p ← startNext p
  match p.pEntry with
  | [] => some (p, none)
  | [v] => some (sqlite3RowSetClear p, some v)
  | v :: pEntry => some ({ p with pEntry }, some v)

/-- A tree taken out of the forest and merged with the new entries. -/
def joinTree (pLeft : BinaryTree Int) (pList : List Int) : List Int :=
  rowSetEntryMerge (rowSetTreeToList pLeft) pList

/-- The new entries as a tree of the forest. -/
def addTree (p : RowSet) (pList : List Int) : RowSet :=
  match BinaryCounter.add joinTree rowSetListToTree p.pForest pList with
  | (pForest, none) => { p with pForest }
  | (pForest, some pList) =>
    match rowSetEntryAlloc { p with pForest } with
    | (true, p) => { p with pForest := p.pForest ++ [some (rowSetListToTree pList)] }
    | (false, p) => p

/-- The first test of a new batch. -/
def newBatch (p : RowSet) (iBatch : Int) : Option RowSet :=
  if p.pEntry = [] then some { p with iBatch }
  else (sortedEntries p).map fun pList =>
    { addTree p pList with pEntry := [], pLast := none, sorted := true, iBatch }

def sqlite3RowSetTest (p : RowSet) (iBatch iRowid : Int) : Option (RowSet × Bool) :=
  (if iBatch ≠ p.iBatch then newBatch p iBatch else some p).map fun p =>
    (p, p.pForest.any fun
      | none => false
      | some pLeft => SearchTree.find iRowid pLeft)

/-! ### The opcodes -/

/-- The set after the opcode, and whether it jumps. -/
def OP_RowSetTest (p : RowSet) (iSet iRowid : Int) : Option (RowSet × Bool) :=
  (if iSet ≠ 0 then sqlite3RowSetTest p iSet iRowid else some (p, false)).map fun (p, exist) =>
    if exist then (p, true)
    else if iSet ≥ 0 then (sqlite3RowSetInsert p iRowid, false)
    else (p, false)

end FuzzerTestSuite.Sqlite
