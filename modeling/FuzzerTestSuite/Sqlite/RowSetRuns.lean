import FuzzerTestSuite.Sqlite.RowSetSort
import Mathlib.Data.Finset.Basic

/-! What a row set is for.

`Batches` says it without lists, trees and allocations: the rowids inserted before the last change of
the batch number are seen by a test, those inserted since are not. A row set follows it through any
inserts and tests (`rowset_test`), and gives the rowids inserted in increasing order (`rowset_next`). An
allocation that fails may hide a rowid but shows none that was not inserted, and it is on record. -/
namespace FuzzerTestSuite.Sqlite
open Library

/-- The rowids that tests see, those inserted since, and the batch number. -/
structure Batches where
  seen : Finset Int
  fresh : Finset Int
  batch : Int

def Batches.insert (b : Batches) (rowid : Int) : Batches := { b with fresh := Insert.insert rowid b.fresh }

def Batches.change (b : Batches) (iBatch : Int) : Batches :=
  if iBatch ≠ b.batch then ⟨b.seen ∪ b.fresh, ∅, iBatch⟩ else b

/-- The rowids of the forest. -/
def forest (p : RowSet) : Set Int := BinaryCounter.content (fun t => rowids (SearchTree.inorder t)) p.pForest

/-- The row set sees no more than it should, and if no allocation has failed it sees that. -/
structure Follows (p : RowSet) (b : Batches) : Prop where
  next : p.next = false
  last : p.pLast = p.pEntry.getLast?
  sorted : p.sorted = true → Increasing p.pEntry
  trees : ∀ t, some t ∈ p.pForest → Increasing (SearchTree.inorder t)
  batch : p.iBatch = b.batch
  seen : forest p ⊆ b.seen
  fresh : rowids p.pEntry ⊆ b.fresh
  all : p.db.mallocFailed = false → forest p = b.seen ∧ rowids p.pEntry = b.fresh

theorem follows_init (db : Db) (nFresh : Nat) : Follows (sqlite3RowSetInit db nFresh) ⟨∅, ∅, 0⟩ := by
  have hforest : forest (sqlite3RowSetInit db nFresh) = ∅ := BinaryCounter.content_nil _
  refine ⟨rfl, rfl, fun _ => List.Pairwise.nil, fun t ht => absurd ht List.not_mem_nil, rfl, ?_, ?_, fun _ => ?_⟩
  · rw [hforest, Finset.coe_empty]
  · rw [Finset.coe_empty]
    exact rowids_nil.subset
  · rw [hforest, Finset.coe_empty]
    exact ⟨rfl, rowids_nil⟩

/-! ### Insert -/

/-- An allocation changes the pool and the connection only, and a failure is on record. -/
theorem alloc_cases (p : RowSet) :
    ∃ ok nChunk db nFresh, rowSetEntryAlloc p = (ok, { p with nChunk, db, nFresh }) ∧
      (db.mallocFailed = false → p.db.mallocFailed = false ∧ ok = true) := by
  unfold rowSetEntryAlloc
  split
  · split
    · exact ⟨true, _, _, _, rfl, fun h => ⟨h, rfl⟩⟩
    · exact ⟨false, p.nChunk, _, p.nFresh, rfl, fun h => by cases h⟩
  · exact ⟨true, p.nChunk, p.db, _, rfl, fun h => ⟨h, rfl⟩⟩

theorem rowids_append (l : List Int) (v : Int) : rowids (l ++ [v]) = insert v (rowids l) := by
  ext w
  simp [rowids, or_comm]

/-- An entry after the last, larger than it, keeps the order. -/
theorem increasing_concat {l : List Int} (h : Increasing l) {v w : Int} (hlast : l.getLast? = some v) (hlt : v < w) :
    Increasing (l ++ [w]) := by
  obtain ⟨l, rfl⟩ := List.getLast?_eq_some_iff.mp hlast
  refine List.pairwise_append.mpr ⟨h, List.pairwise_singleton _ w, fun x hx y hy => ?_⟩
  obtain rfl := List.mem_singleton.mp hy
  rcases List.mem_append.mp hx with hx | hx
  · exact Int.lt_trans ((List.pairwise_append.mp h).2.2 x hx v (List.mem_singleton_self v)) hlt
  · obtain rfl := List.mem_singleton.mp hx
    exact hlt

theorem Follows.insert {p : RowSet} {b : Batches} (h : Follows p b) (rowid : Int) :
    Follows (sqlite3RowSetInsert p rowid) (b.insert rowid) ∧
      ((sqlite3RowSetInsert p rowid).db.mallocFailed = false → p.db.mallocFailed = false) := by
  obtain ⟨ok, nChunk, db, nFresh, halloc, hdb⟩ := alloc_cases p
  have hsub : (b.fresh : Set Int) ⊆ (b.insert rowid).fresh := by
    rw [Batches.insert, Finset.coe_insert]
    exact Set.subset_insert _ _
  rw [sqlite3RowSetInsert, halloc]
  cases ok with
  | false =>
    refine ⟨⟨h.next, h.last, h.sorted, h.trees, h.batch, h.seen, h.fresh.trans hsub, fun hfail => ?_⟩, ?_⟩
    · cases (hdb hfail).2
    · exact fun hfail => (hdb hfail).1
  | true =>
    -- the list is the same with the rowid at its end, whether there was a last entry or not
    have hlist (sorted : Bool) (hsorted : sorted = true → Increasing (p.pEntry ++ [rowid])) :
        Follows { p with nChunk, db, nFresh, sorted, pEntry := p.pEntry ++ [rowid], pLast := some rowid }
          (b.insert rowid) := by
      refine ⟨h.next, List.getLast?_concat.symm, hsorted, h.trees, h.batch, h.seen, ?_, fun hfail => ?_⟩
      · rw [rowids_append, Batches.insert, Finset.coe_insert]
        exact Set.insert_subset_insert h.fresh
      · obtain ⟨hseen, hfresh⟩ := h.all (hdb hfail).1
        refine ⟨hseen, ?_⟩
        rw [rowids_append, Batches.insert, Finset.coe_insert, hfresh]
    cases hlast : p.pLast with
    | none =>
      have hnil : p.pEntry = [] := List.getLast?_eq_none_iff.mp (h.last.symm.trans hlast)
      have hsorted := hlist p.sorted fun _ => by rw [hnil]; exact List.pairwise_singleton _ rowid
      rw [hnil] at hsorted
      exact ⟨hsorted, fun hfail => (hdb hfail).1⟩
    | some v =>
      refine ⟨hlist _ fun hflag => ?_, fun hfail => (hdb hfail).1⟩
      obtain ⟨hflag, hle⟩ := Bool.and_eq_true_iff.mp hflag
      have hlt : v < rowid := by simpa using hle
      exact increasing_concat (h.sorted hflag) (h.last.symm.trans hlast) hlt

/-! ### Test -/

/-- The trees of a forest, from left to right. -/
abbrev treeRowids (t : BinaryTree Int) : Set Int := rowids (SearchTree.inorder t)

theorem content_append {c : BinaryTree Int → Set Int} (slots : List (Option (BinaryTree Int))) (t : BinaryTree Int) :
    BinaryCounter.content c (slots ++ [some t]) = BinaryCounter.content c slots ∪ c t := by
  induction slots with
  | nil =>
    rw [List.nil_append, BinaryCounter.content_cons, BinaryCounter.content_nil, Set.union_comm]
    rfl
  | cons slot slots ih =>
    rw [List.cons_append, BinaryCounter.content_cons, BinaryCounter.content_cons, ih, Set.union_assoc]

/-- A list goes into the forest whole, unless an allocation fails. -/
theorem addTree_spec {p : RowSet} (htrees : ∀ t, some t ∈ p.pForest → Increasing (SearchTree.inorder t))
    {pList : List Int} (hsorted : Increasing pList) :
    (∀ t, some t ∈ (addTree p pList).pForest → Increasing (SearchTree.inorder t)) ∧
      forest (addTree p pList) ⊆ forest p ∪ rowids pList ∧ (addTree p pList).next = p.next ∧
      ((addTree p pList).db.mallocFailed = false →
        p.db.mallocFailed = false ∧ forest (addTree p pList) = forest p ∪ rowids pList) := by
  have hjoin (t : BinaryTree Int) (l : List Int) (ht : Increasing (SearchTree.inorder t)) (hl : Increasing l) :
      Increasing (joinTree t l) := merge_increasing ht hl
  have hstore (l : List Int) (hl : Increasing l) : Increasing (SearchTree.inorder (rowSetListToTree l)) := by
    rwa [listToTree_inorder]
  have hcontent := @BinaryCounter.add_content _ _ _ joinTree rowSetListToTree treeRowids rowids
    (fun t l => rowids_merge (SearchTree.inorder t) l) (fun l => congrArg rowids (listToTree_inorder l)) p.pForest pList
  obtain ⟨hslots, hcarried⟩ := BinaryCounter.add_forall hjoin hstore htrees hsorted
  unfold addTree
  cases hadd : BinaryCounter.add joinTree rowSetListToTree p.pForest pList with
  | mk pForest carry =>
    rw [hadd] at hslots hcarried hcontent
    cases carry with
    | none =>
      rw [BinaryCounter.contentOf, Set.union_empty] at hcontent
      exact ⟨hslots, hcontent.subset, rfl, fun hfail => ⟨hfail, hcontent⟩⟩
    | some rest =>
      obtain ⟨ok, nChunk, db, nFresh, halloc, hdb⟩ := alloc_cases { p with pForest }
      simp only [halloc]
      rw [BinaryCounter.contentOf] at hcontent
      cases ok with
      | false =>
        refine ⟨hslots, Set.subset_union_left.trans hcontent.subset, rfl, fun hfail => ?_⟩
        cases (hdb hfail).2
      | true =>
        have hforest : BinaryCounter.content treeRowids (pForest ++ [some (rowSetListToTree rest)]) =
            forest p ∪ rowids pList := by
          rw [content_append, treeRowids, listToTree_inorder]
          exact hcontent
        refine ⟨fun t ht => ?_, hforest.subset, rfl, fun hfail => ⟨(hdb hfail).1, hforest⟩⟩
        rcases List.mem_append.mp ht with ht | ht
        · exact hslots t ht
        · cases List.mem_singleton.mp ht
          exact hstore rest (hcarried rest rfl)

theorem sortedEntries_spec {p : RowSet} (hsorted : p.sorted = true → Increasing p.pEntry)
    (hroom : p.pEntry.length < 2 ^ 40) :
    ∃ l, sortedEntries p = some l ∧ Increasing l ∧ rowids l = rowids p.pEntry := by
  unfold sortedEntries
  split
  · rename_i hflag
    exact ⟨p.pEntry, rfl, hsorted hflag, rfl⟩
  · exact rowSetEntrySort_spec hroom

/-- The first test of a batch shows the rowids inserted until then. -/
theorem Follows.showFresh {p : RowSet} {b : Batches} (h : Follows p b) (hroom : p.pEntry.length < 2 ^ 40) (iBatch : Int) :
    ∃ p', newBatch p iBatch = some p' ∧ Follows p' ⟨b.seen ∪ b.fresh, ∅, iBatch⟩ ∧ p'.pEntry = [] ∧
      (p'.db.mallocFailed = false → p.db.mallocFailed = false) := by
  unfold newBatch
  by_cases hnil : p.pEntry = []
  · rw [if_pos hnil]
    refine ⟨{ p with iBatch }, rfl, ⟨h.next, h.last, h.sorted, h.trees, rfl, ?_, ?_, fun hfail => ?_⟩, hnil, id⟩
    · rw [Finset.coe_union]
      exact h.seen.trans Set.subset_union_left
    · show rowids p.pEntry ⊆ _
      rw [hnil, rowids_nil]
      exact Set.empty_subset _
    · obtain ⟨hseen, hfresh⟩ := h.all hfail
      rw [hnil, rowids_nil] at hfresh
      rw [Finset.coe_union, Finset.coe_empty, ← hfresh, Set.union_empty]
      refine ⟨hseen, ?_⟩
      show rowids p.pEntry = ∅
      rw [hnil, rowids_nil]
  · rw [if_neg hnil]
    obtain ⟨pList, hpList, hsorted, hrowids⟩ := sortedEntries_spec h.sorted hroom
    obtain ⟨htrees, hsub, hnext, hall⟩ := addTree_spec h.trees hsorted
    rw [hrowids] at hsub hall
    rw [hpList]
    refine ⟨{ addTree p pList with pEntry := [], pLast := none, sorted := true, iBatch }, rfl,
      ⟨hnext.trans h.next, rfl, fun _ => List.Pairwise.nil, htrees, rfl, ?_, ?_, fun hfail => ?_⟩, rfl,
      fun hfail => (hall hfail).1⟩
    · rw [Finset.coe_union]
      exact hsub.trans (Set.union_subset_union h.seen h.fresh)
    · show rowids [] ⊆ _
      rw [rowids_nil]
      exact Set.empty_subset _
    · obtain ⟨hfail, hforest⟩ := hall hfail
      obtain ⟨hseen, hfresh⟩ := h.all hfail
      rw [Finset.coe_union, Finset.coe_empty, ← hseen, ← hfresh]
      exact ⟨hforest, rowids_nil⟩

theorem found_iff {p : RowSet} (htrees : ∀ t, some t ∈ p.pForest → Increasing (SearchTree.inorder t)) (iRowid : Int) :
    (p.pForest.any fun
      | none => false
      | some pLeft => SearchTree.find iRowid pLeft) = true ↔ iRowid ∈ forest p := by
  rw [List.any_eq_true]
  constructor
  · intro h
    obtain ⟨slot, hslot, hfind⟩ := h
    cases slot with
    | none => cases hfind
    | some t => exact ⟨t, hslot, (SearchTree.find_iff (htrees t hslot)).mp hfind⟩
  · intro h
    obtain ⟨t, ht, hmem⟩ := h
    exact ⟨some t, ht, (SearchTree.find_iff (htrees t ht)).mpr hmem⟩

theorem Follows.test {p : RowSet} {b : Batches} (h : Follows p b) (hroom : p.pEntry.length < 2 ^ 40)
    (iBatch iRowid : Int) :
    ∃ p' found, sqlite3RowSetTest p iBatch iRowid = some (p', found) ∧ Follows p' (b.change iBatch) ∧
      p'.pEntry.length ≤ p.pEntry.length ∧ (found = true → iRowid ∈ (b.change iBatch).seen) ∧
      (p'.db.mallocFailed = false →
        p.db.mallocFailed = false ∧ found = decide (iRowid ∈ (b.change iBatch).seen)) := by
  have hchange : ∃ p', (if iBatch ≠ p.iBatch then newBatch p iBatch else some p) = some p' ∧
      Follows p' (b.change iBatch) ∧ p'.pEntry.length ≤ p.pEntry.length ∧
      (p'.db.mallocFailed = false → p.db.mallocFailed = false) := by
    rw [Batches.change, h.batch]
    split
    · obtain ⟨p', hp', hfollows, hnil, hfail⟩ := h.showFresh hroom iBatch
      exact ⟨p', hp', hfollows, hnil ▸ Nat.zero_le _, hfail⟩
    · exact ⟨p, rfl, h, Nat.le_refl _, id⟩
  obtain ⟨p', hp', hfollows, hlen, hfail⟩ := hchange
  have hfound := found_iff hfollows.trees iRowid
  refine ⟨p', _, ?_, hfollows, hlen, fun h => hfollows.seen (hfound.mp h), fun hok => ⟨hfail hok, ?_⟩⟩
  · rw [sqlite3RowSetTest, hp']
    rfl
  · rw [Bool.eq_iff_iff, hfound, (hfollows.all hok).1, decide_eq_true_iff, Finset.mem_coe]

/-! ### Runs of inserts and tests -/

inductive RowSetOp where
  | insert (rowid : Int)
  | test (iBatch iRowid : Int)

/-- The set after the operations, and the answers to the tests. -/
def runOps : RowSet → List RowSetOp → Option (RowSet × List Bool)
  | p, [] => some (p, [])
  | p, .insert rowid :: ops => runOps (sqlite3RowSetInsert p rowid) ops
  | p, .test iBatch iRowid :: ops => do
    let (p, found) ← sqlite3RowSetTest p iBatch iRowid
    let (p, answers) ← runOps p ops
    return (p, found :: answers)

/-- The answers that the operations should have. -/
def Batches.answers : Batches → List RowSetOp → List Bool
  | _, [] => []
  | b, .insert rowid :: ops => (b.insert rowid).answers ops
  | b, .test iBatch iRowid :: ops =>
    decide (iRowid ∈ (b.change iBatch).seen) :: (b.change iBatch).answers ops

theorem insert_length (p : RowSet) (rowid : Int) :
    (sqlite3RowSetInsert p rowid).pEntry.length ≤ p.pEntry.length + 1 := by
  obtain ⟨ok, nChunk, db, nFresh, halloc, -⟩ := alloc_cases p
  rw [sqlite3RowSetInsert, halloc]
  cases ok with
  | false => exact Nat.le_succ _
  | true =>
    cases p.pLast with
    | none => exact Nat.le_add_left _ _
    | some v => exact (List.length_append).le

theorem Follows.run {p : RowSet} {b : Batches} (h : Follows p b) {ops : List RowSetOp}
    (hroom : p.pEntry.length + ops.length < 2 ^ 40) :
    ∃ p' answers, runOps p ops = some (p', answers) ∧
      List.Forall₂ (fun found answer => found = true → answer = true) answers (b.answers ops) ∧
      (p'.db.mallocFailed = false → p.db.mallocFailed = false ∧ answers = b.answers ops) := by
  induction ops generalizing p b with
  | nil => exact ⟨p, [], rfl, .nil, fun hok => ⟨hok, rfl⟩⟩
  | cons op ops ih =>
    rw [List.length_cons] at hroom
    cases op with
    | insert rowid =>
      obtain ⟨hfollows, hfail⟩ := h.insert rowid
      have hlen := insert_length p rowid
      obtain ⟨p', answers, hrun, hshown, hall⟩ := ih hfollows (by omega)
      exact ⟨p', answers, hrun, hshown, fun hok => ⟨hfail (hall hok).1, (hall hok).2⟩⟩
    | test iBatch iRowid =>
      obtain ⟨p₁, found, htest, hfollows, hlen, hseen, hexact⟩ := h.test (by omega) iBatch iRowid
      obtain ⟨p', answers, hrun, hshown, hall⟩ := ih hfollows (by omega)
      refine ⟨p', found :: answers, ?_, .cons (fun h => decide_eq_true (hseen h)) hshown, fun hok => ?_⟩
      · rw [runOps, htest]
        simp only [Option.bind_eq_bind, Option.bind_some, hrun]
        rfl
      · obtain ⟨hok, hanswers⟩ := hall hok
        obtain ⟨hok, hfound⟩ := hexact hok
        refine ⟨hok, ?_⟩
        rw [Batches.answers, hfound, hanswers]

/-- The rowids got by a number of calls of `sqlite3RowSetNext`. -/
def nexts : Nat → RowSet → Option (RowSet × List (Option Int))
  | 0, p => some (p, [])
  | n + 1, p => do
    let (p, v) ← sqlite3RowSetNext p
    let (p, vs) ← nexts n p
    return (p, v :: vs)

/-- The rowids still to come. All memory is given back with the last one. -/
def Reads (p : RowSet) (rest : List Int) : Prop :=
  ∃ q, startNext p = some q ∧ q.next = true ∧ q.pEntry = rest ∧ (rest = [] → p.nChunk = 0 ∧ q.nChunk = 0)

theorem Reads.next {p : RowSet} {v : Int} {rest : List Int} (h : Reads p (v :: rest)) :
    ∃ p', sqlite3RowSetNext p = some (p', some v) ∧ Reads p' rest := by
  obtain ⟨q, hq, hnext, hentry, -⟩ := h
  rw [sqlite3RowSetNext, hq]
  simp only [Option.bind_eq_bind, Option.bind_some, hentry]
  cases rest with
  | nil => exact ⟨_, rfl, _, rfl, rfl, rfl, fun _ => ⟨rfl, rfl⟩⟩
  | cons w rest => exact ⟨_, rfl, _, if_pos hnext, hnext, rfl, fun h => by cases h⟩

theorem Reads.done {p : RowSet} (h : Reads p []) : ∃ p', sqlite3RowSetNext p = some (p', none) ∧ Reads p' [] := by
  obtain ⟨q, hq, hnext, hentry, hchunk⟩ := h
  rw [sqlite3RowSetNext, hq]
  simp only [Option.bind_eq_bind, Option.bind_some, hentry]
  exact ⟨q, rfl, q, if_pos hnext, hnext, hentry, fun h => ⟨(hchunk h).2, (hchunk h).2⟩⟩

theorem Reads.nexts {p : RowSet} {rest : List Int} (h : Reads p rest) (n : Nat) :
    ∃ p', nexts n p = some (p', (rest.map some ++ List.replicate n none).take n) ∧ Reads p' (rest.drop n) := by
  induction n generalizing p rest with
  | zero => exact ⟨p, rfl, h⟩
  | succ n ih =>
    cases rest with
    | nil =>
      obtain ⟨p', hnext, hreads⟩ := h.done
      obtain ⟨p'', hnexts, hreads⟩ := ih hreads
      refine ⟨p'', ?_, by rwa [List.drop_nil] at hreads ⊢⟩
      rw [Sqlite.nexts, hnext]
      simp only [Option.bind_eq_bind, Option.bind_some, hnexts]
      rfl
    | cons v rest =>
      obtain ⟨p', hnext, hreads⟩ := h.next
      obtain ⟨p'', hnexts, hreads⟩ := ih hreads
      refine ⟨p'', ?_, hreads⟩
      have htake : (rest.map some ++ List.replicate (n + 1) none).take n =
          (rest.map some ++ List.replicate n none).take n := by
        rw [List.take_append, List.take_append, List.take_replicate, List.take_replicate]
        congr 2
        omega
      rw [Sqlite.nexts, hnext]
      simp only [Option.bind_eq_bind, Option.bind_some, hnexts, List.map_cons, List.cons_append, List.take_succ_cons,
        htake]
      rfl

theorem insert_chunk {p : RowSet} (hchunk : p.pEntry = [] → p.nChunk = 0) (rowid : Int) :
    (sqlite3RowSetInsert p rowid).pEntry = [] → (sqlite3RowSetInsert p rowid).nChunk = 0 := by
  unfold sqlite3RowSetInsert rowSetEntryAlloc
  by_cases hfresh : p.nFresh = 0
  · cases hmem : p.db.mem 0 with
    | false =>
      simp only [hfresh, if_true, Bool.false_eq_true, if_false]
      exact hchunk
    | true =>
      simp only [hfresh, if_true]
      cases p.pLast with
      | none => exact fun h => by cases h
      | some v => exact fun h => absurd h (List.append_ne_nil_of_right_ne_nil _ (List.cons_ne_nil _ _))
  · simp only [if_neg hfresh]
    cases p.pLast with
    | none => exact fun h => by cases h
    | some v => exact fun h => absurd h (List.append_ne_nil_of_right_ne_nil _ (List.cons_ne_nil _ _))

theorem Follows.inserts {p : RowSet} {b : Batches} (h : Follows p b) (hchunk : p.pEntry = [] → p.nChunk = 0)
    (l : List Int) :
    Follows (l.foldl sqlite3RowSetInsert p) (l.foldl Batches.insert b) ∧
      ((l.foldl sqlite3RowSetInsert p).pEntry = [] → (l.foldl sqlite3RowSetInsert p).nChunk = 0) ∧
      (l.foldl sqlite3RowSetInsert p).pEntry.length ≤ p.pEntry.length + l.length := by
  induction l generalizing p b with
  | nil => exact ⟨h, hchunk, Nat.le_refl _⟩
  | cons v l ih =>
    obtain ⟨hfollows, hchunk', hlen⟩ := ih (h.insert v).1 (insert_chunk hchunk v)
    have hone := insert_length p v
    refine ⟨hfollows, hchunk', Nat.le_trans hlen ?_⟩
    rw [List.length_cons]
    omega

theorem mem_inserts (l : List Int) (b : Batches) (v : Int) : v ∈ (l.foldl Batches.insert b).fresh ↔ v ∈ l ∨ v ∈ b.fresh := by
  induction l generalizing b with
  | nil => simp
  | cons w l ih =>
    rw [List.foldl_cons, ih, Batches.insert, Finset.mem_insert, List.mem_cons]
    tauto

theorem inserts_seen (l : List Int) (b : Batches) : (l.foldl Batches.insert b).seen = b.seen := by
  induction l generalizing b with
  | nil => rfl
  | cons w l ih => exact ih (b.insert w)

theorem inserts_batch (l : List Int) (b : Batches) : (l.foldl Batches.insert b).batch = b.batch := by
  induction l generalizing b with
  | nil => rfl
  | cons w l ih => exact ih (b.insert w)

end FuzzerTestSuite.Sqlite
