import FuzzerTestSuite.Sqlite.RowSetRuns

/-! What a row set's test has to search.

The places of the forest that are taken count the batches in binary, and a tree is no higher than its
rowids make it. So after any run a search looks into at most log₂ of the tests many trees, of at most
log₂ of the inserts many levels each (`rowset_cost`), also where allocations fail. What the test that
starts a batch does to join trees is not counted here. -/
namespace FuzzerTestSuite.Sqlite
open Library

variable {pForest : List (Option (BinaryTree Int))} {pending nInsert nTest : Nat}

/-- The bounds on a forest, with a number of entries on the list, after a number of inserts and tests. -/
structure Bounded (pForest : List (Option (BinaryTree Int))) (pending nInsert nTest : Nat) : Prop where
  count : BinaryCounter.value pForest ≤ nTest
  places : 2 ^ pForest.length ≤ 2 * nTest ∨ pForest = []
  weight : BinaryCounter.weight BinaryTree.numNodes pForest + pending ≤ nInsert
  height : ∀ t, some t ∈ pForest → t.height ≤ Nat.log 2 t.numNodes + 1

theorem Bounded.mono (h : Bounded pForest pending nInsert nTest) {pending' nInsert' nTest' : Nat}
    (hinsert : pending' + nInsert ≤ pending + nInsert') (htest : nTest ≤ nTest') :
    Bounded pForest pending' nInsert' nTest' := by
  have hweight := h.weight
  exact ⟨Nat.le_trans h.count htest, h.places.imp_left fun hle => by omega, by omega, h.height⟩

/-- An increasing list of rowids of another is no longer. -/
theorem increasing_length {l l' : List Int} (h : Increasing l) (hsub : rowids l ⊆ rowids l') : l.length ≤ l'.length :=
  (List.subperm_of_subset (h.imp fun hlt => Int.ne_of_lt hlt) hsub).length_le

theorem listToTree_numNodes (pList : List Int) : (rowSetListToTree pList).numNodes = pList.length := by
  rw [← SearchTree.length_inorder, listToTree_inorder]

theorem listToTree_fits (l : List Int) :
    (rowSetListToTree l).height ≤ Nat.log 2 (rowSetListToTree l).numNodes + 1 := by
  rw [listToTree_numNodes]
  exact listToTree_height l

theorem joinTree_length (t : BinaryTree Int) (l : List Int) : (joinTree t l).length ≤ t.numNodes + l.length := by
  rw [← SearchTree.length_inorder]
  exact merge_length _ _

theorem addTree_bounded {p : RowSet} (h : Bounded p.pForest p.pEntry.length nInsert nTest) {pList : List Int}
    (hlen : pList.length ≤ p.pEntry.length) : Bounded (addTree p pList).pForest 0 nInsert (nTest + 1) := by
  have hweight := BinaryCounter.add_weight joinTree_length (fun l => (listToTree_numNodes l).le) p.pForest pList
  have hvalue := BinaryCounter.value_step joinTree rowSetListToTree p.pForest pList
  have hlength := BinaryCounter.length_add joinTree rowSetListToTree p.pForest pList
  have hheight := (@BinaryCounter.add_forall _ _ joinTree rowSetListToTree
    (fun t => t.height ≤ Nat.log 2 t.numNodes + 1) (fun _ => True) (fun _ _ _ _ => trivial) (fun l _ => listToTree_fits l)
    p.pForest h.height pList trivial).1
  have hroom := h.weight
  have hcount := h.count
  have hlt := BinaryCounter.value_lt p.pForest
  unfold addTree
  cases hadd : BinaryCounter.add joinTree rowSetListToTree p.pForest pList with
  | mk pForest carry =>
    rw [hadd] at hweight hvalue hlength hheight
    simp only at hweight hvalue hlength hheight
    have hplaces : 2 ^ pForest.length ≤ 2 * (nTest + 1) ∨ pForest = [] := by
      rw [hlength, ← List.length_eq_zero_iff, hlength, List.length_eq_zero_iff]
      exact h.places.imp_left fun hle => by omega
    cases carry with
    | none =>
      rw [Option.elim_none] at hweight
      rw [Option.isSome_none, if_neg Bool.false_ne_true] at hvalue
      show Bounded pForest 0 nInsert (nTest + 1)
      exact ⟨by omega, hplaces, by omega, hheight⟩
    | some rest =>
      rw [Option.elim_some] at hweight
      rw [Option.isSome_some, if_pos rfl] at hvalue
      obtain ⟨ok, nChunk, db, nFresh, halloc, -⟩ := alloc_cases { p with pForest }
      simp only [halloc]
      cases ok with
      | false =>
        show Bounded pForest 0 nInsert (nTest + 1)
        exact ⟨by omega, hplaces, by omega, hheight⟩
      | true =>
        -- every place was taken, so that there have been as many batches as there are numbers below the new place
        show Bounded (pForest ++ [some (rowSetListToTree rest)]) 0 nInsert (nTest + 1)
        refine ⟨?_, .inl ?_, ?_, fun t ht => ?_⟩
        · rw [BinaryCounter.value_concat, hlength]
          omega
        · rw [List.length_append, List.length_singleton, Nat.pow_succ, hlength]
          omega
        · rw [BinaryCounter.weight_concat, listToTree_numNodes]
          omega
        · rcases List.mem_append.mp ht with ht | ht
          · exact hheight t ht
          · cases List.mem_singleton.mp ht
            exact listToTree_fits rest

theorem insert_bounded {p : RowSet} (h : Bounded p.pForest p.pEntry.length nInsert nTest) (rowid : Int) :
    Bounded (sqlite3RowSetInsert p rowid).pForest (sqlite3RowSetInsert p rowid).pEntry.length (nInsert + 1) nTest := by
  have hlen := insert_length p rowid
  have hforest : (sqlite3RowSetInsert p rowid).pForest = p.pForest := by
    obtain ⟨ok, nChunk, db, nFresh, halloc, -⟩ := alloc_cases p
    rw [sqlite3RowSetInsert, halloc]
    cases ok with
    | false => rfl
    | true => cases p.pLast <;> rfl
  rw [hforest]
  exact h.mono (by omega) (Nat.le_refl _)

theorem test_bounded {p : RowSet} (h : Bounded p.pForest p.pEntry.length nInsert nTest) {b : Batches}
    (hfollows : Follows p b) (hroom : p.pEntry.length < 2 ^ 40) {iBatch iRowid : Int} {p' : RowSet} {found : Bool}
    (htest : sqlite3RowSetTest p iBatch iRowid = some (p', found)) :
    Bounded p'.pForest p'.pEntry.length nInsert (nTest + 1) := by
  obtain ⟨q, hq, heq⟩ := Option.map_eq_some_iff.mp htest
  cases heq
  split at hq
  · rw [newBatch] at hq
    split at hq
    · cases hq
      exact h.mono (Nat.le_refl _) (Nat.le_succ _)
    · obtain ⟨pList, hpList, hsorted, hrowids⟩ := sortedEntries_spec hfollows.sorted hroom
      rw [hpList] at hq
      cases hq
      exact addTree_bounded h (increasing_length hsorted hrowids.subset)
  · cases hq
    exact h.mono (Nat.le_refl _) (Nat.le_succ _)

/-! ### Runs -/

def insertCount : List RowSetOp → Nat
  | [] => 0
  | .insert _ :: ops => insertCount ops + 1
  | .test _ _ :: ops => insertCount ops

def testCount : List RowSetOp → Nat
  | [] => 0
  | .insert _ :: ops => testCount ops
  | .test _ _ :: ops => testCount ops + 1

theorem run_bounded {p : RowSet} {b : Batches} (hfollows : Follows p b)
    (h : Bounded p.pForest p.pEntry.length nInsert nTest) {ops : List RowSetOp}
    (hroom : p.pEntry.length + ops.length < 2 ^ 40) {p' : RowSet} {answers : List Bool}
    (hrun : runOps p ops = some (p', answers)) :
    Bounded p'.pForest p'.pEntry.length (nInsert + insertCount ops) (nTest + testCount ops) := by
  induction ops generalizing p b nInsert nTest answers with
  | nil =>
    cases hrun
    exact h
  | cons op ops ih =>
    rw [List.length_cons] at hroom
    cases op with
    | insert rowid =>
      have hlen := insert_length p rowid
      have hrest := ih (hfollows.insert rowid).1 (insert_bounded h rowid) (by omega) hrun
      rw [insertCount, testCount]
      rwa [Nat.add_assoc, Nat.add_comm 1] at hrest
    | test iBatch iRowid =>
      obtain ⟨p₁, found, htest, hfollows₁, hlen, -, -⟩ := hfollows.test (by omega) iBatch iRowid
      rw [runOps, htest] at hrun
      simp only [Option.bind_eq_bind, Option.bind_some] at hrun
      obtain ⟨⟨p₂, later⟩, hlater, heq⟩ := Option.bind_eq_some_iff.mp hrun
      cases heq
      have hrest := ih hfollows₁ (test_bounded h hfollows (by omega) htest) (by omega) hlater
      rw [insertCount, testCount]
      rwa [Nat.add_assoc nTest, Nat.add_comm 1] at hrest

/-- **The forest stays small**: after any run its places are no more than log₂ of the tests, and its trees
no higher than log₂ of the inserts. -/
theorem rowset_cost (db : Db) (nFresh : Nat) {ops : List RowSetOp} (hroom : ops.length < 2 ^ 40) {p : RowSet}
    {answers : List Bool} (hrun : runOps (sqlite3RowSetInit db nFresh) ops = some (p, answers)) :
    p.pForest.length ≤ Nat.log 2 (testCount ops) + 1 ∧
      ∀ t, some t ∈ p.pForest → t.height ≤ Nat.log 2 (insertCount ops) + 1 := by
  have hinit : Bounded (sqlite3RowSetInit db nFresh).pForest (sqlite3RowSetInit db nFresh).pEntry.length 0 0 :=
    ⟨Nat.le_refl _, .inr rfl, Nat.le_refl _, fun t ht => absurd ht List.not_mem_nil⟩
  have hstart : (sqlite3RowSetInit db nFresh).pEntry.length + ops.length < 2 ^ 40 := by
    show 0 + _ < _
    omega
  have h := run_bounded (follows_init db nFresh) hinit hstart hrun
  rw [Nat.zero_add, Nat.zero_add] at h
  constructor
  · rcases h.places with hplaces | hnil
    · cases hlen : p.pForest.length with
      | zero => exact Nat.zero_le _
      | succ n =>
        rw [hlen, Nat.pow_succ] at hplaces
        exact Nat.succ_le_succ (Nat.le_log_of_pow_le (by decide) (by omega))
    · rw [hnil]
      exact Nat.zero_le _
  · intro t ht
    have hnodes := BinaryCounter.le_weight BinaryTree.numNodes ht
    have hweight := h.weight
    exact Nat.le_trans (h.height t ht) (Nat.succ_le_succ (Nat.log_mono_right (by omega)))

/-- Three batches, of which the test of the third finds the first two joined in one tree of three levels. -/
def threeBatches : List RowSetOp :=
  [.insert 5, .insert 2, .test 1 5, .insert 7, .insert 9, .test 2 7, .insert 1, .test 3 5]

theorem threeBatches_cost :
    ∃ p answers, runOps (sqlite3RowSetInit ⟨fun _ => true, false⟩ 0) threeBatches = some (p, answers) ∧
      p.pForest.length ≤ Nat.log 2 3 + 1 ∧ ∀ t, some t ∈ p.pForest → t.height ≤ Nat.log 2 5 + 1 := by
  have hroom : threeBatches.length < 2 ^ 40 := by decide
  obtain ⟨p, answers, hrun, -, -⟩ :=
    @Follows.run _ _ (follows_init ⟨fun _ => true, false⟩ 0) threeBatches (by decide)
  exact ⟨p, answers, hrun, rowset_cost _ _ hroom hrun⟩

end FuzzerTestSuite.Sqlite
