import FuzzerTestSuite.Sqlite.RowSet
import Mathlib.Data.Nat.Log

/-! Sorting the rowids of a row set.

Merging two increasing lists gives the increasing list of the rowids of both (`merge_increasing`,
`mem_merge`), sorting does for any list short of the 2^40 entries that fill the buckets
(`rowSetEntrySort_spec`), and the tree of a list has its rowids in its order (`listToTree_inorder`) and
is no higher than the list makes it (`listToTree_height`). -/
namespace FuzzerTestSuite.Sqlite
open Library

/-- The rowids increase, so that none is there twice. -/
abbrev Increasing (l : List Int) : Prop := l.Pairwise (· < ·)

theorem mem_merge (pA pB : List Int) (v : Int) : v ∈ rowSetEntryMerge pA pB ↔ v ∈ pA ∨ v ∈ pB := by
  induction pA, pB using rowSetEntryMerge.induct with
  | case1 pB => simp [rowSetEntryMerge]
  | case2 pA hne => simp [rowSetEntryMerge]
  | case3 a pA b pB hle hlt ih =>
    rw [rowSetEntryMerge, if_pos hle, if_pos hlt, List.mem_cons, ih, List.mem_cons, List.mem_cons, or_assoc]
  | case4 a pA b pB hle hlt ih =>
    have hab : a = b := Int.le_antisymm hle (Int.not_lt.mp hlt)
    rw [rowSetEntryMerge, if_pos hle, if_neg hlt, ih, List.mem_cons, List.mem_cons, hab]
    tauto
  | case5 a pA b pB hle ih =>
    rw [rowSetEntryMerge, if_neg hle, List.mem_cons, ih, List.mem_cons, List.mem_cons]
    tauto

theorem merge_increasing {pA pB : List Int} (hA : Increasing pA) (hB : Increasing pB) :
    Increasing (rowSetEntryMerge pA pB) := by
  induction pA, pB using rowSetEntryMerge.induct with
  | case1 pB =>
    rw [rowSetEntryMerge]
    exact hB
  | case2 pA hne =>
    rw [rowSetEntryMerge]
    · exact hA
    · exact hne
  | case3 a pA b pB hle hlt ih =>
    obtain ⟨ha, hpA⟩ := List.pairwise_cons.mp hA
    rw [rowSetEntryMerge, if_pos hle, if_pos hlt]
    refine List.pairwise_cons.mpr ⟨fun v hv => ?_, ih hpA hB⟩
    rcases (mem_merge _ _ v).mp hv with hv | hv
    · exact ha v hv
    · rcases List.mem_cons.mp hv with rfl | hv
      · exact hlt
      · exact Int.lt_trans hlt ((List.pairwise_cons.mp hB).1 v hv)
  | case4 a pA b pB hle hlt ih =>
    rw [rowSetEntryMerge, if_pos hle, if_neg hlt]
    exact ih (List.pairwise_cons.mp hA).2 hB
  | case5 a pA b pB hle ih =>
    obtain ⟨hb, hpB⟩ := List.pairwise_cons.mp hB
    rw [rowSetEntryMerge, if_neg hle]
    refine List.pairwise_cons.mpr ⟨fun v hv => ?_, ih hA hpB⟩
    rcases (mem_merge _ _ v).mp hv with hv | hv
    · rcases List.mem_cons.mp hv with rfl | hv
      · exact Int.not_le.mp hle
      · exact Int.lt_trans (Int.not_le.mp hle) ((List.pairwise_cons.mp hA).1 v hv)
    · exact hb v hv

theorem merge_length (pA pB : List Int) : (rowSetEntryMerge pA pB).length ≤ pA.length + pB.length := by
  induction pA, pB using rowSetEntryMerge.induct with
  | case1 pB =>
    rw [rowSetEntryMerge]
    exact Nat.le_add_left _ _
  | case2 pA hne =>
    rw [rowSetEntryMerge]
    · exact Nat.le_add_right _ _
    · exact hne
  | case3 a pA b pB hle hlt ih =>
    rw [rowSetEntryMerge, if_pos hle, if_pos hlt, List.length_cons, List.length_cons]
    omega
  | case4 a pA b pB hle hlt ih =>
    rw [rowSetEntryMerge, if_pos hle, if_neg hlt, List.length_cons]
    omega
  | case5 a pA b pB hle ih =>
    rw [rowSetEntryMerge, if_neg hle]
    simp only [List.length_cons] at ih ⊢
    omega

/-- The rowids on a list. -/
def rowids (l : List Int) : Set Int := {v | v ∈ l}

theorem rowids_merge (pA pB : List Int) : rowids (rowSetEntryMerge pA pB) = rowids pA ∪ rowids pB := by
  ext v
  exact mem_merge pA pB v

/-! ### Sorting -/

theorem rowids_cons (v : Int) (l : List Int) : rowids (v :: l) = rowids [v] ∪ rowids l := by
  ext w
  simp [rowids]

theorem rowids_nil : rowids [] = ∅ := Set.eq_empty_of_forall_notMem fun _ hv => List.not_mem_nil hv

/-- The entries of a list put into the buckets. -/
theorem addBuckets_spec {l : List Int} {aBucket : List (Option (List Int))}
    (hroom : BinaryCounter.value aBucket + l.length < 2 ^ aBucket.length)
    (hsorted : ∀ b, some b ∈ aBucket → Increasing b) :
    ∃ aBucket', l.foldlM addBucket aBucket = some aBucket' ∧ (∀ b, some b ∈ aBucket' → Increasing b) ∧
      BinaryCounter.content rowids aBucket' = BinaryCounter.content rowids aBucket ∪ rowids l := by
  induction l generalizing aBucket with
  | nil =>
    refine ⟨aBucket, rfl, hsorted, ?_⟩
    rw [rowids_nil, Set.union_empty]
  | cons v l ih =>
    rw [List.length_cons] at hroom
    have hone : Increasing [v] := List.pairwise_singleton _ v
    obtain ⟨hvalue, hcarry⟩ := @BinaryCounter.value_add _ _ rowSetEntryMerge id aBucket (by omega) [v]
    have hlength := BinaryCounter.length_add rowSetEntryMerge id aBucket [v]
    have hnew : ∀ b, some b ∈ (BinaryCounter.add rowSetEntryMerge id aBucket [v]).1 → Increasing b :=
      (BinaryCounter.add_forall (P := Increasing) (Q := Increasing) (fun _ _ => merge_increasing) (fun _ => id)
        hsorted hone).1
    have hcontent := @BinaryCounter.add_content _ _ _ rowSetEntryMerge id rowids rowids rowids_merge (fun _ => rfl)
      aBucket [v]
    have hstep : addBucket aBucket v = some (BinaryCounter.add rowSetEntryMerge id aBucket [v]).1 := by
      simp only [addBucket, hcarry, Option.isSome_none, Bool.false_eq_true, if_false]
    rw [hcarry, BinaryCounter.contentOf, Set.union_empty] at hcontent
    obtain ⟨aBucket', hfold, hsorted', hcontent'⟩ := ih (by rw [hvalue, hlength]; omega) hnew
    refine ⟨aBucket', ?_, hsorted', ?_⟩
    · rw [List.foldlM_cons, hstep]
      exact hfold
    · rw [hcontent', hcontent, rowids_cons v l, Set.union_assoc]

/-- The buckets merged. -/
theorem mergeBuckets_spec {aBucket : List (Option (List Int))} (hsorted : ∀ b, some b ∈ aBucket → Increasing b)
    {pIn : List Int} (hIn : Increasing pIn) :
    Increasing (aBucket.foldl mergeBucket pIn) ∧
      rowids (aBucket.foldl mergeBucket pIn) = rowids pIn ∪ BinaryCounter.content rowids aBucket := by
  induction aBucket generalizing pIn with
  | nil =>
    refine ⟨hIn, ?_⟩
    rw [BinaryCounter.content_nil, Set.union_empty]
    rfl
  | cons bucket aBucket ih =>
    have hstep : Increasing (mergeBucket pIn bucket) ∧
        rowids (mergeBucket pIn bucket) = rowids pIn ∪ BinaryCounter.contentOf rowids bucket := by
      cases bucket with
      | none => exact ⟨hIn, (Set.union_empty _).symm⟩
      | some b =>
        have hb := hsorted b List.mem_cons_self
        rw [mergeBucket]
        split
        · rename_i hnil
          rw [hnil, rowids_nil, Set.empty_union]
          exact ⟨hb, rfl⟩
        · exact ⟨merge_increasing hIn hb, rowids_merge pIn b⟩
    obtain ⟨hsorted', hrowids⟩ := ih (fun b hb => hsorted b (List.mem_cons_of_mem _ hb)) hstep.1
    refine ⟨hsorted', ?_⟩
    rw [List.foldl_cons, hrowids, hstep.2, BinaryCounter.content_cons, Set.union_assoc]

/-- **Sorting gives the increasing list of the same rowids.** -/
theorem rowSetEntrySort_spec {pIn : List Int} (hroom : pIn.length < 2 ^ 40) :
    ∃ l, rowSetEntrySort pIn = some l ∧ Increasing l ∧ rowids l = rowids pIn := by
  have hnone : ∀ b, some b ∈ List.replicate 40 (none : Option (List Int)) → Increasing b := by
    intro b hb
    cases List.eq_of_mem_replicate hb
  have hfree : BinaryCounter.content rowids (List.replicate 40 none) = ∅ := by
    apply Set.eq_empty_of_forall_notMem
    intro v hv
    obtain ⟨b, hb, -⟩ := hv
    cases List.eq_of_mem_replicate hb
  obtain ⟨aBucket, hfold, hsorted, hcontent⟩ := @addBuckets_spec pIn (List.replicate 40 none)
    (by rw [BinaryCounter.value_free, List.length_replicate]; omega) hnone
  obtain ⟨hsorted', hrowids⟩ := mergeBuckets_spec hsorted List.Pairwise.nil
  refine ⟨aBucket.foldl mergeBucket [], ?_, hsorted', ?_⟩
  · rw [rowSetEntrySort, hfold]
    rfl
  · rw [hrowids, hcontent, hfree, rowids_nil, Set.empty_union, Set.empty_union]

/-! ### Trees -/

theorem treeLoop_inorder (iDepth : Nat) (p : BinaryTree Int) (pList : List Int) :
    SearchTree.inorder (treeLoop iDepth p pList) = SearchTree.inorder p ++ pList := by
  induction iDepth, p, pList using treeLoop.induct with
  | case1 iDepth p => simp [treeLoop]
  | case2 iDepth p v pList ih =>
    rw [treeLoop, ih, SearchTree.inorder, List.append_assoc, List.cons_append, nDeepTree_inorder]

/-- A tree has the rowids of the list, in its order. -/
theorem listToTree_inorder (pList : List Int) : SearchTree.inorder (rowSetListToTree pList) = pList := by
  cases pList with
  | nil => rfl
  | cons v pList =>
    rw [rowSetListToTree, treeLoop_inorder]
    rfl

/-- A tree made for a depth is no higher, and is full if entries are left over. -/
theorem nDeepTree_full (iDepth : Nat) (pList : List Int) :
    (rowSetNDeepTree (iDepth + 1) pList).1.height ≤ iDepth + 1 ∧
      ((rowSetNDeepTree (iDepth + 1) pList).2 ≠ [] →
        (rowSetNDeepTree (iDepth + 1) pList).1.numNodes + 1 = 2 ^ (iDepth + 1)) := by
  induction iDepth generalizing pList with
  | zero =>
    cases pList with
    | nil => exact ⟨Nat.zero_le _, fun h => absurd rfl h⟩
    | cons v pList => exact ⟨Nat.le_refl _, fun _ => rfl⟩
  | succ iDepth ih =>
    cases pList with
    | nil => exact ⟨Nat.zero_le _, fun h => absurd rfl h⟩
    | cons v pList =>
      obtain ⟨hheight, hfull⟩ := ih (v :: pList)
      rw [rowSetNDeepTree.eq_2 _ _ (List.cons_ne_nil _ _)]
      cases hleft : rowSetNDeepTree (iDepth + 1) (v :: pList) with
      | mk pLeft later =>
        rw [hleft] at hheight hfull
        cases later with
        | nil => exact ⟨Nat.le_succ_of_le hheight, fun h => absurd rfl h⟩
        | cons w later =>
          obtain ⟨hheight', hfull'⟩ := ih later
          have hnodes := hfull (List.cons_ne_nil _ _)
          simp only at hheight hnodes
          refine ⟨?_, fun h => ?_⟩
          · simp only [BinaryTree.height]
            omega
          · have hnodes' := hfull' h
            simp only [BinaryTree.numNodes]
            rw [Nat.pow_succ]
            omega

theorem treeLoop_height (iDepth : Nat) (p : BinaryTree Int) (pList : List Int) (hpos : 0 < iDepth)
    (hheight : p.height ≤ iDepth) (hnodes : 2 ^ iDepth ≤ 2 * p.numNodes)
    (hfull : pList ≠ [] → p.numNodes + 1 = 2 ^ iDepth) :
    2 ^ (treeLoop iDepth p pList).height ≤ 2 * (treeLoop iDepth p pList).numNodes := by
  induction iDepth, p, pList using treeLoop.induct with
  | case1 iDepth p =>
    rw [treeLoop]
    exact Nat.le_trans (Nat.pow_le_pow_right (by decide) hheight) hnodes
  | case2 iDepth p v pList ih =>
    obtain ⟨iDepth, rfl⟩ : ∃ d, iDepth = d + 1 := ⟨iDepth - 1, by omega⟩
    obtain ⟨hright, hfull'⟩ := nDeepTree_full iDepth pList
    have hp := hfull (List.cons_ne_nil _ _)
    rw [treeLoop]
    apply ih
    · exact Nat.succ_pos _
    · simp only [BinaryTree.height]
      omega
    · simp only [BinaryTree.numNodes]
      rw [Nat.pow_succ]
      omega
    · intro hrest
      have hr := hfull' hrest
      simp only [BinaryTree.numNodes]
      rw [Nat.pow_succ]
      omega

/-- **A tree is no higher than it must be** for the entries it has. -/
theorem listToTree_height (pList : List Int) :
    (rowSetListToTree pList).height ≤ Nat.log 2 pList.length + 1 := by
  cases pList with
  | nil => exact Nat.zero_le _
  | cons v pList =>
    have hpow := treeLoop_height 1 (.node v .nil .nil) pList Nat.one_pos (Nat.le_refl _) (Nat.le_refl _)
      (fun _ => rfl)
    have hnodes : (rowSetListToTree (v :: pList)).numNodes = (v :: pList).length := by
      rw [← SearchTree.length_inorder, listToTree_inorder]
    rw [rowSetListToTree] at hnodes ⊢
    rw [hnodes] at hpow
    cases hheight : (treeLoop 1 (.node v .nil .nil) pList).height with
    | zero => exact Nat.zero_le _
    | succ h =>
      rw [hheight, Nat.pow_succ] at hpow
      exact Nat.succ_le_succ (Nat.le_log_of_pow_le (by decide) (by omega))

end FuzzerTestSuite.Sqlite
