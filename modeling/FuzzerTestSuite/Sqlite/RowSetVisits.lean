import FuzzerTestSuite.Sqlite.RowSetRuns
import Mathlib.Algebra.GroupWithZero.Nat
import Mathlib.Data.Finset.Lattice.Lemmas

/-! Rows visited once.

A search by several conditions gives each its set of rowids, and `OP_RowSetTest` jumps over a rowid that
an earlier set had. Nothing is tested in the first set, which has the number 0, nothing is inserted in
the last, and a set is not tested against itself. Still each rowid of any set is visited, and once
(`rowset_once`). -/
namespace FuzzerTestSuite.Sqlite
open Library

/-- The rowids of one set that the opcode does not jump at. -/
def visitSet (iSet : Int) : RowSet → List Int → Option (RowSet × List Int)
  | p, [] => some (p, [])
  | p, v :: vs => do
    let (p, exist) ← OP_RowSetTest p iSet v
    let (p, visited) ← visitSet iSet p vs
    return (p, if exist then visited else v :: visited)

def visitSets : RowSet → List (Int × List Int) → Option (RowSet × List Int)
  | p, [] => some (p, [])
  | p, (iSet, vs) :: sets => do
    let (p, visited) ← visitSet iSet p vs
    let (p, later) ← visitSets p sets
    return (p, visited ++ later)

/-- One set visited: `V` are the rowids of the sets before. -/
structure Visited (iSet : Int) (V : Finset Int) (p : RowSet) (b : Batches) (vs : List Int) (p' : RowSet)
    (visited : List Int) : Prop where
  sub : visited.Sublist vs
  every : ∀ v ∈ vs, v ∈ visited ∨ v ∈ V
  once : p'.db.mallocFailed = false → p.db.mallocFailed = false ∧ ∀ v ∈ visited, v ∉ V
  length : p'.pEntry.length ≤ p.pEntry.length + vs.length
  follows : ∃ b', Follows p' b' ∧ (0 ≤ iSet → b'.seen ∪ b'.fresh = b.seen ∪ b.fresh ∪ visited.toFinset) ∧
    (b'.batch = iSet ∨ b'.batch = b.batch)

theorem opcode_spec {p : RowSet} {b : Batches} (h : Follows p b) (hroom : p.pEntry.length < 2 ^ 40) {iSet : Int}
    (hset : iSet ≠ 0) (v : Int) :
    ∃ p' exist, OP_RowSetTest p iSet v = some (p', exist) ∧ p'.pEntry.length ≤ p.pEntry.length + 1 ∧
      (exist = true → v ∈ (b.change iSet).seen) ∧
      (p'.db.mallocFailed = false → p.db.mallocFailed = false ∧ (exist = false → v ∉ (b.change iSet).seen)) ∧
      Follows p' (if exist = false ∧ 0 ≤ iSet then (b.change iSet).insert v else b.change iSet) := by
  obtain ⟨p₁, found, htest, hfollows, hlen, hseen, hexact⟩ := h.test hroom iSet v
  have hone := insert_length p₁ v
  rw [OP_RowSetTest, if_pos hset, htest]
  cases found with
  | true => exact ⟨p₁, true, rfl, by omega, fun _ => hseen rfl, fun hok => ⟨(hexact hok).1, nofun⟩, hfollows⟩
  | false =>
    have hnot (hok : p₁.db.mallocFailed = false) : v ∉ (b.change iSet).seen :=
      of_decide_eq_false (hexact hok).2.symm
    by_cases hpos : 0 ≤ iSet
    · obtain ⟨hinsert, hfail⟩ := hfollows.insert v
      refine ⟨sqlite3RowSetInsert p₁ v, false, ?_, by omega, nofun, fun hok => ?_, ?_⟩
      · simp only [Option.map_some, Bool.false_eq_true, if_false, ge_iff_le, if_pos hpos]
      · exact ⟨(hexact (hfail hok)).1, fun _ => hnot (hfail hok)⟩
      · rwa [if_pos ⟨rfl, hpos⟩]
    · refine ⟨p₁, false, ?_, by omega, nofun, fun hok => ⟨(hexact hok).1, fun _ => hnot hok⟩, ?_⟩
      · simp only [Option.map_some, Bool.false_eq_true, if_false, ge_iff_le, if_neg hpos]
      · rwa [if_neg (fun h => hpos h.2)]

theorem change_batch (b : Batches) (iBatch : Int) : (b.change iBatch).batch = iBatch := by
  rw [Batches.change]
  split
  · rfl
  · rename_i h
    exact (not_ne_iff.mp h).symm

theorem change_union (b : Batches) (iBatch : Int) :
    (b.change iBatch).seen ∪ (b.change iBatch).fresh = b.seen ∪ b.fresh := by
  rw [Batches.change]
  split
  · rw [Finset.union_empty]
  · rfl

theorem change_same {b : Batches} {iBatch : Int} (h : b.batch = iBatch) : b.change iBatch = b :=
  if_neg (not_ne_iff.mpr h.symm)

/-- A set with a number of its own is tested against the sets before. -/
theorem visitSet_spec {iSet : Int} (hset : iSet ≠ 0) {V : Finset Int} {vs : List Int} {p : RowSet} {b : Batches}
    (h : Follows p b) (hseen : (b.change iSet).seen = V) (hroom : p.pEntry.length + vs.length < 2 ^ 40) :
    ∃ p' visited, visitSet iSet p vs = some (p', visited) ∧ Visited iSet V p b vs p' visited := by
  induction vs generalizing p b with
  | nil =>
    refine ⟨p, [], rfl, List.Sublist.refl _, fun v hv => absurd hv List.not_mem_nil, ?_, Nat.le_refl _, b, h, ?_,
      .inr rfl⟩
    · exact fun hok => ⟨hok, fun v hv => absurd hv List.not_mem_nil⟩
    · intro _
      rw [List.toFinset_nil, Finset.union_empty]
  | cons v vs ih =>
    rw [List.length_cons] at hroom
    obtain ⟨p₁, exist, hop, hlen, hin, hout, hfollows⟩ := opcode_spec h (by omega) hset v
    rw [hseen] at hin hout
    have hbatch : (if exist = false ∧ 0 ≤ iSet then (b.change iSet).insert v else b.change iSet).batch = iSet := by
      split
      · exact change_batch b iSet
      · exact change_batch b iSet
    have hseen' : ((if exist = false ∧ 0 ≤ iSet then (b.change iSet).insert v else b.change iSet).change iSet).seen =
        V := by
      rw [change_same hbatch, ← hseen]
      split <;> rfl
    obtain ⟨p', visited, hrun, hv⟩ := ih hfollows hseen' (by omega)
    obtain ⟨b', hb', hunion, hbatch'⟩ := hv.follows
    rw [hbatch, or_self] at hbatch'
    have hlength := hv.length
    rw [visitSet, hop]
    simp only [Option.bind_eq_bind, Option.bind_some, hrun]
    cases exist with
    | true =>
      refine ⟨p', visited, rfl, hv.sub.cons v, fun w hw => ?_, fun hok => ?_, ?_, b', hb', fun hpos => ?_, .inl hbatch'⟩
      · rcases List.mem_cons.mp hw with rfl | hw
        · exact .inr (hin rfl)
        · exact hv.every w hw
      · exact ⟨(hout (hv.once hok).1).1, (hv.once hok).2⟩
      · rw [List.length_cons]
        omega
      · rw [hunion hpos, if_neg (fun h => Bool.noConfusion h.1), change_union]
    | false =>
      refine ⟨p', v :: visited, rfl, hv.sub.cons_cons v, fun w hw => ?_, fun hok => ?_, ?_, b', hb', fun hpos => ?_,
        .inl hbatch'⟩
      · rcases List.mem_cons.mp hw with rfl | hw
        · exact .inl List.mem_cons_self
        · exact (hv.every w hw).imp_left (List.mem_cons_of_mem _)
      · obtain ⟨hok', honce⟩ := hv.once hok
        refine ⟨(hout hok').1, fun w hw => ?_⟩
        rcases List.mem_cons.mp hw with rfl | hw
        · exact (hout hok').2 rfl
        · exact honce w hw
      · rw [List.length_cons]
        omega
      · rw [hunion hpos, if_pos ⟨rfl, hpos⟩, Batches.insert, List.toFinset_cons, ← change_union b iSet,
          Finset.union_insert, Finset.insert_union, Finset.union_insert]

/-- A first set that is not tested. -/
theorem visitSet_zero {vs : List Int} {p : RowSet} {b : Batches} (h : Follows p b) :
    ∃ p', visitSet 0 p vs = some (p', vs) ∧ p'.pEntry.length ≤ p.pEntry.length + vs.length ∧
      (p'.db.mallocFailed = false → p.db.mallocFailed = false) ∧ Follows p' (vs.foldl Batches.insert b) := by
  induction vs generalizing p b with
  | nil => exact ⟨p, rfl, Nat.le_refl _, id, h⟩
  | cons v vs ih =>
    obtain ⟨hinsert, hfail⟩ := h.insert v
    have hone := insert_length p v
    obtain ⟨p', hrun, hlen, hfail', hfollows⟩ := ih hinsert
    have hop : OP_RowSetTest p 0 v = some (sqlite3RowSetInsert p v, false) := rfl
    refine ⟨p', ?_, ?_, fun hok => hfail (hfail' hok), hfollows⟩
    · rw [visitSet, hop]
      simp only [Option.bind_eq_bind, Option.bind_some, hrun]
      rfl
    · rw [List.length_cons]
      omega

/-- The rowids of all sets. -/
def total (sets : List (Int × List Int)) : Nat := (sets.map (·.2.length)).sum

theorem dropLast_tail {s : Int × List Int} {sets : List (Int × List Int)} (h : ∀ t ∈ (s :: sets).dropLast, 0 ≤ t.1) :
    ∀ t ∈ sets.dropLast, 0 ≤ t.1 := by
  intro t ht
  cases sets with
  | nil => exact absurd ht List.not_mem_nil
  | cons s' sets => exact h t (List.mem_cons_of_mem _ ht)

/-- The sets that come after those with the rowids seen or inserted so far. -/
theorem visitSets_spec {sets : List (Int × List Int)} {p : RowSet} {b : Batches} (h : Follows p b)
    (hnodup : ∀ s ∈ sets, s.2.Nodup) (hnumbers : (sets.map Prod.fst).Nodup) (hzero : ∀ s ∈ sets, s.1 ≠ 0)
    (hbatch : ∀ s ∈ sets, s.1 ≠ b.batch) (hpos : ∀ s ∈ sets.dropLast, 0 ≤ s.1)
    (hroom : p.pEntry.length + total sets < 2 ^ 40) :
    ∃ p' visited, visitSets p sets = some (p', visited) ∧
      (∀ s ∈ sets, ∀ v ∈ s.2, v ∈ visited ∨ v ∈ b.seen ∪ b.fresh) ∧ (∀ v ∈ visited, ∃ s ∈ sets, v ∈ s.2) ∧
      (p'.db.mallocFailed = false → p.db.mallocFailed = false ∧ visited.Nodup ∧
        ∀ v ∈ visited, v ∉ b.seen ∪ b.fresh) := by
  induction sets generalizing p b with
  | nil =>
    refine ⟨p, [], rfl, fun s hs => absurd hs List.not_mem_nil, fun v hv => absurd hv List.not_mem_nil, fun hok => ?_⟩
    exact ⟨hok, List.nodup_nil, fun v hv => absurd hv List.not_mem_nil⟩
  | cons s sets ih =>
    obtain ⟨iSet, vs⟩ := s
    have htotal : total ((iSet, vs) :: sets) = vs.length + total sets := List.sum_cons
    have hchange : (b.change iSet).seen = b.seen ∪ b.fresh := by
      rw [Batches.change, if_pos (hbatch _ List.mem_cons_self)]
    have hroom₁ : p.pEntry.length + vs.length < 2 ^ 40 := by omega
    obtain ⟨p₁, visited, hrun, hv⟩ := visitSet_spec (hzero _ List.mem_cons_self) h hchange hroom₁
    obtain ⟨b₁, hb₁, hunion, hbatch₁⟩ := hv.follows
    have hlen := hv.length
    have hne : ∀ s ∈ sets, s.1 ≠ b₁.batch := by
      intro s hs
      rcases hbatch₁ with hb | hb
      · rw [hb]
        intro heq
        exact (List.nodup_cons.mp hnumbers).1 (heq ▸ List.mem_map_of_mem hs)
      · rw [hb]
        exact hbatch s (List.mem_cons_of_mem _ hs)
    obtain ⟨p', later, hrun', hevery, hfrom, honce⟩ := ih hb₁ (fun s hs => hnodup s (List.mem_cons_of_mem _ hs))
      (List.nodup_cons.mp hnumbers).2 (fun s hs => hzero s (List.mem_cons_of_mem _ hs)) hne (dropLast_tail hpos) (by omega)
    -- unless this is the last set, the sets after it are tested against its rowids too
    have hmore (s : Int × List Int) (hs : s ∈ sets) : b₁.seen ∪ b₁.fresh = b.seen ∪ b.fresh ∪ visited.toFinset := by
      apply hunion
      cases sets with
      | nil => exact absurd hs List.not_mem_nil
      | cons t sets => exact hpos (iSet, vs) List.mem_cons_self
    refine ⟨p', visited ++ later, ?_, ?_, ?_, fun hok => ?_⟩
    · rw [visitSets, hrun]
      simp only [Option.bind_eq_bind, Option.bind_some, hrun']
      rfl
    · intro s hs v hvs
      rcases List.mem_cons.mp hs with rfl | hs
      · exact (hv.every v hvs).imp_left (List.mem_append_left _)
      · rcases hevery s hs v hvs with hin | hin
        · exact .inl (List.mem_append_right _ hin)
        · rw [hmore s hs, Finset.mem_union, List.mem_toFinset] at hin
          exact hin.symm.imp_left (List.mem_append_left _)
    · intro v hvs
      rcases List.mem_append.mp hvs with hvs | hvs
      · exact ⟨(iSet, vs), List.mem_cons_self, hv.sub.subset hvs⟩
      · obtain ⟨s, hs, hin⟩ := hfrom v hvs
        exact ⟨s, List.mem_cons_of_mem _ hs, hin⟩
    · obtain ⟨hok₁, hlater, hnot⟩ := honce hok
      obtain ⟨hok₀, hnew⟩ := hv.once hok₁
      have hold (v : Int) (hvl : v ∈ later) : v ∉ b.seen ∪ b.fresh ∪ visited.toFinset := by
        obtain ⟨s, hs, -⟩ := hfrom v hvl
        rw [← hmore s hs]
        exact hnot v hvl
      refine ⟨hok₀, List.nodup_append.mpr ⟨hv.sub.nodup (hnodup _ List.mem_cons_self), hlater, ?_⟩, fun v hvs => ?_⟩
      · intro v hvis w hw heq
        exact hold w hw (Finset.mem_union_right _ (List.mem_toFinset.mpr (heq ▸ hvis)))
      · rcases List.mem_append.mp hvs with hvs | hvs
        · exact hnew v hvs
        · exact fun hin => hold v hvs (Finset.mem_union_left _ hin)

end FuzzerTestSuite.Sqlite
