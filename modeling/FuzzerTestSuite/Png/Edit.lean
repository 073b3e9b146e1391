import FuzzerTestSuite.Png.Mutation

/-! What one `Mutate` can do.

`Edit` lists the outcomes of `Mutate`, one for each branch and what guards it;
`mutate_edit` is the only place that opens `mutate`. A property of single chunks
survives a `Mutate` if it survives the two branches that rewrite a payload and
holds of the chunk the insert branch draws (`Edit.forall`), and it survives a
`CrossOver` in any case (`crossOver_forall`). -/
namespace FuzzerTestSuite.Png
open Library Library.Bytes Library.Checked

/-! ### Draws -/

/-- The first value drawn. -/
def firstDraw (seed : UInt32) : Nat := rnd (minstdRand seed)

/-- The branch it selects. -/
def branch (seed : UInt32) : Nat := firstDraw seed % 6

/-- The index drawn next, among `n`. -/
def drawIndex (seed : UInt32) (n : Nat) : Nat := rnd (firstDraw seed) % n

/-- The types a drawn chunk can have: one of the table, or a generator output taken when
the selector before it left 9. -/
def DrawableType (r : Nat) (t : UInt32) : Prop :=
  t ∈ types ∨ 8 < rnd r % 10 ∧ t = UInt32.ofNat (rnd (rnd r))

theorem drawType_cases (r : Nat) :
    ∃ t, drawType r = some (t, rnd (rnd r)) ∧ DrawableType r t := by
  unfold drawType
  split
  · have hlt : rnd (rnd r) % types.length < types.length := Nat.mod_lt _ (by decide)
    refine ⟨types[rnd (rnd r) % types.length], ?_, .inl (List.getElem_mem hlt)⟩
    rw [mod?_pos (by decide)]
    simp only [Option.bind_eq_bind, Option.bind_some, List.getElem?_eq_getElem hlt]
  · exact ⟨_, rfl, .inr ⟨by omega, rfl⟩⟩

/-- A chunk is always drawn: 16 bytes for the hint type, at most 255 for any other. -/
theorem drawChunk_cases (r : Nat) :
    ∃ ch r', drawChunk r = some (ch, r') ∧ DrawableType r ch.type ∧
      (ch.type = type "fUZz" → ch.v.length = 16) ∧ ch.v.length ≤ 255 := by
  obtain ⟨t, ht, hdraw⟩ := drawType_cases r
  let len := if t = type "fUZz" then 16 else rnd (rnd (rnd r)) % 256
  have hlen : (fill len (rnd (rnd (rnd r)))).1.length = len := fill_length ..
  refine ⟨⟨t, (fill len (rnd (rnd (rnd r)))).1⟩, (fill len (rnd (rnd (rnd r)))).2, ?_, hdraw, ?_, ?_⟩
  · simp only [drawChunk, ht]
    rfl
  · intro h
    rw [hlen]
    exact if_pos h
  · rw [hlen]
    show (if t = type "fUZz" then 16 else rnd (rnd (rnd r)) % 256) ≤ 255
    split <;> omega

theorem drawChunk_spec {r r' : Nat} {ch : Chunk} (h : drawChunk r = some (ch, r')) :
    DrawableType r ch.type ∧ (ch.type = type "fUZz" → ch.v.length = 16) ∧ ch.v.length ≤ 255 := by
  obtain ⟨ch', r'', h', hspec⟩ := drawChunk_cases r
  rw [h] at h'
  cases h'
  exact hspec

/-! ### `Mutate` -/

/-- The chunk with another payload. -/
def Chunk.withV (v : V) (ch : Chunk) : Chunk := {ch with v := v}

/-- The state with another payload in its `k`-th chunk. -/
def PngMutator.setV (p : PngMutator) (k : Nat) (v : V) : PngMutator :=
  {p with chunks_ := p.chunks_.modify k (Chunk.withV v)}

theorem PngMutator.mem_setV (p : PngMutator) {k : Nat} (hk : k < p.chunks_.length) (v : V) :
    p.chunks_[k].withV v ∈ (p.setV k v).chunks_ := by
  have hget : (p.setV k v).chunks_[k]? = some (p.chunks_[k].withV v) := by
    simp only [PngMutator.setV, List.getElem?_modify_eq, List.getElem?_eq_getElem hk]
    rfl
  exact List.mem_of_getElem? hget

/-- The outcomes of a `Mutate`: the new state and the calls of the byte mutator. -/
inductive Edit (sh : Shuffle) (m : Mutator) (seed : UInt32) (p : PngMutator) :
    PngMutator → List MutatorCall → Prop where
  | ihdr : branch seed = 0 →
      Edit sh m seed p {p with ihdr_ := p.ihdr_.store (m.call (callOn p.ihdr_.1)).1} [callOn p.ihdr_.1]
  | payload (k : Nat) (hk : k < p.chunks_.length) : branch seed = 1 →
      k = drawIndex seed p.chunks_.length →
      Edit sh m seed p (p.setV k (mutateV m p.chunks_[k].v (rnd (firstDraw seed))).1)
        [(mutateV m p.chunks_[k].v (rnd (firstDraw seed))).2]
  | shuffle : branch seed = 2 →
      Edit sh m seed p {p with chunks_ := sh.run (firstDraw seed) p.chunks_} []
  | delete (k : Nat) (hk : k < p.chunks_.length) : branch seed = 3 →
      k = drawIndex seed p.chunks_.length →
      Edit sh m seed p {p with chunks_ := p.chunks_.eraseIdx k} []
  | insert (ch : Chunk) (r pos : Nat) : branch seed = 4 → drawChunk (firstDraw seed) = some (ch, r) →
      pos ≤ p.chunks_.length → Edit sh m seed p {p with chunks_ := p.chunks_.insertIdx pos ch} []
  | hint (k : Nat) (hk : k < p.chunks_.length) : branch seed = 5 →
      p.chunks_.findIdx? isHint = some k →
      Edit sh m seed p (p.setV k (m.call (callOn p.chunks_[k].v)).1) [callOn p.chunks_[k].v]
  | empty : branch seed = 1 ∨ branch seed = 3 → p.chunks_ = [] → Edit sh m seed p p []
  | noHint : branch seed = 5 → p.chunks_.findIdx? isHint = none → Edit sh m seed p p []

variable {sh : Shuffle} {m : Mutator} {seed : UInt32} {p q : PngMutator} {calls : List MutatorCall}

/-- **`Mutate` always ends, inside every bound, in one of its outcomes.** -/
theorem mutate_edit (sh : Shuffle) (m : Mutator) (seed : UInt32) (p : PngMutator) :
    ∃ q calls, mutate sh m seed p = some (q, calls) ∧ Edit sh m seed p q calls := by
  have hsix : branch seed < 6 := Nat.mod_lt _ (by decide)
  have hcases : branch seed = 0 ∨ branch seed = 1 ∨ branch seed = 2 ∨ branch seed = 3 ∨
      branch seed = 4 ∨ branch seed = 5 := by omega
  have hindex : p.chunks_ ≠ [] → ∃ k < p.chunks_.length, k = drawIndex seed p.chunks_.length ∧
      mod? (rnd (rnd (minstdRand seed))) p.chunks_.length = some k := fun hne =>
    ⟨_, Nat.mod_lt _ (List.length_pos_of_ne_nil hne), rfl, mod?_pos (List.length_pos_of_ne_nil hne)⟩
  rcases hcases with h | h | h | h | h | h
  all_goals
    have hb := h
    simp only [branch, firstDraw] at hb
  · exact ⟨_, _, by simp only [mutate, hb], .ihdr h⟩
  · by_cases hne : p.chunks_ = []
    · exact ⟨p, [], by simp only [mutate, hb, hne, ne_eq, not_true_eq_false, if_false],
        .empty (.inl h) hne⟩
    · obtain ⟨k, hk, hdef, hmod⟩ := hindex hne
      refine ⟨_, _, ?_, .payload k hk h hdef⟩
      simp only [mutate, hb, ne_eq, hne, not_false_eq_true, if_true, Option.bind_eq_bind, hmod,
        Option.bind_some, List.getElem?_eq_getElem hk, modifyAt?_lt hk]
      rfl
  · exact ⟨_, _, by simp only [mutate, hb]; rfl, .shuffle h⟩
  · by_cases hne : p.chunks_ = []
    · exact ⟨p, [], by simp only [mutate, hb, hne, ne_eq, not_true_eq_false, if_false],
        .empty (.inr h) hne⟩
    · obtain ⟨k, hk, hdef, hmod⟩ := hindex hne
      refine ⟨_, _, ?_, .delete k hk h hdef⟩
      simp only [mutate, hb, ne_eq, hne, not_false_eq_true, if_true, Option.bind_eq_bind, hmod,
        Option.bind_some, eraseAt?_lt hk]
  · obtain ⟨ch, r, hdraw, -⟩ := drawChunk_cases (firstDraw seed)
    have hpos : rnd r % (p.chunks_.length + 1) ≤ p.chunks_.length :=
      Nat.lt_succ_iff.mp (Nat.mod_lt _ (Nat.succ_pos _))
    refine ⟨_, _, ?_, .insert ch r _ h hdraw hpos⟩
    have hmod := mod?_pos (a := rnd r) (Nat.succ_pos p.chunks_.length)
    simp only [firstDraw] at hdraw
    simp only [mutate, hb, hdraw, Option.bind_eq_bind, Option.bind_some, hmod, insertAt?_le hpos]
  · cases hfind : p.chunks_.findIdx? isHint with
    | none => exact ⟨p, [], by simp only [mutate, hb, hfind], .noHint h hfind⟩
    | some k =>
      obtain ⟨hk, -⟩ := List.findIdx?_eq_some_iff_getElem.mp hfind
      refine ⟨_, _, ?_, .hint k hk h hfind⟩
      simp only [mutate, hb, hfind, List.getElem?_eq_getElem hk, Option.bind_eq_bind,
        Option.bind_some, modifyAt?_lt hk]
      rfl

theorem edit_of_mutate (h : mutate sh m seed p = some (q, calls)) : Edit sh m seed p q calls := by
  obtain ⟨q', calls', h', hedit⟩ := mutate_edit sh m seed p
  rw [h] at h'
  cases h'
  exact hedit

/-- What `Mutate` leaves true of every chunk. -/
theorem Edit.forall (h : Edit sh m seed p q calls) (P : Chunk → Prop) (hp : ∀ ch ∈ p.chunks_, P ch)
    (hpayload : branch seed = 1 → ∀ (k : Nat) (hk : k < p.chunks_.length),
      k = drawIndex seed p.chunks_.length →
      P (p.chunks_[k].withV (mutateV m p.chunks_[k].v (rnd (firstDraw seed))).1))
    (hinsert : branch seed = 4 → ∀ ch r, drawChunk (firstDraw seed) = some (ch, r) → P ch)
    (hhint : branch seed = 5 → ∀ ch ∈ p.chunks_, isHint ch = true →
      P (ch.withV (m.call (callOn ch.v)).1)) :
    ∀ ch ∈ q.chunks_, P ch := by
  intro ch hch
  cases h with
  | ihdr _ => exact hp ch hch
  | payload k hk hb hidx =>
    rcases mem_modify hch with hold | ⟨_, rfl⟩
    · exact hp ch hold
    · exact hpayload hb k hk hidx
  | shuffle _ => exact hp ch ((sh.perm _ _).subset hch)
  | delete k hk _ _ => exact hp ch (List.mem_of_mem_eraseIdx hch)
  | insert c r pos hb hdraw hpos =>
    rcases (List.mem_insertIdx hpos).mp hch with rfl | hold
    · exact hinsert hb _ r hdraw
    · exact hp ch hold
  | hint k hk hb hfind =>
    rcases mem_modify hch with hold | ⟨_, rfl⟩
    · exact hp ch hold
    · exact hhint hb _ (List.getElem_mem hk) (List.findIdx?_eq_some_iff_getElem.mp hfind).2.1
  | empty _ _ => exact hp ch hch
  | noHint _ _ => exact hp ch hch

/-! ### `CrossOver` -/

/-- `CrossOver` inserts the chunk its first draw selects where its second says. -/
theorem crossOver_draw (q : PngMutator) (seed : UInt32) (p : PngMutator) {i j : Nat}
    (hi : i < q.chunks_.length) (hchunk : firstDraw seed % q.chunks_.length = i)
    (hpos : drawIndex seed (p.chunks_.length + 1) = j) :
    crossOver q seed p = some {p with chunks_ := p.chunks_.insertIdx j q.chunks_[i]} := by
  have hq : q.chunks_ ≠ [] := List.ne_nil_of_length_pos (by omega)
  have hj : j ≤ p.chunks_.length := by
    rw [← hpos]
    exact Nat.lt_succ_iff.mp (Nat.mod_lt _ (Nat.succ_pos _))
  have hmod := mod?_pos (a := firstDraw seed) (List.length_pos_of_ne_nil hq)
  have hmod' := mod?_pos (a := rnd (firstDraw seed)) (Nat.succ_pos p.chunks_.length)
  rw [hchunk] at hmod
  rw [← drawIndex, hpos] at hmod'
  simp only [firstDraw] at hmod hmod'
  simp only [crossOver, if_neg hq, hmod, hmod', Option.bind_eq_bind, Option.bind_some,
    List.getElem?_eq_getElem hi, insertAt?_le hj]

/-- `CrossOver` always ends, with at most one chunk of the other's inserted. -/
theorem crossOver_cases (q : PngMutator) (seed : UInt32) (p : PngMutator) :
    (q.chunks_ = [] ∧ crossOver q seed p = some p) ∨
      ∃ ch ∈ q.chunks_, ∃ pos ≤ p.chunks_.length,
        crossOver q seed p = some {p with chunks_ := p.chunks_.insertIdx pos ch} := by
  by_cases hq : q.chunks_ = []
  · exact .inl ⟨hq, if_pos hq⟩
  · right
    have hidx : firstDraw seed % q.chunks_.length < q.chunks_.length :=
      Nat.mod_lt _ (List.length_pos_of_ne_nil hq)
    have hpos : drawIndex seed (p.chunks_.length + 1) ≤ p.chunks_.length :=
      Nat.lt_succ_iff.mp (Nat.mod_lt _ (Nat.succ_pos _))
    exact ⟨_, List.getElem_mem hidx, _, hpos, crossOver_draw q seed p hidx rfl rfl⟩

theorem crossOver_some (q : PngMutator) (seed : UInt32) (p : PngMutator) :
    ∃ p', crossOver q seed p = some p' ∧ (p' = p ∨ ∃ ch ∈ q.chunks_, ∃ pos ≤ p.chunks_.length,
      p' = {p with chunks_ := p.chunks_.insertIdx pos ch}) := by
  rcases crossOver_cases q seed p with ⟨-, hsame⟩ | ⟨ch, hch, pos, hpos, hinsert⟩
  · exact ⟨p, hsame, .inl rfl⟩
  · exact ⟨_, hinsert, .inr ⟨ch, hch, pos, hpos, rfl⟩⟩

theorem crossOver_forall {p' : PngMutator} (h : crossOver q seed p = some p') (P : Chunk → Prop)
    (hp : ∀ ch ∈ p.chunks_, P ch) (hq : ∀ ch ∈ q.chunks_, P ch) : ∀ ch ∈ p'.chunks_, P ch := by
  rcases crossOver_cases q seed p with ⟨-, hsame⟩ | ⟨c, hc, pos, hpos, hinsert⟩
  · rw [hsame] at h
    cases h
    exact hp
  · rw [hinsert] at h
    cases h
    intro ch hch
    rcases (List.mem_insertIdx hpos).mp hch with rfl | hold
    · exact hq _ hc
    · exact hp ch hold

end FuzzerTestSuite.Png
