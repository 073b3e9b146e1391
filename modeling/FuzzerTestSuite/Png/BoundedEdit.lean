import Mathlib.Data.List.Perm.Basic
import FuzzerTestSuite.Png.Invariants

/-! How little one `Mutate` changes.

`BoundedEdit` says what may differ between two states, with nothing of how it was
drawn: the IHDR bytes, one payload, the order of the chunks, or one chunk more or
less. Every outcome of `Mutate` is one (`Edit.bounded`), if the byte mutator
returns no more than it is given, so that the payloads together grow by no more
than 256 bytes (`mutate_bounded`). -/
namespace FuzzerTestSuite.Png
open Library Library.Bytes Library.Checked

/-! ### Bounded edits -/

/-- A payload in place of another: no longer, or at most 256 bytes where there were none. -/
def PayloadBound (old new : V) : Prop := if old = [] then new.length ≤ 256 else new.length ≤ old.length

/-- What a single edit may change. -/
inductive BoundedEdit (p : PngMutator) : PngMutator → Prop where
  | unchanged : BoundedEdit p p
  | ihdr (ihdr : Ihdr) : BoundedEdit p {p with ihdr_ := ihdr}
  | payload (k : Nat) (hk : k < p.chunks_.length) (v : V) : PayloadBound p.chunks_[k].v v →
      BoundedEdit p (p.setV k v)
  | permutation (chs : List Chunk) : chs.Perm p.chunks_ → BoundedEdit p {p with chunks_ := chs}
  | removal (k : Nat) : k < p.chunks_.length → BoundedEdit p {p with chunks_ := p.chunks_.eraseIdx k}
  | insertion (pos : Nat) (ch : Chunk) : pos ≤ p.chunks_.length → ch.v.length ≤ 255 →
      (ch.type = type "fUZz" → ch.v.length = 16) →
      BoundedEdit p {p with chunks_ := p.chunks_.insertIdx pos ch}

/-- The length of all payloads together. -/
def totalPayload (chs : List Chunk) : Nat := (chs.map (·.v.length)).sum

theorem totalPayload_cons (ch : Chunk) (chs : List Chunk) :
    totalPayload (ch :: chs) = ch.v.length + totalPayload chs := by
  rw [totalPayload, List.map_cons, List.sum_cons, totalPayload]

theorem totalPayload_perm {a b : List Chunk} (h : a.Perm b) : totalPayload a = totalPayload b :=
  (h.map _).sum_nat

/-- Another payload in one chunk, up to order. -/
theorem PngMutator.setV_perm (p : PngMutator) {k : Nat} (hk : k < p.chunks_.length) (v : V) :
    (p.setV k v).chunks_.Perm (p.chunks_[k].withV v :: p.chunks_.eraseIdx k) := by
  rw [PngMutator.setV, List.modify_eq_set_get _ hk]
  exact List.set_perm_cons_eraseIdx hk _

/-- All payloads together, with one set aside. -/
theorem totalPayload_eraseIdx {chs : List Chunk} {k : Nat} (hk : k < chs.length) :
    totalPayload chs = chs[k].v.length + totalPayload (chs.eraseIdx k) := by
  rw [← totalPayload_cons]
  exact (totalPayload_perm (List.getElem_cons_eraseIdx_perm hk)).symm

section Bounded
variable {p q : PngMutator}

/-- A payload within the bound leaves any shorter one within it. -/
theorem PayloadBound.mono {old new new' : V} (h : PayloadBound old new)
    (hlen : new'.length ≤ new.length) : PayloadBound old new' := by
  unfold PayloadBound at h ⊢
  split at h
  · rw [if_pos ‹_›]
    exact Nat.le_trans hlen h
  · rw [if_neg ‹_›]
    exact Nat.le_trans hlen h

theorem PayloadBound.refl (v : V) : PayloadBound v v := by
  unfold PayloadBound
  split
  · rw [‹v = []›]
    exact Nat.zero_le _
  · exact Nat.le_refl _

theorem PayloadBound.le {old new : V} (h : PayloadBound old new) : new.length ≤ old.length + 256 := by
  unfold PayloadBound at h
  split at h <;> omega

/-- The payloads together grow by no more than the longest payload made of nothing. -/
theorem BoundedEdit.total (h : BoundedEdit p q) :
    totalPayload q.chunks_ ≤ totalPayload p.chunks_ + 256 := by
  cases h with
  | unchanged => exact Nat.le_add_right ..
  | ihdr ihdr => exact Nat.le_add_right ..
  | payload k hk v hv =>
    have := hv.le
    have hold := totalPayload_eraseIdx hk
    have hnew := totalPayload_perm (p.setV_perm hk v)
    rw [totalPayload_cons] at hnew
    simp only [Chunk.withV] at hnew
    omega
  | permutation chs hperm =>
    rw [totalPayload_perm hperm]
    exact Nat.le_add_right ..
  | removal k hk =>
    have hold := totalPayload_eraseIdx hk
    show totalPayload (p.chunks_.eraseIdx k) ≤ totalPayload p.chunks_ + 256
    omega
  | insertion pos ch hpos hlen hhint =>
    have hnew := totalPayload_perm (List.perm_insertIdx ch p.chunks_ hpos)
    rw [totalPayload_cons] at hnew
    show totalPayload (p.chunks_.insertIdx pos ch) ≤ totalPayload p.chunks_ + 256
    omega

/-- A bound on every payload, if it is at least 256, stays one. -/
theorem BoundedEdit.length_le (h : BoundedEdit p q) {n : Nat} (hn : 256 ≤ n)
    (hp : ∀ ch ∈ p.chunks_, ch.v.length ≤ n) : ∀ ch ∈ q.chunks_, ch.v.length ≤ n := by
  intro ch hch
  cases h with
  | unchanged => exact hp ch hch
  | ihdr ihdr => exact hp ch hch
  | payload k hk v hv =>
    rcases mem_modify hch with hold | ⟨_, rfl⟩
    · exact hp ch hold
    · have hk' := hp _ (List.getElem_mem hk)
      unfold PayloadBound at hv
      split at hv
      · exact Nat.le_trans hv hn
      · exact Nat.le_trans hv hk'
  | permutation chs hperm => exact hp ch (hperm.subset hch)
  | removal k hk => exact hp ch (List.mem_of_mem_eraseIdx hch)
  | insertion pos c hpos hlen hhint =>
    rcases (List.mem_insertIdx hpos).mp hch with rfl | hold
    · omega
    · exact hp ch hold

end Bounded

/-! ### `Mutate` -/

section Mutate
variable {sh : Shuffle} {m : Mutator} {seed : UInt32} {p q : PngMutator} {calls : List MutatorCall}

/-- What is handed to the byte mutator is as long as the payload, or at most 256 bytes. -/
theorem grown_bound (v : V) (r : Nat) : PayloadBound v (grown v r) := by
  cases v with
  | nil =>
    rw [PayloadBound, if_pos rfl, grown_nil, List.length_replicate]
    omega
  | cons b v =>
    rw [PayloadBound, if_neg (List.cons_ne_nil b v), grown_cons]

/-- Every call of the byte mutator is on a whole vector. -/
theorem Edit.calls_whole (h : Edit sh m seed p q calls) : ∀ c ∈ calls, ∃ v, c = callOn v := by
  intro c hc
  cases h with
  | ihdr _ => exact ⟨_, List.mem_singleton.mp hc⟩
  | payload k hk _ _ => exact ⟨_, List.mem_singleton.mp hc⟩
  | hint k hk _ _ => exact ⟨_, List.mem_singleton.mp hc⟩
  | _ => cases hc

/-- Every outcome of `Mutate` is a bounded edit. -/
theorem Edit.bounded (hm : m.Bounded) (h : Edit sh m seed p q calls) : BoundedEdit p q := by
  cases h with
  | ihdr _ => exact .ihdr _
  | payload k hk _ _ =>
    have hlen : (mutateV m p.chunks_[k].v (rnd (firstDraw seed))).1.length ≤
        (grown p.chunks_[k].v (rnd (firstDraw seed))).length := by
      simp only [mutateV, resize_length]
      exact hm _ _ _ (Nat.le_refl _)
    exact .payload k hk _ ((grown_bound _ _).mono hlen)
  | shuffle _ => exact .permutation _ (sh.perm _ _)
  | delete k hk _ _ => exact .removal k hk
  | insert ch r pos _ hdraw hpos =>
    obtain ⟨-, hhint, hlen⟩ := drawChunk_spec hdraw
    exact .insertion pos ch hpos hlen hhint
  | hint k hk _ _ =>
    have hlen : (m.call (callOn p.chunks_[k].v)).1.length = p.chunks_[k].v.length := m.keeps ..
    exact .payload k hk _ ((PayloadBound.refl _).mono (Nat.le_of_eq hlen))
  | empty _ _ => exact .unchanged
  | noHint _ _ => exact .unchanged

/-- **Each `Mutate` is one bounded edit.** It always ends, inside every bound, with every
call of the byte mutator on a whole vector, and the new state differs from the old by a
single edit. -/
theorem mutate_bounded (hm : m.Bounded) (sh : Shuffle) (seed : UInt32) (p : PngMutator) :
    ∃ q calls, mutate sh m seed p = some (q, calls) ∧
      (∀ c ∈ calls, c.size = c.data.length ∧ c.maxSize = c.data.length) ∧ BoundedEdit p q ∧
      totalPayload q.chunks_ ≤ totalPayload p.chunks_ + 256 ∧ q.ihdr_.1.length = 13 := by
  obtain ⟨q, calls, hmut, hedit⟩ := mutate_edit sh m seed p
  have hbounded := hedit.bounded hm
  refine ⟨q, calls, hmut, fun c hc => ?_, hbounded, hbounded.total, q.ihdr_.2⟩
  obtain ⟨v, rfl⟩ := hedit.calls_whole c hc
  exact ⟨rfl, rfl⟩

end Mutate

theorem inserted_bounded :
    ∃ q calls, mutate idShuffle oneByte 0 inserted = some (q, calls) ∧
      (∀ c ∈ calls, c.size = c.data.length ∧ c.maxSize = c.data.length) ∧ BoundedEdit inserted q ∧
      totalPayload q.chunks_ ≤ totalPayload inserted.chunks_ + 256 ∧ q.ihdr_.1.length = 13 :=
  mutate_bounded oneByte_bounded idShuffle 0 inserted

end FuzzerTestSuite.Png
