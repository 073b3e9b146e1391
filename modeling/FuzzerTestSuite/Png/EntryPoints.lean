import FuzzerTestSuite.Png.BoundedEdit
import FuzzerTestSuite.Png.RoundTrip

/-! `LLVMFuzzerCustomMutator` and `LLVMFuzzerCustomCrossOver`.

Each parses, changes and serializes, and copies the result out if it fits. Whatever
the inputs are, what is copied out is a file a strict reader accepts
(`entry_points_contract`): no chunk is a terminator, and every payload is short
enough for its length field. -/
namespace FuzzerTestSuite.Png
open Library Library.Bytes Library.Partial

/-! ### The entry points -/

/-- The buffer at `Data` and the value returned. -/
def llvmFuzzerCustomMutator (z : Zlib) (sh : Shuffle) (llvmFuzzerMutate : Mutator) (data : V)
    (size maxSize : Nat) (seed : UInt32) : Option (V × Nat) := do
  let p ← pngMutator z (data.take size)
  let (p, _) ← mutate sh llvmFuzzerMutate seed p
  let str ← serialize z p
  if maxSize < str.length then some (data, size)
  else some (overwrite data str, str.length)

/-- The buffer at `Out` and the value returned. -/
def llvmFuzzerCustomCrossOver (z : Zlib) (data₁ data₂ out : V) (maxOutSize : Nat) (seed : UInt32) :
    Option (V × Nat) := do
  let p₁ ← pngMutator z data₁
  let p₂ ← pngMutator z data₂
  let p₁ ← crossOver p₂ seed p₁
  let str ← serialize z p₁
  if maxOutSize < str.length then some (out, 0)
  else some (overwrite out str, str.length)

/-- The bytes are a strict file of the state: its IHDR, and one chunk for each of its chunks. -/
def Holds (z : Zlib) (p : PngMutator) (bytes : V) : Prop :=
  ∃ f : PngFile, f.WellFormed ∧ f.bytes = bytes ∧ f.ihdr = p.ihdr_ ∧
    p.chunks_.mapM (written z) = some f.cs

/-! ### Payload lengths -/

theorem idatData_length_le (cs : List Chunk) : (idatData cs).length ≤ (cs.map (·.v.length)).sum := by
  induction cs with
  | nil => exact Nat.le_refl 0
  | cons c cs ih =>
    rw [List.map_cons, List.sum_cons]
    cases hc : isIdat c with
    | true =>
      rw [idatData_cons hc, List.length_append]
      omega
    | false =>
      rw [idatData_skip hc]
      omega

theorem scanBytes_idatData (bytes : V) :
    (idatData (scanBytes bytes).2).length ≤ bytes.length + 2 ^ 20 := by
  refine Nat.le_trans (idatData_length_le _) ?_
  unfold scanBytes
  split
  · exact Nat.zero_le _
  · rename_i ihdr s hread
    have htotal := scan_total s
    have hbudget : s.byteBudget ≤ bytes.length + 2 ^ 20 - 33 := (readHeader_takes hread).budgets.2
    omega

theorem scanBytes_length (bytes : V) : ∀ c ∈ (scanBytes bytes).2, c.v.length ≤ 2 ^ 20 := by
  unfold scanBytes
  split
  · intro c hc
    cases hc
  · exact scan_length _

/-- No payload is longer than the stream and the retry loops' limit together. -/
theorem parsed_length {z : Zlib} {bytes : V} {p : PngMutator} (h : pngMutator z bytes = some p) :
    ∀ ch ∈ p.chunks_, ch.v.length ≤ bytes.length + 2 ^ 28 := by
  intro ch hch
  obtain ⟨c, hc, hdec⟩ := mem_of_mapM (pngMutator_chunks h) ch hch
  rcases decodeChunk_length hdec with hlt | ⟨rfl, -⟩
  · unfold kMaxBuffer at hlt
    omega
  · cases hidat : isIdat ch with
    | true =>
      rw [(mem_merge_idat hidat hc).1]
      have := scanBytes_idatData bytes
      omega
    | false =>
      have := scanBytes_length bytes ch ((mem_merge_notIdat hidat).mp hc)
      omega

/-! ### The contract -/

section Contract
variable {z : Zlib} {sh : Shuffle}

/-- What `Serialize` writes for a state of a run is a strict file of it. -/
theorem serialize_holds (hcrc : ComputesCrc z) {p : PngMutator} (h : ReachableAny z sh p)
    (hlen : ∀ ch ∈ p.chunks_, ch.v.length < 2 ^ 32) {out : V} (hout : serialize z p = some out) :
    Holds z p out := by
  rw [serialize_eq] at hout
  obtain ⟨cs, hcs, rfl⟩ := Option.map_eq_some_iff.mp hout
  refine ⟨serializedFile z p.ihdr_ cs, serializedFile_wellFormed hcrc p.ihdr_ ?_, rfl, rfl, ?_⟩
  · intro c hc
    obtain ⟨ch, hch, hw⟩ := mem_of_mapM hcs c hc
    exact ⟨written_type hw ▸ chunks_no_iend h ch hch, written_length hw (hlen ch hch)⟩
  · rw [serializedFile_cs]
    exact hcs

/-- `LLVMFuzzerCustomMutator` leaves the input as it is, or a strict file of the mutated state. -/
def MutatorContract (z : Zlib) (sh : Shuffle) (m : Mutator) (data : V) (size maxSize : Nat)
    (seed : UInt32) : Prop :=
  ∀ data' r, llvmFuzzerCustomMutator z sh m data size maxSize seed = some (data', r) →
    r ≤ maxSize ∧
      (r = size ∧ data' = data ∨
        ∃ p q calls, pngMutator z (data.take size) = some p ∧ mutate sh m seed p = some (q, calls) ∧
          Holds z q (data'.take r))

/-- `LLVMFuzzerCustomCrossOver` leaves the output as it is, or a strict file of the first
parent's chunks and at most one of the second's. -/
def CrossOverContract (z : Zlib) (data₁ data₂ out : V) (maxOutSize : Nat) (seed : UInt32) : Prop :=
  ∀ out' r, llvmFuzzerCustomCrossOver z data₁ data₂ out maxOutSize seed = some (out', r) →
    r = 0 ∧ out' = out ∨
      r ≤ maxOutSize ∧ ∃ p₁ p₂ q, pngMutator z data₁ = some p₁ ∧ pngMutator z data₂ = some p₂ ∧
        (q = p₁ ∨ ∃ ch ∈ p₂.chunks_, ∃ pos ≤ p₁.chunks_.length,
          q = {p₁ with chunks_ := p₁.chunks_.insertIdx pos ch}) ∧
        Holds z q (out'.take r)

theorem mutator_contract (hcrc : ComputesCrc z) {m : Mutator} (hm : m.Bounded) {data : V}
    {size maxSize : Nat} (hsize : size ≤ maxSize) (hdata : maxSize ≤ data.length) (hlt : size < 2 ^ 31)
    (seed : UInt32) : MutatorContract z sh m data size maxSize seed := by
  intro data' r h
  cases hp : pngMutator z (data.take size) with
  | none =>
    rw [llvmFuzzerCustomMutator, hp] at h
    cases h
  | some p =>
    obtain ⟨q, calls, hq, -⟩ := mutate_edit sh m seed p
    cases hstr : serialize z q with
    | none =>
      simp [llvmFuzzerCustomMutator, hp, hq, hstr] at h
    | some str =>
      simp only [llvmFuzzerCustomMutator, hp, hq, hstr, Option.bind_eq_bind, Option.bind_some] at h
      split at h
      · cases h
        exact ⟨hsize, .inl ⟨rfl, rfl⟩⟩
      · rename_i hfits
        cases h
        have hle : str.length ≤ maxSize := Nat.not_lt.mp hfits
        refine ⟨hle, .inr ⟨p, q, calls, rfl, hq, ?_⟩⟩
        rw [overwrite_take (Nat.le_trans hle hdata)]
        have hreach : ReachableAny z sh q :=
          .step (.init ⟨⟨_, hp⟩, trivial⟩) ⟨m, seed, calls, trivial, hq⟩
        have htake : (data.take size).length ≤ size := List.length_take_le ..
        refine serialize_holds hcrc hreach (fun ch hch => ?_) hstr
        have := ((edit_of_mutate hq).bounded hm).length_le (by omega) (parsed_length hp) ch hch
        omega

theorem crossOver_contract (hcrc : ComputesCrc z) {data₁ data₂ out : V} {maxOutSize : Nat}
    (hout : maxOutSize ≤ out.length) (hlt₁ : data₁.length < 2 ^ 31) (hlt₂ : data₂.length < 2 ^ 31)
    (seed : UInt32) : CrossOverContract z data₁ data₂ out maxOutSize seed := by
  intro out' r h
  cases hp₁ : pngMutator z data₁ with
  | none =>
    rw [llvmFuzzerCustomCrossOver, hp₁] at h
    cases h
  | some p₁ =>
    cases hp₂ : pngMutator z data₂ with
    | none => simp [llvmFuzzerCustomCrossOver, hp₁, hp₂] at h
    | some p₂ =>
      obtain ⟨q, hq, hcases⟩ := crossOver_some p₂ seed p₁
      cases hstr : serialize z q with
      | none => simp [llvmFuzzerCustomCrossOver, hp₁, hp₂, hq, hstr] at h
      | some str =>
        simp only [llvmFuzzerCustomCrossOver, hp₁, hp₂, hq, hstr, Option.bind_eq_bind,
          Option.bind_some] at h
        split at h
        · cases h
          exact .inl ⟨rfl, rfl⟩
        · rename_i hfits
          cases h
          have hle : str.length ≤ maxOutSize := Nat.not_lt.mp hfits
          refine .inr ⟨hle, p₁, p₂, q, rfl, rfl, hcases, ?_⟩
          rw [overwrite_take (Nat.le_trans hle hout)]
          have hreach : ReachableAny z idShuffle q :=
            .combine (.init ⟨⟨_, hp₁⟩, trivial⟩) (.init ⟨⟨_, hp₂⟩, trivial⟩) ⟨seed, hq⟩
          refine serialize_holds hcrc hreach ?_ hstr
          refine crossOver_forall hq _ (fun ch hch => ?_) (fun ch hch => ?_)
          · have := parsed_length hp₁ ch hch
            omega
          · have := parsed_length hp₂ ch hch
            omega

/-- **Whatever the inputs, the entry points leave the buffer as it was or with a strict
file in it.** -/
theorem entry_points_contract (sh : Shuffle) (hcrc : ComputesCrc z) {m : Mutator} (hm : m.Bounded) :
    (∀ (data : V) (size maxSize : Nat) (seed : UInt32), size ≤ maxSize → maxSize ≤ data.length →
      size < 2 ^ 31 → MutatorContract z sh m data size maxSize seed) ∧
    ∀ (data₁ data₂ out : V) (maxOutSize : Nat) (seed : UInt32), maxOutSize ≤ out.length →
      data₁.length < 2 ^ 31 → data₂.length < 2 ^ 31 →
      CrossOverContract z data₁ data₂ out maxOutSize seed :=
  ⟨fun _ _ _ seed hsize hdata hlt => mutator_contract hcrc hm hsize hdata hlt seed,
    fun _ _ _ _ seed hout hlt₁ hlt₂ => crossOver_contract hcrc hout hlt₁ hlt₂ seed⟩

end Contract

theorem starZlib_crc : ComputesCrc starZlib := fun _ _ => rfl

/-- The file with one IDAT chunk, in a buffer with room. -/
def starBuffer : V := (oneChunk starIdat).bytes ++ List.replicate 64 0

theorem starBuffer_contract :
    (llvmFuzzerCustomMutator starZlib idShuffle oneByte starBuffer 66 130 0).isSome ∧
      MutatorContract starZlib idShuffle oneByte starBuffer 66 130 0 ∧
      CrossOverContract starZlib (oneChunk starIdat).bytes (oneChunk starIdat).bytes starBuffer 130 0 :=
  have hfile : (oneChunk starIdat).bytes.length = 66 := by decide +kernel
  have hbuffer : starBuffer.length = 130 := by rw [starBuffer, List.length_append, hfile]; rfl
  have h := entry_points_contract idShuffle starZlib_crc oneByte_bounded
  ⟨by decide +kernel,
    h.1 starBuffer 66 130 0 (by decide) (Nat.le_of_eq hbuffer.symm) (by decide),
    h.2 _ _ starBuffer 130 0 (Nat.le_of_eq hbuffer.symm) (by rw [hfile]; decide) (by rw [hfile]; decide)⟩

end FuzzerTestSuite.Png
