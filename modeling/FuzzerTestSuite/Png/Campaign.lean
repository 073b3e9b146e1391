import FuzzerTestSuite.Png.EntryPoints

/-! A fuzzing campaign with the two entry points.

A corpus entry is a seed, or what the entry points made of entries before it
(`History`). Every step parses the bytes of an entry and writes bytes again; nothing else
is carried along. `campaign_refines` compares this with a campaign that keeps the objects:
as long as each mutation's result can be stored, the parse of every entry is the state
that the same steps, made in memory from one object to the next, arrive at. For any campaign
of inputs under 2 GiB, `entry_provenance` says what an entry may consist of: chunk types
the parser read in one of the files it stems from, or one of its mutations has drawn, and
no more chunks than its first file had and steps were made. -/
namespace FuzzerTestSuite.Png
open Library Library.Bytes Library.Partial

/-! ### Histories -/

/-- How a corpus entry came about. -/
inductive History where
  | initial (data : V)
  | mutant (h : History) (m : Mutator) (maxSize : Nat) (seed : UInt32)
  | offspring (h₁ h₂ : History) (maxOutSize : Nat) (seed : UInt32)

section Campaign
variable (z : Zlib) (sh : Shuffle)

/-- The entry's bytes. The mutator works in a buffer that has room up to its limit; an
offspring of no bytes is no entry. -/
def History.entry : History → Option V
  | .initial data => some data
  | .mutant h m maxSize seed => do
    let data ← h.entry
    let buffer := data ++ List.replicate (maxSize - data.length) 0
    let (buffer, r) ← llvmFuzzerCustomMutator z sh m buffer data.length maxSize seed
    some (buffer.take r)
  | .offspring h₁ h₂ maxOutSize seed => do
    let data₁ ← h₁.entry
    let data₂ ← h₂.entry
    let (out, r) ← llvmFuzzerCustomCrossOver z data₁ data₂ (List.replicate maxOutSize 0) maxOutSize seed
    if r = 0 then none else some (out.take r)

/-- The same steps on the objects. What is written only decides whether a result fits. -/
def History.object : History → Option PngMutator
  | .initial data => pngMutator z data
  | .mutant h m maxSize seed => do
    let p ← h.object
    let (q, _) ← mutate sh m seed p
    let str ← serialize z q
    if maxSize < str.length then some p else some q
  | .offspring h₁ h₂ maxOutSize seed => do
    let p₁ ← h₁.object
    let p₂ ← h₂.object
    let q ← crossOver p₂ seed p₁
    let str ← serialize z q
    if maxOutSize < str.length then none else some q

/-- Every object a step makes can be stored: it has no IDAT chunk, and payloads within the limits. -/
def History.Storable (deflate : V → V) : History → Prop
  | .initial _ => True
  | .mutant h m _ seed => h.Storable deflate ∧
      ∀ p q calls, h.object z sh = some p → mutate sh m seed p = some (q, calls) →
        ∀ ch ∈ q.chunks_, Png.Storable z deflate ch
  | .offspring h₁ h₂ _ seed => h₁.Storable deflate ∧ h₂.Storable deflate ∧
      ∀ p₁ p₂ q, h₁.object z sh = some p₁ → h₂.object z sh = some p₂ → crossOver p₂ seed p₁ = some q →
        ∀ ch ∈ q.chunks_, Png.Storable z deflate ch

end Campaign

/-! ### Steps on bytes -/

section Steps
variable {z : Zlib} {sh : Shuffle}

theorem serialize_ne_nil {p : PngMutator} {out : V} (h : serialize z p = some out) : out ≠ [] := by
  rw [serialize_eq] at h
  obtain ⟨cs, -, rfl⟩ := Option.map_eq_some_iff.mp h
  have hlen : 8 ≤ (serializedFile z p.ihdr_ cs).bytes.length := by
    rw [PngFile.bytes, List.length_append, PngFile.magic_size]
    exact Nat.le_add_right ..
  intro hnil
  rw [hnil] at hlen
  exact absurd hlen (by decide)

theorem entry_mutant (h : History) (m : Mutator) (maxSize : Nat) (seed : UInt32) :
    (History.mutant h m maxSize seed).entry z sh =
      (h.entry z sh).bind fun data => (pngMutator z data).bind fun p =>
        (mutate sh m seed p).bind fun r => (serialize z r.1).map fun str =>
          if maxSize < str.length then data else str := by
  rw [History.entry]
  cases h.entry z sh with
  | none => simp
  | some data =>
    simp only [Option.bind_eq_bind, Option.bind_some, llvmFuzzerCustomMutator, List.take_left]
    cases pngMutator z data with
    | none => simp
    | some p =>
      simp only [Option.bind_some]
      cases mutate sh m seed p with
      | none => simp
      | some r =>
        simp only [Option.bind_some]
        cases serialize z r.1 with
        | none => simp
        | some str =>
          simp only [Option.bind_some, Option.map_some]
          split
          · simp only [Option.bind_some, List.take_left]
          · have hfits : str.length ≤ (data ++ List.replicate (maxSize - data.length) (0 : UInt8)).length := by
              simp only [List.length_append, List.length_replicate]
              omega
            simp only [Option.bind_some, overwrite_take hfits]

theorem entry_offspring (h₁ h₂ : History) (maxOutSize : Nat) (seed : UInt32) :
    (History.offspring h₁ h₂ maxOutSize seed).entry z sh =
      (h₁.entry z sh).bind fun data₁ => (h₂.entry z sh).bind fun data₂ =>
        (pngMutator z data₁).bind fun p₁ => (pngMutator z data₂).bind fun p₂ =>
          (crossOver p₂ seed p₁).bind fun q => (serialize z q).bind fun str =>
            if maxOutSize < str.length then none else some str := by
  rw [History.entry]
  cases h₁.entry z sh with
  | none => simp
  | some data₁ =>
    cases h₂.entry z sh with
    | none => simp
    | some data₂ =>
      simp only [Option.bind_eq_bind, Option.bind_some, llvmFuzzerCustomCrossOver]
      cases pngMutator z data₁ with
      | none => simp
      | some p₁ =>
        cases pngMutator z data₂ with
        | none => simp
        | some p₂ =>
          simp only [Option.bind_some]
          cases crossOver p₂ seed p₁ with
          | none => simp
          | some q =>
            simp only [Option.bind_some]
            cases hstr : serialize z q with
            | none => simp
            | some str =>
              simp only [Option.bind_some]
              have hpos : str.length ≠ 0 := by
                rw [ne_eq, List.length_eq_zero_iff]
                exact serialize_ne_nil hstr
              split
              · rfl
              · have hfits : str.length ≤ (List.replicate maxOutSize (0 : UInt8)).length := by
                  rw [List.length_replicate]
                  omega
                simp only [Option.bind_some, hpos, if_false, overwrite_take hfits]

end Steps

/-! ### The objects behind the bytes -/

section Refinement
variable {z : Zlib} {sh : Shuffle} {deflate : V → V}

theorem object_reachable (h : History) {p : PngMutator} (hp : h.object z sh = some p) :
    ReachableAny z sh p := by
  induction h generalizing p with
  | initial data => exact .init ⟨⟨data, hp⟩, trivial⟩
  | mutant h m maxSize seed ih =>
    rw [History.object] at hp
    simp only [Option.bind_eq_bind, Option.bind_eq_some_iff] at hp
    obtain ⟨p₀, hp₀, ⟨q, calls⟩, hq, str, -, hfit⟩ := hp
    split at hfit
    · cases hfit
      exact ih hp₀
    · cases hfit
      exact .step (ih hp₀) ⟨m, seed, calls, trivial, hq⟩
  | offspring h₁ h₂ maxOutSize seed ih₁ ih₂ =>
    rw [History.object] at hp
    simp only [Option.bind_eq_bind, Option.bind_eq_some_iff] at hp
    obtain ⟨p₁, hp₁, p₂, hp₂, q, hq, str, -, hfit⟩ := hp
    split at hfit
    · cases hfit
    · cases hfit
      exact .combine (ih₁ hp₁) (ih₂ hp₂) ⟨seed, hq⟩

/-- **Going through bytes at every step makes no difference.** In a campaign whose results can be
stored, the parse of an entry is the object its history makes in memory. -/
theorem campaign_refines (hz : Encodes z deflate) (h : History) (hs : h.Storable z sh deflate) :
    (h.entry z sh).bind (pngMutator z) = h.object z sh := by
  induction h with
  | initial data => simp only [History.entry, History.object, Option.bind_some]
  | mutant h m maxSize seed ih =>
    obtain ⟨hs, hstep⟩ := hs
    rw [entry_mutant, History.object, ← ih hs]
    rw [← ih hs] at hstep
    cases hdata : h.entry z sh with
    | none => simp
    | some data =>
      rw [hdata] at hstep ih
      simp only [Option.bind_some, Option.bind_eq_bind] at hstep ih ⊢
      cases hp : pngMutator z data with
      | none => simp
      | some p =>
        obtain ⟨q, calls, hq, -⟩ := mutate_edit sh m seed p
        simp only [Option.bind_some, hq]
        cases hstr : serialize z q with
        | none => simp
        | some str =>
          simp only [Option.map_some, Option.bind_some]
          split
          · exact hp
          · have hreach : ReachableAny z sh p := object_reachable h ((ih hs).symm.trans hp)
            exact pngMutator_serialize hz (.step hreach ⟨m, seed, calls, trivial, hq⟩)
              (hstep p q calls hp hq) hstr
  | offspring h₁ h₂ maxOutSize seed ih₁ ih₂ =>
    obtain ⟨hs₁, hs₂, hstep⟩ := hs
    rw [entry_offspring, History.object, ← ih₁ hs₁, ← ih₂ hs₂]
    rw [← ih₁ hs₁, ← ih₂ hs₂] at hstep
    cases hdata₁ : h₁.entry z sh with
    | none => simp
    | some data₁ =>
      cases hdata₂ : h₂.entry z sh with
      | none => simp
      | some data₂ =>
        rw [hdata₁] at hstep ih₁
        rw [hdata₂] at hstep ih₂
        simp only [Option.bind_some, Option.bind_eq_bind] at hstep ih₁ ih₂ ⊢
        cases hp₁ : pngMutator z data₁ with
        | none => simp
        | some p₁ =>
          cases hp₂ : pngMutator z data₂ with
          | none => simp
          | some p₂ =>
            obtain ⟨q, hq, -⟩ := crossOver_some p₂ seed p₁
            simp only [Option.bind_some, hq]
            cases hstr : serialize z q with
            | none => simp
            | some str =>
              simp only [Option.bind_some]
              split
              · rfl
              · rw [Option.bind_some]
                have hreach₁ : ReachableAny z sh p₁ := object_reachable h₁ ((ih₁ hs₁).symm.trans hp₁)
                have hreach₂ : ReachableAny z sh p₂ := object_reachable h₂ ((ih₂ hs₂).symm.trans hp₂)
                exact pngMutator_serialize hz (.combine hreach₁ hreach₂ ⟨seed, hq⟩)
                  (hstep p₁ p₂ q hp₁ hp₂ hq) hstr

end Refinement

/-- A file with no chunks, with a hint chunk inserted, and crossed over with itself. -/
def hintHistory : History :=
  .offspring (.mutant (.initial []) oneByte 130 52) (.mutant (.initial []) oneByte 130 52) 130 0

theorem hintHistory_refines :
    (hintHistory.entry starZlib idShuffle).bind (pngMutator starZlib) =
        hintHistory.object starZlib idShuffle ∧ (hintHistory.object starZlib idShuffle).isSome := by
  have hz : Encodes starZlib starDeflate := sampleZlib_encodes rfl
  have hobject : (History.initial []).object starZlib idShuffle = some ⟨Ihdr.zero, []⟩ := by decide +kernel
  obtain ⟨calls, hmut⟩ := inserted_eq
  have hmutant : (History.mutant (.initial []) oneByte 130 52).object starZlib idShuffle = some inserted := by
    decide +kernel
  have hall : ∀ ch ∈ inserted.chunks_, Storable starZlib starDeflate ch := by
    intro ch hch
    rw [List.mem_singleton.mp hch]
    exact ⟨by decide, fun _ => by decide +kernel, fun h => absurd h (by decide)⟩
  have hstep : (History.mutant (.initial []) oneByte 130 52).Storable starZlib idShuffle starDeflate := by
    refine ⟨trivial, ?_⟩
    intro p q calls' hp hq
    rw [hobject] at hp
    cases hp
    rw [hmut] at hq
    cases hq
    exact hall
  refine ⟨campaign_refines hz hintHistory ⟨hstep, hstep, ?_⟩, by decide +kernel⟩
  intro p₁ p₂ q hp₁ hp₂ hq
  rw [hmutant] at hp₁ hp₂
  cases hp₁
  cases hp₂
  exact crossOver_forall hq _ hall hall

/-! ### Where an entry's chunks come from -/

/-- Inputs are under 2 GiB, and every byte mutator keeps to its limit. -/
def History.Legal : History → Prop
  | .initial data => data.length < 2 ^ 31
  | .mutant h m maxSize _ => h.Legal ∧ m.Bounded ∧ maxSize < 2 ^ 31
  | .offspring h₁ h₂ maxOutSize _ => h₁.Legal ∧ h₂.Legal ∧ maxOutSize < 2 ^ 31

/-- The files the entry stems from. -/
def History.seeds : History → List V
  | .initial data => [data]
  | .mutant h _ _ _ => h.seeds
  | .offspring h₁ h₂ _ _ => h₁.seeds ++ h₂.seeds

/-- The generator's seeds in the mutations it has been through. -/
def History.draws : History → List UInt32
  | .initial _ => []
  | .mutant h _ _ seed => seed :: h.draws
  | .offspring h₁ h₂ _ _ => h₁.draws ++ h₂.draws

/-- The chunks of the first file, and one for each step made of it. -/
def History.chunkBound : History → Nat
  | .initial data => (merge (scanBytes data).2).length
  | .mutant h _ _ _ => h.chunkBound + 1
  | .offspring h₁ _ _ _ => h₁.chunkBound + 1

/-- The buffer the entry was written to: a mutation leaves what it finds where its result does not fit. -/
def History.room : History → Nat
  | .initial data => data.length
  | .mutant h _ maxSize _ => max h.room maxSize
  | .offspring _ _ maxOutSize _ => maxOutSize

/-- A chunk type the parser reads in one of the files, or one of the mutations has drawn to insert. -/
def History.KnownType (h : History) (t : UInt32) : Prop :=
  (∃ data ∈ h.seeds, ∃ c ∈ (scanBytes data).2, c.type = t) ∨
    ∃ seed ∈ h.draws, branch seed = 4 ∧ ∃ ch r, drawChunk (firstDraw seed) = some (ch, r) ∧ ch.type = t

theorem History.KnownType.mono {h h' : History} (hseeds : h.seeds ⊆ h'.seeds) (hdraws : h.draws ⊆ h'.draws)
    {t : UInt32} (ht : h.KnownType t) : h'.KnownType t := by
  rcases ht with hread | hdraw
  · obtain ⟨data, hdata, hc⟩ := hread
    exact .inl ⟨data, hseeds hdata, hc⟩
  · obtain ⟨seed, hseed, hch⟩ := hdraw
    exact .inr ⟨seed, hdraws hseed, hch⟩

theorem History.KnownType.mutant {h : History} {t : UInt32} (ht : h.KnownType t) (m : Mutator) (maxSize : Nat)
    (seed : UInt32) : (History.mutant h m maxSize seed).KnownType t := by
  have hseeds : h.seeds ⊆ (History.mutant h m maxSize seed).seeds := fun _ h => h
  have hdraws : h.draws ⊆ (History.mutant h m maxSize seed).draws := List.subset_cons_self ..
  exact ht.mono hseeds hdraws

theorem History.Legal.room {h : History} (hlegal : h.Legal) : h.room < 2 ^ 31 := by
  induction h with
  | initial data => exact hlegal
  | mutant h m maxSize seed ih => exact Nat.max_lt.mpr ⟨ih hlegal.1, hlegal.2.2⟩
  | offspring h₁ h₂ maxOutSize seed ih₁ ih₂ => exact hlegal.2.2

/-- What holds of every corpus entry. -/
structure Provenance (z : Zlib) (h : History) (data : V) : Prop where
  fits : data.length ≤ h.room
  strict : data ∈ h.seeds ∨ ∃ f : PngFile, f.WellFormed ∧ f.bytes = data
  types : ∀ p, pngMutator z data = some p → ∀ ch ∈ p.chunks_, h.KnownType ch.type
  count : ∀ p, pngMutator z data = some p → p.chunks_.length ≤ h.chunkBound

section Provenance
variable {z : Zlib} {sh : Shuffle}

/-- The reader reads a file's chunks from the first on, none besides. -/
theorem scanBytes_prefix {f : PngFile} (h : Framed f.cs) : (scanBytes f.bytes).2 <+: f.cs := by
  rw [scanBytes_bytes]
  rcases readable_split h with hread | ⟨pre, big, post, hsplit, hpre, hbig⟩
  · rw [scan_body _ hread]
  · rw [PngFile.cs, hsplit] at h ⊢
    rw [PngFile.body, hsplit, scan_oversized h hpre hbig, List.map_append]
    exact List.prefix_append ..

/-- A state written and read back: no chunk type is new, and there are no more chunks. -/
theorem reparse {q : PngMutator} (hreach : ReachableAny z sh q) (hlen : ∀ ch ∈ q.chunks_, ch.v.length < 2 ^ 32)
    {out : V} (hout : serialize z q = some out) {p : PngMutator} (hp : pngMutator z out = some p) :
    (∀ ch ∈ p.chunks_, ∃ ch' ∈ q.chunks_, ch.type = ch'.type) ∧ p.chunks_.length ≤ q.chunks_.length := by
  rw [serialize_eq] at hout
  obtain ⟨cs, hcs, rfl⟩ := Option.map_eq_some_iff.mp hout
  have hframed : Framed (serializedFile z q.ihdr_ cs).cs := by
    rw [serializedFile_cs]
    intro c hc
    obtain ⟨ch, hch, hw⟩ := mem_of_mapM hcs c hc
    exact ⟨written_type hw ▸ chunks_no_iend hreach ch hch, written_length hw (hlen ch hch)⟩
  have hpre := scanBytes_prefix hframed
  rw [serializedFile_cs] at hpre
  constructor
  · intro ch hch
    obtain ⟨c, hc, ht⟩ := parsed_type hp hch
    obtain ⟨ch', hch', hw⟩ := mem_of_mapM hcs c (hpre.subset hc)
    exact ⟨ch', hch', ht.trans (written_type hw)⟩
  · have hread := merge_length_le (scanBytes (serializedFile z q.ihdr_ cs).bytes).2
    have hwritten := hpre.length_le
    rw [mapM_length (pngMutator_chunks hp)]
    rw [mapM_length hcs] at hwritten
    omega

/-- So what is written for a state of known types has this provenance. -/
theorem provenance_serialize (hcrc : ComputesCrc z) {h : History} {q : PngMutator}
    (hreach : ReachableAny z sh q) (hlen : ∀ ch ∈ q.chunks_, ch.v.length < 2 ^ 32)
    (htypes : ∀ ch ∈ q.chunks_, h.KnownType ch.type) (hcount : q.chunks_.length ≤ h.chunkBound) {out : V}
    (hout : serialize z q = some out) (hfits : out.length ≤ h.room) : Provenance z h out where
  fits := hfits
  strict := by
    obtain ⟨f, hf, hbytes, -⟩ := serialize_holds hcrc hreach hlen hout
    exact .inr ⟨f, hf, hbytes⟩
  types p hp ch hch := by
    obtain ⟨ch', hch', ht⟩ := (reparse hreach hlen hout hp).1 ch hch
    exact ht ▸ htypes ch' hch'
  count p hp := Nat.le_trans (reparse hreach hlen hout hp).2 hcount

theorem provenance_initial (data : V) : Provenance z (.initial data) data where
  fits := Nat.le_refl _
  strict := .inl (List.mem_singleton.mpr rfl)
  types p hp ch hch := by
    obtain ⟨c, hc, ht⟩ := parsed_type hp hch
    exact .inl ⟨data, List.mem_singleton.mpr rfl, c, hc, ht.symm⟩
  count p hp := Nat.le_of_eq (mapM_length (pngMutator_chunks hp))

/-- One `Mutate` adds at most one chunk, of the type it has drawn. -/
theorem mutate_known {h : History} {m : Mutator} {maxSize : Nat} {seed : UInt32} {p q : PngMutator}
    {calls : List MutatorCall} (hq : mutate sh m seed p = some (q, calls))
    (hp : ∀ ch ∈ p.chunks_, h.KnownType ch.type) :
    (∀ ch ∈ q.chunks_, (History.mutant h m maxSize seed).KnownType ch.type) ∧
      q.chunks_.length ≤ p.chunks_.length + 1 := by
  have hedit := edit_of_mutate hq
  have hkept : ∀ ch ∈ p.chunks_, (History.mutant h m maxSize seed).KnownType ch.type :=
    fun ch hch => (hp ch hch).mutant m maxSize seed
  constructor
  · refine hedit.forall (fun ch => (History.mutant h m maxSize seed).KnownType ch.type) hkept ?_ ?_ ?_
    · intro _ k hk _
      exact hkept p.chunks_[k] (List.getElem_mem hk)
    · intro hb ch r hdraw
      exact .inr ⟨seed, .head _, hb, ch, r, hdraw, rfl⟩
    · intro _ ch hch _
      exact hkept ch hch
  · cases hedit with
    | ihdr => exact Nat.le_succ _
    | payload k hk => simp [PngMutator.setV]
    | shuffle =>
      rw [(sh.perm _ _).length_eq]
      exact Nat.le_succ _
    | delete k hk =>
      rw [List.length_eraseIdx_of_lt hk]
      omega
    | insert ch r pos _ _ hpos => rw [List.length_insertIdx_of_le_length hpos]
    | hint k hk => simp [PngMutator.setV]
    | empty => exact Nat.le_succ _
    | noHint => exact Nat.le_succ _

/-- An entry left as it was has the provenance of the step that left it. -/
theorem Provenance.mutant {h : History} {data : V} (hprov : Provenance z h data) (m : Mutator) (maxSize : Nat)
    (seed : UInt32) : Provenance z (.mutant h m maxSize seed) data where
  fits := Nat.le_trans hprov.fits (Nat.le_max_left ..)
  strict := hprov.strict
  types p hp ch hch := (hprov.types p hp ch hch).mutant m maxSize seed
  count p hp := Nat.le_succ_of_le (hprov.count p hp)

/-- The step of a mutation whose result fits. -/
theorem Provenance.mutated (hcrc : ComputesCrc z) {h : History} (hl : h.Legal) {m : Mutator} (hm : m.Bounded)
    {data : V} (hprov : Provenance z h data) {p q : PngMutator} (hp : pngMutator z data = some p) {seed : UInt32}
    {calls : List MutatorCall} (hq : mutate sh m seed p = some (q, calls)) {out : V}
    (hout : serialize z q = some out) {maxSize : Nat} (hfit : out.length ≤ maxSize) :
    Provenance z (.mutant h m maxSize seed) out := by
  have hreach : ReachableAny z sh q := .step (.init ⟨⟨_, hp⟩, trivial⟩) ⟨m, seed, calls, trivial, hq⟩
  have hroom := hl.room
  have hfits := hprov.fits
  have hlen : ∀ ch ∈ q.chunks_, ch.v.length < 2 ^ 32 := by
    intro ch hch
    have := ((edit_of_mutate hq).bounded hm).length_le (by omega) (parsed_length hp) ch hch
    omega
  obtain ⟨htypes, hcount⟩ := @mutate_known sh h m maxSize seed p q calls hq (hprov.types p hp)
  refine provenance_serialize hcrc hreach hlen htypes ?_ hout ?_
  · exact Nat.le_trans hcount (Nat.succ_le_succ (hprov.count p hp))
  · exact Nat.le_trans hfit (Nat.le_max_right ..)

/-- The step of a crossover whose result fits. -/
theorem Provenance.crossed (sh : Shuffle) (hcrc : ComputesCrc z) {h₁ h₂ : History} (hl₁ : h₁.Legal) (hl₂ : h₂.Legal)
    {data₁ data₂ : V} (hprov₁ : Provenance z h₁ data₁) (hprov₂ : Provenance z h₂ data₂) {p₁ p₂ q : PngMutator}
    (hp₁ : pngMutator z data₁ = some p₁) (hp₂ : pngMutator z data₂ = some p₂) {seed : UInt32}
    (hq : crossOver p₂ seed p₁ = some q) {out : V} (hout : serialize z q = some out) {maxOutSize : Nat}
    (hfit : out.length ≤ maxOutSize) : Provenance z (.offspring h₁ h₂ maxOutSize seed) out := by
  have hreach : ReachableAny z sh q :=
    .combine (.init ⟨⟨_, hp₁⟩, trivial⟩) (.init ⟨⟨_, hp₂⟩, trivial⟩) ⟨seed, hq⟩
  have hroom₁ := hl₁.room
  have hroom₂ := hl₂.room
  have hfits₁ := hprov₁.fits
  have hfits₂ := hprov₂.fits
  have hlen : ∀ ch ∈ q.chunks_, ch.v.length < 2 ^ 32 := by
    refine crossOver_forall hq _ (fun ch hch => ?_) (fun ch hch => ?_)
    · have := parsed_length hp₁ ch hch
      omega
    · have := parsed_length hp₂ ch hch
      omega
  have htypes : ∀ ch ∈ q.chunks_, (History.offspring h₁ h₂ maxOutSize seed).KnownType ch.type :=
    crossOver_forall hq (fun ch => (History.offspring h₁ h₂ maxOutSize seed).KnownType ch.type)
      (fun ch hch => (hprov₁.types p₁ hp₁ ch hch).mono (List.subset_append_left ..)
        (List.subset_append_left ..))
      (fun ch hch => (hprov₂.types p₂ hp₂ ch hch).mono (List.subset_append_right ..)
        (List.subset_append_right ..))
  have hcount : q.chunks_.length ≤ h₁.chunkBound + 1 := by
    have hp := hprov₁.count p₁ hp₁
    obtain ⟨q', hq', rfl | ⟨ch, -, pos, hpos, rfl⟩⟩ := crossOver_some p₂ seed p₁
    · rw [hq] at hq'
      cases hq'
      omega
    · rw [hq] at hq'
      cases hq'
      rw [List.length_insertIdx_of_le_length hpos]
      omega
  exact provenance_serialize hcrc hreach hlen htypes hcount hout hfit

/-- **Every entry of a campaign is one of the files it stems from, or a strict file**, and fits the buffer
it was written to; it holds only chunk types read in those files or drawn by its mutations, and no more
chunks than the first of them and one for each step. -/
theorem entry_provenance (hcrc : ComputesCrc z) (h : History) (hlegal : h.Legal) {data : V}
    (hdata : h.entry z sh = some data) : Provenance z h data := by
  induction h generalizing data with
  | initial data₀ =>
    cases hdata
    exact provenance_initial data₀
  | mutant h m maxSize seed ih =>
    obtain ⟨hl, hm, hmax⟩ := hlegal
    rw [entry_mutant] at hdata
    simp only [Option.bind_eq_some_iff, Option.map_eq_some_iff] at hdata
    obtain ⟨data₀, hdata₀, p, hp, ⟨q, calls⟩, hq, str, hstr, hfit⟩ := hdata
    have hprov := ih hl hdata₀
    split at hfit
    · subst hfit
      exact hprov.mutant m maxSize seed
    · subst hfit
      exact hprov.mutated hcrc hl hm hp hq hstr (Nat.not_lt.mp ‹_›)
  | offspring h₁ h₂ maxOutSize seed ih₁ ih₂ =>
    obtain ⟨hl₁, hl₂, hmax⟩ := hlegal
    rw [entry_offspring] at hdata
    simp only [Option.bind_eq_some_iff] at hdata
    obtain ⟨data₁, hdata₁, data₂, hdata₂, p₁, hp₁, p₂, hp₂, q, hq, str, hstr, hfit⟩ := hdata
    split at hfit
    · cases hfit
    · cases hfit
      have hprov₁ := ih₁ hl₁ hdata₁
      have hprov₂ := ih₂ hl₂ hdata₂
      exact hprov₁.crossed sh hcrc hl₁ hl₂ hprov₂ hp₁ hp₂ hq hstr (Nat.not_lt.mp ‹_›)

end Provenance

theorem hintHistory_provenance :
    ∃ data, hintHistory.entry starZlib idShuffle = some data ∧ Provenance starZlib hintHistory data := by
  have hsome : (hintHistory.entry starZlib idShuffle).isSome := by decide +kernel
  obtain ⟨data, hdata⟩ := Option.isSome_iff_exists.mp hsome
  have hmutant : (History.mutant (.initial []) oneByte 130 52).Legal :=
    ⟨by show 0 < 2 ^ 31; decide, oneByte_bounded, by decide⟩
  have hlegal : hintHistory.Legal := ⟨hmutant, hmutant, by decide⟩
  exact ⟨data, hdata, entry_provenance starZlib_crc hintHistory hlegal hdata⟩

end FuzzerTestSuite.Png
