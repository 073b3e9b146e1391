import FuzzerTestSuite.Library.Reach
import FuzzerTestSuite.Png.Decoding
import FuzzerTestSuite.Png.Edit

/-! What holds of every state a run reaches.

A run parses byte streams, mutates the states it has and crosses them over, in any
order (`Reachable`). No state ever holds a terminator among its chunks
(`reachable_no_iend`): the parser stops at one, the table of types has none, and
the generator cannot put out the terminator's word after the two outputs that
select a random type. The other two invariants are about the hint chunk `fUZz`. It
may be parsed empty, and `Mutate` hands an empty one to the byte mutator
(`mutator_calls_honoured`); and the branch that mutates a random chunk may shrink it
(`hint_layout_kept`). -/
namespace FuzzerTestSuite.Png
open Library Library.Bytes Library.Partial

/-! ### Runs -/

def Parsed (z : Zlib) (p : PngMutator) : Prop := ∃ bytes, pngMutator z bytes = some p

/-- The states reached from parsed ones with `Init`, by `Mutate` where `Guard` allows it
and by `CrossOver` of two reached states. -/
def Reachable (z : Zlib) (sh : Shuffle) (Init : PngMutator → Prop)
    (Guard : Mutator → UInt32 → PngMutator → Prop) : PngMutator → Prop :=
  Reach (fun p => Parsed z p ∧ Init p)
    (fun p q => ∃ m seed calls, Guard m seed p ∧ mutate sh m seed p = some (q, calls))
    (fun p q p' => ∃ seed, crossOver q seed p = some p')

/-- A run over any files, with any byte mutators. -/
def ReachableAny (z : Zlib) (sh : Shuffle) : PngMutator → Prop :=
  Reachable z sh (fun _ => True) (fun _ _ _ => True)

section Runs
variable {z : Zlib} {sh : Shuffle} {Init : PngMutator → Prop}
  {Guard : Mutator → UInt32 → PngMutator → Prop}

/-- A property of single chunks that every outcome of `Mutate` preserves holds throughout a run. -/
theorem Reachable.chunks (P : Chunk → Prop)
    (hinit : ∀ p, Parsed z p → Init p → ∀ ch ∈ p.chunks_, P ch)
    (hmutate : ∀ m seed p q calls, Guard m seed p → (∀ ch ∈ p.chunks_, P ch) →
      Edit sh m seed p q calls → ∀ ch ∈ q.chunks_, P ch)
    {p : PngMutator} (h : Reachable z sh Init Guard p) : ∀ ch ∈ p.chunks_, P ch := by
  refine Reach.invariant (fun p => ∀ ch ∈ p.chunks_, P ch) ?_ ?_ ?_ h
  · intro p h
    obtain ⟨hparsed, hp⟩ := h
    exact hinit p hparsed hp
  · intro p q hp h
    obtain ⟨m, seed, calls, hguard, hmut⟩ := h
    exact hmutate m seed p q calls hguard hp (edit_of_mutate hmut)
  · intro p q p' hp hq h
    obtain ⟨seed, hcross⟩ := h
    exact crossOver_forall hcross P hp hq

end Runs

/-! ### No premature terminator -/

/-- The type of a chunk kept is the type of a chunk read. -/
theorem parsed_type {z : Zlib} {bytes : V} {p : PngMutator} (h : pngMutator z bytes = some p)
    {ch : Chunk} (hch : ch ∈ p.chunks_) : ∃ c ∈ (scanBytes bytes).2, ch.type = c.type := by
  obtain ⟨c, hc, hdec⟩ := mem_of_mapM (pngMutator_chunks h) ch hch
  have ht := decodeChunk_type hdec
  cases hidat : isIdat c with
  | false => exact ⟨c, (mem_merge_notIdat hidat).mp hc, ht⟩
  | true =>
    obtain ⟨-, i, hi, hidat'⟩ := mem_merge_idat hidat hc
    refine ⟨i, hi, ?_⟩
    rw [ht, (isIdat_iff c).mp hidat, (isIdat_iff i).mp hidat']

theorem scanBytes_type (bytes : V) : ∀ c ∈ (scanBytes bytes).2, c.type ≠ type "IEND" := by
  unfold scanBytes
  split
  · intro c hc
    cases hc
  · exact scan_type _

theorem parsed_no_iend {z : Zlib} {p : PngMutator} (h : Parsed z p) :
    ∀ ch ∈ p.chunks_, ch.type ≠ type "IEND" := by
  obtain ⟨bytes, hp⟩ := h
  intro ch hch
  obtain ⟨c, hc, ht⟩ := parsed_type hp hch
  rw [ht]
  exact scanBytes_type bytes c hc

theorem rnd_lt (x : Nat) : rnd x < randMod := Congruential.next_lt (by decide)

/-- The insert branch never draws the terminator's type. Two steps back from its word the
generator stands at 979028881, which selects another branch. -/
theorem iend_not_drawn {seed : UInt32} (hb : branch seed = 4) :
    ¬DrawableType (firstDraw seed) (type "IEND") := by
  intro hdraw
  rcases hdraw with htable | ⟨-, hword⟩
  · revert htable
    decide
  · have hthird : rnd (rnd (firstDraw seed)) = 1145980233 := by
      have hlt : rnd (rnd (firstDraw seed)) < 2 ^ 32 := Nat.lt_trans (rnd_lt _) (by decide)
      rw [← ofNat_length hlt, ← hword]
      decide
    have hsecond : rnd (firstDraw seed) = 1177978869 :=
      (Congruential.eq_next_inverse (b := 1899818559) (by decide) (rnd_lt _) hthird).trans (by decide)
    have hfirst : firstDraw seed = 979028881 :=
      (Congruential.eq_next_inverse (b := 1899818559) (by decide) (rnd_lt _) hsecond).trans (by decide)
    rw [branch, hfirst] at hb
    revert hb
    decide

theorem chunks_no_iend {z : Zlib} {sh : Shuffle} {p : PngMutator} (h : ReachableAny z sh p) :
    ∀ ch ∈ p.chunks_, ch.type ≠ type "IEND" := by
  refine Reachable.chunks _ (fun p hp _ => parsed_no_iend hp) ?_ h
  intro m seed p q calls _ hp hedit
  refine hedit.forall _ hp ?_ ?_ ?_
  · intro _ k hk _
    exact hp p.chunks_[k] (List.getElem_mem hk)
  · intro hb ch r hdraw ht
    exact iend_not_drawn hb (ht ▸ (drawChunk_spec hdraw).1)
  · intro _ ch hch _
    exact hp ch hch

theorem scanBytes_bytes (f : PngFile) : scanBytes f.bytes = scan ⟨f.body, false⟩ := by
  rw [scanBytes, readHeader_bytes]

theorem written_type {z : Zlib} {ch c : Chunk} (h : written z ch = some c) : c.type = ch.type := by
  unfold written at h
  split at h
  · obtain ⟨e, -, rfl⟩ := Option.map_eq_some_iff.mp h
    rfl
  · cases h
    rfl

/-- Of a file written from a list without terminator the reader stops at the terminator
only after every chunk. -/
theorem scanBytes_serialized (z : Zlib) (ihdr : Ihdr) {cs : List Chunk} (hframed : Framed cs) :
    scanBytes (serializedFile z ihdr cs).bytes = (.iend, cs) ∨
      (scanBytes (serializedFile z ihdr cs).bytes).1 = .oversized := by
  have hframed' : Framed (serializedFile z ihdr cs).cs := by
    rw [serializedFile_cs]
    exact hframed
  rw [scanBytes_bytes]
  rcases readable_split hframed' with hread | ⟨pre, big, post, hsplit, hpre, hbig⟩
  · left
    rw [scan_body _ hread, serializedFile_cs]
  · right
    rw [PngFile.cs, hsplit] at hframed'
    rw [PngFile.body, hsplit, scan_oversized hframed' hpre hbig]

/-- **No state of a run holds a terminator among its chunks**, so a reader of what
`Serialize` writes for it stops at a terminator only after the last chunk. -/
theorem reachable_no_iend (z : Zlib) (sh : Shuffle) (p : PngMutator) (h : ReachableAny z sh p) :
    (∀ ch ∈ p.chunks_, ch.type ≠ type "IEND") ∧
      ∀ out cs, serialize z p = some out → p.chunks_.mapM (written z) = some cs →
        (∀ c ∈ cs, c.v.length < 2 ^ 32) →
        scanBytes out = (.iend, cs) ∨ (scanBytes out).1 = .oversized := by
  have htypes := chunks_no_iend h
  refine ⟨htypes, ?_⟩
  intro out cs hout hcs hlen
  rw [serialize_eq, hcs] at hout
  cases hout
  apply scanBytes_serialized z p.ihdr_
  intro c hc
  obtain ⟨ch, hch, hw⟩ := mem_of_mapM hcs c hc
  rw [written_type hw]
  exact ⟨htypes ch hch, hlen c hc⟩

/-- The shuffle that changes nothing. -/
def idShuffle : Shuffle := ⟨fun _ chs => chs, fun _ _ => .refl _⟩

/-- The byte mutator that keeps the buffer and returns one where it may. -/
def oneByte : Mutator := ⟨fun data _ maxSize => (data, min 1 maxSize), fun _ _ _ => rfl⟩

theorem oneByte_inRange : oneByte.InRange := fun _ _ _ h₁ h₂ =>
  ⟨Nat.le_min.mpr ⟨Nat.le_refl 1, Nat.le_trans h₁ h₂⟩, Nat.min_le_right ..⟩

theorem oneByte_bounded : oneByte.Bounded := fun _ _ _ _ => Nat.min_le_right ..

/-- The state of a file with no chunks, with a chunk inserted. -/
def inserted : PngMutator := ⟨Ihdr.zero, [⟨type "fUZz", (fill 16 (rnd^[4] 52)).1⟩]⟩

theorem inserted_eq : ∃ calls, mutate idShuffle oneByte 52 ⟨Ihdr.zero, []⟩ = some (inserted, calls) :=
  ⟨[], by decide +kernel⟩

theorem parsed_nothing : Parsed starZlib ⟨Ihdr.zero, []⟩ := ⟨[], by decide +kernel⟩

theorem inserted_no_iend : ReachableAny starZlib idShuffle inserted ∧
    ∀ ch ∈ inserted.chunks_, ch.type ≠ type "IEND" :=
  have ⟨calls, hmut⟩ := inserted_eq
  have h : ReachableAny starZlib idShuffle inserted :=
    .step (.init ⟨parsed_nothing, trivial⟩) ⟨oneByte, 52, calls, trivial, hmut⟩
  ⟨h, (reachable_no_iend starZlib idShuffle inserted h).1⟩

/-! ### Calls of the byte mutator -/

/-- A call within the byte mutator's precondition. -/
structure MutatorCall.Honoured (c : MutatorCall) : Prop where
  pos : 1 ≤ c.size
  le : c.size ≤ c.maxSize
  data : c.size = c.data.length

theorem callOn_honoured (v : V) : (callOn v).Honoured ↔ v ≠ [] := by
  constructor
  · intro h hnil
    have hpos := h.pos
    rw [hnil] at hpos
    exact absurd hpos (by decide)
  · intro h
    exact ⟨List.length_pos_of_ne_nil h, Nat.le_refl _, rfl⟩

theorem grown_ne_nil (v : V) (r : Nat) : grown v r ≠ [] := by
  cases v with
  | nil =>
    apply List.ne_nil_of_length_pos
    rw [grown_nil, List.length_replicate]
    omega
  | cons b v => exact List.cons_ne_nil b v

/-- `Mutate` is about to hand an empty hint chunk to the byte mutator. -/
def CallsOnEmptyHint (seed : UInt32) (p : PngMutator) : Prop :=
  branch seed = 5 ∧ ∃ ch, p.chunks_.find? isHint = some ch ∧ ch.v = []

/-- No hint chunk of the state is empty. -/
def NoEmptyHint (p : PngMutator) : Prop := ∀ ch ∈ p.chunks_, isHint ch = true → ch.v ≠ []

theorem find?_of_findIdx? {p : PngMutator} {k : Nat} (h : p.chunks_.findIdx? isHint = some k)
    (hk : k < p.chunks_.length) : p.chunks_.find? isHint = some p.chunks_[k] := by
  obtain ⟨_, hhit, hmiss⟩ := List.findIdx?_eq_some_iff_getElem.mp h
  rw [List.find?_eq_some_iff_getElem]
  refine ⟨hhit, k, hk, rfl, fun j hj => ?_⟩
  simpa using hmiss j hj

/-- One `Mutate` honours the precondition unless it takes the hint branch on an empty chunk. -/
theorem Edit.honoured_iff {sh : Shuffle} {m : Mutator} {seed : UInt32} {p q : PngMutator}
    {calls : List MutatorCall} (h : Edit sh m seed p q calls) :
    (∀ c ∈ calls, c.Honoured) ↔ ¬CallsOnEmptyHint seed p := by
  have hother : branch seed ≠ 5 → ¬CallsOnEmptyHint seed p := fun hne hcall => hne hcall.1
  cases h with
  | ihdr hb =>
    refine iff_of_true ?_ (hother (by omega))
    rw [List.forall_mem_singleton, callOn_honoured]
    exact List.ne_nil_of_length_pos (by rw [p.ihdr_.2]; decide)
  | payload k hk hb hidx =>
    refine iff_of_true ?_ (hother (by omega))
    rw [List.forall_mem_singleton]
    exact (callOn_honoured _).mpr (grown_ne_nil _ _)
  | shuffle hb => exact iff_of_true (fun c hc => by cases hc) (hother (by omega))
  | delete k hk hb hidx => exact iff_of_true (fun c hc => by cases hc) (hother (by omega))
  | insert ch r pos hb hdraw hpos => exact iff_of_true (fun c hc => by cases hc) (hother (by omega))
  | hint k hk hb hfind =>
    have hfind? := find?_of_findIdx? hfind hk
    rw [List.forall_mem_singleton, callOn_honoured]
    constructor
    · intro hne hcall
      obtain ⟨-, ch, hch, hnil⟩ := hcall
      rw [hfind?] at hch
      cases hch
      exact hne hnil
    · intro hnot hnil
      exact hnot ⟨hb, _, hfind?, hnil⟩
  | empty hb hp =>
    refine iff_of_true (fun c hc => by cases hc) ?_
    intro hcall
    obtain ⟨-, ch, hch, -⟩ := hcall
    rw [hp] at hch
    cases hch
  | noHint hb hfind =>
    refine iff_of_true (fun c hc => by cases hc) ?_
    intro hcall
    obtain ⟨-, ch, hch, -⟩ := hcall
    have hnone := List.findIdx?_eq_none_iff.mp hfind ch (List.mem_of_find?_eq_some hch)
    rw [List.find?_some hch] at hnone
    cases hnone

/-- Hint chunks stay non-empty if the byte mutator stays in range. -/
theorem reachable_noEmptyHint {z : Zlib} {sh : Shuffle} {p : PngMutator}
    (h : Reachable z sh NoEmptyHint (fun m _ _ => m.InRange) p) : NoEmptyHint p := by
  refine Reachable.chunks (fun ch => isHint ch = true → ch.v ≠ []) (fun p _ hp => hp) ?_ h
  intro m seed p q calls hm hp hedit
  refine hedit.forall _ hp ?_ ?_ ?_
  · intro _ k hk _ _
    have hpos := List.length_pos_of_ne_nil (grown_ne_nil p.chunks_[k].v (rnd (firstDraw seed)))
    apply List.ne_nil_of_length_pos
    simp only [Chunk.withV, mutateV, resize_length]
    exact (hm _ _ _ hpos (Nat.le_refl _)).1
  · intro _ ch r hdraw hhint
    apply List.ne_nil_of_length_pos
    rw [(drawChunk_spec hdraw).2.1 (decide_eq_true_iff.mp hhint)]
    decide
  · intro _ ch hch hhint _
    apply List.ne_nil_of_length_pos
    simp only [Chunk.withV, Mutator.call, m.keeps]
    exact List.length_pos_of_ne_nil (hp ch hch hhint)

/-- **Every call of the byte mutator honours its precondition, but for the hint branch on
an empty hint chunk**; in a run over files none of whose hint chunks is empty, every call does. -/
theorem mutator_calls_honoured (z : Zlib) (sh : Shuffle) :
    (∀ m seed p q calls, mutate sh m seed p = some (q, calls) →
      ((∀ c ∈ calls, c.Honoured) ↔ ¬CallsOnEmptyHint seed p)) ∧
    ∀ p, Reachable z sh NoEmptyHint (fun m _ _ => m.InRange) p →
      ∀ m seed q calls, mutate sh m seed p = some (q, calls) → ∀ c ∈ calls, c.Honoured := by
  refine ⟨fun m seed p q calls hmut => (edit_of_mutate hmut).honoured_iff, ?_⟩
  intro p hp m seed q calls hmut
  refine (edit_of_mutate hmut).honoured_iff.mpr ?_
  intro hcall
  obtain ⟨-, ch, hch, hnil⟩ := hcall
  exact reachable_noEmptyHint hp ch (List.mem_of_find?_eq_some hch) (List.find?_some hch) hnil

theorem inserted_calls_honoured :
    ∃ q calls, mutate idShuffle oneByte 5 inserted = some (q, calls) ∧ ∀ c ∈ calls, c.Honoured := by
  obtain ⟨q, calls, hmut, -⟩ := mutate_edit idShuffle oneByte 5 inserted
  obtain ⟨calls', hins⟩ := inserted_eq
  have hreach : Reachable starZlib idShuffle NoEmptyHint (fun m _ _ => m.InRange) inserted :=
    .step (.init ⟨parsed_nothing, fun ch hch => by cases hch⟩)
      ⟨oneByte, 52, calls', oneByte_inRange, hins⟩
  exact ⟨q, calls, hmut,
    (mutator_calls_honoured starZlib idShuffle).2 inserted hreach oneByte 5 q calls hmut⟩

/-- A hint chunk with no payload. -/
def emptyHint : Chunk := ⟨type "fUZz", []⟩

/-- Parsed from a file, and mutated with seed 5: the byte mutator is called on no bytes. -/
theorem emptyHint_call :
    ∃ p, ReachableAny starZlib idShuffle p ∧
      ∃ q calls, mutate idShuffle oneByte 5 p = some (q, calls) ∧ ¬∀ c ∈ calls, c.Honoured := by
  have hparsed : Parsed starZlib ⟨Ihdr.zero, [emptyHint]⟩ :=
    ⟨(oneChunk emptyHint).bytes, by decide +kernel⟩
  obtain ⟨q, calls, hmut, hedit⟩ := mutate_edit idShuffle oneByte 5 ⟨Ihdr.zero, [emptyHint]⟩
  refine ⟨_, .init ⟨hparsed, trivial⟩, q, calls, hmut, ?_⟩
  rw [hedit.honoured_iff, not_not]
  exact ⟨by decide +kernel, emptyHint, rfl, rfl⟩

/-! ### The hint chunk's layout -/

/-- Every hint chunk of the state has the length it is inserted with. -/
def HintLayout (p : PngMutator) : Prop := ∀ ch ∈ p.chunks_, isHint ch = true → ch.v.length = 16

/-- The state has no hint chunk. -/
def NoHint (p : PngMutator) : Prop := ∀ ch ∈ p.chunks_, isHint ch = false

/-- If `Mutate` picks a hint chunk as its random chunk, the byte mutator keeps its size. -/
def KeepsHint (m : Mutator) (seed : UInt32) (p : PngMutator) : Prop :=
  branch seed = 1 → ∀ ch, p.chunks_[drawIndex seed p.chunks_.length]? = some ch → isHint ch = true →
    (m.call (callOn ch.v)).2 = 16

/-- The random chunk's new length: on a hint chunk of 16 bytes, what the byte mutator returns. -/
theorem mutateV_length {v : V} (hv : v ≠ []) (m : Mutator) (r : Nat) :
    (mutateV m v r).1.length = (m.call (callOn v)).2 := by
  cases v with
  | nil => exact absurd rfl hv
  | cons b v => rw [mutateV, grown_cons, resize_length]

/-- One `Mutate` keeps the layout exactly if it keeps the size of a hint chunk it picks. -/
theorem Edit.hintLayout_iff {sh : Shuffle} {m : Mutator} {seed : UInt32} {p q : PngMutator}
    {calls : List MutatorCall} (h : Edit sh m seed p q calls) (hp : HintLayout p) :
    HintLayout q ↔ KeepsHint m seed p := by
  have hlength (ch : Chunk) (hch : ch ∈ p.chunks_) (hhint : isHint ch = true) :
      (mutateV m ch.v (rnd (firstDraw seed))).1.length = (m.call (callOn ch.v)).2 :=
    mutateV_length (List.ne_nil_of_length_pos (by rw [hp ch hch hhint]; decide)) m _
  constructor
  · -- the picked chunk is in the new state with its new length
    intro hq hb ch hch hhint
    obtain ⟨hk, rfl⟩ := List.getElem?_eq_some_iff.mp hch
    cases h with
    | payload k hk' _ hidx =>
      subst hidx
      have hnew := hq _ (p.mem_setV hk _) hhint
      rw [← hlength _ (List.getElem_mem hk) hhint]
      exact hnew
    | empty _ hnil =>
      rw [hnil] at hk
      exact absurd hk (Nat.not_lt_zero _)
    | ihdr hb' => omega
    | shuffle hb' => omega
    | delete _ _ hb' _ => omega
    | insert _ _ _ hb' _ _ => omega
    | hint _ _ hb' _ => omega
    | noHint hb' _ => omega
  · intro hkeep
    refine h.forall (fun ch => isHint ch = true → ch.v.length = 16) hp ?_ ?_ ?_
    · intro hb k hk hidx hhint
      rw [Chunk.withV, hlength _ (List.getElem_mem hk) hhint]
      subst hidx
      exact hkeep hb _ (List.getElem?_eq_getElem hk) hhint
    · intro _ ch r hdraw hhint
      exact (drawChunk_spec hdraw).2.1 (decide_eq_true_iff.mp hhint)
    · intro _ ch hch hhint _
      simp only [Chunk.withV, Mutator.call, m.keeps]
      exact hp ch hch hhint

/-- **In a run that starts without hint chunks, every hint chunk has 16 bytes as long as
each `Mutate` keeps the size of a hint chunk it picks as its random chunk**; and a
`Mutate` that does not, breaks it. -/
theorem hint_layout_kept (z : Zlib) (sh : Shuffle) :
    (∀ p, Reachable z sh NoHint KeepsHint p → HintLayout p) ∧
    ∀ m seed p q calls, HintLayout p → mutate sh m seed p = some (q, calls) →
      (HintLayout q ↔ KeepsHint m seed p) := by
  refine ⟨fun p h => ?_, fun m seed p q calls hp hmut => (edit_of_mutate hmut).hintLayout_iff hp⟩
  refine Reachable.chunks (fun ch => isHint ch = true → ch.v.length = 16) ?_ ?_ h
  · intro p _ hp ch hch hhint
    rw [hp ch hch] at hhint
    cases hhint
  · intro m seed p q calls hkeep hp hedit
    exact (hedit.hintLayout_iff hp).mpr hkeep

theorem inserted_layout : Reachable starZlib idShuffle NoHint KeepsHint inserted ∧ HintLayout inserted := by
  obtain ⟨calls, hmut⟩ := inserted_eq
  have hkeep : KeepsHint oneByte 52 ⟨Ihdr.zero, []⟩ := fun _ ch hch => by cases hch
  have hreach : Reachable starZlib idShuffle NoHint KeepsHint inserted :=
    .step (.init ⟨parsed_nothing, fun ch hch => by cases hch⟩) ⟨oneByte, 52, calls, hkeep, hmut⟩
  exact ⟨hreach, (hint_layout_kept starZlib idShuffle).1 inserted hreach⟩

/-- Seed 52 inserts a hint chunk, seed 0 picks it as the random chunk: one byte is left. -/
theorem hint_shrinks :
    ∃ p, Reachable starZlib idShuffle NoHint (fun m _ _ => m.InRange) p ∧ ¬HintLayout p := by
  obtain ⟨calls, hmut⟩ := inserted_eq
  have hreach : Reachable starZlib idShuffle NoHint (fun m _ _ => m.InRange) inserted :=
    .step (.init ⟨parsed_nothing, fun ch hch => by cases hch⟩) ⟨oneByte, 52, calls, oneByte_inRange, hmut⟩
  obtain ⟨q, calls', hmut', hedit⟩ := mutate_edit idShuffle oneByte 0 inserted
  refine ⟨q, .step hreach ⟨oneByte, 0, calls', oneByte_inRange, hmut'⟩, ?_⟩
  have hlayout : HintLayout inserted := by
    intro ch hch _
    rw [List.mem_singleton.mp hch]
    exact fill_length ..
  rw [hedit.hintLayout_iff hlayout]
  intro hkeep
  have hone := hkeep (by decide +kernel) _ rfl (by decide)
  exact absurd hone (by decide)

end FuzzerTestSuite.Png
