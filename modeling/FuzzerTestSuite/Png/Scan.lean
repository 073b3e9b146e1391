import FuzzerTestSuite.Png.Parser

/-! The stream as a list of chunks.

`scan` is the chunk loop without its second half: the chunks the loop reads, in
file order and still encoded, and how it is left. It does not depend on zlib. The
loop is a fold of `absorb` over that list (`readChunks_eq`), so that what the
loop does to the stream and what it does to the chunks are separate questions. -/
namespace FuzzerTestSuite.Png
open Library Library.Bytes Library.WhileLoop

/-! ### What is used up -/

/-- The header is 33 bytes. -/
theorem readHeader_takes {s s' : IStream} {ihdr : Ihdr} (h : readHeader s = some (ihdr, s')) :
    s.Takes s' 33 := by
  simp only [readHeader] at h
  split at h
  · cases h
  · split at h
    · cases h
    · cases h
      exact (((((read4_takes _).trans (read4_takes _)).trans (readInteger_takes _)).trans
        (read4_takes _)).trans (IStream.read_takes _ 13)).trans (read4_takes _)

/-- What a pass that finds a chunk says of it and of the stream. -/
theorem readChunk_chunk {s s' : IStream} {c : Chunk} (h : readChunk s = .chunk c s') :
    c.type ≠ type "IEND" ∧ c.v.length ≤ 2 ^ 20 ∧ s.Takes s' (12 + c.v.length) := by
  simp only [readChunk] at h
  split at h
  · cases h
  · split at h
    · cases h
    · rename_i htype hlen
      cases h
      have hv : ((read4 (readInteger s).2).2.readInto
          (List.replicate (readInteger s).1.toNat 0)).1.length = (readInteger s).1.toNat := by
        rw [IStream.readInto, overwrite_length, List.length_replicate]
      refine ⟨htype, by rw [hv]; omega, ?_⟩
      rw [hv]
      have htakes := ((readInteger_takes s).trans (read4_takes _)).trans
        (((read4 (readInteger s).2).2.read_takes (readInteger s).1.toNat).trans (read4_takes _))
      rw [show 12 + (readInteger s).1.toNat = 4 + 4 + ((readInteger s).1.toNat + 4) by omega]
      simpa only [IStream.readInto, List.length_replicate] using htakes

/-- No more chunks than this can be read: each uses up twelve bytes, but for the last. -/
def IStream.chunkBudget (s : IStream) : Nat := if s.fail then 0 else s.rest.length / 12 + 1

/-- Nor more bytes of payload: each stands in the stream, but for those of the last chunk,
which may claim more than is left. -/
def IStream.byteBudget (s : IStream) : Nat := if s.fail then 0 else s.rest.length + 2 ^ 20

theorem readChunk_chunkBudget {s s' : IStream} {c : Chunk} (hs : s.fail = false)
    (h : readChunk s = .chunk c s') : 1 + s'.chunkBudget ≤ s.chunkBudget := by
  rcases (readChunk_chunk h).2.2.length with hfail | ⟨hfail, hrest⟩
  · simp only [IStream.chunkBudget, hs, hfail, Bool.false_eq_true, if_true, if_false]
    omega
  · simp only [IStream.chunkBudget, hs, hfail, Bool.false_eq_true, if_false]
    omega

theorem readChunk_byteBudget {s s' : IStream} {c : Chunk} (hs : s.fail = false)
    (h : readChunk s = .chunk c s') : c.v.length + s'.byteBudget ≤ s.byteBudget := by
  obtain ⟨-, hlen, htakes⟩ := readChunk_chunk h
  rcases htakes.length with hfail | ⟨hfail, hrest⟩
  · simp only [IStream.byteBudget, hs, hfail, Bool.false_eq_true, if_true, if_false]
    omega
  · simp only [IStream.byteBudget, hs, hfail, Bool.false_eq_true, if_false]
    omega

/-- What is left to read after a header. -/
theorem IStream.Takes.budgets {s s' : IStream} {n : Nat} (h : s.Takes s' n) :
    s'.chunkBudget ≤ (if s.rest.length < n then 0 else (s.rest.length - n) / 12 + 1) ∧
      s'.byteBudget ≤ s.rest.length + 2 ^ 20 - n := by
  unfold IStream.chunkBudget IStream.byteBudget
  rcases h.length with hfail | ⟨hfail, hrest⟩
  · rw [if_pos hfail, if_pos hfail]
    exact ⟨Nat.zero_le _, Nat.zero_le _⟩
  · have hlen : s'.rest.length = s.rest.length - n := by omega
    rw [hfail, if_neg Bool.false_ne_true, if_neg Bool.false_ne_true, if_neg (by omega), hlen]
    exact ⟨Nat.le_refl _, by omega⟩

/-! ### All chunks -/

/-- What passes use up. -/
def IStream.left (s : IStream) : Nat := if s.fail then 0 else s.rest.length + 1

def scanFrom : Nat → IStream → Exit × List Chunk
  | 0, _ => (.endOfStream, [])
  | n + 1, s =>
    if s.fail then (.endOfStream, [])
    else
      match readChunk s with
      | .iend => (.iend, [])
      | .oversized => (.oversized, [])
      | .chunk c s' => ((scanFrom n s').1, c :: (scanFrom n s').2)

def scan (s : IStream) : Exit × List Chunk := scanFrom s.passes s

theorem left_lt_passes (s : IStream) : s.left < s.passes := by
  unfold IStream.left IStream.passes
  split <;> omega

theorem readChunk_left {s s' : IStream} {c : Chunk} (hs : s.fail = false)
    (h : readChunk s = .chunk c s') : s'.left < s.left := by
  rcases (readChunk_chunk h).2.2.length with hfail | ⟨hfail, hrest⟩
  · simp only [IStream.left, hs, hfail, Bool.false_eq_true, if_true, if_false]
    omega
  · simp only [IStream.left, hs, hfail, Bool.false_eq_true, if_false]
    omega

theorem scanFrom_enough {n m : Nat} {s : IStream} (hn : s.left < n) (hm : s.left < m) :
    scanFrom n s = scanFrom m s := by
  induction n generalizing m s with
  | zero => exact absurd hn (Nat.not_lt_zero _)
  | succ n ih =>
    obtain ⟨m, rfl⟩ : ∃ k, m = k + 1 := ⟨m - 1, by omega⟩
    simp only [scanFrom]
    cases hf : s.fail with
    | true => rfl
    | false =>
      cases hr : readChunk s with
      | iend => rfl
      | oversized => rfl
      | chunk c s' =>
        have hlt := readChunk_left hf hr
        rw [if_neg (by decide), if_neg (by decide)]
        simp only [ih (m := m) (s := s') (by omega) (by omega)]

/-- The scan, one chunk at a time. -/
theorem scan_eq (s : IStream) :
    scan s =
      if s.fail then (.endOfStream, [])
      else
        match readChunk s with
        | .iend => (.iend, [])
        | .oversized => (.oversized, [])
        | .chunk c s' => ((scan s').1, c :: (scan s').2) := by
  have hpasses : s.passes = (s.rest.length + 1) + 1 := rfl
  rw [scan, hpasses, scanFrom]
  cases hf : s.fail with
  | true => rfl
  | false =>
    cases hr : readChunk s with
    | iend => rfl
    | oversized => rfl
    | chunk c s' =>
      have hlt := readChunk_left hf hr
      have hleft : s.left = s.rest.length + 1 := by
        simp only [IStream.left, hf, Bool.false_eq_true, if_false]
      simp only [scan, scanFrom_enough (n := s.rest.length + 1) (by omega) (left_lt_passes s')]

/-- What holds of one chunk read holds of all. -/
theorem scan_forall (P : Chunk → Prop) (hP : ∀ s c s', readChunk s = .chunk c s' → P c)
    (s : IStream) : ∀ c ∈ (scan s).2, P c := by
  suffices ∀ n s, ∀ c ∈ (scanFrom n s).2, P c from this _ s
  intro n
  induction n with
  | zero => intro s c hc; cases hc
  | succ n ih =>
    intro s c hc
    simp only [scanFrom] at hc
    split at hc
    · cases hc
    · split at hc
      · cases hc
      · cases hc
      · rename_i c' s' hr
        rcases List.mem_cons.mp hc with rfl | hc
        · exact hP s _ s' hr
        · exact ih s' c hc

/-- The terminator is never one of the chunks. -/
theorem scan_type (s : IStream) : ∀ c ∈ (scan s).2, c.type ≠ type "IEND" :=
  scan_forall _ (fun _ _ _ h => (readChunk_chunk h).1) s

/-- Every payload is within the limit the reader checks. -/
theorem scan_length (s : IStream) : ∀ c ∈ (scan s).2, c.v.length ≤ 2 ^ 20 :=
  scan_forall _ (fun _ _ _ h => (readChunk_chunk h).2.1) s

/-- An amount that each chunk takes no more of than it uses up of the stream, all chunks
together take no more of than the stream has. -/
theorem scan_cost (cost : Chunk → Nat) (μ : IStream → Nat)
    (hcost : ∀ s c s', s.fail = false → readChunk s = .chunk c s' → cost c + μ s' ≤ μ s)
    (s : IStream) : ((scan s).2.map cost).sum ≤ μ s := by
  suffices ∀ n s, ((scanFrom n s).2.map cost).sum ≤ μ s from this _ s
  intro n
  induction n with
  | zero => intro s; exact Nat.zero_le _
  | succ n ih =>
    intro s
    cases hs : s.fail with
    | true =>
      simp only [scanFrom, hs, if_true]
      exact Nat.zero_le _
    | false =>
      cases hr : readChunk s with
      | iend =>
        simp only [scanFrom, hs, hr, Bool.false_eq_true, if_false]
        exact Nat.zero_le _
      | oversized =>
        simp only [scanFrom, hs, hr, Bool.false_eq_true, if_false]
        exact Nat.zero_le _
      | chunk c s' =>
        have hstep := hcost s c s' hs hr
        have hrest := ih s'
        simp only [scanFrom, hs, hr, Bool.false_eq_true, if_false, List.map_cons, List.sum_cons]
        omega

theorem scan_count (s : IStream) : (scan s).2.length ≤ s.chunkBudget := by
  have := scan_cost (fun _ => 1) IStream.chunkBudget (fun _ _ _ => readChunk_chunkBudget) s
  rwa [List.map_const', List.sum_replicate_nat, Nat.mul_one] at this

theorem scan_total (s : IStream) : ((scan s).2.map (·.v.length)).sum ≤ s.byteBudget :=
  scan_cost (·.v.length) IStream.byteBudget (fun _ _ _ => readChunk_byteBudget) s

/-- **The chunk loop is a fold over the scanned chunks**, left the way the scan is. -/
theorem readChunks_eq (z : Zlib) (s : IStream) :
    readChunks z s = ((scan s).2.foldlM (absorb z) ⟨[], none⟩).map fun p => ((scan s).1, p) := by
  suffices ∀ n s p, s.left < n →
      run (chunkPass z) n (s, p) = ((scanFrom n s).2.foldlM (absorb z) p).map fun p => ((scanFrom n s).1, p) from
    this _ s _ (left_lt_passes s)
  intro n
  induction n with
  | zero => intro s p h; exact absurd h (Nat.not_lt_zero _)
  | succ n ih =>
    intro s p h
    cases hf : s.fail with
    | true =>
      rw [run_done (r := (.endOfStream, p)) (by simp only [chunkPass, hf, if_true])]
      simp only [scanFrom, hf, if_true]
      rfl
    | false =>
      cases hr : readChunk s with
      | iend =>
        rw [run_done (r := (.iend, p)) (by simp only [chunkPass, hf, hr, Bool.false_eq_true, if_false])]
        simp only [scanFrom, hf, hr, Bool.false_eq_true, if_false]
        rfl
      | oversized =>
        rw [run_done (r := (.oversized, p)) (by simp only [chunkPass, hf, hr, Bool.false_eq_true, if_false])]
        simp only [scanFrom, hf, hr, Bool.false_eq_true, if_false]
        rfl
      | chunk c s' =>
        have hlt := readChunk_left hf hr
        have hpass : chunkPass z (s, p) = (absorb z p c).map fun p' => .again (s', p') := by
          simp only [chunkPass, hf, hr, Bool.false_eq_true, if_false]
        simp only [scanFrom, hf, hr, Bool.false_eq_true, if_false, List.foldlM_cons]
        cases ha : absorb z p c with
        | none =>
          rw [run_stuck (by rw [hpass, ha]; rfl)]
          rfl
        | some p' =>
          have hagain : chunkPass z (s, p) = some (.again (s', p')) := by
            rw [hpass, ha]
            rfl
          rw [run_again hagain, ih s' p' (by omega)]
          rfl

/-- A pass that goes round again has found a chunk. -/
theorem chunkPass_again {z : Zlib} {t t' : IStream × Parse} (h : chunkPass z t = some (.again t')) :
    t.1.fail = false ∧ ∃ c, readChunk t.1 = .chunk c t'.1 := by
  obtain ⟨s, p⟩ := t
  cases hf : s.fail with
  | true => simp [chunkPass, hf] at h
  | false =>
    refine ⟨rfl, ?_⟩
    cases hr : readChunk s with
    | iend => simp [chunkPass, hf, hr] at h
    | oversized => simp [chunkPass, hf, hr] at h
    | chunk c s' =>
      simp only [chunkPass, hf, hr, Bool.false_eq_true, if_false] at h
      obtain ⟨p', -, hp'⟩ := Option.map_eq_some_iff.mp h
      cases hp'
      exact ⟨c, rfl⟩

/-- `readChunks` is the unbounded loop: its passes are enough whenever any number is. -/
theorem readChunks_eq_some_iff (z : Zlib) (s : IStream) (r : Exit × Parse) :
    readChunks z s = some r ↔ ∃ n, run (chunkPass z) n (s, ⟨[], none⟩) = some r := by
  have hvariant : ∀ t t', chunkPass z t = some (.again t') → t'.1.left < t.1.left := by
    intro t t' h
    obtain ⟨hf, c, hr⟩ := chunkPass_again h
    exact readChunk_left hf hr
  refine ⟨fun h => ⟨_, h⟩, fun ⟨n, h⟩ => ?_⟩
  have hleft := left_lt_passes s
  have hmax : s.left < max n s.passes := Nat.lt_of_lt_of_le hleft (Nat.le_max_right ..)
  rw [readChunks, run_variant (fun t => t.1.left) hvariant hleft hmax]
  exact run_mono h (Nat.le_max_left ..)

end FuzzerTestSuite.Png
