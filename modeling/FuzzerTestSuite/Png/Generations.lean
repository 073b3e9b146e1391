import FuzzerTestSuite.Png.EntryPoints

/-! A file parsed and written back, again and again.

A seed that leaves the state as it is (the hint branch without a hint chunk) makes
`LLVMFuzzerCustomMutator` write back what it has read (`customMutator_idle`), so an input
may live through many generations without a mutation. All that changes from the first one
on is the IDAT payload: each generation holds the last one's data inflated once more
(`generations_age`). An image whose data is no stream itself, or too long for the reader,
is gone in the second generation, and from there on the bytes stay as they are
(`generations_settle`). -/
namespace FuzzerTestSuite.Png
open Library Library.Bytes Library.Partial

/-! ### One generation -/

/-- What `Serialize` writes for what the constructor makes of the bytes. -/
def regenerate (z : Zlib) (data : V) : Option V := (pngMutator z data).bind (serialize z)

def generations (z : Zlib) : Nat → V → Option V
  | 0, data => some data
  | n + 1, data => (generations z n data).bind (regenerate z)

/-- A chunk of the file, inflated by the constructor and written by `Serialize`. -/
def reencode (z : Zlib) (c : Chunk) : Option Chunk := (decodeChunk z .iend c).bind (written z)

theorem mutate_idle (sh : Shuffle) (m : Mutator) {seed : UInt32} {p : PngMutator} (hb : branch seed = 5)
    (hp : ∀ ch ∈ p.chunks_, isHint ch = false) : mutate sh m seed p = some (p, []) := by
  obtain ⟨q, calls, hmut, hedit⟩ := mutate_edit sh m seed p
  rw [hmut]
  cases hedit with
  | noHint => rfl
  | hint k hk _ hfind =>
    obtain ⟨_, hhit, -⟩ := List.findIdx?_eq_some_iff_getElem.mp hfind
    rw [hp _ (List.getElem_mem hk)] at hhit
    cases hhit
  | ihdr hb' => omega
  | payload _ _ hb' _ => omega
  | shuffle hb' => omega
  | delete _ _ hb' _ => omega
  | insert _ _ _ hb' _ _ => omega
  | empty hb' _ => omega

/-- Without a hint chunk, the hint branch writes back what was read. -/
theorem customMutator_idle (z : Zlib) (sh : Shuffle) (m : Mutator) {data : V} {size maxSize : Nat}
    {seed : UInt32} (hb : branch seed = 5) {p : PngMutator} (hp : pngMutator z (data.take size) = some p)
    (hhint : ∀ ch ∈ p.chunks_, isHint ch = false) :
    llvmFuzzerCustomMutator z sh m data size maxSize seed =
      (regenerate z (data.take size)).map fun str =>
        if maxSize < str.length then (data, size) else (overwrite data str, str.length) := by
  rw [llvmFuzzerCustomMutator, regenerate, hp]
  simp only [Option.bind_eq_bind, Option.bind_some, mutate_idle sh m hb hhint]
  cases serialize z p with
  | none => rfl
  | some str =>
    simp only [Option.bind_some, Option.map_some]
    split <;> rfl

/-- A generation works on each of the merged chunks by itself. -/
theorem regenerate_bytes (z : Zlib) (f : PngFile) (h : Readable f.cs) :
    regenerate z f.bytes =
      ((merge f.cs).mapM (reencode z)).map fun cs => (serializedFile z f.ihdr cs).bytes := by
  have hbind := mapM_bind (f := decodeChunk z .iend) (g := written z) (merge f.cs)
  rw [regenerate, pngMutator_bytes z f h]
  unfold reencode
  rw [← hbind]
  cases (merge f.cs).mapM (decodeChunk z .iend) with
  | none => rfl
  | some chs => exact serialize_eq z ⟨f.ihdr, chs⟩

/-! ### Chunks that stay as they are -/

/-- The chunk `Serialize` makes of `c`: a profile is encoded anew, under the writer's own name. -/
def Rewritten (z : Zlib) (deflate : V → V) (c c' : Chunk) : Prop :=
  c'.type = c.type ∧
    if c.type = type "iCCP" then
      ∃ profile, uncompress z (skipName c.v) = some profile ∧
        c'.v = [0x78, 0, 0] ++ compressed deflate profile
    else c'.v = c.v

/-- Every profile is inflated to something whose encoding the reader will take again. -/
def ProfilesFit (z : Zlib) (deflate : V → V) (cs : List Chunk) : Prop :=
  ∀ c ∈ cs, c.type = type "iCCP" → ∃ profile, uncompress z (skipName c.v) = some profile ∧
    ProfileStorable z deflate profile

/-- A chunk other than IDAT that a generation reads and writes back as it is. -/
structure Steady (z : Zlib) (c : Chunk) : Prop where
  notIdat : isIdat c = false
  notIend : c.type ≠ type "IEND"
  length : c.v.length ≤ 2 ^ 20
  same : reencode z c = some c

section Encoding
variable {z : Zlib} {deflate : V → V}

theorem decodeChunk_storable (hz : Encodes z deflate) {cs : List Chunk} (hread : Readable cs)
    (hfit : ProfilesFit z deflate cs) {c : Chunk} (hc : c ∈ cs) (hidat : isIdat c = false) :
    ∃ ch, decodeChunk z .iend c = some ch ∧ Storable z deflate ch ∧ ch.type = c.type := by
  have hnot : c.type ≠ type "IDAT" := of_decide_eq_false hidat
  by_cases ht : c.type = type "iCCP"
  · obtain ⟨profile, hu, hst⟩ := hfit c hc ht
    obtain ⟨hcomp, -⟩ := hst.inverse hz
    refine ⟨{c with v := profile}, ?_, ⟨hnot, fun h => absurd ht h, fun _ => hst⟩, rfl⟩
    rw [decodeChunk_notIdat z .iend hidat, keepChunk, if_pos ht]
    simp only [hu, hcomp, Option.bind_eq_bind, Option.bind_some]
  · refine ⟨c, ?_, ⟨hnot, fun _ => (hread c hc).2, fun h => absurd h ht⟩, rfl⟩
    rw [decodeChunk_notIdat z .iend hidat, keepChunk, if_neg ht]

/-- What a chunk other than IDAT becomes in the first generation, it stays. -/
theorem reencode_steady (hz : Encodes z deflate) {cs : List Chunk} (hread : Readable cs)
    (hfit : ProfilesFit z deflate cs) {c : Chunk} (hc : c ∈ cs) (hidat : isIdat c = false) :
    ∃ c', reencode z c = some c' ∧ Rewritten z deflate c c' ∧ Steady z c' := by
  obtain ⟨ch, hdec, hst, htype⟩ := decodeChunk_storable hz hread hfit hc hidat
  obtain ⟨c', hw, hlen, hback⟩ := storable_written hz hst
  have ht : c'.type = c.type := (written_type hw).trans htype
  refine ⟨c', by rw [reencode, hdec]; exact hw, ⟨ht, ?_⟩, ?_, ht ▸ (hread c hc).1, hlen, ?_⟩
  · by_cases hiccp : c.type = type "iCCP"
    · rw [if_pos hiccp]
      obtain ⟨profile, hu, hst⟩ := hfit c hc hiccp
      refine ⟨profile, hu, ?_⟩
      have hv : ch.v = profile := Option.some.inj ((decodeChunk_iccp hdec (htype.trans hiccp)).1.symm.trans hu)
      rw [written_iccp (htype.trans hiccp), hv, (hst.inverse hz).1] at hw
      rw [← Option.some.inj hw]
    · rw [if_neg hiccp]
      rw [decodeChunk_notIdat z .iend hidat, keepChunk, if_neg hiccp] at hdec
      rw [written_other (htype ▸ hiccp)] at hw
      rw [← Option.some.inj hw, ← Option.some.inj hdec]
  · rw [isIdat_eq ht]
    exact hidat
  · rw [reencode, hback]
    exact hw

theorem mapM_reencode (hz : Encodes z deflate) {cs : List Chunk} (hread : Readable cs)
    (hfit : ProfilesFit z deflate cs) (hidat : ∀ c ∈ cs, isIdat c = false) :
    ∃ cs', cs.mapM (reencode z) = some cs' ∧ List.Forall₂ (Rewritten z deflate) cs cs' ∧
      ∀ c ∈ cs', Steady z c := by
  have hsome : (cs.mapM (reencode z)).isSome := by
    rw [mapM_isSome]
    intro c hc
    obtain ⟨c', hc', -⟩ := reencode_steady hz hread hfit hc (hidat c hc)
    rw [hc']
    rfl
  obtain ⟨cs', hcs'⟩ := Option.isSome_iff_exists.mp hsome
  have hspec : ∀ c ∈ cs, ∀ c', reencode z c = some c' → Rewritten z deflate c c' ∧ Steady z c' := by
    intro c hc c' hc'
    obtain ⟨c'', hc'', hrew, hst⟩ := reencode_steady hz hread hfit hc (hidat c hc)
    rw [hc''] at hc'
    cases hc'
    exact ⟨hrew, hst⟩
  refine ⟨cs', hcs', ?_, ?_⟩
  · have hrel := mapM_eq_some.mp hcs'
    clear hcs' hsome hidat hfit hread
    induction hrel with
    | nil => exact .nil
    | cons hxy _ ih =>
      obtain ⟨hhead, htail⟩ := List.forall_mem_cons.mp hspec
      exact .cons (hhead _ hxy).1 (ih htail)
  · intro c' hc'
    obtain ⟨c, hc, hre⟩ := mem_of_mapM hcs' c' hc'
    exact (hspec c hc c' hre).2

end Encoding

/-! ### Later generations -/

/-- The file with `data` for its IDAT chunk between the chunks `pre` and `post`. -/
def imageFile (z : Zlib) (ihdr : Ihdr) (pre post : List Chunk) (data : V) : PngFile :=
  serializedFile z ihdr (pre ++ ⟨type "IDAT", data⟩ :: post)

section Steps
variable {z : Zlib} {ihdr : Ihdr} {pre post : List Chunk}

theorem steady_readable {cs : List Chunk} (h : ∀ c ∈ cs, Steady z c) : Readable cs :=
  fun c hc => ⟨(h c hc).notIend, (h c hc).length⟩

theorem steady_self {cs : List Chunk} (h : ∀ c ∈ cs, Steady z c) : cs.mapM (reencode z) = some cs :=
  mapM_self fun c hc => (h c hc).same

theorem merge_image (hpre : ∀ c ∈ pre, isIdat c = false) (hpost : ∀ c ∈ post, isIdat c = false) (data : V) :
    merge (pre ++ ⟨type "IDAT", data⟩ :: post) = pre ++ ⟨type "IDAT", data⟩ :: post := by
  have hi : isIdat ⟨type "IDAT", data⟩ = true := (isIdat_iff _).mpr rfl
  have hkeep : post.filter (!isIdat ·) = post :=
    List.filter_eq_self.mpr fun c hc => by rw [hpost c hc]; rfl
  rw [merge_split hpre hi, idatData_none hpost, hkeep, List.append_nil]

theorem reencode_idat (data : V) :
    reencode z ⟨type "IDAT", data⟩ = (uncompress z data).map fun d => ⟨type "IDAT", d⟩ := by
  have hi : isIdat ⟨type "IDAT", data⟩ = true := (isIdat_iff _).mpr rfl
  rw [reencode, decodeChunk, if_pos hi, if_neg (by decide)]
  cases uncompress z data with
  | none => rfl
  | some d => exact written_other (idat_ne_iccp rfl)

/-- A file of chunks that stay as they are stays as it is. -/
theorem regenerate_plain (ihdr : Ihdr) {cs : List Chunk} (h : ∀ c ∈ cs, Steady z c) :
    regenerate z (serializedFile z ihdr cs).bytes = some (serializedFile z ihdr cs).bytes := by
  have hread : Readable (serializedFile z ihdr cs).cs := by
    rw [serializedFile_cs]
    exact steady_readable h
  rw [regenerate_bytes z _ hread, serializedFile_cs, merge_none fun c hc => (h c hc).notIdat, steady_self h]
  rfl

variable (hpre : ∀ c ∈ pre, Steady z c) (hpost : ∀ c ∈ post, Steady z c)
include hpre hpost

/-- With an IDAT chunk within the limit, only its data changes: it is inflated. -/
theorem regenerate_image {data : V} (hdata : data.length ≤ 2 ^ 20) :
    regenerate z (imageFile z ihdr pre post data).bytes =
      (uncompress z data).map fun d => (imageFile z ihdr pre post d).bytes := by
  have hread : Readable (imageFile z ihdr pre post data).cs := by
    rw [imageFile, serializedFile_cs]
    intro c hc
    rcases List.mem_append.mp hc with hc | hc
    · exact steady_readable hpre c hc
    · rcases List.mem_cons.mp hc with rfl | hc
      · exact ⟨by show type "IDAT" ≠ type "IEND"; decide, hdata⟩
      · exact steady_readable hpost c hc
  rw [regenerate_bytes z _ hread, imageFile, serializedFile_cs,
    merge_image (fun c hc => (hpre c hc).notIdat) (fun c hc => (hpost c hc).notIdat),
    List.mapM_append, List.mapM_cons, steady_self hpre, steady_self hpost, reencode_idat]
  cases uncompress z data with
  | none => rfl
  | some d => rfl

/-- An IDAT chunk over the limit ends the reading: it is lost, and the chunks after it. -/
theorem regenerate_cut {data : V} (hlong : 2 ^ 20 < data.length) (hlt : data.length < 2 ^ 32) :
    regenerate z (imageFile z ihdr pre post data).bytes = some (serializedFile z ihdr pre).bytes := by
  have hscan : scan ⟨(imageFile z ihdr pre post data).body, false⟩ = (.oversized, pre) := by
    have hsplit : (imageFile z ihdr pre post data).chunks =
        pre.map (fileChunk z) ++ fileChunk z ⟨type "IDAT", data⟩ :: post.map (fileChunk z) := by
      rw [imageFile, serializedFile, List.map_append, List.map_cons]
    have hback (cs : List Chunk) : (cs.map (fileChunk z)).map (·.chunk) = cs :=
      serializedFile_cs z ihdr cs
    have hframed : Framed ((imageFile z ihdr pre post data).chunks.map (·.chunk)) := by
      rw [imageFile, serializedFile, hback]
      intro c hc
      rcases List.mem_append.mp hc with hc | hc
      · exact ⟨(hpre c hc).notIend, Nat.lt_of_le_of_lt (hpre c hc).length (by decide)⟩
      · rcases List.mem_cons.mp hc with rfl | hc
        · exact ⟨by show type "IDAT" ≠ type "IEND"; decide, hlt⟩
        · exact ⟨(hpost c hc).notIend, Nat.lt_of_le_of_lt (hpost c hc).length (by decide)⟩
    rw [hsplit] at hframed
    have hpre' : Readable ((pre.map (fileChunk z)).map (·.chunk)) := by
      rw [hback]
      exact steady_readable hpre
    rw [PngFile.body, hsplit, scan_oversized hframed hpre' hlong, hback]
  have hparse : pngMutator z (imageFile z ihdr pre post data).bytes =
      (pre.mapM (decodeChunk z .iend)).map fun chunks => ⟨ihdr, chunks⟩ := by
    have hnot : ∀ c ∈ pre, isIdat c = false := fun c hc => (hpre c hc).notIdat
    rw [pngMutator_eq, readHeader_bytes]
    simp only [hscan, merge_none hnot, mapM_decodeChunk z _ hnot]
    rfl
  have hbind := mapM_bind (f := decodeChunk z .iend) (g := written z) pre
  have hself := steady_self hpre
  unfold reencode at hself
  rw [hself] at hbind
  rw [regenerate, hparse]
  cases hdec : pre.mapM (decodeChunk z .iend) with
  | none =>
    rw [hdec] at hbind
    cases hbind
  | some chs =>
    rw [hdec] at hbind
    have hserial := serialize_eq z ⟨ihdr, chs⟩
    rw [show chs.mapM (written z) = some pre from hbind] at hserial
    exact hserial

end Steps

/-! ### Every generation -/

/-- `pre` and `post` are what the chunks before and after the first IDAT chunk are written as;
the later IDAT chunks are gone. -/
def Around (z : Zlib) (deflate : V → V) (cs pre post : List Chunk) : Prop :=
  ∃ before i after, cs = before ++ i :: after ∧ isIdat i = true ∧ (∀ c ∈ before, isIdat c = false) ∧
    List.Forall₂ (Rewritten z deflate) before pre ∧
    List.Forall₂ (Rewritten z deflate) (after.filter (!isIdat ·)) post

section Ages
variable {z : Zlib} {deflate : V → V} {f : PngFile}

/-- The first generation settles every chunk but the IDAT chunk. -/
theorem first_generation (hz : Encodes z deflate) (hread : Readable f.cs)
    (hidat : ∃ c ∈ f.cs, c.type = type "IDAT") (hfit : ProfilesFit z deflate f.cs) :
    ∃ pre post, Around z deflate f.cs pre post ∧ (∀ c ∈ pre, Steady z c) ∧ (∀ c ∈ post, Steady z c) ∧
      regenerate z f.bytes =
        (uncompress z (idatData f.cs)).map fun d => (imageFile z f.ihdr pre post d).bytes := by
  rcases idat_split f.cs with hnone | ⟨before, i, after, hsplit, hi, hbefore⟩
  · obtain ⟨c, hc, ht⟩ := hidat
    exact absurd (hnone c hc) (by rw [(isIdat_iff c).mpr ht]; decide)
  · have hmem {c : Chunk} (hc : c ∈ before ∨ c ∈ after.filter (!isIdat ·)) : c ∈ f.cs := by
      rw [hsplit]
      rcases hc with hc | hc
      · exact List.mem_append_left _ hc
      · exact List.mem_append_right _ (List.mem_cons_of_mem _ (List.mem_filter.mp hc).1)
    obtain ⟨pre, hpre, hpre₂, hpreS⟩ := @mapM_reencode _ _ hz before
      (fun c hc => hread c (hmem (.inl hc))) (fun c hc => hfit c (hmem (.inl hc))) hbefore
    obtain ⟨post, hpost, hpost₂, hpostS⟩ := @mapM_reencode _ _ hz (after.filter (!isIdat ·))
      (fun c hc => hread c (hmem (.inr hc))) (fun c hc => hfit c (hmem (.inr hc))) (filter_notIdat after)
    refine ⟨pre, post, ⟨before, i, after, hsplit, hi, hbefore, hpre₂, hpost₂⟩, hpreS, hpostS, ?_⟩
    have hmerge : merge f.cs =
        before ++ ⟨type "IDAT", idatData f.cs⟩ :: after.filter (!isIdat ·) := by
      rw [hsplit, merge_split hbefore hi, idatData_append, idatData_none hbefore, idatData_cons hi,
        ← (isIdat_iff i).mp hi]
      rfl
    rw [regenerate_bytes z f hread, hmerge, List.mapM_append, List.mapM_cons, hpre, hpost, reencode_idat]
    cases uncompress z (idatData f.cs) with
    | none => rfl
    | some d => rfl

/-- **From the first generation on only the IDAT data changes: the `n`-th generation holds
the file's IDAT data inflated `n` times**, as long as it stays within the reader's limit. -/
theorem generations_age (hz : Encodes z deflate) (hread : Readable f.cs)
    (hidat : ∃ c ∈ f.cs, c.type = type "IDAT") (hfit : ProfilesFit z deflate f.cs) (d : Nat → V) (N : Nat)
    (hstart : d 0 = idatData f.cs) (hd : ∀ n ≤ N, uncompress z (d n) = some (d (n + 1)))
    (hlen : ∀ n < N, (d (n + 1)).length ≤ 2 ^ 20) :
    ∃ pre post, Around z deflate f.cs pre post ∧ ∀ n ≤ N,
      generations z (n + 1) f.bytes = some (imageFile z f.ihdr pre post (d (n + 1))).bytes := by
  obtain ⟨pre, post, haround, hpre, hpost, hfirst⟩ := first_generation hz hread hidat hfit
  refine ⟨pre, post, haround, ?_⟩
  intro n
  induction n with
  | zero =>
    intro _
    rw [← hstart, hd 0 (Nat.zero_le N)] at hfirst
    exact hfirst
  | succ n ih =>
    intro hn
    rw [generations, ih (by omega), Option.bind_some, regenerate_image hpre hpost (hlen n (by omega)),
      hd (n + 1) hn]
    rfl

/-- A stream, its content of one byte, and nothing from then on. -/
def starAges : Nat → V
  | 0 => starStream
  | 1 => starContent
  | _ => []

theorem starAges_age :
    ∃ pre post, Around starZlib starDeflate [starIdat] pre post ∧ ∀ n ≤ 3,
      generations starZlib (n + 1) (oneChunk starIdat).bytes =
        some (imageFile starZlib Ihdr.zero pre post (starAges (n + 1))).bytes := by
  have hread : Readable (oneChunk starIdat).cs := by decide
  refine generations_age (sampleZlib_encodes rfl) hread ⟨starIdat, .head _, rfl⟩ ?_ starAges 3 rfl ?_ ?_
  · intro c hc ht
    rw [List.mem_singleton.mp hc] at ht
    exact absurd ht (by decide)
  · intro n hn
    obtain rfl | rfl | rfl | rfl : n = 0 ∨ n = 1 ∨ n = 2 ∨ n = 3 := by omega
    all_goals decide +kernel
  · intro n hn
    obtain rfl | rfl | rfl : n = 0 ∨ n = 1 ∨ n = 2 := by omega
    all_goals decide

/-- **An image whose data is no stream itself is gone in the second generation**: from there on all
generations are one file with an empty IDAT chunk. If the data is over the reader's limit, they are
one file of the chunks before it. -/
theorem generations_settle (hz : Encodes z deflate) (hread : Readable f.cs)
    (hidat : ∃ c ∈ f.cs, c.type = type "IDAT") (hfit : ProfilesFit z deflate f.cs) {d : V}
    (hd : uncompress z (idatData f.cs) = some d) :
    ∃ pre post, Around z deflate f.cs pre post ∧
      (d.length ≤ 2 ^ 20 → uncompress z d = some [] → uncompress z [] = some [] →
        ∀ n, generations z (n + 2) f.bytes = some (imageFile z f.ihdr pre post []).bytes) ∧
      (2 ^ 20 < d.length → ∀ n, generations z (n + 2) f.bytes = some (serializedFile z f.ihdr pre).bytes) := by
  obtain ⟨pre, post, haround, hpre, hpost, hfirst⟩ := first_generation hz hread hidat hfit
  have hone : generations z 1 f.bytes = some (imageFile z f.ihdr pre post d).bytes := by
    rw [hd] at hfirst
    exact hfirst
  refine ⟨pre, post, haround, ?_, ?_⟩
  · intro hlen hlost hempty n
    induction n with
    | zero =>
      rw [generations, hone, Option.bind_some, regenerate_image hpre hpost hlen, hlost]
      rfl
    | succ n ih =>
      rw [generations, ih, Option.bind_some, regenerate_image hpre hpost (Nat.zero_le _), hempty]
      rfl
  · intro hlong n
    have hlt : d.length < 2 ^ 32 := Nat.lt_trans (retry_length hd) (by decide)
    induction n with
    | zero => rw [generations, hone, Option.bind_some, regenerate_cut hpre hpost hlong hlt]
    | succ n ih => rw [generations, ih, Option.bind_some, regenerate_plain f.ihdr hpre]

theorem starIdat_settles :
    ∃ pre post, Around starZlib starDeflate [starIdat] pre post ∧ ∀ n,
      generations starZlib (n + 2) (oneChunk starIdat).bytes =
        some (imageFile starZlib Ihdr.zero pre post []).bytes := by
  have hread : Readable (oneChunk starIdat).cs := by decide
  have hfit : ProfilesFit starZlib starDeflate (oneChunk starIdat).cs := by
    intro c hc ht
    rw [List.mem_singleton.mp hc] at ht
    exact absurd ht (by decide)
  have hd : uncompress starZlib (idatData (oneChunk starIdat).cs) = some starContent := by decide +kernel
  obtain ⟨pre, post, haround, hlost, -⟩ :=
    generations_settle (sampleZlib_encodes rfl) hread ⟨starIdat, .head _, rfl⟩ hfit hd
  exact ⟨pre, post, haround, hlost (by decide) (by decide +kernel) (by decide +kernel)⟩

end Ages

end FuzzerTestSuite.Png
