import FuzzerTestSuite.Png.Scan

/-! What the parser makes of the chunks it reads.

`merge` keeps the first IDAT chunk with the payloads of all, and drops the later
ones; `decodeChunk` inflates. `pngMutator_eq` is the parser as those two steps
over the scanned chunks: the remembered index, the appends in place and the
inflate after the loop are gone. -/
namespace FuzzerTestSuite.Png
open Library Library.Bytes Library.Checked

/-! ### Merging -/

def isIdat (c : Chunk) : Bool := c.type = type "IDAT"

/-- All IDAT payloads, in file order. -/
def idatData (cs : List Chunk) : V := (cs.filter isIdat).flatMap (·.v)

/-- The chunks without the IDAT chunks after the first. -/
def dropLaterIdat : List Chunk → List Chunk
  | [] => []
  | c :: cs => if isIdat c then c :: cs.filter (!isIdat ·) else c :: dropLaterIdat cs

/-- The first IDAT chunk in its place with all IDAT data, every other chunk as it is. -/
def merge (cs : List Chunk) : List Chunk :=
  (dropLaterIdat cs).map fun c => if isIdat c then {c with v := idatData cs} else c

theorem idatData_append (a b : List Chunk) : idatData (a ++ b) = idatData a ++ idatData b := by
  simp only [idatData, List.filter_append, List.flatMap_append]

theorem idatData_none {cs : List Chunk} (h : ∀ c ∈ cs, isIdat c = false) : idatData cs = [] := by
  rw [idatData, List.filter_eq_nil_iff.mpr (fun c hc => by simp [h c hc])]
  rfl

theorem idatData_cons {c : Chunk} (h : isIdat c = true) (cs : List Chunk) :
    idatData (c :: cs) = c.v ++ idatData cs := by
  simp only [idatData, List.filter_cons_of_pos h, List.flatMap_cons]

theorem idatData_skip {c : Chunk} (h : isIdat c = false) (cs : List Chunk) :
    idatData (c :: cs) = idatData cs := by
  simp only [idatData, List.filter_cons, h, Bool.false_eq_true, if_false]

/-- A list of chunks has no IDAT, or it has a first one. -/
theorem idat_split (cs : List Chunk) :
    (∀ c ∈ cs, isIdat c = false) ∨
      ∃ pre i post, cs = pre ++ i :: post ∧ isIdat i = true ∧ ∀ c ∈ pre, isIdat c = false := by
  induction cs with
  | nil => exact .inl (fun c hc => by cases hc)
  | cons c cs ih =>
    cases hc : isIdat c with
    | true => exact .inr ⟨[], c, cs, rfl, hc, fun c hc => by cases hc⟩
    | false =>
      rcases ih with hnone | ⟨pre, i, post, rfl, hi, hpre⟩
      · exact .inl (List.forall_mem_cons.mpr ⟨hc, hnone⟩)
      · exact .inr ⟨c :: pre, i, post, rfl, hi, List.forall_mem_cons.mpr ⟨hc, hpre⟩⟩

theorem dropLaterIdat_none {cs : List Chunk} (h : ∀ c ∈ cs, isIdat c = false) :
    dropLaterIdat cs = cs := by
  induction cs with
  | nil => rfl
  | cons c cs ih =>
    obtain ⟨hc, hcs⟩ := List.forall_mem_cons.mp h
    rw [dropLaterIdat, hc, if_neg (by decide), ih hcs]

theorem dropLaterIdat_split {pre : List Chunk} (hpre : ∀ c ∈ pre, isIdat c = false) {i : Chunk}
    (hi : isIdat i = true) (post : List Chunk) :
    dropLaterIdat (pre ++ i :: post) = pre ++ i :: post.filter (!isIdat ·) := by
  induction pre with
  | nil => rw [List.nil_append, dropLaterIdat, if_pos hi, List.nil_append]
  | cons c pre ih =>
    obtain ⟨hc, hcs⟩ := List.forall_mem_cons.mp hpre
    rw [List.cons_append, dropLaterIdat, hc, if_neg (by decide), ih hcs, List.cons_append]

/-- What is dropped of a list's end depends on whether its start has an IDAT. -/
theorem dropLaterIdat_append (a b : List Chunk) :
    dropLaterIdat (a ++ b) =
      dropLaterIdat a ++ if a.any isIdat then b.filter (!isIdat ·) else dropLaterIdat b := by
  induction a with
  | nil => rfl
  | cons c a ih =>
    cases hc : isIdat c with
    | true =>
      simp only [List.cons_append, dropLaterIdat, hc, if_true, List.any_cons, Bool.true_or,
        List.filter_append]
    | false =>
      simp only [List.cons_append, dropLaterIdat, hc, Bool.false_eq_true, if_false, List.any_cons,
        Bool.false_or, ih]

private theorem map_idat_none (d : V) {cs : List Chunk} (h : ∀ c ∈ cs, isIdat c = false) :
    cs.map (fun c => if isIdat c then {c with v := d} else c) = cs := by
  induction cs with
  | nil => rfl
  | cons c cs ih =>
    obtain ⟨hc, hcs⟩ := List.forall_mem_cons.mp h
    rw [List.map_cons, ih hcs, hc, if_neg (by decide)]

theorem filter_notIdat (cs : List Chunk) : ∀ c ∈ cs.filter (!isIdat ·), isIdat c = false := by
  intro c hc
  simpa using (List.mem_filter.mp hc).2

/-- Without IDAT chunks there is nothing to merge. -/
theorem merge_none {cs : List Chunk} (h : ∀ c ∈ cs, isIdat c = false) : merge cs = cs := by
  rw [merge, dropLaterIdat_none h, map_idat_none _ h]

theorem merge_split {pre : List Chunk} (hpre : ∀ c ∈ pre, isIdat c = false) {i : Chunk}
    (hi : isIdat i = true) (post : List Chunk) :
    merge (pre ++ i :: post) =
      pre ++ {i with v := i.v ++ idatData post} :: post.filter (!isIdat ·) := by
  have hdata : idatData (pre ++ i :: post) = i.v ++ idatData post := by
    rw [idatData_append, idatData_none hpre, idatData_cons hi, List.nil_append]
  rw [merge, dropLaterIdat_split hpre hi, hdata, List.map_append, List.map_cons,
    map_idat_none _ hpre, map_idat_none _ (filter_notIdat post), if_pos hi]

/-- Merging leaves no more chunks than there were. -/
theorem merge_length_le (cs : List Chunk) : (merge cs).length ≤ cs.length := by
  rcases idat_split cs with hnone | ⟨pre, i, post, rfl, hi, hpre⟩
  · rw [merge_none hnone]
  · have hpost := List.length_filter_le (!isIdat ·) post
    rw [merge_split hpre hi]
    simp only [List.length_append, List.length_cons]
    omega

/-- Merging a longer list gives no fewer chunks. -/
theorem merge_length_append (a b : List Chunk) : (merge a).length ≤ (merge (a ++ b)).length := by
  rw [merge, merge, List.length_map, List.length_map, dropLaterIdat_append, List.length_append]
  exact Nat.le_add_right ..

/-- A chunk other than IDAT stands after what the chunks before it are merged to. -/
theorem merge_getElem? (a b : List Chunk) {c : Chunk} (hc : isIdat c = false) :
    (merge (a ++ c :: b))[(merge a).length]? = some c := by
  have htail : ∃ l, (if a.any isIdat then (c :: b).filter (!isIdat ·) else dropLaterIdat (c :: b)) =
      c :: l := by
    split
    · exact ⟨_, List.filter_cons_of_pos (by rw [hc]; rfl)⟩
    · exact ⟨_, by rw [dropLaterIdat, hc, if_neg Bool.false_ne_true]⟩
  obtain ⟨l, hl⟩ := htail
  have hlen : (merge a).length = (dropLaterIdat a).length := List.length_map ..
  rw [hlen, merge, List.getElem?_map, dropLaterIdat_append, hl, List.getElem?_append_right (Nat.le_refl _),
    Nat.sub_self, List.getElem?_cons_zero, Option.map_some, hc, if_neg Bool.false_ne_true]

/-! ### Inflating -/

/-- A chunk other than IDAT on its way into the list. An iCCP profile is inflated, and
deflated again to no purpose but that both loops must end. -/
def keepChunk (z : Zlib) (c : Chunk) : Option Chunk :=
  if c.type = type "iCCP" then do
    let v ← uncompress z (skipName c.v)
    let _ ← compress z v
    some {c with v := v}
  else some c

/-- A merged chunk, inflated. The merged IDAT stays as it is if the loop was left by `return`. -/
def decodeChunk (z : Zlib) (exit : Exit) (c : Chunk) : Option Chunk :=
  if isIdat c then
    if exit = .oversized then some c else (uncompress z c.v).map fun v => {c with v := v}
  else keepChunk z c

theorem decodeChunk_notIdat (z : Zlib) (exit : Exit) {c : Chunk} (h : isIdat c = false) :
    decodeChunk z exit c = keepChunk z c := by
  rw [decodeChunk, h, if_neg (by decide)]

theorem mapM_decodeChunk (z : Zlib) (exit : Exit) {cs : List Chunk} (h : ∀ c ∈ cs, isIdat c = false) :
    cs.mapM (decodeChunk z exit) = cs.mapM (keepChunk z) := by
  induction cs with
  | nil => rfl
  | cons c cs ih =>
    obtain ⟨hc, hcs⟩ := List.forall_mem_cons.mp h
    rw [List.mapM_cons, List.mapM_cons, decodeChunk_notIdat z exit hc, ih hcs]

/-! ### The fold -/

section Fold
variable (z : Zlib)

theorem absorb_notIdat (p : Parse) {c : Chunk} (h : isIdat c = false) :
    absorb z p c = (keepChunk z c).map fun c' => {p with chunks_ := p.chunks_ ++ [c']} := by
  have ht : c.type ≠ type "IDAT" := by simpa [isIdat] using h
  rw [absorb, if_neg ht, keepChunk]
  split
  · cases uncompress z (skipName c.v) with
    | none => rfl
    | some v =>
      cases hv : compress z v with
      | none => simp only [Option.bind_eq_bind, Option.bind_some, hv]; rfl
      | some w => simp only [Option.bind_eq_bind, Option.bind_some, hv]; rfl
  · rfl

/-- Until the first IDAT, chunks are appended one by one. -/
theorem foldlM_notIdat {cs : List Chunk} (h : ∀ c ∈ cs, isIdat c = false) (p : Parse) :
    cs.foldlM (absorb z) p =
      (cs.mapM (keepChunk z)).map fun cs' => {p with chunks_ := p.chunks_ ++ cs'} := by
  induction cs generalizing p with
  | nil => simp
  | cons c cs ih =>
    obtain ⟨hc, hcs⟩ := List.forall_mem_cons.mp h
    rw [List.foldlM_cons, List.mapM_cons, absorb_notIdat z p hc]
    cases keepChunk z c with
    | none => rfl
    | some c' =>
      simp only [Option.map_some, Option.bind_eq_bind, Option.bind_some]
      rw [ih hcs]
      cases cs.mapM (keepChunk z) with
      | none => rfl
      | some cs' =>
        simp only [Option.map_some, Option.bind_some, List.append_assoc, List.singleton_append]
        rfl

/-- After it, IDAT payloads go to its end and other chunks to the list's end. -/
theorem foldlM_idat (a b : List Chunk) (i : Chunk) (cs : List Chunk) :
    cs.foldlM (absorb z) ⟨a ++ i :: b, some a.length⟩ =
      ((cs.filter (!isIdat ·)).mapM (keepChunk z)).map fun cs' =>
        ⟨a ++ {i with v := i.v ++ idatData cs} :: (b ++ cs'), some a.length⟩ := by
  induction cs generalizing b i with
  | nil => simp [idatData]
  | cons c cs ih =>
    rw [List.foldlM_cons]
    cases hc : isIdat c with
    | true =>
      have ht : c.type = type "IDAT" := by simpa [isIdat] using hc
      have habsorb : absorb z ⟨a ++ i :: b, some a.length⟩ c =
          some ⟨a ++ {i with v := i.v ++ c.v} :: b, some a.length⟩ := by
        simp only [absorb, ht, if_true, modifyAt?_append]
        rfl
      rw [habsorb]
      simp only [Option.bind_eq_bind, Option.bind_some]
      rw [ih, List.filter_cons_of_neg (by simp [hc]), idatData_cons hc]
      simp only [List.append_assoc]
    | false =>
      rw [absorb_notIdat z _ hc, List.filter_cons_of_pos (by simp [hc]), List.mapM_cons,
        idatData_skip hc]
      cases keepChunk z c with
      | none => rfl
      | some c' =>
        simp only [Option.map_some, Option.bind_eq_bind, Option.bind_some]
        rw [List.append_assoc, List.cons_append, ih]
        cases (cs.filter (!isIdat ·)).mapM (keepChunk z) with
        | none => rfl
        | some cs' =>
          simp only [Option.map_some, Option.bind_some, List.append_assoc, List.singleton_append]
          rfl

/-- The whole fold, and the inflate after it. -/
theorem inflateIdat_fold (exit : Exit) (cs : List Chunk) :
    (cs.foldlM (absorb z) ⟨[], none⟩ >>= fun p => inflateIdat z (exit, p)) =
      (merge cs).mapM (decodeChunk z exit) := by
  rcases idat_split cs with hnone | ⟨pre, i, post, rfl, hi, hpre⟩
  · rw [merge_none hnone, mapM_decodeChunk z exit hnone, foldlM_notIdat z hnone]
    cases cs.mapM (keepChunk z) with
    | none => rfl
    | some cs' => cases exit <;> rfl
  · have ht : i.type = type "IDAT" := by simpa [isIdat] using hi
    have hidat : isIdat {i with v := i.v ++ idatData post} = true := hi
    rw [merge_split hpre hi, List.mapM_append, List.mapM_cons, mapM_decodeChunk z exit hpre,
      mapM_decodeChunk z exit (filter_notIdat post), List.foldlM_append, foldlM_notIdat z hpre,
      decodeChunk, if_pos hidat]
    cases pre.mapM (keepChunk z) with
    | none => rfl
    | some a =>
      have habsorb : absorb z ⟨[] ++ a, none⟩ i = some ⟨a ++ i :: [], some a.length⟩ := by
        rw [absorb, if_pos ht]
        rfl
      simp only [Option.map_some, Option.bind_eq_bind, Option.bind_some, List.foldlM_cons]
      rw [habsorb]
      simp only [Option.bind_some]
      rw [foldlM_idat]
      -- only now does the order of the two inflates differ: the merged IDAT is inflated last
      cases (post.filter (!isIdat ·)).mapM (keepChunk z) with
      | none =>
        cases exit <;> cases uncompress z (i.v ++ idatData post) <;> rfl
      | some b =>
        cases exit with
        | oversized => rfl
        | endOfStream | iend =>
          cases hu : uncompress z (i.v ++ idatData post) with
          | none => simp [inflateIdat, hu]
          | some v => simp [inflateIdat, hu, modifyAt?_append]

end Fold

/-- **The parser is: scan the stream, merge the IDAT chunks, inflate.** -/
theorem pngMutator_eq (z : Zlib) (bytes : V) :
    pngMutator z bytes =
      match readHeader ⟨bytes, false⟩ with
      | none => some ⟨Ihdr.zero, []⟩
      | some (ihdr, s) =>
        ((merge (scan s).2).mapM (decodeChunk z (scan s).1)).map fun chunks => ⟨ihdr, chunks⟩ := by
  rw [pngMutator]
  cases readHeader ⟨bytes, false⟩ with
  | none => rfl
  | some h =>
    obtain ⟨ihdr, s⟩ := h
    simp only [readChunks_eq, ← inflateIdat_fold]
    cases (scan s).2.foldlM (absorb z) ⟨[], none⟩ with
    | none => rfl
    | some p =>
      simp only [Option.map_some, Option.bind_eq_bind, Option.bind_some]
      cases inflateIdat z ((scan s).1, p) with
      | none => rfl
      | some chunks => rfl

end FuzzerTestSuite.Png
