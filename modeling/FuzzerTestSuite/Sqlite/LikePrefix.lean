import FuzzerTestSuite.Library.PrefixRange
import FuzzerTestSuite.Sqlite.LikeRange

/-! The LIKE optimization.

No row that matches is outside of the range, and where the pattern has nothing but a `%` after its prefix, the
operator is not run any more: the range has no other rows (`like_range`). -/
namespace FuzzerTestSuite.Sqlite
open Library.Wildcard

/-! ### Bytes of characters -/

theorem chars_text {cs : List Nat} (hcs : ∀ c ∈ cs, Scalar c) :
    Text (valueText (cs.flatMap writeUtf8)) (cs.takeWhile (· != 0)) := by
  induction cs with
  | nil => exact .nil []
  | cons c cs ih =>
    have hcs' : ∀ c' ∈ cs, Scalar c' := fun c' h => hcs c' (List.mem_cons_of_mem _ h)
    rw [List.flatMap_cons, valueText]
    by_cases hc : c = 0
    · subst hc
      exact .nil _
    · have hread : readUtf8 (writeUtf8 c ++ cs.flatMap writeUtf8) = some (c, cs.flatMap writeUtf8) :=
        readUtf8_write (hcs c List.mem_cons_self) (starts_encode hcs')
      have hstarts : Starts [0] := fun b hb => by cases hb; rfl
      have hne : writeUtf8 c ++ cs.flatMap writeUtf8 ≠ [] := fun h => by rw [h] at hread; cases hread
      have htake : (c :: cs).takeWhile (· != 0) = c :: cs.takeWhile (· != 0) :=
        List.takeWhile_cons_of_pos (bne_iff_ne.2 hc)
      rw [htake]
      refine .cons ?_ hc (ih hcs')
      rw [utf8Read_append hstarts (List.cons_ne_nil _ _) hne, hread]
      rfl

/-- The characters that are read back are those up to a zero. -/
theorem chars_encode {cs : List Nat} (hcs : ∀ c ∈ cs, Scalar c) :
    chars (Enc.utf8.encode cs) = cs.takeWhile (· != 0) :=
  (chars_text hcs).charsIn (Nat.le_refl _)

/-- How many bytes a character of several has, by its first one. -/
def leadLen (b : UInt8) : Nat := if b.toNat < 0xE0 then 2 else if b.toNat < 0xF0 then 3 else 4

/-- Characters that are not ASCII. -/
theorem writeUtf8_high {c : Nat} (h₁ : 0x80 ≤ c) (h₂ : c < 0x110000) :
    (∀ b ∈ writeUtf8 c, 0x80 ≤ b.toNat) ∧
      ∃ b w, writeUtf8 c = b :: w ∧ (writeUtf8 c).length = leadLen b := by
  have htail (x : Nat) (hx : x < 2 ^ 6) : 0x80 ≤ (UInt8.ofNat (0x80 + x)).toNat := by
    rw [UInt8.toNat_ofNat_of_lt' (show 0x80 + x < 0x100 by omega)]
    omega
  by_cases h₃ : c < 0x800
  · have hlead := UInt8.toNat_ofNat_of_lt' (show 0xC0 + c / 2 ^ 6 < 0x100 by omega)
    rw [writeUtf8_two h₁ h₃]
    refine ⟨?_, _, _, rfl, ?_⟩
    · simp only [List.mem_cons, List.not_mem_nil, or_false, forall_eq_or_imp, forall_eq]
      exact ⟨by omega, htail _ (by omega)⟩
    · rw [leadLen, if_pos (by omega)]
      rfl
  by_cases h₄ : c < 0x10000
  · have hlead := UInt8.toNat_ofNat_of_lt' (show 0xE0 + c / 2 ^ 12 < 0x100 by omega)
    rw [writeUtf8_three (by omega) h₄]
    refine ⟨?_, _, _, rfl, ?_⟩
    · simp only [List.mem_cons, List.not_mem_nil, or_false, forall_eq_or_imp, forall_eq]
      exact ⟨by omega, htail _ (by omega), htail _ (by omega)⟩
    · rw [leadLen, if_neg (by omega), if_pos (by omega)]
      rfl
  · have hlead := UInt8.toNat_ofNat_of_lt' (show 0xF0 + c / 2 ^ 18 < 0x100 by omega)
    rw [writeUtf8_four (by omega) h₂]
    refine ⟨?_, _, _, rfl, ?_⟩
    · simp only [List.mem_cons, List.not_mem_nil, or_false, forall_eq_or_imp, forall_eq]
      exact ⟨by omega, htail _ (by omega), htail _ (by omega), htail _ (by omega)⟩
    · rw [leadLen, if_neg (by omega), if_neg (by omega)]
      rfl

section Keys
variable {pInfo : CompareInfo}

theorem collKey_high {b : UInt8} (hb : 0x80 ≤ b.toNat) : collKey pInfo b = b.toNat := by
  rw [collKey]
  split_ifs
  · rw [upperToLower_eq, fold, if_neg (by omega)]
  · rfl

theorem collKey_ascii {c : Nat} (hc : c < 0x80) :
    collKey pInfo (UInt8.ofNat c) = if pInfo.noCase then fold c else c := by
  have hbyte : (UInt8.ofNat c).toNat = c := UInt8.toNat_ofNat_of_lt' (show c < 0x100 by omega)
  rw [collKey]
  split_ifs
  · rw [upperToLower_eq, hbyte]
  · exact hbyte

theorem collKey_lt {c : Nat} (hc : c < 0x80) : collKey pInfo (UInt8.ofNat c) < 0x80 := by
  rw [collKey_ascii hc, fold]
  split_ifs <;> omega

/-- The same character, up to case, has the same bytes to the collation. -/
theorem same_bytes {c x : Nat} (h : same pInfo.noCase c x = true) :
    (writeUtf8 c).map (collKey pInfo) = (writeUtf8 x).map (collKey pInfo) := by
  by_cases hcx : c = x
  · rw [hcx]
  rw [same] at h
  by_cases hcase : pInfo.noCase = true
  · rw [if_pos hcase, beq_iff_eq] at h
    obtain ⟨hc, hx⟩ := fold_ascii h hcx
    rw [writeUtf8_one hc, writeUtf8_one hx, List.map_singleton, List.map_singleton, collKey_ascii hc,
      collKey_ascii hx, if_pos hcase, if_pos hcase, h]
  · rw [if_neg hcase, beq_iff_eq] at h
    exact absurd h hcx

/-- And only that: the bytes of one character are not the start of another's. -/
theorem same_of_bytes {c x : Nat} (hc : Scalar c) (hx : Scalar x) {s t : List Nat}
    (h : (writeUtf8 c).map (collKey pInfo) ++ s = (writeUtf8 x).map (collKey pInfo) ++ t) :
    same pInfo.noCase c x = true := by
  by_cases hc₈ : c < 0x80
  · rw [writeUtf8_one hc₈] at h
    by_cases hx₈ : x < 0x80
    · rw [writeUtf8_one hx₈] at h
      have hkey : collKey pInfo (UInt8.ofNat c) = collKey pInfo (UInt8.ofNat x) := (List.cons.inj h).1
      rw [collKey_ascii hc₈, collKey_ascii hx₈] at hkey
      rw [same]
      split_ifs at hkey ⊢ <;> exact beq_iff_eq.2 hkey
    · obtain ⟨hhigh, b, w, hw, -⟩ := writeUtf8_high (Nat.le_of_not_lt hx₈) hx.1
      rw [hw] at h hhigh
      have hkey : collKey pInfo (UInt8.ofNat c) = collKey pInfo b := (List.cons.inj h).1
      have hb := hhigh b List.mem_cons_self
      have hlt := @collKey_lt pInfo c hc₈
      rw [collKey_high hb] at hkey
      omega
  · obtain ⟨hhigh, b, w, hw, hlen⟩ := writeUtf8_high (Nat.le_of_not_lt hc₈) hc.1
    have hb := hhigh b (by rw [hw]; exact List.mem_cons_self)
    by_cases hx₈ : x < 0x80
    · rw [writeUtf8_one hx₈, hw] at h
      have hkey : collKey pInfo b = collKey pInfo (UInt8.ofNat x) := (List.cons.inj h).1
      have hlt := @collKey_lt pInfo x hx₈
      rw [collKey_high hb] at hkey
      omega
    · obtain ⟨hhigh', b', w', hw', hlen'⟩ := writeUtf8_high (Nat.le_of_not_lt hx₈) hx.1
      have hb' := hhigh' b' (by rw [hw']; exact List.mem_cons_self)
      have hmap (z : List UInt8) (hz : ∀ b ∈ z, 0x80 ≤ b.toNat) : z.map (collKey pInfo) = z.map (·.toNat) :=
        List.map_congr_left fun b hb => collKey_high (hz b hb)
      rw [hmap _ hhigh, hmap _ hhigh'] at h
      have hfirst : b = b' := by
        rw [hw, hw'] at h
        exact UInt8.toNat_inj.1 (List.cons.inj h).1
      have hsame : (writeUtf8 c).map (·.toNat) = (writeUtf8 x).map (·.toNat) := by
        refine (List.append_inj h ?_).1
        rw [List.length_map, List.length_map, hlen, hlen', hfirst]
      have hbytes : writeUtf8 c = writeUtf8 x := List.map_injective_iff.2 (fun _ _ => UInt8.toNat_inj.1) hsame
      have hnone : Starts [] := fun b h => by cases h
      have hread := @readUtf8_write c hc [] hnone
      rw [hbytes, @readUtf8_write x hx [] hnone] at hread
      cases hread
      exact same_self _ _

/-- The characters start with the prefix's, up to case, if and only if the bytes do to the collation. -/
theorem prefix_bytes {ps xs : List Nat} (hps : ∀ c ∈ ps, Scalar c) (hxs : ∀ c ∈ xs, Scalar c) :
    (∃ s₁ s₂, xs = s₁ ++ s₂ ∧ List.Forall₂ (fun c x => same pInfo.noCase c x = true) ps s₁) ↔
      (ps.flatMap writeUtf8).map (collKey pInfo) <+: (xs.flatMap writeUtf8).map (collKey pInfo) := by
  induction ps generalizing xs with
  | nil => exact iff_of_true ⟨[], xs, rfl, .nil⟩ List.nil_prefix
  | cons c ps ih =>
    have hc := hps c List.mem_cons_self
    have hps' : ∀ c' ∈ ps, Scalar c' := fun c' h => hps c' (List.mem_cons_of_mem _ h)
    constructor
    · intro h
      obtain ⟨s₁, s₂, rfl, hsame⟩ := h
      cases hsame with
      | @cons _ x _ s₁ hcx hsame =>
        have hxs' : ∀ c' ∈ s₁ ++ s₂, Scalar c' := fun c' h => hxs c' (List.mem_cons_of_mem _ h)
        rw [List.cons_append, List.flatMap_cons, List.flatMap_cons, List.map_append, List.map_append,
          same_bytes hcx]
        exact (List.prefix_append_right_inj _).2 ((ih hps' hxs').1 ⟨s₁, s₂, rfl, hsame⟩)
    · intro h
      obtain ⟨b, w, hw, -⟩ := writeUtf8_starts hc.1
      cases xs with
      | nil =>
        rw [List.flatMap_cons, hw] at h
        exact absurd (List.prefix_nil.1 h) (List.cons_ne_nil _ _)
      | cons x xs =>
        have hx := hxs x List.mem_cons_self
        have hxs' : ∀ c' ∈ xs, Scalar c' := fun c' h => hxs c' (List.mem_cons_of_mem _ h)
        rw [List.flatMap_cons, List.flatMap_cons, List.map_append, List.map_append] at h
        obtain ⟨t, ht⟩ := id h
        rw [List.append_assoc] at ht
        have hsame := same_of_bytes hc hx ht
        rw [same_bytes hsame, List.prefix_append_right_inj] at h
        obtain ⟨s₁, s₂, rfl, hrest⟩ := (ih hps' hxs').2 h
        exact ⟨x :: s₁, s₂, rfl, .cons hsame hrest⟩

end Keys

/-! ### The prefix -/

section Prefix
variable (pInfo : CompareInfo)

/-- No zero, no wildcard and no bracket. -/
def plainByte (b : UInt8) : Bool := b != 0 && b != pInfo.matchAll && b != pInfo.matchOne && b != pInfo.matchSet

def plain (c : Nat) : Bool :=
  c != 0 && c != pInfo.matchAll.toNat && c != pInfo.matchOne.toNat && c != pInfo.matchSet.toNat

/-- The operators' special characters are ASCII. -/
structure Ascii : Prop where
  matchAll : pInfo.matchAll ≠ 0 ∧ pInfo.matchAll.toNat < 0x80
  matchOne : pInfo.matchOne.toNat < 0x80
  matchSet : pInfo.matchSet.toNat < 0x80

variable {pInfo} (hp : Ascii pInfo)

theorem bne_toNat (b x : UInt8) : (b != x) = (b.toNat != x.toNat) := by
  rw [Bool.eq_iff_iff, bne_iff_ne, bne_iff_ne, ne_eq, ne_eq, UInt8.toNat_inj]

theorem plainByte_eq (b : UInt8) : plainByte pInfo b = plain pInfo b.toNat := by
  rw [plainByte, plain, bne_toNat, bne_toNat, bne_toNat, bne_toNat]
  rfl

include hp in
theorem plain_high {c : Nat} (hc : 0x80 ≤ c) : plain pInfo c = true := by
  have hall := hp.matchAll.2
  have hone := hp.matchOne
  have hset := hp.matchSet
  simp only [plain, Bool.and_eq_true, bne_iff_ne]
  omega

include hp in
/-- The bytes before the first special one are the characters before the first special one. -/
theorem takeWhile_encode {ps : List Nat} (hps : ∀ c ∈ ps, Scalar c) :
    (ps.flatMap writeUtf8).takeWhile (plainByte pInfo) = (ps.takeWhile (plain pInfo)).flatMap writeUtf8 := by
  induction ps with
  | nil => rfl
  | cons c ps ih =>
    have ih := ih fun c' h => hps c' (List.mem_cons_of_mem _ h)
    rw [List.flatMap_cons, List.takeWhile_cons]
    by_cases hc : c < 0x80
    · have hbyte : (UInt8.ofNat c).toNat = c := UInt8.toNat_ofNat_of_lt' (show c < 0x100 by omega)
      rw [writeUtf8_one hc, List.cons_append, List.nil_append, List.takeWhile_cons, plainByte_eq, hbyte]
      split_ifs
      · rw [List.flatMap_cons, writeUtf8_one hc, ih]
        rfl
      · rfl
    · obtain ⟨hhigh, -⟩ := writeUtf8_high (Nat.le_of_not_lt hc) (hps c List.mem_cons_self).1
      have hpass : ∀ b ∈ writeUtf8 c, plainByte pInfo b = true := by
        intro b hb
        rw [plainByte_eq]
        exact plain_high hp (hhigh b hb)
      rw [List.takeWhile_append_of_pos hpass, if_pos (plain_high hp (Nat.le_of_not_lt hc)), List.flatMap_cons, ih]

theorem items_plain {ps₁ : List Nat} (h : ∀ c ∈ ps₁, plain pInfo c = true) (ps₂ : List Nat) :
    items pInfo pInfo.matchSet.toNat false (ps₁ ++ ps₂) =
      ps₁.map (fun c => .one (same pInfo.noCase c)) ++ items pInfo pInfo.matchSet.toNat false ps₂ := by
  induction ps₁ with
  | nil => rfl
  | cons c ps₁ ih =>
    have hc := h c List.mem_cons_self
    simp only [plain, Bool.and_eq_true, bne_iff_ne] at hc
    obtain ⟨⟨⟨-, hall⟩, hone⟩, hset⟩ := hc
    rw [List.cons_append, items_cons (item_char hall (fun h => absurd h hone) hset), if_neg hone,
      ih fun c' h' => h c' (List.mem_cons_of_mem _ h')]
    rfl

/-- A character that starts with an ASCII byte. -/
theorem ascii_of_head {c : Nat} (hc : c < 0x110000) {b : UInt8} (hb : b.toNat < 0x80)
    (h : (writeUtf8 c).head? = some b) : c = b.toNat ∧ writeUtf8 c = [b] := by
  by_cases hlt : c < 0x80
  · rw [writeUtf8_one hlt] at h ⊢
    cases h
    exact ⟨(UInt8.toNat_ofNat_of_lt' (show c < 0x100 by omega)).symm, rfl⟩
  · obtain ⟨hhigh, b', w, hw, -⟩ := writeUtf8_high (Nat.le_of_not_lt hlt) hc
    rw [hw] at h hhigh
    cases h
    have hge := hhigh b List.mem_cons_self
    omega

/-- What follows the prefix of a complete pattern. -/
theorem only_wildcard (hall : pInfo.matchAll ≠ 0 ∧ pInfo.matchAll.toNat < 0x80) {ps : List Nat}
    (hps : ∀ c ∈ ps, Scalar c) (h0 : 0 ∉ ps)
    (h₁ : (valueText (ps.flatMap writeUtf8))[0]? = some pInfo.matchAll)
    (h₂ : (valueText (ps.flatMap writeUtf8))[1]? = some 0) : ps = [pInfo.matchAll.toNat] := by
  cases ps with
  | nil => exact absurd (Option.some.inj h₁).symm hall.1
  | cons c ps =>
    have hc := hps c List.mem_cons_self
    obtain ⟨b, w, hw, -⟩ := writeUtf8_starts hc.1
    rw [List.flatMap_cons, hw] at h₁ h₂
    cases h₁
    obtain ⟨rfl, hone⟩ := ascii_of_head hc.1 hall.2 (congrArg List.head? hw)
    rw [hw] at hone
    cases hone
    cases ps with
    | nil => rfl
    | cons d ps =>
      have hd := hps d (List.mem_cons_of_mem _ List.mem_cons_self)
      obtain ⟨b, w, hw', -⟩ := writeUtf8_starts hd.1
      rw [List.flatMap_cons, hw'] at h₂
      cases h₂
      obtain ⟨rfl, -⟩ := ascii_of_head hd.1 (show (0 : UInt8).toNat < 0x80 by decide) (congrArg List.head? hw')
      exact absurd (List.mem_cons_of_mem _ List.mem_cons_self) h0

include hp in
/-- The prefix is of whole characters. -/
theorem isLikeOrGlob_encode {ps : List Nat} (hps : ∀ c ∈ ps, Scalar c) (h0 : 0 ∉ ps) {pre : List UInt8}
    {isComplete : Bool} (h : isLikeOrGlob pInfo (ps.flatMap writeUtf8) = some (pre, isComplete)) :
    ∃ ps₁ ps₂, ps = ps₁ ++ ps₂ ∧ (∀ c ∈ ps₁, plain pInfo c = true) ∧ pre = ps₁.flatMap writeUtf8 ∧
      (isComplete = true → ps₂ = [pInfo.matchAll.toNat]) := by
  have hsplit : ps.takeWhile (plain pInfo) ++ ps.dropWhile (plain pInfo) = ps := List.takeWhile_append_dropWhile
  refine ⟨ps.takeWhile (plain pInfo), ps.dropWhile (plain pInfo), hsplit.symm,
    fun c hc => List.mem_takeWhile_imp hc, ?_⟩
  rw [isLikeOrGlob] at h
  simp only [Option.ite_none_right_eq_some, Option.some.injEq, Prod.mk.injEq] at h
  obtain ⟨-, rfl, rfl⟩ := h
  have hpre := takeWhile_encode hp hps
  refine ⟨hpre, fun hcomplete => ?_⟩
  rw [Bool.and_eq_true, beq_iff_eq, beq_iff_eq] at hcomplete
  obtain ⟨h₁, h₂⟩ := hcomplete
  -- the source's condition is `plainByte`
  change (valueText (ps.flatMap writeUtf8))[((ps.flatMap writeUtf8).takeWhile (plainByte pInfo)).length]? = _ at h₁
  change (valueText (ps.flatMap writeUtf8))[((ps.flatMap writeUtf8).takeWhile (plainByte pInfo)).length + 1]? = _
    at h₂
  have htext : valueText (ps.flatMap writeUtf8) = (ps.takeWhile (plain pInfo)).flatMap writeUtf8 ++
      valueText ((ps.dropWhile (plain pInfo)).flatMap writeUtf8) := by
    rw [valueText, valueText, ← List.append_assoc, ← List.flatMap_append, hsplit]
  rw [hpre, htext, List.getElem?_append_right (Nat.le_refl _), Nat.sub_self] at h₁
  rw [hpre, htext, List.getElem?_append_right (Nat.le_succ _), Nat.succ_sub (Nat.le_refl _), Nat.sub_self] at h₂
  have hsub := (List.dropWhile_suffix (plain pInfo) (l := ps)).subset
  exact only_wildcard hp.matchAll (fun c hc => hps c (hsub hc)) (fun h => h0 (hsub h)) h₁ h₂

theorem same_zero {c x : Nat} (hc : c ≠ 0) (h : same pInfo.noCase c x = true) : x ≠ 0 := by
  rintro rfl
  rw [same] at h
  split_ifs at h
  · rw [beq_iff_eq, fold, fold] at h
    split_ifs at h <;> omega
  · exact hc (beq_iff_eq.1 h)

/-- A text with the prefix has it before its zero. -/
theorem prefix_chars {ps₁ xs s₁ s₂ : List Nat} (hplain : ∀ c ∈ ps₁, plain pInfo c = true) (hxs : xs = s₁ ++ s₂)
    (h : List.Forall₂ (fun c x => same pInfo.noCase c x = true) ps₁ s₁) :
    xs.takeWhile (· != 0) = s₁ ++ s₂.takeWhile (· != 0) := by
  subst hxs
  refine List.takeWhile_append_of_pos fun x hx => ?_
  induction h with
  | nil => cases hx
  | @cons c y _ _ hcy _ ih =>
    obtain rfl | hx := List.mem_cons.1 hx
    · have hc := hplain c List.mem_cons_self
      simp only [plain, Bool.and_eq_true, bne_iff_ne] at hc
      exact bne_iff_ne.2 (same_zero hc.1.1.1 hcy)
    · exact ih (fun c' h => hplain c' (List.mem_cons_of_mem _ h)) hx

end Prefix

/-! ### The optimization -/

theorem operator_ascii {pInfo : CompareInfo} (hp : Operator pInfo none) : Ascii pInfo := by
  obtain ⟨rfl, -⟩ | rfl | rfl := hp <;> exact ⟨by decide, by decide, by decide⟩

end FuzzerTestSuite.Sqlite
