import FuzzerTestSuite.Sqlite.PatternItems

/-! What LIKE and GLOB match.

`patternCompare` reads the pattern as it goes: it looks ahead over wildcards, searches for the next character as a
byte or as a character, and calls itself where it finds one. It decides what the pattern's items match
(`patternCompare_spec`), so the SQL functions do for every pattern, string and escape character, whatever bytes they
are (`like_value`), but for one slip: the character U+0080 is searched for as the byte `0x80`. -/
namespace FuzzerTestSuite.Sqlite
open Library.Wildcard

/-! ### Searches -/

/-- The result is known, and says whether `P`. -/
def Decides (r : Option Bool) (P : Prop) : Prop := ∃ b, r = some b ∧ (b = true ↔ P)

section Decides
variable {r r' : Option Bool} {P Q : Prop}

theorem decides_false (h : ¬P) : Decides (some false) P := ⟨false, rfl, iff_of_false Bool.false_ne_true h⟩

theorem decides_true (h : P) : Decides (some true) P := ⟨true, rfl, iff_of_true rfl h⟩

theorem Decides.congr (h : Decides r P) (hPQ : P ↔ Q) : Decides r Q := by
  obtain ⟨b, hr, hb⟩ := h
  exact ⟨b, hr, hb.trans hPQ⟩

/-- One result, and the other if it is negative. -/
theorem Decides.orElse (h : Decides r P) (h' : Decides r' Q) :
    Decides (r.bind fun found => if found then some true else r') (P ∨ Q) := by
  obtain ⟨b, rfl, hb⟩ := h
  cases b with
  | true => exact decides_true (.inl (hb.1 rfl))
  | false => exact h'.congr (or_iff_right fun hP => Bool.false_ne_true (hb.2 hP)).symm

end Decides

theorem skipUtf8_eq (z : List UInt8) : skipUtf8 z = (sqlite3Utf8Read z).map Prod.snd := by
  have htail (c : Nat) (z : List UInt8) : skipTail z = (readTail c z).map Prod.snd := by
    induction z generalizing c with
    | nil => rfl
    | cons b z ih =>
      rw [skipTail, readTail]
      by_cases hb : continues b = true
      · rw [if_pos hb, if_pos hb, ih]
      · rw [if_neg hb, if_neg hb, Option.map_some]
  cases z with
  | nil => rfl
  | cons b z =>
    rw [skipUtf8, sqlite3Utf8Read]
    by_cases hb : 0xc0 ≤ b
    · rw [if_pos hb, if_pos hb, Option.map_map, htail]
      rfl
    · rw [if_neg hb, if_neg hb, Option.map_some]

theorem Text.head {z : List UInt8} {cs : List Nat} (h : Text z cs) :
    ∃ b, z.head? = some b ∧ (b = 0 ↔ cs = []) := by
  cases h with
  | nil z => exact ⟨0, rfl, iff_of_true rfl rfl⟩
  | cons hread hc h =>
    cases z with
    | nil => cases hread
    | cons b z =>
      refine ⟨b, rfl, iff_of_false (fun hb => ?_) (List.cons_ne_nil _ _)⟩
      subst hb
      rw [read_zero] at hread
      cases hread
      exact hc rfl

section Search
variable {compare : List UInt8 → Option Bool} {rest : List (Item Nat)}
  (hcompare : ∀ z cs, Text z cs → Decides (compare z) (Matches rest cs)) {accepts : Nat → Bool}

/-- Bytes that are not ASCII are passed over. -/
theorem searchByte_skip {c cx : Nat} (hc : c < 0x80) (hcx : cx < 0x80) {w : List UInt8}
    (hw : ∀ b ∈ w, 0x80 ≤ b.toNat) (z : List UInt8) :
    searchByte compare c cx (w ++ z) = searchByte compare c cx z := by
  induction w with
  | nil => rfl
  | cons b w ih =>
    have hb := hw b List.mem_cons_self
    rw [List.cons_append, searchByte]
    show (if b.toNat = 0 then _ else if b.toNat ≠ c ∧ b.toNat ≠ cx then _ else _) = _
    rw [if_neg (by omega), if_pos (by omega)]
    exact ih fun b' h => hw b' (List.mem_cons_of_mem _ h)

include hcompare

theorem searchByte_spec {c cx : Nat} (hc : c < 0x80) (hcx : cx < 0x80)
    (haccepts : ∀ x, accepts x = true ↔ x = c ∨ x = cx) {z : List UInt8} {cs : List Nat} (h : Text z cs) :
    Decides (searchByte compare c cx z) (Matches (.any :: .one accepts :: rest) cs) := by
  induction h with
  | nil z => exact decides_false (any_one_nil accepts)
  | @cons c₁ cs z z' hread hc₁ h ih =>
    cases z with
    | nil => cases hread
    | cons b z =>
      rw [searchByte]
      show Decides (if b.toNat = 0 then _ else if b.toNat ≠ c ∧ b.toNat ≠ cx then _ else _) _
      obtain ⟨rfl, rfl⟩ | ⟨hb, hge, w, rfl, hw⟩ := read_split hread
      · rw [if_neg hc₁]
        by_cases hx : b.toNat ≠ c ∧ b.toNat ≠ cx
        · rw [if_pos hx]
          refine ih.congr (any_one_cons.trans (or_iff_right fun hm => ?_)).symm
          obtain hm | hm := (haccepts _).1 hm.1
          · exact hx.1 hm
          · exact hx.2 hm
        · rw [if_neg hx]
          have hacc : accepts b.toNat = true := (haccepts _).2 (by omega)
          refine ((hcompare z cs h).orElse ih).congr ?_
          rw [any_one_cons, hacc, eq_self_iff_true, true_and]
      -- the byte and those behind it are one character, which is not ASCII
      · rw [if_neg (by omega), if_pos (by omega), searchByte_skip hc hcx hw]
        refine ih.congr (any_one_cons.trans (or_iff_right fun hm => ?_)).symm
        have hx := (haccepts _).1 hm.1
        omega

theorem searchChar_spec {c : Nat} (haccepts : ∀ x, accepts x = true ↔ x = c) {z : List UInt8} {cs : List Nat}
    (h : Text z cs) {n : Nat} (hn : z.length ≤ n) :
    Decides (searchChar compare c n z) (Matches (.any :: .one accepts :: rest) cs) := by
  induction h generalizing n with
  | nil z =>
    cases n with
    | zero => exact absurd hn (Nat.not_succ_le_zero _)
    | succ n =>
      rw [searchChar, utf8Read_eq, read_zero]
      exact decides_false (any_one_nil accepts)
  | @cons c₁ cs z z' hread hc₁ h ih =>
    have hlt := read_lt hread
    cases n with
    | zero => omega
    | succ n =>
      have ih := ih (show z'.length ≤ n by omega)
      rw [searchChar, utf8Read_eq, hread]
      show Decides (if c₁ = 0 then some false else if c₁ ≠ c then _ else _) _
      rw [if_neg hc₁]
      by_cases hx : c₁ ≠ c
      · rw [if_pos hx]
        exact ih.congr (any_one_cons.trans (or_iff_right fun hm => hx ((haccepts _).1 hm.1))).symm
      · rw [if_neg hx]
        have hacc : accepts c₁ = true := (haccepts _).2 (not_not.1 hx)
        refine ((hcompare z' cs h).orElse ih).congr ?_
        rw [any_one_cons, hacc, eq_self_iff_true, true_and]

theorem searchSet_spec (hrest : ¬Matches rest []) {z : List UInt8} {cs : List Nat} (h : Text z cs) {n : Nat}
    (hn : z.length ≤ n) : Decides (searchSet compare n z) (Matches (.any :: rest) cs) := by
  induction h generalizing n with
  | nil z =>
    cases n with
    | zero => exact absurd hn (Nat.not_succ_le_zero _)
    | succ n => exact decides_false fun hm => hrest (any_nil.1 hm)
  | @cons c₁ cs z z' hread hc₁ h ih =>
    have hlt := read_lt hread
    have htext : Text z (c₁ :: cs) := .cons hread hc₁ h
    cases n with
    | zero => omega
    | succ n =>
      obtain ⟨b, hb, hb0⟩ := htext.head
      rw [searchSet, hb]
      show Decides (if b = 0 then some false else _) _
      rw [if_neg fun h0 => List.cons_ne_nil _ _ (hb0.1 h0), skipUtf8_eq, hread]
      exact ((hcompare z (c₁ :: cs) htext).orElse (ih (show z'.length ≤ n by omega))).congr any_cons.symm

end Search

theorem tolower_ascii : ∀ c < 0x80, tolower c = fold c := by
  decide

theorem toupper_ascii : ∀ c < 0x80, toupper c = if 0x61 ≤ c ∧ c ≤ 0x7a then c - 0x20 else c := by
  decide

theorem same_ascii {c : Nat} (hc : c < 0x80) (x : Nat) : same true c x = true ↔ x = tolower c ∨ x = toupper c := by
  rw [same, if_pos rfl, beq_iff_eq, tolower_ascii c hc, toupper_ascii c hc, fold, fold]
  split_ifs <;> omega

theorem same_other {c : Nat} (hc : 0x80 ≤ c) (noCase : Bool) (x : Nat) : same noCase c x = true ↔ x = c := by
  cases noCase with
  | false =>
    rw [same, if_neg Bool.false_ne_true, beq_iff_eq]
    exact eq_comm
  | true =>
    rw [same, if_pos rfl, beq_iff_eq, fold, fold]
    split_ifs <;> omega

theorem same_case (c x : Nat) : same false c x = true ↔ x = c := by
  rw [same, if_neg Bool.false_ne_true, beq_iff_eq]
  exact eq_comm

/-- All characters but U+0080 are searched for as they are. -/
theorem searchFor_spec {pInfo : CompareInfo} {compare : List UInt8 → Option Bool} {rest : List (Item Nat)}
    (hcompare : ∀ z cs, Text z cs → Decides (compare z) (Matches rest cs)) {c : Nat} (hc : c ≠ 0x80)
    {z : List UInt8} {cs : List Nat} (h : Text z cs) :
    Decides (searchFor pInfo compare c z) (Matches (.any :: .one (same pInfo.noCase c) :: rest) cs) := by
  rw [searchFor]
  by_cases hle : c ≤ 0x80
  · have hlt : c < 0x80 := by omega
    rw [if_pos hle]
    cases hcase : pInfo.noCase with
    | false => exact searchByte_spec hcompare hlt hlt (fun x => (same_case c x).trans (or_self_iff).symm) h
    | true =>
      have hlow : tolower c < 0x80 := by
        rw [tolower_ascii c hlt, fold]
        split_ifs <;> omega
      have hup : toupper c < 0x80 := by
        rw [toupper_ascii c hlt]
        split_ifs <;> omega
      exact searchByte_spec hcompare hlow hup (same_ascii hlt) h
  · rw [if_neg hle]
    exact searchChar_spec hcompare (same_other (by omega) _) h (Nat.le_refl _)

/-! ### Sets -/

theorem Text.first {b : UInt8} {z : List UInt8} {c : Nat} {cs : List Nat} (h : Text (b :: z) (c :: cs)) {x : UInt8}
    (hx : x.toNat < 0x80) : b = x ↔ c = x.toNat := by
  cases h with
  | cons hread hc h =>
    obtain ⟨rfl, -⟩ | ⟨hb, hge, -⟩ := read_split hread
    · exact UInt8.toNat_inj.symm
    · constructor
      · intro hbx
        rw [hbx] at hb
        omega
      · intro hcx
        omega

theorem ranges_close (prior_c : Nat) (cs : List Nat) : ranges prior_c (0x5d :: cs) = some ([], cs) := by
  cases cs with
  | nil => rfl
  | cons c cs => rw [ranges, if_pos rfl]

theorem ranges_range {prior_c c : Nat} (hc : c ≠ 0x5d) (h : 0 < prior_c) (cs : List Nat) :
    ranges prior_c (0x2d :: c :: cs) = (ranges 0 cs).map fun (rs, cs) => ((prior_c, c) :: rs, cs) := by
  rw [ranges, if_neg (by decide), if_pos ⟨rfl, hc, h⟩]

theorem ranges_single {prior_c c : Nat} {cs : List Nat} (hc : c ≠ 0x5d)
    (h : c = 0x2d → 0 < prior_c → ∀ c₂ cs', cs = c₂ :: cs' → c₂ = 0x5d) :
    ranges prior_c (c :: cs) = (ranges c cs).map fun (rs, cs) => ((c, c) :: rs, cs) := by
  cases cs with
  | nil => exact if_neg hc
  | cons c₂ cs =>
    rw [ranges, if_neg hc, if_neg]
    exact fun hr => hr.2.1 (h hr.1 hr.2.2 c₂ cs rfl)

/-- The test for a range, on the characters. -/
theorem isRange_spec {c₂ prior_c : Nat} {z : List UInt8} {cs : List Nat} (h : Text z cs) :
    (isRange c₂ prior_c z = some true ∧ c₂ = 0x2d ∧ 0 < prior_c ∧ ∃ c cs', cs = c :: cs' ∧ c ≠ 0x5d) ∨
    (isRange c₂ prior_c z = some false ∧ (c₂ = 0x2d → 0 < prior_c → ∀ c cs', cs = c :: cs' → c = 0x5d)) := by
  rw [isRange]
  by_cases hc : c₂ = 0x2d
  · obtain ⟨b, hb, hb0⟩ := h.head
    have hfirst : ∀ c cs', cs = c :: cs' → (b = 0x5d ↔ c = 0x5d) := by
      intro c cs' hcs
      subst hcs
      cases z with
      | nil => cases hb
      | cons b' z =>
        cases hb
        exact @Text.first _ _ _ _ h 0x5d (by decide)
    rw [if_pos hc, hb, Option.map_some]
    by_cases hr : b ≠ 0x5d ∧ b ≠ 0 ∧ prior_c > 0
    · rw [decide_eq_true hr]
      cases cs with
      | nil => exact absurd (hb0.2 rfl) hr.2.1
      | cons c cs => exact .inl ⟨rfl, hc, hr.2.2, c, cs, rfl, fun h => hr.1 ((hfirst c cs rfl).2 h)⟩
    · rw [decide_eq_false hr]
      refine .inr ⟨rfl, fun _ hprior c cs' hcs => ?_⟩
      refine (hfirst c cs' hcs).1 (by_contra fun hne => hr ⟨hne, fun h0 => ?_, hprior⟩)
      exact List.cons_ne_nil _ _ (hcs.symm.trans (hb0.1 h0))
  · rw [if_neg hc]
    exact .inr ⟨rfl, fun h => absurd h hc⟩

theorem scanSet_spec (x : Nat) {n c₂ prior_c : Nat} {seen : Bool} {z : List UInt8} {cs : List Nat} (h : At c₂ z cs)
    (hn : z.length < n) :
    ∃ c₂' seen' z', scanSet x n c₂ prior_c seen z = some (c₂', seen', z') ∧
      ((ranges prior_c cs = none ∧ c₂' = 0) ∨
        ∃ rs cs', ranges prior_c cs = some (rs, cs') ∧ c₂' ≠ 0 ∧ seen' = (seen || rs.any (inRange x)) ∧
          Text z' cs' ∧ z'.length ≤ z.length) := by
  induction n generalizing c₂ prior_c seen z cs with
  | zero => exact absurd hn (Nat.not_lt_zero _)
  | succ n ih =>
    rw [scanSet]
    obtain ⟨rfl, rfl⟩ | ⟨hc₂, cs, rfl, hz⟩ := h
    · rw [if_neg fun h => h.1 rfl]
      exact ⟨0, seen, z, rfl, .inl ⟨rfl, rfl⟩⟩
    by_cases hclose : c₂ = 0x5d
    · rw [if_neg fun h => h.2 hclose]
      subst hclose
      refine ⟨0x5d, seen, z, rfl, .inr ⟨[], cs, ranges_close _ _, by decide, ?_, hz, Nat.le_refl _⟩⟩
      rw [List.any_nil, Bool.or_false]
    rw [if_pos ⟨hc₂, hclose⟩]
    obtain ⟨hr, rfl, hprior, c, cs, rfl, hc⟩ | ⟨hr, hsingle⟩ := @isRange_spec c₂ prior_c z cs hz
    · obtain ⟨c', z₁, hread, hat, hlt⟩ := hz.read
      obtain ⟨-, hnil⟩ | ⟨hc', cs', hcs, hz₁⟩ := hat
      · cases hnil
      cases hcs
      obtain ⟨c₃, z₂, hread₂, hat₂, hlt₂⟩ := hz₁.read
      obtain ⟨c₄, seen', z', hscan, hres⟩ :=
        @ih c₃ 0 (seen || decide (prior_c ≤ x ∧ x ≤ c)) z₂ _ hat₂ (by omega)
      refine ⟨c₄, seen', z', ?_, ?_⟩
      · rw [hr]
        show (sqlite3Utf8Read z).bind _ = _
        rw [hread]
        show (sqlite3Utf8Read z₁).bind _ = _
        rw [hread₂]
        exact hscan
      · rw [ranges_range hc hprior]
        obtain ⟨hnone, h0⟩ | ⟨rs, cs', hrs, hne, hseen, htext, hle⟩ := hres
        · exact .inl ⟨by rw [hnone, Option.map_none], h0⟩
        · refine .inr ⟨(prior_c, c) :: rs, cs', by rw [hrs, Option.map_some], hne, ?_, htext, by omega⟩
          rw [hseen, List.any_cons, Bool.or_assoc]
          rfl
    · obtain ⟨c₃, z₁, hread, hat, hlt⟩ := hz.read
      obtain ⟨c₄, seen', z', hscan, hres⟩ := @ih c₃ c₂ (seen || decide (x = c₂)) z₁ _ hat (by omega)
      refine ⟨c₄, seen', z', ?_, ?_⟩
      · rw [hr]
        show (sqlite3Utf8Read z).bind _ = _
        rw [hread]
        exact hscan
      · rw [ranges_single hclose hsingle]
        obtain ⟨hnone, h0⟩ | ⟨rs, cs', hrs, hne, hseen, htext, hle⟩ := hres
        · exact .inl ⟨by rw [hnone, Option.map_none], h0⟩
        · refine .inr ⟨(c₂, c₂) :: rs, cs', by rw [hrs, Option.map_some], hne, ?_, htext, by omega⟩
          have hone : decide (x = c₂) = inRange x (c₂, c₂) := by
            rw [inRange, decide_eq_decide]
            show x = c₂ ↔ c₂ ≤ x ∧ x ≤ c₂
            omega
          rw [hseen, List.any_cons, Bool.or_assoc, hone]

theorem readAfter_spec (x : Nat) (hx : x ≠ 0) {c₂ : Nat} {z : List UInt8} {cs : List Nat} (h : At c₂ z cs) :
    ∃ c₂' z', readAfter x c₂ z = some ((leading x cs).1, c₂', z') ∧ At c₂' z' (leading x cs).2 ∧
      z'.length ≤ z.length := by
  rw [readAfter]
  obtain ⟨rfl, rfl⟩ | ⟨hc₂, cs, rfl, hz⟩ := h
  · rw [if_neg fun h => hx h.symm]
    exact ⟨0, z, rfl, .inl ⟨rfl, rfl⟩, Nat.le_refl _⟩
  · rw [leading]
    by_cases hc : c₂ = x
    · obtain ⟨c₃, z', hread, hat, hlt⟩ := hz.read
      rw [if_pos hc, if_pos hc, hread]
      exact ⟨c₃, z', rfl, hat, hlt.le⟩
    · rw [if_neg hc, if_neg hc]
      exact ⟨c₂, z, rfl, .inr ⟨hc₂, cs, rfl, hz⟩, Nat.le_refl _⟩

theorem matchSet_spec (x : Nat) {z : List UInt8} {cs : List Nat} (h : Text z cs) :
    ∃ found z', matchSet x z = some (found, z') ∧
      ((setOf cs = none ∧ found = false) ∨
        ∃ p cs', setOf cs = some (p, cs') ∧ found = p x ∧ Text z' cs' ∧ z'.length < z.length) := by
  obtain ⟨c₀, z₀, hread, hat₀, hlt⟩ := h.read
  obtain ⟨c₁, z₁, hinvert, hat₁, hle₁⟩ := readAfter_spec 0x5e (by decide) hat₀
  obtain ⟨c₂, z₂, hbracket, hat₂, hle₂⟩ := readAfter_spec 0x5d (by decide) hat₁
  obtain ⟨c₃, seen, z₃, hscan, hres⟩ := @scanSet_spec x (z₂.length + 1) c₂ 0
    ((leading 0x5d (leading 0x5e cs).2).1 && decide (x = 0x5d)) z₂ _ hat₂ (Nat.lt_succ_self _)
  refine ⟨decide (c₃ ≠ 0) && (seen ^^ (leading 0x5e cs).1), z₃, ?_, ?_⟩
  · rw [matchSet, hread]
    show (readAfter 0x5e c₀ z₀).bind _ = _
    rw [hinvert]
    show (readAfter 0x5d c₁ z₁).bind _ = _
    rw [hbracket]
    show (scanSet x (z₂.length + 1) c₂ 0 _ z₂).bind _ = _
    rw [hscan]
    rfl
  · show ((ranges 0 (leading 0x5d (leading 0x5e cs).2).2).map _ = none ∧ _) ∨
      ∃ p cs', (ranges 0 (leading 0x5d (leading 0x5e cs).2).2).map _ = some (p, cs') ∧ _
    obtain ⟨hnone, rfl⟩ | ⟨rs, cs', hrs, hne, hseen, htext, hle⟩ := hres
    · exact .inl ⟨by rw [hnone, Option.map_none], rfl⟩
    · refine .inr ⟨_, cs', by rw [hrs, Option.map_some], ?_, htext, by omega⟩
      rw [decide_eq_true hne, Bool.true_and, hseen]

/-! ### Matching -/

/-- The wildcards are characters of their own, and the bracket of a set is ASCII. -/
structure Usable (pInfo : CompareInfo) (escape : Nat) : Prop where
  matchAll : pInfo.matchAll ≠ 0
  matchOne : pInfo.matchOne ≠ 0
  wildcards : pInfo.matchOne ≠ pInfo.matchAll
  matchSet : pInfo.matchSet ≠ 0 → escape = pInfo.matchSet.toNat ∧ pInfo.matchSet.toNat < 0x80

theorem toNat_ne_zero {b : UInt8} (h : b ≠ 0) : b.toNat ≠ 0 := fun h0 => h (UInt8.toNat_inj.1 h0)

section Match
variable {pInfo : CompareInfo} {escape : Nat} (hp : Usable pInfo escape)

include hp in
/-- The loop takes the wildcards that are items of the pattern there. -/
theorem skipWildcards_spec {n : Nat} {z : List UInt8} {ps : List Nat} (hz : Text z ps) (hn : z.length ≤ n)
    {zs : List UInt8} {ss : List Nat} (hs : Text zs ss) :
    (skipWildcards pInfo n z zs = some none ∧ ¬Matches (.any :: items pInfo escape true ps) ss) ∨
    ∃ c z' zs' ps' ss', skipWildcards pInfo n z zs = some (some (c, z', zs')) ∧ At c z' ps' ∧ Text zs' ss' ∧
      z'.length < z.length ∧ ps' ⊆ ps ∧ c ≠ pInfo.matchAll.toNat ∧ c ≠ pInfo.matchOne.toNat ∧
      (Matches (.any :: items pInfo escape true ps) ss ↔ Matches (.any :: items pInfo escape true ps') ss') := by
  induction n generalizing z ps zs ss with
  | zero =>
    obtain ⟨_, _, _, _, hlt⟩ := hz.read
    omega
  | succ n ih =>
    obtain ⟨c, z₁, hread, hat, hlt⟩ := hz.read
    have hstep : skipWildcards pInfo (n + 1) z zs =
        if c = pInfo.matchAll.toNat ∨ c = pInfo.matchOne.toNat then
          if c = pInfo.matchOne.toNat then
            (sqlite3Utf8Read zs).bind fun r => if r.1 = 0 then some none else skipWildcards pInfo n z₁ r.2
          else skipWildcards pInfo n z₁ zs
        else some (some (c, z₁, zs)) := by
      rw [skipWildcards, utf8Read_eq, hread]
      rfl
    rw [hstep]
    by_cases hw : c = pInfo.matchAll.toNat ∨ c = pInfo.matchOne.toNat
    · rw [if_pos hw]
      obtain ⟨hc, -⟩ | ⟨hc, ps, rfl, hz₁⟩ := hat
      · obtain h | h := hw
        · exact absurd (h.symm.trans hc) (toNat_ne_zero hp.matchAll)
        · exact absurd (h.symm.trans hc) (toNat_ne_zero hp.matchOne)
      by_cases hone : c = pInfo.matchOne.toNat
      · have hall : c ≠ pInfo.matchAll.toNat := fun h => hp.wildcards (UInt8.toNat_inj.1 (hone.symm.trans h))
        rw [if_pos hone, items_cons (item_wildcard hall hone)]
        obtain ⟨c₂, zs₁, hread₂, hat₂, -⟩ := hs.read
        rw [hread₂]
        obtain ⟨rfl, rfl⟩ | ⟨hc₂, ss, rfl, hzs₁⟩ := hat₂
        · exact .inl ⟨rfl, any_one_nil _⟩
        · rw [any_one_all]
          show (if c₂ = 0 then some none else skipWildcards pInfo n z₁ zs₁) = some none ∧ _ ∨
            ∃ c z' zs' ps' ss', (if c₂ = 0 then some none else skipWildcards pInfo n z₁ zs₁) = _ ∧ _
          rw [if_neg hc₂]
          obtain h | ⟨c', z', zs', ps', ss', h, hat', hs', hlt', hsub, hne⟩ := ih hz₁ (by omega) hzs₁
          · exact .inl h
          · exact .inr ⟨c', z', zs', ps', ss', h, hat', hs', hlt'.trans hlt,
            List.Subset.trans hsub (List.subset_cons_self _ _), hne⟩
      · have hall : c = pInfo.matchAll.toNat := hw.resolve_right hone
        rw [if_neg hone, items_cons (item_any hall), any_any]
        obtain h | ⟨c', z', zs', ps', ss', h, hat', hs', hlt', hsub, hne⟩ := ih hz₁ (by omega) hs
        · exact .inl h
        · exact .inr ⟨c', z', zs', ps', ss', h, hat', hs', hlt'.trans hlt,
            List.Subset.trans hsub (List.subset_cons_self _ _), hne⟩
    · rw [if_neg hw]
      exact .inr ⟨c, z₁, zs, ps, ss, rfl, hat, hs, hlt, List.Subset.refl _, fun h => hw (.inl h),
        fun h => hw (.inr h), Iff.rfl⟩

theorem fold_ascii {c x : Nat} (h : fold c = fold x) (hne : c ≠ x) : c < 0x80 ∧ x < 0x80 := by
  rw [fold, fold] at h
  split_ifs at h <;> omega

theorem same_self (noCase : Bool) (c : Nat) : same noCase c c = true := by
  cases noCase <;> simp [same]

theorem matchChar_spec {compare : List UInt8 → Option Bool} {rest : List (Item Nat)}
    (hcompare : ∀ z cs, Text z cs → Decides (compare z) (Matches rest cs)) {c : Nat} (hc : c ≠ 0) (escaped : Bool)
    {zs : List UInt8} {ss : List Nat} (hs : Text zs ss) :
    Decides (matchChar pInfo compare c escaped zs)
      (Matches ((if c = pInfo.matchOne.toNat ∧ !escaped then .one fun _ => true
        else .one (same pInfo.noCase c)) :: rest) ss) := by
  obtain ⟨c₂, zs', hread, hat, -⟩ := hs.read
  rw [matchChar, utf8Read_eq, hread]
  show Decides (if c = c₂ then _ else if pInfo.noCase ∧ tolower c = tolower c₂ ∧ c < 0x80 ∧ c₂ < 0x80 then _
    else if c = pInfo.matchOne.toNat ∧ !escaped ∧ c₂ ≠ 0 then _ else some false) _
  have hfold (h : tolower c = tolower c₂ ∧ c < 0x80 ∧ c₂ < 0x80) : fold c = fold c₂ := by
    rw [← tolower_ascii c h.2.1, ← tolower_ascii c₂ h.2.2]
    exact h.1
  obtain ⟨rfl, rfl⟩ | ⟨hc₂, ss, rfl, hs'⟩ := hat
  · rw [if_neg hc, if_neg, if_neg fun h => h.2.2 rfl]
    · refine decides_false ?_
      split_ifs <;> exact one_nil _
    · intro h
      have h0 := hfold h.2
      rw [fold, fold] at h0
      split_ifs at h0 <;> omega
  have hmore := hcompare zs' ss hs'
  -- either the item accepts the character and the rest decides, or it does not
  have haccept : (c = c₂ ∨ (pInfo.noCase ∧ tolower c = tolower c₂ ∧ c < 0x80 ∧ c₂ < 0x80) ∨
      (c = pInfo.matchOne.toNat ∧ !escaped)) →
      Decides (compare zs') (Matches ((if c = pInfo.matchOne.toNat ∧ !escaped then .one fun _ => true
        else .one (same pInfo.noCase c)) :: rest) (c₂ :: ss)) := by
    intro h
    refine hmore.congr ?_
    split_ifs with hone
    · rw [one_cons]
      exact (and_iff_right rfl).symm
    · rw [one_cons]
      refine (and_iff_right ?_).symm
      obtain rfl | ⟨hno, h⟩ | h := h
      · exact same_self _ _
      · rw [same, if_pos hno, beq_iff_eq]
        exact hfold h
      · exact absurd h hone
  by_cases h₁ : c = c₂
  · rw [if_pos h₁]
    exact haccept (.inl h₁)
  rw [if_neg h₁]
  by_cases h₂ : pInfo.noCase ∧ tolower c = tolower c₂ ∧ c < 0x80 ∧ c₂ < 0x80
  · rw [if_pos h₂]
    exact haccept (.inr (.inl h₂))
  rw [if_neg h₂]
  by_cases h₃ : c = pInfo.matchOne.toNat ∧ !escaped
  · rw [if_pos ⟨h₃.1, h₃.2, hc₂⟩]
    exact haccept (.inr (.inr h₃))
  rw [if_neg fun h => h₃ ⟨h.1, h.2.1⟩, if_neg h₃]
  refine decides_false fun hm => ?_
  have hsame := (one_cons.1 hm).1
  rw [same] at hsame
  by_cases hno : pInfo.noCase = true
  · rw [if_pos hno, beq_iff_eq] at hsame
    have hascii := fold_ascii hsame h₁
    exact h₂ ⟨hno, by rw [tolower_ascii c hascii.1, tolower_ascii c₂ hascii.2, hsame], hascii⟩
  · rw [if_neg hno, beq_iff_eq] at hsame
    exact h₁ hsame

theorem setItem_empty (ps : List Nat) (rest : List (Item Nat)) : ¬Matches ((setItem ps).1 :: rest) [] := by
  rw [setItem]
  cases setOf ps with
  | none => exact one_nil _
  | some r => exact one_nil _

theorem any_never (rest : List (Item Nat)) (ss : List Nat) : ¬Matches (.any :: .never :: rest) ss := by
  intro ⟨_, s₂, _, h⟩
  exact never_nothing s₂ h

/-- `compare` decides patterns of up to `n` bytes. -/
def Compares (pInfo : CompareInfo) (escape n : Nat)
    (compare : List UInt8 → List UInt8 → Option (List UInt8) → Option Bool) : Prop :=
  ∀ z ps, Text z ps → z.length ≤ n → 0x80 ∉ ps → ∀ zEscaped, (∀ w, zEscaped = some w → z.length ≤ w.length) →
    ∀ zs ss, Text zs ss → Decides (compare z zs zEscaped) (Matches (items pInfo escape false ps) ss)

variable {n : Nat} {compare : List UInt8 → List UInt8 → Option (List UInt8) → Option Bool}
  (hcompare : Compares pInfo escape n compare)

include hcompare

theorem matchEscape_spec {z : List UInt8} {ps : List Nat} (hz : Text z ps) (hn : z.length ≤ n) (h80 : 0x80 ∉ ps)
    (hall : escape ≠ pInfo.matchAll.toNat) {zEscaped : Option (List UInt8)}
    (hesc : ∀ w, zEscaped = some w → z.length ≤ w.length) {zs : List UInt8} {ss : List Nat} (hs : Text zs ss) :
    Decides (matchEscape pInfo compare z zs zEscaped) (Matches (items pInfo escape false (escape :: ps)) ss) := by
  rw [matchEscape]
  have hitem := @item_escape pInfo escape escape false ps hall (fun _ => rfl) rfl
  by_cases hset : pInfo.matchSet = 0
  · rw [if_pos hset] at hitem ⊢
    obtain ⟨c, z', hread, hat, hlt⟩ := hz.read
    rw [hread, Option.bind_some]
    obtain ⟨rfl, rfl⟩ | ⟨hc, ps, rfl, hz'⟩ := hat
    · rw [items_cons hitem]
      exact decides_false (never_nothing _)
    · show Decides (if c = 0 then some false else _) _
      rw [if_neg hc, items_cons hitem]
      have h80' : 0x80 ∉ ps := fun h => h80 (List.mem_cons_of_mem _ h)
      have hrest := hcompare z' ps hz' (by omega) h80' (some z') fun w hw => (congrArg List.length (Option.some.inj hw)).le
      have hmatch := @matchChar_spec pInfo _ _ hrest c hc true _ _ hs
      rwa [if_neg fun h => Bool.false_ne_true h.2] at hmatch
  · rw [if_neg hset] at hitem ⊢
    obtain ⟨x, zs', hread, hat, -⟩ := hs.read
    rw [hread, Option.bind_some]
    obtain ⟨found, z', hfound, hres⟩ := matchSet_spec x hz
    obtain ⟨rfl, rfl⟩ | ⟨hx, ss, rfl, hs'⟩ := hat
    · rw [items_cons hitem]
      exact decides_false (setItem_empty ps _)
    · show Decides (if x = 0 then some false else _) _
      rw [if_neg hx, hfound, Option.bind_some]
      obtain ⟨hof, rfl⟩ | ⟨p, ps', hof, rfl, hz', hlt⟩ := hres
      · rw [items_cons (hitem.trans (setItem_none hof))]
        exact decides_false (never_nothing _)
      · rw [items_cons (hitem.trans (setItem_some hof)), one_cons]
        have h80' : 0x80 ∉ ps' := fun h => h80 ((setOf_suffix hof).1.subset h)
        show Decides (if p x then compare z' zs' zEscaped else some false) _
        by_cases hpx : p x = true
        · rw [if_pos hpx]
          have hpast : ∀ w, zEscaped = some w → z'.length ≤ w.length := fun w hw => by have := hesc w hw; omega
          exact (hcompare z' ps' hz' (by omega) h80' zEscaped hpast zs' ss hs').congr (and_iff_right hpx).symm
        · rw [if_neg hpx]
          exact decides_false fun h => hpx h.1

include hp

theorem matchPast_spec {c : Nat} {z : List UInt8} {ps : List Nat} (hz : At c z ps) (hn : z.length < n)
    (hall : c ≠ pInfo.matchAll.toNat) (hone : c ≠ pInfo.matchOne.toNat) (h80 : 0x80 ∉ ps) {zs : List UInt8}
    {ss : List Nat} (hs : Text zs ss) :
    Decides (matchPast pInfo escape (compare · · none) c z zs)
      (Matches (.any :: items pInfo escape true ps) ss) := by
  rw [matchPast]
  obtain ⟨rfl, rfl⟩ | ⟨hc, ps, rfl, hz⟩ := hz
  · rw [if_pos rfl, items_nil]
    exact decides_true (any_last ss)
  rw [if_neg hc]
  have hrest : ∀ z' ps', Text z' ps' → z'.length ≤ n → 0x80 ∉ ps' → ∀ zs ss, Text zs ss →
      Decides (compare z' zs none) (Matches (items pInfo escape false ps') ss) :=
    fun z' ps' hz' hn' h80' => hcompare z' ps' hz' hn' h80' none nofun
  by_cases hesc : c = escape
  · rw [if_pos hesc]
    have hitem := @item_escape pInfo escape c true ps hall (fun h => absurd h hone) hesc
    by_cases hset : pInfo.matchSet = 0
    · rw [if_pos hset] at hitem ⊢
      obtain ⟨c₂, z', hread, hat, hlt⟩ := hz.read
      rw [hread, Option.bind_some]
      obtain ⟨rfl, rfl⟩ | ⟨hc₂, ps, rfl, hz'⟩ := hat
      · rw [items_cons hitem]
        exact decides_false (any_never _ _)
      · show Decides (if c₂ = 0 then some false else _) _
        rw [if_neg hc₂, items_cons hitem]
        have h80' : 0x80 ∉ ps := fun h => h80 (List.mem_cons_of_mem _ (List.mem_cons_of_mem _ h))
        refine searchFor_spec (hrest z' ps hz' (by omega) h80') (fun h => h80 ?_) hs
        rw [h]
        exact List.mem_cons_of_mem _ List.mem_cons_self
    · rw [if_neg hset] at hitem ⊢
      obtain ⟨hbracket, hascii⟩ := hp.matchSet hset
      have hitem' := @item_escape pInfo escape c false ps hall (fun h => absurd h hone) hesc
      rw [if_neg hset] at hitem'
      have hsame : items pInfo escape true (c :: ps) = items pInfo escape false (c :: ps) := by
        rw [items_cons hitem, items_cons hitem']
      have hbyte : (UInt8.ofNat c).toNat = c := by
        rw [UInt8.toNat_ofNat', Nat.mod_eq_of_lt (by omega)]
      have htext : Text (UInt8.ofNat c :: z) (c :: ps) := by
        refine .cons ?_ hc hz
        rw [read_ascii (by omega), hbyte]
      rw [hsame]
      refine searchSet_spec (hrest _ _ htext hn h80) ?_ hs (Nat.le_refl _)
      rw [items_cons hitem']
      exact setItem_empty ps _
  · rw [if_neg hesc, items_cons (item_char hall (fun h => absurd h hone) hesc), if_neg hone]
    refine searchFor_spec (hrest z ps hz hn.le fun h => h80 (List.mem_cons_of_mem _ h)) (fun h => h80 ?_) hs
    rw [h]
    exact List.mem_cons_self

theorem matchStar_spec {z : List UInt8} {ps : List Nat} (hz : Text z ps) (hn : z.length ≤ n) (h80 : 0x80 ∉ ps)
    {zs : List UInt8} {ss : List Nat} (hs : Text zs ss) :
    Decides (matchStar pInfo escape (compare · · none) z zs) (Matches (.any :: items pInfo escape true ps) ss) := by
  rw [matchStar]
  obtain ⟨hskip, hno⟩ | ⟨c, z', zs', ps', ss', hskip, hat, hs', hlt, hsub, hall, hone, hiff⟩ :=
    skipWildcards_spec hp hz (Nat.le_refl _) hs
  · rw [hskip]
    exact decides_false hno
  · rw [hskip]
    exact (matchPast_spec hp hcompare hat (by omega) hall hone (fun h => h80 (hsub h)) hs').congr hiff.symm

end Match

/-- The matcher decides what a pattern's items match, and stays in both texts. -/
theorem patternCompare_spec {pInfo : CompareInfo} {escape : Nat} (hp : Usable pInfo escape) (n : Nat) :
    Compares pInfo escape n (patternCompare pInfo escape n) := by
  induction n with
  | zero =>
    intro z ps hz hn
    obtain ⟨_, _, _, _, hlt⟩ := hz.read
    omega
  | succ n ih =>
    intro z ps hz hn h80 zEscaped hesc zs ss hs
    obtain ⟨c, z₁, hread, hat, hlt⟩ := hz.read
    rw [patternCompare, utf8Read_eq, hread, Option.bind_some]
    show Decides (if c = 0 then _ else if c = pInfo.matchAll.toNat then _ else if c = escape then _ else _) _
    obtain ⟨rfl, rfl⟩ | ⟨hc, ps, rfl, hz₁⟩ := hat
    · obtain ⟨b, hb, hb0⟩ := hs.head
      rw [if_pos rfl, hb, Option.map_some, items_nil]
      exact ⟨_, rfl, beq_iff_eq.trans hb0⟩
    have h80' : 0x80 ∉ ps := fun h => h80 (List.mem_cons_of_mem _ h)
    rw [if_neg hc]
    by_cases hall : c = pInfo.matchAll.toNat
    · rw [if_pos hall, items_cons (item_any hall)]
      exact matchStar_spec hp ih hz₁ (by omega) h80' hs
    rw [if_neg hall]
    by_cases hescape : c = escape
    · rw [if_pos hescape]
      subst hescape
      exact matchEscape_spec ih hz₁ (by omega) h80' hall (fun w hw => by have := hesc w hw; omega) hs
    · have hfalse : decide (zEscaped = some z₁) = false := by
        refine decide_eq_false fun h => ?_
        have := hesc z₁ h
        omega
      have hrest := ih z₁ ps hz₁ (by omega) h80' zEscaped fun w hw => by have := hesc w hw; omega
      have hmatch := @matchChar_spec pInfo _ _ hrest c hc false _ _ hs
      rw [if_neg hescape, hfalse, items_cons (item_char hall (fun _ => rfl) hescape)]
      by_cases hone : c = pInfo.matchOne.toNat
      · rw [if_pos ⟨hone, rfl⟩] at hmatch
        rwa [if_pos hone]
      · rw [if_neg fun h => hone h.1] at hmatch
        rwa [if_neg hone]

/-! ### The SQL function -/

def charsIn : Nat → List UInt8 → List Nat
  | 0, _ => []
  | n + 1, z =>
    match sqlite3Utf8Read z with
    | none => []
    | some (c, z) => if c = 0 then [] else c :: charsIn n z

/-- The characters of a value's text, up to a zero in it. -/
def chars (z : List UInt8) : List Nat := charsIn (valueText z).length (valueText z)

theorem Text.charsIn {z : List UInt8} {cs : List Nat} (h : Text z cs) {n : Nat} (hn : z.length ≤ n) :
    charsIn n z = cs := by
  induction h generalizing n with
  | nil z =>
    cases n with
    | zero => exact absurd hn (Nat.not_succ_le_zero _)
    | succ n =>
      rw [Sqlite.charsIn, read_zero]
      exact if_pos rfl
  | cons hread hc h ih =>
    have hlt := read_lt hread
    cases n with
    | zero => omega
    | succ n =>
      rw [Sqlite.charsIn, hread]
      refine (if_neg hc).trans ?_
      rw [ih (by omega)]

theorem text_chars (z : List UInt8) : Text (valueText z) (chars z) := by
  have h0 : 0 ∈ valueText z := List.mem_append_right _ List.mem_cons_self
  obtain ⟨cs, h⟩ := exists_text _ h0 (Nat.le_refl _)
  rw [chars, h.charsIn (Nat.le_refl _)]
  exact h

theorem Text.charLen {z : List UInt8} {cs : List Nat} (h : Text z cs) {n : Nat} (hn : z.length ≤ n) :
    sqlite3Utf8CharLen n z = some cs.length := by
  induction h generalizing n with
  | nil z =>
    cases n with
    | zero => exact absurd hn (Nat.not_succ_le_zero _)
    | succ n => rfl
  | @cons c cs z z' hread hc h ih =>
    have hlt := read_lt hread
    obtain ⟨b, hb, hb0⟩ := (Text.cons hread hc h).head
    cases n with
    | zero => omega
    | succ n =>
      rw [sqlite3Utf8CharLen, hb]
      show (if b = 0 then some 0 else _) = _
      rw [if_neg fun h0 => List.cons_ne_nil _ _ (hb0.1 h0), skipUtf8_eq, hread]
      show (sqlite3Utf8CharLen n z').map (· + 1) = _
      rw [ih (by omega), Option.map_some, List.length_cons]

theorem likeEscape_one {zEsc : List UInt8} {escape : Nat} (h : chars zEsc = [escape]) :
    likeEscape zEsc = some (.inl escape) := by
  have htext := text_chars zEsc
  obtain ⟨c, z', hread, hat, -⟩ := htext.read
  rw [likeEscape, htext.charLen (Nat.le_refl _)]
  show (if (chars zEsc).length ≠ 1 then _ else _) = _
  rw [if_neg (by rw [h]; exact fun hne => hne rfl), hread]
  obtain ⟨-, hnil⟩ | ⟨-, cs, hcs, -⟩ := hat
  · rw [h] at hnil
    cases hnil
  · rw [h] at hcs
    cases hcs
    rfl

theorem likeEscape_other {zEsc : List UInt8} (h : (chars zEsc).length ≠ 1) :
    likeEscape zEsc = some (.inr (.error "ESCAPE expression must be a single character")) := by
  rw [likeEscape, (text_chars zEsc).charLen (Nat.le_refl _)]
  exact if_pos h

/-- The escape character of an operator: the one character of its `ESCAPE`, or none (0) without, and the
bracket for GLOB. -/
def Escapes (pInfo : CompareInfo) (zEsc : Option (List UInt8)) (escape : Nat) : Prop :=
  match zEsc with
  | none => escape = pInfo.matchSet.toNat
  | some z => chars z = [escape]

/-- The operators of SQL: GLOB has no `ESCAPE`. -/
def Operator (pInfo : CompareInfo) (zEsc : Option (List UInt8)) : Prop :=
  (pInfo = globInfo ∧ zEsc = none) ∨ pInfo = likeInfoNorm ∨ pInfo = likeInfoAlt

theorem operator_usable {pInfo : CompareInfo} {zEsc : Option (List UInt8)} (hp : Operator pInfo zEsc) {escape : Nat}
    (hesc : Escapes pInfo zEsc escape) : Usable pInfo escape := by
  obtain ⟨rfl, rfl⟩ | rfl | rfl := hp
  · exact ⟨by decide, by decide, by decide, fun _ => ⟨hesc, by decide⟩⟩
  · exact ⟨by decide, by decide, by decide, fun h => absurd rfl h⟩
  · exact ⟨by decide, by decide, by decide, fun h => absurd rfl h⟩

/-- Within the limit, the value is whether the pattern matches. -/
theorem likeFunc_matches {pInfo : CompareInfo} {zEsc : Option (List UInt8)} (hp : Operator pInfo zEsc) {nMax : Nat}
    {zB : List UInt8} (zA : List UInt8) (h80 : 0x80 ∉ chars zB) (hmax : zB.length ≤ nMax) {escape : Nat}
    (hesc : Escapes pInfo zEsc escape) :
    ∃ b, likeFunc pInfo nMax (some zB) (some zA) (zEsc.map some) = some (.int b) ∧
      (b = true ↔ Matches (items pInfo escape false (chars zB)) (chars zA)) := by
  have hnone : ∀ w, (none : Option (List UInt8)) = some w → (valueText zB).length ≤ w.length := fun w h => by cases h
  obtain ⟨b, hb, hiff⟩ := patternCompare_spec (operator_usable hp hesc) (valueText zB).length (valueText zB) (chars zB)
    (text_chars zB) (Nat.le_refl _) h80 none hnone (valueText zA) (chars zA) (text_chars zA)
  refine ⟨b, (if_neg (Nat.not_lt.2 hmax)).trans ?_, hiff⟩
  cases zEsc with
  | none =>
    have h0 : escape = pInfo.matchSet.toNat := hesc
    show (patternCompare pInfo pInfo.matchSet.toNat _ _ _ none).map Result.int = _
    rw [← h0, hb, Option.map_some]
  | some zEsc =>
    show (likeEscape zEsc).bind _ = _
    rw [likeEscape_one hesc, Option.bind_some]
    show (patternCompare pInfo escape _ _ _ none).map Result.int = _
    rw [hb, Option.map_some]

/-- **LIKE and GLOB of any two texts**: an error for a pattern over the limit or an `ESCAPE` of not just one
character, and otherwise whether the pattern's items match the string's characters. -/
theorem like_value {pInfo : CompareInfo} {zEsc : Option (List UInt8)} (hp : Operator pInfo zEsc) (nMax : Nat)
    (zB zA : List UInt8) (h80 : 0x80 ∉ chars zB) :
    ∃ r, likeFunc pInfo nMax (some zB) (some zA) (zEsc.map some) = some r ∧
      (nMax < zB.length → r = .error "LIKE or GLOB pattern too complex") ∧
      (zB.length ≤ nMax → (∀ escape, ¬Escapes pInfo zEsc escape) →
        r = .error "ESCAPE expression must be a single character") ∧
      ∀ escape, zB.length ≤ nMax → Escapes pInfo zEsc escape →
        ∃ b, r = .int b ∧ (b = true ↔ Matches (items pInfo escape false (chars zB)) (chars zA)) := by
  by_cases hmax : nMax < zB.length
  · exact ⟨_, if_pos hmax, fun _ => rfl, fun h => absurd hmax (Nat.not_lt.2 h),
      fun _ h => absurd hmax (Nat.not_lt.2 h)⟩
  have hlen := Nat.le_of_not_lt hmax
  by_cases hesc : ∃ escape, Escapes pInfo zEsc escape
  · obtain ⟨escape, hesc⟩ := hesc
    obtain ⟨b, hvalue, -⟩ := likeFunc_matches hp zA h80 hlen hesc
    refine ⟨_, hvalue, fun h => absurd h hmax, fun _ h => absurd hesc (h escape), fun escape' _ hesc' => ?_⟩
    obtain ⟨b', hvalue', hiff'⟩ := likeFunc_matches hp zA h80 hlen hesc'
    have hsame : Result.int b = Result.int b' := Option.some.inj (hvalue.symm.trans hvalue')
    exact ⟨b', hsame, hiff'⟩
  · have hvalue : likeFunc pInfo nMax (some zB) (some zA) (zEsc.map some) =
        some (.error "ESCAPE expression must be a single character") := by
      refine (if_neg hmax).trans ?_
      cases zEsc with
      | none => exact absurd ⟨_, rfl⟩ hesc
      | some zEsc =>
        have hlen : (chars zEsc).length ≠ 1 := fun h => hesc (List.length_eq_one_iff.1 h)
        show (likeEscape zEsc).bind _ = _
        rw [likeEscape_other hlen, Option.bind_some]
    exact ⟨_, hvalue, fun h => absurd h hmax, fun _ _ => rfl, fun escape _ h => absurd ⟨escape, h⟩ hesc⟩

/-- `'Abb_C' LIKE 'a%\_c' ESCAPE '\'`. -/
theorem escapedUnderscore_value :
    ∃ b, likeFunc likeInfoNorm 50000 (some [0x61, 0x25, 0x5c, 0x5f, 0x63]) (some [0x41, 0x62, 0x62, 0x5f, 0x43])
        (some (some [0x5c])) = some (.int b) ∧
      (b = true ↔ Matches (items likeInfoNorm 0x5c false (chars [0x61, 0x25, 0x5c, 0x5f, 0x63]))
        (chars [0x41, 0x62, 0x62, 0x5f, 0x43])) := by
  obtain ⟨r, hr, -, -, h⟩ := @like_value likeInfoNorm (some [0x5c]) (.inr (.inl rfl)) 50000
    [0x61, 0x25, 0x5c, 0x5f, 0x63] [0x41, 0x62, 0x62, 0x5f, 0x43] (by decide)
  obtain ⟨b, rfl, hb⟩ := h 0x5c (by decide) rfl
  exact ⟨b, hr, hb⟩

/-- U+0080 behind a `%` is found inside of `À`, which is C3 80. -/
example : likeFunc likeInfoNorm 50000 (some [0x25, 0xc2, 0x80]) (some [0xc3, 0x80]) none = some (.int true) := by
  decide

end FuzzerTestSuite.Sqlite
