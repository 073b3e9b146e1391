import FuzzerTestSuite.Sqlite.PatternCompare

/-! The characters of a text, and the items of a pattern.

A text's bytes are characters up to a zero, whatever they are (`exists_text`). The characters of a LIKE or GLOB
pattern are read as items of a wildcard pattern (`items`): wildcards, characters that stand for
themselves or for their other case, and sets. -/
namespace FuzzerTestSuite.Sqlite
open Library.Wildcard

/-! ### Texts -/

/-- The bytes up to a zero read as the characters `cs`. -/
inductive Text : List UInt8 → List Nat → Prop where
  | nil (z : List UInt8) : Text (0 :: z) []
  | cons {c : Nat} {cs : List Nat} {z z' : List UInt8} (hread : sqlite3Utf8Read z = some (c, z')) (hc : c ≠ 0)
      (h : Text z' cs) : Text z (c :: cs)

theorem utf8Read_eq (z : List UInt8) : utf8Read z = sqlite3Utf8Read z := by
  cases z with
  | nil => rfl
  | cons b z =>
    rw [utf8Read]
    by_cases hb : b < 0x80
    · have hlead : ¬0xc0 ≤ b := by
        rw [UInt8.le_iff_toNat_le]
        rw [UInt8.lt_iff_toNat_lt] at hb
        have h80 : (0x80 : UInt8).toNat = 0x80 := rfl
        have hc0 : (0xc0 : UInt8).toNat = 0xc0 := rfl
        omega
      rw [if_pos hb, sqlite3Utf8Read, if_neg hlead]
    · rw [if_neg hb]

theorem replaced_ge (c : Nat) : 0x80 ≤ replaced c := by
  rw [replaced]
  split_ifs with h
  · decide
  · omega

theorem continues_ge : ∀ b : UInt8, continues b = true → 0x80 ≤ b.toNat := by
  intro b h
  rw [continues, beq_iff_eq] at h
  have hb := congrArg UInt8.toNat h
  rw [UInt8.toNat_and] at hb
  calc 0x80 = b.toNat &&& (0xc0 : UInt8).toNat := hb.symm
    _ ≤ b.toNat := Nat.and_le_left

/-- What a character's continuation leaves. -/
theorem readTail_split {c c' : Nat} {z z' : List UInt8} (h : readTail c z = some (c', z')) :
    ∃ w, z = w ++ z' ∧ ∀ b ∈ w, 0x80 ≤ b.toNat := by
  induction z generalizing c with
  | nil => cases h
  | cons b z ih =>
    rw [readTail] at h
    by_cases hb : continues b = true
    · rw [if_pos hb] at h
      obtain ⟨w, hw, hge⟩ := ih h
      refine ⟨b :: w, by rw [hw, List.cons_append], ?_⟩
      intro b' hb'
      obtain rfl | hb' := List.mem_cons.1 hb'
      · exact continues_ge _ hb
      · exact hge b' hb'
    · rw [if_neg hb] at h
      cases h
      exact ⟨[], rfl, fun _ h => absurd h List.not_mem_nil⟩

/-- A byte is a character by itself, or starts one that is not ASCII. -/
theorem read_split {b : UInt8} {c : Nat} {z z' : List UInt8} (h : sqlite3Utf8Read (b :: z) = some (c, z')) :
    (c = b.toNat ∧ z = z') ∨ (0xc0 ≤ b.toNat ∧ 0x80 ≤ c ∧ ∃ w, z = w ++ z' ∧ ∀ b ∈ w, 0x80 ≤ b.toNat) := by
  rw [sqlite3Utf8Read] at h
  by_cases hb : 0xc0 ≤ b
  · rw [if_pos hb, Option.map_eq_some_iff] at h
    obtain ⟨⟨c', w⟩, hr, hp⟩ := h
    cases hp
    exact .inr ⟨UInt8.le_iff_toNat_le.1 hb, replaced_ge c', readTail_split hr⟩
  · rw [if_neg hb] at h
    cases h
    exact .inl ⟨rfl, rfl⟩

theorem read_lt {c : Nat} {z z' : List UInt8} (h : sqlite3Utf8Read z = some (c, z')) : z'.length < z.length := by
  cases z with
  | nil => cases h
  | cons b z =>
    obtain ⟨-, rfl⟩ | ⟨-, -, w, rfl, -⟩ := read_split h
    · exact Nat.lt_succ_self _
    · rw [List.length_cons, List.length_append]
      omega

theorem read_zero (z : List UInt8) : sqlite3Utf8Read (0 :: z) = some (0, z) := rfl

/-- An ASCII character is its byte. -/
theorem read_ascii {b : UInt8} (hb : b.toNat < 0x80) (z : List UInt8) :
    sqlite3Utf8Read (b :: z) = some (b.toNat, z) := by
  rw [sqlite3Utf8Read, if_neg]
  rw [UInt8.le_iff_toNat_le]
  exact fun h => by have hc0 : (0xc0 : UInt8).toNat = 0xc0 := rfl; omega

/-- The character read, or 0 at the end, and what comes then. -/
def At (c : Nat) (z : List UInt8) (cs : List Nat) : Prop :=
  (c = 0 ∧ cs = []) ∨ (c ≠ 0 ∧ ∃ cs', cs = c :: cs' ∧ Text z cs')

theorem Text.read {z : List UInt8} {cs : List Nat} (h : Text z cs) :
    ∃ c z', sqlite3Utf8Read z = some (c, z') ∧ At c z' cs ∧ z'.length < z.length := by
  cases h with
  | nil z => exact ⟨0, z, read_zero z, .inl ⟨rfl, rfl⟩, Nat.lt_succ_self _⟩
  | cons hread hc h => exact ⟨_, _, hread, .inr ⟨hc, _, rfl, h⟩, read_lt hread⟩

theorem readTail_zero {z : List UInt8} (h : 0 ∈ z) (c : Nat) :
    ∃ c' z', readTail c z = some (c', z') ∧ 0 ∈ z' := by
  induction z generalizing c with
  | nil => cases h
  | cons b z ih =>
    rw [readTail]
    by_cases hb : continues b = true
    · rw [if_pos hb]
      obtain rfl | h := List.mem_cons.1 h
      · cases hb
      · exact ih h _
    · rw [if_neg hb]
      exact ⟨c, b :: z, rfl, h⟩

/-- Any bytes before a zero are a text. -/
theorem exists_text (n : Nat) {z : List UInt8} (h : 0 ∈ z) (hn : z.length ≤ n) : ∃ cs, Text z cs := by
  induction n generalizing z with
  | zero =>
    rw [List.length_eq_zero_iff.1 (Nat.le_zero.1 hn)] at h
    cases h
  | succ n ih =>
    cases z with
    | nil => cases h
    | cons b z =>
      by_cases hb : 0xc0 ≤ b
      · have hz : 0 ∈ z := by
          obtain rfl | h := List.mem_cons.1 h
          · exact absurd hb (by decide)
          · exact h
        obtain ⟨c', z', htail, hz'⟩ := readTail_zero hz (sqlite3Utf8Trans1.getD (b.toNat - 0xc0) 0).toNat
        have hread : sqlite3Utf8Read (b :: z) = some (replaced c', z') := by
          rw [sqlite3Utf8Read, if_pos hb, htail, Option.map_some]
        have hlt := read_lt hread
        rw [List.length_cons] at hlt hn
        obtain ⟨cs, hcs⟩ := ih hz' (by omega)
        exact ⟨_, .cons hread (by have := replaced_ge c'; omega) hcs⟩
      · have hread : sqlite3Utf8Read (b :: z) = some (b.toNat, z) := by
          rw [sqlite3Utf8Read, if_neg hb]
        by_cases h0 : b = 0
        · subst h0
          exact ⟨[], .nil z⟩
        · obtain h | h := List.mem_cons.1 h
          · exact absurd h.symm h0
          · obtain ⟨cs, hcs⟩ := ih h (Nat.le_of_succ_le_succ hn)
            exact ⟨_, .cons hread (fun hc => h0 (UInt8.toNat_inj.1 hc)) hcs⟩

/-! ### Patterns -/

/-- Lower-case ASCII letters for upper-case ones. -/
def fold (c : Nat) : Nat := if 0x41 ≤ c ∧ c ≤ 0x5a then c + 0x20 else c

/-- The characters that a character of the pattern stands for. -/
def same (noCase : Bool) (c x : Nat) : Bool := if noCase then fold c == fold x else c == x

/-- The ranges of a `[...]`, up to its bracket, and what is behind it. A `-` makes a range of the character
before it and the next one, but for those that are in a range already. -/
def ranges : Nat → List Nat → Option (List (Nat × Nat) × List Nat)
  | _, [] => none
  | _, [c] => if c = 0x5d then some ([], []) else none
  | prior_c, c :: c₂ :: cs =>
    if c = 0x5d then some ([], c₂ :: cs)
    else if c = 0x2d ∧ c₂ ≠ 0x5d ∧ 0 < prior_c then
      (ranges 0 cs).map fun (rs, cs) => ((prior_c, c₂) :: rs, cs)
    else (ranges c (c₂ :: cs)).map fun (rs, cs) => ((c, c) :: rs, cs)

def inRange (x : Nat) (r : Nat × Nat) : Bool := decide (r.1 ≤ x ∧ x ≤ r.2)

/-- `x` in front, if it is there. -/
def leading (x : Nat) : List Nat → Bool × List Nat
  | [] => (false, [])
  | c :: cs => if c = x then (true, cs) else (false, c :: cs)

/-- A `[...]` behind its first bracket: what it accepts, and what is behind it. -/
def setOf (cs : List Nat) : Option ((Nat → Bool) × List Nat) :=
  let invert := leading 0x5e cs
  let bracket := leading 0x5d invert.2
  (ranges 0 bracket.2).map fun (rs, cs) =>
    (fun x => (bracket.1 && decide (x = 0x5d) || rs.any (inRange x)) ^^ invert.1, cs)

theorem ranges_suffix {prior_c : Nat} {cs cs' : List Nat} {rs : List (Nat × Nat)}
    (h : ranges prior_c cs = some (rs, cs')) : cs' <:+ cs ∧ cs'.length < cs.length := by
  fun_induction ranges prior_c cs generalizing rs cs' with
  | case1 => cases h
  | case2 =>
    cases h
    exact ⟨List.suffix_cons _ _, Nat.lt_succ_self _⟩
  | case3 => cases h
  | case4 =>
    cases h
    exact ⟨List.suffix_cons _ _, Nat.lt_succ_self _⟩
  | case5 prior_c c c₂ cs hc hr ih =>
    obtain ⟨⟨rs', w⟩, hw, hp⟩ := Option.map_eq_some_iff.1 h
    cases hp
    obtain ⟨hsub, hlt⟩ := ih hw
    refine ⟨hsub.trans ((List.suffix_cons _ _).trans (List.suffix_cons _ _)), ?_⟩
    rw [List.length_cons, List.length_cons]
    omega
  | case6 prior_c c c₂ cs hc hr ih =>
    obtain ⟨⟨rs', w⟩, hw, hp⟩ := Option.map_eq_some_iff.1 h
    cases hp
    obtain ⟨hsub, hlt⟩ := ih hw
    exact ⟨hsub.trans (List.suffix_cons _ _), hlt.trans (Nat.lt_succ_self _)⟩

theorem leading_suffix (x : Nat) (cs : List Nat) : (leading x cs).2 <:+ cs := by
  cases cs with
  | nil => exact List.suffix_rfl
  | cons c cs =>
    rw [leading]
    split_ifs
    · exact List.suffix_cons _ _
    · exact List.suffix_rfl

theorem setOf_suffix {cs cs' : List Nat} {p : Nat → Bool} (h : setOf cs = some (p, cs')) :
    cs' <:+ cs ∧ cs'.length < cs.length := by
  obtain ⟨⟨rs, w⟩, hw, hp⟩ := Option.map_eq_some_iff.1 h
  cases hp
  have hlead := (leading_suffix 0x5d (leading 0x5e cs).2).trans (leading_suffix 0x5e cs)
  obtain ⟨hsub, hlt⟩ := ranges_suffix hw
  exact ⟨hsub.trans hlead, hlt.trans_le hlead.length_le⟩

/-- The character behind an escape. -/
def escapedItem (noCase : Bool) : List Nat → Item Nat × Bool × List Nat
  | [] => (.never, false, [])
  | c :: cs => (.one (same noCase c), false, cs)

def setItem (cs : List Nat) : Item Nat × Bool × List Nat :=
  match setOf cs with
  | none => (.never, false, [])
  | some (accepts, cs) => (.one accepts, false, cs)

/-- The item that a pattern starts with, and what is behind it. `star` says that a `*` is before it, with
wildcards only between: a character that is both `?` and an escape is the first there. -/
def item (pInfo : CompareInfo) (escape : Nat) (star : Bool) (c : Nat) (cs : List Nat) :
    Item Nat × Bool × List Nat :=
  if c = pInfo.matchAll.toNat then (.any, true, cs)
  else if c = pInfo.matchOne.toNat ∧ star then (.one fun _ => true, true, cs)
  else if c = escape then
    if pInfo.matchSet = 0 then escapedItem pInfo.noCase cs else setItem cs
  else if c = pInfo.matchOne.toNat then (.one fun _ => true, false, cs)
  else (.one (same pInfo.noCase c), false, cs)

theorem setItem_none {cs : List Nat} (h : setOf cs = none) : setItem cs = (.never, false, []) := by
  rw [setItem, h]

theorem setItem_some {cs cs' : List Nat} {p : Nat → Bool} (h : setOf cs = some (p, cs')) :
    setItem cs = (.one p, false, cs') := by
  rw [setItem, h]

theorem item_le (pInfo : CompareInfo) (escape : Nat) (star : Bool) (c : Nat) (cs : List Nat) :
    (item pInfo escape star c cs).2.2.length ≤ cs.length := by
  have hescaped : (escapedItem pInfo.noCase cs).2.2.length ≤ cs.length := by
    cases cs with
    | nil => exact Nat.le_refl _
    | cons c cs => exact Nat.le_succ _
  have hset : (setItem cs).2.2.length ≤ cs.length := by
    cases h : setOf cs with
    | none =>
      rw [setItem_none h]
      exact Nat.zero_le _
    | some r =>
      rw [setItem_some h]
      exact (setOf_suffix h).2.le
  unfold item
  split_ifs
  · exact Nat.le_refl _
  · exact Nat.le_refl _
  · exact hescaped
  · exact hset
  · exact Nat.le_refl _
  · exact Nat.le_refl _

/-- A pattern's items. -/
def items (pInfo : CompareInfo) (escape : Nat) (star : Bool) : List Nat → List (Item Nat)
  | [] => []
  | c :: cs =>
    (item pInfo escape star c cs).1 ::
      items pInfo escape (item pInfo escape star c cs).2.1 (item pInfo escape star c cs).2.2
termination_by cs => cs.length
decreasing_by exact Nat.lt_succ_of_le (item_le ..)

section Items
variable {pInfo : CompareInfo} {escape c : Nat} {star : Bool} {cs : List Nat}

theorem items_nil : items pInfo escape star [] = [] := by
  rw [items]

theorem items_cons {i : Item Nat} {star' : Bool} {cs' : List Nat}
    (h : item pInfo escape star c cs = (i, star', cs')) :
    items pInfo escape star (c :: cs) = i :: items pInfo escape star' cs' := by
  rw [items, h]

theorem item_any (hc : c = pInfo.matchAll.toNat) : item pInfo escape star c cs = (.any, true, cs) := if_pos hc

theorem item_wildcard (hall : c ≠ pInfo.matchAll.toNat) (hc : c = pInfo.matchOne.toNat) :
    item pInfo escape true c cs = (.one fun _ => true, true, cs) := by
  rw [item, if_neg hall, if_pos ⟨hc, rfl⟩]

variable (hall : c ≠ pInfo.matchAll.toNat) (hone : c = pInfo.matchOne.toNat → star = false)
include hall hone

theorem item_escape (hc : c = escape) :
    item pInfo escape star c cs = if pInfo.matchSet = 0 then escapedItem pInfo.noCase cs else setItem cs := by
  rw [item, if_neg hall, if_neg (fun h => Bool.false_ne_true ((hone h.1).symm.trans h.2)), if_pos hc]

theorem item_char (hc : c ≠ escape) :
    item pInfo escape star c cs =
      (if c = pInfo.matchOne.toNat then .one fun _ => true else .one (same pInfo.noCase c), false, cs) := by
  rw [item, if_neg hall, if_neg (fun h => Bool.false_ne_true ((hone h.1).symm.trans h.2)), if_neg hc]
  split_ifs <;> rfl

end Items

end FuzzerTestSuite.Sqlite
