import FuzzerTestSuite.Sqlite.PatternMatches
import FuzzerTestSuite.Sqlite.RecordCompare
import Mathlib.Data.List.Lex
import Mathlib.Data.List.TakeWhile

/-! The range of a LIKE or GLOB.

A LIKE or GLOB whose pattern starts with plain characters is turned into a range over the column's index:
`x LIKE 'aBc%'` into `x >= 'ABC' AND x < 'abd'`, compared without case. Both collations are the lexicographic order
of the bytes' keys (`likeColl_lt`), in which the bounds are the prefix and what comes after it (`likeRange_bounds`).
Text is in UTF-8 throughout: under `BINARY` a database in UTF-16 would compare other bytes. -/
namespace FuzzerTestSuite.Sqlite

/-! ### Collations -/

/-- `BINARY`: `padFlag` is not set. -/
def binCollFunc (x y : List UInt8) : Int :=
  let rc := memcmp (min x.length y.length) x y
  if rc = 0 then (x.length : Int) - y.length else rc

/-- `UpperToLower[*a]`. -/
def upperToLower (b : UInt8) : Nat := (sqlite3UpperToLower.getD b.toNat 0).toNat

def sqlite3_strnicmp : Nat → List UInt8 → List UInt8 → Int
  | n + 1, a :: zLeft, b :: zRight =>
    if a ≠ 0 ∧ upperToLower a = upperToLower b then sqlite3_strnicmp n zLeft zRight
    else (upperToLower a : Int) - upperToLower b
  | _, _, _ => 0

/-- `NOCASE`. -/
def nocaseCollatingFunc (x y : List UInt8) : Int :=
  let r := sqlite3_strnicmp (min x.length y.length) x y
  if r = 0 then (x.length : Int) - y.length else r

/-! ### The range -/

/-- The pattern's prefix, and whether there is only a `%` after it. -/
def isLikeOrGlob (pInfo : CompareInfo) (z : List UInt8) : Option (List UInt8 × Bool) :=
  let pre := z.takeWhile fun c => c != 0 && c != pInfo.matchAll && c != pInfo.matchOne && c != pInfo.matchSet
  let cnt := pre.length
  if cnt ≠ 0 ∧ pre.getLast? ≠ some 255 then
    some (pre, (valueText z)[cnt]? == some pInfo.matchAll && (valueText z)[cnt + 1]? == some 0)
  else none

structure LikeRange where
  /-- `pStr1`: the values are not less. -/
  lowerBound : List UInt8
  /-- `pStr2`: the values are less. -/
  upperBound : List UInt8
  /-- Whether the operator is not run on the values in the range. -/
  isComplete : Bool
  deriving DecidableEq

/-- The part of `exprAnalyze` for an operator that can be optimized. -/
def likeRange (pInfo : CompareInfo) (z : List UInt8) : Option LikeRange :=
  (isLikeOrGlob pInfo z).map fun (pre, isComplete) =>
    let pStr₁ := if pInfo.noCase then pre.map fun c => UInt8.ofNat (toupper c.toNat) else pre
    let pStr₂ := if pInfo.noCase then pre.map fun c => UInt8.ofNat (tolower c.toNat) else pre
    let c := pStr₂.getLastD 0
    { lowerBound := pStr₁
      upperBound := pStr₂.dropLast ++ [(if pInfo.noCase then UInt8.ofNat (tolower c.toNat) else c) + 1]
      -- '@' becomes 'A', which `NOCASE` takes for 'a'
      isComplete := isComplete && !(pInfo.noCase && c == 0x40) }

/-- The collating sequence of the range's comparisons. -/
def likeColl (pInfo : CompareInfo) : CollSeq := if pInfo.noCase then nocaseCollatingFunc else binCollFunc

/-- `x >= pStr1 AND x < pStr2`, in a database that holds text in UTF-8. -/
def inLikeRange (pInfo : CompareInfo) (r : LikeRange) (x : List UInt8) : Bool :=
  0 ≤ sqlite3MemCompare (.str x) (.str r.lowerBound) (some (likeColl pInfo)) &&
    sqlite3MemCompare (.str x) (.str r.upperBound) (some (likeColl pInfo)) < 0

/-! ### Comparisons as orders -/

theorem tolower_high : ∀ c < 0x80, tolower (0x80 + c) = 0x80 + c := by
  decide +kernel

theorem toupper_high : ∀ c < 0x80, toupper (0x80 + c) = 0x80 + c := by
  decide +kernel

theorem tolower_byte {c : Nat} (hc : c < 0x100) : tolower c = fold c := by
  by_cases h : c < 0x80
  · exact tolower_ascii c h
  · have hhigh := tolower_high (c - 0x80) (by omega)
    rw [Nat.add_sub_cancel' (by omega)] at hhigh
    rw [hhigh, fold, if_neg (by omega)]

theorem upperToLower_eq (b : UInt8) : upperToLower b = fold b.toNat := by
  rw [← tolower_byte b.toNat_lt, tolower, Nat.mod_eq_of_lt b.toNat_lt, upperToLower]

theorem toupper_byte {c : Nat} (hc : c < 0x100) :
    toupper c < 0x100 ∧ fold (toupper c) = fold c ∧ (toupper c = 0 → c = 0) := by
  by_cases h : c < 0x80
  · rw [toupper_ascii c h]
    by_cases hl : 0x61 ≤ c ∧ c ≤ 0x7a
    · rw [if_pos hl, fold, fold, if_pos (by omega), if_neg (by omega)]
      omega
    · rw [if_neg hl]
      exact ⟨hc, rfl, fun h0 => h0⟩
  · have hhigh := toupper_high (c - 0x80) (by omega)
    rw [Nat.add_sub_cancel' (by omega)] at hhigh
    rw [hhigh]
    exact ⟨hc, rfl, fun h0 => h0⟩

theorem fold_byte {c : Nat} (hc : c < 0x100) : fold c < 0x100 ∧ fold (fold c) = fold c ∧ (fold c = 0 → c = 0) := by
  by_cases h : 0x41 ≤ c ∧ c ≤ 0x5a
  · have hfold : fold c = c + 0x20 := if_pos h
    have hfold' : fold (c + 0x20) = c + 0x20 := if_neg (by omega)
    rw [hfold, hfold']
    omega
  · have hfold : fold c = c := if_neg h
    rw [hfold, hfold]
    exact ⟨hc, rfl, fun h0 => h0⟩

theorem upperToLower_zero (b : UInt8) (h : upperToLower b = upperToLower 0) : b = 0 := by
  rw [upperToLower_eq, upperToLower_eq] at h
  exact UInt8.toNat_inj.1 ((fold_byte b.toNat_lt).2.2 h)

theorem binCollFunc_lt (x y : List UInt8) : binCollFunc x y < 0 ↔ x.map (·.toNat) < y.map (·.toNat) := by
  induction x generalizing y with
  | nil =>
    cases y with
    | nil => exact iff_of_false (by decide) (List.not_lt_nil _)
    | cons b y =>
      refine iff_of_true ?_ (List.nil_lt_cons _ _)
      show (if (0 : Int) = 0 then ((0 : Nat) : Int) - (y.length + 1 : Nat) else 0) < 0
      rw [if_pos rfl]
      omega
  | cons a x ih =>
    cases y with
    | nil =>
      refine iff_of_false ?_ (List.not_lt_nil _)
      show ¬(if (0 : Int) = 0 then ((x.length + 1 : Nat) : Int) - (0 : Nat) else 0) < 0
      rw [if_pos rfl]
      omega
    | cons b y =>
      have hmin : min (a :: x).length (b :: y).length = min x.length y.length + 1 := by
        rw [List.length_cons, List.length_cons]
        omega
      rw [List.map_cons, List.map_cons, List.cons_lt_cons_iff, ← ih y, binCollFunc, binCollFunc, hmin, memcmp]
      by_cases hab : a = b
      · rw [if_pos hab, hab, List.length_cons, List.length_cons]
        have hsub : ((x.length + 1 : Nat) : Int) - (y.length + 1 : Nat) = (x.length : Int) - y.length := by omega
        rw [hsub]
        exact ⟨fun h => .inr ⟨rfl, h⟩, fun h => h.elim (fun h => absurd h (lt_irrefl _)) fun h => h.2⟩
      · have hne : a.toNat ≠ b.toNat := fun h => hab (UInt8.toNat_inj.1 h)
        rw [if_neg hab]
        show (if (a.toNat : Int) - b.toNat = 0 then _ else (a.toNat : Int) - b.toNat) < 0 ↔ _
        rw [if_neg (by omega)]
        omega

/-- The second text has no zero, where the comparison would end. -/
theorem nocaseCollatingFunc_lt (x : List UInt8) {y : List UInt8} (hy : 0 ∉ y) :
    nocaseCollatingFunc x y < 0 ↔ x.map upperToLower < y.map upperToLower := by
  induction x generalizing y with
  | nil =>
    cases y with
    | nil => exact iff_of_false (by decide) (List.not_lt_nil _)
    | cons b y =>
      refine iff_of_true ?_ (List.nil_lt_cons _ _)
      show (if (0 : Int) = 0 then ((0 : Nat) : Int) - (y.length + 1 : Nat) else 0) < 0
      rw [if_pos rfl]
      omega
  | cons a x ih =>
    cases y with
    | nil =>
      refine iff_of_false ?_ (List.not_lt_nil _)
      show ¬(if (0 : Int) = 0 then ((x.length + 1 : Nat) : Int) - (0 : Nat) else 0) < 0
      rw [if_pos rfl]
      omega
    | cons b y =>
      have hmin : min (a :: x).length (b :: y).length = min x.length y.length + 1 := by
        rw [List.length_cons, List.length_cons]
        omega
      have hy' : 0 ∉ y := fun h => hy (List.mem_cons_of_mem _ h)
      rw [List.map_cons, List.map_cons, List.cons_lt_cons_iff, ← ih hy', nocaseCollatingFunc, nocaseCollatingFunc,
        hmin, sqlite3_strnicmp]
      by_cases hab : a ≠ 0 ∧ upperToLower a = upperToLower b
      · rw [if_pos hab, hab.2, List.length_cons, List.length_cons]
        have hsub : ((x.length + 1 : Nat) : Int) - (y.length + 1 : Nat) = (x.length : Int) - y.length := by omega
        rw [hsub]
        exact ⟨fun h => .inr ⟨rfl, h⟩, fun h => h.elim (fun h => absurd h (lt_irrefl _)) fun h => h.2⟩
      · have hne : upperToLower a ≠ upperToLower b := by
          intro h
          -- two zeros would end the comparison
          refine hab ⟨fun h0 => hy ?_, h⟩
          rw [h0] at h
          have hb : b = 0 := upperToLower_zero b h.symm
          rw [hb]
          exact List.mem_cons_self
        rw [if_neg hab]
        show (if (upperToLower a : Int) - upperToLower b = 0 then _ else _) < 0 ↔ _
        rw [if_neg (by omega)]
        omega

/-- What a collation compares of a byte. -/
def collKey (pInfo : CompareInfo) (b : UInt8) : Nat := if pInfo.noCase then upperToLower b else b.toNat

theorem likeColl_lt (pInfo : CompareInfo) (x : List UInt8) {y : List UInt8} (hy : 0 ∉ y) :
    likeColl pInfo x y < 0 ↔ x.map (collKey pInfo) < y.map (collKey pInfo) := by
  cases h : pInfo.noCase with
  | true =>
    have hkey : collKey pInfo = upperToLower := funext fun b => if_pos h
    rw [hkey, likeColl, h, if_pos rfl]
    exact nocaseCollatingFunc_lt x hy
  | false =>
    have hkey : collKey pInfo = (·.toNat) := funext fun b => if_neg (by rw [h]; exact Bool.false_ne_true)
    rw [hkey, likeColl, h, if_neg Bool.false_ne_true]
    exact binCollFunc_lt x y

theorem inLikeRange_iff (pInfo : CompareInfo) (r : LikeRange) (h₁ : 0 ∉ r.lowerBound) (h₂ : 0 ∉ r.upperBound)
    (x : List UInt8) :
    inLikeRange pInfo r x = true ↔ ¬x.map (collKey pInfo) < r.lowerBound.map (collKey pInfo) ∧
      x.map (collKey pInfo) < r.upperBound.map (collKey pInfo) := by
  rw [← likeColl_lt pInfo x h₁, ← likeColl_lt pInfo x h₂, inLikeRange, Bool.and_eq_true, decide_eq_true_iff,
    decide_eq_true_iff]
  show 0 ≤ likeColl pInfo x r.lowerBound ∧ _ ↔ _
  rw [Int.not_lt]
  rfl

theorem byte_succ {b : UInt8} (hb : b.toNat < 255) : (b + 1).toNat = b.toNat + 1 ∧ b + 1 ≠ 0 := by
  have hsucc : (b + 1).toNat = b.toNat + 1 := by
    rw [UInt8.toNat_add]
    exact Nat.mod_eq_of_lt (show b.toNat + 1 < 2 ^ 8 by omega)
  exact ⟨hsucc, fun h => by rw [h] at hsucc; cases hsucc⟩

/-- Both cases of a byte are the same to `NOCASE`. -/
theorem upperToLower_cases (b : UInt8) :
    upperToLower (UInt8.ofNat (toupper b.toNat)) = upperToLower b ∧
      (UInt8.ofNat (tolower b.toNat)).toNat = upperToLower b ∧
      (UInt8.ofNat (toupper b.toNat) = 0 → b = 0) ∧ (UInt8.ofNat (tolower b.toNat) = 0 → b = 0) := by
  obtain ⟨hu, hfold, hzero⟩ := toupper_byte b.toNat_lt
  obtain ⟨hl, -, hzero'⟩ := fold_byte b.toNat_lt
  have hup : (UInt8.ofNat (toupper b.toNat)).toNat = toupper b.toNat := UInt8.toNat_ofNat_of_lt' hu
  have hlow : (UInt8.ofNat (tolower b.toNat)).toNat = fold b.toNat := by
    rw [tolower_byte b.toNat_lt]
    exact UInt8.toNat_ofNat_of_lt' hl
  refine ⟨?_, by rw [hlow, upperToLower_eq], fun h => ?_, fun h => ?_⟩
  · rw [upperToLower_eq, upperToLower_eq, hup, hfold]
  · rw [h] at hup
    exact UInt8.toNat_inj.1 (hzero hup.symm)
  · rw [h] at hlow
    exact UInt8.toNat_inj.1 (hzero' hlow.symm)

/-- The prefix is not empty, and its last byte can be incremented. -/
theorem isLikeOrGlob_prefix {pInfo : CompareInfo} {z pre : List UInt8} {isComplete : Bool}
    (h : isLikeOrGlob pInfo z = some (pre, isComplete)) :
    ∃ q b, pre = q ++ [b] ∧ b.toNat < 255 ∧ 0 ∉ q ++ [b] := by
  rw [isLikeOrGlob] at h
  simp only [Option.ite_none_right_eq_some, Option.some.injEq, Prod.mk.injEq] at h
  obtain ⟨⟨hlen, hlast⟩, hpre, -⟩ := h
  rw [hpre] at hlen hlast
  have hzero : 0 ∉ pre := by
    rw [← hpre]
    intro h
    have h0 := List.mem_takeWhile_imp h
    exact Bool.false_ne_true h0
  obtain ⟨q, b, rfl⟩ := (List.eq_nil_or_concat' pre).resolve_left fun h => hlen (congrArg List.length h)
  rw [List.getLast?_append, List.getLast?_singleton] at hlast
  have hb := b.toNat_lt
  have hb255 : b.toNat ≠ 255 := fun h => hlast (congrArg some (UInt8.toNat_inj.1 h))
  exact ⟨q, b, rfl, by omega, hzero⟩

/-- The bounds of a prefix `q ++ [b]` as the collation sees them, and when the range is exact. -/
structure Bounds (pInfo : CompareInfo) (r : LikeRange) (q : List UInt8) (b : UInt8) (k : Nat) (isComplete : Bool) :
    Prop where
  lowerZero : 0 ∉ r.lowerBound
  upperZero : 0 ∉ r.upperBound
  lowerKeys : r.lowerBound.map (collKey pInfo) = q.map (collKey pInfo) ++ [collKey pInfo b]
  upperKeys : r.upperBound.map (collKey pInfo) = q.map (collKey pInfo) ++ [k]
  lt : collKey pInfo b < k
  next : r.isComplete = true → isComplete = true ∧ k = collKey pInfo b + 1

section Bounds
variable {pInfo : CompareInfo} {q : List UInt8} {b : UInt8} (hb : b.toNat < 255) (hzero : 0 ∉ q ++ [b])
  (isComplete : Bool)
include hb hzero

theorem binary_bounds (hcase : pInfo.noCase = false) :
    Bounds pInfo ⟨q ++ [b], q ++ [b + 1], isComplete⟩ q b (b.toNat + 1) isComplete := by
  have hkey : collKey pInfo = (·.toNat) := funext fun b => if_neg (by rw [hcase]; exact Bool.false_ne_true)
  obtain ⟨hsucc, hsucc0⟩ := byte_succ hb
  refine ⟨hzero, fun h => ?_, ?_, ?_, ?_, fun h => ⟨h, by rw [hkey]⟩⟩
  · obtain h | h := List.mem_append.1 h
    · exact hzero (List.mem_append_left _ h)
    · exact hsucc0 (List.mem_singleton.1 h).symm
  · rw [List.map_append, List.map_singleton]
  · rw [hkey, List.map_append, List.map_singleton, hsucc]
  · rw [hkey]
    exact Nat.lt_succ_self _

/-- The last byte of the upper bound is folded twice. -/
theorem nocase_bounds (hcase : pInfo.noCase = true) :
    Bounds pInfo ⟨(q ++ [b]).map fun c => UInt8.ofNat (toupper c.toNat),
      q.map (fun c => UInt8.ofNat (tolower c.toNat)) ++
        [UInt8.ofNat (tolower (UInt8.ofNat (tolower b.toNat)).toNat) + 1],
      isComplete && !(UInt8.ofNat (tolower b.toNat) == 0x40)⟩ q b (fold (fold b.toNat + 1)) isComplete := by
  have hkey : collKey pInfo = upperToLower := funext fun b => if_pos hcase
  obtain ⟨-, hlow, -, -⟩ := upperToLower_cases b
  have hlast : (UInt8.ofNat (tolower (UInt8.ofNat (tolower b.toNat)).toNat)).toNat = fold b.toNat := by
    rw [(upperToLower_cases _).2.1, upperToLower_eq, hlow, upperToLower_eq, (fold_byte b.toNat_lt).2.1]
  have hfold : fold b.toNat < 255 ∧ ¬(0x41 ≤ fold b.toNat ∧ fold b.toNat ≤ 0x5a) := by
    unfold fold
    split_ifs <;> omega
  obtain ⟨hsucc, hsucc0⟩ := byte_succ (hlast.trans_lt hfold.1)
  refine ⟨fun h => ?_, fun h => ?_, ?_, ?_, ?_, fun h => ?_⟩
  · obtain ⟨c, hc, h0⟩ := List.mem_map.1 h
    rw [(upperToLower_cases c).2.2.1 h0] at hc
    exact hzero hc
  · obtain h | h := List.mem_append.1 h
    · obtain ⟨c, hc, h0⟩ := List.mem_map.1 h
      rw [(upperToLower_cases c).2.2.2 h0] at hc
      exact hzero (List.mem_append_left _ hc)
    · exact hsucc0 (List.mem_singleton.1 h).symm
  · have hmap : (q ++ [b]).map upperToLower = q.map upperToLower ++ [upperToLower b] := List.map_append
    rw [hkey, ← hmap, List.map_map]
    exact List.map_congr_left fun c _ => (upperToLower_cases c).1
  · rw [hkey, List.map_append, List.map_map, List.map_singleton, upperToLower_eq (_ + 1), hsucc, hlast]
    refine congrArg (· ++ _) (List.map_congr_left fun c _ => ?_)
    obtain ⟨-, hlow, -, -⟩ := upperToLower_cases c
    rw [Function.comp_apply, upperToLower_eq, hlow, upperToLower_eq, (fold_byte c.toNat_lt).2.1]
  · rw [hkey, upperToLower_eq]
    generalize fold b.toNat = n
    unfold fold
    split_ifs <;> omega
  · -- behind '@' comes 'a', which is not the next key
    rw [Bool.and_eq_true, Bool.not_eq_true', beq_eq_false_iff_ne] at h
    have hat : fold b.toNat ≠ 0x40 := fun h0 => h.2 (UInt8.toNat_inj.1 (by rw [hlow, upperToLower_eq, h0]; rfl))
    refine ⟨h.1, ?_⟩
    rw [hkey, upperToLower_eq]
    obtain ⟨-, hupper⟩ := hfold
    generalize fold b.toNat = n at *
    rw [fold, if_neg (by omega)]

end Bounds

theorem likeRange_bounds {pInfo : CompareInfo} {z : List UInt8} {r : LikeRange} (hr : likeRange pInfo z = some r) :
    ∃ q b k isComplete, isLikeOrGlob pInfo z = some (q ++ [b], isComplete) ∧ Bounds pInfo r q b k isComplete := by
  obtain ⟨⟨pre, isComplete⟩, hlike, hr⟩ := Option.map_eq_some_iff.1 hr
  obtain ⟨q, b, rfl, hb, hzero⟩ := isLikeOrGlob_prefix hlike
  cases hcase : pInfo.noCase with
  | false =>
    simp only [hcase, Bool.false_eq_true, if_false, List.dropLast_concat, List.getLastD_concat, Bool.false_and,
      Bool.not_false, Bool.and_true] at hr
    subst hr
    exact ⟨q, b, _, isComplete, hlike, binary_bounds hb hzero isComplete hcase⟩
  | true =>
    have hmap : (q ++ [b]).map (fun c => UInt8.ofNat (tolower c.toNat)) =
        q.map (fun c => UInt8.ofNat (tolower c.toNat)) ++ [UInt8.ofNat (tolower b.toNat)] := List.map_append
    simp only [hcase, if_true, hmap, List.dropLast_concat, List.getLastD_concat, Bool.true_and] at hr
    subst hr
    exact ⟨q, b, _, isComplete, hlike, nocase_bounds hb hzero isComplete hcase⟩

end FuzzerTestSuite.Sqlite
