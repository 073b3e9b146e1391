import FuzzerTestSuite.Sqlite.PatternCompare
import Mathlib.Data.List.Forall2
import Mathlib.Data.List.Nodup

/-! Keywords of SQL.

The tokenizer finds a keyword in tables that are made by a program: the words overlap in one text, and a hash of
the length and the outer letters starts a chain of candidates. It is exactly the lookup of the word in the list of all
keywords, in upper or lower case (`keywordCode_word`). -/
namespace FuzzerTestSuite.Sqlite

/-- `TK_...`: the types of tokens. -/
inductive Tk where
  | SPACE | MINUS | LP | RP | SEMI | PLUS | STAR | SLASH | REM | EQ | LE | NE | LSHIFT | LT | GE | RSHIFT
  | GT | ILLEGAL | BITOR | CONCAT | COMMA | BITAND | BITNOT | STRING | ID | DOT | INTEGER | FLOAT | VARIABLE
  | BLOB | REINDEX | INDEXED | INDEX | DESC | ESCAPE | EACH | CHECK | KEY | BEFORE | FOREIGN | FOR | IGNORE
  | LIKE_KW | EXPLAIN | INSTEAD | ADD | DATABASE | AS | SELECT | TABLE | JOIN_KW | THEN | END | DEFERRABLE
  | ELSE | EXCEPT | TRANSACTION | ACTION | ON | ALTER | RAISE | EXCLUSIVE | EXISTS | SAVEPOINT | INTERSECT
  | TRIGGER | REFERENCES | CONSTRAINT | INTO | OFFSET | OF | SET | TEMP | OR | UNIQUE | QUERY | WITHOUT
  | WITH | RELEASE | ATTACH | HAVING | GROUP | UPDATE | BEGIN | RECURSIVE | BETWEEN | NOTNULL | NOT | NO
  | NULL | CASCADE | ASC | DELETE | CASE | COLLATE | CREATE | CTIME_KW | DETACH | IMMEDIATE | JOIN | INSERT
  | MATCH | PLAN | ANALYZE | PRAGMA | ABORT | VALUES | VIRTUAL | LIMIT | WHEN | WHERE | RENAME | AFTER
  | REPLACE | AND | DEFAULT | AUTOINCR | TO | IN | CAST | COLUMNKW | COMMIT | CONFLICT | PRIMARY | DEFERRED
  | DISTINCT | IS | DROP | FAIL | FROM | BY | IF | ISNULL | ORDER | RESTRICT | ROLLBACK | ROW | UNION | USING
  | VACUUM | VIEW | INITIALLY | ALL
  deriving DecidableEq

/-! ### keywordhash.h -/

def zText : List Nat :=
  (['R', 'E', 'I', 'N', 'D', 'E', 'X', 'E', 'D', 'E', 'S', 'C', 'A', 'P', 'E', 'A', 'C', 'H', 'E', 'C', 'K',
    'E', 'Y', 'B', 'E', 'F', 'O', 'R', 'E', 'I', 'G', 'N', 'O', 'R', 'E', 'G', 'E', 'X', 'P', 'L', 'A', 'I',
    'N', 'S', 'T', 'E', 'A', 'D', 'D', 'A', 'T', 'A', 'B', 'A', 'S', 'E', 'L', 'E', 'C', 'T', 'A', 'B', 'L',
    'E', 'F', 'T', 'H', 'E', 'N', 'D', 'E', 'F', 'E', 'R', 'R', 'A', 'B', 'L', 'E', 'L', 'S', 'E', 'X', 'C',
    'E', 'P', 'T', 'R', 'A', 'N', 'S', 'A', 'C', 'T', 'I', 'O', 'N', 'A', 'T', 'U', 'R', 'A', 'L', 'T', 'E',
    'R', 'A', 'I', 'S', 'E', 'X', 'C', 'L', 'U', 'S', 'I', 'V', 'E', 'X', 'I', 'S', 'T', 'S', 'A', 'V', 'E',
    'P', 'O', 'I', 'N', 'T', 'E', 'R', 'S', 'E', 'C', 'T', 'R', 'I', 'G', 'G', 'E', 'R', 'E', 'F', 'E', 'R',
    'E', 'N', 'C', 'E', 'S', 'C', 'O', 'N', 'S', 'T', 'R', 'A', 'I', 'N', 'T', 'O', 'F', 'F', 'S', 'E', 'T',
    'E', 'M', 'P', 'O', 'R', 'A', 'R', 'Y', 'U', 'N', 'I', 'Q', 'U', 'E', 'R', 'Y', 'W', 'I', 'T', 'H', 'O',
    'U', 'T', 'E', 'R', 'E', 'L', 'E', 'A', 'S', 'E', 'A', 'T', 'T', 'A', 'C', 'H', 'A', 'V', 'I', 'N', 'G',
    'R', 'O', 'U', 'P', 'D', 'A', 'T', 'E', 'B', 'E', 'G', 'I', 'N', 'N', 'E', 'R', 'E', 'C', 'U', 'R', 'S',
    'I', 'V', 'E', 'B', 'E', 'T', 'W', 'E', 'E', 'N', 'O', 'T', 'N', 'U', 'L', 'L', 'I', 'K', 'E', 'C', 'A',
    'S', 'C', 'A', 'D', 'E', 'L', 'E', 'T', 'E', 'C', 'A', 'S', 'E', 'C', 'O', 'L', 'L', 'A', 'T', 'E', 'C',
    'R', 'E', 'A', 'T', 'E', 'C', 'U', 'R', 'R', 'E', 'N', 'T', '_', 'D', 'A', 'T', 'E', 'D', 'E', 'T', 'A',
    'C', 'H', 'I', 'M', 'M', 'E', 'D', 'I', 'A', 'T', 'E', 'J', 'O', 'I', 'N', 'S', 'E', 'R', 'T', 'M', 'A',
    'T', 'C', 'H', 'P', 'L', 'A', 'N', 'A', 'L', 'Y', 'Z', 'E', 'P', 'R', 'A', 'G', 'M', 'A', 'B', 'O', 'R',
    'T', 'V', 'A', 'L', 'U', 'E', 'S', 'V', 'I', 'R', 'T', 'U', 'A', 'L', 'I', 'M', 'I', 'T', 'W', 'H', 'E',
    'N', 'W', 'H', 'E', 'R', 'E', 'N', 'A', 'M', 'E', 'A', 'F', 'T', 'E', 'R', 'E', 'P', 'L', 'A', 'C', 'E',
    'A', 'N', 'D', 'E', 'F', 'A', 'U', 'L', 'T', 'A', 'U', 'T', 'O', 'I', 'N', 'C', 'R', 'E', 'M', 'E', 'N',
    'T', 'C', 'A', 'S', 'T', 'C', 'O', 'L', 'U', 'M', 'N', 'C', 'O', 'M', 'M', 'I', 'T', 'C', 'O', 'N', 'F',
    'L', 'I', 'C', 'T', 'C', 'R', 'O', 'S', 'S', 'C', 'U', 'R', 'R', 'E', 'N', 'T', '_', 'T', 'I', 'M', 'E',
    'S', 'T', 'A', 'M', 'P', 'R', 'I', 'M', 'A', 'R', 'Y', 'D', 'E', 'F', 'E', 'R', 'R', 'E', 'D', 'I', 'S',
    'T', 'I', 'N', 'C', 'T', 'D', 'R', 'O', 'P', 'F', 'A', 'I', 'L', 'F', 'R', 'O', 'M', 'F', 'U', 'L', 'L',
    'G', 'L', 'O', 'B', 'Y', 'I', 'F', 'I', 'S', 'N', 'U', 'L', 'L', 'O', 'R', 'D', 'E', 'R', 'E', 'S', 'T',
    'R', 'I', 'C', 'T', 'R', 'I', 'G', 'H', 'T', 'R', 'O', 'L', 'L', 'B', 'A', 'C', 'K', 'R', 'O', 'W', 'U',
    'N', 'I', 'O', 'N', 'U', 'S', 'I', 'N', 'G', 'V', 'A', 'C', 'U', 'U', 'M', 'V', 'I', 'E', 'W', 'I', 'N',
    'I', 'T', 'I', 'A', 'L', 'L', 'Y'].map Char.toNat)

def aHash : List Nat :=
  [76, 105, 117, 74, 0, 45, 0, 0, 82, 0, 77, 0, 0, 42, 12, 78, 15, 0, 116, 85, 54, 112, 0, 19, 0, 0, 121, 0,
   119, 115, 0, 22, 93, 0, 9, 0, 0, 70, 71, 0, 69, 6, 0, 48, 90, 102, 0, 118, 101, 0, 0, 44, 0, 103, 24, 0, 17,
   0, 122, 53, 23, 0, 5, 110, 25, 96, 0, 0, 124, 106, 60, 123, 57, 28, 55, 0, 91, 0, 100, 26, 0, 99, 0, 0, 0,
   95, 92, 97, 88, 109, 14, 39, 108, 0, 81, 0, 18, 89, 111, 32, 0, 120, 80, 113, 62, 46, 84, 0, 0, 94, 40, 59,
   114, 0, 36, 0, 0, 29, 0, 86, 63, 64, 0, 20, 61, 0, 56]

def aNext : List Nat :=
  [0, 0, 0, 0, 4, 0, 0, 0, 0, 0, 0, 0, 0, 0, 2, 0, 0, 0, 0, 0, 0, 13, 0, 0, 0, 0, 0, 7, 0, 0, 0, 0, 0, 0, 0, 0,
   0, 0, 0, 0, 0, 0, 0, 33, 0, 21, 0, 0, 0, 0, 0, 50, 0, 43, 3, 47, 0, 0, 0, 0, 30, 0, 58, 0, 38, 0, 0, 0, 1,
   66, 0, 0, 67, 0, 41, 0, 0, 0, 0, 0, 0, 49, 65, 0, 0, 0, 0, 31, 52, 16, 34, 10, 0, 0, 0, 0, 0, 0, 0, 11, 72,
   79, 0, 8, 0, 104, 98, 0, 107, 0, 87, 0, 75, 51, 0, 27, 37, 73, 83, 0, 35, 68, 0, 0]

def aLen : List Nat :=
  [7, 7, 5, 4, 6, 4, 5, 3, 6, 7, 3, 6, 6, 7, 7, 3, 8, 2, 6, 5, 4, 4, 3, 10, 4, 6, 11, 6, 2, 7, 5, 5, 9, 6, 9, 9,
   7, 10, 10, 4, 6, 2, 3, 9, 4, 2, 6, 5, 7, 4, 5, 7, 6, 6, 5, 6, 5, 5, 9, 7, 7, 3, 2, 4, 4, 7, 3, 6, 4, 7, 6,
   12, 6, 9, 4, 6, 5, 4, 7, 6, 5, 6, 7, 5, 4, 5, 6, 5, 7, 3, 7, 13, 2, 2, 4, 6, 6, 8, 5, 17, 12, 7, 8, 8, 2, 4,
   4, 4, 4, 4, 2, 2, 6, 5, 8, 5, 8, 3, 5, 5, 6, 4, 9, 3]

def aOffset : List Nat :=
  [0, 2, 2, 8, 9, 14, 16, 20, 23, 25, 25, 29, 33, 36, 41, 46, 48, 53, 54, 59, 62, 65, 67, 69, 78, 81, 86, 91,
   95, 96, 101, 105, 109, 117, 122, 128, 136, 142, 152, 159, 162, 162, 165, 167, 167, 171, 176, 179, 184, 184,
   188, 192, 199, 204, 209, 212, 218, 221, 225, 234, 240, 240, 240, 243, 246, 250, 251, 255, 261, 265, 272, 278,
   290, 296, 305, 307, 313, 318, 320, 327, 332, 337, 343, 349, 354, 358, 361, 367, 371, 378, 380, 387, 389, 391,
   400, 404, 410, 416, 424, 429, 429, 445, 452, 459, 460, 467, 471, 475, 479, 483, 486, 488, 490, 496, 500, 508,
   513, 521, 524, 529, 534, 540, 544, 549]

def aCode : List Tk :=
  [.REINDEX, .INDEXED, .INDEX, .DESC, .ESCAPE, .EACH, .CHECK, .KEY, .BEFORE, .FOREIGN, .FOR, .IGNORE, .LIKE_KW,
   .EXPLAIN, .INSTEAD, .ADD, .DATABASE, .AS, .SELECT, .TABLE, .JOIN_KW, .THEN, .END, .DEFERRABLE, .ELSE,
   .EXCEPT, .TRANSACTION, .ACTION, .ON, .JOIN_KW, .ALTER, .RAISE, .EXCLUSIVE, .EXISTS, .SAVEPOINT, .INTERSECT,
   .TRIGGER, .REFERENCES, .CONSTRAINT, .INTO, .OFFSET, .OF, .SET, .TEMP, .TEMP, .OR, .UNIQUE, .QUERY, .WITHOUT,
   .WITH, .JOIN_KW, .RELEASE, .ATTACH, .HAVING, .GROUP, .UPDATE, .BEGIN, .JOIN_KW, .RECURSIVE, .BETWEEN,
   .NOTNULL, .NOT, .NO, .NULL, .LIKE_KW, .CASCADE, .ASC, .DELETE, .CASE, .COLLATE, .CREATE, .CTIME_KW, .DETACH,
   .IMMEDIATE, .JOIN, .INSERT, .MATCH, .PLAN, .ANALYZE, .PRAGMA, .ABORT, .VALUES, .VIRTUAL, .LIMIT, .WHEN,
   .WHERE, .RENAME, .AFTER, .REPLACE, .AND, .DEFAULT, .AUTOINCR, .TO, .IN, .CAST, .COLUMNKW, .COMMIT, .CONFLICT,
   .JOIN_KW, .CTIME_KW, .CTIME_KW, .PRIMARY, .DEFERRED, .DISTINCT, .IS, .DROP, .FAIL, .FROM, .JOIN_KW, .LIKE_KW,
   .BY, .IF, .ISNULL, .ORDER, .RESTRICT, .JOIN_KW, .ROLLBACK, .ROW, .UNION, .USING, .VACUUM, .VIEW, .INITIALLY,
   .ALL]

def charMap (c : Nat) : Nat := (sqlite3UpperToLower.getD c 0).toNat

/-- `z[j]&~0x20`, of a byte. -/
def upper (c : Nat) : Nat := c &&& 0xdf

/-- The loop over `j`: whether it gets to the end of the word. -/
def isWord : List Nat → List Nat → Option Bool
  | [], _ => some true
  | _ :: _, [] => none
  | c :: z, k :: zKW => if upper c = k then isWord z zKW else some false

/-- The loop over `i`, which is one less than the number passed. -/
def keywordLoop (z : List Nat) : Nat → Nat → Option Tk
  | 0, _ => none
  | _ + 1, 0 => some .ID
  | fuel + 1, i + 1 => do
    let len ← aLen[i]?
    let next ← aNext[i]?
    let offset ← aOffset[i]?
    if len ≠ z.length then keywordLoop z fuel next
    else
      let same ← isWord z (zText.drop offset)
      if same then aCode[i]? else keywordLoop z fuel next

def keywordHash (z : List Nat) : Nat :=
  ((charMap (z.headD 0) * 4) ^^^ (charMap (z.getLastD 0) * 3) ^^^ z.length) % 127

/-- `keywordCode`, of all bytes of `z`. The chains have no more than 124 candidates. -/
def keywordCode (z : List Nat) : Option Tk :=
  if 2 ≤ z.length then aHash[keywordHash z]?.bind (keywordLoop z 125) else some .ID

def sqlite3KeywordCode (z : List UInt8) : Option Tk := keywordCode (z.map (·.toNat))

/-! ### The words -/

/-- The keywords of the table, in its order. -/
def keywords : List (String × Tk) :=
  [("REINDEX", .REINDEX), ("INDEXED", .INDEXED), ("INDEX", .INDEX), ("DESC", .DESC), ("ESCAPE", .ESCAPE),
   ("EACH", .EACH), ("CHECK", .CHECK), ("KEY", .KEY), ("BEFORE", .BEFORE), ("FOREIGN", .FOREIGN), ("FOR", .FOR),
   ("IGNORE", .IGNORE), ("REGEXP", .LIKE_KW), ("EXPLAIN", .EXPLAIN), ("INSTEAD", .INSTEAD), ("ADD", .ADD),
   ("DATABASE", .DATABASE), ("AS", .AS), ("SELECT", .SELECT), ("TABLE", .TABLE), ("LEFT", .JOIN_KW),
   ("THEN", .THEN), ("END", .END), ("DEFERRABLE", .DEFERRABLE), ("ELSE", .ELSE), ("EXCEPT", .EXCEPT),
   ("TRANSACTION", .TRANSACTION), ("ACTION", .ACTION), ("ON", .ON), ("NATURAL", .JOIN_KW), ("ALTER", .ALTER),
   ("RAISE", .RAISE), ("EXCLUSIVE", .EXCLUSIVE), ("EXISTS", .EXISTS), ("SAVEPOINT", .SAVEPOINT),
   ("INTERSECT", .INTERSECT), ("TRIGGER", .TRIGGER), ("REFERENCES", .REFERENCES), ("CONSTRAINT", .CONSTRAINT),
   ("INTO", .INTO), ("OFFSET", .OFFSET), ("OF", .OF), ("SET", .SET), ("TEMPORARY", .TEMP), ("TEMP", .TEMP),
   ("OR", .OR), ("UNIQUE", .UNIQUE), ("QUERY", .QUERY), ("WITHOUT", .WITHOUT), ("WITH", .WITH),
   ("OUTER", .JOIN_KW), ("RELEASE", .RELEASE), ("ATTACH", .ATTACH), ("HAVING", .HAVING), ("GROUP", .GROUP),
   ("UPDATE", .UPDATE), ("BEGIN", .BEGIN), ("INNER", .JOIN_KW), ("RECURSIVE", .RECURSIVE),
   ("BETWEEN", .BETWEEN), ("NOTNULL", .NOTNULL), ("NOT", .NOT), ("NO", .NO), ("NULL", .NULL),
   ("LIKE", .LIKE_KW), ("CASCADE", .CASCADE), ("ASC", .ASC), ("DELETE", .DELETE), ("CASE", .CASE),
   ("COLLATE", .COLLATE), ("CREATE", .CREATE), ("CURRENT_DATE", .CTIME_KW), ("DETACH", .DETACH),
   ("IMMEDIATE", .IMMEDIATE), ("JOIN", .JOIN), ("INSERT", .INSERT), ("MATCH", .MATCH), ("PLAN", .PLAN),
   ("ANALYZE", .ANALYZE), ("PRAGMA", .PRAGMA), ("ABORT", .ABORT), ("VALUES", .VALUES), ("VIRTUAL", .VIRTUAL),
   ("LIMIT", .LIMIT), ("WHEN", .WHEN), ("WHERE", .WHERE), ("RENAME", .RENAME), ("AFTER", .AFTER),
   ("REPLACE", .REPLACE), ("AND", .AND), ("DEFAULT", .DEFAULT), ("AUTOINCREMENT", .AUTOINCR), ("TO", .TO),
   ("IN", .IN), ("CAST", .CAST), ("COLUMN", .COLUMNKW), ("COMMIT", .COMMIT), ("CONFLICT", .CONFLICT),
   ("CROSS", .JOIN_KW), ("CURRENT_TIMESTAMP", .CTIME_KW), ("CURRENT_TIME", .CTIME_KW), ("PRIMARY", .PRIMARY),
   ("DEFERRED", .DEFERRED), ("DISTINCT", .DISTINCT), ("IS", .IS), ("DROP", .DROP), ("FAIL", .FAIL),
   ("FROM", .FROM), ("FULL", .JOIN_KW), ("GLOB", .LIKE_KW), ("BY", .BY), ("IF", .IF), ("ISNULL", .ISNULL),
   ("ORDER", .ORDER), ("RESTRICT", .RESTRICT), ("RIGHT", .JOIN_KW), ("ROLLBACK", .ROLLBACK), ("ROW", .ROW),
   ("UNION", .UNION), ("USING", .USING), ("VACUUM", .VACUUM), ("VIEW", .VIEW), ("INITIALLY", .INITIALLY),
   ("ALL", .ALL)]

def letters (w : String) : List Nat := w.toList.map Char.toNat

/-- The word in upper or lower case: an `_` has one only. -/
def SameWord (w : String) (z : List UInt8) : Prop :=
  List.Forall₂ (fun k b => b.toNat = k ∨ (k ≠ 0x5f ∧ b.toNat = k + 0x20)) (letters w) z

/-- The candidates from a place on. -/
def chain : Nat → Nat → Option (List Nat)
  | 0, _ => none
  | _ + 1, 0 => some []
  | fuel + 1, i + 1 => (aNext[i]?.bind (chain fuel)).map (i :: ·)

/-- The table's entry is the word. -/
def stored (i : Nat) (k : String × Tk) : Bool :=
  aLen[i]? == some (letters k.1).length && aCode[i]? == some k.2 &&
    aOffset[i]?.any fun offset => (zText.drop offset).take (letters k.1).length == letters k.1

/-- The word is a candidate of its own hash. -/
def chained (i : Nat) (k : String × Tk) : Bool :=
  (aHash[keywordHash (letters k.1)]?.bind (chain 125)).any fun is => is.contains i

/-- A letter, in upper case. -/
def isLetter (c : Nat) : Bool := decide (0x41 ≤ c ∧ c ≤ 0x5a)

/-- Words of letters and `_`, with letters at their ends. -/
def isKeyword (w : List Nat) : Bool :=
  decide (2 ≤ w.length) && isLetter (w.headD 0) && isLetter (w.getLastD 0) && w.all fun c => c == 0x5f || isLetter c

theorem chains_end : ((List.range 127).all fun h => (aHash[h]?.bind (chain 125)).isSome) = true := by
  decide +kernel

theorem words_stored : ((List.range 124).all fun i => keywords[i]?.any (stored i)) = true := by
  decide +kernel

theorem words_chained : ((List.range 124).all fun i => keywords[i]?.any (chained i)) = true := by
  decide +kernel

/-- The letters as one number: the words are compared by it. -/
def base256 (w : List Nat) : Nat := w.foldl (fun n c => 256 * n + c) 0

theorem words_distinct : (keywords.map fun k => base256 (letters k.1)).Nodup := by
  decide +kernel

theorem words_upper : (keywords.all fun k => isKeyword (letters k.1)) = true := by
  decide +kernel

theorem word_entry {i : Nat} (h : i < 124) :
    ∃ k, keywords[i]? = some k ∧ stored i k = true ∧ chained i k = true := by
  have hstored := List.all_eq_true.1 words_stored i (List.mem_range.2 h)
  have hchained := List.all_eq_true.1 words_chained i (List.mem_range.2 h)
  obtain ⟨k, hk, hs⟩ := (Option.any_eq_true _ _).1 hstored
  rw [hk] at hchained
  exact ⟨k, hk, hs, hchained⟩

/-- No two words are the same. -/
theorem word_unique {i j : Nat} {k k' : String × Tk} (hi : keywords[i]? = some k) (hj : keywords[j]? = some k')
    (h : letters k.1 = letters k'.1) : i = j := by
  have hlt : i < (keywords.map fun k => base256 (letters k.1)).length := by
    rw [List.length_map]
    exact (List.getElem?_eq_some_iff.1 hi).1
  refine (List.getElem?_inj hlt words_distinct).1 ?_
  rw [List.getElem?_map, List.getElem?_map, hi, hj, Option.map_some, Option.map_some, h]

theorem isWord_take {z zKW : List Nat} (h : z.length ≤ zKW.length) :
    isWord z zKW = some (decide (z.map upper = zKW.take z.length)) := by
  induction z generalizing zKW with
  | nil => exact (congrArg some (decide_eq_true rfl)).symm
  | cons c z ih =>
    cases zKW with
    | nil => exact absurd h (Nat.not_succ_le_zero _)
    | cons k zKW =>
      rw [isWord, List.map_cons, List.length_cons, List.take_succ_cons]
      by_cases hc : upper c = k
      · rw [if_pos hc, ih (Nat.le_of_succ_le_succ h), hc]
        exact congrArg some (decide_eq_decide.2 (List.cons_inj_right _).symm)
      · rw [if_neg hc]
        exact congrArg some (decide_eq_false fun h => hc (List.cons.inj h).1).symm

/-- One pass of the loop. -/
theorem keywordLoop_step (z : List Nat) {fuel i next : Nat} {k : String × Tk} (hs : stored i k = true)
    (hnext : aNext[i]? = some next) :
    keywordLoop z (fuel + 1) (i + 1) = if z.map upper = letters k.1 then some k.2 else keywordLoop z fuel next := by
  rw [stored, Bool.and_eq_true, Bool.and_eq_true, beq_iff_eq, beq_iff_eq] at hs
  obtain ⟨⟨hlen, hcode⟩, hs⟩ := hs
  obtain ⟨offset, hoffset, hword⟩ := (Option.any_eq_true _ _).1 hs
  have hword : (zText.drop offset).take (letters k.1).length = letters k.1 := beq_iff_eq.1 hword
  rw [keywordLoop, hlen, hnext, hoffset]
  show (if (letters k.1).length ≠ z.length then keywordLoop z fuel next
    else (isWord z (zText.drop offset)).bind fun same => if same then aCode[i]? else keywordLoop z fuel next) = _
  by_cases hl : (letters k.1).length = z.length
  · have hle : z.length ≤ (zText.drop offset).length := by
      have hlength := congrArg List.length hword
      rw [List.length_take] at hlength
      omega
    rw [if_neg (not_not.2 hl), isWord_take hle, ← hl, hword, Option.bind_some, hcode]
    by_cases h : z.map upper = letters k.1
    · rw [decide_eq_true h, if_pos h, if_pos rfl]
    · rw [decide_eq_false h, if_neg h, if_neg Bool.false_ne_true]
  · have h : z.map upper ≠ letters k.1 := fun h => hl (by rw [← h, List.length_map])
    rw [if_pos hl, if_neg h]

/-- What the chain's entries are. -/
theorem chain_cons {fuel i : Nat} {is : List Nat} (h : chain (fuel + 1) (i + 1) = some is) :
    ∃ next is', aNext[i]? = some next ∧ chain fuel next = some is' ∧ is = i :: is' ∧ i < 124 := by
  rw [chain] at h
  obtain ⟨is', hbind, rfl⟩ := Option.map_eq_some_iff.1 h
  obtain ⟨next, hnext, hchain⟩ := Option.bind_eq_some_iff.1 hbind
  exact ⟨next, is', hnext, hchain, rfl, (List.getElem?_eq_some_iff.1 hnext).1⟩

theorem keywordLoop_hit {z : List Nat} {fuel i j : Nat} {is : List Nat} (h : chain fuel i = some is) (hj : j ∈ is)
    {k : String × Tk} (hk : keywords[j]? = some k) (hz : z.map upper = letters k.1) :
    keywordLoop z fuel i = some k.2 := by
  induction fuel generalizing i is with
  | zero => cases h
  | succ fuel ih =>
    cases i with
    | zero =>
      cases h
      cases hj
    | succ i =>
      obtain ⟨next, is', hnext, hchain, rfl, hi⟩ := chain_cons h
      obtain ⟨k', hk', hs, -⟩ := word_entry hi
      rw [keywordLoop_step z hs hnext]
      by_cases hword : z.map upper = letters k'.1
      · have hij := word_unique hk' hk (hword.symm.trans hz)
        subst hij
        rw [hk'] at hk
        cases hk
        exact if_pos hword
      · rw [if_neg hword]
        obtain rfl | hj := List.mem_cons.1 hj
        · rw [hk'] at hk
          cases hk
          exact absurd hz hword
        · exact ih hchain hj

theorem keywordLoop_miss {z : List Nat} {fuel i : Nat} {is : List Nat} (h : chain fuel i = some is)
    (hz : ∀ k ∈ keywords, z.map upper ≠ letters k.1) : keywordLoop z fuel i = some .ID := by
  induction fuel generalizing i is with
  | zero => cases h
  | succ fuel ih =>
    cases i with
    | zero => rfl
    | succ i =>
      obtain ⟨next, is', hnext, hchain, -, hi⟩ := chain_cons h
      obtain ⟨k, hk, hs, -⟩ := word_entry hi
      rw [keywordLoop_step z hs hnext, if_neg (hz k (List.mem_of_getElem? hk))]
      exact ih hchain

/-- The letters at a word's ends, in either case, are hashed alike. -/
theorem charMap_upper : ∀ c < 0x100, isLetter (upper c) = true → charMap (upper c) = charMap c := by
  decide +kernel

theorem upper_cases : ∀ c < 0x100, c ≠ 0x7f → (upper c == 0x5f || isLetter (upper c)) = true →
    c = upper c ∨ (upper c ≠ 0x5f ∧ c = upper c + 0x20) := by
  decide +kernel

theorem upper_word : ∀ k < 0x60, (k == 0x5f || isLetter k) = true →
    upper k = k ∧ (k ≠ 0x5f → upper (k + 0x20) = k) := by
  decide +kernel

theorem keywordHash_upper {z : List Nat} (hz : ∀ c ∈ z, c < 0x100) (hlen : 2 ≤ z.length)
    (hhead : isLetter ((z.map upper).headD 0) = true) (hlast : isLetter ((z.map upper).getLastD 0) = true) :
    keywordHash (z.map upper) = keywordHash z := by
  have hne : z ≠ [] := fun h => by rw [h] at hlen; exact absurd hlen (by decide)
  have hfirst : charMap ((z.map upper).headD 0) = charMap (z.headD 0) := by
    cases z with
    | nil => exact absurd rfl hne
    | cons c z => exact charMap_upper c (hz c List.mem_cons_self) hhead
  have hend : charMap ((z.map upper).getLastD 0) = charMap (z.getLastD 0) := by
    obtain ⟨q, c, rfl⟩ := (List.eq_nil_or_concat' z).resolve_left hne
    rw [List.map_append, List.map_singleton, List.getLastD_concat] at hlast ⊢
    rw [List.getLastD_concat]
    exact charMap_upper c (hz c (List.mem_append_right _ List.mem_cons_self)) hlast
  rw [keywordHash, keywordHash, hfirst, hend, List.length_map]

/-- Without DEL, which loses its bit to be a `_`, the same word is the same letters. -/
theorem sameWord_iff {w : List Nat} (hw : ∀ k ∈ w, (k == 0x5f || isLetter k) = true) {z : List UInt8}
    (hz : 0x7f ∉ z) :
    List.Forall₂ (fun k (b : UInt8) => b.toNat = k ∨ (k ≠ 0x5f ∧ b.toNat = k + 0x20)) w z ↔
      (z.map (·.toNat)).map upper = w := by
  induction w generalizing z with
  | nil =>
    cases z with
    | nil => exact iff_of_true .nil rfl
    | cons b z => exact iff_of_false (fun h => by cases h) (List.cons_ne_nil _ _)
  | cons k w ih =>
    cases z with
    | nil => exact iff_of_false (fun h => by cases h) (fun h => List.cons_ne_nil _ _ h.symm)
    | cons b z =>
      have hk := hw k List.mem_cons_self
      have ih := @ih (fun k' h => hw k' (List.mem_cons_of_mem _ h)) z fun h => hz (List.mem_cons_of_mem _ h)
      rw [List.forall₂_cons, ih, List.map_cons, List.map_cons, List.cons.injEq]
      refine and_congr_left fun _ => ?_
      have hk60 : k < 0x60 := by
        simp only [isLetter, Bool.or_eq_true, beq_iff_eq, decide_eq_true_iff] at hk
        omega
      obtain ⟨hup, hlow⟩ := upper_word k hk60 hk
      constructor
      · intro h
        obtain h | ⟨hne, h⟩ := h
        · rw [h, hup]
        · rw [h, hlow hne]
      · intro h
        have hdel : b.toNat ≠ 0x7f := by
          intro h7
          rw [show b = 0x7f from UInt8.toNat_inj.1 h7] at hz
          exact hz List.mem_cons_self
        rw [← h] at hk ⊢
        exact upper_cases b.toNat b.toNat_lt hdel hk

/-- Every word is found, and nothing else. -/
theorem keywordCode_upper {z : List Nat} (hz : ∀ c ∈ z, c < 0x100) :
    (∀ k ∈ keywords, z.map upper = letters k.1 → keywordCode z = some k.2) ∧
      ((∀ k ∈ keywords, z.map upper ≠ letters k.1) → keywordCode z = some .ID) := by
  refine ⟨fun k hk h => ?_, fun h => ?_⟩
  · have hword : isKeyword (letters k.1) = true := List.all_eq_true.1 words_upper k hk
    rw [isKeyword, ← h, Bool.and_eq_true, Bool.and_eq_true, Bool.and_eq_true, decide_eq_true_iff] at hword
    obtain ⟨⟨⟨hlen, hhead⟩, hlast⟩, -⟩ := hword
    rw [List.length_map] at hlen
    obtain ⟨i, hi⟩ := List.mem_iff_getElem?.1 hk
    obtain ⟨k', hk', -, hchained⟩ := word_entry (List.getElem?_eq_some_iff.1 hi).1
    rw [hi] at hk'
    cases hk'
    rw [chained, ← h, keywordHash_upper hz hlen hhead hlast] at hchained
    obtain ⟨is, hbind, his⟩ := (Option.any_eq_true _ _).1 hchained
    obtain ⟨start, hstart, hchain⟩ := Option.bind_eq_some_iff.1 hbind
    rw [keywordCode, if_pos hlen, hstart, Option.bind_some]
    exact keywordLoop_hit hchain (List.contains_iff_mem.1 his) hi h
  · rw [keywordCode]
    by_cases hlen : 2 ≤ z.length
    · have hend := List.all_eq_true.1 chains_end (keywordHash z) (List.mem_range.2 (Nat.mod_lt _ (by decide)))
      obtain ⟨is, hbind⟩ := Option.isSome_iff_exists.1 hend
      obtain ⟨start, hstart, hchain⟩ := Option.bind_eq_some_iff.1 hbind
      rw [if_pos hlen, hstart, Option.bind_some]
      exact keywordLoop_miss hchain h
    · exact if_neg hlen

theorem toNat_bytes (z : List UInt8) : ∀ c ∈ z.map (·.toNat), c < 0x100 := by
  intro c hc
  obtain ⟨b, -, rfl⟩ := List.mem_map.1 hc
  exact b.toNat_lt

theorem keywordCode_total (z : List UInt8) : ∃ tk, sqlite3KeywordCode z = some tk := by
  obtain ⟨hhit, hmiss⟩ := keywordCode_upper (toNat_bytes z)
  by_cases h : ∃ k ∈ keywords, (z.map (·.toNat)).map upper = letters k.1
  · obtain ⟨k, hk, h⟩ := h
    exact ⟨k.2, hhit k hk h⟩
  · exact ⟨.ID, hmiss fun k hk hword => h ⟨k, hk, hword⟩⟩

/-- **The hash of keywords is the list of keywords**: a text is looked up right in upper or lower case, or both,
whatever it is; DEL is not a character of identifiers. -/
theorem keywordCode_word {z : List UInt8} (hz : 0x7f ∉ z) :
    (∀ k ∈ keywords, SameWord k.1 z → sqlite3KeywordCode z = some k.2) ∧
      ((∀ k ∈ keywords, ¬SameWord k.1 z) → sqlite3KeywordCode z = some .ID) := by
  have hsame : ∀ k ∈ keywords, SameWord k.1 z ↔ (z.map (·.toNat)).map upper = letters k.1 := by
    intro k hk
    have hword : isKeyword (letters k.1) = true := List.all_eq_true.1 words_upper k hk
    rw [isKeyword, Bool.and_eq_true] at hword
    exact sameWord_iff (List.all_eq_true.1 hword.2) hz
  obtain ⟨hhit, hmiss⟩ := keywordCode_upper (toNat_bytes z)
  refine ⟨fun k hk h => hhit k hk ((hsame k hk).1 h), fun h => hmiss fun k hk hword => ?_⟩
  exact h k hk ((hsame k hk).2 hword)

/-- `Select`. -/
theorem select_word : sqlite3KeywordCode [0x53, 0x65, 0x6c, 0x65, 0x63, 0x74] = some .SELECT := by
  refine (@keywordCode_word [0x53, 0x65, 0x6c, 0x65, 0x63, 0x74] (by decide)).1 ("SELECT", .SELECT)
    (by decide +kernel) ?_
  unfold SameWord
  decide +kernel

/-- DEL for the `_` of `CURRENT_DATE`. -/
example : sqlite3KeywordCode ([67, 85, 82, 82, 69, 78, 84, 0x7f, 68, 65, 84, 69]) = some .CTIME_KW := by
  decide +kernel

end FuzzerTestSuite.Sqlite
