import FuzzerTestSuite.Library.Partial
import FuzzerTestSuite.Sqlite.KeywordHash

/-! Tokens of SQL.

The tokenizer reads a token from a text that ends with a zero byte. Whatever the text is, the token is not empty
and ends in the text, and nothing behind the zero is read (`getToken_returns`). -/
namespace FuzzerTestSuite.Sqlite
open Library.Partial

/-- `CC_...`: the classes of characters. -/
inductive Cc where
  | X | KYWD | ID | DIGIT | DOLLAR | VARALPHA | VARNUM | SPACE | QUOTE | QUOTE2 | PIPE | MINUS | LT | GT | EQ
  | BANG | SLASH | LP | RP | SEMI | PLUS | STAR | PERCENT | COMMA | AND | TILDA | DOT | ILLEGAL
  deriving DecidableEq

def aiClass : List Cc :=
  [.ILLEGAL, .ILLEGAL, .ILLEGAL, .ILLEGAL, .ILLEGAL, .ILLEGAL, .ILLEGAL, .ILLEGAL, .ILLEGAL, .SPACE, .SPACE,
   .ILLEGAL, .SPACE, .SPACE, .ILLEGAL, .ILLEGAL, .ILLEGAL, .ILLEGAL, .ILLEGAL, .ILLEGAL, .ILLEGAL, .ILLEGAL,
   .ILLEGAL, .ILLEGAL, .ILLEGAL, .ILLEGAL, .ILLEGAL, .ILLEGAL, .ILLEGAL, .ILLEGAL, .ILLEGAL, .ILLEGAL, .SPACE,
   .BANG, .QUOTE, .VARALPHA, .DOLLAR, .PERCENT, .AND, .QUOTE, .LP, .RP, .STAR, .PLUS, .COMMA, .MINUS, .DOT,
   .SLASH, .DIGIT, .DIGIT, .DIGIT, .DIGIT, .DIGIT, .DIGIT, .DIGIT, .DIGIT, .DIGIT, .DIGIT, .VARALPHA, .SEMI,
   .LT, .EQ, .GT, .VARNUM, .VARALPHA, .KYWD, .KYWD, .KYWD, .KYWD, .KYWD, .KYWD, .KYWD, .KYWD, .KYWD, .KYWD,
   .KYWD, .KYWD, .KYWD, .KYWD, .KYWD, .KYWD, .KYWD, .KYWD, .KYWD, .KYWD, .KYWD, .KYWD, .KYWD, .X, .KYWD, .KYWD,
   .QUOTE2, .ILLEGAL, .ILLEGAL, .ILLEGAL, .KYWD, .QUOTE, .KYWD, .KYWD, .KYWD, .KYWD, .KYWD, .KYWD, .KYWD, .KYWD,
   .KYWD, .KYWD, .KYWD, .KYWD, .KYWD, .KYWD, .KYWD, .KYWD, .KYWD, .KYWD, .KYWD, .KYWD, .KYWD, .KYWD, .KYWD, .X,
   .KYWD, .KYWD, .ILLEGAL, .PIPE, .ILLEGAL, .TILDA, .ILLEGAL, .ID, .ID, .ID, .ID, .ID, .ID, .ID, .ID, .ID, .ID,
   .ID, .ID, .ID, .ID, .ID, .ID, .ID, .ID, .ID, .ID, .ID, .ID, .ID, .ID, .ID, .ID, .ID, .ID, .ID, .ID, .ID, .ID,
   .ID, .ID, .ID, .ID, .ID, .ID, .ID, .ID, .ID, .ID, .ID, .ID, .ID, .ID, .ID, .ID, .ID, .ID, .ID, .ID, .ID, .ID,
   .ID, .ID, .ID, .ID, .ID, .ID, .ID, .ID, .ID, .ID, .ID, .ID, .ID, .ID, .ID, .ID, .ID, .ID, .ID, .ID, .ID, .ID,
   .ID, .ID, .ID, .ID, .ID, .ID, .ID, .ID, .ID, .ID, .ID, .ID, .ID, .ID, .ID, .ID, .ID, .ID, .ID, .ID, .ID, .ID,
   .ID, .ID, .ID, .ID, .ID, .ID, .ID, .ID, .ID, .ID, .ID, .ID, .ID, .ID, .ID, .ID, .ID, .ID, .ID, .ID, .ID, .ID,
   .ID, .ID, .ID, .ID, .ID, .ID, .ID, .ID]

def ccOf (c : UInt8) : Cc := aiClass.getD c.toNat .ILLEGAL

def ctype (mask c : UInt8) : Bool := sqlite3CtypeMap.getD c.toNat 0 &&& mask != 0

def isSpace (c : UInt8) : Bool := ctype 0x01 c

def isDigit (c : UInt8) : Bool := ctype 0x04 c

def isXDigit (c : UInt8) : Bool := ctype 0x08 c

/-- `IdChar`. -/
def idChar (c : UInt8) : Bool := ctype 0x46 c

/-! ### Scanning -/

/-- `while( p(z[i]) ) i++`, from 0. -/
def skip (p : UInt8 → Bool) : List UInt8 → Option Nat
  | [] => none
  | c :: z => if p c then (skip p z).map (· + 1) else some 0

/-- `while( p(z[i]) ) i++`. -/
def skipFrom (p : UInt8 → Bool) (z : List UInt8) (i : Nat) : Option Nat := (skip p (z.drop i)).map (i + ·)

/-- The rest of a comment, where `c` is the byte before. -/
def commentEnd : UInt8 → List UInt8 → Option Nat
  | _, [] => none
  | c, d :: z =>
    if c = 0x2a ∧ d = 0x2f then some 1
    else if d = 0 then some 0
    else (commentEnd d z).map (· + 1)

/-- The loop of quoted texts, in which a quote is written twice: its last byte is the quote or a zero. -/
def quoteEnd (delim : UInt8) : List UInt8 → Option (Nat × UInt8)
  | [] => none
  | [c] => if c = 0 then some (0, 0) else none
  | c :: d :: z =>
    if c = 0 then some (0, 0)
    else if c = delim then
      if d = delim then (quoteEnd delim z).map fun r => (r.1 + 2, r.2) else some (0, c)
    else (quoteEnd delim (d :: z)).map fun r => (r.1 + 1, r.2)

/-- The loop of variables, with its `n`: whether what is in parentheses has an end. -/
def variableEnd : Nat → List UInt8 → Option (Nat × Nat × Bool)
  | _, [] => none
  | n, [c] =>
    if idChar c ∨ (c = 0x28 ∧ 0 < n) ∨ c = 0x3a then none else some (0, n, true)
  | n, c :: d :: z =>
    if c = 0 then some (0, n, true)
    else if idChar c then (variableEnd (n + 1) (d :: z)).map fun r => (r.1 + 1, r.2)
    else if c = 0x28 ∧ 0 < n then do
      let i ← skip (fun c => c != 0 && !isSpace c && c != 0x29) (d :: z)
      let c ← (d :: z)[i]?
      if c = 0x29 then some (i + 2, n, true) else some (i + 1, n, false)
    else if c = 0x3a ∧ d = 0x3a then (variableEnd n z).map fun r => (r.1 + 2, r.2)
    else some (0, n, true)

/-! ### Tokens -/

/-- A token of one byte, or of two with one of the bytes behind it. -/
def oneOrTwo (z : List UInt8) (one : Tk) (two : List (UInt8 × Tk)) : Option (Nat × Tk) := do
  let c ← z[1]?
  match two.lookup c with
  | some tk => some (2, tk)
  | none => some (1, one)

/-- The end of the function. -/
def identifier (z : List UInt8) (i : Nat) : Option (Nat × Tk) := do
  let i ← skipFrom idChar z i
  some (i, .ID)

def slash (z : List UInt8) : Option (Nat × Tk) := do
  let c ← z[1]?
  if c ≠ 0x2a then some (1, .SLASH)
  else
    let c ← z[2]?
    if c = 0 then some (1, .SLASH)
    else
      let i ← commentEnd c (z.drop 3)
      some (i + 3, .SPACE)

def quoted (z : List UInt8) (delim : UInt8) : Option (Nat × Tk) := do
  let r ← quoteEnd delim (z.drop 1)
  if r.2 = 0x27 then some (r.1 + 2, .STRING)
  else if r.2 ≠ 0 then some (r.1 + 2, .ID)
  else some (r.1 + 1, .ILLEGAL)

/-- Whether there is a hexadecimal number. -/
def isHex (z : List UInt8) : Option Bool := do
  let c ← z[0]?
  if c ≠ 0x30 then some false
  else
    let c ← z[1]?
    if c ≠ 0x78 ∧ c ≠ 0x58 then some false
    else
      let c ← z[2]?
      some (isXDigit c)

def fraction (z : List UInt8) (i : Nat) : Option (Nat × Tk) := do
  let c ← z[i]?
  if c = 0x2e then
    let i ← skipFrom isDigit z (i + 1)
    some (i, .FLOAT)
  else some (i, .INTEGER)

/-- Whether an exponent has digits. -/
def isExponent (z : List UInt8) (i : Nat) : Option Bool := do
  let c ← z[i]?
  if c ≠ 0x65 ∧ c ≠ 0x45 then some false
  else
    let c ← z[i + 1]?
    if isDigit c then some true
    else if c ≠ 0x2b ∧ c ≠ 0x2d then some false
    else
      let c ← z[i + 2]?
      some (isDigit c)

def exponent (z : List UInt8) (t : Nat × Tk) : Option (Nat × Tk) := do
  let digits ← isExponent z t.1
  if digits then
    let i ← skipFrom isDigit z (t.1 + 2)
    some (i, .FLOAT)
  else some t

def number (z : List UInt8) : Option (Nat × Tk) := do
  let hex ← isHex z
  if hex then
    let i ← skipFrom isXDigit z 3
    some (i, .INTEGER)
  else
    let i ← skipFrom isDigit z 0
    let t ← fraction z i
    let t ← exponent z t
    let i ← skipFrom idChar z t.1
    some (i, if i = t.1 then t.2 else .ILLEGAL)

/-- `[...]`. -/
def bracketed (z : List UInt8) : Option (Nat × Tk) := do
  let i ← skipFrom (fun c => c != 0 && c != 0x5d) z 1
  let c ← z[i]?
  if c = 0x5d then some (i + 1, .ID) else some (i, .ILLEGAL)

def sqlVariable (z : List UInt8) : Option (Nat × Tk) := do
  let r ← variableEnd 0 (z.drop 1)
  some (r.1 + 1, if r.2.1 = 0 ∨ r.2.2 = false then .ILLEGAL else .VARIABLE)

def keyword (z : List UInt8) : Option (Nat × Tk) := do
  let i ← skipFrom (fun c => ccOf c == .X || ccOf c == .KYWD) z 1
  let c ← z[i]?
  if idChar c then identifier z (i + 1)
  else
    let tk ← sqlite3KeywordCode (z.take i)
    some (i, tk)

/-- `x'...'`, or an identifier. -/
def blob (z : List UInt8) : Option (Nat × Tk) := do
  let c ← z[1]?
  if c ≠ 0x27 then identifier z 1
  else
    let i ← skipFrom isXDigit z 2
    let c ← z[i]?
    if c ≠ 0x27 ∨ i % 2 = 1 then
      let i ← skipFrom (fun c => c != 0 && c != 0x27) z i
      let c ← z[i]?
      some (if c ≠ 0 then i + 1 else i, .ILLEGAL)
    else some (i + 1, .BLOB)

/-- The length of the token and its type. -/
def sqlite3GetToken (z : List UInt8) : Option (Nat × Tk) := do
  let c ← z[0]?
  match ccOf c with
  | .SPACE => do
    let i ← skipFrom isSpace z 1
    some (i, .SPACE)
  | .MINUS => do
    let c ← z[1]?
    if c = 0x2d then
      let i ← skipFrom (fun c => c != 0 && c != 0x0a) z 2
      some (i, .SPACE)
    else some (1, .MINUS)
  | .LP => some (1, .LP)
  | .RP => some (1, .RP)
  | .SEMI => some (1, .SEMI)
  | .PLUS => some (1, .PLUS)
  | .STAR => some (1, .STAR)
  | .SLASH => slash z
  | .PERCENT => some (1, .REM)
  | .EQ => oneOrTwo z .EQ [(0x3d, .EQ)]
  | .LT => oneOrTwo z .LT [(0x3d, .LE), (0x3e, .NE), (0x3c, .LSHIFT)]
  | .GT => oneOrTwo z .GT [(0x3d, .GE), (0x3e, .RSHIFT)]
  | .BANG => oneOrTwo z .ILLEGAL [(0x3d, .NE)]
  | .PIPE => oneOrTwo z .BITOR [(0x7c, .CONCAT)]
  | .COMMA => some (1, .COMMA)
  | .AND => some (1, .BITAND)
  | .TILDA => some (1, .BITNOT)
  | .QUOTE => quoted z c
  | .DOT => do
    let c ← z[1]?
    if isDigit c then number z else some (1, .DOT)
  | .DIGIT => number z
  | .QUOTE2 => bracketed z
  | .VARNUM => do
    let i ← skipFrom isDigit z 1
    some (i, .VARIABLE)
  | .DOLLAR => sqlVariable z
  | .VARALPHA => sqlVariable z
  | .KYWD => keyword z
  | .X => blob z
  | .ID => identifier z 1
  | .ILLEGAL => some (1, .ILLEGAL)

/-! ### Reading in the text -/

section Text
variable {w : List UInt8} {i : Nat}

theorem drop_text (hi : i ≤ w.length) : (w ++ [(0 : UInt8)]).drop i = w.drop i ++ [0] :=
  List.drop_append_of_le_length hi

theorem text_cons (w : List UInt8) : ∃ d z, w ++ [(0 : UInt8)] = d :: z := by
  cases w with
  | nil => exact ⟨0, [], rfl⟩
  | cons d w => exact ⟨d, w ++ [0], rfl⟩

/-- A byte that is not the zero has one behind it. -/
theorem returns_read (hi : i ≤ w.length) :
    Returns (w ++ [0])[i]? fun c => (w ++ [0])[i]? = some c ∧ (c ≠ 0 → i < w.length) := by
  obtain hlt | rfl := Nat.lt_or_eq_of_le hi
  · have hlt' : i < (w ++ [0]).length := by
      rw [List.length_append]
      omega
    exact ⟨_, List.getElem?_eq_getElem hlt', List.getElem?_eq_getElem hlt', fun _ => hlt⟩
  · have hread : (w ++ [(0 : UInt8)])[w.length]? = some 0 := by
      rw [List.getElem?_append_right (Nat.le_refl _), Nat.sub_self]
      rfl
    exact ⟨0, hread, hread, fun h => absurd rfl h⟩

theorem returns_skip {p : UInt8 → Bool} (hp : p 0 = false) (w : List UInt8) :
    Returns (skip p (w ++ [0])) fun n => n ≤ w.length ∧ ∀ c, (w ++ [0])[0]? = some c → p c = true → 0 < n := by
  induction w with
  | nil =>
    refine ⟨0, if_neg (by rw [hp]; exact Bool.false_ne_true), Nat.le_refl _, fun c hc h => ?_⟩
    cases hc
    rw [hp] at h
    cases h
  | cons c w ih =>
    rw [List.cons_append, skip]
    refine .ite (fun _ => ih.map fun n hn => ?_) fun h => .pure ⟨Nat.zero_le _, fun c' hc' h' => ?_⟩
    · exact ⟨Nat.succ_le_succ hn.1, fun _ _ _ => Nat.succ_pos n⟩
    · cases hc'
      exact absurd h' h

theorem returns_skipFrom {p : UInt8 → Bool} (hp : p 0 = false) (hi : i ≤ w.length) :
    Returns (skipFrom p (w ++ [0]) i) fun j =>
      i ≤ j ∧ j ≤ w.length ∧ ∀ c, (w ++ [0])[i]? = some c → p c = true → i < j := by
  have hget : (w ++ [0])[i]? = (w.drop i ++ [0])[0]? := by
    rw [← drop_text hi, List.getElem?_drop, Nat.add_zero]
  rw [skipFrom, drop_text hi, hget]
  refine (returns_skip hp (w.drop i)).map fun n hn => ?_
  obtain ⟨hn, hpos⟩ := hn
  rw [List.length_drop] at hn
  exact ⟨by omega, by omega, fun c hc h => by have := hpos c hc h; omega⟩

theorem returns_commentEnd (c : UInt8) (w : List UInt8) :
    Returns (commentEnd c (w ++ [0])) fun n => n ≤ w.length := by
  induction w generalizing c with
  | nil =>
    refine .ite (fun h => ?_) fun _ => .pure (Nat.le_refl _)
    exact absurd h.2 (by decide)
  | cons d w ih =>
    rw [List.cons_append, commentEnd]
    refine .ite (fun _ => .pure (Nat.succ_pos _)) fun _ => .ite (fun _ => .pure (Nat.zero_le _)) fun _ => ?_
    exact (ih d).map fun n hn => Nat.succ_le_succ hn

theorem returns_quoteEnd (delim : UInt8) (n : Nat) {w : List UInt8} (hn : w.length ≤ n) :
    Returns (quoteEnd delim (w ++ [0])) fun r => r.1 ≤ w.length ∧ (r.2 ≠ 0 → r.1 < w.length) := by
  induction n generalizing w with
  | zero =>
    rw [List.length_eq_zero_iff.1 (Nat.le_zero.1 hn)]
    exact .pure ⟨Nat.le_refl _, fun h => absurd rfl h⟩
  | succ n ih =>
    cases w with
    | nil => exact .pure ⟨Nat.le_refl _, fun h => absurd rfl h⟩
    | cons c w =>
      have hrest := ih (Nat.le_of_succ_le_succ hn)
      -- the byte behind may be the zero
      obtain ⟨d, z, hz⟩ := text_cons w
      rw [List.cons_append, hz, quoteEnd]
      rw [hz] at hrest
      refine .ite (fun _ => .pure ⟨Nat.zero_le _, fun h => absurd rfl h⟩) fun hc =>
        .ite (fun hdelim => ?_) fun _ => ?_
      · refine .ite (fun hd => ?_) fun _ => .pure ⟨Nat.zero_le _, fun _ => Nat.succ_pos _⟩
        cases w with
        | nil =>
          cases hz
          exact absurd (hdelim.trans hd.symm) hc
        | cons d' w =>
          cases hz
          rw [List.length_cons] at hn
          have hrest := @ih w (by rw [List.length_cons] at hn; omega)
          refine hrest.map fun r hr => ?_
          rw [List.length_cons, List.length_cons]
          exact ⟨by omega, fun h => by have := hr.2 h; omega⟩
      · refine hrest.map fun r hr => ?_
        rw [List.length_cons]
        exact ⟨by omega, fun h => by have := hr.2 h; omega⟩

theorem variableEnd_zero (n : Nat) : variableEnd n [0] = some (0, n, true) := by
  refine if_neg fun h => ?_
  obtain h | h | h := h
  · exact absurd h (by decide)
  · exact absurd h.1 (by decide)
  · exact absurd h (by decide)

theorem returns_variableEnd (n : Nat) {w : List UInt8} (hn : w.length ≤ n) (k : Nat) :
    Returns (variableEnd k (w ++ [0])) fun r => r.1 ≤ w.length := by
  induction n generalizing w k with
  | zero =>
    rw [List.length_eq_zero_iff.1 (Nat.le_zero.1 hn)]
    exact ⟨_, variableEnd_zero k, Nat.le_refl _⟩
  | succ n ih =>
    cases w with
    | nil => exact ⟨_, variableEnd_zero k, Nat.le_refl _⟩
    | cons c w =>
      have hrest := fun k => ih (Nat.le_of_succ_le_succ hn) k
      have hparen := @returns_skip (fun c => c != 0 && !isSpace c && c != 0x29) (by decide) w
      have hread := @returns_read w
      obtain ⟨d, z, hz⟩ := text_cons w
      rw [List.cons_append, hz, variableEnd]
      rw [hz] at hrest hparen hread
      refine .ite (fun _ => .pure (Nat.zero_le _)) fun hc => .ite (fun _ => ?_) fun _ => .ite (fun _ => ?_) fun _ =>
        .ite (fun hd => ?_) fun _ => .pure (Nat.zero_le _)
      · exact (hrest (k + 1)).map fun r hr => Nat.succ_le_succ hr
      · refine hparen.bind fun i hi => (hread hi.1).bind fun c' hc' => ?_
        refine .ite (fun h => .pure ?_) fun _ => .pure (Nat.succ_le_succ hi.1)
        have hlt := hc'.2 (by rw [h]; decide)
        rw [List.length_cons]
        omega
      · cases w with
        | nil =>
          cases hz
          exact absurd hd.2 (by decide)
        | cons d' w =>
          cases hz
          rw [List.length_cons] at hn
          refine (@ih w (by rw [List.length_cons] at hn; omega) k).map fun r hr => ?_
          rw [List.length_cons, List.length_cons]
          omega

/-! ### Tokens in the text -/

/-- A token that is not empty and ends in the text. -/
def IsToken (w : List UInt8) (t : Nat × Tk) : Prop := 0 < t.1 ∧ t.1 ≤ w.length

theorem returns_identifier (hi : i ≤ w.length) (hpos : 0 < i) : Returns (identifier (w ++ [0]) i) (IsToken w) :=
  (returns_skipFrom (by decide) hi).bind fun _ hj => .pure ⟨hpos.trans_le hj.1, hj.2.1⟩

theorem returns_scan {p : UInt8 → Bool} (hp : p 0 = false) (tk : Tk) (hi : i ≤ w.length) (hpos : 0 < i) :
    Returns (skipFrom p (w ++ [0]) i >>= fun j => some (j, tk)) (IsToken w) :=
  (returns_skipFrom hp hi).bind fun _ hj => .pure ⟨hpos.trans_le hj.1, hj.2.1⟩

variable (hw : 1 ≤ w.length)
include hw

theorem returns_one (tk : Tk) : Returns (some (1, tk)) (IsToken w) := .pure ⟨Nat.one_pos, hw⟩

theorem returns_oneOrTwo (one : Tk) {two : List (UInt8 × Tk)} (htwo : two.lookup 0 = none) :
    Returns (oneOrTwo (w ++ [0]) one two) (IsToken w) := by
  refine (returns_read hw).bind fun c hc => ?_
  cases h : two.lookup c with
  | none => exact returns_one hw one
  | some tk =>
    have hne : c ≠ 0 := fun h0 => by
      rw [h0, htwo] at h
      cases h
    exact .pure ⟨Nat.two_pos, hc.2 hne⟩

theorem returns_slash : Returns (slash (w ++ [0])) (IsToken w) := by
  refine (returns_read hw).bind fun c hc => .ite (fun _ => returns_one hw _) fun h => ?_
  have h1 := hc.2 (by rw [not_not.1 h]; decide)
  refine (returns_read h1).bind fun c hc => .ite (fun _ => returns_one hw _) fun h => ?_
  have h2 := hc.2 h
  rw [drop_text h2]
  refine (returns_commentEnd c (w.drop 3)).bind fun n hn => .pure ⟨Nat.succ_pos _, ?_⟩
  rw [List.length_drop] at hn
  omega

theorem returns_quoted (delim : UInt8) : Returns (quoted (w ++ [0]) delim) (IsToken w) := by
  have hlen : (w.drop 1).length = w.length - 1 := List.length_drop
  rw [quoted, drop_text hw]
  refine (returns_quoteEnd delim (w.drop 1).length (Nat.le_refl _)).bind fun r hr => ?_
  rw [hlen] at hr
  refine .ite (fun h => ?_) fun _ => .ite (fun h => ?_) fun _ => .pure ⟨Nat.succ_pos _, by omega⟩
  · have hlt := hr.2 (by rw [h]; decide)
    exact .pure ⟨Nat.succ_pos _, by omega⟩
  · have hlt := hr.2 h
    exact .pure ⟨Nat.succ_pos _, by omega⟩

theorem returns_isHex : Returns (isHex (w ++ [0])) fun hex => hex = true → 3 ≤ w.length := by
  refine (returns_read (Nat.zero_le _)).bind fun c hc => .ite (fun _ => .pure fun h => by cases h) fun h => ?_
  refine (returns_read hw).bind fun c hc => .ite (fun _ => .pure fun h => by cases h) fun h => ?_
  have hne : c ≠ 0 := fun h0 => h (by rw [h0]; decide)
  refine (returns_read (hc.2 hne)).bind fun c hc => .pure fun h => hc.2 fun h0 => ?_
  rw [h0] at h
  exact absurd h (by decide)

omit hw in
/-- The fraction is at least the point that it starts with. -/
theorem returns_fraction (hi : i ≤ w.length) :
    Returns (fraction (w ++ [0]) i) fun t =>
      i ≤ t.1 ∧ t.1 ≤ w.length ∧ ((w ++ [0])[i]? = some 0x2e → i < t.1) := by
  refine (returns_read hi).bind fun c hc => .ite (fun h => ?_) fun h => .pure ⟨Nat.le_refl _, hi, fun h' => ?_⟩
  · have hlt := hc.2 (by rw [h]; decide)
    refine (returns_skipFrom (by decide) hlt).bind fun j hj => .pure ?_
    exact ⟨Nat.le_of_succ_le hj.1, hj.2.1, fun _ => hj.1⟩
  · rw [hc.1] at h'
    exact absurd (Option.some.inj h') h

omit hw in
theorem returns_isExponent (hi : i ≤ w.length) :
    Returns (isExponent (w ++ [0]) i) fun digits => digits = true → i + 2 ≤ w.length := by
  refine (returns_read hi).bind fun c hc => .ite (fun _ => .pure fun h => by cases h) fun h => ?_
  have hne : c ≠ 0 := fun h0 => h (by rw [h0]; decide)
  refine (returns_read (hc.2 hne)).bind fun c hc => .ite (fun h => .pure fun _ => hc.2 fun h0 => ?_) fun _ => ?_
  · rw [h0] at h
    exact absurd h (by decide)
  · refine .ite (fun _ => .pure fun h => by cases h) fun h => ?_
    have hne : c ≠ 0 := fun h0 => h (by rw [h0]; decide)
    exact (returns_read (hc.2 hne)).bind fun _ _ => .pure fun _ => hc.2 hne

omit hw in
theorem returns_exponent {t : Nat × Tk} (ht : t.1 ≤ w.length) :
    Returns (exponent (w ++ [0]) t) fun t' => t.1 ≤ t'.1 ∧ t'.1 ≤ w.length := by
  refine (returns_isExponent ht).bind fun digits hdigits => .ite (fun h => ?_) fun _ => .pure ⟨Nat.le_refl _, ht⟩
  exact (returns_skipFrom (by decide) (hdigits h)).bind fun j hj =>
    .pure ⟨(Nat.le_add_right _ 2).trans hj.1, hj.2.1⟩

/-- A number starts with a digit or with the point of its fraction. -/
theorem returns_number {c : UInt8} (hread : (w ++ [0])[0]? = some c) (hc : isDigit c = true ∨ c = 0x2e) :
    Returns (number (w ++ [0])) (IsToken w) := by
  refine (returns_isHex hw).bind fun hex hhex => .ite (fun h => ?_) fun _ => ?_
  · exact returns_scan (by decide) _ (hhex h) (by decide)
  refine (returns_skipFrom (by decide) (Nat.zero_le _)).bind fun i hi => ?_
  refine (returns_fraction hi.2.1).bind fun t ht => (returns_exponent ht.2.1).bind fun t' ht' => ?_
  refine (returns_skipFrom (by decide) ht'.2).bind fun j hj => .pure ⟨?_, hj.2.1⟩
  have hpos : 0 < t.1 := by
    obtain hdigit | hpoint := hc
    · exact (hi.2.2 c hread hdigit).trans_le ht.1
    · by_cases h0 : i = 0
      · subst h0
        rw [hpoint] at hread
        exact ht.2.2 hread
      · omega
  show 0 < j
  omega

theorem returns_bracketed : Returns (bracketed (w ++ [0])) (IsToken w) := by
  refine (returns_skipFrom (by decide) hw).bind fun i hi => (returns_read hi.2.1).bind fun c hc => ?_
  refine .ite (fun h => .pure ⟨Nat.succ_pos _, ?_⟩) fun _ => .pure ⟨hi.1, hi.2.1⟩
  exact hc.2 (by rw [h]; decide)

theorem returns_variable : Returns (sqlVariable (w ++ [0])) (IsToken w) := by
  have hlen : (w.drop 1).length = w.length - 1 := List.length_drop
  rw [sqlVariable, drop_text hw]
  refine (returns_variableEnd _ (Nat.le_refl _) 0).bind fun r hr => .pure ⟨Nat.succ_pos _, ?_⟩
  rw [hlen] at hr
  show r.1 + 1 ≤ w.length
  omega

theorem returns_keyword : Returns (keyword (w ++ [0])) (IsToken w) := by
  refine (returns_skipFrom (by decide) hw).bind fun i hi => (returns_read hi.2.1).bind fun c hc => ?_
  refine .ite (fun h => ?_) fun _ => ?_
  · refine returns_identifier (hc.2 fun h0 => ?_) (Nat.succ_pos _)
    rw [h0] at h
    exact absurd h (by decide)
  · obtain ⟨tk, htk⟩ := keywordCode_total ((w ++ [0]).take i)
    rw [htk]
    exact .pure ⟨hi.1, hi.2.1⟩

theorem returns_blob : Returns (blob (w ++ [0])) (IsToken w) := by
  refine (returns_read hw).bind fun c hc => .ite (fun _ => returns_identifier hw Nat.one_pos) fun h => ?_
  have h1 := hc.2 (by rw [not_not.1 h]; decide)
  refine (returns_skipFrom (by decide) h1).bind fun i hi => (returns_read hi.2.1).bind fun c hc => ?_
  refine .ite (fun _ => ?_) fun h => ?_
  · refine (returns_skipFrom (by decide) hi.2.1).bind fun j hj => (returns_read hj.2.1).bind fun c hc => .pure ?_
    by_cases h0 : c ≠ 0
    · rw [if_pos h0]
      exact ⟨Nat.succ_pos _, hc.2 h0⟩
    · rw [if_neg h0]
      exact ⟨show 0 < j by omega, hj.2.1⟩
  · rw [not_or, not_not] at h
    exact .pure ⟨Nat.succ_pos _, hc.2 (by rw [h.1]; decide)⟩

omit hw in
theorem class_number : ∀ c < 0x100, (ccOf (UInt8.ofNat c) = .DIGIT → isDigit (UInt8.ofNat c) = true) ∧
    (ccOf (UInt8.ofNat c) = .DOT → c = 0x2e) := by
  decide +kernel

/-- Whatever a text is, the tokenizer returns a token of it. -/
theorem getToken_returns : Returns (sqlite3GetToken (w ++ [0])) (IsToken w) := by
  refine (returns_read (Nat.zero_le _)).bind fun c hc => ?_
  have hclass := class_number c.toNat c.toNat_lt
  rw [UInt8.ofNat_toNat] at hclass
  cases h : ccOf c with
  | SPACE => exact returns_scan (by decide) _ hw Nat.one_pos
  | MINUS =>
    refine (returns_read hw).bind fun c hc => .ite (fun h => ?_) fun _ => returns_one hw _
    exact returns_scan (by decide) _ (hc.2 (by rw [h]; decide)) Nat.two_pos
  | LP => exact returns_one hw _
  | RP => exact returns_one hw _
  | SEMI => exact returns_one hw _
  | PLUS => exact returns_one hw _
  | STAR => exact returns_one hw _
  | SLASH => exact returns_slash hw
  | PERCENT => exact returns_one hw _
  | EQ => exact returns_oneOrTwo hw _ (by decide)
  | LT => exact returns_oneOrTwo hw _ (by decide)
  | GT => exact returns_oneOrTwo hw _ (by decide)
  | BANG => exact returns_oneOrTwo hw _ (by decide)
  | PIPE => exact returns_oneOrTwo hw _ (by decide)
  | COMMA => exact returns_one hw _
  | AND => exact returns_one hw _
  | TILDA => exact returns_one hw _
  | QUOTE => exact returns_quoted hw c
  | DOT =>
    refine (returns_read hw).bind fun _ _ => .ite (fun _ => ?_) fun _ => returns_one hw _
    exact returns_number hw hc.1 (.inr (UInt8.toNat_inj.1 (hclass.2 h)))
  | DIGIT => exact returns_number hw hc.1 (.inl (hclass.1 h))
  | QUOTE2 => exact returns_bracketed hw
  | VARNUM => exact returns_scan (by decide) _ hw Nat.one_pos
  | DOLLAR => exact returns_variable hw
  | VARALPHA => exact returns_variable hw
  | KYWD => exact returns_keyword hw
  | X => exact returns_blob hw
  | ID => exact returns_identifier hw Nat.one_pos
  | ILLEGAL => exact returns_one hw _

end Text

/-- `x'0'`: half a byte is not a BLOB. -/
example : sqlite3GetToken [0x78, 0x27, 0x30, 0x27, 0] = some (4, .ILLEGAL) := by
  decide +kernel

end FuzzerTestSuite.Sqlite
