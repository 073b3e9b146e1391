import FuzzerTestSuite.Library.Wildcard
import FuzzerTestSuite.Sqlite.Utf

/-! The LIKE and GLOB operators.

`patternCompare` matches a text with a pattern as it reads both, both ended by a zero byte. A `none`
here is a read outside of the memory of one of them. -/
namespace FuzzerTestSuite.Sqlite

/-! ### Letters -/

/-- Upper-case ASCII letters to lower-case ones. -/
def sqlite3UpperToLower : List UInt8 :=
  [  0,  1,  2,  3,  4,  5,  6,  7,  8,  9, 10, 11, 12, 13, 14, 15, 16, 17,
    18, 19, 20, 21, 22, 23, 24, 25, 26, 27, 28, 29, 30, 31, 32, 33, 34, 35,
    36, 37, 38, 39, 40, 41, 42, 43, 44, 45, 46, 47, 48, 49, 50, 51, 52, 53,
    54, 55, 56, 57, 58, 59, 60, 61, 62, 63, 64, 97, 98, 99,100,101,102,103,
   104,105,106,107,108,109,110,111,112,113,114,115,116,117,118,119,120,121,
   122, 91, 92, 93, 94, 95, 96, 97, 98, 99,100,101,102,103,104,105,106,107,
   108,109,110,111,112,113,114,115,116,117,118,119,120,121,122,123,124,125,
   126,127,128,129,130,131,132,133,134,135,136,137,138,139,140,141,142,143,
   144,145,146,147,148,149,150,151,152,153,154,155,156,157,158,159,160,161,
   162,163,164,165,166,167,168,169,170,171,172,173,174,175,176,177,178,179,
   180,181,182,183,184,185,186,187,188,189,190,191,192,193,194,195,196,197,
   198,199,200,201,202,203,204,205,206,207,208,209,210,211,212,213,214,215,
   216,217,218,219,220,221,222,223,224,225,226,227,228,229,230,231,232,233,
   234,235,236,237,238,239,240,241,242,243,244,245,246,247,248,249,250,251,
   252,253,254,255]

/-- What kind of character each byte is; `0x20` marks the lower-case letters. -/
def sqlite3CtypeMap : List UInt8 :=
  [0x00, 0x00, 0x00, 0x00, 0x00, 0x00, 0x00, 0x00,
   0x00, 0x01, 0x01, 0x01, 0x01, 0x01, 0x00, 0x00,
   0x00, 0x00, 0x00, 0x00, 0x00, 0x00, 0x00, 0x00,
   0x00, 0x00, 0x00, 0x00, 0x00, 0x00, 0x00, 0x00,
   0x01, 0x00, 0x80, 0x00, 0x40, 0x00, 0x00, 0x80,
   0x00, 0x00, 0x00, 0x00, 0x00, 0x00, 0x00, 0x00,
   0x0c, 0x0c, 0x0c, 0x0c, 0x0c, 0x0c, 0x0c, 0x0c,
   0x0c, 0x0c, 0x00, 0x00, 0x00, 0x00, 0x00, 0x00,
   0x00, 0x0a, 0x0a, 0x0a, 0x0a, 0x0a, 0x0a, 0x02,
   0x02, 0x02, 0x02, 0x02, 0x02, 0x02, 0x02, 0x02,
   0x02, 0x02, 0x02, 0x02, 0x02, 0x02, 0x02, 0x02,
   0x02, 0x02, 0x02, 0x80, 0x00, 0x00, 0x00, 0x40,
   0x80, 0x2a, 0x2a, 0x2a, 0x2a, 0x2a, 0x2a, 0x22,
   0x22, 0x22, 0x22, 0x22, 0x22, 0x22, 0x22, 0x22,
   0x22, 0x22, 0x22, 0x22, 0x22, 0x22, 0x22, 0x22,
   0x22, 0x22, 0x22, 0x00, 0x00, 0x00, 0x00, 0x00] ++ List.replicate 128 0x40

/-- `sqlite3Tolower`. -/
def tolower (x : Nat) : Nat := (sqlite3UpperToLower.getD (x % 2 ^ 8) 0).toNat

/-- `sqlite3Toupper`. -/
def toupper (x : Nat) : Nat :=
  x &&& (0xFFFFFFFF ^^^ (sqlite3CtypeMap.getD (x % 2 ^ 8) 0 &&& 0x20).toNat)

/-! ### Reading -/

/-- `Utf8Read`, for the case that the character is ASCII. -/
def utf8Read : List UInt8 → Option (Nat × List UInt8)
  | [] => none
  | b :: z => if b < 0x80 then some (b.toNat, z) else sqlite3Utf8Read (b :: z)

/-- The bytes behind those that continue a character. -/
def skipTail : List UInt8 → Option (List UInt8)
  | [] => none
  | b :: z => if continues b then skipTail z else some (b :: z)

/-- `SQLITE_SKIP_UTF8`. -/
def skipUtf8 : List UInt8 → Option (List UInt8)
  | [] => none
  | b :: z => if 0xc0 ≤ b then skipTail z else some z

/-! ### Matching -/

structure CompareInfo where
  matchAll : UInt8
  matchOne : UInt8
  /-- `[`, or 0. -/
  matchSet : UInt8
  noCase : Bool
  deriving DecidableEq

def globInfo : CompareInfo := ⟨0x2a, 0x3f, 0x5b, false⟩

def likeInfoNorm : CompareInfo := ⟨0x25, 0x5f, 0, true⟩

/-- `PRAGMA case_sensitive_like`. -/
def likeInfoAlt : CompareInfo := ⟨0x25, 0x5f, 0, false⟩

/-- The loop that skips wildcards after a `*`, and a character of the string for each `?`: the next
character of the pattern, and both pointers; `some none` is its `return 0`. -/
def skipWildcards (pInfo : CompareInfo) :
    Nat → List UInt8 → List UInt8 → Option (Option (Nat × List UInt8 × List UInt8))
  | 0, _, _ => none
  | n + 1, zPattern, zString => do
    let (c, zPattern) ← utf8Read zPattern
    if c = pInfo.matchAll.toNat ∨ c = pInfo.matchOne.toNat then
      if c = pInfo.matchOne.toNat then
        let (c₂, zString) ← sqlite3Utf8Read zString
        if c₂ = 0 then return none else skipWildcards pInfo n zPattern zString
      else skipWildcards pInfo n zPattern zString
    else return some (c, zPattern, zString)

section Search
variable (compare : List UInt8 → Option Bool)

/-- The search for the byte `c` or `cx`. -/
def searchByte (c cx : Nat) : List UInt8 → Option Bool
  | [] => none
  | b :: zString =>
    let c₂ := b.toNat
    if c₂ = 0 then some false
    else if c₂ ≠ c ∧ c₂ ≠ cx then searchByte c cx zString
    else (compare zString).bind fun found => if found then some true else searchByte c cx zString

/-- The search for the character `c`. -/
def searchChar (c : Nat) : Nat → List UInt8 → Option Bool
  | 0, _ => none
  | n + 1, zString => do
    let (c₂, zString) ← utf8Read zString
    if c₂ = 0 then return false
    else if c₂ ≠ c then searchChar c n zString
    else (compare zString).bind fun found => if found then some true else searchChar c n zString

/-- The search for a position at which the rest of the pattern matches, but for the end. -/
def searchSet : Nat → List UInt8 → Option Bool
  | 0, _ => none
  | n + 1, zString => do
    let b ← zString.head?
    if b = 0 then return false
    else
      (compare zString).bind fun found =>
        if found then some true else (skipUtf8 zString).bind (searchSet n)

end Search

/-- The search after a `*`, for a pattern that goes on with `c`. -/
def searchFor (pInfo : CompareInfo) (compare : List UInt8 → Option Bool) (c : Nat) (zString : List UInt8) :
    Option Bool :=
  if c ≤ 0x80 then
    if pInfo.noCase then searchByte compare (tolower c) (toupper c) zString
    else searchByte compare c c zString
  else searchChar compare c zString.length zString

/-- `c2=='-' && zPattern[0]!=']' && zPattern[0]!=0 && prior_c>0`. -/
def isRange (c₂ prior_c : Nat) (zPattern : List UInt8) : Option Bool :=
  if c₂ = 0x2d then zPattern.head?.map fun b => decide (b ≠ 0x5d ∧ b ≠ 0 ∧ prior_c > 0) else some false

/-- The loop over a `[...]`: the character it ends at, whether `c` was seen, and what is behind. -/
def scanSet (c : Nat) : Nat → Nat → Nat → Bool → List UInt8 → Option (Nat × Bool × List UInt8)
  | 0, _, _, _, _ => none
  | n + 1, c₂, prior_c, seen, zPattern =>
    if c₂ ≠ 0 ∧ c₂ ≠ 0x5d then do
      let range ← isRange c₂ prior_c zPattern
      if range then
        let (c₂, zPattern) ← sqlite3Utf8Read zPattern
        let (c₃, zPattern) ← sqlite3Utf8Read zPattern
        scanSet c n c₃ 0 (seen || decide (prior_c ≤ c ∧ c ≤ c₂)) zPattern
      else
        let (c₃, zPattern) ← sqlite3Utf8Read zPattern
        scanSet c n c₃ c₂ (seen || decide (c = c₂)) zPattern
    else some (c₂, seen, zPattern)

/-- The next character, if this one is `x`: whether it was, the next one and what is behind. -/
def readAfter (x c₂ : Nat) (zPattern : List UInt8) : Option (Bool × Nat × List UInt8) :=
  if c₂ = x then (sqlite3Utf8Read zPattern).map fun (c₂, zPattern) => (true, c₂, zPattern)
  else some (false, c₂, zPattern)

/-- Whether `c` is in the set that the pattern goes on with, and what is behind it. -/
def matchSet (c : Nat) (zPattern : List UInt8) : Option (Bool × List UInt8) := do
  let (c₂, zPattern) ← sqlite3Utf8Read zPattern
  let (invert, c₂, zPattern) ← readAfter 0x5e c₂ zPattern
  let (bracket, c₂, zPattern) ← readAfter 0x5d c₂ zPattern
  let (c₂, seen, zPattern) ← scanSet c (zPattern.length + 1) c₂ 0 (bracket && decide (c = 0x5d)) zPattern
  return (decide (c₂ ≠ 0) && (seen ^^ invert), zPattern)

/-- The end of a pass: `c` of the pattern against the next character of the string. -/
def matchChar (pInfo : CompareInfo) (compare : List UInt8 → Option Bool) (c : Nat) (escaped : Bool)
    (zString : List UInt8) : Option Bool := do
  let (c₂, zString) ← utf8Read zString
  if c = c₂ then compare zString
  else if pInfo.noCase ∧ tolower c = tolower c₂ ∧ c < 0x80 ∧ c₂ < 0x80 then compare zString
  else if c = pInfo.matchOne.toNat ∧ !escaped ∧ c₂ ≠ 0 then compare zString
  else return false

section Passes
variable (pInfo : CompareInfo) (matchOther : Nat)

/-- The rest of a pass at a `*`, with the pattern's first character `c` past the wildcards. -/
def matchPast (compare : List UInt8 → List UInt8 → Option Bool) (c : Nat) (zPattern zString : List UInt8) :
    Option Bool :=
  if c = 0 then some true
  else if c = matchOther then
    if pInfo.matchSet = 0 then
      (sqlite3Utf8Read zPattern).bind fun (c, zPattern) =>
        if c = 0 then some false else searchFor pInfo (compare zPattern) c zString
    -- every call reads the set again, from `zPattern[-1]`
    else searchSet (compare (UInt8.ofNat c :: zPattern)) zString.length zString
  else searchFor pInfo (compare zPattern) c zString

/-- A pass at a `*`. -/
def matchStar (compare : List UInt8 → List UInt8 → Option Bool) (zPattern zString : List UInt8) : Option Bool :=
  (skipWildcards pInfo zPattern.length zPattern zString).bind fun
    | none => some false
    | some (c, zPattern, zString) => matchPast pInfo matchOther compare c zPattern zString

/-- A pass at an escape, or at a set. -/
def matchEscape (compare : List UInt8 → List UInt8 → Option (List UInt8) → Option Bool)
    (zPattern zString : List UInt8) (zEscaped : Option (List UInt8)) : Option Bool :=
  if pInfo.matchSet = 0 then
    (sqlite3Utf8Read zPattern).bind fun (c, zPattern) =>
      if c = 0 then some false else matchChar pInfo (compare zPattern · (some zPattern)) c true zString
  else
    (sqlite3Utf8Read zString).bind fun (c, zString) =>
      if c = 0 then some false
      else
        (matchSet c zPattern).bind fun (found, zPattern) =>
          if found then compare zPattern zString zEscaped else some false

/-- With a bound on the passes and calls, each of which reads from the pattern. `zEscaped` is where the last
escaped character ends. -/
def patternCompare : Nat → List UInt8 → List UInt8 → Option (List UInt8) → Option Bool
  | 0, _, _, _ => none
  | n + 1, zPattern, zString, zEscaped =>
    (utf8Read zPattern).bind fun (c, zPattern) =>
      if c = 0 then zString.head?.map (· == 0)
      else if c = pInfo.matchAll.toNat then
        matchStar pInfo matchOther (patternCompare n · · none) zPattern zString
      else if c = matchOther then matchEscape pInfo (patternCompare n) zPattern zString zEscaped
      else
        matchChar pInfo (patternCompare n zPattern · zEscaped) c (decide (zEscaped = some zPattern)) zString

end Passes

/-! ### The SQL function -/

/-- `sqlite3Utf8CharLen` of a text that ends in a zero. -/
def sqlite3Utf8CharLen : Nat → List UInt8 → Option Nat
  | 0, _ => none
  | n + 1, z => do
    let b ← z.head?
    if b = 0 then return 0
    else (skipUtf8 z).bind fun z => (sqlite3Utf8CharLen n z).map (· + 1)

/-- The result of a SQL function. -/
inductive Result where
  | null
  | error (msg : String)
  | int (b : Bool)
  deriving DecidableEq

/-- The text of a value, with the zero after it. -/
def valueText (z : List UInt8) : List UInt8 := z ++ [0]

/-- The escape character of a `LIKE` with an `ESCAPE`, or the result without one. -/
def likeEscape (zEsc : List UInt8) : Option (Nat ⊕ Result) := do
  let len ← sqlite3Utf8CharLen (valueText zEsc).length (valueText zEsc)
  if len ≠ 1 then return .inr (.error "ESCAPE expression must be a single character")
  else (sqlite3Utf8Read (valueText zEsc)).map fun (c, _) => .inl c

/-- `zB LIKE zA ESCAPE zEsc`, of texts and NULLs: the `ESCAPE` may be absent. `nMax` is the limit on the length of
patterns. -/
def likeFunc (pInfo : CompareInfo) (nMax : Nat) (zB zA : Option (List UInt8)) (zEsc : Option (Option (List UInt8))) :
    Option Result :=
  let compare (escape : Nat) : Option Result :=
    match zA, zB with
    | some zA, some zB =>
      (patternCompare pInfo escape (valueText zB).length (valueText zB) (valueText zA) none).map .int
    | _, _ => some .null
  if (zB.map List.length).getD 0 > nMax then some (.error "LIKE or GLOB pattern too complex")
  else
    match zEsc with
    | none => compare pInfo.matchSet.toNat
    | some none => some .null
    | some (some zEsc) =>
      (likeEscape zEsc).bind fun
        | .inl escape => compare escape
        | .inr r => some r

end FuzzerTestSuite.Sqlite
