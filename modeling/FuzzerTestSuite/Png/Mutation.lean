import FuzzerTestSuite.Library.Congruential
import FuzzerTestSuite.Png.Parser

/-! `PngMutator::Mutate` and `PngMutator::CrossOver`.

Both draw from a generator seeded with their `Seed`. The byte mutator is a
parameter, and `Mutate` also returns the calls it made of it. Every access is
checked: `none` is a remainder by zero or an index out of range, and
`mutate_edit` says that there is none. -/
namespace FuzzerTestSuite.Png
open Library Library.Bytes Library.Checked

/-! ### `std::minstd_rand` -/

/-- The modulus `2^31 - 1`. -/
def randMod : Nat := 2147483647

/-- The generator's state after seeding. -/
def minstdRand (seed : UInt32) : Nat :=
  if seed.toNat % randMod = 0 then 1 else seed.toNat % randMod

/-- `rnd()`: the next state is also the value drawn. -/
def rnd (x : Nat) : Nat := Congruential.next 48271 randMod x

/-- A vector filled byte by byte, and the state after it. -/
def fill : Nat → Nat → V × Nat
  | 0, r => ([], r)
  | n + 1, r => (UInt8.ofNat (rnd r) :: (fill n (rnd r)).1, (fill n (rnd r)).2)

@[simp] theorem fill_length (n r : Nat) : (fill n r).1.length = n := by
  induction n generalizing r with
  | zero => rfl
  | succ n ih => rw [fill, List.length_cons, ih]

/-! ### The parameters -/

/-- `Mutator`: `m(Data, Size, MaxSize)` rewrites the buffer at `Data` in place and
returns a size. It writes nowhere else. -/
structure Mutator where
  run : V → Nat → Nat → V × Nat
  keeps : ∀ data size maxSize, (run data size maxSize).1.length = data.length

/-- The arguments of a call of the byte mutator. -/
structure MutatorCall where
  data : V
  size : Nat
  maxSize : Nat
deriving DecidableEq, Repr

/-- The byte mutator returns at most its `MaxSize`. -/
def Mutator.Bounded (m : Mutator) : Prop :=
  ∀ data size maxSize, size ≤ maxSize → (m.run data size maxSize).2 ≤ maxSize

/-- Called on at least one byte, it returns at least one and at most its `MaxSize`. -/
def Mutator.InRange (m : Mutator) : Prop :=
  ∀ data size maxSize, 1 ≤ size → size ≤ maxSize →
    1 ≤ (m.run data size maxSize).2 ∧ (m.run data size maxSize).2 ≤ maxSize

/-- `std::shuffle` with the generator in a given state. -/
structure Shuffle where
  run : Nat → List Chunk → List Chunk
  perm : ∀ r chs, (run r chs).Perm chs

/-! ### `Mutate` -/

/-- A call on a whole vector: `m(v->data(), v->size(), v->size())`. -/
def callOn (v : V) : MutatorCall := ⟨v, v.length, v.length⟩

def Mutator.call (m : Mutator) (c : MutatorCall) : V × Nat := m.run c.data c.size c.maxSize

/-- What the lambda `M` hands to the byte mutator: an empty vector is first given a
random length. -/
def grown (v : V) (r : Nat) : V := if v.isEmpty then resize v (v.length + 1 + rnd r % 256) else v

@[simp] theorem grown_nil (r : Nat) : grown [] r = List.replicate (1 + rnd r % 256) 0 := by
  rw [grown, if_pos List.isEmpty_nil, List.length_nil, Nat.zero_add]
  exact List.takeD_nil _ _

@[simp] theorem grown_cons (b : UInt8) (v : V) (r : Nat) : grown (b :: v) r = b :: v := rfl

/-- The lambda `M`: the vector takes the size the byte mutator returns. -/
def mutateV (m : Mutator) (v : V) (r : Nat) : V × MutatorCall :=
  let c := callOn (grown v r)
  (resize (m.call c).1 (m.call c).2, c)

def types : List UInt32 :=
  ["IATx", "sTER", "hIST", "sPLT", "mkBF", "mkBS", "mkTS", "prVW",
    "oFFs", "iDOT", "zTXt", "mkBT", "acTL", "iTXt", "sBIT", "tIME",
    "iCCP", "vpAg", "tRNS", "cHRM", "PLTE", "bKGD", "gAMA", "sRGB",
    "pHYs", "fdAT", "fcTL", "tEXt", "IDAT",
    "pCAL", "sCAL", "eXIf",
    "fUZz"].map type

/-- The type of an inserted chunk, and the state after choosing it. -/
def drawType (r : Nat) : Option (UInt32 × Nat) :=
  if rnd r % 10 ≤ 8 then do
    let i ← mod? (rnd (rnd r)) types.length
    let t ← types[i]?
    some (t, rnd (rnd r))
  else some (UInt32.ofNat (rnd (rnd r)), rnd (rnd r))

/-- The chunk to insert, and the state after drawing it. -/
def drawChunk (r : Nat) : Option (Chunk × Nat) := do
  let (t, r) ← drawType r
  let len := if t = type "fUZz" then 16 else rnd r % 256
  let (v, r) := fill len (rnd r)
  some (⟨t, v⟩, r)

/-- The chunk `find_if` stops at. -/
def isHint (c : Chunk) : Bool := c.type = type "fUZz"

/-- The new state, and the calls of the byte mutator. -/
def mutate (sh : Shuffle) (m : Mutator) (seed : UInt32) (p : PngMutator) :
    Option (PngMutator × List MutatorCall) :=
  let r := rnd (minstdRand seed)
  match r % 6 with
  -- Mutate IHDR.
  | 0 =>
    let c := callOn p.ihdr_.1
    some ({p with ihdr_ := p.ihdr_.store (m.call c).1}, [c])
  -- Mutate some other chunk.
  | 1 =>
    if p.chunks_ ≠ [] then do
      let k ← mod? (rnd r) p.chunks_.length
      let ch ← p.chunks_[k]?
      let (v, c) := mutateV m ch.v (rnd r)
      let chunks ← modifyAt? p.chunks_ k fun ch => {ch with v := v}
      some ({p with chunks_ := chunks}, [c])
    else some (p, [])
  -- Shuffle the chunks.
  | 2 => some ({p with chunks_ := sh.run r p.chunks_}, [])
  -- Delete a random chunk.
  | 3 =>
    if p.chunks_ ≠ [] then do
      let k ← mod? (rnd r) p.chunks_.length
      let chunks ← eraseAt? p.chunks_ k
      some ({p with chunks_ := chunks}, [])
    else some (p, [])
  -- Insert a random chunk with one of the known types, or a random type.
  | 4 => do
    let (ch, r) ← drawChunk r
    let pos ← mod? (rnd r) (p.chunks_.length + 1)
    let chunks ← insertAt? p.chunks_ pos ch
    some ({p with chunks_ := chunks}, [])
  -- Mutate the first hint chunk in place.
  | 5 =>
    match p.chunks_.findIdx? isHint with
    | some k => do
      let ch ← p.chunks_[k]?
      let c := callOn ch.v
      let chunks ← modifyAt? p.chunks_ k fun ch => {ch with v := (m.call c).1}
      some ({p with chunks_ := chunks}, [c])
    | none => some (p, [])
  | _ => some (p, [])

/-! ### `CrossOver` -/

def crossOver (q : PngMutator) (seed : UInt32) (p : PngMutator) : Option PngMutator :=
  if q.chunks_ = [] then some p
  else do
    let r := rnd (minstdRand seed)
    let idx ← mod? r q.chunks_.length
    let ch ← q.chunks_[idx]?
    let pos ← mod? (rnd r) (p.chunks_.length + 1)
    let chunks ← insertAt? p.chunks_ pos ch
    some {p with chunks_ := chunks}

end FuzzerTestSuite.Png
