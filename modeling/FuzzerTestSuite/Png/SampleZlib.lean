import FuzzerTestSuite.Library.Crc32
import FuzzerTestSuite.Png.Zlib

/-! A zlib to run the model with.

`zlibOf` makes a zlib out of an encoding and its inverse. `sampleZlib` is made
from one stream as zlib's `compress` writes it, and from stored blocks for every
other vector; up to 65535 bytes those are zlib streams too, though not the ones
`compress` would choose. -/
namespace FuzzerTestSuite.Png
open Library Library.Bytes

/-- A call whose whole result is `out`; with too little room it fills what there is, and with
none it answers `refusal`. -/
def callFor (refusal : ZCode) (out : V) : ZCall where
  run dest :=
    if out.length ≤ dest.length then ⟨.ok, overwrite dest out, out.length⟩
    else ⟨if dest = [] then refusal else .bufError, overwrite dest out, dest.length⟩
  size dest := by split <;> exact overwrite_length dest out
  fits dest _ := by
    by_cases hfit : out.length ≤ dest.length
    · rw [if_pos hfit]
      exact hfit
    · rw [if_neg hfit]

/-- zlib's own calls reject the null destination of an empty vector. -/
def exactCall : V → ZCall := callFor .error

/-- A call on a source that is no stream. -/
def failingCall : ZCall where
  run dest := ⟨.error, dest, 0⟩
  size _ := rfl
  fits _ h := by cases h

theorem callFor_yields {refusal : ZCode} (hrefusal : refusal ≠ .ok) (out : V) :
    (callFor refusal out).Yields out where
  ok dest h := by
    have hrun : (callFor refusal out).run dest = ⟨.ok, overwrite dest out, out.length⟩ := if_pos h
    rw [hrun]
    exact ⟨rfl, rfl, overwrite_take h⟩
  short dest hdest h := by simp only [callFor, if_neg (Nat.not_le.mpr h), if_neg hdest]
  empty hout := by
    have hlen : ¬out.length ≤ ([] : V).length := Nat.not_le.mpr (List.length_pos_of_ne_nil hout)
    simp only [callFor, if_neg hlen, if_true]
    exact hrefusal

theorem exactCall_yields (out : V) : (exactCall out).Yields out := callFor_yields (by decide) out

def zlibOf (deflate : V → V) (inflate : V → Option V) : Zlib where
  compress v := exactCall (deflate v)
  uncompress c :=
    match inflate c with
    | some d => exactCall d
    | none => failingCall
  crc32 := Crc32.update

section ZlibOf
variable {deflate : V → V} {inflate : V → Option V}

theorem zlibOf_encodes (hinv : ∀ v, inflate (deflate v) = some v) (hne : ∀ v, deflate v ≠ []) :
    Encodes (zlibOf deflate inflate) deflate where
  compress v := exactCall_yields (deflate v)
  uncompress v := by
    simp only [zlibOf, hinv v]
    exact exactCall_yields v
  ne_nil := hne

theorem zlibOf_decodes : Decodes (zlibOf deflate inflate) inflate where
  stream c d h := by
    simp only [zlibOf, h]
    exact exactCall_yields d
  other c h dest := by
    simp only [zlibOf, h, failingCall]
    decide

theorem zlibOf_refusesEmpty (hne : deflate [] ≠ []) (hnil : inflate [] = none) :
    RefusesEmpty (zlibOf deflate inflate) where
  compress := by
    have hlen : ¬(deflate []).length ≤ ([] : V).length := Nat.not_le.mpr (List.length_pos_of_ne_nil hne)
    simp only [zlibOf, exactCall, callFor, if_neg hlen, if_true]
    decide
  uncompress := by
    simp only [zlibOf, hnil, failingCall]
    decide

end ZlibOf

/-! ### The sample -/

/-- Adler-32, the checksum at the end of a zlib stream. -/
def adler32 (v : V) : Nat :=
  let (a, b) := v.foldl (fun (a, b) x => ((a + x.toNat) % 65521, (b + (a + x.toNat)) % 65521)) (1, 0)
  b * 65536 + a

/-- Header, one final stored block, checksum. -/
def stored (v : V) : V :=
  [0x78, 0x01, 0x01] ++ leBytes 2 v.length ++ leBytes 2 (65535 - v.length) ++ v ++
    (leBytes 4 (adler32 v)).reverse

def unstored (c : V) : Option V :=
  let v := (c.drop 7).take (c.length - 11)
  if stored v = c then some v else none

theorem stored_length (v : V) : (stored v).length = v.length + 11 := by
  simp only [stored, List.length_append, leBytes_length, List.length_reverse, List.length_cons,
    List.length_nil]
  omega

theorem unstored_stored (v : V) : unstored (stored v) = some v := by
  have hpayload : ((stored v).drop 7).take ((stored v).length - 11) = v := by
    rw [stored_length, Nat.add_sub_cancel, stored]
    rw [List.append_assoc, List.drop_left' (by simp)]
    exact List.take_left' rfl
  rw [unstored, hpayload, if_pos rfl]

/-- The encoding with `stream` for `content` and stored blocks for everything else. -/
def sampleDeflate (content stream v : V) : V := if v = content then stream else stored v

def sampleInflate (content stream c : V) : Option V := if c = stream then some content else unstored c

/-- A stream not made of stored blocks: its header names another level. -/
theorem sample_inverse {content stream : V} (h : stream[1]? = some 0x9c) (v : V) :
    sampleInflate content stream (sampleDeflate content stream v) = some v := by
  unfold sampleInflate sampleDeflate
  by_cases hv : v = content
  · rw [if_pos hv, if_pos rfl, hv]
  · have hne : stored v ≠ stream := by
      intro he
      rw [← he] at h
      cases h
    rw [if_neg hv, if_neg hne, unstored_stored]

def sampleZlib (content stream : V) : Zlib :=
  zlibOf (sampleDeflate content stream) (sampleInflate content stream)

theorem sampleZlib_encodes {content stream : V} (h : stream[1]? = some 0x9c) :
    Encodes (sampleZlib content stream) (sampleDeflate content stream) := by
  apply zlibOf_encodes (sample_inverse h)
  intro v
  unfold sampleDeflate
  split
  · intro he
    rw [he] at h
    cases h
  · exact List.cons_ne_nil _ _

/-- One byte, and what `compress` makes of it. -/
def starContent : V := [0x2a]

def starStream : V := [0x78, 0x9c, 0xd3, 0x02, 0x00, 0x00, 0x2b, 0x00, 0x2b]

def starDeflate : V → V := sampleDeflate starContent starStream

def starInflate : V → Option V := sampleInflate starContent starStream

def starZlib : Zlib := sampleZlib starContent starStream

theorem starZlib_refusesEmpty : RefusesEmpty starZlib := zlibOf_refusesEmpty (by decide) (by decide)

end FuzzerTestSuite.Png
