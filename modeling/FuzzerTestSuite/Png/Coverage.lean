import Mathlib.NumberTheory.LucasLehmer
import FuzzerTestSuite.Png.Edit
import FuzzerTestSuite.Png.Truncation

/-! What the random draws can select.

`Mutate` takes its branch from one output of the generator and an index from the
next, `CrossOver` a chunk and a position. The generator's modulus is a prime far
above the numbers the outputs are reduced by, so every pair occurs
(`exists_seed_draws`) and no chunk or position is out of reach (`none_starved`). -/
namespace FuzzerTestSuite.Png
open Library

/-! ### Draws -/

theorem randMod_prime : Nat.Prime randMod := by
  have h : (mersenne 31).Prime := lucas_lehmer_sufficiency 31 (by norm_num) (by norm_num)
  exact h

/-- Every state but zero is the first draw of some seed. -/
theorem exists_seed {x : Nat} (hpos : 0 < x) (hlt : x < randMod) : ∃ seed, firstDraw seed = x := by
  have hback : rnd (Congruential.next 1899818559 randMod x) = x :=
    Congruential.next_next_inverse (by decide) hlt
  have hx : Congruential.next 1899818559 randMod x < randMod := Congruential.next_lt (by decide)
  generalize Congruential.next 1899818559 randMod x = y at hback hx
  have hy : y ≠ 0 := by
    intro h
    rw [h] at hback
    exact absurd hback (Nat.ne_of_lt hpos)
  refine ⟨UInt32.ofNat y, ?_⟩
  have hseed : (UInt32.ofNat y).toNat = y := ofNat_length (Nat.lt_trans hx (by decide))
  rw [firstDraw, minstdRand, hseed, Nat.mod_eq_of_lt hx, if_neg hy, hback]

/-- Two draws reach every pair of residues. -/
theorem exists_seed_draws {k l i j : Nat} (hkl : k * l ≤ 40000) (hi : i < k) (hj : j < l) :
    ∃ seed, firstDraw seed % k = i ∧ drawIndex seed l = j := by
  have hl : l ≤ 40000 := Nat.le_trans (Nat.le_mul_of_pos_left l (by omega)) hkl
  have hcop : randMod.Coprime l :=
    Nat.coprime_of_lt_prime (by omega) (Nat.lt_of_le_of_lt hl (by decide)) randMod_prime
  have hfit : 48271 * (k * l) < randMod :=
    Nat.lt_of_le_of_lt (Nat.mul_le_mul_left 48271 hkl) (by decide)
  obtain ⟨x, hpos, hlt, hx, hnext⟩ :=
    Congruential.exists_residues hcop (Nat.le_trans hl (by decide : 40000 ≤ 48271)) hfit hi hj
  obtain ⟨seed, hseed⟩ := exists_seed hpos hlt
  refine ⟨seed, hseed ▸ hx, ?_⟩
  rw [drawIndex, hseed]
  exact hnext

/-! ### What they select -/

section Selected
variable {seed : UInt32} {p : PngMutator} {k : Nat}

theorem mutate_deletes (hk : k < p.chunks_.length) (hb : branch seed = 3)
    (hidx : drawIndex seed p.chunks_.length = k) (sh : Shuffle) (m : Mutator) :
    mutate sh m seed p = some ({p with chunks_ := p.chunks_.eraseIdx k}, []) := by
  obtain ⟨q, calls, hmut, hedit⟩ := mutate_edit sh m seed p
  rw [hmut]
  cases hedit with
  | delete k' hk' _ hidx' => rw [hidx', hidx]
  | empty _ hnil =>
    rw [hnil] at hk
    cases hk
  | ihdr hb' | payload _ _ hb' _ | shuffle hb' | insert _ _ _ hb' _ _ | hint _ _ hb' _ | noHint hb' _ =>
    rw [hb] at hb'
    cases hb'

theorem mutate_hands_over (hk : k < p.chunks_.length) (hb : branch seed = 1)
    (hidx : drawIndex seed p.chunks_.length = k) (sh : Shuffle) (m : Mutator) :
    mutate sh m seed p =
      some (p.setV k (mutateV m p.chunks_[k].v (rnd (firstDraw seed))).1,
        [callOn (grown p.chunks_[k].v (rnd (firstDraw seed)))]) := by
  obtain ⟨q, calls, hmut, hedit⟩ := mutate_edit sh m seed p
  rw [hmut]
  cases hedit with
  | payload k' hk' _ hidx' =>
    rw [hidx] at hidx'
    subst hidx'
    rfl
  | empty _ hnil =>
    rw [hnil] at hk
    cases hk
  | ihdr hb' | delete _ _ hb' _ | shuffle hb' | insert _ _ _ hb' _ _ | hint _ _ hb' _ | noHint hb' _ =>
    rw [hb] at hb'
    cases hb'

/-- What the lambda hands over is the payload, or zeros for an empty one. -/
theorem grown_append (v : V) (r : Nat) :
    ∃ n, grown v r = v ++ List.replicate n 0 ∧ (v ≠ [] → n = 0) := by
  cases v with
  | nil => exact ⟨_, grown_nil r, fun h => absurd rfl h⟩
  | cons b v => exact ⟨0, (List.append_nil _).symm, fun _ => rfl⟩

end Selected

/-- Some seed makes `Mutate` delete the chunk. -/
def Deletable (p : PngMutator) (k : Nat) : Prop :=
  ∃ seed, ∀ sh m, mutate sh m seed p = some ({p with chunks_ := p.chunks_.eraseIdx k}, [])

/-- Some seed makes the branch that mutates a random chunk hand the chunk's payload over and
nothing else, grown by zeros only if it is empty. -/
def HandedOver (p : PngMutator) (k : Nat) : Prop :=
  ∃ seed, branch seed = 1 ∧ ∀ sh m, ∃ ch v n, p.chunks_[k]? = some ch ∧ (ch.v ≠ [] → n = 0) ∧
    mutate sh m seed p = some (p.setV k v, [callOn (ch.v ++ List.replicate n 0)])

/-- Some seed makes `CrossOver` insert the other's chunk at the position. -/
def Insertable (p q : PngMutator) (i j : Nat) : Prop :=
  ∃ seed ch, q.chunks_[i]? = some ch ∧
    crossOver q seed p = some {p with chunks_ := p.chunks_.insertIdx j ch}

theorem deletable {p : PngMutator} (hp : 6 * p.chunks_.length ≤ 40000) {k : Nat}
    (hk : k < p.chunks_.length) : Deletable p k := by
  obtain ⟨seed, hb, hidx⟩ := exists_seed_draws hp (by decide : 3 < 6) hk
  exact ⟨seed, mutate_deletes hk hb hidx⟩

theorem handedOver {p : PngMutator} (hp : 6 * p.chunks_.length ≤ 40000) {k : Nat}
    (hk : k < p.chunks_.length) : HandedOver p k := by
  obtain ⟨seed, hb, hidx⟩ := exists_seed_draws hp (by decide : 1 < 6) hk
  refine ⟨seed, hb, fun sh m => ?_⟩
  obtain ⟨n, hgrown, hn⟩ := grown_append p.chunks_[k].v (rnd (firstDraw seed))
  have hmut := mutate_hands_over hk hb hidx sh m
  rw [hgrown] at hmut
  exact ⟨p.chunks_[k], _, n, List.getElem?_eq_getElem hk, hn, hmut⟩

theorem insertable {p q : PngMutator} (hpq : q.chunks_.length * (p.chunks_.length + 1) ≤ 40000)
    {i j : Nat} (hi : i < q.chunks_.length) (hj : j ≤ p.chunks_.length) : Insertable p q i j := by
  obtain ⟨seed, hchunk, hpos⟩ := exists_seed_draws hpq hi (Nat.lt_succ_of_le hj)
  exact ⟨seed, _, List.getElem?_eq_getElem hi, crossOver_draw q seed p hi hchunk hpos⟩

/-- **No chunk and no position is starved**: not by `Mutate`, in a state parsed from at most
65536 bytes, nor by `CrossOver`, within the product the generator's multiplier leaves room for. -/
theorem none_starved :
    (∀ (z : Zlib) (bytes : V) (p : PngMutator), bytes.length ≤ 65536 → pngMutator z bytes = some p →
      ∀ k < p.chunks_.length, Deletable p k ∧ HandedOver p k) ∧
    ∀ p q : PngMutator, q.chunks_.length * (p.chunks_.length + 1) ≤ 40000 →
      ∀ i < q.chunks_.length, ∀ j ≤ p.chunks_.length, Insertable p q i j := by
  refine ⟨fun z bytes p hlen hp k hk => ?_, fun p q hpq i hi j hj => insertable hpq hi hj⟩
  have hsix : 6 * p.chunks_.length ≤ 40000 := by
    have hcount := parsed_count hp
    unfold maxRuns at hcount
    split at hcount <;> omega
  exact ⟨deletable hsix hk, handedOver hsix hk⟩

/-- The state of a file with one chunk, by itself and crossed with itself. -/
theorem starIdat_not_starved :
    ∃ p, pngMutator starZlib (oneChunk starIdat).bytes = some p ∧ Deletable p 0 ∧ HandedOver p 0 ∧
      Insertable p p 0 1 := by
  have hp : pngMutator starZlib (oneChunk starIdat).bytes =
      some ⟨Ihdr.zero, [⟨type "IDAT", starContent⟩]⟩ := by decide +kernel
  have hlen : (oneChunk starIdat).bytes.length = 66 := by decide +kernel
  obtain ⟨hdel, hhand⟩ := none_starved.1 starZlib _ _ (by rw [hlen]; decide) hp 0 (by decide)
  exact ⟨_, hp, hdel, hhand, none_starved.2 _ _ (by decide) 0 (by decide) 1 (by decide)⟩

end FuzzerTestSuite.Png
