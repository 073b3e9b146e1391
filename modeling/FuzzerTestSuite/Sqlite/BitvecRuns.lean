import FuzzerTestSuite.Sqlite.BitvecHolds

/-! SQLite's bitmaps are sets.

`Set` adds its bit to what is held and `Clear` takes it out (`setLoop_spec`, `clearLoop_spec`), also
where the one fills a table and the other makes it again. A `Set` that the allocator fails may lose bits
of the table it was splitting, but says so. So the bitmap is the same set of numbers to the callers,
whichever way it is stored, through any sequence of operations (`bitvec_set`). -/
namespace FuzzerTestSuite.Sqlite
open Library Library.OpenAddressing Library.WhileLoop

variable {a : List UInt32} {nSet : Nat}

/-! ### Set -/

/-- A `Set` that was to make the bits `T`: one that fails may lose some, but adds no others, and it
fails only if the allocator does. -/
structure SetTo (p : Bitvec) (mem : Malloc) (T : Set Nat) (s : SetResult) : Prop where
  size : s.p.iSize = p.iSize
  divided : p.iDivisor ≠ 0 → s.p.iDivisor ≠ 0
  holds : ∃ S, Holds s.p S ∧ S ⊆ T ∧ (s.rc = SQLITE_OK → S = T)
  granted : mem.Granted → s.rc = SQLITE_OK ∧ s.mem.Granted

theorem SetTo.ok {p q : Bitvec} {mem : Malloc} {T : Set Nat} (hsize : q.iSize = p.iSize)
    (hdivided : p.iDivisor ≠ 0 → q.iDivisor ≠ 0) (h : Holds q T) : SetTo p mem T ⟨SQLITE_OK, q, mem⟩ :=
  ⟨hsize, hdivided, ⟨T, h, subset_rfl, fun _ => rfl⟩, fun hmem => ⟨rfl, hmem⟩⟩

theorem SetTo.nomem {p : Bitvec} {mem mem' : Malloc} {S T : Set Nat} (h : Holds p S) (hsub : S ⊆ T)
    (hmem : mem 0 = false) : SetTo p mem T ⟨SQLITE_NOMEM, p, mem'⟩ := by
  refine ⟨rfl, id, ⟨S, h, hsub, fun hrc => absurd hrc (show ¬SQLITE_NOMEM = SQLITE_OK by decide)⟩, fun hall => ?_⟩
  rw [hall 0] at hmem
  cases hmem

/-- The bits of the values of a table. -/
def bits (l : List UInt32) : Set Nat := {i | ∃ v ∈ l, v ≠ 0 ∧ v.toNat - 1 = i}

theorem bits_cons {v : UInt32} (hv : v ≠ 0) (l : List UInt32) : bits (v :: l) = insert (v.toNat - 1) (bits l) := by
  ext i
  simp only [bits, Set.mem_insert_iff]
  constructor
  · intro h
    obtain ⟨w, hmem, hw, hi⟩ := h
    rcases List.mem_cons.mp hmem with rfl | hmem
    · exact .inl hi.symm
    · exact .inr ⟨w, hmem, hw, hi⟩
  · intro h
    rcases h with rfl | ⟨w, hmem, hw, hi⟩
    · exact ⟨v, List.mem_cons_self, hv, rfl⟩
    · exact ⟨w, List.mem_cons_of_mem _ hmem, hw, hi⟩

/-- The values of a table are set again in a split bitmap, one by one. -/
theorem setAgain_spec {set : Bitvec → UInt32 → Malloc → Option SetResult} {iSize : UInt32} {l : List UInt32}
    (hset : ∀ q S v mem, q.iSize = iSize → q.iDivisor ≠ 0 → Holds q S → v ∈ l → v ≠ 0 →
      ∃ s, set q v mem = some s ∧ SetTo q mem (insert (v.toNat - 1) S) s)
    {p : Bitvec} {mem : Malloc} {T : Set Nat} {s : SetResult} (hs : SetTo p mem T s) (hsize : p.iSize = iSize)
    (hd : p.iDivisor ≠ 0) : ∃ s', l.foldlM (setAgain set) s = some s' ∧ SetTo p mem (T ∪ bits l) s' := by
  induction l generalizing T s with
  | nil =>
    refine ⟨s, rfl, ?_⟩
    have hempty : T ∪ bits [] = T := by
      simp [bits]
    rwa [hempty]
  | cons v l ih =>
    have hrest := @ih fun q S v mem hq hd h hv => hset q S v mem hq hd h (List.mem_cons_of_mem _ hv)
    by_cases hv : v = 0
    · have hbits : bits (v :: l) = bits l := by
        ext i
        simp [bits, hv]
      have hstep : setAgain set s v = some s := if_neg (fun hne => hne hv)
      rw [hbits, List.foldlM_cons, hstep]
      exact hrest hs
    · obtain ⟨S, hS, hsub, hok⟩ := hs.holds
      obtain ⟨s', hs', hto⟩ := hset s.p S v s.mem (hs.size.trans hsize) (hs.divided hd) hS List.mem_cons_self hv
      have hstep : setAgain set s v = some { s' with rc := s.rc ||| s'.rc } := by
        rw [setAgain, if_pos hv, hs']
        rfl
      have hbits : T ∪ bits (v :: l) = insert (v.toNat - 1) T ∪ bits l := by
        rw [bits_cons hv, Set.union_insert, Set.insert_union]
      rw [hbits, List.foldlM_cons, hstep]
      apply hrest
      obtain ⟨S', hS', hsub', hok'⟩ := hto.holds
      refine ⟨hto.size.trans hs.size, fun hd => hto.divided (hs.divided hd), ⟨S', hS', ?_, ?_⟩, ?_⟩
      · exact hsub'.trans (Set.insert_subset_insert hsub)
      · intro hrc
        obtain ⟨hrc, hrc'⟩ := UInt32.or_eq_zero_iff.mp hrc
        rw [hok' hrc', hok hrc]
      · intro hmem
        obtain ⟨hrc, hmem⟩ := hs.granted hmem
        obtain ⟨hrc', hmem⟩ := hto.granted hmem
        refine ⟨?_, hmem⟩
        rw [hrc, hrc']
        rfl

variable {p : Bitvec} {S : Set Nat} {i : UInt32}

/-- A value put into the table. -/
theorem Hashed.setEnd (h : Hashed p a S) (hi : i < p.iSize) {d : Nat}
    (hpassed : ∀ k < d, a[(home (i + 1) + k) % BITVEC_NINT]? ≠ some 0)
    (hget : a[(home (i + 1) + d) % BITVEC_NINT]? = some 0) (hroom : p.nSet.toNat + 1 < BITVEC_NINT) :
    Holds (setEnd p a ((home (i + 1) + d) % BITVEC_NINT) (i + 1)) (insert i.toNat S) := by
  have hne := succ_ne_zero hi
  have hn : (p.nSet + 1).toNat = p.nSet.toNat + 1 := by
    have : BITVEC_NINT < 2 ^ 32 := by decide
    rw [UInt32.toNat_add, UInt32.toNat_one, Nat.mod_eq_of_lt (by omega)]
  refine .aHash ⟨h.divisor, rfl, h.size, ?_, ?_, fun v hv => ?_⟩
  · show Table _ (p.nSet + 1).toNat
    rw [hn]
    exact h.table.store hne hpassed hget hroom
  · intro j hj
    rcases hj with rfl | hj
    · exact UInt32.lt_iff_toNat_lt.mp hi
    · exact h.bound j hj
  · rw [mem_store hget hv, h.values v hv, Set.mem_insert_iff]
    have hpos : v.toNat ≠ 0 := fun h => hv (UInt32.toNat_inj.mp h)
    have hiff : v = i + 1 ↔ v.toNat - 1 = i.toNat := by
      rw [← UInt32.toNat_inj, succ_toNat hi]
      omega
    rw [hiff]

/-- The bits of the table's values. -/
theorem Hashed.bits (h : Hashed p a S) : bits a = S := by
  ext i
  constructor
  · intro hi
    obtain ⟨v, hmem, hv, rfl⟩ := hi
    exact (h.values v hv).mp hmem
  · intro hi
    have hlt := h.bound i hi
    have hsize := p.iSize.toNat_lt
    have hv : (UInt32.ofNat (i + 1)).toNat = i + 1 := by
      rw [UInt32.toNat_ofNat', Nat.mod_eq_of_lt (by omega)]
    have hne : UInt32.ofNat (i + 1) ≠ 0 := fun hzero => by rw [hzero] at hv; cases hv
    refine ⟨UInt32.ofNat (i + 1), (h.values _ hne).mpr ?_, hne, ?_⟩
    · rwa [hv]
    · rw [hv, Nat.add_sub_cancel]

/-- `set` works on split bitmaps of this size. -/
def SetsSplit (set : Bitvec → UInt32 → Malloc → Option SetResult) (iSize : UInt32) : Prop :=
  ∀ q T v mem, q.iSize = iSize → q.iDivisor ≠ 0 → Holds q T → v ≠ 0 → v.toNat ≤ iSize.toNat →
    ∃ s, set q v mem = some s ∧ SetTo q mem (insert (v.toNat - 1) T) s

theorem Hashed.setRehash (h : Hashed p a S) {set : Bitvec → UInt32 → Malloc → Option SetResult}
    (hset : SetsSplit set p.iSize) (hi : i < p.iSize) {d : Nat}
    (hpassed : ∀ k < d, a[(home (i + 1) + k) % BITVEC_NINT]? ≠ some 0)
    (hget : a[(home (i + 1) + d) % BITVEC_NINT]? = some 0) (mem : Malloc) :
    ∃ s, setRehash set p a ((home (i + 1) + d) % BITVEC_NINT) (i + 1) mem = some s ∧
      SetTo p mem (insert i.toNat S) s := by
  have hne := succ_ne_zero hi
  have hlt := UInt32.lt_iff_toNat_lt.mp hi
  unfold Sqlite.setRehash
  split
  · split
    · have hd : (split p).iDivisor ≠ 0 := ne_zero_of_pos (divided_split h.size).divisor_pos
      obtain ⟨s, hs, hto⟩ := hset (split p) ∅ (i + 1) mem.later rfl hd (holds_split h.size) hne
        (by rw [succ_toNat hi]; omega)
      have hagain (q T v mem) (hq : q.iSize = p.iSize) (hqd : q.iDivisor ≠ 0) (hT : Holds q T) (hv : v ∈ a)
          (hvne : v ≠ 0) : ∃ s, set q v mem = some s ∧ SetTo q mem (insert (v.toNat - 1) T) s := by
        have hvlt := h.bound _ ((h.values v hvne).mp hv)
        exact hset q T v mem hq hqd hT hvne (by omega)
      obtain ⟨s', hs', hto'⟩ := setAgain_spec hagain hto rfl hd
      rw [h.bits, succ_toNat hi, Nat.add_sub_cancel, Set.insert_union, Set.empty_union] at hto'
      refine ⟨s', by rw [hs]; exact hs', hto'.size, fun hne => absurd h.divisor hne, hto'.holds, ?_⟩
      exact fun hmem => hto'.granted hmem.later
    · rename_i hmem
      exact ⟨_, rfl, .nomem (.aHash h) (Set.subset_insert _ _) (Bool.eq_false_of_not_eq_true hmem)⟩
  · rename_i hfew
    have hroom : p.nSet.toNat + 1 < BITVEC_NINT := by
      have : BITVEC_MXHASH < BITVEC_NINT := by decide
      omega
    exact ⟨_, rfl, .ok rfl id (h.setEnd hi hpassed hget hroom)⟩

/-- A byte of a straight bitmap replaced by `c`, which has the value `v` for its `i`th bit and the old ones for the
others. -/
theorem Straight.set {a : List UInt8} (h : Straight p a S) {b c : UInt8} {v : Bool}
    (hget : a[i.toNat / BITVEC_SZELEM]? = some b)
    (hc : ∀ j < BITVEC_SZELEM, c.toNat.testBit j =
      if i.toNat % BITVEC_SZELEM = j then v else b.toNat.testBit j) {T : Set Nat} (hbound : ∀ j ∈ T, j < p.iSize.toNat)
    (hT : ∀ j, j ∈ T ↔ if j = i.toNat then v = true else j ∈ S) :
    Holds { p with u := .aBitmap (a.set (i.toNat / BITVEC_SZELEM) c) } T := by
  refine .aBitmap ⟨h.divisor, rfl, h.size, List.length_set.trans h.length, hbound, fun j hj => ?_⟩
  rw [bitOf_set hget hc, hT, h.bits j hj]

theorem Straight.setLeaf {a : List UInt8} (h : Straight p a S)
    (set : Bitvec → UInt32 → Malloc → Option SetResult) (hi : i < p.iSize) (mem : Malloc) :
    ∃ s, setLeaf set p i mem = some s ∧ SetTo p mem (insert i.toNat S) s := by
  obtain ⟨b, hget⟩ := exists_byte h.length h.size hi
  refine ⟨⟨SQLITE_OK, { p with u := .aBitmap (a.set (i.toNat / BITVEC_SZELEM) (b ||| bitMask i)) }, mem⟩, ?_, ?_⟩
  · rw [Sqlite.setLeaf, if_pos h.size, h.u]
    simp only [hget, Option.bind_eq_bind, Option.bind_some]
    rfl
  · refine SetTo.ok rfl id (h.set (v := true) hget ?_ ?_ ?_)
    · intro j _
      rw [or_bitMask]
      by_cases hj : i.toNat % BITVEC_SZELEM = j <;> simp [hj]
    · intro j hj
      rcases hj with rfl | hj
      · exact UInt32.lt_iff_toNat_lt.mp hi
      · exact h.bound j hj
    · intro j
      rw [Set.mem_insert_iff]
      by_cases hj : j = i.toNat <;> simp [hj]

theorem Hashed.setLeaf (h : Hashed p a S) {set : Bitvec → UInt32 → Malloc → Option SetResult}
    (hset : SetsSplit set p.iSize) (hi : i < p.iSize) (mem : Malloc) :
    ∃ s, setLeaf set p i mem = some s ∧ SetTo p mem (insert i.toNat S) s := by
  have hne := succ_ne_zero hi
  have hmem : i + 1 ∈ a ↔ i.toNat ∈ S := by
    rw [h.values _ hne, succ_toNat hi, Nat.add_sub_cancel]
  have hstart : home (i + 1) % BITVEC_NINT = BITVEC_HASH i := by
    rw [home_succ, Nat.mod_eq_of_lt (hash_lt i)]
  have hlt : BITVEC_HASH i < a.length := h.table.length.symm ▸ hash_lt i
  rw [Sqlite.setLeaf, if_neg (Nat.not_le.mpr h.size), h.u]
  obtain ⟨y, hy⟩ : ∃ y, a[BITVEC_HASH i]? = some y := ⟨_, List.getElem?_eq_getElem hlt⟩
  simp only [hy, Option.bind_eq_bind, Option.bind_some]
  by_cases hzero : y = 0
  · -- the home slot is free
    rw [if_pos hzero]
    rw [hzero, ← hstart] at hy
    have hnone : ∀ k < 0, a[(home (i + 1) + k) % BITVEC_NINT]? ≠ some 0 := fun k hk => absurd hk (Nat.not_lt_zero k)
    rw [← hstart]
    split
    · rename_i hroom
      exact ⟨_, rfl, .ok rfl id (h.setEnd hi hnone hy (by omega))⟩
    · exact h.setRehash hset hi hnone hy mem
  · rw [if_neg hzero]
    have hspec := setPass_spec h.table hne (by rw [hy]; exact fun hsome => hzero (Option.some.inj hsome))
    by_cases hin : i + 1 ∈ a
    · rw [if_pos hin] at hspec
      rw [hspec, Set.insert_eq_of_mem (hmem.mp hin)]
      exact ⟨_, rfl, .ok rfl id (.aHash h)⟩
    · rw [if_neg hin] at hspec
      obtain ⟨d, hpassed, hget, hrun⟩ := hspec
      rw [hrun]
      exact h.setRehash hset hi hpassed hget mem

/-! ### The operations, through the sub-bitmaps -/

theorem subOrCreate_spec {a : List (Option Bitvec)} (h : Divided p a S)
    (hsubs : ∀ (bin : Nat) (c : Bitvec), a[bin]? = some (some c) → Holds c (part S p.iDivisor.toNat bin))
    {bin : Nat} {sub : Option Bitvec} (hget : a[bin]? = some sub) (mem : Malloc) :
    ((∃ mem', subOrCreate p sub mem = (none, mem')) ∧ mem 0 = false) ∨
      ∃ c mem', subOrCreate p sub mem = (some c, mem') ∧ c.iSize = p.iDivisor ∧
        Holds c (part S p.iDivisor.toNat bin) ∧ (mem.Granted → mem'.Granted) := by
  cases sub with
  | some c => exact .inr ⟨c, mem, rfl, h.sizes bin c hget, hsubs bin c hget, id⟩
  | none =>
    cases hmem : mem 0 with
    | false =>
      refine .inl ⟨⟨mem.later, ?_⟩, rfl⟩
      rw [subOrCreate, sqlite3BitvecCreate, hmem]
      rfl
    | true =>
      refine .inr ⟨zeroed p.iDivisor, mem.later, ?_, rfl, ?_, Malloc.Granted.later⟩
      · rw [subOrCreate, sqlite3BitvecCreate, hmem]
        rfl
      · rw [h.absent bin hget]
        exact holds_zeroed _

/-- A `Set` in a sub-bitmap is one in the whole. -/
theorem Divided.setTo {a : List (Option Bitvec)} (h : Divided p a S)
    (hsubs : ∀ (bin : Nat) (c : Bitvec), a[bin]? = some (some c) → Holds c (part S p.iDivisor.toNat bin))
    (hi : i < p.iSize) {c : Bitvec} {mem mem' : Malloc} (hsize : c.iSize = p.iDivisor)
    (hmem : mem.Granted → mem'.Granted) {s : SetResult}
    (hs : SetTo c mem' (insert (i % p.iDivisor).toNat (part S p.iDivisor.toNat (i / p.iDivisor).toNat)) s) :
    SetTo p mem (insert i.toNat S) { s with p := { p with u := .apSub (a.set (i / p.iDivisor).toNat (some s.p)) } } := by
  obtain ⟨U, hU, hsub, hok⟩ := hs.holds
  obtain ⟨sub, hget⟩ := h.exists_sub hi
  obtain ⟨hbin, -⟩ := List.getElem?_eq_some_iff.mp hget
  have hinsert : Sqlite.graft S p.iDivisor.toNat (i / p.iDivisor).toNat
      (insert (i % p.iDivisor).toNat (part S p.iDivisor.toNat (i / p.iDivisor).toNat)) = insert i.toNat S := by
    rw [UInt32.toNat_div, UInt32.toNat_mod]
    apply graft_change h.divisor_pos
    · exact fun j hj => Set.mem_insert_iff.trans (or_iff_right hj)
    · exact fun j hj => Set.mem_insert_iff.trans (or_iff_right hj)
    · exact iff_of_true (Set.mem_insert _ _) (Set.mem_insert _ _)
  have hgraft : Sqlite.graft S p.iDivisor.toNat (i / p.iDivisor).toNat U ⊆ insert i.toNat S :=
    hinsert ▸ graft_mono hsub
  refine ⟨rfl, id, ⟨_, h.graft hsubs hbin (hs.size.trans hsize) hU ?_, hgraft, fun hrc => ?_⟩, ?_⟩
  · intro j hj
    rcases hgraft hj with rfl | hj
    · exact UInt32.lt_iff_toNat_lt.mp hi
    · exact h.bound j hj
  · rw [hok hrc, hinsert]
  · exact fun hall => hs.granted (hmem hall)

theorem Divided.setLoop {a : List (Option Bitvec)} (h : Divided p a S)
    (hsubs : ∀ (bin : Nat) (c : Bitvec), a[bin]? = some (some c) → Holds c (part S p.iDivisor.toNat bin))
    (hi : i < p.iSize) {n : Nat}
    (hchild : ∀ c U mem, c.iSize = p.iDivisor → Holds c U →
      ∃ s, setLoop n c (i % p.iDivisor) mem = some s ∧ SetTo c mem (insert (i % p.iDivisor).toNat U) s)
    (mem : Malloc) : ∃ s, setLoop (n + 1) p i mem = some s ∧ SetTo p mem (insert i.toNat S) s := by
  obtain ⟨sub, hget⟩ := h.exists_sub hi
  have hcond : p.iSize.toNat > BITVEC_NBIT ∧ p.iDivisor ≠ 0 := ⟨h.size, ne_zero_of_pos h.divisor_pos⟩
  rw [Sqlite.setLoop, if_pos hcond, h.u]
  simp only [hget, Option.bind_eq_bind, Option.bind_some]
  rcases subOrCreate_spec h hsubs hget mem with ⟨⟨mem', hnone⟩, hmem⟩ | ⟨c, mem', hsome, hsize, hc, hmem⟩
  · rw [hnone]
    exact ⟨_, rfl, .nomem (.apSub h hsubs) (Set.subset_insert _ _) hmem⟩
  · obtain ⟨s, hs, hto⟩ := hchild c _ mem' hsize hc
    rw [hsome]
    simp only [hs, Option.bind_some]
    exact ⟨_, rfl, h.setTo hsubs hi hsize hmem hto⟩

theorem setLoop_leaf (hdiv : p.iDivisor = 0) (n : Nat) (mem : Malloc) :
    setLoop (n + 1) p i mem = setLeaf (fun p i mem => setLoop n p (i - 1) mem) p i mem := by
  rw [setLoop, if_neg (fun hcond => hcond.2 hdiv)]

/-- **`Set` adds the bit, in any representation.** Two rounds are enough for each time a bitmap is split. -/
theorem setLoop_spec {k : Nat} (hk : Shallow p.iSize.toNat k) (h : Holds p S) {n : Nat} (hn : 2 * k ≤ n)
    (hleaf : p.iDivisor = 0 → 2 * k < n) (hi : i < p.iSize) (mem : Malloc) :
    ∃ s, setLoop n p i mem = some s ∧ SetTo p mem (insert i.toNat S) s := by
  induction k generalizing p S i mem n with
  | zero =>
    cases h with
    | aBitmap h =>
      obtain ⟨n, rfl⟩ : ∃ m, n = m + 1 := ⟨n - 1, by have := hleaf h.divisor; omega⟩
      rw [setLoop_leaf h.divisor]
      exact h.setLeaf _ hi mem
    | aHash h =>
      obtain ⟨_, hk, -⟩ := hk.sub h.size rfl
      cases hk
    | apSub h _ =>
      obtain ⟨_, hk, -⟩ := hk.sub h.size rfl
      cases hk
  | succ k ih =>
    have hsplit {q : Bitvec} {T : Set Nat} (hq : Shallow q.iSize.toNat (k + 1)) (h : Holds q T) (hd : q.iDivisor ≠ 0)
        {m : Nat} (hm : 2 * (k + 1) ≤ m) {j : UInt32} (hj : j < q.iSize) (mem : Malloc) :
        ∃ s, setLoop m q j mem = some s ∧ SetTo q mem (insert j.toNat T) s := by
      cases h with
      | aBitmap h => exact absurd h.divisor hd
      | aHash h => exact absurd h.divisor hd
      | apSub h hsubs =>
        obtain ⟨m, rfl⟩ : ∃ l, m = l + 1 := ⟨m - 1, by omega⟩
        obtain ⟨k', hk', hshallow⟩ := hq.sub h.size h.divisor
        cases hk'
        refine h.setLoop hsubs hj (fun c U mem hsize hc => ?_) mem
        refine ih (by rw [hsize]; exact hshallow) hc (by omega) (fun _ => by omega) ?_ mem
        rw [hsize, UInt32.lt_iff_toNat_lt, UInt32.toNat_mod]
        exact Nat.mod_lt _ h.divisor_pos
    by_cases hd : p.iDivisor = 0
    · have hlt := hleaf hd
      obtain ⟨n, rfl⟩ : ∃ m, n = m + 1 := ⟨n - 1, by omega⟩
      rw [setLoop_leaf hd]
      cases h with
      | aBitmap h => exact h.setLeaf _ hi mem
      | aHash h =>
        refine h.setLeaf (fun q T v mem hq hqd hT hv hle => ?_) hi mem
        rw [← pred_toNat hv]
        exact hsplit (hq ▸ hk) hT hqd (by omega) (hq ▸ pred_lt hv hle) mem
      | apSub h _ => exact absurd hd (ne_zero_of_pos h.divisor_pos)
    · exact hsplit hk h hd hn hi mem

/-! ### Clear -/

theorem used_cons {v : UInt32} (hv : v ≠ 0) (l : List UInt32) : used 0 (v :: l) = used 0 l + 1 :=
  List.countP_cons_of_pos (by simpa using hv)

theorem used_cons_le (v : UInt32) (l : List UInt32) : used 0 l ≤ used 0 (v :: l) :=
  List.Sublist.countP_le (List.sublist_cons_self v l)

/-- The table made again of its values, without one of them. -/
theorem clearAgain_spec {l : List UInt32} {nSet : UInt32} {a : List UInt32} (htable : Table a nSet.toNat)
    (hroom : nSet.toNat + used 0 l < BITVEC_NINT) (i : UInt32) :
    ∃ nSet' a', l.foldlM (clearAgain i) (nSet, a) = some (nSet', a') ∧ Table a' nSet'.toNat ∧
      ∀ v, v ≠ 0 → (v ∈ a' ↔ v ∈ a ∨ v ∈ l ∧ v ≠ i + 1) := by
  induction l generalizing nSet a with
  | nil => exact ⟨nSet, a, rfl, htable, fun v _ => by simp⟩
  | cons v l ih =>
    rw [List.foldlM_cons]
    by_cases hv : v ≠ 0 ∧ v ≠ i + 1
    · have hn : (nSet + 1).toNat = nSet.toNat + 1 := by
        have : BITVEC_NINT < 2 ^ 32 := by decide
        rw [UInt32.toNat_add, UInt32.toNat_one, Nat.mod_eq_of_lt (by omega)]
      rw [used_cons hv.1] at hroom
      obtain ⟨d, hpassed, hget, hrun⟩ := clearPass_spec htable v
      have hstep : clearAgain i (nSet, a) v = some (nSet + 1, a.set ((home v + d) % BITVEC_NINT) v) := by
        simp only [clearAgain, if_pos hv, hrun, Option.bind_eq_bind, Option.bind_some]
        rfl
      have hstore := htable.store hv.1 hpassed hget (by omega)
      obtain ⟨nSet', a', hfold, htable', hmem⟩ := ih (hn.symm ▸ hstore) (by omega)
      rw [hstep]
      refine ⟨nSet', a', hfold, htable', fun w hw => ?_⟩
      rw [hmem w hw, mem_store hget hw, List.mem_cons]
      constructor
      · intro h
        rcases h with (rfl | hw) | hw
        · exact .inr ⟨.inl rfl, hv.2⟩
        · exact .inl hw
        · exact .inr ⟨.inr hw.1, hw.2⟩
      · intro h
        rcases h with hw | ⟨rfl | hw, hne⟩
        · exact .inl (.inr hw)
        · exact .inl (.inl rfl)
        · exact .inr ⟨hw, hne⟩
    · have hstep : clearAgain i (nSet, a) v = some (nSet, a) := if_neg hv
      obtain ⟨nSet', a', hfold, htable', hmem⟩ := ih htable (by have := used_cons_le v l; omega)
      rw [hstep]
      refine ⟨nSet', a', hfold, htable', fun w hw => ?_⟩
      rw [hmem w hw, List.mem_cons]
      have hskip : w = v → ¬w ≠ i + 1 := by
        intro hwv hne
        exact hv (hwv ▸ ⟨hw, hne⟩)
      tauto

theorem Straight.clearLeaf {a : List UInt8} (h : Straight p a S) (hi : i < p.iSize) :
    ∃ p', clearLeaf p i = some p' ∧ p'.iSize = p.iSize ∧ Holds p' (S \ {i.toNat}) := by
  obtain ⟨b, hget⟩ := exists_byte h.length h.size hi
  refine ⟨{ p with u := .aBitmap (a.set (i.toNat / BITVEC_SZELEM) (b &&& ~~~bitMask i)) }, ?_, rfl, ?_⟩
  · rw [Sqlite.clearLeaf, if_pos h.size, h.u]
    simp only [hget, Option.bind_eq_bind, Option.bind_some]
    rfl
  · apply h.set (v := false) hget
    · intro j hj
      rw [andNot_bitMask b i hj]
      by_cases hj : i.toNat % BITVEC_SZELEM = j <;> simp [hj]
    · exact fun j hj => h.bound j hj.1
    · intro j
      rw [Set.mem_sdiff, Set.mem_singleton_iff]
      by_cases hj : j = i.toNat <;> simp [hj]

theorem Hashed.clearLeaf {a : List UInt32} (h : Hashed p a S) (hi : i < p.iSize) :
    ∃ p', clearLeaf p i = some p' ∧ p'.iSize = p.iSize ∧ Holds p' (S \ {i.toNat}) := by
  have hroom : (0 : UInt32).toNat + used 0 a < BITVEC_NINT := by
    rw [h.table.count, UInt32.toNat_zero, Nat.zero_add]
    exact h.table.room
  obtain ⟨nSet, a', hfold, htable, hmem⟩ := @clearAgain_spec a 0 _ table_zero hroom i
  refine ⟨{ p with nSet, u := .aHash a' }, ?_, rfl, ?_⟩
  · rw [Sqlite.clearLeaf, if_neg (Nat.not_le.mpr h.size), h.u]
    simp only [hfold, Option.bind_eq_bind, Option.bind_some]
    rfl
  · refine .aHash ⟨h.divisor, rfl, h.size, htable, fun j hj => h.bound j hj.1, fun v hv => ?_⟩
    have hzero : v ∉ List.replicate BITVEC_NINT 0 := fun hin => hv (List.eq_of_mem_replicate hin)
    have hpos : v.toNat ≠ 0 := fun h => hv (UInt32.toNat_inj.mp h)
    have hiff : v ≠ i + 1 ↔ v.toNat - 1 ≠ i.toNat := by
      rw [← UInt32.toNat_inj.ne, succ_toNat hi]
      omega
    rw [hmem v hv, or_iff_right hzero, h.values v hv, hiff, Set.mem_sdiff, Set.mem_singleton_iff]

/-- Without a sub-bitmap for it, the bit is not in. -/
theorem Divided.clear_absent {a : List (Option Bitvec)} (h : Divided p a S)
    (hget : a[(i / p.iDivisor).toNat]? = some none) : S \ {i.toNat} = S := by
  refine Set.sdiff_singleton_eq_self fun hmem => ?_
  have hempty := (mem_part (S := S) (i := i) h.divisor_pos).mpr hmem
  rw [h.absent _ hget] at hempty
  exact hempty

/-- A bit taken out of its sub-bitmap is taken out of the whole. -/
theorem Divided.clear_sub {a : List (Option Bitvec)} (h : Divided p a S)
    (hsubs : ∀ (bin : Nat) (c : Bitvec), a[bin]? = some (some c) → Holds c (part S p.iDivisor.toNat bin))
    {c c' : Bitvec} (hget : a[(i / p.iDivisor).toNat]? = some (some c)) (hsize : c'.iSize = c.iSize)
    (hc : Holds c' (part S p.iDivisor.toNat (i / p.iDivisor).toNat \ {(i % p.iDivisor).toNat})) :
    Holds { p with u := .apSub (a.set (i / p.iDivisor).toNat (some c')) } (S \ {i.toNat}) := by
  have hdiff : Sqlite.graft S p.iDivisor.toNat (i / p.iDivisor).toNat
      (part S p.iDivisor.toNat (i / p.iDivisor).toNat \ {(i % p.iDivisor).toNat}) = S \ {i.toNat} := by
    rw [UInt32.toNat_div, UInt32.toNat_mod]
    apply graft_change h.divisor_pos
    · exact fun j hj => and_iff_left hj
    · exact fun j hj => and_iff_left hj
    · exact iff_of_false (fun hmem => hmem.2 rfl) (fun hmem => hmem.2 rfl)
  obtain ⟨hbin, -⟩ := List.getElem?_eq_some_iff.mp hget
  rw [← hdiff]
  apply h.graft hsubs hbin (hsize.trans (h.sizes _ c hget)) hc
  rw [hdiff]
  exact fun j hj => h.bound j hj.1

theorem clearLoop_leaf (hdiv : p.iDivisor = 0) (n : Nat) : clearLoop (n + 1) p i = clearLeaf p i := by
  rw [clearLoop, if_neg (fun hne => hne hdiv)]

/-- **`Clear` takes the bit out, in any representation.** -/
theorem clearLoop_spec {k : Nat} (hk : Shallow p.iSize.toNat k) (h : Holds p S) {n : Nat} (hn : k < n)
    (hi : i < p.iSize) : ∃ p', clearLoop n p i = some p' ∧ p'.iSize = p.iSize ∧ Holds p' (S \ {i.toNat}) := by
  obtain ⟨n, rfl⟩ : ∃ m, n = m + 1 := ⟨n - 1, by omega⟩
  induction h generalizing k n i with
  | aBitmap h =>
    rw [clearLoop_leaf h.divisor]
    exact h.clearLeaf hi
  | aHash h =>
    rw [clearLoop_leaf h.divisor]
    exact h.clearLeaf hi
  | @apSub p a S h hsubs ih =>
    obtain ⟨k', rfl, hk'⟩ := hk.sub h.size h.divisor
    obtain ⟨sub, hget⟩ := h.exists_sub hi
    rw [clearLoop, if_pos (ne_zero_of_pos h.divisor_pos), h.u]
    simp only [hget]
    cases sub with
    | none =>
      refine ⟨p, rfl, rfl, ?_⟩
      rw [h.clear_absent hget]
      exact .apSub h hsubs
    | some c =>
      have hsize := h.sizes _ c hget
      have hlt : i % p.iDivisor < c.iSize := by
        rw [hsize, UInt32.lt_iff_toNat_lt, UInt32.toNat_mod]
        exact Nat.mod_lt _ h.divisor_pos
      obtain ⟨m, rfl⟩ : ∃ m, n = m + 1 := ⟨n - 1, by omega⟩
      obtain ⟨c', hc, hsize', hholds⟩ := ih _ c hget (hsize ▸ hk') hlt m (Nat.lt_of_succ_lt_succ hn)
      simp only [hc, Option.bind_eq_bind, Option.bind_some]
      exact ⟨_, rfl, rfl, h.clear_sub hsubs hget hsize' hholds⟩

/-! ### Runs -/

/-- The operations that change a bitmap, on bits counted from 1. -/
inductive BitvecOp where
  | set (i : UInt32)
  | clear (i : UInt32)

def BitvecOp.bit : BitvecOp → UInt32
  | .set i | .clear i => i

/-- One operation; the codes are collected, as callers do. -/
def BitvecOp.run (s : SetResult) : BitvecOp → Option SetResult
  | .set i => (sqlite3BitvecSet s.p i s.mem).map fun s' => { s' with rc := s.rc ||| s'.rc }
  | .clear i => (sqlite3BitvecClear s.p i).map fun p => { s with p }

/-- The operation on a set. -/
def BitvecOp.apply (U : Set UInt32) : BitvecOp → Set UInt32
  | .set i => insert i U
  | .clear i => U \ {i}

/-- The bits counted from 0. -/
def lower (U : Set UInt32) : Set Nat := (fun i => i.toNat - 1) '' U

theorem lower_insert (U : Set UInt32) (i : UInt32) : lower (insert i U) = insert (i.toNat - 1) (lower U) :=
  Set.image_insert_eq

theorem mem_lower {U : Set UInt32} (hU : ∀ j ∈ U, j ≠ 0) {i : UInt32} (hi : i ≠ 0) : i.toNat - 1 ∈ lower U ↔ i ∈ U := by
  constructor
  · intro h
    obtain ⟨j, hj, hij⟩ := h
    have hpos : i.toNat ≠ 0 := fun h => hi (UInt32.toNat_inj.mp h)
    have hpos' : j.toNat ≠ 0 := fun h => hU j hj (UInt32.toNat_inj.mp h)
    have heq : i = j := by
      rw [← UInt32.toNat_inj]
      simp only at hij
      omega
    exact heq ▸ hj
  · exact fun h => ⟨i, h, rfl⟩

theorem lower_diff {U : Set UInt32} (hU : ∀ j ∈ U, j ≠ 0) {i : UInt32} (hi : i ≠ 0) :
    lower (U \ {i}) = lower U \ {i.toNat - 1} := by
  ext n
  constructor
  · intro h
    obtain ⟨j, hj, rfl⟩ := h
    refine ⟨⟨j, hj.1, rfl⟩, fun heq => hj.2 ?_⟩
    have hone : i.toNat - 1 ∈ lower {j} := ⟨j, rfl, heq⟩
    have hsingle : ∀ l ∈ ({j} : Set UInt32), l ≠ 0 := fun l hl => hl ▸ hU j hj.1
    exact ((mem_lower hsingle hi).mp hone).symm
  · intro h
    obtain ⟨⟨j, hj, rfl⟩, hne⟩ := h
    exact ⟨j, ⟨hj, fun heq => hne (by rw [heq]; rfl)⟩, rfl⟩

/-- After some operations the bitmap has no bit but those of the set, and if none failed it has all. -/
structure Tracks (iSize : UInt32) (mem : Malloc) (U : Set UInt32) (s : SetResult) : Prop where
  size : s.p.iSize = iSize
  range : ∀ i ∈ U, i ≠ 0 ∧ i.toNat ≤ iSize.toNat
  holds : ∃ S, Holds s.p S ∧ S ⊆ lower U ∧ (s.rc = SQLITE_OK → S = lower U)
  granted : mem.Granted → s.rc = SQLITE_OK ∧ s.mem.Granted

theorem Tracks.step {iSize : UInt32} {mem : Malloc} {U : Set UInt32} {s : SetResult} (h : Tracks iSize mem U s)
    {op : BitvecOp} (hne : op.bit ≠ 0) (hle : op.bit.toNat ≤ iSize.toNat) :
    ∃ s', op.run s = some s' ∧ Tracks iSize mem (op.apply U) s' := by
  obtain ⟨S, hS, hsub, hok⟩ := h.holds
  have hlt : op.bit - 1 < s.p.iSize := h.size ▸ pred_lt hne hle
  have hshallow := shallow_all s.p.iSize
  cases op with
  | set i =>
    obtain ⟨s', hs', hto⟩ := setLoop_spec hshallow hS (by decide : 2 * 4 ≤ BITVEC_DEPTH) (fun _ => by decide) hlt s.mem
    obtain ⟨S', hS', hsub', hok'⟩ := hto.holds
    have hbit : (BitvecOp.bit (.set i) - 1).toNat = i.toNat - 1 := pred_toNat hne
    rw [hbit] at hsub' hok'
    refine ⟨{ s' with rc := s.rc ||| s'.rc }, congrArg (Option.map _) hs', hto.size.trans h.size, ?_,
      ⟨S', hS', ?_, ?_⟩, ?_⟩
    · intro j hj
      rcases hj with rfl | hj
      · exact ⟨hne, hle⟩
      · exact h.range j hj
    · rw [BitvecOp.apply, lower_insert]
      exact hsub'.trans (Set.insert_subset_insert hsub)
    · intro hrc
      obtain ⟨hrc, hrc'⟩ := UInt32.or_eq_zero_iff.mp hrc
      rw [hok' hrc', hok hrc, BitvecOp.apply, lower_insert]
    · intro hmem
      obtain ⟨hrc, hmem⟩ := h.granted hmem
      obtain ⟨hrc', hmem⟩ := hto.granted hmem
      refine ⟨?_, hmem⟩
      rw [hrc, hrc']
      rfl
  | clear i =>
    obtain ⟨p', hp', hsize, hS'⟩ := clearLoop_spec hshallow hS (by decide : 4 < BITVEC_DEPTH) hlt
    have hbit : (BitvecOp.bit (.clear i) - 1).toNat = i.toNat - 1 := pred_toNat hne
    have hdiff := lower_diff (fun j hj => (h.range j hj).1) hne
    rw [hbit] at hS'
    refine ⟨{ s with p := p' }, congrArg (Option.map _) hp', hsize.trans h.size, fun j hj => h.range j hj.1,
      ⟨_, hS', ?_, ?_⟩, h.granted⟩
    · exact (Set.sdiff_subset_sdiff_left hsub).trans_eq hdiff.symm
    · intro hrc
      rw [hok hrc]
      exact hdiff.symm

theorem Tracks.run {iSize : UInt32} {mem : Malloc} {ops : List BitvecOp}
    (hops : ∀ op ∈ ops, op.bit ≠ 0 ∧ op.bit.toNat ≤ iSize.toNat) {U : Set UInt32} {s : SetResult}
    (h : Tracks iSize mem U s) :
    ∃ s', ops.foldlM BitvecOp.run s = some s' ∧ Tracks iSize mem (ops.foldl BitvecOp.apply U) s' := by
  induction ops generalizing U s with
  | nil => exact ⟨s, rfl, h⟩
  | cons op ops ih =>
    obtain ⟨hne, hle⟩ := hops op List.mem_cons_self
    obtain ⟨s', hs', h'⟩ := h.step hne hle
    rw [List.foldlM_cons, hs']
    exact ih (fun op hop => hops op (List.mem_cons_of_mem _ hop)) h'

/-- `Test` of any number, in range or not. -/
theorem Tracks.test {iSize : UInt32} {mem : Malloc} {U : Set UInt32} {s : SetResult} (h : Tracks iSize mem U s)
    (i : UInt32) : ∃ b, sqlite3BitvecTest (some s.p) i = some b ∧ (b = true → i ∈ U) ∧
      (s.rc = SQLITE_OK → (b = true ↔ i ∈ U)) := by
  obtain ⟨S, hS, hsub, hok⟩ := h.holds
  have hU (j : UInt32) (hj : j ∈ U) : j ≠ 0 := (h.range j hj).1
  by_cases hi : i - 1 ≥ s.p.iSize
  · have hout : i ∉ U := fun hmem => by
      have hlt := pred_lt (h.range i hmem).1 (h.range i hmem).2
      rw [h.size] at hi
      exact UInt32.not_lt.mpr hi hlt
    exact ⟨false, if_pos hi, fun hb => Bool.noConfusion hb, fun _ => iff_of_false Bool.false_ne_true hout⟩
  · have hlt : i - 1 < s.p.iSize := UInt32.not_le.mp hi
    have hne : i ≠ 0 := by
      intro hzero
      rw [hzero, UInt32.lt_iff_toNat_lt] at hlt
      have := s.p.iSize.toNat_lt
      exact absurd hlt (by show ¬4294967295 < _; omega)
    obtain ⟨b, hb, hiff⟩ := testLoop_spec hS (shallow_all _) (by decide : 4 < BITVEC_DEPTH) hlt
    rw [pred_toNat hne] at hiff
    refine ⟨b, (if_neg hi).trans hb, fun hb => (mem_lower hU hne).mp (hsub (hiff.mp hb)), fun hrc => ?_⟩
    rw [hiff, hok hrc, mem_lower hU hne]

/-- **A bitmap is a set.** After any operations on bits in its range, `Test` finds only bits of the set
they make, and all of them unless a `Set` has failed; none fails unless the allocator does. -/
theorem bitvec_set {iSize : UInt32} {mem mem' : Malloc} {p : Bitvec}
    (hcreate : sqlite3BitvecCreate iSize mem = (some p, mem')) {ops : List BitvecOp}
    (hops : ∀ op ∈ ops, op.bit ≠ 0 ∧ op.bit.toNat ≤ iSize.toNat) :
    ∃ s, ops.foldlM BitvecOp.run ⟨SQLITE_OK, p, mem'⟩ = some s ∧ sqlite3BitvecSize s.p = iSize ∧
      (∀ i, ∃ b, sqlite3BitvecTest (some s.p) i = some b ∧ (b = true → i ∈ ops.foldl BitvecOp.apply ∅) ∧
        (s.rc = SQLITE_OK → (b = true ↔ i ∈ ops.foldl BitvecOp.apply ∅))) ∧
      (mem'.Granted → s.rc = SQLITE_OK) := by
  have hp : p = zeroed iSize := by
    obtain ⟨hp, -⟩ := Prod.mk.inj hcreate
    split at hp
    · exact (Option.some.inj hp).symm
    · cases hp
  have hlower : lower ∅ = ∅ := Set.image_empty _
  have hstart : Tracks iSize mem' ∅ ⟨SQLITE_OK, p, mem'⟩ := by
    rw [hp]
    refine ⟨rfl, fun i hi => hi.elim, ⟨∅, holds_zeroed iSize, Set.empty_subset _, fun _ => hlower.symm⟩, ?_⟩
    exact fun hmem => ⟨rfl, hmem⟩
  obtain ⟨s, hs, htracks⟩ := hstart.run hops
  exact ⟨s, hs, htracks.size, htracks.test, fun hmem => (htracks.granted hmem).1⟩

/-- Two numbers with one home slot, and one that is taken out again. -/
theorem sampleBits_set :
    ∃ s, [.set 5000, .set 1, .set 125, .clear 5000].foldlM BitvecOp.run ⟨SQLITE_OK, zeroed 5000, fun _ => true⟩ = some s ∧
      sqlite3BitvecTest (some s.p) 125 = some true ∧ sqlite3BitvecTest (some s.p) 5000 = some false := by
  have hcreate : sqlite3BitvecCreate 5000 (fun _ => true) = (some (zeroed 5000), fun _ => true) := rfl
  have hops : ∀ op ∈ [.set 5000, .set 1, .set 125, .clear 5000],
      BitvecOp.bit op ≠ 0 ∧ (BitvecOp.bit op).toNat ≤ (5000 : UInt32).toNat := by
    simp [BitvecOp.bit]
  obtain ⟨s, hs, -, htest, hok⟩ := bitvec_set hcreate hops
  have hrc := hok fun _ => rfl
  have hfound (i : UInt32) : ∃ b, sqlite3BitvecTest (some s.p) i = some b ∧ (b = true ↔ (i = 125 ∨ i = 1 ∨ i = 5000) ∧ i ≠ 5000) := by
    obtain ⟨b, hb, -, hiff⟩ := htest i
    refine ⟨b, hb, (hiff hrc).trans ?_⟩
    simp [BitvecOp.apply]
  refine ⟨s, hs, ?_, ?_⟩
  · obtain ⟨b, hb, hiff⟩ := hfound 125
    rw [hb, hiff.mpr ⟨.inl rfl, by decide⟩]
  · obtain ⟨b, hb, hiff⟩ := hfound 5000
    rw [hb, Bool.eq_false_of_not_eq_true fun htrue => (hiff.mp htrue).2 rfl]

end FuzzerTestSuite.Sqlite
