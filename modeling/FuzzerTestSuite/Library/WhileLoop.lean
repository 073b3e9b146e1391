import Mathlib.Algebra.GroupWithZero.Nat

/-! While loops with an explicit number of passes.

A loop is given by what one pass does to its state: go round again, leave with a
result, or get stuck (`none`: something inside the pass never ends, or is
undefined). `run` makes at most a given number of passes. More passes never
change a result (`run_mono`), a loop with a variant needs no more passes than the
variant says (`run_variant`), and a loop that keeps going round inside a set of
states never leaves (`run_never`). `Visits` are the states in which its passes start,
`trace` lists them; what each pass spends of a budget, all passes together do (`trace_cost`). -/
namespace Library.WhileLoop

/-- How one pass ends. -/
inductive Pass (σ ρ : Type) where
  | again (s : σ)
  | done (r : ρ)

variable {σ ρ : Type} (pass : σ → Option (Pass σ ρ))

/-- At most `n` passes. -/
def run : Nat → σ → Option ρ
  | 0, _ => none
  | n + 1, s =>
    match pass s with
    | none => none
    | some (.again s') => run n s'
    | some (.done r) => some r

variable {pass}

theorem run_again {s s' : σ} (h : pass s = some (.again s')) (n : Nat) :
    run pass (n + 1) s = run pass n s' := by
  simp only [run, h]

theorem run_done {s : σ} {r : ρ} (h : pass s = some (.done r)) (n : Nat) :
    run pass (n + 1) s = some r := by
  simp only [run, h]

theorem run_stuck {s : σ} (h : pass s = none) (n : Nat) : run pass n s = none := by
  cases n with
  | zero => rfl
  | succ n => simp only [run, h]

/-- More passes never change a result. -/
theorem run_mono {n m : Nat} {s : σ} {r : ρ} (h : run pass n s = some r) (hnm : n ≤ m) :
    run pass m s = some r := by
  induction n generalizing m s with
  | zero => cases h
  | succ n ih =>
    obtain ⟨m, rfl⟩ : ∃ k, m = k + 1 := ⟨m - 1, by omega⟩
    cases hp : pass s with
    | none => rw [run_stuck hp] at h; cases h
    | some p =>
      cases p with
      | again s' =>
        rw [run_again hp] at h ⊢
        exact ih h (by omega)
      | done r' =>
        rw [run_done hp] at h ⊢
        exact h

/-- Two numbers of passes that both give a result give the same one. -/
theorem run_unique {n m : Nat} {s : σ} {r r' : ρ} (h : run pass n s = some r)
    (h' : run pass m s = some r') : r = r' := by
  have hn := run_mono h (Nat.le_max_left n m)
  have hm := run_mono h' (Nat.le_max_right n m)
  exact Option.some.inj (hn.symm.trans hm)

/-- With a variant, any number of passes above it gives what any other does. -/
theorem run_variant (μ : σ → Nat) (hμ : ∀ s s', pass s = some (.again s') → μ s' < μ s)
    {n m : Nat} {s : σ} (hn : μ s < n) (hm : μ s < m) : run pass n s = run pass m s := by
  induction n generalizing m s with
  | zero => exact absurd hn (Nat.not_lt_zero _)
  | succ n ih =>
    obtain ⟨m, rfl⟩ : ∃ k, m = k + 1 := ⟨m - 1, by omega⟩
    cases hp : pass s with
    | none => rw [run_stuck hp, run_stuck hp]
    | some p =>
      cases p with
      | again s' =>
        have hlt := hμ s s' hp
        rw [run_again hp, run_again hp]
        exact ih (by omega) (by omega)
      | done r => rw [run_done hp, run_done hp]

/-- A loop that goes round again from every state of a set, into the set, never
leaves it. -/
theorem run_never (I : σ → Prop) (hI : ∀ s, I s → ∃ s', pass s = some (.again s') ∧ I s')
    (n : Nat) {s : σ} (hs : I s) : run pass n s = none := by
  induction n generalizing s with
  | zero => rfl
  | succ n ih =>
    obtain ⟨s', hp, hs'⟩ := hI s hs
    rw [run_again hp]
    exact ih hs'

/-- What every pass preserves, and every leaving pass turns into `Q`, the result has. -/
theorem run_invariant (I : σ → Prop) (Q : ρ → Prop)
    (hagain : ∀ s s', I s → pass s = some (.again s') → I s')
    (hdone : ∀ s r, I s → pass s = some (.done r) → Q r)
    {n : Nat} {s : σ} {r : ρ} (hs : I s) (h : run pass n s = some r) : Q r := by
  induction n generalizing s with
  | zero => cases h
  | succ n ih =>
    cases hp : pass s with
    | none => rw [run_stuck hp] at h; cases h
    | some p =>
      cases p with
      | again s' =>
        rw [run_again hp] at h
        exact ih (hagain s s' hs hp) h
      | done r' =>
        rw [run_done hp] at h
        cases h
        exact hdone s _ hs hp

/-- A loop whose passes all go well and come nearer to its end has a result. -/
theorem run_returns (I : σ → Prop) (Q : ρ → Prop) (μ : σ → Nat)
    (hpass : ∀ s, I s → (∃ s', pass s = some (.again s') ∧ I s' ∧ μ s' < μ s) ∨
      ∃ r, pass s = some (.done r) ∧ Q r)
    {n : Nat} {s : σ} (hs : I s) (hn : μ s < n) : ∃ r, run pass n s = some r ∧ Q r := by
  induction n generalizing s with
  | zero => exact absurd hn (Nat.not_lt_zero _)
  | succ n ih =>
    obtain ⟨s', hp, hs', hlt⟩ | ⟨r, hp, hr⟩ := hpass s hs
    · rw [run_again hp]
      exact ih hs' (by omega)
    · exact ⟨r, run_done hp n, hr⟩

/-- The states in which a pass starts, from `s` on. -/
inductive Visits (pass : σ → Option (Pass σ ρ)) (s : σ) : σ → Prop where
  | start : Visits pass s s
  | again {t t' : σ} : Visits pass s t → pass t = some (.again t') → Visits pass s t'

/-- What every pass preserves holds wherever a pass starts. -/
theorem Visits.invariant (I : σ → Prop) (hagain : ∀ s s', I s → pass s = some (.again s') → I s')
    {s t : σ} (hs : I s) (h : Visits pass s t) : I t := by
  induction h with
  | start => exact hs
  | again _ hp ih => exact hagain _ _ ih hp

/-- The states in which the first passes start, at most `n` of them. -/
def trace (pass : σ → Option (Pass σ ρ)) : Nat → σ → List σ
  | 0, _ => []
  | n + 1, s =>
    match pass s with
    | some (.again s') => s :: trace pass n s'
    | _ => [s]

theorem trace_again {s s' : σ} (h : pass s = some (.again s')) (n : Nat) :
    trace pass (n + 1) s = s :: trace pass n s' := by
  simp only [trace, h]

theorem trace_last {s : σ} (h : ∀ s', pass s ≠ some (.again s')) (n : Nat) :
    trace pass (n + 1) s = [s] := by
  rw [trace]
  split
  · rename_i s' hs'
    exact absurd hs' (h s')
  · rfl

/-- If a pass that goes round again leaves the budget of the next state unspent, and no pass
spends more than its own, then the passes together spend no more than the first budget. -/
theorem trace_cost (cost budget : σ → Nat) (hcost : ∀ s, cost s ≤ budget s)
    (hagain : ∀ s s', pass s = some (.again s') → cost s + budget s' ≤ budget s) (n : Nat) (s : σ) :
    ((trace pass n s).map cost).sum ≤ budget s := by
  induction n generalizing s with
  | zero => exact Nat.zero_le _
  | succ n ih =>
    by_cases h : ∃ s', pass s = some (.again s')
    · obtain ⟨s', hs'⟩ := h
      have hstep := hagain s s' hs'
      have hrest := ih s'
      rw [trace_again hs', List.map_cons, List.sum_cons]
      omega
    · rw [trace_last fun s' hs' => h ⟨s', hs'⟩]
      exact hcost s

end Library.WhileLoop
