import Mathlib.Data.List.Basic

/-! Programs that ask their environment for what they need.

A `Client` ends with a result or asks a question and goes on with the answer, whatever it
is; a server answers in a state of its own or refuses, and the client never hears of a
refusal. `run` plays one against the other and keeps a transcript of the questions that were
answered. A run is its transcript: the server gave those answers (`run_answers`), and any server
that gives them takes the client through the same run (`run_replay`). -/
namespace Library

inductive Client (Q A ρ : Type) where
  | done (r : ρ)
  | ask (q : Q) (k : A → Client Q A ρ)

namespace Client
variable {Q A ρ τ σ σ' : Type}

/-- One client, and with its result another. -/
def bind : Client Q A ρ → (ρ → Client Q A τ) → Client Q A τ
  | .done r, f => f r
  | .ask q k, f => .ask q fun a => (k a).bind f

/-- The client in an environment that is asked more: `g q` is its question `q` there. -/
def lift {Q' : Type} (g : Q → Q') : Client Q A ρ → Client Q' A ρ
  | .done r => .done r
  | .ask q k => .ask (g q) fun a => (k a).lift g

/-- What a run leaves: the answered questions, the server's state, and the client's
result unless a question was refused. -/
structure Run (Q A ρ σ : Type) where
  transcript : List (Q × A)
  server : σ
  result : Option ρ

def run (serve : σ → Q → Option (A × σ)) : Client Q A ρ → σ → Run Q A ρ σ
  | .done r, s => ⟨[], s, some r⟩
  | .ask q k, s =>
    match serve s q with
    | none => ⟨[], s, none⟩
    | some (a, s') =>
      let rest := (k a).run serve s'
      {rest with transcript := (q, a) :: rest.transcript}

section Run
variable {serve : σ → Q → Option (A × σ)} {serve' : σ' → Q → Option (A × σ')}

theorem run_refused {s : σ} {q : Q} (h : serve s q = none) (k : A → Client Q A ρ) :
    (Client.ask q k).run serve s = ⟨[], s, none⟩ := by
  simp only [run, h]

theorem run_answered {s s' : σ} {q : Q} {a : A} (h : serve s q = some (a, s')) (k : A → Client Q A ρ) :
    (Client.ask q k).run serve s =
      {(k a).run serve s' with transcript := (q, a) :: ((k a).run serve s').transcript} := by
  simp only [run, h]

theorem run_bind_none {c : Client Q A ρ} {s : σ} (h : (c.run serve s).result = none) (f : ρ → Client Q A τ) :
    (c.bind f).run serve s = ⟨(c.run serve s).transcript, (c.run serve s).server, none⟩ := by
  induction c generalizing s with
  | done r => cases h
  | ask q k ih =>
    cases hq : serve s q with
    | none => rw [bind, run_refused hq, run_refused hq]
    | some as =>
      rw [run_answered hq] at h
      rw [bind, run_answered hq, run_answered hq, ih as.1 h]

theorem run_bind_some {c : Client Q A ρ} {s : σ} {r : ρ} (h : (c.run serve s).result = some r)
    (f : ρ → Client Q A τ) :
    (c.bind f).run serve s =
      {(f r).run serve (c.run serve s).server with
        transcript := (c.run serve s).transcript ++ ((f r).run serve (c.run serve s).server).transcript} := by
  induction c generalizing s with
  | done r' =>
    cases h
    rfl
  | ask q k ih =>
    cases hq : serve s q with
    | none =>
      rw [run_refused hq] at h
      cases h
    | some as =>
      rw [run_answered hq] at h
      rw [bind, run_answered hq, run_answered hq, ih as.1 h]
      rfl

/-- A server that keeps the client's own in a part of its state, which `get` and `set` are for, serves the
lifted client as that one serves the client. -/
theorem run_lift {Q' : Type} {g : Q → Q'} {serve' : σ' → Q' → Option (A × σ')} {get : σ' → σ} {set : σ' → σ → σ'}
    (hget : ∀ t s, get (set t s) = s) (hset : ∀ t s s', set (set t s) s' = set t s') (hself : ∀ t, set t (get t) = t)
    (hserve : ∀ t q, serve' t (g q) = (serve (get t) q).map fun r => (r.1, set t r.2)) (c : Client Q A ρ) (t : σ') :
    (c.lift g).run serve' t =
      ⟨(c.run serve (get t)).transcript.map fun r => (g r.1, r.2), set t (c.run serve (get t)).server,
        (c.run serve (get t)).result⟩ := by
  induction c generalizing t with
  | done r => rw [lift, run, run, hself, List.map_nil]
  | ask q k ih =>
    have hq' := hserve t q
    cases hq : serve (get t) q with
    | none =>
      rw [hq] at hq'
      rw [lift, run_refused hq', run_refused hq, hself, List.map_nil]
    | some as =>
      rw [hq] at hq'
      rw [lift, run_answered hq', run_answered hq, ih, hget, hset, List.map_cons]

/-- The server gives the answers, one after the other, and is left in the last state. -/
inductive Answers (serve : σ → Q → Option (A × σ)) : List (Q × A) → σ → σ → Prop where
  | nil (s : σ) : Answers serve [] s s
  | cons {s s' s'' : σ} {q : Q} {a : A} {t : List (Q × A)} : serve s q = some (a, s') →
      Answers serve t s' s'' → Answers serve ((q, a) :: t) s s''

/-- The server gave the answers of the transcript. -/
theorem run_answers (c : Client Q A ρ) (s : σ) :
    Answers serve (c.run serve s).transcript s (c.run serve s).server := by
  induction c generalizing s with
  | done r => exact .nil s
  | ask q k ih =>
    cases hq : serve s q with
    | none =>
      rw [run_refused hq]
      exact .nil s
    | some as =>
      rw [run_answered hq]
      exact .cons hq (ih as.1 as.2)

/-- **A server that gives the answers of a finished run makes the same run.** -/
theorem run_replay (c : Client Q A ρ) (s : σ) {r : ρ} (hr : (c.run serve s).result = some r) {t t' : σ'}
    (h : Answers serve' (c.run serve s).transcript t t') :
    c.run serve' t = ⟨(c.run serve s).transcript, t', some r⟩ := by
  induction c generalizing s t with
  | done r' =>
    rw [run] at hr h ⊢
    cases h
    rw [← hr]
    rfl
  | ask q k ih =>
    cases hq : serve s q with
    | none =>
      rw [run_refused hq] at hr
      cases hr
    | some as =>
      rw [run_answered hq] at hr h ⊢
      cases h with
      | cons hq' hrest => rw [run_answered hq', ih as.1 as.2 hr hrest]

end Run

end Client

end Library
