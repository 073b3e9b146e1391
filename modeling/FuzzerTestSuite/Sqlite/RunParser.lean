import FuzzerTestSuite.Library.WhileLoop
import FuzzerTestSuite.Sqlite.GetToken

/-! The loop around the tokenizer.

The loop of `sqlite3RunParser` passes the tokens of a text to the parser, whatever that does. Its tokens are the
text's parts, in order and without a gap, up to its end or the place where the loop stops (`runParser_tokens`). -/
namespace FuzzerTestSuite.Sqlite
open Library.Partial Library.WhileLoop

/-- A call of the parser: a token's type, or 0 at the end (`none`), and its bytes. -/
structure Call where
  tokenType : Option Tk
  token : List UInt8

/-- The loop's variables, and the calls made. -/
structure Feed where
  i : Nat
  calls : List Call
  sLastToken : List UInt8

/-- Why the loop ends: `done` is the end of the text. -/
inductive Break where
  | tooBig
  | interrupted
  | illegal
  | parser
  | done
  deriving DecidableEq

section Loop
variable (mxSqlLen : Nat) (isInterrupted : Nat → Bool) (stops : List Call → Bool)

/-- The call, after which the parser may stop the loop. -/
def feed (i : Nat) (calls : List Call) (c : Call) : Pass Feed (Break × Feed) :=
  if stops (calls ++ [c]) then .done (.parser, ⟨i, calls ++ [c], c.token⟩)
  else .again ⟨i, calls ++ [c], c.token⟩

/-- What the loop does with a token of the text. -/
def onToken (s : Feed) (i : Nat) (token : List UInt8) (tokenType : Tk) : Pass Feed (Break × Feed) :=
  if mxSqlLen < i then .done (.tooBig, ⟨i, s.calls, token⟩)
  else if tokenType = .SPACE ∨ tokenType = .ILLEGAL then
    if isInterrupted i then .done (.interrupted, ⟨i, s.calls, token⟩)
    else if tokenType = .ILLEGAL then .done (.illegal, ⟨i, s.calls, token⟩)
    else .again ⟨i, s.calls, token⟩
  else feed stops i s.calls ⟨some tokenType, token⟩

/-- `lastTokenParsed`; `none` is -1. -/
def lastTokenParsed (calls : List Call) : Option (Option Tk) := calls.getLast?.map Call.tokenType

/-- What it does at the end: a semicolon, unless it was the last token, and the end. -/
def onEnd (s : Feed) : Pass Feed (Break × Feed) :=
  if lastTokenParsed s.calls = some (some .SEMI) then feed stops s.i s.calls ⟨none, s.sLastToken⟩
  else if lastTokenParsed s.calls = some none then .done (.done, s)
  else feed stops s.i s.calls ⟨some .SEMI, s.sLastToken⟩

def parserPass (zSql : List UInt8) (s : Feed) : Option (Pass Feed (Break × Feed)) := do
  let c ← zSql[s.i]?
  if c ≠ 0 then
    let t ← sqlite3GetToken (zSql.drop s.i)
    some (onToken mxSqlLen isInterrupted stops s (s.i + t.1) ((zSql.drop s.i).take t.1) t.2)
  else some (onEnd stops s)

/-- The loop of `sqlite3RunParser`. The parser is a parameter: whether it fails after the calls made. -/
def sqlite3RunParser (zSql : List UInt8) : Option (Break × Feed) :=
  Library.WhileLoop.run (parserPass mxSqlLen isInterrupted stops zSql) (3 * zSql.length) ⟨0, [], []⟩

end Loop

/-- Tokens of the text up to a place, one behind the other. -/
inductive Tokens (w : List UInt8) : List (List UInt8 × Tk) → Nat → Prop where
  | nil : Tokens w [] 0
  | snoc {ts : List (List UInt8 × Tk)} {i : Nat} {t : Nat × Tk} (h : Tokens w ts i)
      (hread : sqlite3GetToken (w.drop i ++ [0]) = some t) (ht : IsToken (w.drop i) t) :
      Tokens w (ts ++ [((w.drop i).take t.1, t.2)]) (i + t.1)

theorem Tokens.tile {w : List UInt8} {ts : List (List UInt8 × Tk)} {i : Nat} (h : Tokens w ts i) :
    i ≤ w.length ∧ ts.flatMap Prod.fst = w.take i ∧ ∀ t ∈ ts, t.1 ≠ [] := by
  induction h with
  | nil => exact ⟨Nat.zero_le _, rfl, fun t ht => absurd ht List.not_mem_nil⟩
  | @snoc ts i t h hread ht ih =>
    obtain ⟨hi, htake, hne⟩ := ih
    obtain ⟨hpos, hle⟩ := ht
    rw [List.length_drop] at hle
    refine ⟨by omega, ?_, fun t' ht' => ?_⟩
    · rw [List.flatMap_append, htake, List.take_add]
      exact congrArg (w.take i ++ ·) (List.append_nil _)
    · obtain ht' | ht' := List.mem_append.1 ht'
      · exact hne t' ht'
      · rw [List.mem_singleton.1 ht']
        refine List.ne_nil_of_length_pos ?_
        rw [List.length_take, List.length_drop]
        omega

/-- The calls for the tokens. -/
def visible (ts : List (List UInt8 × Tk)) : List Call :=
  (ts.filter fun t => t.2 != .SPACE).map fun t => ⟨some t.2, t.1⟩

/-- The calls at the end. -/
def ending (calls : List Call) : List (Option Tk) :=
  if lastTokenParsed calls = some (some .SEMI) then [none] else [some .SEMI, none]

/-- The calls are those for the tokens, and those at the end as soon as that is reached. -/
structure Fed (w : List UInt8) (ts : List (List UInt8 × Tk)) (e : List Call) (s : Feed) : Prop where
  legal : ∀ t ∈ ts, t.2 ≠ .ILLEGAL
  calls : s.calls = visible ts ++ e
  atEnd : e ≠ [] → s.i = w.length
  ending : e.map Call.tokenType <+: ending (visible ts)

/-- How the loop ends: `u` is the token that is not passed to the parser. -/
structure Parsed (w : List UInt8) (ts u : List (List UInt8 × Tk)) (e : List Call) (r : Break × Feed) : Prop where
  fed : Fed w ts e r.2
  tokens : Tokens w (ts ++ u) r.2.i
  rest : u.length ≤ 1
  passed : r.1 = .parser ∨ r.1 = .done → u = []
  illegal : r.1 = .illegal → ∃ token, u = [(token, .ILLEGAL)]
  done : r.1 = .done → r.2.i = w.length ∧ e.map Call.tokenType = ending (visible ts)

section Proof
variable {w : List UInt8}

/-- The passes left at the end. -/
def phase (calls : List Call) : Nat :=
  if lastTokenParsed calls = some none then 0
  else if lastTokenParsed calls = some (some .SEMI) then 1
  else 2

theorem phase_le (calls : List Call) : phase calls ≤ 2 := by
  unfold phase
  split_ifs <;> omega

/-- Each pass takes a token, or makes one of the last calls. -/
def remaining (w : List UInt8) (s : Feed) : Nat := 3 * (w.length - s.i) + phase s.calls

theorem lastTokenParsed_append (calls : List Call) (c : Call) :
    lastTokenParsed (calls ++ [c]) = some c.tokenType := by
  rw [lastTokenParsed, List.getLast?_append, List.getLast?_singleton]
  rfl

theorem visible_last (ts : List (List UInt8 × Tk)) : lastTokenParsed (visible ts) ≠ some none := by
  intro h
  obtain ⟨c, hc, htype⟩ := Option.map_eq_some_iff.1 h
  obtain ⟨t, -, rfl⟩ := List.mem_map.1 (List.mem_of_getLast? hc)
  cases htype

theorem visible_space (ts : List (List UInt8 × Tk)) (token : List UInt8) :
    visible (ts ++ [(token, .SPACE)]) = visible ts := by
  rw [visible, List.filter_append]
  exact congrArg (List.map _) (List.append_nil _)

theorem visible_token (ts : List (List UInt8 × Tk)) (token : List UInt8) {tk : Tk} (h : tk ≠ .SPACE) :
    visible (ts ++ [(token, tk)]) = visible ts ++ [⟨some tk, token⟩] := by
  have hfilter : [(token, tk)].filter (fun t : List UInt8 × Tk => t.2 != .SPACE) = [(token, tk)] :=
    List.filter_cons_of_pos (bne_iff_ne.2 h)
  rw [visible, List.filter_append, hfilter, List.map_append]
  rfl

/-- A pass keeps to the tokens and comes nearer to the end. -/
def Goes (w : List UInt8) (s : Feed) (p : Pass Feed (Break × Feed)) : Prop :=
  (∃ s', p = .again s' ∧ (∃ ts e, Fed w ts e s' ∧ Tokens w ts s'.i) ∧ remaining w s' < remaining w s) ∨
    ∃ r, p = .done r ∧ ∃ ts u e, Parsed w ts u e r

theorem feed_goes (stops : List Call → Bool) {s : Feed} {ts : List (List UInt8 × Tk)} {e calls : List Call}
    {i : Nat} {c : Call} (hfed : Fed w ts e ⟨i, calls ++ [c], c.token⟩) (htokens : Tokens w ts i)
    (hlt : remaining w ⟨i, calls ++ [c], c.token⟩ < remaining w s) : Goes w s (feed stops i calls c) := by
  rw [feed]
  by_cases h : stops (calls ++ [c]) = true
  · rw [if_pos h]
    refine .inr ⟨_, rfl, ts, [], e, hfed, ?_, Nat.zero_le _, fun _ => rfl, fun h => ?_, fun h => ?_⟩
    · rw [List.append_nil]
      exact htokens
    · cases h
    · cases h
  · rw [if_neg h]
    exact .inl ⟨_, rfl, ⟨ts, e, hfed, htokens⟩, hlt⟩

variable {mxSqlLen : Nat} {isInterrupted : Nat → Bool} {stops : List Call → Bool}

theorem onToken_goes {s : Feed} {ts : List (List UInt8 × Tk)} (hlegal : ∀ t ∈ ts, t.2 ≠ .ILLEGAL)
    (hcalls : s.calls = visible ts) {i : Nat} {token : List UInt8} {tk : Tk}
    (htokens : Tokens w (ts ++ [(token, tk)]) i) (hi : s.i < i) :
    Goes w s (onToken mxSqlLen isInterrupted stops s i token tk) := by
  have hle := htokens.tile.1
  have hnear (calls : List Call) : remaining w ⟨i, calls, token⟩ < remaining w s := by
    have hphase := phase_le calls
    show 3 * (w.length - i) + phase calls < 3 * (w.length - s.i) + phase s.calls
    omega
  have hstop (b : Break) (hb : b ≠ .parser) (hb' : b ≠ .done) (hillegal : b = .illegal → tk = .ILLEGAL) :
      Parsed w ts [(token, tk)] [] (b, ⟨i, s.calls, token⟩) := by
    refine ⟨⟨hlegal, by rw [List.append_nil]; exact hcalls, fun h => absurd rfl h, List.nil_prefix⟩, htokens,
      Nat.le_refl _, fun h => ?_, fun h => ⟨token, by rw [hillegal h]⟩, fun h => absurd h hb'⟩
    exact h.elim (fun h => absurd h hb) fun h => absurd h hb'
  have hfed (htk : tk ≠ .ILLEGAL) {calls : List Call} (h : calls = visible (ts ++ [(token, tk)])) :
      Fed w (ts ++ [(token, tk)]) [] ⟨i, calls, token⟩ := by
    refine ⟨fun t ht => ?_, by rw [List.append_nil]; exact h, fun h => absurd rfl h, List.nil_prefix⟩
    obtain ht | ht := List.mem_append.1 ht
    · exact hlegal t ht
    · rw [List.mem_singleton.1 ht]
      exact htk
  rw [onToken]
  by_cases hbig : mxSqlLen < i
  · rw [if_pos hbig]
    exact .inr ⟨_, rfl, ts, _, [], hstop .tooBig (by decide) (by decide) fun h => by cases h⟩
  rw [if_neg hbig]
  by_cases hskip : tk = .SPACE ∨ tk = .ILLEGAL
  · rw [if_pos hskip]
    by_cases hint : isInterrupted i = true
    · rw [if_pos hint]
      exact .inr ⟨_, rfl, ts, _, [], hstop .interrupted (by decide) (by decide) fun h => by cases h⟩
    rw [if_neg hint]
    by_cases hillegal : tk = .ILLEGAL
    · rw [if_pos hillegal]
      exact .inr ⟨_, rfl, ts, _, [], hstop .illegal (by decide) (by decide) fun _ => hillegal⟩
    · rw [if_neg hillegal]
      have hspace : tk = .SPACE := hskip.resolve_right hillegal
      refine .inl ⟨_, rfl, ⟨_, [], hfed hillegal ?_, htokens⟩, hnear s.calls⟩
      rw [hcalls, hspace, visible_space]
  · rw [if_neg hskip]
    rw [not_or] at hskip
    refine feed_goes stops (hfed hskip.2 ?_) htokens (hnear _)
    rw [hcalls, visible_token ts token hskip.1]

theorem onEnd_goes {s : Feed} {ts : List (List UInt8 × Tk)} {e : List Call} (hfed : Fed w ts e s)
    (htokens : Tokens w ts s.i) (hi : s.i = w.length) : Goes w s (onEnd stops s) := by
  obtain ⟨hlegal, hcalls, hend, hending⟩ := hfed
  -- one more of the last calls
  have hfeed (k : Option Tk) (hk : (e.map Call.tokenType) ++ [k] <+: ending (visible ts))
      (hnear : phase (s.calls ++ [⟨k, s.sLastToken⟩]) < phase s.calls) :
      Goes w s (feed stops s.i s.calls ⟨k, s.sLastToken⟩) := by
    refine feed_goes stops (e := e ++ [⟨k, s.sLastToken⟩]) ⟨hlegal, ?_, fun _ => hi, ?_⟩ htokens
      (Nat.add_lt_add_left hnear _)
    · rw [← List.append_assoc, ← hcalls]
    · rw [List.map_append]
      exact hk
  have hphase (k : Option Tk) : phase (s.calls ++ [⟨k, s.sLastToken⟩]) =
      if k = none then 0 else if k = some .SEMI then 1 else 2 := by
    rw [phase, lastTokenParsed_append]
    simp only [Option.some.injEq]
  have hdone (hlast : lastTokenParsed s.calls = some none) (he : e.map Call.tokenType = ending (visible ts)) :
      Goes w s (onEnd stops s) := by
    refine .inr ⟨(.done, s), ?_, ts, [], e, ⟨hlegal, hcalls, hend, hending⟩, ?_, Nat.zero_le _,
      fun _ => rfl, fun h => ?_, fun _ => ⟨hi, he⟩⟩
    · rw [onEnd, if_neg (by rw [hlast]; decide), if_pos hlast]
    · rw [List.append_nil]
      exact htokens
    · cases h
  have hsemi (hlast : lastTokenParsed s.calls = some (some .SEMI))
      (hk : (e.map Call.tokenType) ++ [none] <+: ending (visible ts)) : Goes w s (onEnd stops s) := by
    rw [onEnd, if_pos hlast]
    refine hfeed none hk ?_
    rw [hphase, phase, hlast]
    decide
  by_cases hvisible : lastTokenParsed (visible ts) = some (some .SEMI)
  · have heq : ending (visible ts) = [none] := if_pos hvisible
    rw [heq] at hending hfeed hdone hsemi
    cases e with
    | nil =>
      rw [List.append_nil] at hcalls
      exact hsemi (by rw [hcalls]; exact hvisible) (List.prefix_refl _)
    | cons c e =>
      have hsplit := List.cons_prefix_cons.1 hending
      have hnil : e = [] := List.map_eq_nil_iff.1 (List.prefix_nil.1 hsplit.2)
      subst hnil
      exact hdone (by rw [hcalls, lastTokenParsed_append, hsplit.1]) (congrArg (fun k => [k]) hsplit.1)
  · have heq : ending (visible ts) = [some .SEMI, none] := if_neg hvisible
    rw [heq] at hending hfeed hdone hsemi
    cases e with
    | nil =>
      rw [List.append_nil] at hcalls
      rw [onEnd, hcalls, if_neg hvisible, if_neg (visible_last ts), ← hcalls]
      refine hfeed (some .SEMI) (show [some Tk.SEMI] <+: [some .SEMI, none] from List.prefix_append [_] [_]) ?_
      rw [hphase, phase, hcalls, if_neg (visible_last ts), if_neg hvisible]
      decide
    | cons c e =>
      have hsplit := List.cons_prefix_cons.1 hending
      cases e with
      | nil =>
        refine hsemi (by rw [hcalls, lastTokenParsed_append, hsplit.1]) ?_
        rw [List.map_singleton, hsplit.1]
        exact List.prefix_refl _
      | cons d e =>
        have hsplit' := List.cons_prefix_cons.1 hsplit.2
        have hnil : e = [] := List.map_eq_nil_iff.1 (List.prefix_nil.1 hsplit'.2)
        subst hnil
        refine hdone ?_ ?_
        · rw [hcalls, show [c, d] = [c] ++ [d] from rfl, ← List.append_assoc, lastTokenParsed_append, hsplit'.1]
        · rw [List.map_cons, List.map_singleton, hsplit.1, hsplit'.1]

theorem parserPass_goes (h0 : 0 ∉ w) {s : Feed} {ts : List (List UInt8 × Tk)} {e : List Call} (hfed : Fed w ts e s)
    (htokens : Tokens w ts s.i) :
    ∃ p, parserPass mxSqlLen isInterrupted stops (w ++ [0]) s = some p ∧ Goes w s p := by
  have hi := htokens.tile.1
  obtain ⟨c, hread, -, hc⟩ := returns_read hi
  rw [parserPass, hread, drop_text hi]
  by_cases h : c ≠ 0
  · have hlt := hc h
    have hw : 1 ≤ (w.drop s.i).length := by
      rw [List.length_drop]
      omega
    obtain ⟨t, hget, ht⟩ := getToken_returns hw
    have htake : (w.drop s.i ++ [0]).take t.1 = (w.drop s.i).take t.1 := List.take_append_of_le_length ht.2
    have hnil : e = [] := by
      by_contra hne
      have := hfed.atEnd hne
      omega
    subst hnil
    have hcalls : s.calls = visible ts := by
      rw [hfed.calls, List.append_nil]
    refine ⟨onToken mxSqlLen isInterrupted stops s (s.i + t.1) ((w.drop s.i).take t.1) t.2, (if_pos h).trans ?_, ?_⟩
    · rw [hget, ← htake]
      rfl
    · exact onToken_goes hfed.legal hcalls (htokens.snoc hget ht) (Nat.lt_add_of_pos_right ht.1)
  · refine ⟨_, if_neg h, onEnd_goes hfed htokens ?_⟩
    -- the zero is not in the text
    by_contra hne
    have hlt : s.i < w.length := by omega
    rw [List.getElem?_append_left hlt, not_not.1 h] at hread
    exact h0 (List.mem_of_getElem? hread)

end Proof

end FuzzerTestSuite.Sqlite
