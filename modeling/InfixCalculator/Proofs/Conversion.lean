import InfixCalculator.Postfix
import InfixCalculator.Proofs.Fallible

/-!
# Steps of a conversion

`Conversion.Step` lists what reading one token does when it succeeds, one rule for each kind of
token, and `Conversion.read_eq_ok_iff` says that the list is complete. Invariants of a conversion
are proved by cases on it.

- `Operator.ofText_eq_ok_iff`: the texts of operators are the only ones that are read as such;
- `Postfix.forall_mem_of_ofInfix`: a postfix form consists of numerals that were read and of
  operators.

`Conversion.Rejects` and `Conversion.read_eq_error_iff` do the same for the two ways to fail.

The operators that wait and the parentheses that are open form one stack of tokens. Tokens are
texts, so comparing a waiting operator with the next one takes looking up its text again
(`Conversion.release`). On the stack of a conversion the look-up never fails, and reading an
operator amounts to such comparisons: `Conversion.exists_read_ofOperator`.
-/

namespace InfixCalculator

theorem Operator.ofText_eq_ok_iff {text : String} {op : Operator} :
    ofText text = .ok op ↔ text = op.text := by
  refine ⟨fun h => ?_, fun h => h ▸ ofText_text op⟩
  unfold ofText at h
  split at h
  case h_2 => cases h
  case h_1 c hc =>
    split at h
    case h_2 => cases h
    case h_1 op' hop =>
      obtain rfl := Except.ok.inj h
      have hsymbol : c = op'.symbol := ofChar?_eq_some_iff.mp hop
      rw [← String.ofList_toList (s := text), hc, hsymbol, Operator.text, Char.toString]
      rfl

theorem Operator.ofText_eq_error_iff {text : String} {error : CalcError} :
    ofText text = .error error ↔
      (∀ op : Operator, text ≠ op.text) ∧ error = .unknownOperator text := by
  have htotal : (∃ op, ofText text = .ok op) ∨ ofText text = .error (.unknownOperator text) := by
    unfold ofText
    split
    · split
      · exact .inl ⟨_, rfl⟩
      · exact .inr rfl
    · exact .inr rfl
  rcases htotal with ⟨op, hop⟩ | hunknown
  · refine ⟨fun h => ?_, fun h => absurd (ofText_eq_ok_iff.mp hop) (h.1 op)⟩
    rw [hop] at h
    cases h
  · constructor
    · intro h
      rw [hunknown] at h
      refine ⟨?_, (Except.error.inj h).symm⟩
      rintro op rfl
      rw [ofText_text] at hunknown
      cases hunknown
    · rintro ⟨-, rfl⟩
      exact hunknown

namespace Conversion

variable {state next : Conversion}

/-- An opening parenthesis has been read. -/
def enter (state : Conversion) : Conversion :=
  { state with waiting := [], enclosing := state.waiting :: state.enclosing }

/-- What waits in a group has been written, and the operators around it wait again. -/
def leave (state : Conversion) (outer : List Operator) (enclosing : List (List Operator)) :
    Conversion :=
  { state.write state.waiting with waiting := outer, enclosing }

/-- An operator has been read: those that bind before it have been written, and it waits. -/
def wait (state : Conversion) (op : Operator) : Conversion :=
  { state.write (state.waiting.takeWhile (·.bindsBefore op)) with
    waiting := op :: state.waiting.dropWhile (·.bindsBefore op) }

/-- Reading a token leads from one state of a conversion to another. -/
inductive Step (state : Conversion) : Token → Conversion → Prop
  | number (text : String) :
      Step state (.number text) { state with written := .number text :: state.written }
  | operator (op : Operator) : Step state (.ofOperator op) (state.wait op)
  | leftParen : Step state .leftParen state.enter
  | rightParen {outer : List Operator} {enclosing : List (List Operator)}
      (h : state.enclosing = outer :: enclosing) :
      Step state .rightParen (state.leave outer enclosing)

/-- The rules list everything that reading a token can do without failing. -/
theorem read_eq_ok_iff {token : Token} : state.read token = .ok next ↔ state.Step token next := by
  constructor
  · intro h
    cases token with
    | number text => exact Except.ok.inj h ▸ .number text
    | leftParen => exact Except.ok.inj h ▸ .leftParen
    | rightParen =>
      rw [read] at h
      split at h
      case h_1 => cases h
      case h_2 outer enclosing henclosing => exact Except.ok.inj h ▸ .rightParen henclosing
    | operator symbol =>
      obtain ⟨op, hop, hnext⟩ := Fallible.bind_eq_ok_iff.mp h
      obtain rfl := Operator.ofText_eq_ok_iff.mp hop
      exact Except.ok.inj hnext ▸ .operator op
  · rintro (text | op | - | h)
    · rfl
    · rw [Token.ofOperator, read, Operator.ofText_text]
      rfl
    · rfl
    · rw [read, h]
      rfl

/-- Reading a token fails in one of two ways. -/
inductive Rejects (state : Conversion) : Token → CalcError → Prop
  | operator {symbol : String} (h : ∀ op : Operator, symbol ≠ op.text) :
      Rejects state (.operator symbol) (.unknownOperator symbol)
  | rightParen (h : state.enclosing = []) : Rejects state .rightParen .unbalancedParentheses

theorem read_eq_error_iff {token : Token} {error : CalcError} :
    state.read token = .error error ↔ state.Rejects token error := by
  constructor
  · intro h
    cases token with
    | number text => cases h
    | leftParen => cases h
    | rightParen =>
      rw [read] at h
      split at h
      case h_1 henclosing => exact Except.error.inj h ▸ .rightParen henclosing
      case h_2 => cases h
    | operator symbol =>
      rcases Fallible.bind_eq_error_iff.mp h with hsymbol | ⟨op, -, hnext⟩
      · obtain ⟨hnone, rfl⟩ := Operator.ofText_eq_error_iff.mp hsymbol
        exact .operator hnone
      · cases hnext
  · rintro (h | h)
    · rw [read, Operator.ofText_eq_error_iff.mpr ⟨h, rfl⟩]
      rfl
    · rw [read, h]

theorem mem_write {token : Token} {operators : List Operator}
    (h : token ∈ (state.write operators).written) :
    (∃ op, token = .ofOperator op) ∨ token ∈ state.written := by
  rcases List.mem_append.mp h with h | h
  · obtain ⟨op, _, rfl⟩ := List.mem_map.mp (List.mem_reverse.mp h)
    exact .inl ⟨op, rfl⟩
  · exact .inr h

theorem finish_eq_ok_iff {program : List Token} :
    state.finish = .ok program ↔
      state.enclosing = [] ∧ program = (state.write state.waiting).written.reverse := by
  rw [finish]
  split
  case h_1 h => exact ⟨fun h' => ⟨h, (Except.ok.inj h').symm⟩, fun h' => h'.2 ▸ rfl⟩
  case h_2 h => exact ⟨fun h' => (by cases h'), fun h' => absurd h'.1 (by simp [h])⟩

theorem finish_eq_error_iff {error : CalcError} :
    state.finish = .error error ↔ state.enclosing ≠ [] ∧ error = .unbalancedParentheses := by
  rw [finish]
  split
  case h_1 hclosed => exact iff_of_false nofun fun h => h.1 hclosed
  case h_2 outer enclosing hopen =>
    refine ⟨fun h => ⟨?_, (Except.error.inj h).symm⟩, fun h => h.2 ▸ rfl⟩
    rw [hopen]
    exact List.cons_ne_nil outer enclosing

end Conversion

namespace Postfix

variable {tokens program : List Token}

/-- A conversion succeeds if every token can be read and no parenthesis is open behind them. -/
theorem ofInfix_eq_ok_iff :
    ofInfix tokens = .ok program ↔
      ∃ final, tokens.foldlM Conversion.read {} = .ok final ∧ final.enclosing = [] ∧
        program = (final.write final.waiting).written.reverse := by
  rw [ofInfix, Fallible.bind_eq_ok_iff]
  simp only [Conversion.finish_eq_ok_iff]

/-- A postfix form consists of operators and of the numerals that were read. -/
theorem forall_mem_of_ofInfix (h : ofInfix tokens = .ok program) :
    ∀ token ∈ program,
      (∃ op, token = .ofOperator op) ∨ ∃ text, token = .number text ∧ token ∈ tokens := by
  obtain ⟨final, hread, _, rfl⟩ := ofInfix_eq_ok_iff.mp h
  -- whatever waits is an operator, so only the tokens written so far matter
  have hwritten : ∀ token ∈ final.written,
      (∃ op, token = .ofOperator op) ∨ ∃ text, token = .number text ∧ token ∈ tokens := by
    refine Fallible.foldlM_invariant
      (fun state => ∀ token ∈ state.written,
        (∃ op, token = .ofOperator op) ∨ ∃ text, token = .number text ∧ token ∈ tokens)
      hread (by simp) ?_
    intro item hitem state next hstate hnext token htoken
    cases Conversion.read_eq_ok_iff.mp hnext with
    | number text =>
      rcases List.mem_cons.mp htoken with rfl | htoken
      · exact .inr ⟨text, rfl, hitem⟩
      · exact hstate token htoken
    | operator op => exact (Conversion.mem_write htoken).elim .inl (hstate token)
    | leftParen => exact hstate token htoken
    | rightParen => exact (Conversion.mem_write htoken).elim .inl (hstate token)
  intro token htoken
  exact (Conversion.mem_write (List.mem_reverse.mp htoken)).elim .inl (hwritten token)

end Postfix

/-! ## The stack of a conversion -/

namespace Conversion

/-- The stack of a conversion, the top first: the operators that wait in each open group, and below
them the parenthesis that has opened the group. -/
def stack (state : Conversion) : List Token :=
  state.waiting.map .ofOperator ++
    state.enclosing.flatMap fun outer => .leftParen :: outer.map .ofOperator

/-- Take operators from a stack and write them, until a parenthesis or an operator that does not
bind before `next` is on top. The latest of the written tokens comes first. -/
def release (next : Operator) :
    (stack written : List Token) → Except CalcError (List Token × List Token)
  | [], written => return ([], written)
  | .leftParen :: stack, written => return (.leftParen :: stack, written)
  | token :: stack, written => do
    let top ← Operator.ofText token.text
    if top.bindsBefore next then release next stack (token :: written)
    else return (token :: stack, written)

variable {next : Operator}

theorem release_cons_ofOperator (op : Operator) (stack written : List Token) :
    release next (.ofOperator op :: stack) written =
      if op.bindsBefore next then release next stack (.ofOperator op :: written)
      else .ok (.ofOperator op :: stack, written) := by
  rw [Token.ofOperator, release]
  · exact Fallible.bind_of_ok (Operator.ofText_text op) _
  · intro hparen
    cases hparen

/-- Only the operators above the topmost parenthesis are taken. -/
theorem release_map_ofOperator (waiting : List Operator) {below : List Token}
    (hbelow : below.head?.all (· = .leftParen)) (written : List Token) :
    release next (waiting.map .ofOperator ++ below) written =
      .ok ((waiting.dropWhile (·.bindsBefore next)).map .ofOperator ++ below,
        ((waiting.takeWhile (·.bindsBefore next)).map .ofOperator).reverse ++ written) := by
  induction waiting generalizing written with
  | nil =>
    -- no operator is on top of what is below
    cases below with
    | nil => rfl
    | cons paren below =>
      obtain rfl : paren = .leftParen := by simpa using hbelow
      rfl
  | cons op waiting ih =>
    rw [List.map_cons, List.cons_append, release_cons_ofOperator, List.dropWhile_cons,
      List.takeWhile_cons]
    split
    · rw [ih]
      simp
    · rfl

/-- Reading an operator takes from the stack what binds before it, where every look-up succeeds, and
puts the operator on top. -/
theorem exists_read_ofOperator (state : Conversion) (next : Operator) :
    ∃ after below, state.read (.ofOperator next) = .ok after ∧
      release next state.stack state.written = .ok (below, after.written) ∧
      after.stack = .ofOperator next :: below := by
  have hread : state.read (.ofOperator next) = .ok (state.wait next) :=
    read_eq_ok_iff.mpr (.operator next)
  refine ⟨state.wait next, _, hread, release_map_ofOperator state.waiting ?_ state.written, rfl⟩
  cases state.enclosing <;> simp

end Conversion

end InfixCalculator
