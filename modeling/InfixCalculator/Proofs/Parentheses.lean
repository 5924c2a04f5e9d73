import InfixCalculator.Proofs.Conversion
import InfixCalculator.Proofs.Lexer.Alphabet
import Mathlib.Data.List.Infix

/-!
# Balanced parentheses

A conversion to postfix notation succeeds only if the parentheses of its tokens are balanced, and if
all operators are known this is the only condition: `Postfix.balanced_of_ofInfix` and
`Postfix.not_balanced_of_ofInfix_eq_error`. Behind both stands the count of
`Conversion.foldlM_read_count`: as many groups are open as parentheses were opened and not closed.

The parentheses of a text are those of its tokens (`Token.balanced_of_scan_iff`).
-/

namespace InfixCalculator

/-- No beginning of the list has more closing than opening parentheses, and the whole list has as
many of both. -/
def Balanced {α : Type} [BEq α] (opening closing : α) (items : List α) : Prop :=
  (∀ front, front <+: items → front.count closing ≤ front.count opening) ∧
    items.count opening = items.count closing

instance {α : Type} [BEq α] (opening closing : α) (items : List α) :
    Decidable (Balanced opening closing items) :=
  decidable_of_iff
    ((∀ front ∈ items.inits, front.count closing ≤ front.count opening) ∧
      items.count opening = items.count closing)
    (by simp only [Balanced, List.mem_inits])

section

variable {α β : Type} [DecidableEq α] [DecidableEq β] {f : α → Option β}

/-- What has a single source occurs as often as its source. -/
theorem count_filterMap_of_iff {a : α} {b : β} (h : ∀ x, f x = some b ↔ x = a) (items : List α) :
    (items.filterMap f).count b = items.count a := by
  rw [List.count_filterMap, List.count]
  refine List.countP_congr fun x _ => ?_
  simp [h]

/-- What is no parenthesis does not matter. -/
theorem balanced_filterMap_iff {opening closing : α} {opening' closing' : β}
    (hopening : ∀ x, f x = some opening' ↔ x = opening)
    (hclosing : ∀ x, f x = some closing' ↔ x = closing) (items : List α) :
    Balanced opening' closing' (items.filterMap f) ↔ Balanced opening closing items := by
  have hcount := count_filterMap_of_iff hopening
  have hcount' := count_filterMap_of_iff hclosing
  rw [Balanced, Balanced, hcount, hcount']
  refine and_congr_left fun _ => ⟨fun h front hfront => ?_, fun h front hfront => ?_⟩
  · have hle := h (front.filterMap f) (hfront.filterMap f)
    rwa [hcount, hcount'] at hle
  · -- every beginning of the parentheses comes from a beginning of the list
    obtain ⟨back, hback⟩ := hfront
    obtain ⟨front', back', rfl, rfl, -⟩ := List.filterMap_eq_append_iff.mp hback.symm
    rw [hcount, hcount']
    exact h front' (List.prefix_append front' back')

/-- Items that are neither opening nor closing do not matter. -/
theorem balanced_filter_iff {p : α → Bool} {opening closing : α} (hopening : p opening)
    (hclosing : p closing) (items : List α) :
    Balanced opening closing (items.filter p) ↔ Balanced opening closing items := by
  have hguard {paren : α} (hparen : p paren) (x : α) :
      Option.guard p x = some paren ↔ x = paren := by
    rw [Option.guard_eq_some_iff]
    refine ⟨And.left, ?_⟩
    rintro rfl
    exact ⟨rfl, hparen⟩
  rw [← List.filterMap_eq_filter]
  exact balanced_filterMap_iff (hguard hopening) (hguard hclosing) items

end

/-! ## Open groups -/

namespace Conversion

variable {state next final : Conversion} {tokens : List Token} {token : Token}

/-- A group is open for each parenthesis that has been opened and not closed. -/
theorem Step.count (h : state.Step token next) :
    next.enclosing.length + [token].count .rightParen =
      state.enclosing.length + [token].count .leftParen := by
  cases h with
  | number text => rfl
  | operator op => rfl
  | leftParen => rfl
  | rightParen henclosing =>
    rw [henclosing]
    rfl

/-- Every opening parenthesis opens a group, and every closing one closes one. -/
theorem foldlM_read_count (h : tokens.foldlM read state = .ok final) :
    final.enclosing.length + tokens.count .rightParen =
      state.enclosing.length + tokens.count .leftParen := by
  induction tokens generalizing state with
  | nil =>
    rw [Except.ok.inj h]
    rfl
  | cons token rest ih =>
    obtain ⟨next, hnext, hrest⟩ := Fallible.foldlM_cons_eq_ok_iff.mp h
    have hstep := (read_eq_ok_iff.mp hnext).count
    have hcount := ih hrest
    rw [← List.singleton_append, List.count_append, List.count_append]
    omega

/-- As many groups are open as parentheses have been opened and not closed. -/
theorem count_of_foldlM_read (h : tokens.foldlM read {} = .ok final) :
    final.enclosing.length + tokens.count .rightParen = tokens.count .leftParen := by
  have hcount := foldlM_read_count h
  rwa [show ({} : Conversion).enclosing.length = 0 from rfl, Nat.zero_add] at hcount

end Conversion

namespace Postfix

variable {tokens program : List Token} {error : CalcError}

theorem balanced_of_ofInfix (h : ofInfix tokens = .ok program) :
    Balanced .leftParen .rightParen tokens := by
  obtain ⟨final, hread, hclosed, -⟩ := ofInfix_eq_ok_iff.mp h
  constructor
  · rintro front ⟨back, rfl⟩
    rw [List.foldlM_append] at hread
    obtain ⟨mid, hmid, -⟩ := Fallible.bind_eq_ok_iff.mp hread
    have hcount := Conversion.count_of_foldlM_read hmid
    omega
  · have hcount := Conversion.count_of_foldlM_read hread
    rw [hclosed, List.length_nil] at hcount
    omega

/-- A conversion fails at a token, or because a parenthesis is still open behind the last one. -/
theorem ofInfix_eq_error_iff :
    ofInfix tokens = .error error ↔
      tokens.foldlM Conversion.read {} = .error error ∨
        ∃ final, tokens.foldlM Conversion.read {} = .ok final ∧
          tokens.count .rightParen < tokens.count .leftParen ∧ error = .unbalancedParentheses := by
  rw [ofInfix, Fallible.bind_eq_error_iff]
  refine or_congr_right (exists_congr fun final => and_congr_right fun hread => ?_)
  have hcount := Conversion.count_of_foldlM_read hread
  rw [Conversion.finish_eq_error_iff, ← List.length_pos_iff]
  exact and_congr_left fun _ => by omega

theorem exists_ofInfix_eq_ok_iff :
    (∃ program, ofInfix tokens = .ok program) ↔
      (∃ final, tokens.foldlM Conversion.read {} = .ok final) ∧
        tokens.count .leftParen ≤ tokens.count .rightParen := by
  constructor
  · rintro ⟨program, h⟩
    obtain ⟨final, hread, -, -⟩ := ofInfix_eq_ok_iff.mp h
    exact ⟨⟨final, hread⟩, Nat.le_of_eq (balanced_of_ofInfix h).2⟩
  · rintro ⟨⟨final, hread⟩, hclosed⟩
    have hcount := Conversion.count_of_foldlM_read hread
    have henclosing : final.enclosing = [] := List.length_eq_zero_iff.mp (by omega)
    exact ⟨_, ofInfix_eq_ok_iff.mpr ⟨final, hread, henclosing, rfl⟩⟩

/-- Where all operators are known, a conversion only fails over parentheses that are not
balanced. -/
theorem not_balanced_of_ofInfix_eq_error (h : ofInfix tokens = .error error)
    (hknown : ∀ symbol, .operator symbol ∈ tokens → ∃ op : Operator, symbol = op.text) :
    error = .unbalancedParentheses ∧ ¬ Balanced .leftParen .rightParen tokens := by
  rcases ofInfix_eq_error_iff.mp h with hread | ⟨final, hread, hopen, rfl⟩
  · obtain ⟨front, token, back, mid, rfl, hmid, hreject⟩ := Fallible.foldlM_eq_error_iff.mp hread
    have hcount := Conversion.count_of_foldlM_read hmid
    cases Conversion.read_eq_error_iff.mp hreject with
    | @operator symbol hnone =>
      obtain ⟨op, hop⟩ := hknown symbol (by simp)
      exact absurd hop (hnone op)
    | rightParen hclosed =>
      -- the closing parenthesis that was refused has no partner
      refine ⟨rfl, fun hbalanced => ?_⟩
      have hle := hbalanced.1 (front ++ [.rightParen]) ⟨back, by simp⟩
      have hleft : [Token.rightParen].count .leftParen = 0 := rfl
      rw [List.count_append, List.count_append, List.count_singleton_self, hleft] at hle
      rw [hclosed, List.length_nil] at hcount
      omega
  · exact ⟨rfl, fun hbalanced => Nat.ne_of_gt hopen hbalanced.2⟩

end Postfix

/-! ## Parentheses of a text -/

namespace Token

variable {text : String} {tokens : List Token}

/-- The parentheses of a text are balanced if those of its tokens are. -/
theorem balanced_of_scan_iff (h : scan text = .ok tokens) :
    Balanced .leftParen .rightParen tokens ↔ Balanced '(' ')' text.toList := by
  have hleft (c : Char) : ofChar? c = some .leftParen ↔ c = '(' := by
    simp [ofChar?_eq_some_iff, ofOperator]
  have hright (c : Char) : ofChar? c = some .rightParen ↔ c = ')' := by
    simp [ofChar?_eq_some_iff, ofOperator]
  rw [← balanced_filterMap_iff hleft hright, ← filter_isSingle_of_scan h,
    balanced_filter_iff rfl rfl]

end Token

end InfixCalculator
