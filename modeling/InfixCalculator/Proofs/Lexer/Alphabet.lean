import InfixCalculator.Proofs.Lexer

/-!
# The characters of expressions

A text can be read unless one of its characters is foreign to expressions, and then the first such
character is the error: `Token.scan_eq_error_iff`. What was read before it does not matter, since a
character is refused in every state of the reader or in none.

Every character that is neither blank nor part of a numeral is a token by itself. These tokens come
out in the order of their characters, whatever numerals stand between them
(`Token.filter_isSingle_of_scan`).
-/

namespace InfixCalculator

namespace Numeral

/-- The characters of numerals lie in one short range, in which there is no blank. -/
theorem toNat_of_isNumeralChar {c : Char} (h : isNumeralChar c) :
    46 ≤ c.toNat ∧ c.toNat ≤ 57 := by
  rcases Bool.or_eq_true_iff.mp h with hdigit | hpoint
  · have hrange : 48 ≤ c.toNat ∧ c.toNat ≤ 57 := Char.isDigit_iff_toNat.mp hdigit
    omega
  · rw [of_decide_eq_true hpoint]
    decide

/-- No character belongs to a numeral and separates tokens at once. -/
theorem not_isNumeralChar_of_isBlank {c : Char} (h : Text.isBlank c) : ¬ isNumeralChar c := by
  intro hnumeral
  have hrange := toNat_of_isNumeralChar hnumeral
  simp only [Text.isBlank, Text.blankRanges, List.any_cons, List.any_nil, Bool.or_eq_true,
    Bool.and_eq_true, decide_eq_true_eq, Bool.false_eq_true, or_false] at h
  omega

end Numeral

theorem Operator.toList_text (op : Operator) : op.text.toList = [op.symbol] := by
  cases op <;> rfl

namespace Token

variable {c : Char}

/-- Whether a character is neither blank, nor a digit or the point, nor a parenthesis, nor the
symbol of an operator. -/
def isForeign (c : Char) : Bool :=
  !(Text.isBlank c || c.isDigit || c ∈ ['.', '(', ')', '+', '-', '*', '/', '^'])

/-- The characters that are tokens by themselves are the two parentheses and the five symbols. -/
theorem ofChar?_eq_none_iff : ofChar? c = none ↔ c ∉ ['(', ')', '+', '-', '*', '/', '^'] := by
  have hsome : ∀ c ∈ ['(', ')', '+', '-', '*', '/', '^'], (ofChar? c).isSome :=
    List.all_eq_true.mp (by decide)
  refine ⟨fun h hmem => absurd (hsome c hmem) (by simp [h]), fun h => ?_⟩
  cases hc : ofChar? c with
  | none => rfl
  | some token =>
    rcases ofChar?_eq_some_iff.mp hc with ⟨rfl, -⟩ | ⟨rfl, -⟩ | ⟨op, rfl, -⟩
    · exact absurd (by decide) h
    · exact absurd (by decide) h
    · exact absurd (by cases op <;> decide) h

/-- The foreign characters are those that every rule of the reader passes over. -/
theorem isForeign_iff :
    isForeign c ↔ ¬ Numeral.isNumeralChar c ∧ ¬ Text.isBlank c ∧ ofChar? c = none := by
  rw [ofChar?_eq_none_iff]
  grind [isForeign, Numeral.isNumeralChar]

/-- A class that contains none of these seven characters has no tokens of one character. -/
theorem ofChar?_eq_none_of_all {p : Char → Bool}
    (hp : ['(', ')', '+', '-', '*', '/', '^'].all (!p ·)) (h : p c) : ofChar? c = none := by
  refine ofChar?_eq_none_iff.mpr fun hmem => ?_
  have hnot := List.all_eq_true.mp hp c hmem
  simp [h] at hnot

theorem ofChar?_eq_none_of_isNumeralChar (h : Numeral.isNumeralChar c) : ofChar? c = none :=
  ofChar?_eq_none_of_all (by decide) h

theorem ofChar?_eq_none_of_isBlank (h : Text.isBlank c) : ofChar? c = none :=
  ofChar?_eq_none_of_all (by decide) h

/-- Whether the token is written by a single character, as all but the numerals are. -/
def isSingle : Token → Bool
  | number _ => false
  | _ => true

/-- A token of one character is not a numeral. -/
theorem isSingle_of_ofChar? {token : Token} (h : ofChar? c = some token) : token.isSingle := by
  rcases ofChar?_eq_some_iff.mp h with ⟨-, rfl⟩ | ⟨-, rfl⟩ | ⟨op, -, rfl⟩ <;> rfl

theorem toList_text_of_ofChar? {token : Token} (h : ofChar? c = some token) :
    token.text.toList = [c] := by
  rcases ofChar?_eq_some_iff.mp h with ⟨rfl, rfl⟩ | ⟨rfl, rfl⟩ | ⟨op, rfl, rfl⟩
  · rfl
  · rfl
  · exact op.toList_text

end Token

namespace Lexer

variable {lexer next final : Lexer} {c : Char} {error : CalcError}

/-- A character that is refused is refused in every state. -/
theorem read_eq_error_iff :
    lexer.read c = .error error ↔ Token.isForeign c ∧ error = .invalidCharacter c := by
  rw [Token.isForeign_iff, read]
  split
  case isTrue hnumeral => simp [hnumeral]
  case isFalse hnumeral =>
    split
    case isTrue hblank => simp [hblank]
    case isFalse hblank =>
      split
      case h_1 token htoken => simp [htoken]
      case h_2 htoken => simp [hnumeral, hblank, htoken, eq_comm]

/-- Reading fails over the first foreign character, and over nothing else. -/
theorem foldlM_read_eq_error_iff {text : List Char} :
    text.foldlM read lexer = .error error ↔
      ∃ c, text.find? Token.isForeign = some c ∧ error = .invalidCharacter c := by
  induction text generalizing lexer with
  | nil =>
    refine ⟨fun h => (by cases h), ?_⟩
    rintro ⟨c, hfind, -⟩
    cases hfind
  | cons c text ih =>
    rw [List.foldlM_cons, Fallible.bind_eq_error_iff, read_eq_error_iff, List.find?_cons]
    split
    case h_1 hforeign =>
      have hread : lexer.read c = .error (.invalidCharacter c) :=
        read_eq_error_iff.mpr ⟨hforeign, rfl⟩
      simp [hforeign, hread]
    case h_2 hknown =>
      -- a character that is not refused is read
      obtain ⟨next, hnext⟩ : ∃ next, lexer.read c = .ok next := by
        cases hread : lexer.read c with
        | ok next => exact ⟨next, rfl⟩
        | error error => exact absurd (read_eq_error_iff.mp hread).1 (by simp [hknown])
      simp [hknown, hnext, ih]

/-! ## Tokens of one character -/

/-- Closing a numeral adds no token of one character. -/
theorem filter_isSingle_close (lexer : Lexer) :
    lexer.close.tokens.filter Token.isSingle = lexer.tokens.filter Token.isSingle := by
  by_cases h : lexer.numeral = []
  · rw [close_of_numeral_eq_nil h]
  · rw [close_of_numeral_ne_nil h]
    rfl

/-- A character adds the token that it writes by itself, if there is one, and perhaps numerals. -/
theorem Step.filter_isSingle (h : lexer.Step c next) :
    next.tokens.filter Token.isSingle =
      (Token.ofChar? c).toList ++ lexer.tokens.filter Token.isSingle := by
  cases h with
  | numeral hc =>
    rw [Token.ofChar?_eq_none_of_isNumeralChar hc, extend]
    split
    · exact filter_isSingle_close lexer
    · rfl
  | blank _ hc =>
    rw [Token.ofChar?_eq_none_of_isBlank hc, filter_isSingle_close]
    rfl
  | token _ _ hc =>
    rw [hc, List.filter_cons_of_pos (Token.isSingle_of_ofChar? hc), filter_isSingle_close]
    rfl

/-- Read backwards like the tokens, the characters of a text give the tokens of one character that
have come in. -/
theorem filter_isSingle_of_foldlM_read {text : List Char} (h : text.foldlM read lexer = .ok final) :
    final.tokens.filter Token.isSingle =
      (text.filterMap Token.ofChar?).reverse ++ lexer.tokens.filter Token.isSingle := by
  induction text generalizing lexer with
  | nil =>
    rw [Except.ok.inj h]
    rfl
  | cons c text ih =>
    obtain ⟨next, hnext, hrest⟩ := Fallible.foldlM_cons_eq_ok_iff.mp h
    have hstep := (read_eq_ok_iff.mp hnext).filter_isSingle
    rw [ih hrest, hstep, List.filterMap_cons]
    cases Token.ofChar? c with
    | none => rfl
    | some token => simp

end Lexer

namespace Token

variable {text : String} {tokens : List Token} {error : CalcError}

/-- Reading a text fails with its first foreign character, and only if there is one. -/
theorem scan_eq_error_iff :
    scan text = .error error ↔
      ∃ c, text.toList.find? isForeign = some c ∧ error = .invalidCharacter c := by
  rw [scan, Fallible.bind_eq_error_iff, Lexer.foldlM_read_eq_error_iff, or_iff_left]
  rintro ⟨lexer, -, h⟩
  cases h

/-- The tokens of one character are those of the characters of the text, in the same order. -/
theorem filter_isSingle_of_scan (h : scan text = .ok tokens) :
    tokens.filter isSingle = text.toList.filterMap ofChar? := by
  obtain ⟨final, hread, hfinish⟩ := Fallible.bind_eq_ok_iff.mp h
  obtain rfl := Except.ok.inj hfinish
  have htokens := Lexer.filter_isSingle_of_foldlM_read hread
  rw [Lexer.finish, List.filter_reverse, Lexer.filter_isSingle_close, htokens]
  simp

end Token

end InfixCalculator
