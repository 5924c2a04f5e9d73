import InfixCalculator.Proofs.Fallible
import InfixCalculator.Token

/-!
# Texts and their tokens

What is known about the reading of a text follows from one equation, `Token.scan_append`: two texts
are read one after the other, unless a numeral could go on from the first into the second. With the
reading of single tokens (`Token.scan_text`) it determines the tokens of every text that is put
together from them.

Conversely, only well-formed tokens are read (`Token.wellFormed_of_scan`).
-/

namespace InfixCalculator

namespace Numeral

variable {text : List Char} {c : Char}

/-- A numeral is not empty and consists of digits with at most one point. -/
theorem isNumeral_iff :
    isNumeral text ↔ text ≠ [] ∧ (∀ c ∈ text, isNumeralChar c) ∧ text.count '.' ≤ 1 := by
  simp [isNumeral, and_assoc]

theorem count_point_cons_le (h : text.count '.' ≤ 1) (hpoint : ¬ (c = '.' ∧ '.' ∈ text)) :
    (c :: text).count '.' ≤ 1 := by
  by_cases hdot : c = '.'
  · -- the point is the first one
    have hnone : text.count '.' = 0 := List.count_eq_zero.mpr fun hmem => hpoint ⟨hdot, hmem⟩
    rw [hdot, List.count_cons_self]
    omega
  · rwa [List.count_cons_of_ne hdot]

end Numeral

namespace Token

/-- The text of a numeral has the form of one, and that of an operator is one of the five
symbols. -/
def WellFormed : Token → Prop
  | .number text => Numeral.isNumeral text.toList
  | .operator symbol => ∃ op : Operator, symbol = op.text
  | .leftParen | .rightParen => True

theorem wellFormed_ofOperator (op : Operator) : (ofOperator op).WellFormed :=
  ⟨op, rfl⟩

/-- The tokens that a single character can write. -/
theorem ofChar?_eq_some_iff {c : Char} {token : Token} :
    ofChar? c = some token ↔
      (c = '(' ∧ token = .leftParen) ∨ (c = ')' ∧ token = .rightParen) ∨
        ∃ op : Operator, c = op.symbol ∧ token = .ofOperator op := by
  constructor
  · intro h
    unfold ofChar? at h
    split at h
    · exact .inl ⟨rfl, (Option.some.inj h).symm⟩
    · exact .inr (.inl ⟨rfl, (Option.some.inj h).symm⟩)
    · obtain ⟨op, hop, rfl⟩ := Option.map_eq_some_iff.mp h
      exact .inr (.inr ⟨op, Operator.ofChar?_eq_some_iff.mp hop, rfl⟩)
  · rintro (⟨rfl, rfl⟩ | ⟨rfl, rfl⟩ | ⟨op, rfl, rfl⟩)
    · rfl
    · rfl
    · cases op <;> rfl

/-- The tokens of one character are parentheses and operators. -/
theorem wellFormed_of_ofChar? {c : Char} {token : Token} (h : ofChar? c = some token) :
    token.WellFormed := by
  rcases ofChar?_eq_some_iff.mp h with ⟨-, rfl⟩ | ⟨-, rfl⟩ | ⟨op, -, rfl⟩
  · trivial
  · trivial
  · exact wellFormed_ofOperator op

end Token

namespace Lexer

variable {lexer next : Lexer} {c : Char}

/-- Reading a character leads from one state of the reader to another. -/
inductive Step (lexer : Lexer) : Char → Lexer → Prop
  | numeral {c : Char} (h : Numeral.isNumeralChar c) : Step lexer c (lexer.extend c)
  | blank {c : Char} (hnumeral : ¬ Numeral.isNumeralChar c) (h : Text.isBlank c) :
      Step lexer c lexer.close
  | token {c : Char} {token : Token} (hnumeral : ¬ Numeral.isNumeralChar c)
      (hblank : ¬ Text.isBlank c) (h : Token.ofChar? c = some token) :
      Step lexer c { tokens := token :: lexer.close.tokens }

/-- The rules list everything that reading a character can do without failing. -/
theorem read_eq_ok_iff : lexer.read c = .ok next ↔ lexer.Step c next := by
  constructor
  · intro h
    rw [read] at h
    split at h
    case isTrue hnumeral => exact Except.ok.inj h ▸ .numeral hnumeral
    case isFalse hnumeral =>
      split at h
      case isTrue hblank => exact Except.ok.inj h ▸ .blank hnumeral hblank
      case isFalse hblank =>
        split at h
        case h_1 token htoken => exact Except.ok.inj h ▸ .token hnumeral hblank htoken
        case h_2 => cases h
  · rintro (h | ⟨hnumeral, h⟩ | ⟨hnumeral, hblank, h⟩)
    · rw [read, if_pos h]
    · rw [read, if_neg hnumeral, if_pos h]
    · rw [read, if_neg hnumeral, if_neg hblank, h]

/-! ## Earlier tokens -/

/-- No numeral is open behind a character that closes it. -/
theorem numeral_close (lexer : Lexer) : lexer.close.numeral = [] := by
  rw [close]
  split
  case h_1 h => exact h
  case h_2 => rfl

theorem close_of_numeral_ne_nil (h : lexer.numeral ≠ []) :
    lexer.close = { tokens := .number (String.ofList lexer.numeral.reverse) :: lexer.tokens } := by
  rw [close]
  split
  case h_1 h' => exact absurd h' h
  case h_2 => rfl

theorem close_of_numeral_eq_nil (h : lexer.numeral = []) : lexer.close = lexer := by
  rw [close, h]

/-- The end of a text closes the numeral as well. -/
theorem finish_close (lexer : Lexer) : lexer.close.finish = lexer.finish := by
  rw [finish, close_of_numeral_eq_nil (numeral_close lexer), finish]

/-- The reader with further tokens that it read before all others. -/
def behind (lexer : Lexer) (earlier : List Token) : Lexer :=
  { lexer with tokens := lexer.tokens ++ earlier }

/-- Closing a numeral does not look at earlier tokens. -/
theorem close_behind (lexer : Lexer) (earlier : List Token) :
    (lexer.behind earlier).close = lexer.close.behind earlier := by
  obtain ⟨tokens, _ | ⟨c, numeral⟩⟩ := lexer <;> rfl

/-- Earlier tokens stand in front. -/
theorem finish_behind (lexer : Lexer) (earlier : List Token) :
    (lexer.behind earlier).finish = earlier.reverse ++ lexer.finish := by
  rw [finish, close_behind, behind, List.reverse_append, finish]

theorem extend_behind (lexer : Lexer) (earlier : List Token) (c : Char) :
    (lexer.behind earlier).extend c = (lexer.extend c).behind earlier := by
  by_cases h : c = '.' ∧ '.' ∈ lexer.numeral
  · have h' : c = '.' ∧ '.' ∈ (lexer.behind earlier).numeral := h
    rw [extend, extend, if_pos h, if_pos h', close_behind]
    rfl
  · have h' : ¬ (c = '.' ∧ '.' ∈ (lexer.behind earlier).numeral) := h
    rw [extend, extend, if_neg h, if_neg h']
    rfl

/-- Earlier tokens do not matter to the reading of a character. -/
theorem read_behind (lexer : Lexer) (earlier : List Token) (c : Char) :
    (lexer.behind earlier).read c = (·.behind earlier) <$> lexer.read c := by
  simp only [read, extend_behind, close_behind]
  split
  · rfl
  · split
    · rfl
    · split <;> rfl

/-- Reading does not look at earlier tokens. -/
theorem foldlM_read_behind (lexer : Lexer) (earlier : List Token) (text : List Char) :
    text.foldlM read (lexer.behind earlier) = (·.behind earlier) <$> text.foldlM read lexer :=
  Fallible.foldlM_map (·.behind earlier) (fun lexer c => read_behind lexer earlier c) text lexer

/-! ## Boundaries of numerals -/

/-- Whether the open numeral ends where the character comes: there is none, or the character belongs
to none, or it is a second point. -/
def EndsBefore (lexer : Lexer) (c : Char) : Prop :=
  lexer.numeral = [] ∨ (Numeral.isNumeralChar c → c = '.' ∧ '.' ∈ lexer.numeral)

/-- Where the open numeral ends, it may as well be closed before. -/
theorem EndsBefore.read_close (h : lexer.EndsBefore c) : lexer.close.read c = lexer.read c := by
  rcases h with hclosed | hends
  · rw [close_of_numeral_eq_nil hclosed]
  rw [read, read]
  split
  case isTrue hnumeral =>
    -- the character is a second point, and reading it closes the numeral
    have hpoint := hends hnumeral
    have hfirst : ¬ (c = '.' ∧ '.' ∈ lexer.close.numeral) := by simp [numeral_close]
    rw [extend, extend, if_neg hfirst, if_pos hpoint, numeral_close]
  case isFalse hnumeral =>
    rw [close_of_numeral_eq_nil (numeral_close lexer)]

theorem Step.numeral_eq_nil (hstep : lexer.Step c next) (h : ¬ Numeral.isNumeralChar c) :
    next.numeral = [] := by
  cases hstep with
  | numeral h' => exact absurd h' h
  | blank => exact numeral_close lexer
  | token => rfl

/-- A text that ends with a character of no numeral leaves none open. -/
theorem numeral_eq_nil_of_getLast {text : List Char} (hread : text.foldlM read {} = .ok lexer)
    (h : ∀ c ∈ text.getLast?, ¬ Numeral.isNumeralChar c) : lexer.numeral = [] := by
  rcases text.eq_nil_or_concat with rfl | ⟨front, c, rfl⟩
  · exact Except.ok.inj hread ▸ rfl
  · rw [List.concat_eq_append, List.foldlM_append] at hread
    obtain ⟨mid, -, hlast⟩ := Fallible.bind_eq_ok_iff.mp hread
    obtain ⟨next, hnext, hend⟩ := Fallible.foldlM_cons_eq_ok_iff.mp hlast
    obtain rfl := Except.ok.inj hend
    exact (read_eq_ok_iff.mp hnext).numeral_eq_nil (h c (by simp))

/-- Where no numeral is open, what follows is read as if it stood alone. -/
theorem finish_foldlM_read_of_closed (h : lexer.numeral = []) (text : List Char) :
    finish <$> text.foldlM read lexer =
      (lexer.finish ++ ·) <$> finish <$> text.foldlM read {} := by
  have hlexer : lexer = behind {} lexer.tokens := by
    rw [behind, List.nil_append, ← h]
  have hfinish : lexer.finish = lexer.tokens.reverse := by
    rw [finish, close_of_numeral_eq_nil h]
  -- a reader without an open numeral is a new one behind the tokens that it has read
  rw [hfinish, hlexer, foldlM_read_behind, Functor.map_map, Functor.map_map]
  refine congrArg (· <$> _) (funext fun inner => ?_)
  rw [finish_behind]
  rfl

/-- A text that does not go on with the open numeral is read as if it stood alone. -/
theorem finish_foldlM_read {text : List Char} (h : ∀ c ∈ text.head?, lexer.EndsBefore c) :
    finish <$> text.foldlM read lexer =
      (lexer.finish ++ ·) <$> finish <$> text.foldlM read {} := by
  cases text with
  | nil => exact congrArg Except.ok (List.append_nil _).symm
  | cons c text =>
    -- the first character ends the numeral, so it is read as by a reader without an open one
    have hclosed := finish_foldlM_read_of_closed (numeral_close lexer) (c :: text)
    rwa [List.foldlM_cons, (h c rfl).read_close, finish_close] at hclosed

end Lexer

namespace Token

/-- No numeral goes on from the first text into the second. -/
def Separated (front back : String) : Prop :=
  (∀ c ∈ front.toList.getLast?, ¬ Numeral.isNumeralChar c) ∨
    ∀ c ∈ back.toList.head?, ¬ Numeral.isNumeralChar c

/-- Texts are separated by the last character of the first one, if it belongs to no numeral. -/
theorem separated_of_getLast? {front : String} {c : Char} (h : front.toList.getLast? = some c)
    (hc : ¬ Numeral.isNumeralChar c) (back : String) : Separated front back :=
  .inl fun _ hlast => Option.some.inj (h.symm.trans hlast) ▸ hc

/-- Texts are separated by the first character of the second one, if it belongs to no numeral. -/
theorem separated_of_head? {back : String} {c : Char} (h : back.toList.head? = some c)
    (hc : ¬ Numeral.isNumeralChar c) (front : String) : Separated front back :=
  .inr fun _ hhead => Option.some.inj (h.symm.trans hhead) ▸ hc

theorem scan_eq_map (text : String) :
    scan text = Lexer.finish <$> text.toList.foldlM Lexer.read {} := by
  rw [scan, map_eq_pure_bind]

/-- Texts that no numeral joins are read one after the other, and the first error is that of both
together. -/
theorem scan_append {front back : String} (h : Separated front back) :
    scan (front ++ back) = do
      let tokens ← scan front
      let more ← scan back
      return tokens ++ more := by
  rw [scan_eq_map, scan_eq_map, scan_eq_map, String.toList_append, List.foldlM_append]
  cases hfront : front.toList.foldlM Lexer.read {} with
  | error e => rfl
  | ok lexer =>
    -- the first text leaves no numeral open, or the second one closes it at once
    have hback : ∀ c ∈ back.toList.head?, lexer.EndsBefore c := by
      intro c hc
      rcases h with hlast | hhead
      · exact .inl (Lexer.numeral_eq_nil_of_getLast hfront hlast)
      · exact .inr fun hnumeral => absurd hnumeral (hhead c hc)
    change Lexer.finish <$> back.toList.foldlM Lexer.read lexer = _
    rw [Lexer.finish_foldlM_read hback, map_eq_pure_bind]
    rfl

/-- Texts that are separated are read one after the other. -/
theorem scan_append_of_ok {front back : String} {tokens more : List Token}
    (h : Separated front back) (hfront : scan front = .ok tokens) (hback : scan back = .ok more) :
    scan (front ++ back) = .ok (tokens ++ more) := by
  rw [scan_append h, hfront, hback]
  rfl

/-- A space separates any two texts. -/
theorem scan_append_space {front back : String} {tokens more : List Token}
    (hfront : scan front = .ok tokens) (hback : scan back = .ok more) :
    scan (front ++ " " ++ back) = .ok (tokens ++ more) := by
  have hspace : scan (front ++ " ") = .ok (tokens ++ []) :=
    scan_append_of_ok (separated_of_head? rfl (by decide) front) hfront rfl
  have hlast : (front ++ " ").toList.getLast? = some ' ' := by
    rw [String.toList_append, List.getLast?_append]
    rfl
  -- the space belongs to no numeral, so it separates from what comes before and behind it
  rw [List.append_nil] at hspace
  exact scan_append_of_ok (separated_of_getLast? hlast (by decide) back) hspace hback

/-! ## Single tokens -/

end Token

namespace Lexer

/-- The characters of a numeral extend the open one as long as it has no second point. -/
theorem foldlM_read_numeral {text : List Char} (tokens : List Token) (numeral : List Char)
    (hchars : ∀ c ∈ text, Numeral.isNumeralChar c) (hpoints : (numeral ++ text).count '.' ≤ 1) :
    text.foldlM read ⟨tokens, numeral⟩ = .ok ⟨tokens, text.reverse ++ numeral⟩ := by
  induction text generalizing numeral with
  | nil => rfl
  | cons c text ih =>
    obtain ⟨hc, htext⟩ := List.forall_mem_cons.mp hchars
    -- a point before this one would make two of them
    have hfirst : ¬ (c = '.' ∧ '.' ∈ numeral) := by
      rintro ⟨rfl, hmem⟩
      have := List.count_pos_iff.mpr hmem
      rw [List.count_append, List.count_cons_self] at hpoints
      omega
    have hread : read ⟨tokens, numeral⟩ c = .ok ⟨tokens, c :: numeral⟩ := by
      rw [read, if_pos hc, extend, if_neg hfirst]
    rw [Fallible.foldlM_cons_of_ok hread, ih (c :: numeral) htext, List.reverse_cons,
      List.append_assoc, List.singleton_append]
    rw [List.cons_append, List.count_cons]
    rwa [List.count_append, List.count_cons, ← Nat.add_assoc, ← List.count_append] at hpoints

end Lexer

namespace Token

theorem scan_operator (op : Operator) : scan op.text = .ok [ofOperator op] := by
  cases op <;> rfl

/-- The text of a numeral is read as this numeral. -/
theorem scan_number {text : String} (h : Numeral.isNumeral text.toList) :
    scan text = .ok [.number text] := by
  obtain ⟨hne, hchars, hpoints⟩ := Numeral.isNumeral_iff.mp h
  have hread := Lexer.foldlM_read_numeral [] [] hchars hpoints
  rw [scan_eq_map, hread, List.append_nil]
  change Except.ok (Lexer.finish ⟨[], text.toList.reverse⟩) = _
  rw [Lexer.finish, Lexer.close_of_numeral_ne_nil (List.reverse_ne_nil_iff.mpr hne)]
  simp only [List.reverse_reverse, String.ofList_toList, List.reverse_singleton]

/-- The text of a well-formed token is read as this token. -/
theorem scan_text {token : Token} (h : token.WellFormed) : scan token.text = .ok [token] := by
  cases token with
  | number text => exact scan_number h
  | operator symbol =>
    obtain ⟨op, rfl⟩ := h
    exact scan_operator op
  | leftParen => rfl
  | rightParen => rfl

/-- The text of well-formed tokens is read as these tokens: the spaces keep neighbouring numerals
apart. -/
theorem scan_render {tokens : List Token} (h : ∀ token ∈ tokens, token.WellFormed) :
    scan (render tokens) = .ok tokens := by
  induction tokens with
  | nil => rfl
  | cons token rest ih =>
    obtain ⟨htoken, hrest⟩ := List.forall_mem_cons.mp h
    cases rest with
    | nil =>
      rw [render, List.map_singleton, String.intercalate_singleton]
      exact scan_text htoken
    | cons next rest =>
      have hnext : scan (render (next :: rest)) = .ok (next :: rest) := ih hrest
      rw [render, List.map_cons, List.map_cons, String.intercalate_cons_cons]
      exact scan_append_space (scan_text htoken) hnext

end Token

/-! ## Tokens that are read -/

namespace Lexer

variable {lexer next : Lexer} {c : Char}

/-- Complete tokens are well-formed, and the open numeral can be completed at any time. -/
structure WellFormed (lexer : Lexer) : Prop where
  tokens : ∀ token ∈ lexer.tokens, token.WellFormed
  chars : ∀ c ∈ lexer.numeral, Numeral.isNumeralChar c
  points : lexer.numeral.count '.' ≤ 1

theorem WellFormed.close (h : lexer.WellFormed) : lexer.close.WellFormed := by
  by_cases hopen : lexer.numeral = []
  · rwa [close_of_numeral_eq_nil hopen]
  · rw [close_of_numeral_ne_nil hopen]
    have hnumeral : Token.WellFormed (.number (String.ofList lexer.numeral.reverse)) := by
      simpa [Token.WellFormed, Numeral.isNumeral, hopen, h.points] using h.chars
    exact ⟨List.forall_mem_cons.mpr ⟨hnumeral, h.tokens⟩, by simp, by simp⟩

/-- Reading a character keeps the complete tokens well-formed and the open numeral a numeral. -/
theorem WellFormed.step (h : lexer.WellFormed) (hstep : lexer.Step c next) : next.WellFormed := by
  cases hstep with
  | blank => exact h.close
  | token _ _ htoken =>
    exact ⟨List.forall_mem_cons.mpr ⟨Token.wellFormed_of_ofChar? htoken, h.close.tokens⟩,
      by simp, by simp⟩
  | numeral hc =>
    rw [extend]
    split
    case isTrue hpoint =>
      -- a second point completes the numeral and begins the next one
      obtain ⟨rfl, -⟩ := hpoint
      exact ⟨h.close.tokens, by simpa using hc, by simp⟩
    case isFalse hpoint =>
      exact ⟨h.tokens, List.forall_mem_cons.mpr ⟨hc, h.chars⟩,
        Numeral.count_point_cons_le h.points hpoint⟩

end Lexer

/-- Every token that is read is well-formed. -/
theorem Token.wellFormed_of_scan {text : String} {tokens : List Token}
    (h : scan text = .ok tokens) : ∀ token ∈ tokens, token.WellFormed := by
  obtain ⟨lexer, hread, hfinish⟩ := Fallible.bind_eq_ok_iff.mp h
  obtain rfl := Except.ok.inj hfinish
  have hlexer : lexer.WellFormed :=
    Fallible.foldlM_invariant Lexer.WellFormed hread ⟨by simp, by simp, by simp⟩
      fun _ _ _ _ hstate hnext => hstate.step (Lexer.read_eq_ok_iff.mp hnext)
  intro token htoken
  exact hlexer.close.tokens token (List.mem_reverse.mp htoken)

end InfixCalculator
