import InfixCalculator.Proofs.Lexer.Alphabet
import Mathlib.Data.List.Chain
import Mathlib.Data.List.Induction

/-!
# Texts as sequences of lexemes

A text is read by cutting it into lexemes, each of them a token with the blanks before it. Two
numerals may only touch where the first of them would get a second point, which leaves one way to
cut a run of digits and points. `Token.scan_decomposition` says that this is all there is to
reading: the tokens of a text are those of any of its decompositions, and a text without one has a
foreign character.

The text of a list of tokens is one way to separate them. It can be read again exactly if the tokens
are well-formed, and these are exactly the lists that come out of the reading of some text
(`Token.scan_render_inverse`).
-/

namespace InfixCalculator

theorem Numeral.isNumeral_concat {text : List Char} {c : Char} (h : isNumeral text)
    (hc : isNumeralChar c) (hpoint : ¬ (c = '.' ∧ '.' ∈ text)) : isNumeral (text ++ [c]) := by
  obtain ⟨-, hchars, hpoints⟩ := isNumeral_iff.mp h
  refine isNumeral_iff.mpr ⟨by simp, ?_, ?_⟩
  · simpa [or_imp, forall_and, hc] using hchars
  · rw [(List.perm_append_singleton c text).count_eq]
    exact count_point_cons_le hpoints hpoint

/-- A token with the blanks before it. -/
structure Lexeme where
  blanks : List Char
  token : Token
  isBlank : ∀ c ∈ blanks, Text.isBlank c
  wellFormed : token.WellFormed

namespace Lexeme

/-- The characters of a lexeme. -/
def spelling (lexeme : Lexeme) : List Char :=
  lexeme.blanks ++ lexeme.token.text.toList

/-- Whether the second lexeme may stand right behind the first. A numeral that touches the numeral
before it begins with what would be the second point of that one. -/
def Follows (first second : Lexeme) : Prop :=
  ∀ front back, first.token = .number front → second.token = .number back → second.blanks = [] →
    '.' ∈ front.toList ∧ back.toList.head? = some '.'

end Lexeme

/-- A way to cut a text into lexemes and the blanks behind the last of them. -/
structure Decomposition (text : List Char) where
  lexemes : List Lexeme
  trailing : List Char
  follows : lexemes.IsChain Lexeme.Follows
  isBlank : ∀ c ∈ trailing, Text.isBlank c
  spells : lexemes.flatMap Lexeme.spelling ++ trailing = text

/-- The tokens of the lexemes. -/
def Decomposition.tokens {text : List Char} (parts : Decomposition text) : List Token :=
  parts.lexemes.map Lexeme.token

/-! ## Reading the lexemes of a text -/

/-- A well-formed token is a numeral, or it is written by one character that belongs to none. -/
theorem Token.WellFormed.number_or_single {token : Token} (h : token.WellFormed) :
    (∃ text, token = .number text ∧ Numeral.isNumeral text.toList) ∨
      ∃ c, token.text.toList = [c] ∧ ¬ Numeral.isNumeralChar c := by
  cases token with
  | number text => exact .inl ⟨text, rfl, h⟩
  | operator symbol =>
    obtain ⟨op, rfl⟩ := h
    refine .inr ⟨op.symbol, op.toList_text, ?_⟩
    cases op <;> decide
  | leftParen => exact .inr ⟨'(', rfl, by decide⟩
  | rightParen => exact .inr ⟨')', rfl, by decide⟩

/-- A lexeme can only begin with a character of a numeral if it is one, and no blank comes first. -/
theorem Lexeme.of_head?_spelling {lexeme : Lexeme} {back : List Char} {c : Char}
    (h : (lexeme.spelling ++ back).head? = some c) (hc : Numeral.isNumeralChar c) :
    lexeme.blanks = [] ∧ ∃ text, lexeme.token = .number text ∧ text.toList.head? = some c := by
  obtain ⟨blanks, token, hblanks, htoken⟩ := lexeme
  cases blanks with
  | cons blank blanks =>
    obtain rfl : blank = c := Option.some.inj h
    exact absurd hc (Numeral.not_isNumeralChar_of_isBlank (hblanks blank List.mem_cons_self))
  | nil =>
    refine ⟨rfl, ?_⟩
    rw [spelling, List.nil_append] at h
    rcases htoken.number_or_single with ⟨text, rfl, hnumeral⟩ | ⟨d, hsingle, hd⟩
    · have hne := (Numeral.isNumeral_iff.mp hnumeral).1
      exact ⟨text, rfl, (List.head?_append_of_ne_nil _ hne).symm.trans h⟩
    · rw [hsingle] at h
      obtain rfl : d = c := Option.some.inj h
      exact absurd hc hd

namespace Lexer

variable {token : Token}

theorem foldlM_read_blanks {blanks : List Char} (h : ∀ c ∈ blanks, Text.isBlank c)
    (back : List Char) : (blanks ++ back).foldlM read {} = back.foldlM read {} := by
  induction blanks with
  | nil => rfl
  | cons c blanks ih =>
    obtain ⟨hc, hblanks⟩ := List.forall_mem_cons.mp h
    have hread : read {} c = .ok {} := by
      rw [read, if_neg (Numeral.not_isNumeralChar_of_isBlank hc), if_pos hc]
      rfl
    rw [List.cons_append, Fallible.foldlM_cons_of_ok hread, ih hblanks]

/-- Behind the text of a token no numeral is open, except for the one that the token is. -/
theorem foldlM_read_text (h : token.WellFormed) :
    ∃ lexer, token.text.toList.foldlM read {} = .ok lexer ∧ lexer.finish = [token] ∧
      (lexer.numeral = [] ∨ ∃ text, token = .number text ∧
        lexer.numeral = text.toList.reverse) := by
  obtain ⟨lexer, hread, hfinish⟩ := Fallible.bind_eq_ok_iff.mp (Token.scan_text h)
  refine ⟨lexer, hread, Except.ok.inj hfinish, ?_⟩
  -- a numeral is still open behind its last character, everything else closes what was open
  rcases h.number_or_single with ⟨text, rfl, hnumeral⟩ | ⟨c, hsingle, hc⟩
  · obtain ⟨-, hchars, hpoints⟩ := Numeral.isNumeral_iff.mp hnumeral
    obtain rfl := Except.ok.inj (hread.symm.trans (foldlM_read_numeral [] [] hchars hpoints))
    exact .inr ⟨text, rfl, List.append_nil _⟩
  · refine .inl (numeral_eq_nil_of_getLast hread ?_)
    rw [hsingle]
    rintro d ⟨⟩
    exact hc

/-- A lexeme is read as its token, unless the text behind it goes on with a numeral. -/
theorem finish_foldlM_read_spelling (lexeme : Lexeme) {back : List Char}
    (hback : ∀ text, lexeme.token = .number text → ∀ c ∈ back.head?, Numeral.isNumeralChar c →
      c = '.' ∧ '.' ∈ text.toList) :
    finish <$> (lexeme.spelling ++ back).foldlM read {} =
      (lexeme.token :: ·) <$> finish <$> back.foldlM read {} := by
  obtain ⟨lexer, hread, hfinish, hnumeral⟩ := foldlM_read_text lexeme.wellFormed
  have hends : ∀ c ∈ back.head?, lexer.EndsBefore c := by
    intro c hc
    refine hnumeral.imp_right ?_
    rintro ⟨text, htoken, hopen⟩ hchar
    rw [hopen, List.mem_reverse]
    exact hback text htoken c hc hchar
  rw [Lexeme.spelling, List.append_assoc, foldlM_read_blanks lexeme.isBlank,
    Fallible.foldlM_append_of_ok hread, finish_foldlM_read hends, hfinish]
  rfl

/-- Lexemes that may stand behind each other are read as their tokens. -/
theorem finish_foldlM_read_lexemes {lexemes : List Lexeme} {trailing : List Char}
    (hfollows : lexemes.IsChain Lexeme.Follows) (htrailing : ∀ c ∈ trailing, Text.isBlank c) :
    finish <$> (lexemes.flatMap Lexeme.spelling ++ trailing).foldlM read {} =
      .ok (lexemes.map Lexeme.token) := by
  induction lexemes with
  | nil =>
    have hread := foldlM_read_blanks htrailing []
    rw [List.append_nil] at hread
    rw [List.flatMap_nil, List.nil_append, hread]
    rfl
  | cons lexeme rest ih =>
    obtain ⟨hnext, hrest⟩ := List.isChain_cons.mp hfollows
    rw [List.flatMap_cons, List.append_assoc, finish_foldlM_read_spelling, ih hrest]
    · rfl
    -- a numeral that begins right behind this one has its point there
    intro front hfront c hc hchar
    cases rest with
    | nil =>
      have hmem : c ∈ trailing := List.mem_of_mem_head? hc
      exact absurd hchar (Numeral.not_isNumeralChar_of_isBlank (htrailing c hmem))
    | cons next rest =>
      rw [List.flatMap_cons, List.append_assoc] at hc
      obtain ⟨hblanks, back, hback, hhead⟩ := Lexeme.of_head?_spelling hc hchar
      obtain ⟨hpoint, hsecond⟩ := hnext next rfl front back hfront hback hblanks
      exact ⟨Option.some.inj (hhead.symm.trans hsecond), hpoint⟩

end Lexer

/-! ## Cutting a text into lexemes -/

namespace Decomposition

variable {text : List Char} {c : Char}

/-- One more blank. -/
def appendBlank (parts : Decomposition text) (h : Text.isBlank c) :
    Decomposition (text ++ [c]) where
  lexemes := parts.lexemes
  trailing := parts.trailing ++ [c]
  follows := parts.follows
  isBlank := by simpa [or_imp, forall_and, h] using parts.isBlank
  spells := by rw [← List.append_assoc, parts.spells]

/-- One more token, behind the blanks at the end. -/
def appendToken (parts : Decomposition text) {token : Token} (h : token.WellFormed)
    (hfollows : ∀ last ∈ parts.lexemes.getLast?,
      last.Follows ⟨parts.trailing, token, parts.isBlank, h⟩) :
    Decomposition (text ++ token.text.toList) where
  lexemes := parts.lexemes ++ [⟨parts.trailing, token, parts.isBlank, h⟩]
  trailing := []
  follows := by
    refine List.isChain_append.mpr ⟨parts.follows, .singleton _, ?_⟩
    rintro last hlast _ ⟨⟩
    exact hfollows last hlast
  isBlank := by simp
  spells := by
    have hspells := congrArg (· ++ token.text.toList) parts.spells
    simpa [Lexeme.spelling] using hspells

/-- One more character of the numeral at the end. -/
def extendNumeral (parts : Decomposition text) {front : List Lexeme} {last : Lexeme}
    {numeral : String} (hlexemes : parts.lexemes = front ++ [last])
    (hlast : last.token = .number numeral) (htrailing : parts.trailing = [])
    (h : Numeral.isNumeral (numeral.push c).toList) : Decomposition (text ++ [c]) where
  lexemes := front ++ [⟨last.blanks, .number (numeral.push c), last.isBlank, h⟩]
  trailing := []
  follows := by
    obtain ⟨hfront, -, hbefore⟩ := List.isChain_append.mp (hlexemes ▸ parts.follows)
    refine List.isChain_append.mpr ⟨hfront, .singleton _, ?_⟩
    -- the numeral begins as before, so it may stand where it stood
    rintro previous hprevious _ ⟨⟩ first _ hfirst ⟨⟩ hblanks
    obtain ⟨hpoint, hhead⟩ := hbefore previous hprevious last rfl first numeral hfirst hlast hblanks
    refine ⟨hpoint, ?_⟩
    rw [String.toList_push, List.head?_append, hhead]
    rfl
  isBlank := by simp
  spells := by
    have hspells := congrArg (· ++ [c]) parts.spells
    simpa [hlexemes, htrailing, Lexeme.spelling, hlast, Token.text] using hspells

/-- A character of a numeral extends the last lexeme, or it begins a new one. -/
theorem nonempty_append_numeral (parts : Decomposition text) (hc : Numeral.isNumeralChar c) :
    Nonempty (Decomposition (text ++ [c])) := by
  by_cases hopen : ∃ front last numeral, parts.lexemes = front ++ [last] ∧
      last.token = .number numeral ∧ parts.trailing = [] ∧ ¬ (c = '.' ∧ '.' ∈ numeral.toList)
  · obtain ⟨front, last, numeral, hlexemes, hlast, htrailing, hpoint⟩ := hopen
    have hnumeral : Numeral.isNumeral numeral.toList := by
      have hwellFormed := last.wellFormed
      rwa [hlast] at hwellFormed
    have hextended := Numeral.isNumeral_concat hnumeral hc hpoint
    rw [← String.toList_push] at hextended
    exact ⟨parts.extendNumeral hlexemes hlast htrailing hextended⟩
  · have hnumeral : Token.WellFormed (.number (String.ofList [c])) := by
      rw [Token.WellFormed, String.toList_ofList, Numeral.isNumeral_iff]
      exact ⟨by simp, by simpa using hc, List.count_le_length⟩
    have hfollows : ∀ last ∈ parts.lexemes.getLast?,
        last.Follows ⟨parts.trailing, .number (String.ofList [c]), parts.isBlank, hnumeral⟩ := by
      rintro last hmem numeral _ hlast ⟨⟩ htrailing
      obtain ⟨front, hlexemes⟩ := List.getLast?_eq_some_iff.mp hmem
      -- what touches a numeral and does not extend it is a second point
      have hpoint : c = '.' ∧ '.' ∈ numeral.toList :=
        not_not.mp fun hpoint => hopen ⟨front, last, numeral, hlexemes, hlast, htrailing, hpoint⟩
      rw [String.toList_ofList, hpoint.1]
      exact ⟨hpoint.2, rfl⟩
    have hparts := parts.appendToken hnumeral hfollows
    rw [Token.text, String.toList_ofList] at hparts
    exact ⟨hparts⟩

/-- A text without foreign characters can be cut into lexemes. -/
theorem nonempty_of_not_isForeign (h : ∀ c ∈ text, ¬ Token.isForeign c) :
    Nonempty (Decomposition text) := by
  -- from the end, since a run of digits and points is cut from the left
  induction text using List.reverseRecOn with
  | nil => exact ⟨⟨[], [], .nil, by simp, rfl⟩⟩
  | append_singleton text c ih =>
    obtain ⟨hbefore, hc⟩ := List.forall_mem_append.mp h
    obtain ⟨parts⟩ := ih hbefore
    by_cases hnumeral : Numeral.isNumeralChar c
    · exact parts.nonempty_append_numeral hnumeral
    by_cases hblank : Text.isBlank c
    · exact ⟨parts.appendBlank hblank⟩
    have hsingle : ∃ token, Token.ofChar? c = some token := by
      refine Option.ne_none_iff_exists'.mp fun hnone => hc c (by simp) ?_
      exact Token.isForeign_iff.mpr ⟨hnumeral, hblank, hnone⟩
    obtain ⟨token, htoken⟩ := hsingle
    have hfollows : ∀ last ∈ parts.lexemes.getLast?, last.Follows
        ⟨parts.trailing, token, parts.isBlank, Token.wellFormed_of_ofChar? htoken⟩ := by
      rintro last - front _ - rfl -
      cases Token.isSingle_of_ofChar? htoken
    have hparts := parts.appendToken _ hfollows
    rw [Token.toList_text_of_ofChar? htoken] at hparts
    exact ⟨hparts⟩

end Decomposition

namespace Token

/-- The tokens of a text are those of any decomposition of it into lexemes, and they are the same
for all of them. The text cannot be read exactly if it has a foreign character, and the first one is
the error. -/
theorem scan_decomposition (text : String) :
    (∀ tokens, scan text = .ok tokens ↔
        ∃ parts : Decomposition text.toList, parts.tokens = tokens) ∧
      (∀ parts parts' : Decomposition text.toList, parts.tokens = parts'.tokens) ∧
      ((∃ error, scan text = .error error) ↔ ∃ c ∈ text.toList, isForeign c) ∧
      ∀ error, scan text = .error error ↔
        ∃ c, text.toList.find? isForeign = some c ∧ error = .invalidCharacter c := by
  have hread (parts : Decomposition text.toList) : scan text = .ok parts.tokens := by
    have hlexemes := Lexer.finish_foldlM_read_lexemes parts.follows parts.isBlank
    rwa [parts.spells, ← scan_eq_map] at hlexemes
  have hforeign : (∃ error, scan text = .error error) ↔ ∃ c ∈ text.toList, isForeign c := by
    constructor
    · rintro ⟨error, herror⟩
      obtain ⟨c, hfind, -⟩ := scan_eq_error_iff.mp herror
      exact ⟨c, List.mem_of_find?_eq_some hfind, List.find?_some hfind⟩
    · intro h
      obtain ⟨c, hfind⟩ := Option.isSome_iff_exists.mp (List.find?_isSome.mpr h)
      exact ⟨.invalidCharacter c, scan_eq_error_iff.mpr ⟨c, hfind, rfl⟩⟩
  refine ⟨fun tokens => ⟨fun h => ?_, ?_⟩, fun parts parts' => ?_, hforeign,
    fun error => scan_eq_error_iff⟩
  · -- what is read has no foreign character, so there is a decomposition, and it gives the tokens
    have hknown : ∀ c ∈ text.toList, ¬ isForeign c := by
      intro c hc hcforeign
      obtain ⟨error, herror⟩ := hforeign.mpr ⟨c, hc, hcforeign⟩
      cases h.symm.trans herror
    obtain ⟨parts⟩ := Decomposition.nonempty_of_not_isForeign hknown
    exact ⟨parts, Except.ok.inj ((hread parts).symm.trans h)⟩
  · rintro ⟨parts, rfl⟩
    exact hread parts
  · exact Except.ok.inj ((hread parts).symm.trans (hread parts'))

/-! ## Rendered tokens -/

theorem scan_render_of_scan {text : String} {tokens : List Token} (h : scan text = .ok tokens) :
    scan (render tokens) = .ok tokens :=
  scan_render (wellFormed_of_scan h)

/-- Rendering is inverted by reading on the lists of well-formed tokens, and on no others. These are
the lists that reading can return, so that different ones of them are rendered differently, and
rendering what was read and reading it again changes nothing. -/
theorem scan_render_inverse :
    (∀ tokens, scan (render tokens) = .ok tokens ↔ ∀ token ∈ tokens, token.WellFormed) ∧
      (∀ tokens, (∃ text, scan text = .ok tokens) ↔ ∀ token ∈ tokens, token.WellFormed) ∧
      (∀ text text' tokens tokens', scan text = .ok tokens → scan text' = .ok tokens' →
        render tokens = render tokens' → tokens = tokens') ∧
      ∀ text, (do
        let tokens ← scan text
        scan (render tokens)) = scan text := by
  refine ⟨fun tokens => ⟨wellFormed_of_scan, scan_render⟩, fun tokens => ⟨?_, fun h => ?_⟩, ?_,
    fun text => ?_⟩
  · rintro ⟨text, h⟩
    exact wellFormed_of_scan h
  · exact ⟨render tokens, scan_render h⟩
  · intro text text' tokens tokens' h h' hrender
    have hread := scan_render_of_scan h
    rw [hrender, scan_render_of_scan h'] at hread
    exact (Except.ok.inj hread).symm
  · cases h : scan text with
    | error error => rfl
    | ok tokens => exact scan_render_of_scan h

/-- The space keeps numerals apart whose characters would make one numeral together. -/
example : scan (render [.number "1", .number "2."]) = .ok [.number "1", .number "2."] := rfl

end Token

end InfixCalculator
