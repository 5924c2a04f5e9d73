import InfixCalculator.Proofs.Lexer.Lexemes
import Mathlib.Data.List.Basic
import Mathlib.Logic.Relation

/-!
# Cutting and spacing a text

A text may be cut anywhere but between two characters of numerals. The tokens of its parts are then
those of the whole, and the first part that cannot be read gives the error. A part made of blanks
has no tokens, so blanks may be put in and taken out at these places: `Token.scan_compositional`.
-/

namespace InfixCalculator.Token

variable {front blanks back : String}

/-- A place of a text where it may be cut: not a digit or a point on both sides. At the beginning
and at the end it always may. -/
def Cut (front back : String) : Prop :=
  front = "" ∨ back = "" ∨
    (∃ c, front.toList.getLast? = some c ∧ ¬ (c.isDigit ∨ c = '.')) ∨
      ∃ c, back.toList.head? = some c ∧ ¬ (c.isDigit ∨ c = '.')

/-- The second text is the first one with blanks put in at a place where it may be cut. -/
inductive Spaced : String → String → Prop
  | insert {front back : String} (blanks : String) (hcut : Cut front back)
      (hblanks : ∀ c ∈ blanks.toList, Text.isBlank c) :
      Spaced (front ++ back) (front ++ blanks ++ back)

/-- No numeral goes on over a cut. -/
theorem Cut.separated (h : Cut front back) : Separated front back := by
  have hnumeral (c : Char) (hc : ¬ (c.isDigit ∨ c = '.')) : ¬ Numeral.isNumeralChar c := by
    simpa [Numeral.isNumeralChar] using hc
  rcases h with rfl | rfl | ⟨c, hlast, hc⟩ | ⟨c, hhead, hc⟩
  · exact .inl (by simp)
  · exact .inr (by simp)
  · exact separated_of_getLast? hlast (hnumeral c hc) back
  · exact separated_of_head? hhead (hnumeral c hc) front

theorem scan_blanks (h : ∀ c ∈ blanks.toList, Text.isBlank c) : scan blanks = .ok [] := by
  have hread := Lexer.foldlM_read_blanks h []
  rw [List.append_nil] at hread
  rw [scan_eq_map, hread]
  rfl

/-- Blanks at a cut do not matter. -/
theorem scan_insert (hcut : Cut front back) (hblanks : ∀ c ∈ blanks.toList, Text.isBlank c) :
    scan (front ++ blanks ++ back) = scan (front ++ back) := by
  by_cases hempty : blanks = ""
  · rw [hempty, String.append_empty]
  have hnumeral (c : Char) (hc : c ∈ blanks.toList) : ¬ Numeral.isNumeralChar c :=
    Numeral.not_isNumeralChar_of_isBlank (hblanks c hc)
  have hfront : Separated front blanks := .inr fun c hc => hnumeral c (List.mem_of_mem_head? hc)
  -- behind the first text there is a blank, whatever its own last character is
  have hback : Separated (front ++ blanks) back := by
    refine .inl fun c hc => hnumeral c (List.mem_of_getLast? ?_)
    rwa [String.toList_append, List.getLast?_append_of_ne_nil _ (by simpa using hempty)] at hc
  rw [scan_append hback, scan_append hfront, scan_append hcut.separated, scan_blanks hblanks]
  cases scan front with
  | error error => rfl
  | ok tokens =>
    change (do let more ← scan back; return tokens ++ [] ++ more) = _
    rw [List.append_nil]
    rfl

/-- Reading goes part by part. If a text is cut, the error of the first part is that of the whole,
then that of the second part, and without an error the tokens of the parts stand one behind the
other. A text may be spaced and its blanks removed, wherever it may be cut and any number of times,
and the outcome of reading it stays the same. -/
theorem scan_compositional :
    (∀ front back, Cut front back →
      (∀ error, scan front = .error error → scan (front ++ back) = .error error) ∧
        (∀ tokens error, scan front = .ok tokens → scan back = .error error →
          scan (front ++ back) = .error error) ∧
        ∀ tokens more, scan front = .ok tokens → scan back = .ok more →
          scan (front ++ back) = .ok (tokens ++ more)) ∧
      ∀ text text', Relation.EqvGen Spaced text text' → scan text = scan text' := by
  refine ⟨fun front back hcut => ⟨fun error hfront => ?_, fun tokens error hfront hback => ?_,
    fun tokens more => scan_append_of_ok hcut.separated⟩, fun text text' h => ?_⟩
  · rw [scan_append hcut.separated, hfront]
    rfl
  · rw [scan_append hcut.separated, hfront, hback]
    rfl
  · induction h with
    | rel text text' h =>
      obtain ⟨blanks, hcut, hblanks⟩ := h
      exact (scan_insert hcut hblanks).symm
    | refl text => rfl
    | symm text text' _ ih => exact ih.symm
    | trans text mid text' _ _ ih ih' => exact ih.trans ih'

/-- Behind the run `1.2.3.` a sign may be cut off. What is wrong behind it is then the error of the
whole, and a space may stand at either side of the sign. -/
theorem scan_compositional_sign :
    Cut "1.2.3." "-x" ∧ scan "1.2.3." = .ok [.number "1.2", .number ".3", .number "."] ∧
      scan "-x" = .error (.invalidCharacter 'x') ∧
      scan ("1.2.3." ++ "-x") = .error (.invalidCharacter 'x') ∧
      Relation.EqvGen Spaced ("1.2.3." ++ " " ++ ("-" ++ "4")) ("1.2.3." ++ "-" ++ " " ++ "4") ∧
      scan ("1.2.3." ++ " " ++ ("-" ++ "4")) = scan ("1.2.3." ++ "-" ++ " " ++ "4") := by
  obtain ⟨hparts, hspaced⟩ := scan_compositional
  have hcut (back : String) : Cut "1.2.3." ("-" ++ back) :=
    .inr (.inr (.inr ⟨'-', by simp, by decide⟩))
  have hcut' : Cut ("1.2.3." ++ "-") "4" := .inr (.inr (.inl ⟨'-', by simp, by decide⟩))
  have hblank : ∀ c ∈ " ".toList, Text.isBlank c := List.forall_mem_singleton.mpr rfl
  have hbefore : Spaced ("1.2.3." ++ ("-" ++ "4")) ("1.2.3." ++ " " ++ ("-" ++ "4")) :=
    .insert " " (hcut "4") hblank
  have hbehind : Spaced ("1.2.3." ++ "-" ++ "4") ("1.2.3." ++ "-" ++ " " ++ "4") :=
    .insert " " hcut' hblank
  rw [String.append_assoc] at hbehind
  have hboth := Relation.EqvGen.trans _ _ _ (.symm _ _ (.rel _ _ hbefore)) (.rel _ _ hbehind)
  have herror := (hparts "1.2.3." "-x" (hcut "x")).2.1 _ _ rfl rfl
  exact ⟨hcut "x", rfl, rfl, herror, hboth, hspaced _ _ hboth⟩

end InfixCalculator.Token
