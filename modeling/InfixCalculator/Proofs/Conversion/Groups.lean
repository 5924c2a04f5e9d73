import InfixCalculator.Proofs.Conversion.Rearrangement
import Mathlib.Data.List.Basic

/-!
# Groups are converted by themselves

Between its parentheses a group is converted as if it stood alone, and around them it behaves like
one numeral: `Postfix.ofInfix_enclose`. Two facts about a conversion make up the proof. The
operators that wait outside a group are neither read nor changed inside
(`Conversion.foldlM_read_within`), and what was written earlier has no influence on what is written
later (`Conversion.read_behind`).
-/

namespace InfixCalculator

/-- The tokens in a pair of parentheses. -/
def Token.enclose (tokens : List Token) : List Token :=
  .leftParen :: tokens ++ [.rightParen]

namespace Conversion

variable {state inner next final : Conversion} {token : Token} {tokens : List Token}

/-- The state with further tokens that were written before all others. -/
def behind (state : Conversion) (earlier : List Token) : Conversion :=
  { state with written := state.written ++ earlier }

/-- The conversion of a group that was opened in the outer state. -/
def within (inner outer : Conversion) : Conversion :=
  { inner.behind outer.written with
    enclosing := inner.enclosing ++ outer.waiting :: outer.enclosing }

/-! ## Earlier tokens -/

theorem write_behind (state : Conversion) (earlier : List Token) (operators : List Operator) :
    (state.behind earlier).write operators = (state.write operators).behind earlier := by
  simp only [write, behind, List.append_assoc]

/-- What was written earlier does not matter to the reading of a token. -/
theorem read_behind (state : Conversion) (earlier : List Token) (token : Token) :
    (state.behind earlier).read token = (·.behind earlier) <$> state.read token := by
  cases token with
  | number text => rfl
  | leftParen => rfl
  | operator symbol =>
    rw [read, read]
    cases Operator.ofText symbol with
    | error error => rfl
    | ok op =>
      simp only [write_behind]
      rfl
  | rightParen =>
    simp only [read, write_behind]
    cases state with
    | mk written waiting enclosing => cases enclosing <;> rfl

theorem finish_behind (state : Conversion) (earlier : List Token) :
    (state.behind earlier).finish = (earlier.reverse ++ ·) <$> state.finish := by
  simp only [finish, write_behind]
  cases state with
  | mk written waiting enclosing =>
    cases enclosing with
    | nil => exact congrArg Except.ok List.reverse_append
    | cons outer enclosing => rfl

/-- What is written from a state on if the tokens are read and no others follow. -/
def complete (state : Conversion) (tokens : List Token) : Except CalcError (List Token) := do
  let final ← tokens.foldlM read { state with written := [] }
  final.finish

theorem foldlM_read_finish (state : Conversion) (tokens : List Token) :
    (do let final ← tokens.foldlM read state; final.finish) =
      (state.written.reverse ++ ·) <$> state.complete tokens := by
  have hread : tokens.foldlM read state =
      (·.behind state.written) <$> tokens.foldlM read { state with written := [] } :=
    Fallible.foldlM_map (·.behind state.written)
      (fun state token => read_behind state _ token) tokens { state with written := [] }
  rw [hread, complete]
  cases tokens.foldlM read { state with written := [] } with
  | error error => rfl
  | ok final => exact final.finish_behind state.written

/-! ## Outer operators -/

/-- Inside a group the operators that wait outside are left alone. -/
theorem Step.within (h : inner.Step token next) (outer : Conversion) :
    (inner.within outer).Step token (next.within outer) := by
  cases h with
  | number text => exact .number text
  | leftParen => exact .leftParen
  | operator op =>
    have hwait : (inner.wait op).within outer = (inner.within outer).wait op := by
      simp [Conversion.within, wait, write, behind]
    rw [hwait]
    exact .operator op
  | @rightParen group enclosing henclosing =>
    have hleave : (inner.leave group enclosing).within outer =
        (inner.within outer).leave group (enclosing ++ outer.waiting :: outer.enclosing) := by
      simp [Conversion.within, leave, write, behind]
    rw [hleave]
    refine .rightParen ?_
    rw [Conversion.within, henclosing, List.cons_append]

theorem foldlM_read_within (h : tokens.foldlM read inner = .ok final) (outer : Conversion) :
    tokens.foldlM read (inner.within outer) = .ok (final.within outer) := by
  induction tokens generalizing inner with
  | nil => exact Except.ok.inj h ▸ rfl
  | cons token rest ih =>
    obtain ⟨next, hnext, hrest⟩ := Fallible.foldlM_cons_eq_ok_iff.mp h
    have hstep := (read_eq_ok_iff.mp hnext).within outer
    rw [Fallible.foldlM_cons_of_ok (read_eq_ok_iff.mpr hstep), ih hrest]

/-- Wherever the tokens are read, they do no more than write the program. -/
def Writes (tokens program : List Token) : Prop :=
  ∀ state : Conversion,
    tokens.foldlM read state = .ok { state with written := program.reverse ++ state.written }

theorem writes_number (text : String) : Writes [.number text] [.number text] := fun _ => rfl

/-- A group writes its own postfix form, and its closing parenthesis restores what its opening one
has found. -/
theorem writes_group {group program : List Token} (h : Postfix.ofInfix group = .ok program) :
    Writes (Token.enclose group) program := by
  obtain ⟨final, hread, hclosed, rfl⟩ := Postfix.ofInfix_eq_ok_iff.mp h
  intro state
  have henter : state.read .leftParen = .ok (({} : Conversion).within state) := rfl
  have hleave : (final.within state).read .rightParen =
      .ok ((final.within state).leave state.waiting state.enclosing) := by
    refine read_eq_ok_iff.mpr (.rightParen ?_)
    rw [within, hclosed, List.nil_append]
  have hwritten : (final.within state).leave state.waiting state.enclosing =
      { state with
        written := (final.write final.waiting).written.reverse.reverse ++ state.written } := by
    simp [leave, within, write, behind]
  rw [Token.enclose, List.cons_append, Fallible.foldlM_cons_of_ok henter,
    Fallible.foldlM_append_of_ok (foldlM_read_within hread state),
    Fallible.foldlM_cons_of_ok hleave, hwritten]
  rfl

end Conversion

namespace Postfix

open Conversion

variable {group program item : List Token}

/-- What a part of the tokens writes stands between what is written before and behind it. -/
theorem ofInfix_of_writes (h : Writes item program) (front back : List Token) :
    ofInfix (front ++ item ++ back) = (do
      let mid ← front.foldlM read {}
      let rest ← mid.complete back
      return mid.written.reverse ++ program ++ rest) := by
  rw [ofInfix, List.foldlM_append, List.foldlM_append, bind_assoc, bind_assoc]
  refine congrArg (_ >>= ·) (funext fun mid => ?_)
  rw [Fallible.bind_of_ok (h mid), foldlM_read_finish, map_eq_pure_bind]
  simp only [List.reverse_append, List.reverse_reverse]
  rfl

theorem ofInfix_eq_error_iff_of_writes (h : Writes item program) (front back : List Token)
    (error : CalcError) :
    ofInfix (front ++ item ++ back) = .error error ↔
      front.foldlM read {} = .error error ∨
        ∃ mid, front.foldlM read {} = .ok mid ∧ mid.complete back = .error error := by
  rw [ofInfix_of_writes h, Fallible.bind_eq_error_iff]
  refine or_congr_right (exists_congr fun mid => and_congr_right fun _ => ?_)
  rw [Fallible.bind_eq_error_iff]
  exact or_iff_left fun ⟨rest, _, hreturn⟩ => nomatch hreturn

theorem count_number_of_ofInfix {tokens : List Token} (h : ofInfix tokens = .ok program)
    (text : String) : program.count (.number text) = tokens.count (.number text) := by
  rw [(perm_of_ofInfix h).count_eq, List.count_filter rfl]

/-- What is written before and behind a numeral that occurs nowhere else. -/
theorem exists_complete_of_ofInfix {front back before after : List Token} {text : String}
    (hfront : .number text ∉ front) (hback : .number text ∉ back)
    (h : ofInfix (front ++ [.number text] ++ back) = .ok (before ++ [.number text] ++ after)) :
    ∃ mid, front.foldlM read {} = .ok mid ∧ mid.written.reverse = before ∧
      mid.complete back = .ok after := by
  -- the numeral occurs once in the postfix form, so the tokens around it are determined
  have hcount := count_number_of_ofInfix h text
  simp only [List.count_append, List.count_singleton_self, List.count_eq_zero.mpr hfront,
    List.count_eq_zero.mpr hback] at hcount
  have hbefore : .number text ∉ before := List.count_eq_zero.mp (by omega)
  have hafter : .number text ∉ after := List.count_eq_zero.mp (by omega)
  rw [ofInfix_of_writes (writes_number text)] at h
  obtain ⟨mid, hmid, h⟩ := Fallible.bind_eq_ok_iff.mp h
  obtain ⟨rest, hrest, h⟩ := Fallible.bind_eq_ok_iff.mp h
  have hparts : before ++ .number text :: after = mid.written.reverse ++ .number text :: rest := by
    simpa using (Except.ok.inj h).symm
  obtain ⟨rfl, -, rfl⟩ := (List.append_cons_inj_of_notMem hbefore hafter).mp hparts
  exact ⟨mid, hmid, rfl, hrest⟩

/-- A group with a postfix form can stand wherever a numeral can, and its postfix form stands where
the numeral would. Where the conversion fails with the numeral, it fails alike with the group. So
parentheses around everything, or a second pair around a group, change nothing. -/
theorem ofInfix_enclose (h : ofInfix group = .ok program) :
    (∀ (front back : List Token) (text : String),
      .number text ∉ front → .number text ∉ back →
        (∀ before after,
          ofInfix (front ++ [.number text] ++ back) = .ok (before ++ [.number text] ++ after) →
            ofInfix (front ++ Token.enclose group ++ back) = .ok (before ++ program ++ after)) ∧
        ∀ error,
          ofInfix (front ++ [.number text] ++ back) = .error error →
            ofInfix (front ++ Token.enclose group ++ back) = .error error) ∧
      ofInfix (Token.enclose group) = .ok program ∧
      ∀ front back : List Token,
        ofInfix (front ++ Token.enclose (Token.enclose group) ++ back) =
          ofInfix (front ++ Token.enclose group ++ back) := by
  have hgroup := writes_group h
  have halone : ofInfix (Token.enclose group) = .ok program := by
    have hwritten := ofInfix_of_writes hgroup [] []
    rw [List.nil_append, List.append_nil] at hwritten
    rw [hwritten]
    exact congrArg Except.ok (List.append_nil program)
  refine ⟨fun front back text hfront hback => ⟨fun before after hnumber => ?_, fun error => ?_⟩,
    halone, fun front back => ?_⟩
  · obtain ⟨mid, hmid, rfl, hafter⟩ := exists_complete_of_ofInfix hfront hback hnumber
    rw [ofInfix_of_writes hgroup, Fallible.bind_of_ok hmid, Fallible.bind_of_ok hafter]
    rfl
  · rw [ofInfix_eq_error_iff_of_writes (writes_number text),
      ofInfix_eq_error_iff_of_writes hgroup]
    exact id
  · rw [ofInfix_of_writes (writes_group halone), ofInfix_of_writes hgroup]

/-- Neither the division that waits for `1 - 2` nor the power behind it reaches into the group. -/
theorem ofInfix_enclose_between_operators :
    let group : List Token := [.number "1", .operator "-", .number "2"]
    let program : List Token := [.number "1", .number "2", .operator "-"]
    let front : List Token :=
      [.number "3", .operator "^", .leftParen, .number "4", .operator "/"]
    let back : List Token := [.operator "^", .number "5", .rightParen, .operator "*"]
    let before : List Token := [.number "3", .number "4"]
    let after : List Token :=
      [.number "5", .operator "^", .operator "/", .operator "^", .operator "*"]
    ofInfix group = .ok program ∧
      .number "0" ∉ front ∧ .number "0" ∉ back ∧
      ofInfix (front ++ [.number "0"] ++ back) = .ok (before ++ [.number "0"] ++ after) ∧
      ofInfix (front ++ Token.enclose group ++ back) = .ok (before ++ program ++ after) ∧
      ofInfix (front ++ [.number "0"] ++ []) = .error .unbalancedParentheses ∧
      ofInfix (front ++ Token.enclose group ++ []) = .error .unbalancedParentheses ∧
      ofInfix (Token.enclose group) = .ok program := by
  intro group program front back before after
  have hgroup : ofInfix group = .ok program := rfl
  have hfront : .number "0" ∉ front := by decide
  have hback : .number "0" ∉ back := by decide
  have hok : ofInfix (front ++ [.number "0"] ++ back) = .ok (before ++ [.number "0"] ++ after) :=
    rfl
  have herror : ofInfix (front ++ [.number "0"] ++ []) = .error .unbalancedParentheses := rfl
  obtain ⟨hcontext, halone, -⟩ := ofInfix_enclose hgroup
  exact ⟨hgroup, hfront, hback, hok, (hcontext front back "0" hfront hback).1 before after hok,
    herror, (hcontext front [] "0" hfront (by decide)).2 _ herror, halone⟩

end Postfix

end InfixCalculator
