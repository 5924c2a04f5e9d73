import InfixCalculator.Proofs.Failure
import InfixCalculator.Proofs.Screen.Refinement

/-!
# Sessions without typing

The keys write nothing that is foreign to expressions, and deleting or clearing adds nothing. As
long as no text is typed, the expression can therefore always be read: whatever else is wrong with
it, it has no invalid character and no unknown operator, and no such error is ever displayed
(`Screen.errors_without_typing`).
-/

namespace InfixCalculator

/-- The errors of expressions that consist of known characters. -/
def CalcError.nonlexical : List CalcError :=
  [.emptyExpression, .unbalancedParentheses, .missingOperands, .malformedExpression,
    .invalidNumeral ".", .divisionByZero]

/-- The messages of foreign characters and unknown operators are not among those of other errors. -/
theorem CalcError.message_ne_of_mem_nonlexical {error : CalcError} (h : error ∈ nonlexical) :
    (∀ c, error.message ≠ message (.invalidCharacter c)) ∧
      ∀ symbol, error.message ≠ message (.unknownOperator symbol) := by
  -- their first letters tell the messages apart
  have hfirst : ∀ error ∈ nonlexical, error.message.toList.head? ∉ [some 'c', some 'o'] := by
    decide
  have happend (front back : String) {c : Char} (hfront : front.toList.head? = some c) :
      (front ++ back).toList.head? = some c := by
    rw [String.toList_append, List.head?_append, hfront, Option.some_or]
  refine ⟨fun c hmessage => hfirst error h ?_, fun symbol hmessage => hfirst error h ?_⟩
  · have hletter : (message (.invalidCharacter c)).toList.head? = some 'c' :=
      happend _ _ (happend _ _ (by decide))
    simp [hmessage, hletter]
  · have hletter : (message (.unknownOperator symbol)).toList.head? = some 'o' :=
      happend _ _ (by decide)
    simp [hmessage, hletter]

/-- An expression without foreign characters has a value or another error. -/
theorem evaluate_of_not_isForeign {expression : String}
    (h : ∀ c ∈ expression.toList, ¬ Token.isForeign c) :
    (∃ calculation, evaluate expression = .ok calculation) ∨
      ∃ error ∈ CalcError.nonlexical, evaluate expression = .error error := by
  have hnone : expression.toList.find? Token.isForeign = none := List.find?_eq_none.mpr h
  -- of the ways in which an expression can fail, only a foreign character is excluded
  rcases evaluate_cases expression with
    ⟨-, herror⟩ | ⟨c, hfind, -⟩ | ⟨-, -, herror⟩ | ⟨-, -, -, hrest⟩
  · exact .inr ⟨.emptyExpression, by decide, herror⟩
  · cases hnone.symm.trans hfind
  · exact .inr ⟨.unbalancedParentheses, by decide, herror⟩
  · cases hvalue : evaluate expression with
    | ok calculation => exact .inl ⟨calculation, rfl⟩
    | error error =>
      refine .inr ⟨error, ?_, rfl⟩
      have hmem := hrest error hvalue
      simp only [List.mem_cons, List.not_mem_nil, or_false] at hmem
      rcases hmem with rfl | rfl | rfl | rfl <;> decide

/-! ## Keys and gestures -/

/-- What a key writes. -/
def Key.written : Key → String
  | write symbol => symbol
  | delete | clear => ""

theorem Key.not_isForeign_of_mem_pad :
    ∀ key ∈ pad.flatten, ∀ c ∈ key.written.toList, ¬ Token.isForeign c := by
  have hall : pad.flatten.all fun key => key.written.toList.all (!Token.isForeign ·) := by decide
  intro key hkey c hc
  have hknown := List.all_eq_true.mp (List.all_eq_true.mp hall key hkey) c hc
  simpa using hknown

/-- Whether the gesture does without typing: it types no text, and presses a key only if there is
one. -/
def Gesture.withoutTyping : Gesture → Bool
  | press key => key ∈ Key.pad.flatten
  | type _ => false
  | _ => true

namespace Session

/-- The expression has no foreign character, and a displayed error is neither about such a character
nor about an unknown operator. -/
structure Readable (session : Session) : Prop where
  not_isForeign : ∀ c ∈ session.expression.toList, ¬ Token.isForeign c
  of_error : session.error ≠ "" → ∃ error ∈ CalcError.nonlexical, session.error = errorText error

variable {session : Session}

theorem readable_empty : Readable {} where
  not_isForeign := nofun
  of_error h := absurd rfl h

/-! ## Actions -/

theorem Readable.insert (h : session.Readable) {text : String}
    (htext : ∀ c ∈ text.toList, ¬ Token.isForeign c) : (session.insert text).Readable where
  not_isForeign c hc := by
    rw [Session.insert, String.toList_append, List.mem_append] at hc
    exact hc.elim (h.not_isForeign c) (htext c)
  of_error := h.of_error

theorem Readable.deleteLast (h : session.Readable) : session.deleteLast.Readable where
  not_isForeign c hc := by
    rw [Session.deleteLast, String.toList_ofList] at hc
    exact h.not_isForeign c (List.dropLast_subset _ hc)
  of_error := h.of_error

theorem Readable.clearExpression (h : session.Readable) : session.clearExpression.Readable :=
  { h with not_isForeign := nofun }

theorem readable_clear (session : Session) : session.clear.Readable where
  not_isForeign := nofun
  of_error h := absurd rfl h

/-- Whatever an expression comes to, its error is not about characters. -/
theorem Readable.calculate (h : session.Readable) : session.calculate.Readable := by
  rw [Session.calculate]
  rcases evaluate_of_not_isForeign h.not_isForeign with
    ⟨calculation, hvalue⟩ | ⟨error, hmem, herror⟩
  · rw [hvalue]
    exact { h with of_error := fun herror => absurd rfl herror }
  · rw [herror]
    exact { h with of_error := fun _ => ⟨error, hmem, rfl⟩ }

theorem Readable.toggleTree (h : session.Readable) : session.toggleTree.Readable := by
  rw [Session.toggleTree]
  split
  · exact { h with }
  · exact h

/-! ## Gestures -/

theorem Readable.press (h : session.Readable) {key : Key} (hkey : key ∈ Key.pad.flatten) :
    (session.press key).Readable := by
  cases key with
  | write symbol => exact h.insert (Key.not_isForeign_of_mem_pad _ hkey)
  | delete => exact h.deleteLast
  | clear => exact readable_clear session

/-- A pass that finds a gesture without typing keeps a session readable. -/
theorem Readable.update_input (h : session.Readable) {gesture : Gesture}
    (hgesture : gesture.withoutTyping) : (session.update gesture.input).Readable := by
  rw [Session.update_input]
  -- all gestures but typing are actions, or change no more than the view of the tree
  cases gesture with
  | press key => exact h.press (of_decide_eq_true hgesture)
  | type text => cases hgesture
  | clickCalculate => exact h.calculate
  | clickToggle => exact iteInduction (fun _ => h.toggleTree) fun _ => h
  | clickCross => exact h.clearExpression
  | clickWorking => exact h
  | enter inField => exact iteInduction (fun _ => h.calculate) fun _ => h
  | escape => exact readable_clear session
  | drag delta => exact iteInduction (fun _ => { h with }) fun _ => h
  | zoom factor => exact iteInduction (fun _ => { h with }) fun _ => h

end Session

namespace Screen

/-- Along gestures without typing, every session is readable. -/
theorem readable_of_mem_scanl_perform {gestures : List Gesture} {screen : Screen}
    (h : screen.session.Readable) (hgestures : ∀ gesture ∈ gestures, gesture.withoutTyping) :
    ∀ reached ∈ gestures.scanl perform screen, reached.session.Readable := by
  induction gestures generalizing screen with
  | nil => simpa using h
  | cons gesture gestures ih =>
    obtain ⟨hgesture, hrest⟩ := List.forall_mem_cons.mp hgestures
    rw [List.scanl_cons, List.forall_mem_cons]
    exact ⟨h, ih (h.update_input hgesture) hrest⟩

/-- As long as no text is typed, the expression has a value at any time or fails over something else
than its characters, and no displayed error is about a character or an unknown operator. -/
theorem errors_without_typing (gestures : List Gesture)
    (h : ∀ gesture ∈ gestures, gesture.withoutTyping) :
    ∀ screen ∈ gestures.scanl perform {},
      let session := screen.session
      ((∃ calculation, evaluate session.expression = .ok calculation) ∨
        ∃ error ∈ CalcError.nonlexical, evaluate session.expression = .error error) ∧
      (session.error ≠ "" →
        ∃ error ∈ CalcError.nonlexical, session.error = "Erreur : " ++ error.message) ∧
      (∀ c, session.error ≠ "Erreur : " ++ CalcError.message (.invalidCharacter c)) ∧
      ∀ symbol, session.error ≠ "Erreur : " ++ CalcError.message (.unknownOperator symbol) := by
  intro screen hscreen session
  have hreadable : session.Readable :=
    readable_of_mem_scanl_perform Session.readable_empty h screen hscreen
  -- a message behind the same words as that of a displayed error is the message of this error
  have hmessage {message : String} (hne : ∀ error ∈ CalcError.nonlexical, error.message ≠ message) :
      session.error ≠ "Erreur : " ++ message := by
    intro herror
    have hdisplayed : session.error ≠ "" := by
      intro hempty
      rw [hempty, eq_comm, String.append_eq_empty_iff] at herror
      exact absurd herror.1 (by decide)
    obtain ⟨error, hmem, htext⟩ := hreadable.of_error hdisplayed
    exact hne error hmem ((String.append_right_inj _).mp (htext.symm.trans herror))
  refine ⟨evaluate_of_not_isForeign hreadable.not_isForeign, hreadable.of_error, ?_, ?_⟩
  · exact fun c => hmessage fun error hmem => (CalcError.message_ne_of_mem_nonlexical hmem).1 c
  · exact fun symbol => hmessage fun error hmem =>
      (CalcError.message_ne_of_mem_nonlexical hmem).2 symbol

/-- The keys can write `7/.`, where the point is no number. -/
theorem errors_without_typing_point :
    let gestures : List Gesture :=
      [.press (.write "7"), .press (.write "/"), .press (.write "."), .clickCalculate, .zoom 2]
    let session := (gestures.foldl perform {}).session
    (∀ gesture ∈ gestures, gesture.withoutTyping) ∧
      session.error = "Erreur : valeur invalide : ." ∧
      ∃ error ∈ CalcError.nonlexical, session.error = "Erreur : " ++ error.message := by
  intro gestures session
  have h : ∀ gesture ∈ gestures, gesture.withoutTyping := by decide
  have hmem : gestures.foldl perform {} ∈ gestures.scanl perform {} := by simp [gestures]
  have herror : session.error = "Erreur : valeur invalide : ." := by decide +kernel
  refine ⟨h, herror, (errors_without_typing gestures h _ hmem).2.1 ?_⟩
  change session.error ≠ ""
  rw [herror]
  decide

end Screen

end InfixCalculator
