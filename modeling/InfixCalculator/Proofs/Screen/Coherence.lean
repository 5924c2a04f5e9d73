import InfixCalculator.Proofs.Drawing
import InfixCalculator.Proofs.Session.Coherence
import InfixCalculator.Screen

/-!
# The parts of the screen fit together

The lines of the error and the result, the working, the caption of the button of the tree and the
drawing depend on different parts of the session. On every screen that gestures lead to they agree
(`Screen.coherent_parts`), because the session behind it is coherent.
-/

namespace InfixCalculator

/-- No label of a well-formed tree is empty. -/
theorem Tree.WellFormed.ne_empty_of_mem_labels {tree : Tree} (h : tree.WellFormed) :
    ∀ label ∈ tree.labels, label ≠ "" := by
  induction h with
  | @leaf text htext =>
    have hne : text ≠ "" := by
      rintro rfl
      cases htext
    simpa [Tree.labels, Token.text] using hne
  | @node op left right _ _ ihl ihr =>
    have hne : op.text ≠ "" := by cases op <;> decide
    rw [Tree.labels_eq]
    simpa [Tree.label, Tree.children, or_imp, forall_and, hne] using ⟨ihl, ihr⟩

namespace Session

variable {session : Session}

/-- The labels of the nodes that are painted. -/
def paintedLabels (session : Session) (corner : Point) (width : Float32) : List String :=
  (session.drawing corner width).filterMap Shape.text?

/-- The texts listed for the screen are those that the drawing paints. -/
theorem paintedLabels_eq (session : Session) (corner : Point) (width : Float32) :
    session.paintedLabels corner width = session.treeTexts := by
  rw [paintedLabels, drawing, treeTexts]
  cases session.visibleTree? with
  | none => rfl
  | some tree => exact tree.filterMap_text?_drawing _

/-- A drawing has a text for each node, and a tree has at least one. -/
theorem treeTexts_ne_nil_iff : session.treeTexts ≠ [] ↔ session.visibleTree?.isSome := by
  rw [treeTexts]
  cases session.visibleTree? with
  | none => simp
  | some tree => simp [Tree.labels_eq tree]

/-- What is drawn is the tree of the session, in preorder. -/
theorem treeTexts_eq_nil_or (session : Session) :
    session.treeTexts = [] ∨ ∃ tree, session.tree = some tree ∧
      session.treeTexts = tree.labels := by
  cases hvisible : session.visibleTree? with
  | none => exact .inl (by rw [treeTexts, hvisible])
  | some tree =>
    obtain ⟨-, htree⟩ := Option.ite_none_right_eq_some.mp hvisible
    exact .inr ⟨tree, htree, by rw [treeTexts, hvisible]⟩

/-! ## Coherent sessions -/

/-- The line below the field shows an error or a result, never both. -/
theorem Coherent.errorLine?_eq_none_or (h : session.Coherent) :
    session.errorLine? = none ∨ session.resultLine? = none := by
  by_cases herror : session.error = ""
  · exact .inl (if_pos herror)
  · exact .inr (if_pos (h.of_error herror).1)

/-- Beside an error there is neither a drawing nor a working. -/
theorem Coherent.of_errorLine (h : session.Coherent) (hline : session.errorLine? ≠ none) :
    session.treeTexts = [] ∧ session.working = {} := by
  have herror : session.error ≠ "" := fun herror => hline (if_pos herror)
  obtain ⟨-, htree, hworking⟩ := h.of_error herror
  refine ⟨?_, hworking⟩
  rw [treeTexts, visibleTree?, htree, ite_self]

/-- The button offers to hide the tree exactly while one is drawn. -/
theorem Coherent.toggleCaption_eq_iff (h : session.Coherent) :
    session.toggleCaption = "Masquer l’arbre" ↔ session.treeTexts ≠ [] := by
  rw [treeTexts_ne_nil_iff, isSome_visibleTree?, and_iff_left_of_imp h.isSome_tree, toggleCaption]
  split <;> simp [*]

/-! ## Texts that are never empty -/

/-- An empty field shows its hint. -/
theorem ne_empty_of_mem_entryTexts : ∀ text ∈ session.entryTexts, text ≠ "" := by
  have hexpression : (if session.expression = "" then hint else session.expression) ≠ "" := by
    split
    · decide
    · assumption
  have hcaption : session.toggleCaption ≠ "" := by
    rw [toggleCaption]
    split <;> decide
  simp [entryTexts, hexpression, hcaption]

theorem ne_empty_of_mem_errorLine? : ∀ text ∈ session.errorLine?.toList, text ≠ "" := by
  simp [errorLine?]

theorem ne_empty_of_mem_resultLine? : ∀ text ∈ session.resultLine?.toList, text ≠ "" := by
  simp [resultLine?]

/-- The labels of a drawing are those of a tree that was read from an expression, which has no empty
tokens. -/
theorem Coherent.ne_empty_of_mem_treeTexts (h : session.Coherent) :
    ∀ text ∈ session.treeTexts, text ≠ "" := by
  rcases session.treeTexts_eq_nil_or with hnone | ⟨tree, htree, htexts⟩
  · simp [hnone]
  · rw [htexts]
    exact (h.wellFormed_tree tree htree).ne_empty_of_mem_labels

end Session

namespace Screen

variable {screen : Screen}

/-- Gestures reach a session through the controls only, and these keep it coherent. -/
theorem coherent_foldl_perform (gestures : List Gesture) :
    (gestures.foldl perform {}).session.Coherent :=
  List.foldlRecOn (motive := fun screen => screen.session.Coherent) gestures perform
    Session.coherent_empty fun _ h gesture _ => h.update gesture.input

/-- On a coherent screen only the fields of the working can be left without a text. -/
theorem texts_eq (h : screen.session.Coherent) :
    screen.texts =
      screen.session.entryTexts ++ Key.pad.flatten.map Key.caption ++
        screen.session.errorLine?.toList ++ screen.session.resultLine?.toList ++
        (screen.session.workingTexts screen.workingOpen).filter (· ≠ "") ++
        screen.session.treeTexts := by
  have hself {texts : List String} (h : ∀ text ∈ texts, text ≠ "") :
      texts.filter (· ≠ "") = texts :=
    List.filter_eq_self.mpr fun text hmem => decide_eq_true (h text hmem)
  have hkeys : ∀ text ∈ Key.pad.flatten.map Key.caption, text ≠ "" := by decide
  simp only [texts, List.filter_append]
  rw [hself Session.ne_empty_of_mem_entryTexts, hself hkeys,
    hself Session.ne_empty_of_mem_errorLine?, hself Session.ne_empty_of_mem_resultLine?,
    hself h.ne_empty_of_mem_treeTexts]

/-- After any gestures, the parts of the screen fit together. The texts are those of the field and
its buttons, the keys, one line of an error or a result at most, the working, and the labels in the
drawing. With an error there is neither a drawing nor a working. The button hides the tree exactly
if there is a drawing, and then this shows the labels of the tree in preorder. -/
theorem coherent_parts (gestures : List Gesture) (corner : Point) (width : Float32) :
    let screen := gestures.foldl perform {}
    let session := screen.session
    let labels := session.paintedLabels corner width
    screen.texts =
        session.entryTexts ++ Key.pad.flatten.map Key.caption ++
          session.errorLine?.toList ++ session.resultLine?.toList ++
          (session.workingTexts screen.workingOpen).filter (· ≠ "") ++ labels ∧
      (session.errorLine? = none ∨ session.resultLine? = none) ∧
      (session.errorLine? ≠ none → labels = [] ∧ session.working = {}) ∧
      (session.toggleCaption = "Masquer l’arbre" ↔ labels ≠ []) ∧
      (labels ≠ [] → ∃ tree, session.tree = some tree ∧ labels = tree.preorder.map Token.text) := by
  intro screen session labels
  have h : session.Coherent := coherent_foldl_perform gestures
  have hlabels : labels = session.treeTexts := session.paintedLabels_eq corner width
  rw [hlabels]
  refine ⟨texts_eq h, h.errorLine?_eq_none_or, h.of_errorLine, h.toggleCaption_eq_iff, ?_⟩
  exact session.treeTexts_eq_nil_or.resolve_left

end Screen

end InfixCalculator
