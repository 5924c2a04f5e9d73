import InfixCalculator.Proofs.Binary32.Range
import InfixCalculator.Session

/-!
# Bounds of the view

A tree is magnified by a factor and moved by an offset, which are confined to a range after every
gesture. Confining does not help against what is not a number, and a sum or a product can become
that even though no operand is. `Session.InBounds` is kept by everything that can happen in a
session, unless a gesture itself is not a number (`Session.Step.inBounds`): finite floats that are
bounded stay so, whatever they are multiplied by or added to. A calculation that succeeds begins
with a view in bounds again (`Session.view_in_bounds`).
-/

namespace InfixCalculator

open Binary32

namespace Session

/-- The view of a session: magnification and offset are numbers within their bounds. -/
structure InBounds (session : Session) : Prop where
  zoom : Within minZoom maxZoom session.zoom
  offset_x : Within (-maxOffset) maxOffset session.offset.x
  offset_y : Within (-maxOffset) maxOffset session.offset.y

/-- Whether the action brings along only numbers. -/
def Action.isNumeric : Action → Bool
  | zoomBy factor => !factor.isNaN
  | moveBy delta => !delta.x.isNaN && !delta.y.isNaN
  | _ => true

/-- What can happen in a session: an action with numbers only, or a calculation or an error that is
shown, whatever it is. -/
inductive Step (session : Session) : Session → Prop
  | perform {action : Action} (h : action.isNumeric) : Step session (session.perform action)
  | accept (calculation : Calculation) : Step session (session.accept calculation)
  | reject (error : CalcError) : Step session (session.reject error)

variable {session session' : Session}

/-! ## Gestures -/

theorem within_clamp_zoom {x : Float32} (h : ¬x.isNaN) :
    Within minZoom maxZoom (clamp minZoom maxZoom x) :=
  within_clamp (by decide +kernel) (by decide +kernel) (by decide +kernel) h

theorem within_clamp_offset {x : Float32} (h : ¬x.isNaN) :
    Within (-maxOffset) maxOffset (clamp (-maxOffset) maxOffset x) :=
  within_clamp (by decide +kernel) (by decide +kernel) (by decide +kernel) h

/-- A magnification in bounds is finite and not zero, so it has a product with every number. -/
theorem InBounds.zoomBy (h : session.InBounds) {factor : Float32} (hfactor : ¬factor.isNaN) :
    (session.zoomBy factor).InBounds := by
  have hfinite := h.zoom.isFinite (by decide +kernel) (by decide +kernel)
  have hleast := (le_iff (by decide +kernel) hfinite).mp h.zoom.low_le
  have hpos : 0 < toRat minZoom := (toRat_pos_iff (by decide +kernel)).mpr (by decide +kernel)
  have hproduct := not_isNaN_mul hfinite (hpos.trans_le hleast).ne' hfactor
  exact { h with zoom := within_clamp_zoom hproduct }

/-- An offset in bounds is finite, so it has a sum with every number. -/
theorem InBounds.moveBy (h : session.InBounds) {delta : Point} (hx : ¬delta.x.isNaN)
    (hy : ¬delta.y.isNaN) : (session.moveBy delta).InBounds := by
  have hfinite_x := h.offset_x.isFinite (by decide +kernel) (by decide +kernel)
  have hfinite_y := h.offset_y.isFinite (by decide +kernel) (by decide +kernel)
  exact { h with
    offset_x := within_clamp_offset (not_isNaN_add hfinite_x hx)
    offset_y := within_clamp_offset (not_isNaN_add hfinite_y hy) }

/-! ## Steps -/

/-- The initial view lies within all bounds. -/
theorem inBounds_of_initial_view (hzoom : session.zoom = 1) (hoffset : session.offset = ⟨0, 0⟩) :
    session.InBounds := by
  have hzero : Within (-maxOffset) maxOffset 0 := by
    constructor <;> decide +kernel
  constructor
  · rw [hzoom]
    constructor <;> decide +kernel
  · rw [hoffset]
    exact hzero
  · rw [hoffset]
    exact hzero

/-- A calculation that is accepted takes the view back to the initial one. -/
theorem inBounds_accept (session : Session) (calculation : Calculation) :
    (session.accept calculation).InBounds :=
  inBounds_of_initial_view rfl rfl

theorem InBounds.reject (h : session.InBounds) (error : CalcError) :
    (session.reject error).InBounds :=
  { h with }

/-- Every action with numbers only keeps the view in bounds. -/
theorem InBounds.perform (h : session.InBounds) {action : Action} (haction : action.isNumeric) :
    (session.perform action).InBounds := by
  -- every action but three leaves the view alone
  cases action with
  | insert text | edit expression | deleteLast | clearExpression | clear => exact { h with }
  | toggleTree =>
    rw [Session.perform, toggleTree]
    split
    · exact { h with }
    · exact h
  | calculate =>
    rw [Session.perform, calculate]
    split
    · exact inBounds_accept session _
    · exact h.reject _
  | zoomBy factor => exact h.zoomBy (by simpa [Action.isNumeric] using haction)
  | moveBy delta =>
    obtain ⟨hx, hy⟩ : ¬delta.x.isNaN ∧ ¬delta.y.isNaN := by simpa [Action.isNumeric] using haction
    exact h.moveBy hx hy

/-- Whatever happens in a session keeps the view in bounds. -/
theorem Step.inBounds (hstep : session.Step session') (h : session.InBounds) :
    session'.InBounds := by
  cases hstep with
  | perform haction => exact h.perform haction
  | accept calculation => exact inBounds_accept session calculation
  | reject error => exact h.reject error

/-- So does every run of such steps. -/
theorem InBounds.run (h : session.InBounds) (hrun : Relation.ReflTransGen Step session session') :
    session'.InBounds := by
  induction hrun with
  | refl => exact h
  | tail _ hstep ih => exact hstep.inBounds ih

/-- A calculation that succeeds takes the view back, wherever it was. -/
theorem view_calculate {calculation : Calculation}
    (h : evaluate session.expression = .ok calculation) :
    session.calculate.zoom = 1 ∧ session.calculate.offset = ⟨0, 0⟩ := by
  rw [calculate, h]
  exact ⟨rfl, rfl⟩

/-- In every session that can be reached without a gesture that is not a number, magnification and
offset are numbers within their bounds. A calculation that succeeds takes any session back to the
initial view, also where a gesture has left what is not a number, and from there on the bounds are
kept again. -/
theorem view_in_bounds :
    (∀ session, Relation.ReflTransGen Step {} session → session.InBounds) ∧
      ∀ (session : Session) (calculation : Calculation),
        evaluate session.expression = .ok calculation →
          session.calculate.zoom = 1 ∧ session.calculate.offset = ⟨0, 0⟩ ∧
            ∀ later, Relation.ReflTransGen Step session.calculate later → later.InBounds := by
  constructor
  · intro session hrun
    exact (inBounds_of_initial_view rfl rfl).run hrun
  · intro session calculation h
    obtain ⟨hzoom, hoffset⟩ := view_calculate h
    exact ⟨hzoom, hoffset, fun later hrun => (inBounds_of_initial_view hzoom hoffset).run hrun⟩

/-- Infinite gestures lead to the ends of the ranges. What is not a number stays until the next
calculation. -/
theorem view_in_bounds_infinite_gestures :
    let far : Session :=
      ({} : Session).perform (.zoomBy (1 / 0)) |>.perform (.moveBy ⟨-(1 / 0), 1 / 0⟩)
        |>.perform (.zoomBy 0)
    let lost : Session := ({} : Session).perform (.zoomBy (0 / 0)) |>.perform (.insert "1/2")
    far.zoom = 0.5 ∧ (far.offset.x = -500 ∧ far.offset.y = 500) ∧ far.InBounds ∧
      lost.zoom.isNaN ∧ lost.calculate.zoom = 1 ∧ lost.calculate.offset = ⟨0, 0⟩ := by
  intro far lost
  -- one gesture is infinite in both directions, and a factor of zero follows an infinite one
  have hfar : Relation.ReflTransGen Step {} far :=
    .tail (.tail (.tail .refl (.perform (by decide +kernel))) (.perform (by decide +kernel)))
      (.perform (by decide +kernel))
  have hok : (evaluate lost.expression).isOk := by decide +kernel
  obtain ⟨calculation, hvalue⟩ : ∃ calculation, evaluate lost.expression = .ok calculation := by
    cases h : evaluate lost.expression with
    | ok calculation => exact ⟨calculation, rfl⟩
    | error error =>
      rw [h] at hok
      cases hok
  obtain ⟨hzoom, hoffset, -⟩ := view_in_bounds.2 lost calculation hvalue
  have hends : far.offset.x = -500 ∧ far.offset.y = 500 := by decide +kernel
  exact ⟨by decide +kernel, hends, view_in_bounds.1 far hfar, by decide +kernel, hzoom, hoffset⟩

end Session

end InfixCalculator
