import Mathlib.Data.List.Basic
import Mathlib.Data.List.Induction

/-!
# Computations that may fail

A computation in steps succeeds if every step does. The statements here take a successful one apart
into its steps, and carry a property of the state through a loop that stops at its first error.

Such a loop goes through a list from left to right, and what it makes of an item may depend on all
items before it. If those alone decide which items are faults, the loop fails exactly with the first
fault of the list (`Fallible.foldlM_eq_error_iff_firstFault?`), and it succeeds exactly if there is
none.
-/

namespace InfixCalculator

variable {ε α β : Type}

namespace Fallible

/-- Computations in a row succeed if the first one does and the second one does with its value. -/
theorem bind_eq_ok_iff {first : Except ε α} {next : α → Except ε β} {b : β} :
    first >>= next = .ok b ↔ ∃ a, first = .ok a ∧ next a = .ok b := by
  constructor
  · intro h
    cases first with
    | error e => cases h
    | ok a => exact ⟨a, rfl, h⟩
  · rintro ⟨a, rfl, h⟩
    exact h

/-- After a successful computation the next one has its value. -/
theorem bind_of_ok {first : Except ε α} {a : α} (h : first = .ok a) (next : α → Except ε β) :
    first >>= next = next a := by
  rw [h]
  rfl

/-- Computations in a row fail if the first one does, or the second one with its value. -/
theorem bind_eq_error_iff {first : Except ε α} {next : α → Except ε β} {e : ε} :
    first >>= next = .error e ↔ first = .error e ∨ ∃ a, first = .ok a ∧ next a = .error e := by
  constructor
  · intro h
    cases first with
    | error e' => exact .inl (congrArg _ (Except.error.inj h))
    | ok a => exact .inr ⟨a, rfl, h⟩
  · rintro (rfl | ⟨a, rfl, h⟩)
    · rfl
    · exact h

/-! ## Loops -/

variable {step : β → α → Except ε β}

/-- A loop succeeds if its first step does and the others do behind it. -/
theorem foldlM_cons_eq_ok_iff {a : α} {rest : List α} {init final : β} :
    (a :: rest).foldlM step init = .ok final ↔
      ∃ mid, step init a = .ok mid ∧ rest.foldlM step mid = .ok final := by
  rw [List.foldlM_cons, bind_eq_ok_iff]

/-- A loop over two lists goes on with the second where the first has ended. -/
theorem foldlM_append_of_ok {front : List α} {init mid : β} (h : front.foldlM step init = .ok mid)
    (rest : List α) : (front ++ rest).foldlM step init = rest.foldlM step mid := by
  rw [List.foldlM_append, bind_of_ok h]

/-- A loop goes on where its first step has ended. -/
theorem foldlM_cons_of_ok {a : α} {init mid : β} (h : step init a = .ok mid) (rest : List α) :
    (a :: rest).foldlM step init = rest.foldlM step mid := by
  rw [List.foldlM_cons, bind_of_ok h]

/-- A loop fails if one of its steps does, and the steps before it succeed. -/
theorem foldlM_eq_error_iff {items : List α} {init : β} {e : ε} :
    items.foldlM step init = .error e ↔
      ∃ front item back mid, items = front ++ item :: back ∧
        front.foldlM step init = .ok mid ∧ step mid item = .error e := by
  constructor
  · intro h
    induction items generalizing init with
    | nil => cases h
    | cons item rest ih =>
      rw [List.foldlM_cons, bind_eq_error_iff] at h
      rcases h with hfirst | ⟨mid, hmid, hrest⟩
      · exact ⟨[], item, rest, init, rfl, rfl, hfirst⟩
      · obtain ⟨front, item', back, mid', rfl, hfront, hfail⟩ := ih hrest
        refine ⟨item :: front, item', back, mid', rfl, ?_, hfail⟩
        rw [foldlM_cons_of_ok hmid, hfront]
  · rintro ⟨front, item, back, mid, rfl, hfront, hfail⟩
    rw [foldlM_append_of_ok hfront, List.foldlM_cons, hfail]
    rfl

/-- What carries every step of one loop over into a step of another carries the loops over. -/
theorem foldlM_map {γ : Type} {step' : γ → α → Except ε γ} (f : β → γ)
    (h : ∀ state item, step' (f state) item = f <$> step state item)
    (items : List α) (init : β) : items.foldlM step' (f init) = f <$> items.foldlM step init := by
  induction items generalizing init with
  | nil => rfl
  | cons item rest ih =>
    rw [List.foldlM_cons, List.foldlM_cons, h]
    cases step init item with
    | error e => rfl
    | ok next => exact ih next

/-- What every successful step preserves holds at the end of a successful loop. -/
theorem foldlM_invariant (Invariant : β → Prop) {items : List α} {init final : β}
    (h : items.foldlM step init = .ok final) (hinit : Invariant init)
    (hstep : ∀ item ∈ items, ∀ state next, Invariant state → step state item = .ok next →
      Invariant next) :
    Invariant final := by
  induction items generalizing init with
  | nil => exact Except.ok.inj h ▸ hinit
  | cons item rest ih =>
    obtain ⟨mid, hmid, hrest⟩ := foldlM_cons_eq_ok_iff.mp h
    refine ih hrest (hstep item List.mem_cons_self init mid hinit hmid) ?_
    intro item' hmem
    exact hstep item' (List.mem_cons_of_mem item hmem)

end Fallible

/-! ## The first fault of a list -/

/-- The fault in the first position that has one, given what the items before a position and the
item in it amount to. -/
def firstFault? (fault? : List α → α → Option ε) (items : List α) : Option ε :=
  items.zipIdx.findSome? fun (item, position) => fault? (items.take position) item

/-- One more item matters only if there is no fault before it. -/
theorem firstFault?_concat (fault? : List α → α → Option ε) (items : List α) (item : α) :
    firstFault? fault? (items ++ [item]) = (firstFault? fault? items).or (fault? items item) := by
  -- what stands before a position does not change
  have hbefore :
      (items.zipIdx.filterMap fun (item', position) =>
          fault? ((items ++ [item]).take position) item') =
        items.zipIdx.filterMap fun (item', position) => fault? (items.take position) item' := by
    refine List.filterMap_congr ?_
    rintro ⟨item', position⟩ hentry
    have hposition : position < items.length := List.snd_lt_of_mem_zipIdx hentry
    simp only [List.take_append_of_le_length (Nat.le_of_lt hposition)]
  rw [firstFault?, List.zipIdx_append, List.findSome?_append, ← List.head?_filterMap, hbefore,
    List.head?_filterMap, firstFault?]
  simp

namespace Fallible

/-- What fails with the fault if there is one, and only then, succeeds if there is none. -/
theorem exists_eq_ok_iff {result : Except ε α} {fault : Option ε}
    (h : ∀ error, result = .error error ↔ fault = some error) :
    (∃ a, result = .ok a) ↔ fault = none := by
  cases hresult : result with
  | error error =>
    rw [(h error).mp hresult]
    exact iff_of_false (fun ⟨_, hok⟩ => nomatch hok) nofun
  | ok a =>
    refine iff_of_true ⟨a, rfl⟩ (Option.eq_none_iff_forall_ne_some.mpr fun error hfault => ?_)
    cases hresult.symm.trans ((h error).mpr hfault)

variable {step : β → α → Except ε β} {fault? : List α → α → Option ε} {init : β} {items : List α}

/-- A loop fails with the first fault, if each of its steps fails over faults only. -/
theorem foldlM_eq_error_iff_firstFault?
    (hfault : ∀ front item mid error, front.foldlM step init = .ok mid →
      (step mid item = .error error ↔ fault? front item = some error)) (error : ε) :
    items.foldlM step init = .error error ↔ firstFault? fault? items = some error := by
  -- the loop has come to an item with all those before it, so the induction is from the end
  induction items using List.reverseRecOn generalizing error with
  | nil => exact iff_of_false nofun nofun
  | append_singleton items item ih =>
    rw [List.foldlM_append, firstFault?_concat]
    cases hmid : items.foldlM step init with
    | error error' =>
      rw [(ih error').mp hmid]
      exact ⟨fun h => congrArg some (Except.error.inj h), fun h => congrArg _ (Option.some.inj h)⟩
    | ok mid =>
      have hnone : firstFault? fault? items = none := (exists_eq_ok_iff ih).mp ⟨mid, hmid⟩
      rw [hnone, Option.none_or, ← hfault items item mid error hmid, bind_of_ok rfl,
        List.foldlM_cons, bind_eq_error_iff]
      exact or_iff_left fun ⟨_, _, h⟩ => nomatch h

theorem exists_foldlM_eq_ok_iff_firstFault?
    (hfault : ∀ front item mid error, front.foldlM step init = .ok mid →
      (step mid item = .error error ↔ fault? front item = some error)) :
    (∃ final, items.foldlM step init = .ok final) ↔ firstFault? fault? items = none :=
  exists_eq_ok_iff (foldlM_eq_error_iff_firstFault? hfault)

end Fallible

end InfixCalculator
