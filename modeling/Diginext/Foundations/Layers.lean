import Mathlib.Data.List.Infix

/-! # Stacks of calls that hand something out

Nothing here is about one program. The call at the bottom of a stack has things to hand out one by one,
the call at its top hands one of them out, and those between wait for others to return. A call that hands
nothing out is `quiet`, one that holds nothing to be handed out is `still`. The order of what is handed
out rests on the stack keeping this shape while calls begin, return and are left by exceptions.
-/
namespace Layers
set_option autoImplicit false

variable {F : Type} {quiet still : F → Prop}

/-- Only the innermost call may hand something out, and only the outermost may hold what is to be. -/
structure Layered (quiet still : F → Prop) (frames : List F) : Prop where
  inner : ∀ frame ∈ frames.tail, quiet frame
  outer : ∀ frame ∈ frames.dropLast, still frame

theorem layered_of_all {frames : List F} (h : ∀ frame ∈ frames, quiet frame ∧ still frame) :
    Layered quiet still frames where
  inner := fun frame hframe => (h frame (List.mem_of_mem_tail hframe)).1
  outer := fun frame hframe => (h frame (List.mem_of_mem_dropLast hframe)).2

/-- Calls end. -/
theorem Layered.suffix {frames rest : List F} (h : Layered quiet still (frames ++ rest)) :
    Layered quiet still rest where
  inner := by
    intro frame hframe
    apply h.inner
    cases frames with
    | nil => exact hframe
    | cons f frames => exact List.mem_append_right _ (List.mem_of_mem_tail hframe)
  outer := by
    intro frame hframe
    apply h.outer
    cases rest with
    | nil => cases hframe
    | cons f rest =>
      rw [List.dropLast_append_of_ne_nil (List.cons_ne_nil f rest)]
      exact List.mem_append_right _ hframe

theorem Layered.below {frame : F} {rest : List F} (h : Layered quiet still (frame :: rest)) :
    Layered quiet still rest := by
  rw [← List.singleton_append] at h
  exact h.suffix

/-- Calls begin in a call that hands nothing out. -/
theorem Layered.calls {new rest : List F} (h : Layered quiet still rest)
    (hnew : ∀ frame ∈ new.tail, quiet frame) (hstill : ∀ frame ∈ new, still frame)
    (hrest : ∀ frame ∈ rest, quiet frame) : Layered quiet still (new ++ rest) where
  inner := by
    intro frame hframe
    cases new with
    | nil => exact h.inner frame hframe
    | cons f new =>
      rcases List.mem_append.mp hframe with hframe | hframe
      · exact hnew frame hframe
      · exact hrest frame hframe
  outer := by
    intro frame hframe
    cases rest with
    | nil =>
      rw [List.append_nil] at hframe
      exact hstill frame (List.mem_of_mem_dropLast hframe)
    | cons f rest =>
      rw [List.dropLast_append_of_ne_nil (List.cons_ne_nil f rest)] at hframe
      rcases List.mem_append.mp hframe with hframe | hframe
      · exact hstill frame hframe
      · exact h.outer frame hframe

/-- The innermost call becomes another that holds nothing. -/
theorem Layered.swap {frame frame' : F} {rest : List F} (h : Layered quiet still (frame :: rest))
    (hstill : still frame') : Layered quiet still (frame' :: rest) := by
  rw [← List.singleton_append]
  exact h.below.calls (by simp) (by simpa using hstill) h.inner

/-- The call that holds something is the outermost. -/
theorem Layered.alone {frame : F} {rest : List F} (h : Layered quiet still (frame :: rest))
    (hframe : ¬ still frame) : rest = [] := by
  by_contra hne
  apply hframe
  apply h.outer
  obtain ⟨f, tail, rfl⟩ := List.exists_cons_of_ne_nil hne
  rw [List.dropLast_cons_cons]
  exact List.mem_cons_self

/-- An exception that leaves a quiet and still call, and others up to one that catches it, leaves none
that hands something out or holds it. -/
theorem Layered.unwound {frame : F} {rest : List F} (h : Layered quiet still (frame :: rest))
    (hframe : quiet frame ∧ still frame) {throws : F → Bool} (hne : rest.dropWhile throws ≠ []) :
    ∃ left, frame :: rest = left ++ rest.dropWhile throws ∧ ∀ f ∈ left, quiet f ∧ still f := by
  obtain ⟨left, hleft⟩ := List.dropWhile_suffix throws (l := rest)
  have hsplit : rest = left ++ rest.dropWhile throws := hleft.symm
  refine ⟨frame :: left, by rw [List.cons_append, ← hsplit], fun f hf => ?_⟩
  rcases List.mem_cons.mp hf with rfl | hf
  · exact hframe
  · have hmem : f ∈ rest := by
      rw [hsplit]
      exact List.mem_append_left _ hf
    refine ⟨h.inner f hmem, h.outer f ?_⟩
    rw [hsplit, ← List.cons_append, List.dropLast_append_of_ne_nil hne]
    exact List.mem_append_left _ (List.mem_cons_of_mem _ hf)

end Layers
