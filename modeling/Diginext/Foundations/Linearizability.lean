import Mathlib.Logic.Function.Basic
import Diginext.Foundations.Resumption

/-! # Concurrent calls and sequential orders

Nothing here is about one program. Calls `I` run their code, a `Resumption` each, on one shared state:
a turn begins a call, lets one call do its next atomic action, or ends a call that has nothing left to
do. The history records the calls and the returns. An order of calls `Respects` a history if no call
stands in it before a call that had returned when it was called; the order of the linearization points
is built up turn by turn (`Respects.call`, `Respects.returned`, `Respects.linearize`).
-/
namespace Linearizability
open Effects
set_option autoImplicit false

inductive Event (I : Type) where
  | called (i : I)
  | returned (i : I)
  deriving DecidableEq, Repr

section Orders
variable {I : Type}

/-- In the history `h` the call `i` has returned before `j` was called. -/
def Precedes (h : List (Event I)) (i j : I) : Prop :=
  List.Sublist [Event.returned i, Event.called j] h

def Respects (h : List (Event I)) (order : List I) : Prop :=
  ∀ i j, Precedes h i j → j ∈ order → List.Sublist [i, j] order

theorem precedes_concat {h : List (Event I)} {e : Event I} {i j : I}
    (hp : Precedes (h ++ [e]) i j) : Precedes h i j ∨ e = .called j := by
  obtain ⟨l, m, hlm, hl, hm⟩ := List.sublist_append_iff.mp hp
  match m, hm with
  | [], _ =>
    rw [List.append_nil] at hlm
    rw [← hlm] at hl
    exact Or.inl hl
  | x :: m, hm =>
    have hlast : x :: m = [e] :=
      hm.eq_of_length_le (by rw [List.length_singleton, List.length_cons]; omega)
    rw [hlast] at hlm
    have hend := congrArg List.getLast? hlm
    simp only [List.getLast?_concat, List.getLast?_cons_cons, List.getLast?_singleton,
      Option.some.injEq] at hend
    exact Or.inr hend.symm

theorem respects_nil (order : List I) : Respects [] order := by
  intro i j hp
  cases hp

/-- A call that begins is not in the order yet. -/
theorem Respects.call {h : List (Event I)} {order : List I} {k : I} (hr : Respects h order)
    (hk : k ∉ order) : Respects (h ++ [.called k]) order := by
  intro i j hp hj
  rcases precedes_concat hp with hp | he
  · exact hr i j hp hj
  · cases he
    exact absurd hj hk

theorem Respects.returned {h : List (Event I)} {order : List I} (hr : Respects h order) (k : I) :
    Respects (h ++ [.returned k]) order := by
  intro i j hp hj
  rcases precedes_concat hp with hp | he
  · exact hr i j hp hj
  · cases he

/-- The next linearization point comes last, and after all calls that have returned. -/
theorem Respects.linearize {h : List (Event I)} {order : List I} (hr : Respects h order)
    (hall : ∀ i, .returned i ∈ h → i ∈ order) (k : I) : Respects h (order ++ [k]) := by
  intro i j hp hj
  rcases List.mem_append.mp hj with hj | hj
  · have hold := hr i j hp hj
    exact hold.trans (List.sublist_append_left _ _)
  · rw [List.mem_singleton.mp hj]
    have hi : i ∈ order := hall i (hp.subset List.mem_cons_self)
    exact (List.singleton_sublist.mpr hi).append (List.Sublist.refl [k])

end Orders

/-! ## Interleaved calls -/

inductive Progress (σ ε : Type) where
  | waiting
  | running (rest : Resumption σ ε Unit)
  | finished

structure Concurrent (I σ ε : Type) where
  shared : σ
  progress : I → Progress σ ε
  history : List (Event I)

/-- No call has begun. -/
def Concurrent.initial {I σ ε : Type} (shared : σ) : Concurrent I σ ε :=
  ⟨shared, fun _ => .waiting, []⟩

inductive Turn (I : Type) where
  | call (i : I)
  | step (i : I)
  deriving DecidableEq, Repr

variable {I σ ε : Type} [DecidableEq I]

/-- A call whose code throws has no further turn. -/
def turn (code : I → Resumption σ ε Unit) (s : Concurrent I σ ε) :
    Turn I → Option (Concurrent I σ ε)
  | .call i =>
    match s.progress i with
    | .waiting => some { s with
        progress := Function.update s.progress i (.running (code i))
        history := s.history ++ [.called i] }
    | _ => none
  | .step i =>
    match s.progress i with
    | .running (.act update next) => some { s with
        shared := update s.shared
        progress := Function.update s.progress i (.running (next s.shared)) }
    | .running (.pure _) => some { s with
        progress := Function.update s.progress i .finished
        history := s.history ++ [.returned i] }
    | _ => none

/-- Everything a turn can do. -/
inductive Turns (code : I → Resumption σ ε Unit) (s s' : Concurrent I σ ε) : Prop where
  | calls (i : I) (waiting : s.progress i = .waiting)
      (eq : s' = { s with
        progress := Function.update s.progress i (.running (code i))
        history := s.history ++ [.called i] })
  | acts (i : I) (update : σ → σ) (next : σ → Resumption σ ε Unit)
      (running : s.progress i = .running (.act update next))
      (eq : s' = { s with
        shared := update s.shared
        progress := Function.update s.progress i (.running (next s.shared)) })
  | returns (i : I) (u : Unit) (running : s.progress i = .running (.pure u))
      (eq : s' = { s with
        progress := Function.update s.progress i .finished
        history := s.history ++ [.returned i] })

theorem turns_of_turn {code : I → Resumption σ ε Unit} {s s' : Concurrent I σ ε} {t : Turn I}
    (h : turn code s t = some s') : Turns code s s' := by
  cases t with
  | call i =>
    unfold turn at h
    cases hp : s.progress i with
    | waiting =>
      simp only [hp] at h
      cases h
      exact .calls i hp rfl
    | running rest | finished =>
      simp only [hp] at h
      cases h
  | step i =>
    unfold turn at h
    cases hp : s.progress i with
    | running rest =>
      cases rest with
      | act update next =>
        simp only [hp] at h
        cases h
        exact .acts i update next hp rfl
      | pure u =>
        simp only [hp] at h
        cases h
        exact .returns i u hp rfl
      | throws e =>
        simp only [hp] at h
        cases h
    | waiting | finished =>
      simp only [hp] at h
      cases h

/-- Every call that has begun has returned. -/
def Concurrent.Quiescent (s : Concurrent I σ ε) : Prop :=
  ∀ i, .called i ∈ s.history → .returned i ∈ s.history

end Linearizability
