import Mathlib.Data.List.Induction
import Mathlib.Logic.Function.Basic

/-! # A store of values under keys

Nothing here is about one program. A history is a list of commands, oldest first. `contents` runs it;
`lastWrite` looks back through it. They agree (`contents_eq_lastWrite`), so a store that holds
`contents` of what it was sent answers every read with the last write to the key.
-/
namespace KeyValue
set_option autoImplicit false

inductive Command (K V : Type) where
  | read (key : K)
  | write (key : K) (value : V)

variable {K V : Type} [DecidableEq K]

def Command.apply : Command K V → (K → Option V) → (K → Option V)
  | read _, store => store
  | write key value, store => Function.update store key (some value)

/-- The value that a command puts under a key, if it does. -/
def Command.stored (k : K) : Command K V → Option V
  | read _ => none
  | write key value => if key = k then some value else none

def contents (history : List (Command K V)) : K → Option V :=
  history.foldl (fun store command => command.apply store) fun _ => none

def lastWrite (history : List (Command K V)) (k : K) : Option V :=
  history.reverse.findSome? (Command.stored k)

theorem contents_concat (history : List (Command K V)) (command : Command K V) :
    contents (history ++ [command]) = command.apply (contents history) := by
  simp [contents]

theorem lastWrite_concat (history : List (Command K V)) (command : Command K V) (k : K) :
    lastWrite (history ++ [command]) k = (command.stored k).or (lastWrite history k) := by
  rw [lastWrite, List.reverse_concat, List.findSome?_cons]
  cases h : command.stored k with
  | none => rfl
  | some v => rfl

theorem Command.apply_eq (command : Command K V) (store : K → Option V) (k : K) :
    command.apply store k = (command.stored k).or (store k) := by
  cases command with
  | read key => rfl
  | write key value =>
    by_cases hk : key = k
    · subst hk
      simp [apply, stored]
    · simp [apply, stored, hk, Function.update_of_ne (Ne.symm hk)]

/-- **A store holds the last write to every key.** The induction adds one command at the end. -/
theorem contents_eq_lastWrite (history : List (Command K V)) :
    contents history = lastWrite history := by
  induction history using List.reverseRecOn with
  | nil => rfl
  | append_singleton history command ih =>
    funext k
    rw [contents_concat, lastWrite_concat, Command.apply_eq, ih]

theorem lastWrite_mem {history : List (Command K V)} {k : K} {v : V}
    (h : lastWrite history k = some v) : .write k v ∈ history := by
  obtain ⟨command, hmem, hstored⟩ := List.exists_of_findSome?_eq_some h
  cases command with
  | read key => cases hstored
  | write key value =>
    simp only [Command.stored] at hstored
    split at hstored
    · rename_i hkey
      cases hstored
      rw [← hkey]
      exact List.mem_reverse.mp hmem
    · cases hstored

end KeyValue
