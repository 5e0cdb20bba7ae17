import Mathlib.Data.List.Basic

/-! # Computations that return, throw, or have no defined behaviour

Nothing here is about one program. `Outcome ε α` is the result of a call in a language with
exceptions and undefined behaviour: a value, an exception of type `ε`, or `undefined`. An exception
can be caught, undefined behaviour cannot.
-/
namespace Outcomes
set_option autoImplicit false

inductive Outcome (ε : Type) (α : Type) where
  | ok (value : α)
  | throws (exception : ε)
  | undefined
  deriving DecidableEq, Repr

namespace Outcome
variable {ε α β γ : Type}

protected def bind : Outcome ε α → (α → Outcome ε β) → Outcome ε β
  | ok a, f => f a
  | throws e, _ => throws e
  | undefined, _ => undefined

instance : Monad (Outcome ε) where
  pure := ok
  bind := Outcome.bind

/-- `try { x } catch (...) { handler }`. -/
def catchAll (x : Outcome ε α) (handler : ε → Outcome ε α) : Outcome ε α :=
  match x with
  | ok a => ok a
  | throws e => handler e
  | undefined => undefined

/-- A partial read: an access outside the object has no defined behaviour. -/
def ofOption : Option α → Outcome ε α
  | some a => ok a
  | none => undefined

def ofExcept : Except ε α → Outcome ε α
  | .ok a => ok a
  | .error e => throws e

def value? : Outcome ε α → Option α
  | ok a => some a
  | _ => none

@[simp] theorem pure_eq (a : α) : (pure a : Outcome ε α) = ok a := rfl
@[simp] theorem ok_bind (a : α) (f : α → Outcome ε β) : (ok a >>= f) = f a := rfl
@[simp] theorem throws_bind (e : ε) (f : α → Outcome ε β) : (throws e >>= f) = throws e := rfl
@[simp] theorem undefined_bind (f : α → Outcome ε β) :
    ((undefined : Outcome ε α) >>= f) = undefined := rfl

@[simp] theorem catchAll_ok (a : α) (h : ε → Outcome ε α) : (ok a).catchAll h = ok a := rfl
@[simp] theorem catchAll_throws (e : ε) (h : ε → Outcome ε α) : (throws e).catchAll h = h e := rfl
@[simp] theorem catchAll_undefined (h : ε → Outcome ε α) :
    (undefined : Outcome ε α).catchAll h = undefined := rfl

@[simp] theorem ofOption_some (a : α) : (ofOption (some a) : Outcome ε α) = ok a := rfl
@[simp] theorem ofOption_none : (ofOption none : Outcome ε α) = undefined := rfl
@[simp] theorem ofExcept_ok (a : α) : (ofExcept (.ok a) : Outcome ε α) = ok a := rfl
@[simp] theorem ofExcept_error (e : ε) : (ofExcept (.error e) : Outcome ε α) = throws e := rfl
@[simp] theorem value?_ok (a : α) : (ok a : Outcome ε α).value? = some a := rfl
@[simp] theorem value?_throws (e : ε) : (throws e : Outcome ε α).value? = none := rfl

theorem bind_eq_ok {x : Outcome ε α} {f : α → Outcome ε β} {b : β} :
    (x >>= f) = ok b ↔ ∃ a, x = ok a ∧ f a = ok b := by
  cases x with
  | ok a => simp
  | throws e => simp
  | undefined => simp

/-- A computation that returns or has no defined behaviour. -/
def NeverThrows (x : Outcome ε α) : Prop := ∀ e, x ≠ throws e

theorem neverThrows_ok (a : α) : (ok a : Outcome ε α).NeverThrows := fun _ => nofun

theorem neverThrows_undefined : (undefined : Outcome ε α).NeverThrows := fun _ => nofun

theorem neverThrows_ofOption (a : Option α) : (ofOption a : Outcome ε α).NeverThrows := by
  cases a with
  | none => exact neverThrows_undefined
  | some a => exact neverThrows_ok a

theorem NeverThrows.bind {x : Outcome ε α} {f : α → Outcome ε β} (hx : x.NeverThrows)
    (hf : ∀ a, (f a).NeverThrows) : (x >>= f).NeverThrows := by
  cases x with
  | ok a => exact hf a
  | throws e => exact absurd rfl (hx e)
  | undefined => exact neverThrows_undefined

theorem NeverThrows.catchAll_eq {x : Outcome ε α} (hx : x.NeverThrows) (h : ε → Outcome ε α) :
    x.catchAll h = x := by
  cases x with
  | ok a => rfl
  | throws e => exact absurd rfl (hx e)
  | undefined => rfl

end Outcome

/-! ## Calls over a list -/

section MapM
variable {ε α β : Type} {f : α → Outcome ε β}

/-- The calls `f a` for each `a` of the list, in order, all of which return. -/
def Returns (f : α → Outcome ε β) (as : List α) (bs : List β) : Prop :=
  List.Forall₂ (fun a b => f a = .ok b) as bs

theorem Returns.nil : Returns f [] [] := List.Forall₂.nil

theorem Returns.cons {a : α} {b : β} {as : List α} {bs : List β} (h : f a = .ok b)
    (hs : Returns f as bs) : Returns f (a :: as) (b :: bs) := List.Forall₂.cons h hs

end MapM

end Outcomes
