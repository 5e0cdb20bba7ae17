import Diginext.Foundations.Effect

/-! # Computations cut into atomic actions

Nothing here is about one program. A `Resumption σ ε α` is a computation on a shared state `σ` that
returns an `α` or throws an `ε`, and that other computations can interrupt between any two of its
atomic actions. Run without interruption (`alone`) it is an `Effect`, and that is a homomorphism
(`alone_bind`, `alone_attempt`): a program written once for both has the same meaning alone.
-/
namespace Effects
set_option autoImplicit false

/-- An atomic action changes the state by `update`; what follows depends on the state before it. -/
inductive Resumption (σ ε α : Type) : Type where
  | pure (a : α)
  | throws (e : ε)
  | act (update : σ → σ) (next : σ → Resumption σ ε α)

namespace Resumption
variable {σ ε α β : Type}

protected def bind : Resumption σ ε α → (α → Resumption σ ε β) → Resumption σ ε β
  | pure a, f => f a
  | throws e, _ => throws e
  | act update next, f => act update fun s => (next s).bind f

instance : Monad (Resumption σ ε) where
  pure := pure
  bind := Resumption.bind

def lift : Except ε α → Resumption σ ε α
  | .ok a => pure a
  | .error e => throws e

/-- One atomic look at the state. -/
def read (f : σ → α) : Resumption σ ε α := act id fun s => pure (f s)

/-- One atomic change of the state. -/
def modify (f : σ → σ) : Resumption σ ε Unit := act f fun _ => pure ()

def when (c : Bool) (x : Resumption σ ε Unit) : Resumption σ ε Unit := if c then x else pure ()

/-- `try { body } catch (...) { handler }`. -/
def attempt : Resumption σ ε α → Resumption σ ε α → Resumption σ ε α
  | pure a, _ => pure a
  | throws _, handler => handler
  | act update next, handler => act update fun s => (next s).attempt handler

/-! ## Running alone -/

def runAlone : Resumption σ ε α → σ → Except ε α × σ
  | pure a, s => (.ok a, s)
  | throws e, s => (.error e, s)
  | act update next, s => (next s).runAlone (update s)

def alone (x : Resumption σ ε α) : Effect σ ε α := ⟨x.runAlone⟩

theorem effect_ext {x y : Effect σ ε α} (h : ∀ s, x.run s = y.run s) : x = y := by
  cases x
  cases y
  congr
  funext s
  exact h s

theorem alone_bind (x : Resumption σ ε α) (f : α → Resumption σ ε β) :
    (x >>= f).alone = x.alone >>= fun a => (f a).alone := by
  apply effect_ext
  induction x with
  | pure a => intro s; rfl
  | throws e => intro s; rfl
  | act update next ih => exact fun s => ih s (update s)

theorem alone_attempt (x handler : Resumption σ ε α) :
    (x.attempt handler).alone = Effect.attempt x.alone handler.alone := by
  apply effect_ext
  induction x with
  | pure a => intro s; rfl
  | throws e => intro s; rfl
  | act update next ih => exact fun s => ih s (update s)

theorem alone_lift (r : Except ε α) : (lift r : Resumption σ ε α).alone = Effect.lift r := by
  cases r with
  | ok a => rfl
  | error e => rfl

theorem alone_when (c : Bool) (x : Resumption σ ε Unit) :
    (when c x).alone = Effect.when c x.alone := by
  cases c with
  | false => rfl
  | true => rfl

theorem alone_ite (c : Prop) [Decidable c] (x y : Resumption σ ε α) :
    (if c then x else y).alone = if c then x.alone else y.alone := by
  split
  · rfl
  · rfl

/-! ## Sequences whose first part is known -/

theorem lift_ok_bind (a : α) (f : α → Resumption σ ε β) :
    ((lift (.ok a) : Resumption σ ε α) >>= f) = f a := rfl

theorem when_false_bind (x : Resumption σ ε Unit) (f : Unit → Resumption σ ε β) :
    (when false x >>= f) = f () := rfl

theorem read_bind (f : σ → α) (g : α → Resumption σ ε β) :
    ((read f : Resumption σ ε α) >>= g) = act id fun s => g (f s) := rfl

theorem modify_bind (f : σ → σ) (g : Unit → Resumption σ ε β) :
    ((modify f : Resumption σ ε Unit) >>= g) = act f fun _ => g () := rfl

end Resumption

end Effects
