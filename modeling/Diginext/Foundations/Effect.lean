import Mathlib.Init

/-! # Computations whose state survives exceptions

Nothing here is about one program. An `Effect σ ε α` reads and writes a state `σ` and returns an `α`
or throws an `ε`; what was done to the state before the exception stays done, and a handler sees it.
The rules below run a sequence whose first step is known.
-/
namespace Effects
set_option autoImplicit false

structure Effect (σ ε α : Type) where
  run : σ → Except ε α × σ

namespace Effect
variable {σ ε α β : Type}

instance : Monad (Effect σ ε) where
  pure a := ⟨fun s => (.ok a, s)⟩
  bind x f := ⟨fun s =>
    match x.run s with
    | (.ok a, s') => (f a).run s'
    | (.error e, s') => (.error e, s')⟩

def lift (r : Except ε α) : Effect σ ε α := ⟨fun s => (r, s)⟩

def read (f : σ → α) : Effect σ ε α := ⟨fun s => (.ok (f s), s)⟩

def modify (f : σ → σ) : Effect σ ε Unit := ⟨fun s => (.ok (), f s)⟩

def when (c : Bool) (x : Effect σ ε Unit) : Effect σ ε Unit := if c then x else pure ()

/-- `try { body } catch (...) { handler }`. -/
def attempt (body handler : Effect σ ε α) : Effect σ ε α := ⟨fun s =>
  match body.run s with
  | (.ok a, s') => (.ok a, s')
  | (.error _, s') => handler.run s'⟩

theorem run_bind (x : Effect σ ε α) (f : α → Effect σ ε β) (s : σ) :
    (x >>= f).run s = match x.run s with
      | (.ok a, s') => (f a).run s'
      | (.error e, s') => (.error e, s') := rfl

theorem bind_of_ok {x : Effect σ ε α} {f : α → Effect σ ε β} {s s' : σ} {a : α}
    (h : x.run s = (.ok a, s')) : (x >>= f).run s = (f a).run s' := by
  rw [run_bind, h]

theorem bind_of_error {x : Effect σ ε α} {f : α → Effect σ ε β} {s s' : σ} {e : ε}
    (h : x.run s = (.error e, s')) : (x >>= f).run s = (.error e, s') := by
  rw [run_bind, h]

theorem attempt_of_ok {body handler : Effect σ ε α} {s s' : σ} {a : α}
    (h : body.run s = (.ok a, s')) : (attempt body handler).run s = (.ok a, s') := by
  simp only [attempt, h]

theorem attempt_of_error {body handler : Effect σ ε α} {s s' : σ} {e : ε}
    (h : body.run s = (.error e, s')) : (attempt body handler).run s = handler.run s' := by
  simp only [attempt, h]

theorem lift_of_ok {r : Except ε α} {a : α} (h : r = .ok a) (s : σ) :
    (lift r : Effect σ ε α).run s = (.ok a, s) := by
  rw [lift, h]

theorem lift_of_error {r : Except ε α} {e : ε} (h : r = .error e) (s : σ) :
    (lift r : Effect σ ε α).run s = (.error e, s) := by
  rw [lift, h]

theorem read_run (f : σ → α) (s : σ) : (read f : Effect σ ε α).run s = (.ok (f s), s) := rfl

theorem modify_run (f : σ → σ) (s : σ) : (modify f : Effect σ ε Unit).run s = (.ok (), f s) := rfl

theorem when_of_true (x : Effect σ ε Unit) (s : σ) : (when true x).run s = x.run s := rfl

theorem when_of_false (x : Effect σ ε Unit) (s : σ) : (when false x).run s = (.ok (), s) := rfl

end Effect

end Effects
