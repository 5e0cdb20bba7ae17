import Diginext.Foundations.Outcome

/-! # Computations that keep a log of what they touch

Nothing here is about one program. A `Logged ω ε α` is an `Outcome ε α` beside the list of the events
`ω` it went through before it returned, threw or left defined behaviour. Forgetting the log is a
homomorphism (`outcome_bind`), so a logged computation can be compared with the plain one.
-/
namespace Outcomes
set_option autoImplicit false

structure Logged (ω ε α : Type) where
  log : List ω
  outcome : Outcome ε α

namespace Logged
variable {ω ε α β : Type}

/-- What `f` goes through from a value, and nothing where there is none. -/
def followedBy (f : α → Logged ω ε β) : Outcome ε α → Logged ω ε β
  | .ok a => f a
  | .throws e => ⟨[], .throws e⟩
  | .undefined => ⟨[], .undefined⟩

instance : Monad (Logged ω ε) where
  pure a := ⟨[], .ok a⟩
  bind x f := ⟨x.log ++ (followedBy f x.outcome).log, (followedBy f x.outcome).outcome⟩

/-- A computation that goes through no event. -/
def lift (r : Outcome ε α) : Logged ω ε α := ⟨[], r⟩

/-- One event, whatever comes of it. -/
def event (w : ω) (r : Outcome ε α) : Logged ω ε α := ⟨[w], r⟩

/-- `try { x } catch (...) { handler }`. -/
def catchAll (x : Logged ω ε α) (handler : ε → Logged ω ε α) : Logged ω ε α :=
  match x.outcome with
  | .ok _ => x
  | .throws e => ⟨x.log ++ (handler e).log, (handler e).outcome⟩
  | .undefined => x

@[simp] theorem pure_outcome (a : α) : (pure a : Logged ω ε α).outcome = .ok a := rfl
@[simp] theorem pure_log (a : α) : (pure a : Logged ω ε α).log = [] := rfl
@[simp] theorem lift_outcome (r : Outcome ε α) : (lift r : Logged ω ε α).outcome = r := rfl
@[simp] theorem lift_log (r : Outcome ε α) : (lift r : Logged ω ε α).log = [] := rfl
@[simp] theorem event_outcome (w : ω) (r : Outcome ε α) : (event w r).outcome = r := rfl
@[simp] theorem event_log (w : ω) (r : Outcome ε α) : (event w r).log = [w] := rfl

@[simp] theorem outcome_bind (x : Logged ω ε α) (f : α → Logged ω ε β) :
    (x >>= f).outcome = x.outcome >>= fun a => (f a).outcome := by
  change (followedBy f x.outcome).outcome = _
  cases x.outcome with
  | ok a => rfl
  | throws e => rfl
  | undefined => rfl

theorem log_bind_of_ok {x : Logged ω ε α} {a : α} (h : x.outcome = .ok a)
    (f : α → Logged ω ε β) : (x >>= f).log = x.log ++ (f a).log := by
  change x.log ++ (followedBy f x.outcome).log = _
  rw [h, followedBy]

theorem log_bind_pure (x : Logged ω ε α) (f : α → β) : (x >>= fun a => pure (f a)).log = x.log := by
  change x.log ++ (followedBy _ x.outcome).log = _
  cases x.outcome with
  | ok a => exact List.append_nil _
  | throws e => exact List.append_nil _
  | undefined => exact List.append_nil _

theorem mem_log_bind_left {x : Logged ω ε α} {w : ω} (f : α → Logged ω ε β) (h : w ∈ x.log) :
    w ∈ (x >>= f).log := List.mem_append_left _ h

theorem mem_log_bind_right {x : Logged ω ε α} {f : α → Logged ω ε β} {w : ω} {a : α}
    (hx : x.outcome = .ok a) (h : w ∈ (f a).log) : w ∈ (x >>= f).log := by
  rw [log_bind_of_ok hx]
  exact List.mem_append_right _ h

/-- Two sequences are the same when their first parts are, and what follows the value of that part. -/
theorem bind_congr {x y : Logged ω ε α} {f g : α → Logged ω ε β} (hxy : x = y)
    (hfg : ∀ a, x.outcome = .ok a → f a = g a) : (x >>= f) = (y >>= g) := by
  subst hxy
  change Logged.mk _ _ = Logged.mk _ _
  cases hx : x.outcome with
  | ok a => simp only [followedBy, hfg a hx]
  | throws e => rfl
  | undefined => rfl

@[simp] theorem outcome_catchAll (x : Logged ω ε α) (handler : ε → Logged ω ε α) :
    (x.catchAll handler).outcome = x.outcome.catchAll fun e => (handler e).outcome := by
  unfold catchAll
  cases hx : x.outcome with
  | ok a => simp [hx]
  | throws e => simp
  | undefined => simp [hx]

/-- What is caught has been gone through. -/
theorem log_catchAll {x : Logged ω ε α} {handler : ε → Logged ω ε α} (h : ∀ e, (handler e).log = []) :
    (x.catchAll handler).log = x.log := by
  unfold catchAll
  split
  · rfl
  · rw [h, List.append_nil]
  · rfl

/-- An event of a sequence belongs to its first part, or to what follows the value of that part. -/
theorem mem_log_bind {x : Logged ω ε α} {f : α → Logged ω ε β} {w : ω} (h : w ∈ (x >>= f).log) :
    w ∈ x.log ∨ ∃ a, x.outcome = .ok a ∧ w ∈ (f a).log := by
  rcases List.mem_append.mp h with h | h
  · exact Or.inl h
  · cases hx : x.outcome with
    | ok a =>
      rw [hx] at h
      exact Or.inr ⟨a, rfl, h⟩
    | throws e =>
      rw [hx] at h
      cases h
    | undefined =>
      rw [hx] at h
      cases h

end Logged

end Outcomes
