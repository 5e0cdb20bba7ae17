import Mathlib.Data.Nat.Init
import Mathlib.Logic.Relation
import Mathlib.Order.WellFounded

/-! # Threads that wait for each other

`Locks` says at one moment which mutexes every thread holds and which one it is about to lock. If
mutexes are locked in the order of their ranks, of which there are finitely many, then no threads wait
for each other in a circle, and whoever waits does so in the end for a thread that does not.
-/
namespace Locking
set_option autoImplicit false

structure Locks (θ μ : Type) where
  holds : θ → μ → Prop
  next : θ → Option μ

variable {θ μ : Type} (k : Locks θ μ)

/-- The thread waits for another, or for itself. -/
def Waits (t u : θ) : Prop := ∃ m, k.next t = some m ∧ k.holds u m

def Deadlock : Prop := ∃ t, Relation.TransGen (Waits k) t t

/-- A thread locks mutexes of a higher rank than those it holds. -/
def Ordered (rank : μ → ℕ) : Prop := ∀ t m m', k.holds t m → k.next t = some m' → rank m < rank m'

variable {k}

theorem deadlock_of_self {t : θ} {m : μ} (hnext : k.next t = some m) (hholds : k.holds t m) :
    Deadlock k :=
  ⟨t, Relation.TransGen.single ⟨m, hnext, hholds⟩⟩

/-- How far the mutex that a thread waits for is from the highest. -/
def distance (k : Locks θ μ) (rank : μ → ℕ) (n : ℕ) (t : θ) : ℕ := (k.next t).elim 0 fun m => n - rank m

theorem Ordered.distance_lt {rank : μ → ℕ} {n : ℕ} (h : Ordered k rank) (hrank : ∀ m, rank m < n)
    {t u : θ} (hwaits : Waits k t u) : distance k rank n u < distance k rank n t := by
  obtain ⟨m, hnext, hholds⟩ := hwaits
  have hm := hrank m
  unfold distance
  rw [hnext]
  cases hu : k.next u with
  | none =>
    show 0 < n - rank m
    omega
  | some m' =>
    have hlt := h u m m' hholds hu
    have hm' := hrank m'
    show n - rank m' < n - rank m
    omega

theorem Ordered.distance_lt_of_transGen {rank : μ → ℕ} {n : ℕ} (h : Ordered k rank)
    (hrank : ∀ m, rank m < n) {t u : θ} (hpath : Relation.TransGen (Waits k) t u) :
    distance k rank n u < distance k rank n t := by
  induction hpath with
  | single hwaits => exact h.distance_lt hrank hwaits
  | tail _ hwaits ih => exact (h.distance_lt hrank hwaits).trans ih

theorem Ordered.not_deadlock {rank : μ → ℕ} {n : ℕ} (h : Ordered k rank) (hrank : ∀ m, rank m < n) :
    ¬ Deadlock k := by
  rintro ⟨t, hcycle⟩
  exact Nat.lt_irrefl _ (h.distance_lt_of_transGen hrank hcycle)

/-- Whoever waits does so in the end for a thread that does not. -/
theorem Ordered.waits_end {rank : μ → ℕ} {n : ℕ} (h : Ordered k rank) (hrank : ∀ m, rank m < n)
    (t : θ) : ∃ u, Relation.ReflTransGen (Waits k) t u ∧ ∀ v, ¬ Waits k u v := by
  induction hd : distance k rank n t using Nat.strong_induction_on generalizing t with
  | _ d ih =>
    subst hd
    by_cases hfree : ∀ u, ¬ Waits k t u
    · exact ⟨t, Relation.ReflTransGen.refl, hfree⟩
    · obtain ⟨u, hwaits⟩ := not_forall_not.mp hfree
      obtain ⟨v, hpath, hend⟩ := ih _ (h.distance_lt hrank hwaits) u rfl
      exact ⟨v, Relation.ReflTransGen.head hwaits hpath, hend⟩

end Locking
