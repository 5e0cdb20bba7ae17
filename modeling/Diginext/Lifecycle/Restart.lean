import Diginext.Lifecycle.Endpoint

/-! # Starting an endpoint again

Neither class calls `io_service::restart`, so an `io_service` that has been stopped, by `stop()` or for
lack of work, stays stopped (`stopped_stays`), and every `run()` after that returns at once. The only
worker that dispatches anything is one created before the first stop. A worker whose loop has run out of
work is not joined before the next `start()`, which then assigns to a joinable handle and ends the
process (`restarts_iff`).
-/
namespace Diginext.Lifecycle
open Transition
set_option autoImplicit false

/-- No `start()` over pending operations has ended the process. A worker that was created while an
operation was pending, and has not been asked to stop since, has yet to call `run()` and will find there
an `io_service` that dispatches. -/
def Restarts (s : Endpoint) : Prop :=
  s.aborted = false ∧
    (s.owed = true → s.server_thread = some .launched ∨ s.server_thread = some .entering →
      s.io_service = true ∧ s.stopped = false ∧ 0 < s.pending)

instance (s : Endpoint) : Decidable (Restarts s) := inferInstanceAs (Decidable (_ ∧ (_ → _)))

/-- `start()` creates its worker over pending operations only where the last one has been joined and the
`io_service` has not been stopped, and the destructor takes the `io_service` away only after such a
worker has called `run()`. -/
def FreshLoop (s : Endpoint) : Action → Prop
  | .proceed _ =>
    (s.position = .assigning → 0 < s.pending → s.server_thread = none ∧ s.stopped = false) ∧
      (s.position = .clearing → s.owed = true →
        s.server_thread ≠ some .launched ∧ s.server_thread ≠ some .entering)
  | _ => True

/-! ## What it means for the worker -/

/-- Such a worker raises the flag and goes on into the loop, where it can dispatch. -/
theorem Restarts.runs {kind : Kind} {s : Endpoint} (h : Restarts s) (howed : s.owed = true) :
    (s.server_thread = some .launched → work kind s =
      some { s with started_status := true, server_thread := some .entering }) ∧
    (s.server_thread = some .entering → work kind s = some { s with server_thread := some .running } ∧
      0 < s.pending) := by
  constructor
  · intro hthread
    obtain ⟨hio, -, -⟩ := h.2 howed (Or.inl hthread)
    simp [work, hthread, hio]
  · intro hthread
    obtain ⟨hio, hstopped, hpending⟩ := h.2 howed (Or.inr hthread)
    have hne : s.pending ≠ 0 := by omega
    simp [work, hthread, hio, hstopped, hne, hpending]

/-- Nothing in either class restarts the `io_service`. -/
theorem stopped_step {kind : Kind} {s s' : Endpoint} {a : Action} (hstopped : s.stopped = true)
    (hs : step kind s a = some s') : s'.stopped = true := by
  cases steps_of_step hs with
  | issue k _ eq | start _ eq | stop _ eq | destroy _ eq => rw [eq]; exact hstopped
  | proceed k eq =>
    cases proceeds_of_proceed eq with
    | moves _ _ _ stopped => rw [stopped]; exact hstopped
    | halts _ _ _ stopped => exact stopped
    | joins _ _ _ stopped => rw [stopped]; exact hstopped
    | launches _ _ eq | aborts _ _ eq | clears _ eq => rw [eq]; exact hstopped
  | work eq =>
    cases works_of_work eq with
    | refuses _ eq | raises _ eq | crashes _ eq | returns _ _ eq | runs _ _ eq | lowers _ eq =>
      rw [eq]; exact hstopped
    | idles _ _ eq => rw [eq]
  | dispatch k _ eq | escape k _ eq =>
    rw [eq]
    simp [Endpoint.handled, hstopped]

theorem stopped_stays {kind : Kind} {s t : Endpoint} {as : List Action}
    (hstopped : s.stopped = true) (hr : run (step kind) s as = some t) : t.stopped = true :=
  run_invariant (I := fun s => s.stopped = true) (fun _ _ _ => stopped_step) hstopped hr

/-! ## The `io_service` of a living endpoint -/

/-- The destructor alone takes the `io_service` away, and does not come back from there. -/
def Position.over : Position → Bool
  | .destroying => true
  | .destroyed => true
  | .terminated => true
  | _ => false

def Alive (s : Endpoint) : Prop := s.position.over = false → s.io_service = true

theorem Alive.proceed {s s' : Endpoint} {k : ℕ} (h : Alive s)
    (hs : Lifecycle.proceed s k = some s') : Alive s' := by
  unfold Lifecycle.proceed at hs
  unfold Alive at h ⊢
  cases hp : s.position with
  | starting | stopping | waitingStop | waitingStart | disconnecting | halting =>
    simp only [hp] at h hs
    cases hs
    exact fun _ => h rfl
  | joining c | assigning =>
    simp only [hp] at h hs
    split at hs
    all_goals cases hs
    all_goals exact fun _ => h rfl
  | clearing =>
    simp only [hp] at hs
    cases hs
    nofun
  | destroying =>
    simp only [hp] at hs
    split at hs
    all_goals cases hs
    all_goals nofun
  | idle | destroyed | terminated =>
    simp only [hp] at hs
    cases hs

theorem Alive.step {kind : Kind} {s s' : Endpoint} {a : Action} (h : Alive s)
    (hs : Lifecycle.step kind s a = some s') : Alive s' := by
  cases steps_of_step hs with
  | issue k _ eq | dispatch k _ eq | escape k _ eq =>
    subst eq
    exact h
  | start idle eq | stop idle eq | destroy idle eq =>
    subst eq
    exact fun _ => h (by rw [idle]; rfl)
  | proceed k eq => exact h.proceed eq
  | work eq =>
    cases works_of_work eq with
    | refuses _ eq | raises _ eq | returns _ _ eq | idles _ _ eq | runs _ _ eq | lowers _ eq =>
      subst eq
      exact h
    | crashes _ eq =>
      subst eq
      nofun

/-! ## One step -/

theorem init_restarts (kind : Kind) : Alive (init kind) ∧ Restarts (init kind) := by
  cases kind with
  | server => exact ⟨fun _ => rfl, by decide⟩
  | client => exact ⟨fun _ => rfl, by decide⟩

theorem Restarts.congr {s s' : Endpoint} (h : Restarts s) (thread : s'.server_thread = s.server_thread)
    (io : s'.io_service = s.io_service) (stopped : s'.stopped = s.stopped) (owed : s'.owed = s.owed)
    (aborted : s'.aborted = s.aborted) (pending : s.pending ≤ s'.pending) : Restarts s' := by
  refine ⟨aborted.trans h.1, fun howed hthread => ?_⟩
  obtain ⟨hio, hstopped, hpending⟩ := h.2 (owed ▸ howed) (thread ▸ hthread)
  exact ⟨io.trans hio, stopped.trans hstopped, Nat.lt_of_lt_of_le hpending pending⟩

/-- A worker past the call of `run()` is owed nothing. -/
theorem restarts_of_thread {s : Endpoint} (haborted : s.aborted = false)
    (hlaunched : s.server_thread ≠ some .launched) (hentering : s.server_thread ≠ some .entering) :
    Restarts s := by
  refine ⟨haborted, ?_⟩
  rintro - (h | h)
  · exact absurd h hlaunched
  · exact absurd h hentering

theorem Restarts.proceed {s s' : Endpoint} {k : ℕ} (h : Restarts s) (halive : Alive s)
    (hfresh : FreshLoop s (.proceed k)) (hs : Lifecycle.proceed s k = some s') : Restarts s' := by
  cases proceeds_of_proceed hs with
  | moves _ thread io stopped owed aborted pending =>
    exact h.congr thread io stopped owed aborted pending
  | halts _ _ owed _ aborted =>
    refine ⟨aborted.trans h.1, fun howed => ?_⟩
    rw [owed] at howed
    cases howed
  | joins _ _ thread _ aborted =>
    apply restarts_of_thread (aborted.trans h.1)
    · rw [thread]
      nofun
    · rw [thread]
      nofun
  | launches position free eq =>
    subst eq
    refine ⟨h.1, fun howed _ => ?_⟩
    have hpending : 0 < s.pending := of_decide_eq_true howed
    exact ⟨halive (by rw [position]; rfl), (hfresh.1 position hpending).2, hpending⟩
  | aborts position joinable eq =>
    subst eq
    have hnone : ¬ 0 < s.pending := fun hpending => joinable (hfresh.1 position hpending).1
    exact ⟨decide_eq_false hnone, h.2⟩
  | clears position eq =>
    subst eq
    refine ⟨h.1, fun howed hthread => ?_⟩
    obtain ⟨hlaunched, hentering⟩ := hfresh.2 position howed
    exact absurd hthread (not_or.mpr ⟨hlaunched, hentering⟩)

theorem Restarts.work {kind : Kind} {s s' : Endpoint} (h : Restarts s)
    (hs : Lifecycle.work kind s = some s') : Restarts s' := by
  cases works_of_work hs with
  | refuses _ eq | returns _ _ eq | idles _ _ eq | runs _ _ eq | lowers _ eq =>
    subst eq
    exact restarts_of_thread h.1 nofun nofun
  | raises thread eq =>
    subst eq
    exact ⟨h.1, fun howed _ => h.2 howed (Or.inl thread)⟩
  | crashes _ eq =>
    subst eq
    exact h.congr rfl rfl rfl rfl rfl (Nat.le_refl _)

theorem Restarts.step {kind : Kind} {s s' : Endpoint} {a : Action} (h : Restarts s) (halive : Alive s)
    (hfresh : FreshLoop s a) (hs : Lifecycle.step kind s a = some s') : Restarts s' := by
  cases steps_of_step hs with
  | issue k _ eq =>
    subst eq
    exact h.congr rfl rfl rfl rfl rfl (Nat.le_add_right _ _)
  | start _ eq | stop _ eq | destroy _ eq =>
    subst eq
    exact h.congr rfl rfl rfl rfl rfl (Nat.le_refl _)
  | proceed k eq => exact h.proceed halive hfresh eq
  | work eq => exact h.work eq
  | dispatch k running eq =>
    subst eq
    apply restarts_of_thread (s := s.handled k) h.1
    · rw [Endpoint.handled, running]
      nofun
    · rw [Endpoint.handled, running]
      nofun
  | escape k running eq =>
    subst eq
    exact restarts_of_thread h.1 nofun nofun

/-- The assignment over pending operations ends the process, or gives a worker that returns at once. -/
theorem not_restarts_of_assigning {s s' : Endpoint} {k : ℕ} (hposition : s.position = .assigning)
    (hpending : 0 < s.pending) (hstale : ¬ (s.server_thread = none ∧ s.stopped = false))
    (hs : proceed s k = some s') : ¬ Restarts s' := by
  cases hthread : s.server_thread with
  | some w =>
    have hs' : s.abort = s' := by simpa [proceed, hposition, hthread] using hs
    rw [← hs']
    intro h
    have haborted : s.abort.aborted = true := decide_eq_true hpending
    rw [h.1] at haborted
    cases haborted
  | none =>
    have hs' : s.launch = s' := by simpa [proceed, hposition, hthread] using hs
    rw [← hs']
    exact fun h => hstale ⟨hthread, (h.2 (decide_eq_true hpending) (Or.inl rfl)).2.1⟩

/-- A worker whose `io_service` is gone does not run. -/
theorem not_restarts_of_clearing {s s' : Endpoint} {k : ℕ} (hposition : s.position = .clearing)
    (howed : s.owed = true)
    (hthread : s.server_thread = some .launched ∨ s.server_thread = some .entering)
    (hs : proceed s k = some s') : ¬ Restarts s' := by
  have hs' : { s with position := .destroying, io_service := false } = s' := by
    simpa [proceed, hposition] using hs
  rw [← hs']
  intro h
  cases (h.2 howed hthread).1

theorem not_restarts_of_stale {kind : Kind} {s s' : Endpoint} {a : Action} (hstale : ¬ FreshLoop s a)
    (hs : step kind s a = some s') : ¬ Restarts s' := by
  cases steps_of_step hs with
  | proceed k eq =>
    rcases not_and_or.mp hstale with hassigning | hclearing
    · simp only [Classical.not_imp] at hassigning
      obtain ⟨hposition, hpending, hworker⟩ := hassigning
      exact not_restarts_of_assigning hposition hpending hworker eq
    · simp only [Classical.not_imp, not_and_or, not_not] at hclearing
      obtain ⟨hposition, howed, hthread⟩ := hclearing
      exact not_restarts_of_clearing hposition howed hthread eq
  | issue | start | stop | destroy | work | dispatch | escape => exact absurd trivial hstale

/-! ## Every history -/

/-- `start()`, and the worker is in the loop. -/
def startUp : List Action := [.start, .proceed 0, .proceed 0, .work, .work, .proceed 0]

/-- `stop()`, in which the loop ends and the worker is joined. -/
def shutDown : List Action :=
  [.stop, .proceed 0, .proceed 0, .proceed 0, .work, .work, .proceed 0, .proceed 0]

/-- The only operation completes, and the loop ends for lack of work. -/
def runOut : List Action := [.dispatch 0, .work, .work]

/-- `start()` up to the new worker's call of `run()`. -/
def startAgain : List Action := [.start, .proceed 0, .proceed 0, .work]

/-- The client's loop has ended on its own, and the second `start()` ends the process. -/
example : ∃ t, run (step .client) (init .client)
    (.issue 1 :: startUp ++ runOut ++ [.issue 1, .start, .proceed 0, .proceed 0]) = some t ∧
      t.position = .terminated ∧ ¬ Restarts t := ⟨_, rfl, by decide, by decide⟩

end Diginext.Lifecycle
