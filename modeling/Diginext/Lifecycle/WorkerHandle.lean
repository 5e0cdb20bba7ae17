import Diginext.Lifecycle.Endpoint

/-! # The handle of the worker thread

`stop()` joins the worker only if `started()` says that it runs, and the worker clears that flag itself
when its loop ends. A worker whose loop has ended on its own is still joinable, as is one that has not
yet set the flag when `waitStart` gives up; the next `start()` or the destructor then meets it.
`handleFree_iff` says that nothing else leads there.
-/
namespace Diginext.Lifecycle
open Transition
set_option autoImplicit false

/-- Before the assignment in `start()`, and in the destructor from the return of `stop()` to the
destruction of the members. -/
def Position.committed : Position → Bool
  | .assigning => true
  | .clearing => true
  | .destroying => true
  | _ => false

/-- Where `server_thread` is about to be assigned to or destroyed, it is not joinable. -/
def HandleFree (s : Endpoint) : Prop := s.position.committed = true → s.server_thread = none

instance (s : Endpoint) : Decidable (HandleFree s) := inferInstanceAs (Decidable (_ → _))

/-- The checks of `started()` that lead to an assignment or to the end of the object. -/
def Position.checks : Position → Bool
  | .starting => true
  | .stopping .starter => true
  | .stopping .destructor => true
  | _ => false

/-- `start()` and the destructor check the flag while the last worker has been joined or is between its
two critical sections: it neither has still to set the flag nor has cleared it by itself. -/
def Accounted (s : Endpoint) : Action → Prop
  | .proceed _ => s.position.checks = true →
    s.server_thread ≠ some .launched ∧ s.server_thread ≠ some .ended
  | _ => True

/-! ## The flag and the worker -/

def Worker.flagged : Worker → Bool
  | .launched => false
  | .entering => true
  | .running => true
  | .leaving => true
  | .ended => false

/-- `started_status` is the worker's own. -/
def Flagged (s : Endpoint) : Prop :=
  s.started_status = (s.server_thread.map Worker.flagged).getD false

theorem Flagged.proceed {s s' : Endpoint} {k : ℕ} (h : Flagged s) (hs : proceed s k = some s') :
    Flagged s' := by
  unfold Flagged at h ⊢
  cases proceeds_of_proceed hs with
  | moves flag thread | halts flag thread => rw [flag, thread, h]
  | joins flag ended thread =>
    rw [flag, thread, h, ended]
    rfl
  | launches _ free eq =>
    rw [free] at h
    rw [eq]
    exact h
  | aborts _ _ eq | clears _ eq =>
    rw [eq]
    exact h

theorem Flagged.work {kind : Kind} {s s' : Endpoint} (h : Flagged s) (hs : work kind s = some s') :
    Flagged s' := by
  unfold Flagged at h ⊢
  cases works_of_work hs with
  | refuses thread eq =>
    rw [thread] at h
    rw [eq]
    exact h
  | raises thread eq | lowers thread eq =>
    rw [eq]
    rfl
  | crashes thread eq =>
    rw [eq]
    exact h
  | returns thread _ eq =>
    rw [eq]
    rcases thread with thread | thread
    · rw [thread] at h
      exact h
    · rw [thread] at h
      exact h
  | idles thread _ eq | runs thread _ eq =>
    rw [thread] at h
    rw [eq]
    exact h

/-- A cleared flag leaves three possibilities for the worker. -/
theorem Flagged.thread {s : Endpoint} (h : Flagged s) (hflag : s.started_status = false) :
    s.server_thread = none ∨ s.server_thread = some .launched ∨ s.server_thread = some .ended := by
  unfold Flagged at h
  rw [hflag] at h
  cases hthread : s.server_thread with
  | none => exact Or.inl rfl
  | some w =>
    rw [hthread] at h
    cases w with
    | launched => exact Or.inr (Or.inl rfl)
    | ended => exact Or.inr (Or.inr rfl)
    | entering | running | leaving => cases h

theorem Flagged.of_thread {s : Endpoint} (h : Flagged s)
    (hthread : s.server_thread = some .launched ∨ s.server_thread = some .ended) :
    s.started_status = false := by
  unfold Flagged at h
  rcases hthread with hthread | hthread
  · rw [h, hthread]
    rfl
  · rw [h, hthread]
    rfl

/-! ## One step -/

structure Joined (s : Endpoint) : Prop where
  flagged : Flagged s
  free : HandleFree s

theorem init_joined (kind : Kind) : Joined (init kind) := by
  cases kind with
  | server => exact ⟨rfl, nofun⟩
  | client => exact ⟨rfl, nofun⟩

theorem wait_committed (done : Bool) (n : ℕ) (again : ℕ → Position) (next : Position)
    (hagain : ∀ k, (again k).committed = false) (hnext : next.committed = false) :
    (wait done n again next).committed = false := by
  unfold wait
  split
  · split
    · exact hnext
    · exact hagain _
  · exact hnext

/-- Only a caller other than the user goes on to the assignment or the destruction. -/
theorem back_committed {c : Caller} (h : c.back.committed = true) :
    (Position.stopping c).checks = true := by
  cases c with
  | user => cases h
  | starter | destructor => rfl

/-- A check that finds the flag cleared finds no worker. -/
theorem Joined.check {s : Endpoint} {k : ℕ} (h : Joined s) (hacc : Accounted s (.proceed k))
    (hchecks : s.position.checks = true) (hflag : s.started_status = false) :
    s.server_thread = none := by
  obtain ⟨hlaunched, hended⟩ := hacc hchecks
  rcases h.flagged.thread hflag with hthread | hthread | hthread
  · exact hthread
  · exact absurd hthread hlaunched
  · exact absurd hthread hended

theorem Joined.proceed {s s' : Endpoint} {k : ℕ} (h : Joined s) (hacc : Accounted s (.proceed k))
    (hs : Lifecycle.proceed s k = some s') : Joined s' := by
  refine ⟨h.flagged.proceed hs, ?_⟩
  unfold Lifecycle.proceed at hs
  cases hp : s.position with
  | starting =>
    simp only [hp] at hs
    cases hs
    intro hcommitted
    cases hflag : s.started_status with
    | true => simp [hflag, Position.committed] at hcommitted
    | false => exact h.check hacc (by rw [hp]; rfl) hflag
  | stopping c =>
    simp only [hp] at hs
    cases hs
    intro hcommitted
    cases hflag : s.started_status with
    | true => simp [hflag, Position.committed] at hcommitted
    | false =>
      simp only [hflag, Bool.false_eq_true, if_false] at hcommitted
      exact h.check hacc (hp ▸ back_committed hcommitted) hflag
  | disconnecting c | halting c =>
    simp only [hp] at hs
    cases hs
    nofun
  | waitingStop c n =>
    simp only [hp] at hs
    cases hs
    intro hcommitted
    rw [wait_committed _ _ _ _ (fun _ => rfl) rfl] at hcommitted
    cases hcommitted
  | waitingStart n =>
    simp only [hp] at hs
    cases hs
    intro hcommitted
    rw [wait_committed _ _ _ _ (fun _ => rfl) rfl] at hcommitted
    cases hcommitted
  | joining c =>
    simp only [hp] at hs
    split at hs
    · rename_i hthread
      cases hs
      exact fun _ => hthread
    · cases hs
      exact fun _ => rfl
    · cases hs
  | assigning =>
    simp only [hp] at hs
    split at hs
    · cases hs
      nofun
    · cases hs
      nofun
  | clearing =>
    simp only [hp] at hs
    cases hs
    exact fun _ => h.free (by rw [hp]; rfl)
  | destroying =>
    simp only [hp] at hs
    split at hs
    · cases hs
      nofun
    · cases hs
      nofun
  | idle | destroyed | terminated =>
    simp only [hp] at hs
    cases hs

/-- The worker moves only while it is joinable, and not between a check and what follows from it. -/
theorem Joined.worker {s s' : Endpoint} (h : Joined s) (hthread : s.server_thread ≠ none)
    (hflagged : Flagged s') (hposition : s'.position = s.position ∨ s'.position = .terminated) :
    Joined s' := by
  refine ⟨hflagged, fun hcommitted => ?_⟩
  rcases hposition with hp | hp
  · exact absurd (h.free (hp ▸ hcommitted)) hthread
  · rw [hp] at hcommitted
    cases hcommitted

theorem Joined.step {kind : Kind} {s s' : Endpoint} {a : Action} (h : Joined s)
    (hacc : Accounted s a) (hs : Lifecycle.step kind s a = some s') : Joined s' := by
  cases steps_of_step hs with
  | issue k idle eq =>
    subst eq
    exact ⟨h.flagged, h.free⟩
  | start _ eq | stop _ eq | destroy _ eq =>
    subst eq
    exact ⟨h.flagged, nofun⟩
  | proceed k eq => exact h.proceed hacc eq
  | work eq =>
    have hflagged := h.flagged.work eq
    cases works_of_work eq with
    | refuses thread eq | raises thread eq | idles thread _ eq | runs thread _ eq | lowers thread eq =>
      exact h.worker (by rw [thread]; nofun) hflagged (Or.inl (by rw [eq]))
    | crashes thread eq => exact h.worker (by rw [thread]; nofun) hflagged (Or.inr (by rw [eq]))
    | returns thread _ eq =>
      refine h.worker ?_ hflagged (Or.inl (by rw [eq]))
      rcases thread with thread | thread
      · rw [thread]
        nofun
      · rw [thread]
        nofun
  | dispatch k running eq =>
    subst eq
    exact h.worker (by rw [running]; nofun) h.flagged (Or.inl rfl)
  | escape k running eq =>
    subst eq
    have hflag := h.flagged
    unfold Flagged at hflag
    rw [running] at hflag
    exact h.worker (by rw [running]; nofun) hflag (Or.inl rfl)

/-- A check that meets a worker outside its critical sections goes on with the worker joinable. -/
theorem not_handleFree_of_check {kind : Kind} {s s' : Endpoint} {a : Action} (h : Joined s)
    (hacc : ¬ Accounted s a) (hs : Lifecycle.step kind s a = some s') : ¬ HandleFree s' := by
  cases steps_of_step hs with
  | proceed k eq =>
    simp only [Accounted, ne_eq, Classical.not_imp, not_and_or, not_not] at hacc
    obtain ⟨hchecks, hthread⟩ := hacc
    have hflag := h.flagged.of_thread hthread
    have hjoinable : s.server_thread ≠ none := by
      rcases hthread with hthread | hthread
      · rw [hthread]
        nofun
      · rw [hthread]
        nofun
    cases hp : s.position with
    | starting =>
      simp only [Lifecycle.proceed, hp, hflag] at eq
      cases eq
      exact fun hfree => hjoinable (hfree rfl)
    | stopping c =>
      simp only [Lifecycle.proceed, hp, hflag] at eq
      cases eq
      rw [hp] at hchecks
      cases c with
      | user => cases hchecks
      | starter => exact fun hfree => hjoinable (hfree rfl)
      | destructor => exact fun hfree => hjoinable (hfree rfl)
    | idle | disconnecting | halting | waitingStop | joining | assigning | waitingStart | clearing
      | destroying | destroyed | terminated =>
      rw [hp] at hchecks
      cases hchecks
  | issue | start | stop | destroy | work | dispatch | escape => exact absurd trivial hacc

/-! ## Every history -/

/-- **The worker handle.** Along a history, `server_thread` is never assigned to or destroyed while it is
joinable exactly if no check of `started()` in `start()` or the destructor comes upon a worker whose
loop has ended on its own or that has not yet set the flag. -/
theorem handleFree_iff (kind : Kind) (as : List Action) :
    Along (step kind) HandleFree (init kind) as ↔ Meets (step kind) Accounted (init kind) as := by
  constructor
  · exact meets_of_along (fun s a s' h hacc hs => h.step hacc hs)
      (fun s a s' h hacc hs => not_handleFree_of_check h hacc hs) (init_joined kind)
  · intro hmeets
    have hjoined := along_of_meets (fun s a s' h hacc hs => Joined.step h hacc hs)
      (init_joined kind) hmeets
    exact hjoined.mono fun s h => h.free

/-- A refused connection: the loop is left without work and ends, and the client connects and starts
again. A listener that throws ends the server's loop, and the server is destroyed. -/
theorem handle_overwritten :
    (¬ ∀ as, Along (step .client) HandleFree (init .client) as) ∧
      ¬ ∀ as, Along (step .server) HandleFree (init .server) as := by
  have hclient : ∃ t, run (step .client) (init .client) [.issue 1, .start, .proceed 0, .proceed 0,
      .work, .work, .proceed 0, .dispatch 0, .work, .work, .issue 1, .start, .proceed 0] = some t ∧
      t.position.committed = true ∧ t.server_thread = some .ended := ⟨_, rfl, by decide⟩
  have hserver : ∃ t, run (step .server) (init .server) [.start, .proceed 0, .proceed 0, .work, .work,
      .proceed 0, .escape 1, .work, .destroy, .proceed 0] = some t ∧
      t.position.committed = true ∧ t.server_thread = some .ended := ⟨_, rfl, by decide⟩
  constructor
  · intro h
    obtain ⟨t, hr, hcommitted, hthread⟩ := hclient
    have hfree := (h _).last hr hcommitted
    rw [hthread] at hfree
    cases hfree
  · intro h
    obtain ⟨t, hr, hcommitted, hthread⟩ := hserver
    have hfree := (h _).last hr hcommitted
    rw [hthread] at hfree
    cases hfree

end Diginext.Lifecycle
