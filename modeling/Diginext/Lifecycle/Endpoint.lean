import Diginext.Foundations.Transition

/-! # `start`, `stop` and the worker thread of an endpoint

`core/src/TCP/TCPServer.cpp` and `core/src/TCP/TCPClient.cpp` have the same `start`, `stop`,
`waitStart`, `waitStop`, `started` and destructor, but for the disconnect that `stop` begins with and
for a check at the start of the client's worker. An `Endpoint` is one object of either class: its
flag, its `server_thread`, its `io_service`, and the position of the thread that calls the public
operations. Each access of the flag is a step of its own, as it holds `status_sync` alone.

Of the `io_service` it is kept whether it has been stopped and how many operations are pending. A call
of `run()` on a stopped one returns at once, and one that is left without work becomes stopped; neither
class ever restarts it.
-/
namespace Diginext.Lifecycle
set_option autoImplicit false

inductive Kind where
  | server
  | client
  deriving DecidableEq, Repr

def MAX_TRY : ℕ := 30

/-! The thread function given to `std::thread`: `launched` before it takes `status_sync`, `entering`
with the flag set and `run()` to be called, `leaving` when `run()` has returned or its exception has
been caught, `ended` when the function has returned. -/

inductive Worker where
  | launched
  | entering
  | running
  | leaving
  | ended
  deriving DecidableEq, Repr

/-- Who has called `stop()`. -/
inductive Caller where
  | user
  | starter
  | destructor
  deriving DecidableEq, Repr

/-! The positions of the calling thread. `starting` and `stopping` are the checks of `started()`,
`halting` is `io_service->stop()`, `clearing` is `io_service = nullptr`, and `destroying` the
destruction of the members. In `terminated` the process is gone. -/

inductive Position where
  | idle
  | starting
  | stopping (caller : Caller)
  | disconnecting (caller : Caller)
  | halting (caller : Caller)
  | waitingStop (caller : Caller) (try_count : ℕ)
  | joining (caller : Caller)
  | assigning
  | waitingStart (try_count : ℕ)
  | clearing
  | destroying
  | destroyed
  | terminated
  deriving DecidableEq, Repr

/-! `server_thread` is `none` where it is not joinable, `io_service` says that the pointer is not null.
`owed` and `aborted` are no fields of the source. `owed`: the worker was created while an operation was
pending, and `stop()` has not stopped the `io_service` since. `aborted`: `start()` has ended the process
while an operation was pending. -/

structure Endpoint where
  position : Position
  started_status : Bool
  server_thread : Option Worker
  io_service : Bool
  stopped : Bool
  pending : ℕ
  owed : Bool
  aborted : Bool
  deriving DecidableEq, Repr

/-- A constructed endpoint; the server's constructor has called `start_accept`. -/
def init : Kind → Endpoint
  | .server => ⟨.idle, false, none, true, false, 1, false, false⟩
  | .client => ⟨.idle, false, none, true, false, 0, false, false⟩

/-- Where `stop()` returns to. -/
def Caller.back : Caller → Position
  | .user => .idle
  | .starter => .assigning
  | .destructor => .clearing

/-! ## The calling thread -/

/-- `waitStart` and `waitStop` from the given count on, one look at the flag a step. -/
def wait (done : Bool) (try_count : ℕ) (again : ℕ → Position) (next : Position) : Position :=
  if try_count < MAX_TRY then (if done then next else again (try_count + 1)) else next

/-- `server_thread = std::thread(..)` on a handle that is not joinable. -/
def Endpoint.launch (s : Endpoint) : Endpoint :=
  { s with
    position := .waitingStart 0
    server_thread := some .launched
    owed := decide (0 < s.pending) }

/-- The same assignment to a handle that is joinable calls `std::terminate`. -/
def Endpoint.abort (s : Endpoint) : Endpoint :=
  { s with position := .terminated, aborted := decide (0 < s.pending) }

/-- The next step inside `start`, `stop` or the destructor; `k` is how many operations a disconnect
posts. -/
def proceed (s : Endpoint) (k : ℕ) : Option Endpoint :=
  match s.position with
  | .starting =>
    some { s with position := if s.started_status then .stopping .starter else .assigning }
  | .stopping c =>
    some { s with position := if s.started_status then .disconnecting c else c.back }
  | .disconnecting c => some { s with position := .halting c, pending := s.pending + k }
  | .halting c => some { s with position := .waitingStop c 0, stopped := true, owed := false }
  | .waitingStop c n =>
    some { s with position := wait (!s.started_status) n (.waitingStop c) (.joining c) }
  | .joining c =>
    match s.server_thread with
    | none => some { s with position := c.back }
    | some .ended => some { s with position := c.back, server_thread := none }
    | some _ => none
  | .assigning =>
    match s.server_thread with
    | none => some s.launch
    | some _ => some s.abort
  | .waitingStart n => some { s with position := wait s.started_status n .waitingStart .idle }
  | .clearing => some { s with position := .destroying, io_service := false }
  | .destroying =>
    match s.server_thread with
    | none => some { s with position := .destroyed }
    | some _ => some { s with position := .terminated }
  | .idle => none
  | .destroyed => none
  | .terminated => none

/-! ## The worker thread -/

/-- A handler has run and started `k` operations; without work the `io_service` becomes stopped. -/
def Endpoint.handled (s : Endpoint) (k : ℕ) : Endpoint :=
  { s with pending := s.pending - 1 + k, stopped := s.stopped || decide (s.pending - 1 + k = 0) }

/-- The next step of the thread function outside the handlers that `run()` calls. -/
def work (kind : Kind) (s : Endpoint) : Option Endpoint :=
  match s.server_thread with
  | some .launched =>
    if kind = .client ∧ s.io_service = false then some { s with server_thread := some .ended }
    else some { s with started_status := true, server_thread := some .entering }
  | some .entering =>
    if s.io_service = false then some { s with position := .terminated }
    else if s.stopped then some { s with server_thread := some .leaving }
    else if s.pending = 0 then some { s with stopped := true, server_thread := some .leaving }
    else some { s with server_thread := some .running }
  | some .running => if s.stopped then some { s with server_thread := some .leaving } else none
  | some .leaving => some { s with started_status := false, server_thread := some .ended }
  | some .ended => none
  | none => none

/-! ## One step

`issue k` is a public operation that starts `k` asynchronous operations, such as
`tcp_client::connect`. `dispatch` and `escape` are a handler that `run()` calls; an exception that
leaves it leaves `run()`. -/

inductive Action where
  | issue (k : ℕ)
  | start
  | stop
  | destroy
  | proceed (k : ℕ)
  | work
  | dispatch (k : ℕ)
  | escape (k : ℕ)
  deriving DecidableEq, Repr

def step (kind : Kind) (s : Endpoint) (a : Action) : Option Endpoint :=
  if s.position = .terminated then none
  else
    match a with
    | .issue k => if s.position = .idle then some { s with pending := s.pending + k } else none
    | .start => if s.position = .idle then some { s with position := .starting } else none
    | .stop => if s.position = .idle then some { s with position := .stopping .user } else none
    | .destroy =>
      if s.position = .idle then some { s with position := .stopping .destructor } else none
    | .proceed k => proceed s k
    | .work => work kind s
    | .dispatch k =>
      if s.server_thread = some .running ∧ 0 < s.pending then some (s.handled k) else none
    | .escape k =>
      if s.server_thread = some .running ∧ 0 < s.pending then
        some { s.handled k with server_thread := some .leaving }
      else none

/-! ## What the calling thread does to the worker

It leaves the worker as it is, joins it, or creates it; `io_service->stop()`, `io_service = nullptr` and
the assignment to a joinable handle are cases of their own.
-/

inductive Proceeds (s s' : Endpoint) : Prop where
  | moves (flag : s'.started_status = s.started_status)
      (thread : s'.server_thread = s.server_thread) (io : s'.io_service = s.io_service)
      (stopped : s'.stopped = s.stopped) (owed : s'.owed = s.owed) (aborted : s'.aborted = s.aborted)
      (pending : s.pending ≤ s'.pending)
  | halts (flag : s'.started_status = s.started_status)
      (thread : s'.server_thread = s.server_thread) (owed : s'.owed = false)
      (stopped : s'.stopped = true) (aborted : s'.aborted = s.aborted)
  | joins (flag : s'.started_status = s.started_status) (ended : s.server_thread = some .ended)
      (thread : s'.server_thread = none) (stopped : s'.stopped = s.stopped)
      (aborted : s'.aborted = s.aborted)
  | launches (position : s.position = .assigning) (free : s.server_thread = none)
      (eq : s' = s.launch)
  | aborts (position : s.position = .assigning) (joinable : s.server_thread ≠ none)
      (eq : s' = s.abort)
  | clears (position : s.position = .clearing)
      (eq : s' = { s with position := .destroying, io_service := false })

theorem proceeds_of_proceed {s s' : Endpoint} {k : ℕ} (h : proceed s k = some s') :
    Proceeds s s' := by
  unfold proceed at h
  cases hp : s.position with
  | starting | stopping | waitingStop | waitingStart =>
    simp only [hp] at h
    cases h
    exact .moves rfl rfl rfl rfl rfl rfl (Nat.le_refl _)
  | disconnecting c =>
    simp only [hp] at h
    cases h
    exact .moves rfl rfl rfl rfl rfl rfl (Nat.le_add_right _ _)
  | halting c =>
    simp only [hp] at h
    cases h
    exact .halts rfl rfl rfl rfl rfl
  | joining c =>
    simp only [hp] at h
    split at h
    · cases h
      exact .moves rfl rfl rfl rfl rfl rfl (Nat.le_refl _)
    · cases h
      exact .joins rfl ‹_› rfl rfl rfl
    · cases h
  | assigning =>
    simp only [hp] at h
    split at h
    · cases h
      exact .launches hp ‹_› rfl
    · rename_i hjoinable
      cases h
      exact .aborts hp (by rw [hjoinable]; nofun) rfl
  | clearing =>
    simp only [hp] at h
    cases h
    exact .clears hp rfl
  | destroying =>
    simp only [hp] at h
    split at h
    · cases h
      exact .moves rfl rfl rfl rfl rfl rfl (Nat.le_refl _)
    · cases h
      exact .moves rfl rfl rfl rfl rfl rfl (Nat.le_refl _)
  | idle | destroyed | terminated =>
    simp only [hp] at h
    cases h

/-! ## The other steps -/

/-- What the worker does between the handlers, one case for each place of the thread function. -/
inductive Works (s s' : Endpoint) : Prop where
  | refuses (thread : s.server_thread = some .launched)
      (eq : s' = { s with server_thread := some .ended })
  | raises (thread : s.server_thread = some .launched)
      (eq : s' = { s with started_status := true, server_thread := some .entering })
  | crashes (thread : s.server_thread = some .entering) (eq : s' = { s with position := .terminated })
  | returns (thread : s.server_thread = some .entering ∨ s.server_thread = some .running)
      (stopped : s.stopped = true) (eq : s' = { s with server_thread := some .leaving })
  | idles (thread : s.server_thread = some .entering) (pending : s.pending = 0)
      (eq : s' = { s with stopped := true, server_thread := some .leaving })
  | runs (thread : s.server_thread = some .entering) (stopped : s.stopped = false)
      (eq : s' = { s with server_thread := some .running })
  | lowers (thread : s.server_thread = some .leaving)
      (eq : s' = { s with started_status := false, server_thread := some .ended })

theorem works_of_work {kind : Kind} {s s' : Endpoint} (h : work kind s = some s') : Works s s' := by
  unfold work at h
  split at h
  · rename_i hthread
    split at h
    · cases h
      exact .refuses hthread rfl
    · cases h
      exact .raises hthread rfl
  · rename_i hthread
    split at h
    · cases h
      exact .crashes hthread rfl
    · split at h
      · rename_i hstopped
        cases h
        exact .returns (Or.inl hthread) hstopped rfl
      · rename_i hstopped
        split at h
        · rename_i hpending
          cases h
          exact .idles hthread hpending rfl
        · cases h
          exact .runs hthread (Bool.eq_false_iff.mpr hstopped) rfl
  · rename_i hthread
    split at h
    · rename_i hstopped
      cases h
      exact .returns (Or.inr hthread) hstopped rfl
    · cases h
  · rename_i hthread
    cases h
    exact .lowers hthread rfl
  · cases h
  · cases h

/-- Everything a step can do. -/
inductive Steps (kind : Kind) (s s' : Endpoint) : Action → Prop where
  | issue (k : ℕ) (idle : s.position = .idle) (eq : s' = { s with pending := s.pending + k }) :
      Steps kind s s' (.issue k)
  | start (idle : s.position = .idle) (eq : s' = { s with position := .starting }) :
      Steps kind s s' .start
  | stop (idle : s.position = .idle) (eq : s' = { s with position := .stopping .user }) :
      Steps kind s s' .stop
  | destroy (idle : s.position = .idle) (eq : s' = { s with position := .stopping .destructor }) :
      Steps kind s s' .destroy
  | proceed (k : ℕ) (eq : proceed s k = some s') : Steps kind s s' (.proceed k)
  | work (eq : work kind s = some s') : Steps kind s s' .work
  | dispatch (k : ℕ) (running : s.server_thread = some .running) (eq : s' = s.handled k) :
      Steps kind s s' (.dispatch k)
  | escape (k : ℕ) (running : s.server_thread = some .running)
      (eq : s' = { s.handled k with server_thread := some .leaving }) : Steps kind s s' (.escape k)

theorem steps_of_step {kind : Kind} {s s' : Endpoint} {a : Action} (h : step kind s a = some s') :
    Steps kind s s' a := by
  unfold step at h
  split at h
  · cases h
  cases a with
  | issue k =>
    obtain ⟨hidle, hs⟩ := Option.ite_none_right_eq_some.mp h
    exact .issue k hidle (Option.some.inj hs).symm
  | start =>
    obtain ⟨hidle, hs⟩ := Option.ite_none_right_eq_some.mp h
    exact .start hidle (Option.some.inj hs).symm
  | stop =>
    obtain ⟨hidle, hs⟩ := Option.ite_none_right_eq_some.mp h
    exact .stop hidle (Option.some.inj hs).symm
  | destroy =>
    obtain ⟨hidle, hs⟩ := Option.ite_none_right_eq_some.mp h
    exact .destroy hidle (Option.some.inj hs).symm
  | proceed k => exact .proceed k h
  | work => exact .work h
  | dispatch k =>
    obtain ⟨⟨hrunning, -⟩, hs⟩ := Option.ite_none_right_eq_some.mp h
    exact .dispatch k hrunning (Option.some.inj hs).symm
  | escape k =>
    obtain ⟨⟨hrunning, -⟩, hs⟩ := Option.ite_none_right_eq_some.mp h
    exact .escape k hrunning (Option.some.inj hs).symm

end Diginext.Lifecycle
