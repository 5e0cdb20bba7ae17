import Diginext.Server.Threads

/-! # Listeners that call back into the server

The threads of the server again, with everything a listener may call: `getConnections`,
`getConnectionByUUID`, `send` and `sendAll` besides the operations that disconnect. A connection's
`sendSync` is taken and given back in steps of their own, so that it can be seen who holds it; what the
guarded code does to the send queue calls nothing that locks, and is left out here.

`handle_accept` raises `onAccepted` while it holds `server_sync`, and no other signal is raised with a
mutex held. So a run in which a thread never goes to lock a mutex it holds is one in which the
listeners of `onAccepted` keep to calls that do not lock `server_sync` (`reentrant_iff`).
-/
namespace Diginext.Server
open Cpp Transition
set_option autoImplicit false

inductive Mutex where
  | server_sync
  | sendSync (c : Connection)
  deriving DecidableEq

/-- The public operations that do not disconnect; `sendByUUID` is the `send` that takes a `uuid`. -/
inductive Request (U : Type) where
  | getConnections
  | getConnectionByUUID (uuid : U)
  | send (c : Connection)
  | sendByUUID (uuid : U)
  | sendAll

/-- Where such a call stands. `sendEach` is the loop of `sendAll`, `send` and `asyncWrite` are before
the guard, `queueing` and `pumping` inside. -/
inductive Task (U : Type) where
  | getConnections
  | getConnectionByUUID (uuid : U)
  | sendByUUID (uuid : U)
  | sendAll
  | sendEach (connections : List Connection)
  | send (c : Connection)
  | queueing (c : Connection)
  | asyncWrite (c : Connection)
  | pumping (c : Connection)
  deriving DecidableEq

def Request.entry {U : Type} : Request U → Task U
  | getConnections => .getConnections
  | getConnectionByUUID u => .getConnectionByUUID u
  | send c => .send c
  | sendByUUID u => .sendByUUID u
  | sendAll => .sendAll

/-! ## The mutex that the next step of a call locks -/

def Frame.locks {U : Type} : Frame U → Option Mutex
  | disconnectByUUID _ | disconnectAll | disconnected _ | erase _ | recheck _ | received _ _
  | register _ => some .server_sync
  | disconnectEach _ | stop _ | post _ | dropSlots _ _ | emit _ | listening _ | reading _ _
  | writing _ | finishAccept => none

def Task.locks {U : Type} : Task U → Option Mutex
  | getConnections | getConnectionByUUID _ | sendByUUID _ | sendAll => some .server_sync
  | send c | asyncWrite c => some (.sendSync c)
  | sendEach _ | queueing _ | pumping _ => none

/-! ## The machine

A thread that has tasks goes on with them first. Every completed write of a connection ends in an
`async_write` of its own, that of a failed one after `onSendError` has been raised.
-/

structure LockingServer (T U : Type) where
  server : TcpServer T U
  sendSync : Connection → Option T
  tasks : T → List (Task U)

def LockingServer.started {T U : Type} : LockingServer T U where
  server := .started
  sendSync := fun _ => none
  tasks := fun _ => []

inductive LockingAction (T U : Type) where
  | server (a : Action T U)
  | request (t : T) (r : Request U)
  | written (c : Connection)
  | task (t : T)

namespace LockingServer
variable {T U : Type} [DecidableEq T] [DecidableEq U] (uuid : Connection → U)

def setTasks (s : LockingServer T U) (t : T) (tasks : List (Task U)) : LockingServer T U :=
  { s with tasks := Function.update s.tasks t tasks }

/-- A thread is in user code: it runs none of the server's, or it is in a listener. -/
def inUserCode (loop : T) (s : LockingServer T U) (t : T) : Bool :=
  match s.server.stack t with
  | [] => decide (t ≠ loop) || s.server.running
  | .listening _ :: _ => true
  | _ => false

/-- The `async_write` at the end of a `handle_write` that had an error. -/
def followUp (s : LockingServer T U) : Action T U → List (Task U)
  | .advance t =>
    match s.server.stack t with
    | .writing c :: _ => [.asyncWrite c]
    | _ => []
  | _ => []

def underServerSync (s : LockingServer T U) (result : LockingServer T U) :
    Option (LockingServer T U) :=
  if s.server.server_sync.isSome then none else some result

def acquire (s : LockingServer T U) (t : T) (c : Connection) (tasks : List (Task U)) :
    Option (LockingServer T U) :=
  if (s.sendSync c).isSome then none
  else some ({ s with sendSync := Function.update s.sendSync c (some t) }.setTasks t tasks)

def release (s : LockingServer T U) (t : T) (c : Connection) (tasks : List (Task U)) :
    Option (LockingServer T U) :=
  some ({ s with sendSync := Function.update s.sendSync c none }.setTasks t tasks)

def perform (s : LockingServer T U) (t : T) (rest : List (Task U)) :
    Task U → Option (LockingServer T U)
  | .getConnections | .getConnectionByUUID _ => s.underServerSync (s.setTasks t rest)
  | .sendByUUID u =>
    s.underServerSync <|
      match s.server.getConnectionByUUID uuid u with
      | some c => s.setTasks t (.send c :: rest)
      | none => s.setTasks t rest
  | .sendAll => s.underServerSync (s.setTasks t (.sendEach s.server.connections :: rest))
  | .sendEach [] => some (s.setTasks t rest)
  | .sendEach (c :: cs) => some (s.setTasks t (.send c :: .sendEach cs :: rest))
  | .send c => s.acquire t c (.queueing c :: rest)
  | .queueing c => s.release t c (.asyncWrite c :: rest)
  | .asyncWrite c => s.acquire t c (.pumping c :: rest)
  | .pumping c => s.release t c rest

def step (loop : T) (s : LockingServer T U) : LockingAction T U → Option (LockingServer T U)
  | .server a =>
    if s.tasks (a.thread loop) = [] then
      match TcpServer.step uuid loop s.server a with
      | some server => some ({ s with server := server }.setTasks (a.thread loop) (s.followUp a))
      | none => none
    else none
  | .request t r =>
    if s.tasks t = [] ∧ s.inUserCode loop t then some (s.setTasks t [r.entry]) else none
  | .written c =>
    if s.tasks loop = [] ∧ s.server.stack loop = [] ∧ s.server.running then
      some (s.setTasks loop [.asyncWrite c])
    else none
  | .task t =>
    match s.tasks t with
    | [] => none
    | task :: rest => s.perform uuid t rest task

omit [DecidableEq T] [DecidableEq U] in
theorem underServerSync_eq {s result s' : LockingServer T U}
    (h : s.underServerSync result = some s') : s.server.server_sync = none ∧ s' = result := by
  unfold underServerSync at h
  split at h
  · cases h
  · rename_i hsync
    exact ⟨by simpa using hsync, (Option.some.inj h).symm⟩

omit [DecidableEq U] in
theorem acquire_eq {s s' : LockingServer T U} {t : T} {c : Connection} {tasks : List (Task U)}
    (h : s.acquire t c tasks = some s') : s.sendSync c = none ∧
      s' = { s with sendSync := Function.update s.sendSync c (some t) }.setTasks t tasks := by
  unfold acquire at h
  split at h
  · cases h
  · rename_i hsync
    exact ⟨by simpa using hsync, (Option.some.inj h).symm⟩

end LockingServer

/-! ## Waiting for oneself -/

variable {T U : Type}

def nextLock (s : LockingServer T U) (t : T) : Option Mutex :=
  match s.tasks t with
  | task :: _ => task.locks
  | [] =>
    match s.server.stack t with
    | frame :: _ => frame.locks
    | [] => none

def Holds (s : LockingServer T U) (t : T) : Mutex → Prop
  | .server_sync => s.server.server_sync = some t
  | .sendSync c => s.sendSync c = some t

/-- No thread is about to lock a mutex that it holds. -/
def Reentrant (s : LockingServer T U) : Prop := ∀ t m, nextLock s t = some m → ¬ Holds s t m

/-- A thread that holds `server_sync` is in a listener of `onAccepted`. There it may `send` on a
connection, and `disconnect` one whose `onDisconnected` no handler is connected to any more. -/
def Harmless (s : LockingServer T U) : LockingAction T U → Prop
  | .server (.call t op) => s.server.server_sync = some t → ∃ c, op = .connectionDisconnect c
  | .server (.advance t) => ∀ c rest, s.server.server_sync = some t →
      s.server.stack t = .stop c :: rest → s.server.slots c .onDisconnected = false
  | .request t r => s.server.server_sync = some t → ∃ c, r = .send c
  | _ => True

/-! ## The calls inside `handle_accept` -/

/-- The calls that listeners of `onAccepted` may have made. -/
def Frame.lockFree : Frame U → Bool
  | listening _ | stop _ | post _ => true
  | _ => false

/-- The stack of a thread that holds `server_sync`. -/
def Accepting (frames : List (Frame U)) : Prop :=
  ∃ calls rest, frames = calls ++ .finishAccept :: rest ∧ ∀ frame ∈ calls, frame.lockFree = true

theorem not_accepting_nil : ¬ Accepting ([] : List (Frame U)) := by
  rintro ⟨calls, rest, h, -⟩
  cases calls <;> cases h

theorem accepting_cons {frame : Frame U} {rest : List (Frame U)} :
    Accepting (frame :: rest) ↔
      frame = .finishAccept ∨ frame.lockFree = true ∧ Accepting rest := by
  constructor
  · rintro ⟨calls, tail, h, hcalls⟩
    cases calls with
    | nil =>
      cases h
      exact Or.inl rfl
    | cons call calls =>
      cases h
      obtain ⟨hcall, hrest⟩ := List.forall_mem_cons.mp hcalls
      exact Or.inr ⟨hcall, calls, tail, rfl, hrest⟩
  · rintro (rfl | ⟨hframe, calls, tail, rfl, hcalls⟩)
    · exact ⟨[], rest, rfl, by simp⟩
    · exact ⟨frame :: calls, tail, rfl, List.forall_mem_cons.mpr ⟨hframe, hcalls⟩⟩

/-- Listeners are called from within `handle_accept`. -/
theorem Accepting.below {event : Event} {rest : List (Frame U)}
    (h : Accepting (.listening event :: rest)) : Accepting rest := by
  rcases accepting_cons.mp h with heq | ⟨-, hrest⟩
  · cases heq
  · exact hrest

/-- An exception of a listener goes no further than the `catch` of `handle_accept`. -/
theorem Accepting.unwind {frames : List (Frame U)} (h : Accepting frames) :
    Accepting (TcpServer.unwind frames) := by
  obtain ⟨calls, rest, rfl, hcalls⟩ := h
  induction calls with
  | nil => exact ⟨[], rest, rfl, by simp⟩
  | cons call calls ih =>
    obtain ⟨hcall, htail⟩ := List.forall_mem_cons.mp hcalls
    unfold TcpServer.unwind
    rw [List.cons_append, List.dropWhile_cons]
    split
    · exact ih htail
    · exact ⟨call :: calls, rest, rfl, hcalls⟩

theorem Accepting.locks {frame : Frame U} {rest : List (Frame U)} (h : Accepting (frame :: rest)) :
    frame.locks = none := by
  rcases accepting_cons.mp h with rfl | ⟨hfree, -⟩
  · rfl
  · cases frame with
    | listening _ | stop _ | post _ => rfl
    | _ => cases hfree

/-! ## Holding and locking -/

/-- Who holds `server_sync` is inside `handle_accept`, and has nothing to do first that locks it; who
holds a `sendSync` is at the task that releases it. -/
structure Held (s : LockingServer T U) : Prop where
  accepting : ∀ t, s.server.server_sync = some t → Accepting (s.server.stack t)
  tasks : ∀ t, s.server.server_sync = some t → ∀ task ∈ s.tasks t, task.locks ≠ some .server_sync
  sending : ∀ t c, s.sendSync c = some t →
    ∃ rest, s.tasks t = .queueing c :: rest ∨ s.tasks t = .pumping c :: rest

theorem started_held : Held (LockingServer.started : LockingServer T U) where
  accepting := by
    intro t h
    cases h
  tasks := by
    intro t h
    cases h
  sending := by
    intro t c h
    cases h

theorem Held.reentrant {s : LockingServer T U} (h : Held s) : Reentrant s := by
  intro t m hnext hholds
  unfold nextLock at hnext
  cases htasks : s.tasks t with
  | cons task rest =>
    rw [htasks] at hnext
    cases m with
    | server_sync => exact h.tasks t hholds task (by simp [htasks]) hnext
    | sendSync c =>
      obtain ⟨tail, htop⟩ := h.sending t c hholds
      rw [htasks] at htop
      rcases htop with htop | htop
      · cases htop
        cases hnext
      · cases htop
        cases hnext
  | nil =>
    rw [htasks] at hnext
    cases hstack : s.server.stack t with
    | nil =>
      rw [hstack] at hnext
      cases hnext
    | cons frame rest =>
      rw [hstack] at hnext
      cases m with
      | server_sync =>
        have haccepting := h.accepting t hholds
        rw [hstack] at haccepting
        cases haccepting.locks.symm.trans hnext
      | sendSync c =>
        obtain ⟨tail, htop⟩ := h.sending t c hholds
        rw [htasks] at htop
        rcases htop with htop | htop <;> cases htop

section Locks
variable [DecidableEq T] [DecidableEq U] {uuid : Connection → U}

theorem accepting_advance {s s' : TcpServer T U} {t : T} {frame : Frame U} {rest : List (Frame U)}
    (h : s.server_sync = some t → Accepting (frame :: rest))
    (hstop : ∀ c, s.server_sync = some t → frame = .stop c → s.slots c .onDisconnected = false)
    (hs : s.advance uuid t rest frame = some s') (ht : s'.server_sync = some t) :
    Accepting (s'.stack t) := by
  rcases advance_sync hs with hsync | ⟨c, rfl⟩ | rfl
  · rw [hsync] at ht
    rcases accepting_cons.mp (h ht) with rfl | ⟨hfree, hrest⟩
    · cases hs
      cases hsync.trans ht
    · cases frame with
      | stop c =>
        cases hs
        rw [TcpServer.setStack_self, TcpServer.emission, hstop c ht rfl]
        exact accepting_cons.mpr (Or.inr ⟨rfl, hrest⟩)
      | post c =>
        cases hs
        rwa [TcpServer.setStack_self]
      | listening event => cases hs
      | _ => cases hfree
  · obtain ⟨-, rfl⟩ := TcpServer.locked_eq hs
    rw [TcpServer.setStack_self]
    exact ⟨[.listening (.onAccepted c)], rest, rfl, by simp [Frame.lockFree]⟩
  · cases hs
    cases ht

theorem accepting_step {loop u : T} {s s' : TcpServer T U} {a : Action T U}
    (h : s.server_sync = some u → Accepting (s.stack u))
    (hcall : ∀ op, a = .call u op → s.server_sync = some u → ∃ c, op = .connectionDisconnect c)
    (hstop : ∀ c rest, a = .advance u → s.server_sync = some u → s.stack u = .stop c :: rest →
      s.slots c .onDisconnected = false)
    (hs : TcpServer.step uuid loop s a = some s') (hu : s'.server_sync = some u) :
    Accepting (s'.stack u) := by
  have hkept : ∀ {t : T} {frames : List (Frame U)}, s.server_sync = some u →
      (u = t → Accepting frames) → Accepting ((s.setStack t frames).stack u) := by
    intro t frames hheld hself
    by_cases heq : u = t
    · subst heq
      rw [TcpServer.setStack_self]
      exact hself rfl
    · rw [TcpServer.setStack_of_ne s heq]
      exact h hheld
  cases TcpServer.steps_of_step uuid hs with
  | dispatch hrunning hidle hd =>
    rw [dispatch_sync hd] at hu
    have hne : u ≠ loop := by
      rintro rfl
      have haccepting := h hu
      rw [hidle] at haccepting
      exact not_accepting_nil haccepting
    rw [dispatch_other hd hne]
    exact h hu
  | @call t op hidle hloop =>
    refine hkept hu ?_
    rintro rfl
    have haccepting := h hu
    rw [hidle] at haccepting
    exact absurd haccepting not_accepting_nil
  | @callback t event rest op hstack =>
    refine hkept hu ?_
    rintro rfl
    obtain ⟨c, rfl⟩ := hcall op rfl hu
    have haccepting := h hu
    rw [hstack] at haccepting
    exact accepting_cons.mpr (Or.inr ⟨rfl, haccepting⟩)
  | @returns t event rest hstack =>
    refine hkept hu ?_
    rintro rfl
    have haccepting := h hu
    rw [hstack] at haccepting
    exact haccepting.below
  | @caught t event rest hstack hframes =>
    refine hkept hu ?_
    rintro rfl
    have haccepting := h hu
    rw [hstack] at haccepting
    exact haccepting.below.unwind
  | @escapes t event rest hstack hframes =>
    have hheld : s.server_sync = some u := hu
    by_cases heq : u = t
    · subst heq
      have haccepting := h hheld
      rw [hstack] at haccepting
      have hsome := haccepting.below.unwind
      rw [hframes] at hsome
      exact absurd hsome not_accepting_nil
    · rw [TcpServer.setStack_of_ne _ heq]
      exact h hheld
  | @advance t frame rest s' hstack hadvance =>
    by_cases heq : u = t
    · subst heq
      refine accepting_advance (fun hheld => hstack ▸ h hheld) ?_ hadvance hu
      rintro c hheld rfl
      exact hstop c rest rfl hheld hstack
    · rw [advance_other hadvance heq]
      rcases advance_sync hadvance with hsync | ⟨c, rfl⟩ | rfl
      · exact h (hsync ▸ hu)
      · obtain ⟨-, rfl⟩ := TcpServer.locked_eq hadvance
        exact absurd (Option.some.inj hu).symm heq
      · cases hadvance
        cases hu

/-! ## One step -/

/-- `Frame.locks` and `Task.locks` say what the machine does: a call waits just if its step locks a
mutex that some thread holds. -/
theorem advance_waits (s : TcpServer T U) (t : T) (rest : List (Frame U)) {frame : Frame U}
    (hframe : ∀ event, frame ≠ .listening event) :
    s.advance uuid t rest frame = none ↔
      frame.locks = some .server_sync ∧ s.server_sync.isSome = true := by
  cases frame with
  | listening event => exact absurd rfl (hframe event)
  | disconnectByUUID _ | disconnectAll | disconnected _ | erase _ | recheck _ | received _ _
  | register _ =>
    simp [TcpServer.advance, TcpServer.locked, Frame.locks, Option.isSome_iff_ne_none]
  | disconnectEach list | reading _ list => cases list <;> simp [TcpServer.advance, Frame.locks]
  | _ => simp [TcpServer.advance, Frame.locks]

omit [DecidableEq U] in
theorem acquire_waits (s : LockingServer T U) (t : T) (c : Connection) (tasks : List (Task U)) :
    s.acquire t c tasks = none ↔ ∃ u, Holds s u (.sendSync c) := by
  unfold LockingServer.acquire Holds
  cases hsync : s.sendSync c with
  | none => simp [hsync]
  | some u => simp [hsync]

theorem perform_waits (s : LockingServer T U) (t : T) (rest : List (Task U)) (task : Task U) :
    s.perform uuid t rest task = none ↔ ∃ m u, task.locks = some m ∧ Holds s u m := by
  have hsync : ∀ result : LockingServer T U, s.underServerSync result = none ↔
      ∃ u, Holds s u .server_sync := by
    intro result
    unfold LockingServer.underServerSync Holds
    cases hheld : s.server.server_sync with
    | none => simp
    | some u => simp
  cases task with
  | getConnections | getConnectionByUUID _ | sendByUUID _ | sendAll =>
    simp only [LockingServer.perform, hsync, Task.locks, Option.some.injEq]
    simp
  | send c | asyncWrite c =>
    simp only [LockingServer.perform, acquire_waits, Task.locks, Option.some.injEq]
    simp
  | sendEach list => cases list <;> simp [LockingServer.perform, Task.locks]
  | queueing c | pumping c => simp [LockingServer.perform, LockingServer.release, Task.locks]


omit [DecidableEq U] in
theorem Held.retask {s : LockingServer T U} (h : Held s) {t : T} {task : Task U}
    {rest : List (Task U)} (new : List (Task U)) (htasks : s.tasks t = task :: rest)
    {sync : Connection → Option T}
    (hnew : s.server.server_sync = some t → ∀ x ∈ new, x.locks ≠ some .server_sync)
    (hothers : ∀ u c, u ≠ t → sync c = some u → s.sendSync c = some u)
    (hself : ∀ c, sync c = some t →
      ∃ tail, new ++ rest = .queueing c :: tail ∨ new ++ rest = .pumping c :: tail) :
    Held ({ s with sendSync := sync }.setTasks t (new ++ rest)) where
  accepting := h.accepting
  tasks := by
    intro u hu x hx
    by_cases heq : u = t
    · subst heq
      simp only [LockingServer.setTasks, Function.update_self] at hx
      rcases List.mem_append.mp hx with hx | hx
      · exact hnew hu x hx
      · exact h.tasks u hu x (by rw [htasks]; exact List.mem_cons_of_mem _ hx)
    · simp only [LockingServer.setTasks, Function.update_of_ne heq] at hx
      exact h.tasks u hu x hx
  sending := by
    intro u c hc
    by_cases heq : u = t
    · subst heq
      simp only [LockingServer.setTasks, Function.update_self]
      exact hself c hc
    · simp only [LockingServer.setTasks, Function.update_of_ne heq]
      exact h.sending u c (hothers u c heq hc)

omit [DecidableEq T] [DecidableEq U] in
/-- A thread at a task outside the guards holds no `sendSync`. -/
theorem Held.free {s : LockingServer T U} (h : Held s) {t : T} {task : Task U} {rest : List (Task U)}
    (htasks : s.tasks t = task :: rest)
    (htask : ∀ c, task ≠ .queueing c ∧ task ≠ .pumping c) (c : Connection) :
    s.sendSync c ≠ some t := by
  intro hc
  obtain ⟨tail, htop⟩ := h.sending t c hc
  rw [htasks] at htop
  rcases htop with htop | htop
  · cases htop
    exact (htask c).1 rfl
  · cases htop
    exact (htask c).2 rfl

omit [DecidableEq U] in
theorem Held.moves {s : LockingServer T U} (h : Held s) {t : T} {task : Task U}
    {rest : List (Task U)} (new : List (Task U)) (htasks : s.tasks t = task :: rest)
    (htask : ∀ c, task ≠ .queueing c ∧ task ≠ .pumping c)
    (hnew : s.server.server_sync = some t → ∀ x ∈ new, x.locks ≠ some .server_sync) :
    Held (s.setTasks t (new ++ rest)) :=
  h.retask new htasks hnew (fun _ _ _ hc => hc) fun c hc => absurd hc (h.free htasks htask c)

omit [DecidableEq U] in
theorem Held.acquires {s s' : LockingServer T U} (h : Held s) {t : T} {c : Connection}
    {task next : Task U} {rest : List (Task U)} (htasks : s.tasks t = task :: rest)
    (htask : ∀ c, task ≠ .queueing c ∧ task ≠ .pumping c)
    (hnext : next = .queueing c ∨ next = .pumping c)
    (hs : s.acquire t c (next :: rest) = some s') : Held s' := by
  obtain ⟨-, rfl⟩ := LockingServer.acquire_eq hs
  have hlocks : next.locks = none := by
    rcases hnext with rfl | rfl <;> rfl
  refine h.retask [next] htasks ?_ ?_ ?_
  · intro _ x hx
    rw [List.mem_singleton.mp hx, hlocks]
    simp
  · intro u d hu hd
    by_cases heq : d = c
    · subst heq
      rw [Function.update_self] at hd
      exact absurd (Option.some.inj hd).symm hu
    · rwa [Function.update_of_ne heq] at hd
  · intro d hd
    by_cases heq : d = c
    · subst heq
      rcases hnext with rfl | rfl
      · exact ⟨rest, Or.inl rfl⟩
      · exact ⟨rest, Or.inr rfl⟩
    · rw [Function.update_of_ne heq] at hd
      exact absurd hd (h.free htasks htask d)

omit [DecidableEq U] in
theorem Held.releases {s s' : LockingServer T U} (h : Held s) {t : T} {c : Connection}
    {task : Task U} {rest : List (Task U)} (new : List (Task U)) (htasks : s.tasks t = task :: rest)
    (htask : task = .queueing c ∨ task = .pumping c)
    (hnew : ∀ x ∈ new, x.locks ≠ some .server_sync)
    (hs : s.release t c (new ++ rest) = some s') : Held s' := by
  cases hs
  have hold : ∀ u d, Function.update s.sendSync c none d = some u → d ≠ c ∧ s.sendSync d = some u := by
    intro u d hd
    by_cases heq : d = c
    · subst heq
      rw [Function.update_self] at hd
      cases hd
    · rw [Function.update_of_ne heq] at hd
      exact ⟨heq, hd⟩
  refine h.retask new htasks (fun _ => hnew) (fun u d _ hd => (hold u d hd).2) ?_
  intro d hd
  obtain ⟨hne, hd⟩ := hold t d hd
  obtain ⟨tail, htop⟩ := h.sending t d hd
  rw [htasks] at htop
  rcases htask with rfl | rfl
  · rcases htop with htop | htop
    · cases htop
      exact absurd rfl hne
    · cases htop
  · rcases htop with htop | htop
    · cases htop
    · cases htop
      exact absurd rfl hne

theorem Held.perform {s s' : LockingServer T U} (h : Held s) {t : T} {task : Task U}
    {rest : List (Task U)} (htasks : s.tasks t = task :: rest)
    (hs : s.perform uuid t rest task = some s') : Held s' := by
  cases task with
  | getConnections | getConnectionByUUID u =>
    obtain ⟨-, rfl⟩ := LockingServer.underServerSync_eq hs
    exact h.moves [] htasks (by simp) (by simp)
  | sendByUUID u =>
    obtain ⟨-, rfl⟩ := LockingServer.underServerSync_eq hs
    split
    · exact h.moves [.send _] htasks (by simp) (by simp [Task.locks])
    · exact h.moves [] htasks (by simp) (by simp)
  | sendAll =>
    obtain ⟨-, rfl⟩ := LockingServer.underServerSync_eq hs
    exact h.moves [.sendEach _] htasks (by simp) (by simp [Task.locks])
  | sendEach connections =>
    cases connections with
    | nil =>
      cases hs
      exact h.moves [] htasks (by simp) (by simp)
    | cons c cs =>
      cases hs
      exact h.moves [.send c, .sendEach cs] htasks (by simp) (by simp [Task.locks])
  | send c => exact h.acquires htasks (by simp) (Or.inl rfl) hs
  | asyncWrite c => exact h.acquires htasks (by simp) (Or.inr rfl) hs
  | queueing c =>
    exact h.releases [.asyncWrite c] htasks (Or.inl rfl) (by simp [Task.locks]) hs
  | pumping c => exact h.releases [] htasks (Or.inr rfl) (by simp) hs

omit [DecidableEq U] in
theorem Held.begins {s : LockingServer T U} (h : Held s) {t : T} (htasks : s.tasks t = [])
    {server : TcpServer T U} {new : List (Task U)}
    (haccepting : ∀ u, server.server_sync = some u → Accepting (server.stack u))
    (hsync : ∀ u, server.server_sync = some u → u = t ∨ s.server.server_sync = some u)
    (hnew : server.server_sync = some t → ∀ x ∈ new, x.locks ≠ some .server_sync) :
    Held ({ s with server := server }.setTasks t new) where
  accepting := haccepting
  tasks := by
    intro u hu x hx
    by_cases heq : u = t
    · subst heq
      simp only [LockingServer.setTasks, Function.update_self] at hx
      exact hnew hu x hx
    · simp only [LockingServer.setTasks, Function.update_of_ne heq] at hx
      rcases hsync u hu with rfl | hold
      · exact absurd rfl heq
      · exact h.tasks u hold x hx
  sending := by
    intro u c hc
    obtain ⟨tail, htop⟩ := h.sending u c hc
    have hne : u ≠ t := by
      rintro rfl
      rw [htasks] at htop
      rcases htop with htop | htop <;> cases htop
    simp only [LockingServer.setTasks, Function.update_of_ne hne]
    exact ⟨tail, htop⟩

theorem step_sync {loop u : T} {s s' : TcpServer T U} {a : Action T U}
    (hs : TcpServer.step uuid loop s a = some s') (hu : s'.server_sync = some u) :
    u = a.thread loop ∨ s.server_sync = some u := by
  cases TcpServer.steps_of_step uuid hs with
  | dispatch _ _ hd => exact Or.inr (dispatch_sync hd ▸ hu)
  | call _ _ _ | callback _ _ | returns _ | caught _ _ | escapes _ _ => exact Or.inr hu
  | advance hstack hadvance =>
    rcases advance_sync hadvance with hsync | ⟨c, rfl⟩ | rfl
    · exact Or.inr (hsync ▸ hu)
    · obtain ⟨-, rfl⟩ := TcpServer.locked_eq hadvance
      exact Or.inl (Option.some.inj hu).symm
    · cases hadvance
      cases hu

omit [DecidableEq T] [DecidableEq U] in
theorem followUp_locks (s : LockingServer T U) (a : Action T U) :
    ∀ x ∈ s.followUp a, x.locks ≠ some .server_sync := by
  intro x hx
  unfold LockingServer.followUp at hx
  split at hx
  · split at hx
    · rw [List.mem_singleton.mp hx]
      simp [Task.locks]
    · cases hx
  · cases hx

theorem Held.step {loop : T} {s s' : LockingServer T U} {a : LockingAction T U} (h : Held s)
    (hharmless : Harmless s a) (hs : LockingServer.step uuid loop s a = some s') : Held s' := by
  cases a with
  | server a =>
    simp only [LockingServer.step] at hs
    split at hs
    · rename_i htasks
      cases hserver : TcpServer.step uuid loop s.server a with
      | none =>
        rw [hserver] at hs
        cases hs
      | some server =>
        rw [hserver] at hs
        cases hs
        refine h.begins htasks ?_ (fun u hu => step_sync hserver hu)
          fun _ => followUp_locks s a
        intro u hu
        refine accepting_step (h.accepting u) ?_ ?_ hserver hu
        · rintro op rfl hheld
          exact hharmless hheld
        · rintro c rest rfl hheld hstack
          exact hharmless c rest hheld hstack
    · cases hs
  | request t r =>
    simp only [LockingServer.step] at hs
    split at hs
    · rename_i hcalls
      cases hs
      refine h.begins hcalls.1 h.accepting (fun u hu => Or.inr hu) ?_
      intro hheld x hx
      obtain ⟨c, rfl⟩ := hharmless hheld
      rw [List.mem_singleton.mp hx]
      simp [Request.entry, Task.locks]
    · cases hs
  | written c =>
    simp only [LockingServer.step] at hs
    split at hs
    · rename_i hidle
      cases hs
      refine h.begins hidle.1 h.accepting (fun u hu => Or.inr hu) ?_
      intro _ x hx
      rw [List.mem_singleton.mp hx]
      simp [Task.locks]
    · cases hs
  | task t =>
    simp only [LockingServer.step] at hs
    cases htasks : s.tasks t with
    | nil =>
      rw [htasks] at hs
      cases hs
    | cons task rest =>
      rw [htasks] at hs
      exact h.perform htasks hs

/-! ## Whole runs -/

omit [DecidableEq T] [DecidableEq U] in
theorem entry_locks {op : Operation U} (h : ∀ c, op ≠ .connectionDisconnect c) :
    (TcpServer.entry uuid op).locks = some .server_sync := by
  cases op with
  | connectionDisconnect c => exact absurd rfl (h c)
  | disconnectByUUID _ | disconnect _ | disconnectAll => rfl

omit [DecidableEq T] [DecidableEq U] in
theorem request_locks {r : Request U} (h : ∀ c, r ≠ .send c) : r.entry.locks = some .server_sync := by
  cases r with
  | send c => exact absurd rfl (h c)
  | getConnections | getConnectionByUUID _ | sendByUUID _ | sendAll => rfl

omit [DecidableEq U] in
theorem nextLock_frame (s : LockingServer T U) (server : TcpServer T U) {t : T} {frame : Frame U}
    {rest : List (Frame U)} (hstack : server.stack t = frame :: rest) :
    nextLock ({ s with server := server }.setTasks t []) t = frame.locks := by
  simp [nextLock, LockingServer.setTasks, hstack]

/-- A step that is not harmless leaves a thread that is about to wait for itself. -/
theorem not_reentrant {loop : T} {s s' : LockingServer T U} {a : LockingAction T U}
    (hharm : ¬ Harmless s a) (hs : LockingServer.step uuid loop s a = some s') : ¬ Reentrant s' := by
  intro hreentrant
  cases a with
  | server a =>
    simp only [LockingServer.step] at hs
    split at hs
    · cases hserver : TcpServer.step uuid loop s.server a with
      | none =>
        rw [hserver] at hs
        cases hs
      | some server =>
        rw [hserver] at hs
        cases hs
        cases TcpServer.steps_of_step uuid hserver with
        | @call t op hidle hloop =>
          obtain ⟨hheld, hop⟩ := Classical.not_imp.mp hharm
          refine hreentrant t .server_sync ?_ hheld
          exact (nextLock_frame s _ (TcpServer.setStack_self ..)).trans
            (entry_locks fun c hc => hop ⟨c, hc⟩)
        | @callback t event rest op hstack =>
          obtain ⟨hheld, hop⟩ := Classical.not_imp.mp hharm
          refine hreentrant t .server_sync ?_ hheld
          exact (nextLock_frame s _ (TcpServer.setStack_self ..)).trans
            (entry_locks fun c hc => hop ⟨c, hc⟩)
        | @advance t frame rest server hstack hadvance =>
          have hstop : ∃ c, s.server.server_sync = some t ∧ frame = .stop c ∧
              s.server.slots c .onDisconnected = true := by
            by_contra hnone
            apply hharm
            intro c rest' hheld hstack'
            rw [hstack] at hstack'
            cases hstack'
            by_contra hslot
            exact hnone ⟨c, hheld, rfl, by simpa using hslot⟩
          obtain ⟨c, hheld, rfl, hslot⟩ := hstop
          have hnext : s.followUp (.advance t) = [] := by
            simp only [LockingServer.followUp, hstack]
          cases hadvance
          rw [hnext] at hreentrant
          refine hreentrant t .server_sync ?_ hheld
          have htop : (s.server.setStack t (s.server.emission c .onDisconnected
              (handleTcpConnectionDisconnected c) ++ .post c :: rest)).stack t =
              .disconnected c :: .post c :: rest := by
            rw [TcpServer.setStack_self, TcpServer.emission, hslot]
            rfl
          exact nextLock_frame s _ htop
        | dispatch _ _ _ | returns _ | caught _ _ | escapes _ _ => exact hharm trivial
    · cases hs
  | request t r =>
    simp only [LockingServer.step] at hs
    split at hs
    · cases hs
      obtain ⟨hheld, hr⟩ := Classical.not_imp.mp hharm
      refine hreentrant t .server_sync ?_ hheld
      simp only [nextLock, LockingServer.setTasks, Function.update_self]
      exact request_locks fun c hc => hr ⟨c, hc⟩
    · cases hs
  | written c => exact hharm trivial
  | task t => exact hharm trivial

variable (uuid)

/-- **Listeners that call back.** In a run no thread ever goes to lock a mutex it holds, just if every
call made while the caller holds `server_sync` is one that does not lock it. -/
theorem reentrant_iff (loop : T) (as : List (LockingAction T U)) :
    Along (LockingServer.step uuid loop) Reentrant LockingServer.started as ↔
      Meets (LockingServer.step uuid loop) Harmless LockingServer.started as := by
  constructor
  · exact meets_of_along (fun _ _ _ hI hC hs => hI.step hC hs)
      (fun _ _ _ _ hC hs => not_reentrant hC hs) started_held
  · intro hmeets
    exact (along_of_meets (fun _ _ _ hI hC hs => hI.step hC hs) started_held hmeets).mono
      fun _ hI => hI.reentrant

end Locks

/-- A connection is accepted, and the listener of `onAccepted` calls `getConnections`. -/
def listsWhenAccepted : List (LockingAction Unit ℕ) :=
  [.server (.dispatch (.accept none)), .server (.advance ()), .request () .getConnections]

theorem listener_waits_for_itself : ¬ ∀ (as : List (LockingAction Unit ℕ)),
    Along (LockingServer.step id ()) Reentrant LockingServer.started as := by
  intro h
  have hrun : ((run (LockingServer.step id ()) LockingServer.started listsWhenAccepted).map fun s =>
      (nextLock s (), s.server.server_sync)) = some (some .server_sync, some ()) := by decide +kernel
  obtain ⟨s, hs, hfields⟩ := Option.map_eq_some_iff.mp hrun
  simp only [Prod.mk.injEq] at hfields
  exact (h listsWhenAccepted).last hs () .server_sync hfields.1 hfields.2

end Diginext.Server
