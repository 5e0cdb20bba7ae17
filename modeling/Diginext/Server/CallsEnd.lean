import Diginext.Server.Concurrency
import Diginext.Server.Reentry
import Mathlib.Algebra.BigOperators.Group.Finset.Basic
import Mathlib.Algebra.Order.BigOperators.Group.Finset
import Mathlib.Data.Prod.Lex
import Mathlib.Order.WellFounded

/-! # Calls come to an end

Whatever the threads do in between, the loops of `disconnectAll`, `sendAll` and `handle_read` go over
lists they have copied, and `removeConnectionByUUID` calls itself only when a connection is left to
erase. With no new calls and completions, and listeners that return, all threads together can take only
finitely many steps: a step finishes an accept, or it erases a connection, or there is less left to do
for the thread that took it (`calls_end`).
-/
namespace Diginext.Server
open Cpp Transition
set_option autoImplicit false

variable {T U : Type}

/-- A call goes on, or a listener returns. -/
def LockingAction.internal : LockingAction T U → Bool
  | server (.advance _) | server (.returns _) | task _ => true
  | _ => false

def LockingAction.thread (loop : T) : LockingAction T U → T
  | server a => a.thread loop
  | request t _ | task t => t
  | written _ => loop

def Finished (s : LockingServer T U) (t : T) : Prop := s.server.stack t = [] ∧ s.tasks t = []

/-! ## What a step can do -/

section Steps
variable [DecidableEq T] [DecidableEq U] (uuid : Connection → U) (loop : T)

/-- The cases of `LockingServer.step`. -/
inductive LockingSteps (s : LockingServer T U) : LockingAction T U → LockingServer T U → Prop where
  | server {a : Action T U} {server : TcpServer T U} (htasks : s.tasks (a.thread loop) = [])
      (h : TcpServer.step uuid loop s.server a = some server) :
    LockingSteps s (.server a) ({ s with server := server }.setTasks (a.thread loop) (s.followUp a))
  | request {t : T} (r : Request U) (htasks : s.tasks t = []) (huser : s.inUserCode loop t = true) :
    LockingSteps s (.request t r) (s.setTasks t [r.entry])
  | written (c : Connection) (htasks : s.tasks loop = []) (hidle : s.server.stack loop = []) :
    LockingSteps s (.written c) (s.setTasks loop [.asyncWrite c])
  | task {t : T} {task : Task U} {rest : List (Task U)} {s' : LockingServer T U}
      (hold : s.tasks t = task :: rest) (h : s.perform uuid t rest task = some s') :
    LockingSteps s (.task t) s'

variable {uuid loop}

theorem lockingSteps_of_step {s s' : LockingServer T U} {a : LockingAction T U}
    (hs : LockingServer.step uuid loop s a = some s') : LockingSteps uuid loop s a s' := by
  cases a with
  | server a =>
    simp only [LockingServer.step] at hs
    split at hs
    · rename_i htasks
      cases hserver : TcpServer.step uuid loop s.server a with
      | none =>
        rw [hserver] at hs
        cases hs
      | some server =>
        rw [hserver] at hs
        cases hs
        exact .server htasks hserver
    · cases hs
  | request t r =>
    simp only [LockingServer.step] at hs
    split at hs
    · rename_i hcalls
      cases hs
      exact .request r hcalls.1 hcalls.2
    · cases hs
  | written c =>
    simp only [LockingServer.step] at hs
    split at hs
    · rename_i hcalls
      cases hs
      exact .written c hcalls.1 hcalls.2.1
    · cases hs
  | task t =>
    simp only [LockingServer.step] at hs
    cases htasks : s.tasks t with
    | nil =>
      rw [htasks] at hs
      cases hs
    | cons task rest =>
      rw [htasks] at hs
      exact .task htasks hs

end Steps

/-! ## What is left to do -/

section Work
variable [DecidableEq U] (uuid : Connection → U) (connections : List Connection)

def listed (u : U) : Bool := connections.any fun c => uuid c = u

/-- A bound for the steps of a call and of those it makes, up to the next that finishes an accept or
erases a connection. -/
def Frame.work : Frame U → ℕ
  | listening _ | post _ | finishAccept => 1
  | emit _ => 2
  | recheck p => if listed uuid connections (uuid p) then 1 else 3
  | erase p => if listed uuid connections (uuid p) then 0 else 4
  | dropSlots _ _ => 5
  | disconnected _ => 6
  | stop _ => 8
  | disconnectByUUID _ => 9
  | disconnectEach cs => 10 * cs.length + 1
  | disconnectAll => 10 * connections.length + 2
  | received _ _ | writing _ => 3
  | reading _ messages => 4 * messages.length + 1
  | register _ => 0

end Work

def Task.work (connections : List Connection) : Task U → ℕ
  | pumping _ | getConnections | getConnectionByUUID _ => 1
  | asyncWrite _ => 2
  | queueing _ => 3
  | send _ => 4
  | sendByUUID _ => 5
  | sendEach cs => 5 * cs.length + 1
  | sendAll => 5 * connections.length + 2

def framesWork [DecidableEq U] (uuid : Connection → U) (connections : List Connection) :
    List (Frame U) → ℕ
  | [] => 0
  | frame :: frames => frame.work uuid connections + framesWork uuid connections frames

def tasksWork (connections : List Connection) : List (Task U) → ℕ
  | [] => 0
  | task :: tasks => task.work connections + tasksWork connections tasks

section Sums
variable [DecidableEq U] (uuid : Connection → U) (connections : List Connection)

@[simp] theorem framesWork_nil : framesWork uuid connections ([] : List (Frame U)) = 0 := rfl

@[simp] theorem framesWork_cons (frame : Frame U) (frames : List (Frame U)) :
    framesWork uuid connections (frame :: frames) =
      frame.work uuid connections + framesWork uuid connections frames := rfl

@[simp] theorem framesWork_append (frames frames' : List (Frame U)) :
    framesWork uuid connections (frames ++ frames') =
      framesWork uuid connections frames + framesWork uuid connections frames' := by
  induction frames with
  | nil => simp
  | cons frame frames ih => simp [ih, Nat.add_assoc]

omit [DecidableEq U] in
@[simp] theorem tasksWork_nil : tasksWork connections ([] : List (Task U)) = 0 := rfl

omit [DecidableEq U] in
@[simp] theorem tasksWork_cons (task : Task U) (tasks : List (Task U)) :
    tasksWork connections (task :: tasks) =
      task.work connections + tasksWork connections tasks := rfl

omit [DecidableEq U] in
@[simp] theorem tasksWork_append (tasks tasks' : List (Task U)) :
    tasksWork connections (tasks ++ tasks') =
      tasksWork connections tasks + tasksWork connections tasks' := by
  induction tasks with
  | nil => simp
  | cons task tasks ih => simp [ih, Nat.add_assoc]

end Sums

/-! ## One step of a call -/

section Calls
variable [DecidableEq T] [DecidableEq U] {uuid : Connection → U}

/-- The task that follows a call when it ends. -/
def Frame.followUp : Frame U → List (Task U)
  | writing c => [.asyncWrite c]
  | _ => []

omit [DecidableEq T] [DecidableEq U] in
theorem followUp_top {s : LockingServer T U} {t : T} {frame : Frame U} {rest : List (Frame U)}
    (hold : s.server.stack t = frame :: rest) : s.followUp (.advance t) = frame.followUp := by
  cases frame <;> simp only [LockingServer.followUp, hold, Frame.followUp]

omit [DecidableEq T] in
theorem listed_of_some {s : TcpServer T U} {u : U} {c : Connection}
    (h : s.getConnectionByUUID uuid u = some c) : listed uuid s.connections u = true := by
  obtain ⟨hmem, heq⟩ := TcpServer.getConnectionByUUID_some h
  exact List.any_eq_true.mpr ⟨c, hmem, by simpa using heq⟩

omit [DecidableEq T] in
theorem listed_of_none {s : TcpServer T U} {u : U} (h : s.getConnectionByUUID uuid u = none) :
    listed uuid s.connections u = false := by
  have hnone := List.find?_eq_none.mp h
  exact List.any_eq_false.mpr hnone

omit [DecidableEq T] in
/-- What a call goes on to is less work than the call. -/
theorem follows_less {s : TcpServer T U} {frame : Frame U} {new : List (Frame U)}
    (hf : TcpServer.Follows uuid s frame new) :
    registering new = [] ∧ registering [frame] = [] ∧
      framesWork uuid s.connections new + tasksWork s.connections frame.followUp <
        frame.work uuid s.connections := by
  cases hf with
  | found _ | notFound _ | copied | noneLeft | written _ | passed _ | ignored _ =>
    refine ⟨rfl, rfl, ?_⟩
    simp [Frame.work, Frame.followUp, Task.work]
  | each c cs =>
    refine ⟨rfl, rfl, ?_⟩
    simp only [framesWork_cons, framesWork_nil, Frame.work, Frame.followUp, tasksWork_nil,
      List.length_cons]
    omega
  | stop c =>
    unfold TcpServer.emission
    split
    · exact ⟨rfl, rfl, by simp [Frame.work, Frame.followUp, handleTcpConnectionDisconnected]⟩
    · exact ⟨rfl, rfl, by simp [Frame.work, Frame.followUp]⟩
  | message c msg messages =>
    unfold TcpServer.emission
    split
    · refine ⟨rfl, rfl, ?_⟩
      simp only [framesWork_append, framesWork_cons, framesWork_nil, Frame.work, Frame.followUp,
        tasksWork_nil, List.length_cons, handleTcpConnectionReadMessage]
      omega
    · refine ⟨rfl, rfl, ?_⟩
      simp only [framesWork_append, framesWork_cons, framesWork_nil, Frame.work, Frame.followUp,
        tasksWork_nil, List.length_cons]
      omega

/-! ## One step of a thread -/

/-- The work left to a thread. -/
def LockingServer.load (uuid : Connection → U) (s : LockingServer T U) (t : T) : ℕ :=
  framesWork uuid s.server.connections (s.server.stack t) + tasksWork s.server.connections (s.tasks t)

/-- The thread finishes an accept, or erases a connection, or has less left to do. -/
inductive Nearer (uuid : Connection → U) (s s' : LockingServer T U) (t : T) : Prop where
  | accepts (h : (registering (s'.server.stack t)).length < (registering (s.server.stack t)).length)
  | erases (hr : registering (s'.server.stack t) = registering (s.server.stack t))
      (h : s'.server.connections.length < s.server.connections.length)
  | goes (hr : registering (s'.server.stack t) = registering (s.server.stack t))
      (hc : s'.server.connections = s.server.connections) (h : s'.load uuid t < s.load uuid t)

/-- A call is followed by less work, in the same registry. -/
theorem Nearer.follows {s : LockingServer T U} {t : T} {frame : Frame U} {rest : List (Frame U)}
    (hold : s.server.stack t = frame :: rest) (htasks : s.tasks t = []) (new : List (Frame U))
    {server : TcpServer T U} (hstack : server.stack = Function.update s.server.stack t (new ++ rest))
    (hc : server.connections = s.server.connections) (hnew : registering new = registering [frame])
    (hless : framesWork uuid s.server.connections new +
      tasksWork s.server.connections frame.followUp < frame.work uuid s.server.connections) :
    Nearer uuid s ({ s with server := server }.setTasks t (s.followUp (.advance t))) t := by
  have hself : server.stack t = new ++ rest := by rw [hstack, Function.update_self]
  refine .goes ?_ hc ?_
  · show registering (server.stack t) = registering (s.server.stack t)
    rw [hself, hold, registering_append, hnew, ← registering_append]
    rfl
  · show framesWork uuid server.connections (server.stack t) + tasksWork server.connections
        (Function.update s.tasks t (s.followUp (.advance t)) t) < _
    rw [Function.update_self, followUp_top hold, hself, hc, LockingServer.load, hold, htasks]
    simp only [framesWork_append, framesWork_cons, tasksWork_nil]
    omega

theorem Nearer.advance {s : LockingServer T U} {t : T} {frame : Frame U} {rest : List (Frame U)}
    (hold : s.server.stack t = frame :: rest) (htasks : s.tasks t = []) {server : TcpServer T U}
    (hs : s.server.advance uuid t rest frame = some server) :
    Nearer uuid s ({ s with server := server }.setTasks t (s.followUp (.advance t))) t := by
  cases TcpServer.advances_of_advance uuid hs with
  | @follows frame new hf =>
    obtain ⟨hnew, hframe, hless⟩ := follows_less hf
    exact .follows hold htasks new rfl rfl (by rw [hnew, hframe]) hless
  | post c | read c | notFound _ | finishAccept =>
    exact .follows hold htasks [] rfl rfl rfl (by simp [Frame.work, Frame.followUp])
  | @found c p hfound =>
    exact .follows hold htasks [.dropSlots c p] rfl rfl rfl (by simp [Frame.work, Frame.followUp])
  | dropSlots c p =>
    refine .follows hold htasks [.erase p] rfl rfl rfl ?_
    simp only [framesWork_cons, framesWork_nil, Frame.work, Frame.followUp, tasksWork_nil]
    split <;> omega
  | erase p =>
    cases hlisted : listed uuid s.server.connections (uuid p) with
    | true =>
      refine .erases ?_ ?_
      · show registering ((s.server.removeFirst uuid (uuid p)).setStack t (.recheck p :: rest)
          |>.stack t) = _
        rw [TcpServer.setStack_self, hold]
        rfl
      · obtain ⟨c, hmem, heq⟩ := List.any_eq_true.mp hlisted
        show (s.server.connections.eraseP fun c => uuid c = uuid p).length < _
        rw [List.length_eraseP_of_mem hmem (by simpa using heq)]
        have hpos := List.length_pos_of_mem hmem
        omega
    | false =>
      have hsame : (s.server.connections.eraseP fun c => uuid c = uuid p) = s.server.connections :=
        List.eraseP_of_forall_not fun c hc => by simpa using List.any_eq_false.mp hlisted c hc
      refine .follows hold htasks [.recheck p] rfl hsame rfl ?_
      simp [Frame.work, Frame.followUp, hlisted]
  | @again p q hfound =>
    refine .follows hold htasks [.erase p] rfl rfl rfl ?_
    simp [Frame.work, Frame.followUp, listed_of_some hfound]
  | @removed p hnone =>
    refine .follows hold htasks [.emit (.onDisconnected p)] rfl rfl rfl ?_
    simp [Frame.work, Frame.followUp, listed_of_none hnone]
  | emit event =>
    exact .follows hold htasks [.listening event] rfl rfl rfl (by simp [Frame.work, Frame.followUp])
  | register c hsync =>
    refine .accepts ?_
    show (registering (((s.server.handleAccept t c).setStack t
      (.listening (.onAccepted c) :: .finishAccept :: rest)).stack t)).length < _
    rw [TcpServer.setStack_self, hold]
    exact Nat.lt_succ_self _

theorem Nearer.returns {s : LockingServer T U} {t : T} {event : Event}
    {rest : List (Frame U)} (hold : s.server.stack t = .listening event :: rest)
    (htasks : s.tasks t = []) :
    Nearer uuid s ({ s with server := s.server.setStack t rest }.setTasks t []) t := by
  refine .goes ?_ rfl ?_
  · show registering ((s.server.setStack t rest).stack t) = registering (s.server.stack t)
    rw [TcpServer.setStack_self, hold]
    rfl
  · show framesWork uuid s.server.connections ((s.server.setStack t rest).stack t) +
        tasksWork s.server.connections (Function.update s.tasks t [] t) < _
    rw [TcpServer.setStack_self, Function.update_self, LockingServer.load, hold, htasks]
    simp only [framesWork_cons, tasksWork_nil, Frame.work]
    omega

theorem Nearer.task {s s' : LockingServer T U} {t : T} {task : Task U} {rest : List (Task U)}
    (htasks : s.tasks t = task :: rest) (hs : s.perform uuid t rest task = some s') :
    s'.server = s.server ∧ (∀ u, u ≠ t → s'.tasks u = s.tasks u) ∧ Nearer uuid s s' t := by
  have hgoes : ∀ {s' : LockingServer T U} (new : List (Task U)), s'.server = s.server →
      s'.tasks = Function.update s.tasks t (new ++ rest) →
      tasksWork s.server.connections new < task.work s.server.connections →
        s'.server = s.server ∧ (∀ u, u ≠ t → s'.tasks u = s.tasks u) ∧ Nearer uuid s s' t := by
    intro s' new hserver hstasks hless
    refine ⟨hserver, ?_, ?_⟩
    · intro u hu
      rw [hstasks, Function.update_of_ne hu]
    · refine .goes (by rw [hserver]) (by rw [hserver]) ?_
      rw [LockingServer.load, LockingServer.load, hserver, hstasks, Function.update_self, htasks]
      simp only [tasksWork_append, tasksWork_cons]
      omega
  cases task with
  | getConnections | getConnectionByUUID u =>
    obtain ⟨-, rfl⟩ := LockingServer.underServerSync_eq hs
    exact hgoes [] rfl rfl (by simp [Task.work])
  | sendByUUID u =>
    obtain ⟨-, rfl⟩ := LockingServer.underServerSync_eq hs
    split
    · exact hgoes [.send _] rfl rfl (by simp [Task.work])
    · exact hgoes [] rfl rfl (by simp [Task.work])
  | sendAll =>
    obtain ⟨-, rfl⟩ := LockingServer.underServerSync_eq hs
    exact hgoes [.sendEach _] rfl rfl (by simp [Task.work])
  | sendEach connections =>
    cases connections with
    | nil =>
      cases hs
      exact hgoes [] rfl rfl (by simp [Task.work])
    | cons c cs =>
      cases hs
      refine hgoes [.send c, .sendEach cs] rfl rfl ?_
      simp only [tasksWork_cons, tasksWork_nil, Task.work, List.length_cons]
      omega
  | send c =>
    obtain ⟨-, rfl⟩ := LockingServer.acquire_eq hs
    exact hgoes [.queueing c] rfl rfl (by simp [Task.work])
  | asyncWrite c =>
    obtain ⟨-, rfl⟩ := LockingServer.acquire_eq hs
    exact hgoes [.pumping c] rfl rfl (by simp [Task.work])
  | queueing c =>
    cases hs
    exact hgoes [.asyncWrite c] rfl rfl (by simp [Task.work])
  | pumping c =>
    cases hs
    exact hgoes [] rfl rfl (by simp [Task.work])

/-- What goes on by itself, goes on in one thread and brings it nearer to its end. -/
theorem internal_step {loop : T} {s s' : LockingServer T U} {a : LockingAction T U}
    (ha : a.internal = true) (hs : LockingServer.step uuid loop s a = some s') :
    ¬ Finished s (a.thread loop) ∧
      (∀ u, u ≠ a.thread loop → s'.server.stack u = s.server.stack u ∧ s'.tasks u = s.tasks u) ∧
        Nearer uuid s s' (a.thread loop) := by
  cases lockingSteps_of_step hs with
  | request r _ _ | written c _ _ => cases ha
  | task hold h =>
    obtain ⟨hserver, hothers, hnearer⟩ := Nearer.task hold h
    refine ⟨fun hidle => ?_, fun u hu => ⟨by rw [hserver], hothers u hu⟩, hnearer⟩
    cases hold.symm.trans hidle.2
  | @server a server htasks h =>
    have hothers : ∀ u, u ≠ a.thread loop → server.stack u = s.server.stack u ∧
        Function.update s.tasks (a.thread loop) (s.followUp a) u = s.tasks u := fun u hu =>
      ⟨step_other h hu, Function.update_of_ne hu _ _⟩
    cases TcpServer.steps_of_step uuid h with
    | dispatch _ _ _ | call _ _ _ | callback _ _ | caught _ _ | escapes _ _ => cases ha
    | returns hold =>
      refine ⟨fun hidle => ?_, hothers, .returns hold htasks⟩
      cases hold.symm.trans hidle.1
    | advance hold hadvance =>
      refine ⟨fun hidle => ?_, hothers, .advance hold htasks hadvance⟩
      cases hold.symm.trans hidle.1

/-! ## All threads -/

theorem locking_step_other {loop u : T} {s s' : LockingServer T U} {a : LockingAction T U}
    (hs : LockingServer.step uuid loop s a = some s') (hu : u ≠ a.thread loop) :
    s'.server.stack u = s.server.stack u ∧ s'.tasks u = s.tasks u := by
  cases lockingSteps_of_step hs with
  | task hold h =>
    obtain ⟨hserver, hothers, -⟩ := Nearer.task hold h
    exact ⟨by rw [hserver], hothers u hu⟩
  | request r _ _ | written c _ _ => exact ⟨rfl, Function.update_of_ne hu _ _⟩
  | server _ h => exact ⟨step_other h hu, Function.update_of_ne hu _ _⟩

/-- At any time only finitely many threads are in the server. -/
theorem exists_active {loop : T} {as : List (LockingAction T U)} {s : LockingServer T U}
    (hrun : run (LockingServer.step uuid loop) LockingServer.started as = some s) :
    ∃ active : Finset T, ∀ t, t ∉ active → Finished s t := by
  refine run_invariant (I := fun s => ∃ active : Finset T, ∀ t, t ∉ active → Finished s t) ?_
    ⟨∅, fun _ _ => ⟨rfl, rfl⟩⟩ hrun
  rintro s a s' ⟨active, hactive⟩ hs
  refine ⟨insert (a.thread loop) active, fun t ht => ?_⟩
  obtain ⟨hne, hnot⟩ := not_or.mp (fun h => ht (Finset.mem_insert.mpr h))
  obtain ⟨hstack, htasks⟩ := locking_step_other hs hne
  obtain ⟨hcalls, hrest⟩ := hactive t hnot
  exact ⟨hstack.trans hcalls, htasks.trans hrest⟩

/-- The accepts that are being handled, the connections, and the work left to all threads. -/
def remaining (uuid : Connection → U) (active : Finset T) (s : LockingServer T U) : ℕ ×ₗ ℕ ×ₗ ℕ :=
  toLex (∑ t ∈ active, (registering (s.server.stack t)).length,
    toLex (s.server.connections.length, ∑ t ∈ active, s.load uuid t))

theorem remaining_lt {loop : T} {s s' : LockingServer T U} {a : LockingAction T U} {active : Finset T}
    (hactive : ∀ t, t ∉ active → Finished s t) (ha : a.internal = true)
    (hs : LockingServer.step uuid loop s a = some s') :
    (∀ t, t ∉ active → Finished s' t) ∧ remaining uuid active s' < remaining uuid active s := by
  obtain ⟨hbusy, hothers, hnearer⟩ := internal_step ha hs
  have hmem : a.thread loop ∈ active := by
    by_contra hnot
    exact hbusy (hactive _ hnot)
  have hsum : ∀ f g : T → ℕ, (∀ u, u ≠ a.thread loop → f u = g u) → f (a.thread loop) < g (a.thread loop) →
      ∑ t ∈ active, f t < ∑ t ∈ active, g t := by
    intro f g hsame hless
    refine Finset.sum_lt_sum (fun u _ => ?_) ⟨a.thread loop, hmem, hless⟩
    by_cases hu : u = a.thread loop
    · rw [hu]
      exact hless.le
    · exact (hsame u hu).le
  have hsame : registering (s'.server.stack (a.thread loop)) =
      registering (s.server.stack (a.thread loop)) →
        ∑ t ∈ active, (registering (s'.server.stack t)).length =
          ∑ t ∈ active, (registering (s.server.stack t)).length := by
    intro hr
    refine Finset.sum_congr rfl fun u _ => ?_
    by_cases hu : u = a.thread loop
    · rw [hu, hr]
    · rw [(hothers u hu).1]
  constructor
  · intro t ht
    have hne : t ≠ a.thread loop := by
      rintro rfl
      exact ht hmem
    obtain ⟨hstack, htasks⟩ := hothers t hne
    obtain ⟨hcalls, hrest⟩ := hactive t ht
    exact ⟨hstack.trans hcalls, htasks.trans hrest⟩
  · unfold remaining
    rw [Prod.Lex.toLex_lt_toLex, Prod.Lex.toLex_lt_toLex]
    cases hnearer with
    | accepts h =>
      exact Or.inl (hsum _ _ (fun u hu => by rw [(hothers u hu).1]) h)
    | erases hr h => exact Or.inr ⟨hsame hr, Or.inl h⟩
    | goes hr hc h =>
      refine Or.inr ⟨hsame hr, Or.inr ⟨by rw [hc], hsum _ _ (fun u hu => ?_) h⟩⟩
      rw [LockingServer.load, LockingServer.load, hc, (hothers u hu).1, (hothers u hu).2]

/-- **Calls come to an end.** From no state of any run can the calls of all threads, and the listeners
that return to them, go on for ever without a new call, a completion or an exception. -/
theorem calls_end (uuid : Connection → U) (loop : T) (as : List (LockingAction T U))
    (states : ℕ → LockingServer T U) (labels : ℕ → LockingAction T U)
    (hrun : run (LockingServer.step uuid loop) LockingServer.started as = some (states 0))
    (hinternal : ∀ n, (labels n).internal = true) :
    ¬ ∀ n, LockingServer.step uuid loop (states n) (labels n) = some (states (n + 1)) := by
  obtain ⟨active, hactive⟩ := exists_active hrun
  exact no_endless_run (I := fun s => ∀ t, t ∉ active → Finished s t) (A := fun a : LockingAction T U => a.internal = true)
    (μ := remaining uuid active) (fun s a s' hI ha hs => remaining_lt hI ha hs) hactive hinternal

end Calls

theorem calls_end_accepted : ∃ s,
    run (LockingServer.step id ()) LockingServer.started
        [.server (.dispatch (.accept none)), .server (.advance ())] = some s ∧
      ¬ ∀ _ : ℕ, LockingServer.step id () s (.server (.returns ())) =
        some (s : LockingServer Unit ℕ) := by
  have hruns : (run (LockingServer.step id ()) (LockingServer.started : LockingServer Unit ℕ)
      [.server (.dispatch (.accept none)), .server (.advance ())]).isSome = true := by decide +kernel
  obtain ⟨s, hs⟩ := Option.isSome_iff_exists.mp hruns
  exact ⟨s, hs, calls_end id () _ (fun _ => s) (fun _ => .server (.returns ())) hs fun _ => rfl⟩

end Diginext.Server
