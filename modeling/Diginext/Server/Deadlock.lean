import Diginext.Foundations.Locking
import Diginext.Server.CallsEnd

/-! # Threads of the server do not wait in a circle

A `sendSync` is locked by threads that may hold `server_sync`, never the other way round, so a circle
of waiting threads can only be a thread that waits for itself (`deadlock_free_iff`). Such a thread stays
where it is. Where nothing can go on any more, all calls of all threads have therefore ended, just if
no listener of `onAccepted` has called what locks `server_sync` (`finished_iff`).
-/
namespace Diginext.Server
open Cpp Transition Locking
set_option autoImplicit false

variable {T U : Type}

def locking (s : LockingServer T U) : Locks T Mutex := ⟨Holds s, nextLock s⟩

def Mutex.rank : Mutex → ℕ
  | server_sync => 0
  | sendSync _ => 1

theorem Mutex.rank_lt (m : Mutex) : m.rank < 2 := by
  cases m <;> simp [rank]

/-- Who holds a `sendSync` is about to release it. -/
theorem Held.releasing {s : LockingServer T U} (h : Held s) {t : T} {c : Connection}
    (hc : s.sendSync c = some t) : nextLock s t = none := by
  obtain ⟨rest, htop⟩ := h.sending t c hc
  rcases htop with htop | htop
  · simp [nextLock, htop, Task.locks]
  · simp [nextLock, htop, Task.locks]

theorem Held.ordered {s : LockingServer T U} (h : Held s) : Ordered (locking s) Mutex.rank := by
  intro t m m' hholds hnext
  cases m with
  | server_sync =>
    cases m' with
    | server_sync => exact absurd hholds (h.reentrant t .server_sync hnext)
    | sendSync c => exact Nat.one_pos
  | sendSync c => cases (h.releasing hholds).symm.trans hnext

/-- Who holds a mutex has a call to go on with. -/
theorem Held.busy {s : LockingServer T U} (h : Held s) {t : T} {m : Mutex} (hholds : Holds s t m) :
    ¬ Finished s t := by
  rintro ⟨hstack, htasks⟩
  cases m with
  | server_sync =>
    have haccepting := h.accepting t hholds
    rw [hstack] at haccepting
    exact not_accepting_nil haccepting
  | sendSync c =>
    obtain ⟨rest, htop⟩ := h.sending t c hholds
    rw [htasks] at htop
    rcases htop with htop | htop <;> cases htop

variable [DecidableEq T] [DecidableEq U] {uuid : Connection → U}

/-- A call goes on unless its thread waits. -/
theorem goes_on (uuid : Connection → U) (loop : T) {s : LockingServer T U} {t : T} (hbusy : ¬ Finished s t)
    (hfree : ∀ u, ¬ Waits (locking s) t u) :
    ∃ a : LockingAction T U, a.internal = true ∧ LockingServer.step uuid loop s a ≠ none := by
  cases htasks : s.tasks t with
  | cons task rest =>
    refine ⟨.task t, rfl, fun hnone => ?_⟩
    simp only [LockingServer.step, htasks] at hnone
    obtain ⟨m, u, hlocks, hholds⟩ := (perform_waits s t rest task).mp hnone
    exact hfree u ⟨m, by simp [locking, nextLock, htasks, hlocks], hholds⟩
  | nil =>
    cases hstack : s.server.stack t with
    | nil => exact absurd ⟨hstack, htasks⟩ hbusy
    | cons frame rest =>
      by_cases hframe : ∃ event, frame = .listening event
      · obtain ⟨event, rfl⟩ := hframe
        refine ⟨.server (.returns t), rfl, ?_⟩
        simp [LockingServer.step, Action.thread, htasks, TcpServer.step, hstack]
      · refine ⟨.server (.advance t), rfl, fun hnone => ?_⟩
        have hwaits : s.server.advance uuid t rest frame = none := by
          cases hadvance : s.server.advance uuid t rest frame with
          | none => rfl
          | some server =>
            simp [LockingServer.step, Action.thread, htasks, TcpServer.step, hstack, hadvance] at hnone
        obtain ⟨hlocks, hsome⟩ :=
          (advance_waits s.server t rest fun event heq => hframe ⟨event, heq⟩).mp hwaits
        obtain ⟨u, hu⟩ := Option.isSome_iff_exists.mp hsome
        exact hfree u ⟨.server_sync, by simp [locking, nextLock, htasks, hstack, hlocks], hu⟩

/-- Where nothing can go on, everything has ended. -/
theorem Held.finished {loop : T} {s : LockingServer T U} (h : Held s)
    (hquiet : ∀ a : LockingAction T U, a.internal = true → LockingServer.step uuid loop s a = none)
    (t : T) : Finished s t := by
  by_contra hbusy
  obtain ⟨u, hpath, hfree⟩ := h.ordered.waits_end Mutex.rank_lt t
  have hbusy' : ¬ Finished s u := by
    rcases Relation.ReflTransGen.cases_tail hpath with rfl | ⟨v, -, m, -, hholds⟩
    · exact hbusy
    · exact h.busy hholds
  obtain ⟨a, ha, hgo⟩ := goes_on uuid loop hbusy' hfree
  exact hgo (hquiet a ha)

/-! ## A thread that waits for itself -/

/-- One call of `handle_accept` is in its guarded part, that of the thread that holds `server_sync`. -/
def Guarded (s : TcpServer T U) : Prop :=
  ∀ t, (s.stack t).count .finishAccept = if s.server_sync = some t then 1 else 0

theorem started_guarded : Guarded (TcpServer.started : TcpServer T U) := fun _ => rfl

/-- A thread goes on, and `server_sync` is neither locked nor released. -/
theorem Guarded.goes {s s' : TcpServer T U} (h : Guarded s) {t : T} (frames : List (Frame U))
    (hstack : s'.stack = Function.update s.stack t frames) (hsync : s'.server_sync = s.server_sync)
    (hcount : frames.count .finishAccept = (s.stack t).count .finishAccept) : Guarded s' := by
  intro u
  rw [hsync, ← h u, hstack]
  by_cases hu : u = t
  · rw [hu, Function.update_self, hcount]
  · rw [Function.update_of_ne hu]

omit [DecidableEq T] in
theorem count_plain {frames : List (Frame U)} (h : .finishAccept ∉ frames) :
    frames.count .finishAccept = 0 :=
  List.count_eq_zero.mpr h

omit [DecidableEq T] in
/-- An exception does not leave the guarded part of `handle_accept`. -/
theorem count_unwind (frames : List (Frame U)) :
    (TcpServer.unwind frames).count .finishAccept = frames.count .finishAccept := by
  induction frames with
  | nil => rfl
  | cons frame frames ih =>
    unfold TcpServer.unwind
    rw [List.dropWhile_cons]
    split
    · rename_i hpasses
      have hne : frame ≠ .finishAccept := by
        rintro rfl
        cases hpasses
      rw [List.count_cons_of_ne hne]
      exact ih
    · rfl

omit [DecidableEq T] in
theorem follows_plain {s : TcpServer T U} {frame : Frame U} {new : List (Frame U)}
    (hf : TcpServer.Follows uuid s frame new) : frame ≠ .finishAccept ∧ .finishAccept ∉ new := by
  cases hf with
  | stop c =>
    refine ⟨by simp, fun hmem => ?_⟩
    rcases TcpServer.mem_emission_concat hmem with heq | heq <;> cases heq
  | message c msg messages =>
    refine ⟨by simp, fun hmem => ?_⟩
    rcases TcpServer.mem_emission_concat hmem with heq | heq <;> cases heq
  | _ => simp

omit [DecidableEq T] [DecidableEq U] in
theorem entry_ne_finishAccept (uuid : Connection → U) (op : Operation U) :
    TcpServer.entry uuid op ≠ .finishAccept := by
  cases op <;> simp [TcpServer.entry]

theorem Guarded.advance {s s' : TcpServer T U} (h : Guarded s) {t : T} {frame : Frame U}
    {rest : List (Frame U)} (hold : s.stack t = frame :: rest)
    (hs : s.advance uuid t rest frame = some s') : Guarded s' := by
  have hgoes : ∀ {s' : TcpServer T U} (new : List (Frame U)),
      s'.stack = Function.update s.stack t (new ++ rest) → s'.server_sync = s.server_sync →
        frame ≠ .finishAccept → .finishAccept ∉ new → Guarded s' := by
    intro s' new hstack hsync hframe hnew
    refine h.goes (new ++ rest) hstack hsync ?_
    rw [hold, List.count_append, count_plain hnew, List.count_cons_of_ne hframe, Nat.zero_add]
  cases TcpServer.advances_of_advance uuid hs with
  | @follows frame new hf =>
    obtain ⟨hframe, hnew⟩ := follows_plain hf
    exact hgoes new rfl rfl hframe hnew
  | post c | read c | notFound _ => exact hgoes [] rfl rfl (by simp) (by simp)
  | @found c p hfound => exact hgoes [.dropSlots c p] rfl rfl (by simp) (by simp)
  | dropSlots c p => exact hgoes [.erase p] rfl rfl (by simp) (by simp)
  | erase p => exact hgoes [.recheck p] rfl rfl (by simp) (by simp)
  | @again p q hfound => exact hgoes [.erase p] rfl rfl (by simp) (by simp)
  | @removed p hnone => exact hgoes [.emit (.onDisconnected p)] rfl rfl (by simp) (by simp)
  | emit event => exact hgoes [.listening event] rfl rfl (by simp) (by simp)
  | register c hsync =>
    intro u
    have hcount := h u
    simp only [hsync, reduceCtorEq, if_false] at hcount
    show (Function.update s.stack t (.listening (.onAccepted c) :: .finishAccept :: rest) u).count
      .finishAccept = if some t = some u then 1 else 0
    by_cases hu : u = t
    · subst hu
      rw [hold, List.count_cons_of_ne (by simp)] at hcount
      simp [hcount]
    · rw [Function.update_of_ne hu, hcount, if_neg]
      exact fun heq => hu (Option.some.inj heq).symm
  | finishAccept =>
    intro u
    have hself := h t
    rw [hold, List.count_cons_self] at hself
    show (Function.update s.stack t rest u).count .finishAccept = 0
    by_cases hu : u = t
    · subst hu
      rw [Function.update_self]
      split at hself <;> omega
    · rw [Function.update_of_ne hu, h u, if_neg]
      intro hsync
      rw [if_neg] at hself
      · omega
      · rw [hsync]
        exact fun heq => hu (Option.some.inj heq)

omit [DecidableEq U] in
theorem dispatch_plain {loop : T} {s s' : TcpServer T U} {completion : Completion}
    (hidle : s.stack loop = []) (hs : TcpServer.Dispatches loop s completion s') :
    .finishAccept ∉ s'.stack loop := by
  cases hs with
  | accept _ | acceptError _ _ | read _ _ => simp [TcpServer.setStack]
  | readError error n hread =>
    intro hmem
    rw [TcpServer.setStack_self] at hmem
    rcases TcpServer.mem_handleReadError hmem with heq | heq <;> cases heq
  | writeError c error n =>
    intro hmem
    rw [TcpServer.setStack_self] at hmem
    rcases TcpServer.mem_emission_concat hmem with heq | heq <;> cases heq
  | closure h => simp [hidle]

theorem Guarded.step {loop : T} {s s' : TcpServer T U} {a : Action T U} (h : Guarded s)
    (hs : TcpServer.step uuid loop s a = some s') : Guarded s' := by
  cases TcpServer.steps_of_step uuid hs with
  | dispatch hrunning hidle hd =>
    intro u
    rw [dispatch_sync hd, ← h u]
    by_cases hu : u = loop
    · rw [hu, count_plain (dispatch_plain hidle hd), hidle]
      rfl
    · rw [dispatch_other hd hu]
  | @call t op hidle hloop =>
    refine h.goes [TcpServer.entry uuid op] rfl rfl ?_
    rw [hidle, List.count_cons_of_ne (entry_ne_finishAccept uuid op)]
  | @callback t event rest op hold =>
    refine h.goes (TcpServer.entry uuid op :: .listening event :: rest) rfl rfl ?_
    rw [hold, List.count_cons_of_ne (entry_ne_finishAccept uuid op)]
  | @returns t event rest hold =>
    refine h.goes rest rfl rfl ?_
    rw [hold, List.count_cons_of_ne (by simp)]
  | @caught t event rest hold hunwind =>
    refine h.goes (TcpServer.unwind rest) rfl rfl ?_
    rw [hold, List.count_cons_of_ne (by simp), count_unwind]
  | @escapes t event rest hold hunwind =>
    refine h.goes [] rfl rfl ?_
    rw [hold, List.count_cons_of_ne (by simp), ← count_unwind rest, hunwind]
  | advance hold hadvance => exact h.advance hold hadvance

/-- Another thread does not take `server_sync` from the one that holds it. -/
theorem Guarded.keeps_sync {loop : T} {s s' : TcpServer T U} {a : Action T U} (h : Guarded s) {t : T}
    (hholds : s.server_sync = some t) (hother : t ≠ a.thread loop)
    (hs : TcpServer.step uuid loop s a = some s') : s'.server_sync = some t := by
  cases TcpServer.steps_of_step uuid hs with
  | dispatch _ _ hd => rw [dispatch_sync hd, hholds]
  | call _ _ _ | callback _ _ | returns _ | caught _ _ | escapes _ _ => exact hholds
  | @advance u frame rest s' hold hadvance =>
    rcases advance_sync hadvance with hsync | ⟨c, rfl⟩ | rfl
    · rw [hsync, hholds]
    · obtain ⟨hfree, -⟩ := TcpServer.locked_eq hadvance
      cases hfree.symm.trans hholds
    · have hcount := h u
      rw [hold, List.count_cons_self, if_neg] at hcount
      · omega
      · rw [hholds]
        exact fun heq => hother (Option.some.inj heq)

/-- The thread is about to lock `server_sync`, which it holds. -/
structure Stuck (s : LockingServer T U) (t : T) : Prop where
  next : nextLock s t = some .server_sync
  holds : s.server.server_sync = some t

omit [DecidableEq T] [DecidableEq U] in
theorem Stuck.not_finished {s : LockingServer T U} {t : T} (h : Stuck s t) : ¬ Finished s t := by
  rintro ⟨hstack, htasks⟩
  have hnext := h.next
  simp [nextLock, htasks, hstack] at hnext

omit [DecidableEq T] [DecidableEq U] in
/-- Where the thread has no task to do first, it is in a call that locks `server_sync`. -/
theorem Stuck.call {s : LockingServer T U} {t : T} (h : Stuck s t) (htasks : s.tasks t = []) :
    ∃ frame rest, s.server.stack t = frame :: rest ∧ frame.locks = some .server_sync := by
  have hnext := h.next
  simp only [nextLock, htasks] at hnext
  cases hstack : s.server.stack t with
  | nil =>
    rw [hstack] at hnext
    cases hnext
  | cons frame rest =>
    rw [hstack] at hnext
    exact ⟨frame, rest, rfl, hnext⟩

/-- A thread that waits for itself takes no step. -/
theorem Stuck.waits {s s' : LockingServer T U} {t loop : T} {a : LockingAction T U} (h : Stuck s t)
    (hs : LockingServer.step uuid loop s a = some s') : t ≠ a.thread loop := by
  rintro rfl
  cases lockingSteps_of_step hs with
  | @task t task rest s' hold hperform =>
    have hnext := h.next
    simp only [nextLock, LockingAction.thread, hold] at hnext
    have hwaits : s.perform uuid t rest task = none :=
      (perform_waits s t rest task).mpr ⟨.server_sync, t, hnext, h.holds⟩
    cases hwaits.symm.trans hperform
  | @request t r htasks huser =>
    obtain ⟨frame, rest, hstack, hlocks⟩ := h.call htasks
    have hstack : s.server.stack t = frame :: rest := hstack
    cases frame <;> simp [LockingServer.inUserCode, hstack, Frame.locks] at huser hlocks
  | written c htasks hidle => exact h.not_finished ⟨hidle, htasks⟩
  | @server a server htasks hserver =>
    obtain ⟨frame, rest, hstack, hlocks⟩ := h.call htasks
    have hlistening : ∀ event, frame ≠ .listening event := by
      rintro event rfl
      cases hlocks
    cases TcpServer.steps_of_step uuid hserver with
    | dispatch _ hidle _ | call _ hidle _ => cases hidle.symm.trans hstack
    | callback _ hold | returns hold | caught hold _ | escapes hold _ =>
      cases hold.symm.trans hstack
      exact absurd rfl (hlistening _)
    | @advance t frame' rest' server hold hadvance =>
      cases hold.symm.trans hstack
      have hwaits : s.server.advance uuid t rest frame = none :=
        (advance_waits s.server t rest hlistening).mpr ⟨hlocks, Option.isSome_iff_exists.mpr ⟨t, h.holds⟩⟩
      cases hwaits.symm.trans hadvance

theorem Stuck.step {s s' : LockingServer T U} {t loop : T} {a : LockingAction T U} (h : Stuck s t)
    (hguarded : Guarded s.server) (hs : LockingServer.step uuid loop s a = some s') : Stuck s' t := by
  have hother := h.waits hs
  obtain ⟨hstack, htasks⟩ := locking_step_other hs hother
  refine ⟨?_, ?_⟩
  · unfold nextLock
    rw [hstack, htasks]
    exact h.next
  · cases lockingSteps_of_step hs with
    | task hold hperform =>
      rw [(Nearer.task hold hperform).1]
      exact h.holds
    | request _ _ _ | written _ _ _ => exact h.holds
    | server _ hserver => exact hguarded.keeps_sync h.holds hother hserver

/-! ## Whole runs -/

theorem Guarded.locking_step {loop : T} {s s' : LockingServer T U} {a : LockingAction T U}
    (h : Guarded s.server) (hs : LockingServer.step uuid loop s a = some s') : Guarded s'.server := by
  cases lockingSteps_of_step hs with
  | task hold hperform =>
    rw [(Nearer.task hold hperform).1]
    exact h
  | request _ _ _ | written _ _ _ => exact h
  | server _ hserver => exact h.step hserver

/-- A step that is not harmless leaves a thread that waits for itself. -/
theorem Held.stuck {loop : T} {s s' : LockingServer T U} {a : LockingAction T U} (h : Held s)
    (hharm : ¬ Harmless s a) (hs : LockingServer.step uuid loop s a = some s') : ∃ t, Stuck s' t := by
  by_contra hnone
  apply not_reentrant hharm hs
  intro t m hnext hholds
  cases m with
  | server_sync => exact hnone ⟨t, hnext, hholds⟩
  | sendSync c =>
    -- its holder is not the thread that took the step
    have hkept : s.sendSync c = some t → t ≠ a.thread loop → False := by
      intro hc hother
      obtain ⟨hstack, htasks⟩ := locking_step_other hs hother
      have hnone := h.releasing hc
      unfold nextLock at hnone hnext
      rw [hstack, htasks, hnone] at hnext
      cases hnext
    have hbusy : s.sendSync c = some t → s.tasks t ≠ [] := by
      intro hc hnil
      obtain ⟨rest, htop⟩ := h.sending t c hc
      rw [hnil] at htop
      rcases htop with htop | htop <;> cases htop
    cases lockingSteps_of_step hs with
    | task _ _ => exact hharm trivial
    | written _ _ _ => exact hharm trivial
    | request _ htasks _ =>
      refine hkept hholds ?_
      rintro rfl
      exact hbusy hholds htasks
    | server htasks _ =>
      refine hkept hholds ?_
      rintro rfl
      exact hbusy hholds htasks

/-- **No deadlock.** In a run the threads never wait for each other in a circle, just if every call made
while the caller holds `server_sync` is one that does not lock it. -/
theorem deadlock_free_iff (uuid : Connection → U) (loop : T) (as : List (LockingAction T U)) :
    Along (LockingServer.step uuid loop) (fun s => ¬ Deadlock (locking s)) LockingServer.started as ↔
      Meets (LockingServer.step uuid loop) Harmless LockingServer.started as := by
  constructor
  · refine meets_of_along (fun _ _ _ hI hC hs => hI.step hC hs) ?_ started_held
    intro s a s' hI hharm hs hfree
    obtain ⟨t, hstuck⟩ := hI.stuck hharm hs
    exact hfree (deadlock_of_self hstuck.next hstuck.holds)
  · intro hmeets
    exact (along_of_meets (fun _ _ _ hI hC hs => hI.step hC hs) started_held hmeets).mono
      fun _ hI => hI.ordered.not_deadlock Mutex.rank_lt

/-- After a step that is not harmless a thread waits for itself. -/
theorem stuck_of_not_meets {loop : T} {as : List (LockingAction T U)} {s : LockingServer T U}
    (hrun : run (LockingServer.step uuid loop) LockingServer.started as = some s)
    (hnot : ¬ Meets (LockingServer.step uuid loop) Harmless LockingServer.started as) :
    Guarded s.server ∧ ∃ t, Stuck s t := by
  refine run_of_not_meets (I := fun s => Guarded s.server ∧ Held s)
    (B := fun s => Guarded s.server ∧ ∃ t, Stuck s t) ?_ ?_ ?_ ⟨started_guarded, started_held⟩ hrun hnot
  · exact fun s a s' hI hC hs => ⟨hI.1.locking_step hs, hI.2.step hC hs⟩
  · exact fun s a s' hI hharm hs => ⟨hI.1.locking_step hs, hI.2.stuck hharm hs⟩
  · rintro s a s' ⟨hguarded, t, hstuck⟩ hs
    exact ⟨hguarded.locking_step hs, t, hstuck.step hguarded hs⟩

theorem Stuck.run {s s' : LockingServer T U} {t loop : T} {bs : List (LockingAction T U)}
    (h : Stuck s t) (hguarded : Guarded s.server)
    (hrun : Transition.run (LockingServer.step uuid loop) s bs = some s') : Stuck s' t :=
  (run_invariant (I := fun s => Guarded s.server ∧ Stuck s t)
    (fun _ _ _ hI hs => ⟨hI.1.locking_step hs, hI.2.step hI.1 hs⟩) ⟨hguarded, h⟩ hrun).2

/-- **When nothing goes on any more, everything has ended,** just if every call made while the caller
holds `server_sync` was one that does not lock it. After any other call a thread waits for itself,
whatever the rest of the run. -/
theorem finished_iff (uuid : Connection → U) (loop : T) (as : List (LockingAction T U))
    (s : LockingServer T U)
    (hrun : run (LockingServer.step uuid loop) LockingServer.started as = some s) :
    ((∀ a : LockingAction T U, a.internal = true → LockingServer.step uuid loop s a = none) →
      ((∀ t, Finished s t) ↔ Meets (LockingServer.step uuid loop) Harmless LockingServer.started as)) ∧
      (¬ Meets (LockingServer.step uuid loop) Harmless LockingServer.started as →
        ∃ t, ∀ bs s', run (LockingServer.step uuid loop) s bs = some s' →
          Stuck s' t ∧ ¬ Finished s' t) := by
  constructor
  · intro hquiet
    constructor
    · intro hidle
      by_contra hnot
      obtain ⟨-, t, hstuck⟩ := stuck_of_not_meets hrun hnot
      exact hstuck.not_finished (hidle t)
    · intro hmeets
      have hheld := (along_of_meets (fun _ _ _ hI hC hs => hI.step hC hs) started_held hmeets).last hrun
      exact hheld.finished hquiet
  · intro hnot
    obtain ⟨hguarded, t, hstuck⟩ := stuck_of_not_meets hrun hnot
    refine ⟨t, fun bs s' hrun' => ?_⟩
    have hstays := hstuck.run hguarded hrun'
    exact ⟨hstays, hstays.not_finished⟩

/-- The listener of `onAccepted` waits for the mutex that its own thread holds, and nothing goes on. -/
theorem finished_iff_listsWhenAccepted : ∃ s,
    run (LockingServer.step id ()) LockingServer.started listsWhenAccepted = some s ∧
      ¬ Meets (LockingServer.step id ()) Harmless LockingServer.started listsWhenAccepted ∧
      ∃ t, Stuck s t := by
  have hrun : ((run (LockingServer.step id ()) LockingServer.started listsWhenAccepted).map fun s =>
      (s.tasks (), s.server.server_sync)) = some ([.getConnections], some ()) := by decide +kernel
  obtain ⟨s, hs, hfields⟩ := Option.map_eq_some_iff.mp hrun
  simp only [Prod.mk.injEq] at hfields
  obtain ⟨htasks, hsync⟩ := hfields
  have hbusy : ¬ Finished s () := by
    rintro ⟨-, hnil⟩
    cases htasks.symm.trans hnil
  have hquiet : ∀ a : LockingAction Unit ℕ, a.internal = true →
      LockingServer.step id () s a = none := by
    intro a ha
    cases hstep : LockingServer.step id () s a with
    | none => rfl
    | some s' =>
      cases lockingSteps_of_step hstep with
      | request _ _ _ | written _ _ _ => cases ha
      | server hnil _ => cases htasks.symm.trans hnil
      | task hold hperform =>
        cases htasks.symm.trans hold
        obtain ⟨hfree, -⟩ := LockingServer.underServerSync_eq hperform
        cases hsync.symm.trans hfree
  obtain ⟨hfinished, hlost⟩ := finished_iff id () listsWhenAccepted s hs
  have hnot : ¬ Meets (LockingServer.step id ()) Harmless LockingServer.started listsWhenAccepted :=
    fun hmeets => hbusy ((hfinished hquiet).mpr hmeets ())
  obtain ⟨t, ht⟩ := hlost hnot
  exact ⟨s, hs, hnot, t, (ht [] s rfl).1⟩

end Diginext.Server
