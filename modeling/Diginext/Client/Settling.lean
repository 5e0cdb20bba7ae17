import Diginext.Client.Machine
import Diginext.Foundations.Transition
import Mathlib.Algebra.BigOperators.Group.Finset.Basic
import Mathlib.Algebra.Order.BigOperators.Group.Finset

/-! # The client comes to rest

`disconnect` can be called by any threads at once, `stop` and `StorageClient::Disconnect` by one thread
outside the event loop and by the listeners on the loop, where `std::thread::join` throws. `stop` asks
the loop to end and waits for its thread. With no new calls and completions and with listeners that
return, only finitely many steps are possible, and when none is, all calls have ended. The event loop
has ended then too, or it waits for an operation of the connection, which it does only if no `stop` has
asked it to end (`calls_settle`). Where two threads outside the loop call `stop` at once, both may find
the handle of its thread joinable, and what the second `join` does is undefined. -/
namespace Diginext.Client
open Cpp Transition
set_option autoImplicit false

namespace TcpClient
variable {T : Type} [DecidableEq T]

/-- What goes on by itself: calls, listeners that return, the close routine, the end of the loop and of
its thread. -/
def proceed (loop : T) (s : TcpClient T) : Action T → Option (TcpClient T)
  | .advance t => step loop s (.advance t)
  | .returns t => step loop s (.returns t)
  | .dispatch .closure => step loop s (.dispatch .closure)
  | .leave => step loop s .leave
  | .finish => if s.started_status then step loop s .finish else none
  | _ => none

/-- The calls that a call makes before it returns. -/
def follows (s : TcpClient T) : Frame → List Frame
  | .storageDisconnect => if s.started_status then [.disconnect, .stop] else []
  | .disconnect => s.emission .onDisconnected ++ [.post]
  | .stop => if s.started_status then [.disconnect, .ioStop, .join] else []
  | .join => if s.joinable then [.joining] else []
  | .handler event => [.listening event]
  | .reading (msg :: messages) => s.emission (.onReadMessage msg) ++ [.reading messages]
  | _ => []

/-- What one step of a call does to the stacks and to the loop. -/
structure Advances (s s' : TcpClient T) (t : T) (frame : Frame) (rest : List Frame) : Prop where
  listens : ∀ event, frame ≠ .listening event
  stack : s'.stack = Function.update s.stack t (s.follows frame ++ rest)
  running : s'.running = true → s.running = true
  started_status : s'.started_status = s.started_status
  posted : s'.posted = if frame = .post then s.posted + 1 else s.posted
  stopped : frame ≠ .ioStop → s'.stopped = s.stopped
  asked : frame = .ioStop → s'.stopped = true

theorem advances_of_advance {loop t : T} {s s' : TcpClient T} {frame : Frame} {rest : List Frame}
    (h : s.advance loop t rest frame = some s') : Advances s s' t frame rest := by
  cases frame with
  | storageDisconnect | stop | join =>
    cases h
    refine ⟨by simp, ?_, id, rfl, rfl, fun _ => rfl, by simp⟩
    simp only [follows]
    split <;> rfl
  | disconnect =>
    cases h
    refine ⟨by simp, ?_, id, rfl, rfl, fun _ => rfl, by simp⟩
    simp only [follows, List.append_assoc]
    rfl
  | post | handler event | writing =>
    cases h
    exact ⟨by simp, rfl, id, rfl, rfl, fun _ => rfl, by simp⟩
  | ioStop =>
    cases h
    exact ⟨by simp, rfl, id, rfl, rfl, fun hne => absurd rfl hne, fun _ => rfl⟩
  | joining =>
    cases joins_of_join h with
    | throws ht =>
      exact ⟨by simp, rfl, fun hrunning => (Bool.and_eq_true_iff.mp hrunning).1, rfl, rfl, fun _ => rfl,
        by simp⟩
    | joined hother hended hjoinable => exact ⟨by simp, rfl, id, rfl, rfl, fun _ => rfl, by simp⟩
  | listening event => cases h
  | reading messages =>
    cases messages with
    | nil =>
      cases h
      exact ⟨by simp, rfl, id, rfl, rfl, fun _ => rfl, by simp⟩
    | cons msg messages =>
      cases h
      refine ⟨by simp, ?_, id, rfl, rfl, fun _ => rfl, by simp⟩
      simp only [follows, List.append_assoc]
      rfl

/-- The handle of the thread is changed by a `join` that comes back. -/
theorem joinable_of_advance {loop t : T} {s s' : TcpClient T} {frame : Frame} {rest : List Frame}
    (h : s.advance loop t rest frame = some s') (hjoins : frame = .joining → t = loop) :
    s'.joinable = s.joinable := by
  cases frame with
  | joining =>
    cases joins_of_join h with
    | throws ht => rfl
    | joined hother hended hjoinable => exact absurd (hjoins rfl) hother
  | listening event => cases h
  | reading messages =>
    cases messages <;> cases h <;> rfl
  | _ =>
    cases h
    rfl

/-- A call goes on unless it waits for a listener or for the thread of the loop. -/
theorem advance_some {loop t : T} {s : TcpClient T} {frame : Frame} (rest : List Frame)
    (hlistens : ∀ event, frame ≠ .listening event)
    (hjoins : frame = .joining → t = loop ∨ s.started_status = false ∧ s.joinable = true) :
    ∃ s', s.advance loop t rest frame = some s' := by
  cases frame with
  | joining =>
    simp only [advance, join]
    split
    · exact ⟨_, rfl⟩
    · rename_i hother
      rw [if_pos ((hjoins rfl).resolve_left hother)]
      exact ⟨_, rfl⟩
  | listening event => exact absurd rfl (hlistens event)
  | reading messages => cases messages <;> exact ⟨_, rfl⟩
  | _ => exact ⟨_, rfl⟩

end TcpClient

/-! ## Only finitely many steps -/

/-- A bound for the steps of a call, of those it makes, and of the close routine it posts. -/
def Frame.work : Frame → ℕ
  | listening _ | writing | joining | ioStop => 1
  | handler _ | post | join => 2
  | disconnect => 5
  | stop => 9
  | storageDisconnect => 15
  | reading messages => 3 * messages.length + 1

def framesWork : List Frame → ℕ
  | [] => 0
  | frame :: frames => frame.work + framesWork frames

theorem framesWork_append (frames frames' : List Frame) :
    framesWork (frames ++ frames') = framesWork frames + framesWork frames' := by
  induction frames with
  | nil => exact (Nat.zero_add _).symm
  | cons frame frames ih =>
    show frame.work + framesWork (frames ++ frames') =
      frame.work + framesWork frames + framesWork frames'
    omega

section Settling
variable {T : Type}

theorem emission_work (s : TcpClient T) (event : Event) : framesWork (s.emission event) ≤ 2 := by
  unfold TcpClient.emission
  split
  · exact Nat.le_refl 2
  · exact Nat.zero_le 2

variable [DecidableEq T]

omit [DecidableEq T] in
theorem follows_work (s : TcpClient T) {frame : Frame} (hlistens : ∀ event, frame ≠ .listening event) :
    framesWork (s.follows frame) + (if frame = .post then 1 else 0) < frame.work := by
  cases frame with
  | storageDisconnect | stop | join =>
    simp only [TcpClient.follows]
    split <;> decide
  | disconnect =>
    have h := emission_work s .onDisconnected
    simp only [TcpClient.follows, framesWork_append, framesWork, Frame.work, reduceCtorEq, if_false]
    omega
  | reading messages =>
    cases messages with
    | nil => exact Nat.lt_succ_self 0
    | cons msg messages =>
      have h := emission_work s (.onReadMessage msg)
      simp only [TcpClient.follows, framesWork_append, framesWork, Frame.work, reduceCtorEq, if_false,
        List.length_cons]
      omega
  | listening event => exact absurd rfl (hlistens event)
  | post => exact Nat.lt_succ_self 1
  | ioStop | joining | writing => exact Nat.lt_succ_self 0
  | handler event => exact Nat.lt_succ_self 1

/-- What is left to the event loop: close routines, the end of `run()` and of its thread. -/
def loopWork (s : TcpClient T) : ℕ := s.posted + s.running.toNat + s.started_status.toNat

/-- A thread has less left to do, or the event loop has. -/
inductive Nearer (s s' : TcpClient T) : Prop where
  | thread {t : T} {frames : List Frame} (hbusy : s.stack t ≠ [])
    (hstack : s'.stack = Function.update s.stack t frames)
    (hless : framesWork frames + loopWork s' < framesWork (s.stack t) + loopWork s)
  | loop (hstack : s'.stack = s.stack) (hless : loopWork s' < loopWork s)

theorem nearer_of_proceed {loop : T} {s s' : TcpClient T} {a : Action T}
    (h : s.proceed loop a = some s') : Nearer s s' := by
  cases a with
  | advance t =>
    have hs : TcpClient.step loop s (.advance t) = some s' := h
    cases TcpClient.steps_of_step hs with
    | @advance _ frame rest _ hold hadvance =>
      have hadvances := TcpClient.advances_of_advance hadvance
      have hwork := follows_work s hadvances.listens
      have hrunning : s'.running.toNat ≤ s.running.toNat := Bool.toNat_le_toNat hadvances.running
      refine .thread (t := t) (by simp [hold]) hadvances.stack ?_
      simp only [loopWork, hold, framesWork_append, framesWork, hadvances.started_status,
        hadvances.posted]
      by_cases hpost : frame = .post
      · simp only [hpost, if_true] at hwork ⊢
        omega
      · simp only [hpost, if_false] at hwork ⊢
        omega
  | returns t =>
    have hs : TcpClient.step loop s (.returns t) = some s' := h
    cases TcpClient.steps_of_step hs with
    | @returns _ event rest hold =>
      refine .thread (t := t) (by simp [hold]) rfl ?_
      rw [hold]
      exact Nat.add_lt_add_right (Nat.lt_add_of_pos_left Nat.one_pos) _
  | dispatch completion =>
    cases completion with
    | closure =>
      have hs : TcpClient.step loop s (.dispatch .closure) = some s' := h
      cases TcpClient.steps_of_step hs with
      | dispatch hrunning hidle hd =>
        cases hd with
        | closure hposted =>
          refine .loop rfl ?_
          simp only [loopWork, hposted]
          omega
    | _ => cases h
  | leave =>
    have hs : TcpClient.step loop s .leave = some s' := h
    have hrunning : s.running = true := by
      simp only [TcpClient.step] at hs
      split at hs
      · rename_i hleaves
        exact hleaves.1
      · cases hs
    cases TcpClient.steps_of_step hs with
    | leave hidle =>
      refine .loop rfl ?_
      simp only [loopWork, hrunning, Bool.toNat_true, Bool.toNat_false]
      omega
  | finish =>
    simp only [TcpClient.proceed] at h
    split at h
    · rename_i hstarted
      cases TcpClient.steps_of_step h with
      | finish hended =>
        refine .loop rfl ?_
        simp only [loopWork, hstarted, Bool.toNat_true, Bool.toNat_false]
        omega
    · cases h
  | _ => cases h

/-- What is left to the event loop and to the threads that are in a call. -/
def remaining (active : Finset T) (s : TcpClient T) : ℕ :=
  loopWork s + ∑ t ∈ active, framesWork (s.stack t)

theorem remaining_lt {loop : T} {s s' : TcpClient T} {a : Action T} {active : Finset T}
    (hactive : ∀ t, t ∉ active → s.stack t = []) (h : s.proceed loop a = some s') :
    (∀ t, t ∉ active → s'.stack t = []) ∧ remaining active s' < remaining active s := by
  cases nearer_of_proceed h with
  | @thread t frames hbusy hstack hless =>
    have hmem : t ∈ active := by
      by_contra hnot
      exact hbusy (hactive t hnot)
    have hother : ∀ u, u ≠ t → s'.stack u = s.stack u := by
      intro u hu
      rw [hstack, Function.update_of_ne hu]
    constructor
    · intro u hu
      have hne : u ≠ t := by
        rintro rfl
        exact hu hmem
      rw [hother u hne]
      exact hactive u hu
    · have hothers : ∑ u ∈ active.erase t, framesWork (s'.stack u) =
          ∑ u ∈ active.erase t, framesWork (s.stack u) := by
        refine Finset.sum_congr rfl fun u hu => ?_
        rw [hother u (Finset.ne_of_mem_erase hu)]
      have hself : s'.stack t = frames := by rw [hstack, Function.update_self]
      simp only [remaining]
      rw [← Finset.add_sum_erase active _ hmem, ← Finset.add_sum_erase active _ hmem, hothers, hself]
      omega
  | loop hstack hless =>
    constructor
    · rw [hstack]
      exact hactive
    · simp only [remaining, hstack]
      omega

/-! ## Which calls stop the client -/

def Frame.stops : Frame → Bool
  | storageDisconnect | stop | ioStop | join | joining => true
  | _ => false

omit [DecidableEq T] in
theorem emission_stops (s : TcpClient T) (event : Event) :
    ∀ frame ∈ s.emission event, frame.stops = false := by
  intro frame hframe
  unfold TcpClient.emission at hframe
  split at hframe
  · rw [List.mem_singleton.mp hframe]
    rfl
  · cases hframe

omit [DecidableEq T] in
theorem follows_stops (s : TcpClient T) {frame : Frame} (h : frame.stops = false) :
    ∀ f ∈ s.follows frame, f.stops = false := by
  intro f hf
  cases frame with
  | disconnect =>
    rcases List.mem_append.mp hf with hf | hf
    · exact emission_stops s _ f hf
    · rw [List.mem_singleton.mp hf]
      rfl
  | handler event =>
    rw [List.mem_singleton.mp hf]
    rfl
  | reading messages =>
    cases messages with
    | nil => cases hf
    | cons msg messages =>
      rcases List.mem_append.mp hf with hf | hf
      · exact emission_stops s _ f hf
      · rw [List.mem_singleton.mp hf]
        rfl
  | storageDisconnect | stop | ioStop | join | joining => cases h
  | post | listening event | writing => cases hf

/-- What a completion begins stops nothing. -/
theorem dispatch_quiet {loop : T} {s s' : TcpClient T} {completion : Completion}
    (hidle : s.stack loop = []) (hs : TcpClient.Dispatches loop s completion s') :
    s'.stopped = s.stopped ∧ s'.joinable = s.joinable ∧ ∃ frames,
      s'.stack = Function.update s.stack loop frames ∧ ∀ frame ∈ frames, frame.stops = false := by
  cases hs with
  | timedOut error hconnecting hclosed => exact ⟨rfl, rfl, _, rfl, emission_stops s _⟩
  | connectError error hconnecting hopen => exact ⟨rfl, rfl, _, rfl, emission_stops s _⟩
  | connected hconnecting hopen => exact ⟨rfl, rfl, _, rfl, emission_stops s _⟩
  | read messages hreading => exact ⟨rfl, rfl, _, rfl, by simp [Frame.stops]⟩
  | readError error n hreading =>
    refine ⟨rfl, rfl, _, rfl, ?_⟩
    unfold TcpClient.handleReadError
    split
    · exact emission_stops s _
    · exact emission_stops s _
  | writeError error n =>
    refine ⟨rfl, rfl, _, rfl, fun frame hframe => ?_⟩
    rcases List.mem_append.mp hframe with hframe | hframe
    · exact emission_stops s _ frame hframe
    · rw [List.mem_singleton.mp hframe]
      rfl
  | closure hposted =>
    have hsame : s.stack = Function.update s.stack loop [] := by
      rw [← hidle, Function.update_eq_self]
    exact ⟨rfl, rfl, [], hsame, by simp⟩

/-! ## Waiting for the thread of the loop -/

/-- Every `join` is still preceded by its `io_service->stop()`. -/
inductive Heralded : List Frame → Prop where
  | nil : Heralded []
  | cons {frame : Frame} {frames : List Frame} (hstop : frame ≠ .ioStop) (hjoin : frame ≠ .join)
    (hjoining : frame ≠ .joining) (h : Heralded frames) : Heralded (frame :: frames)
  | stop {frames : List Frame} (h : Heralded frames) : Heralded (.ioStop :: .join :: frames)

theorem Heralded.rest {frame : Frame} {frames : List Frame} (h : Heralded (frame :: frames))
    (hframe : frame ≠ .ioStop) : Heralded frames := by
  cases h with
  | cons hstop hjoin hjoining hrest => exact hrest
  | stop hrest => exact absurd rfl hframe

/-- An exception leaves `io_service->stop()` and its `join` together. -/
theorem Heralded.unwound {frames : List Frame} (h : Heralded frames) : Heralded (unwind frames) := by
  induction h with
  | nil => exact .nil
  | @cons frame frames hstop hjoin hjoining h ih =>
    unfold unwind at ih ⊢
    rw [List.dropWhile_cons]
    split
    · exact ih
    · exact .cons hstop hjoin hjoining h
  | stop h ih => exact ih

/-- Calls that stop nothing begin. -/
theorem Heralded.quiet {new frames : List Frame} (hnew : ∀ frame ∈ new, frame.stops = false)
    (h : Heralded frames) : Heralded (new ++ frames) := by
  induction new with
  | nil => exact h
  | cons frame new ih =>
    obtain ⟨hframe, hnew⟩ := List.forall_mem_cons.mp hnew
    have hne : ∀ other : Frame, other.stops = true → frame ≠ other := by
      rintro other hother rfl
      rw [hframe] at hother
      cases hother
    exact .cons (hne .ioStop rfl) (hne .join rfl) (hne .joining rfl) (ih hnew)

omit [DecidableEq T] in
theorem Heralded.follows {frame : Frame} {frames : List Frame} (h : Heralded (frame :: frames))
    (hframe : frame ≠ .ioStop) (s : TcpClient T) : Heralded (s.follows frame ++ frames) := by
  have hrest := h.rest hframe
  cases hstops : frame.stops with
  | false => exact Heralded.quiet (follows_stops s hstops) hrest
  | true =>
    cases frame with
    | storageDisconnect =>
      simp only [TcpClient.follows]
      split
      · exact .cons (by simp) (by simp) (by simp) (.cons (by simp) (by simp) (by simp) hrest)
      · exact hrest
    | stop =>
      simp only [TcpClient.follows]
      split
      · exact .cons (by simp) (by simp) (by simp) (.stop hrest)
      · exact hrest
    | ioStop | joining => exact hrest
    | join =>
      cases h with
      | cons hstop hjoin hjoining h => exact absurd rfl hjoin
    | _ => cases hstops

/-- As long as nothing has asked the loop to end, no thread waits for it to. -/
def Asks (s : TcpClient T) : Prop := s.stopped = false → ∀ t, Heralded (s.stack t)

theorem Asks.updates {s s' : TcpClient T} {t : T} {frames : List Frame} (h : Asks s)
    (hstopped : s'.stopped = s.stopped) (hstack : s'.stack = Function.update s.stack t frames)
    (hframes : Heralded (s.stack t) → Heralded frames) : Asks s' := by
  intro hnot u
  have hheralded := h (hstopped.symm.trans hnot)
  rw [hstack]
  by_cases hu : u = t
  · subst hu
    rw [Function.update_self]
    exact hframes (hheralded u)
  · rw [Function.update_of_ne hu]
    exact hheralded u

theorem entry_heralded (op : Operation) {frames : List Frame} (h : Heralded frames) :
    Heralded (entry op :: frames) := by
  cases op <;> exact .cons (by simp [entry]) (by simp [entry]) (by simp [entry]) h

theorem Asks.dispatch {loop : T} {s s' : TcpClient T} {completion : Completion} (h : Asks s)
    (hidle : s.stack loop = []) (hs : TcpClient.Dispatches loop s completion s') : Asks s' := by
  obtain ⟨hstopped, -, frames, hstack, hframes⟩ := dispatch_quiet hidle hs
  refine h.updates hstopped hstack fun _ => ?_
  rw [← List.append_nil frames]
  exact Heralded.quiet hframes .nil

theorem Asks.step {loop : T} {s s' : TcpClient T} {a : Action T} (h : Asks s)
    (hs : TcpClient.step loop s a = some s') : Asks s' := by
  cases TcpClient.steps_of_step hs with
  | dispatch hrunning hidle hd => exact h.dispatch hidle hd
  | @call t op hidle hloop => exact h.updates rfl rfl fun _ => entry_heralded op .nil
  | @callback t event rest op hold =>
    refine h.updates rfl rfl fun hheralded => ?_
    rw [hold] at hheralded
    exact entry_heralded op hheralded
  | @returns t event rest hold =>
    refine h.updates rfl rfl fun hheralded => ?_
    rw [hold] at hheralded
    exact hheralded.rest (by simp)
  | @caught t event rest hold hunwind =>
    refine h.updates rfl rfl fun hheralded => ?_
    rw [hold] at hheralded
    exact (hheralded.rest (by simp)).unwound
  | escapes hold hunwind => exact h.updates rfl rfl fun _ => .nil
  | @advance t frame rest s' hold hadvance =>
    have hadvances := TcpClient.advances_of_advance hadvance
    by_cases hframe : frame = .ioStop
    · intro hnot
      rw [hadvances.asked hframe] at hnot
      cases hnot
    · refine h.updates (hadvances.stopped hframe) hadvances.stack fun hheralded => ?_
      rw [hold] at hheralded
      exact hheralded.follows hframe s
  | leave hidle => exact h
  | finish hended => exact h

/-! ## The handle of the thread -/

/-- Of the threads other than that of the loop, one at most calls `stop` and
`StorageClient::Disconnect`. -/
def OneStops (loop caller : T) : Action T → Prop
  | .call t op => t = loop ∨ t = caller ∨ op = .disconnect
  | _ => True

/-- Whoever waits in `join` finds the handle as it was when it looked at it. -/
structure Handle (loop caller : T) (s : TcpClient T) : Prop where
  others : ∀ t, t ≠ loop → t ≠ caller → ∀ frame ∈ s.stack t, frame.stops = false
  innermost : ∀ t, ∀ frame ∈ (s.stack t).tail, frame ≠ .joining
  joins : (s.stack caller).head? = some .joining → s.joinable = true

omit [DecidableEq T] in
theorem connected_handle (loop caller : T) : Handle loop caller (.connected : TcpClient T) where
  others := fun _ _ _ _ hframe => by cases hframe
  innermost := fun _ _ hframe => by cases hframe
  joins := fun _ => rfl

/-- A thread leaves some of its calls and begins others. -/
theorem Handle.goes {loop caller t : T} {s s' : TcpClient T} (h : Handle loop caller s)
    (new rest : List Frame) (hstack : s'.stack = Function.update s.stack t (new ++ rest))
    (hrest : ∀ frame ∈ rest, frame ∈ (s.stack t).tail)
    (hstops : t ≠ loop → t ≠ caller → ∀ frame ∈ new, frame.stops = false)
    (hnew : (∀ frame ∈ new, frame ≠ .joining) ∨ new = [.joining] ∧ s'.joinable = true)
    (hkeeps : t ≠ caller → s'.joinable = s.joinable) : Handle loop caller s' := by
  have hself : s'.stack t = new ++ rest := by rw [hstack, Function.update_self]
  have hother : ∀ u, u ≠ t → s'.stack u = s.stack u := by
    intro u hu
    rw [hstack, Function.update_of_ne hu]
  have hbelow : ∀ frame ∈ rest, frame ≠ .joining := fun frame hframe =>
    h.innermost t frame (hrest frame hframe)
  constructor
  · intro u hloop hcaller frame hframe
    by_cases hu : u = t
    · subst hu
      rw [hself] at hframe
      rcases List.mem_append.mp hframe with hframe | hframe
      · exact hstops hloop hcaller frame hframe
      · exact h.others u hloop hcaller frame (List.mem_of_mem_tail (hrest frame hframe))
    · rw [hother u hu] at hframe
      exact h.others u hloop hcaller frame hframe
  · intro u frame hframe
    by_cases hu : u = t
    · subst hu
      rw [hself] at hframe
      rcases hnew with hnew | ⟨rfl, -⟩
      · exact (List.mem_append.mp (List.mem_of_mem_tail hframe)).elim (hnew frame) (hbelow frame)
      · exact hbelow frame hframe
    · rw [hother u hu] at hframe
      exact h.innermost u frame hframe
  · intro hhead
    by_cases hu : caller = t
    · subst hu
      rw [hself] at hhead
      rcases hnew with hnew | ⟨-, hjoinable⟩
      · have hmem := List.mem_of_mem_head? (Option.mem_def.mpr hhead)
        exact absurd rfl ((List.mem_append.mp hmem).elim (hnew _) (hbelow _))
      · exact hjoinable
    · rw [hother caller hu] at hhead
      rw [hkeeps (Ne.symm hu)]
      exact h.joins hhead

theorem ne_joining_of_stops {frame : Frame} (h : frame.stops = false) : frame ≠ .joining := by
  rintro rfl
  cases h

omit [DecidableEq T] in
/-- A call goes on to `std::thread::join` only where the handle is joinable. -/
theorem follows_joining (s : TcpClient T) (frame : Frame) :
    (∀ f ∈ s.follows frame, f ≠ .joining) ∨ s.follows frame = [.joining] ∧ s.joinable = true := by
  cases hstops : frame.stops with
  | false => exact Or.inl fun f hf => ne_joining_of_stops (follows_stops s hstops f hf)
  | true =>
    cases frame with
    | join =>
      cases hjoinable : s.joinable with
      | false => simp [TcpClient.follows, hjoinable]
      | true => simp [TcpClient.follows, hjoinable]
    | storageDisconnect | stop =>
      left
      simp only [TcpClient.follows]
      split <;> simp
    | ioStop | joining => exact Or.inl fun f hf => by cases hf
    | _ => cases hstops

theorem Handle.quiet {loop caller t : T} {s s' : TcpClient T} (h : Handle loop caller s)
    {frames : List Frame} (hstack : s'.stack = Function.update s.stack t frames)
    (hframes : ∀ frame ∈ frames, frame.stops = false) (hjoinable : s'.joinable = s.joinable) :
    Handle loop caller s' :=
  h.goes frames [] (by rw [List.append_nil]; exact hstack) (by simp) (fun _ _ => hframes)
    (Or.inl fun frame hframe => ne_joining_of_stops (hframes frame hframe)) fun _ => hjoinable

theorem Handle.dispatch {loop caller : T} {s s' : TcpClient T} {completion : Completion}
    (h : Handle loop caller s) (hidle : s.stack loop = [])
    (hs : TcpClient.Dispatches loop s completion s') : Handle loop caller s' := by
  obtain ⟨-, hjoinable, frames, hstack, hframes⟩ := dispatch_quiet hidle hs
  exact h.quiet hstack hframes hjoinable

theorem entry_stops {op : Operation} (h : op = .disconnect) : (entry op).stops = false := by
  rw [h]
  rfl

theorem entry_ne_joining (op : Operation) : entry op ≠ .joining := by
  cases op <;> simp [entry]

theorem Handle.advance {loop caller t : T} {s s' : TcpClient T} {frame : Frame} {rest : List Frame}
    (h : Handle loop caller s) (hold : s.stack t = frame :: rest)
    (hs : s.advance loop t rest frame = some s') : Handle loop caller s' := by
  have hadvances := TcpClient.advances_of_advance hs
  have hmem : frame ∈ s.stack t := by
    rw [hold]
    exact List.mem_cons_self
  have hjoins : t ≠ caller → frame = .joining → t = loop := by
    rintro hcaller rfl
    by_contra hloop
    have hstops := h.others t hloop hcaller _ hmem
    cases hstops
  refine h.goes (s.follows frame) rest hadvances.stack (fun f hf => by rwa [hold]) ?_ ?_
    fun hcaller => TcpClient.joinable_of_advance hs (hjoins hcaller)
  · intro hloop hcaller
    exact follows_stops s (h.others t hloop hcaller frame hmem)
  · refine (follows_joining s frame).imp_right fun ⟨hfollows, hjoinable⟩ => ⟨hfollows, ?_⟩
    have hne : frame ≠ .joining := by
      rintro rfl
      cases hfollows
    rw [TcpClient.joinable_of_advance hs fun heq => absurd heq hne, hjoinable]

theorem Handle.step {loop caller : T} {s s' : TcpClient T} {a : Action T} (h : Handle loop caller s)
    (hstops : OneStops loop caller a) (hs : TcpClient.step loop s a = some s') :
    Handle loop caller s' := by
  have hentry : ∀ {t : T} {op : Operation}, OneStops loop caller (.call t op) → t ≠ loop →
      t ≠ caller → (entry op).stops = false := fun hstops hloop hcaller =>
    entry_stops ((hstops.resolve_left hloop).resolve_left hcaller)
  cases TcpClient.steps_of_step hs with
  | dispatch hrunning hidle hd => exact h.dispatch hidle hd
  | @call t op hidle hloop =>
    refine h.goes [entry op] [] rfl (by simp) (fun hloop hcaller => ?_) (Or.inl ?_) fun _ => rfl
    · simpa using hentry hstops hloop hcaller
    · simpa using entry_ne_joining op
  | @callback t event rest op hold =>
    refine h.goes [entry op, .listening event] rest rfl (by simp [hold]) (fun hloop hcaller => ?_)
      (Or.inl ?_) fun _ => rfl
    · simpa [Frame.stops] using hentry hstops hloop hcaller
    · simpa using entry_ne_joining op
  | @returns t event rest hold =>
    exact h.goes [] rest rfl (by simp [hold]) (by simp) (Or.inl (by simp)) fun _ => rfl
  | @caught t event rest hold hunwind =>
    refine h.goes [] (unwind rest) rfl (fun frame hframe => ?_) (by simp) (Or.inl (by simp)) fun _ => rfl
    rw [hold]
    exact (List.dropWhile_sublist _).subset hframe
  | @escapes t event rest hold hunwind =>
    exact h.goes [] [] rfl (by simp) (by simp) (Or.inl (by simp)) fun _ => rfl
  | advance hold hadvance => exact h.advance hold hadvance
  | leave hidle | finish hended => exact ⟨h.others, h.innermost, h.joins⟩

/-! ## At rest -/

/-- All calls have ended, and so has the event loop, or it waits for an operation of the connection. -/
structure AtRest (s : TcpClient T) : Prop where
  calls : ∀ t, s.stack t = []
  loop : s.running = false ∧ s.started_status = false ∨
    s.running = true ∧ s.stopped = false ∧ s.posted = 0 ∧ (s.connecting = true ∨ s.reading = true)

/-- Where nothing goes on, a thread can only wait for that of the loop. -/
theorem busy_waits {loop caller t : T} {s : TcpClient T} (hhandle : Handle loop caller s)
    (hstuck : ∀ a, s.proceed loop a = none) {frame : Frame} {rest : List Frame}
    (hold : s.stack t = frame :: rest) : frame = .joining ∧ t ≠ loop ∧ s.started_status = true := by
  have hlistens : ∀ event, frame ≠ .listening event := by
    rintro event rfl
    have hreturns := hstuck (.returns t)
    simp [TcpClient.proceed, TcpClient.step, hold] at hreturns
  have hwaits : ¬ (frame = .joining → t = loop ∨ s.started_status = false ∧ s.joinable = true) := by
    intro hgoes
    obtain ⟨s', hs'⟩ := TcpClient.advance_some (t := t) rest hlistens hgoes
    have hadvance := hstuck (.advance t)
    simp only [TcpClient.proceed, TcpClient.step, hold] at hadvance
    rw [hs'] at hadvance
    cases hadvance
  obtain ⟨rfl, hstays⟩ := Classical.not_imp.mp hwaits
  obtain ⟨hne, hstarted⟩ := not_or.mp hstays
  have hcaller : t = caller := by
    by_contra hcaller
    have hstops := hhandle.others t hne hcaller .joining (by simp [hold])
    cases hstops
  subst hcaller
  have hjoinable := hhandle.joins (by rw [hold]; rfl)
  exact ⟨rfl, hne, by simpa [hjoinable] using hstarted⟩

/-- Where nothing goes on, the loop's thread has ended, or it runs and cannot leave `run()`. -/
theorem loop_waits {loop caller : T} {s : TcpClient T} (hhandle : Handle loop caller s)
    (hstuck : ∀ a, s.proceed loop a = none) (hstarted : s.started_status = true) :
    s.running = true ∧ s.stopped = false ∧ s.posted = 0 ∧
      (s.connecting = true ∨ s.reading = true) := by
  have hidle : s.stack loop = [] := by
    cases hold : s.stack loop with
    | nil => rfl
    | cons frame rest => exact absurd rfl (busy_waits hhandle hstuck hold).2.1
  have hrunning : s.running = true := by
    by_contra hended
    have hfinish := hstuck .finish
    simp [TcpClient.proceed, TcpClient.step, hstarted, hended] at hfinish
  have hposted : s.posted = 0 := by
    have hclosure := hstuck (.dispatch .closure)
    cases hposted : s.posted with
    | zero => rfl
    | succ n =>
      simp [TcpClient.proceed, TcpClient.step, TcpClient.dispatch, hrunning, hidle, hposted] at hclosure
  have hleave := hstuck .leave
  simp only [TcpClient.proceed, TcpClient.step, hrunning, hidle, hposted, true_and, and_true,
    ite_eq_right_iff, reduceCtorEq, imp_false, not_or, not_and] at hleave
  refine ⟨hrunning, by simpa using hleave.1, hposted, ?_⟩
  cases hconnecting : s.connecting with
  | true => exact Or.inl rfl
  | false => exact Or.inr (by simpa using hleave.2 hconnecting)

theorem atRest_of_stuck {loop caller : T} {s : TcpClient T} (hasks : Asks s)
    (hhandle : Handle loop caller s) (hended : s.started_status = false → s.running = false)
    (hstuck : ∀ a, s.proceed loop a = none) :
    AtRest s := by
  constructor
  · intro t
    cases hold : s.stack t with
    | nil => rfl
    | cons frame rest =>
      obtain ⟨rfl, -, hstarted⟩ := busy_waits hhandle hstuck hold
      have hheralded := hasks (loop_waits hhandle hstuck hstarted).2.1 t
      rw [hold] at hheralded
      cases hheralded with
      | cons hstop hjoin hjoining h => exact absurd rfl hjoining
  · cases hstarted : s.started_status with
    | false => exact Or.inl ⟨hended hstarted, rfl⟩
    | true => exact Or.inr (loop_waits hhandle hstuck hstarted)

theorem AtRest.stuck {loop : T} {s : TcpClient T} (h : AtRest s) (a : Action T) :
    s.proceed loop a = none := by
  cases a with
  | advance t | returns t => simp [TcpClient.proceed, TcpClient.step, h.calls t]
  | dispatch completion =>
    cases completion with
    | closure =>
      rcases h.loop with ⟨hended, -⟩ | ⟨hrunning, -, hposted, -⟩
      · simp [TcpClient.proceed, TcpClient.step, hended]
      · simp [TcpClient.proceed, TcpClient.step, TcpClient.dispatch, hposted]
    | _ => rfl
  | leave =>
    rcases h.loop with ⟨hended, -⟩ | ⟨hrunning, hstopped, -, hwaits⟩
    · simp [TcpClient.proceed, TcpClient.step, hended]
    · rcases hwaits with hwaits | hwaits
      · simp [TcpClient.proceed, TcpClient.step, hstopped, hwaits]
      · simp [TcpClient.proceed, TcpClient.step, hstopped, hwaits]
  | finish =>
    rcases h.loop with ⟨-, hended⟩ | ⟨hrunning, -⟩
    · simp [TcpClient.proceed, hended]
    · simp [TcpClient.proceed, TcpClient.step, hrunning]
  | _ => rfl

/-- A step touches the stack of one thread. -/
theorem step_stack {loop : T} {s s' : TcpClient T} {a : Action T}
    (hs : TcpClient.step loop s a = some s') :
    ∃ t frames, s'.stack = Function.update s.stack t frames := by
  have hsame : ∃ t frames, s.stack = Function.update s.stack t frames :=
    ⟨loop, s.stack loop, (Function.update_eq_self loop s.stack).symm⟩
  cases TcpClient.steps_of_step hs with
  | dispatch hrunning hidle hd =>
    cases hd with
    | closure hposted => exact hsame
    | _ => exact ⟨loop, _, rfl⟩
  | @call t op hidle hloop => exact ⟨t, _, rfl⟩
  | @callback t event rest op hold => exact ⟨t, _, rfl⟩
  | @returns t event rest hold => exact ⟨t, _, rfl⟩
  | @caught t event rest hold hunwind => exact ⟨t, _, rfl⟩
  | @escapes t event rest hold hunwind => exact ⟨t, _, rfl⟩
  | @advance t frame rest s' hold hadvance =>
    exact ⟨t, _, (TcpClient.advances_of_advance hadvance).stack⟩
  | leave hidle => exact hsame
  | finish hended => exact hsame

/-- At any time only finitely many threads are in a call. -/
theorem exists_active {loop : T} {as : List (Action T)} {s : TcpClient T}
    (hrun : run (TcpClient.step loop) .connected as = some s) :
    ∃ active : Finset T, ∀ t, t ∉ active → s.stack t = [] := by
  refine run_invariant (I := fun s => ∃ active : Finset T, ∀ t, t ∉ active → s.stack t = []) ?_
    ⟨∅, fun _ _ => rfl⟩ hrun
  rintro s a s' ⟨active, hactive⟩ hs
  obtain ⟨t, frames, hstack⟩ := step_stack hs
  refine ⟨insert t active, fun u hu => ?_⟩
  obtain ⟨hne, hnot⟩ := not_or.mp fun h => hu (Finset.mem_insert.mpr h)
  rw [hstack, Function.update_of_ne hne]
  exact hactive u hnot

omit [DecidableEq T] in
theorem connected_asks : Asks (TcpClient.connected : TcpClient T) := fun _ _ => .nil

/-- The thread of the loop ends after `run()` has. -/
theorem ended_step {loop : T} {s s' : TcpClient T} {a : Action T}
    (h : s.started_status = false → s.running = false) (hs : TcpClient.step loop s a = some s') :
    s'.started_status = false → s'.running = false := by
  cases TcpClient.steps_of_step hs with
  | dispatch hrunning hidle hd => cases hd <;> exact h
  | advance hold hadvance =>
    have hadvances := TcpClient.advances_of_advance hadvance
    intro hended
    rw [hadvances.started_status] at hended
    cases hrunning : s'.running with
    | false => rfl
    | true =>
      have hran := hadvances.running hrunning
      rw [h hended] at hran
      cases hran
  | escapes hold hunwind =>
    intro hended
    exact Bool.and_eq_false_imp.mpr fun hrunning => absurd (h hended) (by simp [hrunning])
  | leave hidle => exact fun _ => rfl
  | finish hended => exact fun _ => hended
  | _ => exact h

theorem step_of_proceed {loop : T} {s s' : TcpClient T} {a : Action T}
    (h : s.proceed loop a = some s') : TcpClient.step loop s a = some s' := by
  cases a with
  | advance t | returns t | leave => exact h
  | dispatch completion =>
    cases completion with
    | closure => exact h
    | _ => cases h
  | finish =>
    simp only [TcpClient.proceed] at h
    split at h
    · exact h
    · cases h
  | _ => cases h

/-- What goes on by itself is no new call. -/
theorem oneStops_of_proceed {loop caller : T} {s s' : TcpClient T} {a : Action T}
    (h : s.proceed loop a = some s') : OneStops loop caller a := by
  cases a with
  | call t op => cases h
  | _ => trivial

/-- **The client comes to rest.** From every state of every run in which one thread at most, besides that
of the loop, calls `stop`, what goes on by itself ends after a number of steps that the state bounds, and
nothing of it is possible any more exactly where all calls of all threads have ended, and the event loop
too, unless it still waits for the connection and nobody has stopped it. -/
theorem calls_settle (loop caller : T) (as : List (Action T)) (s : TcpClient T)
    (hrun : run (TcpClient.step loop) .connected as = some s)
    (hstops : ∀ a ∈ as, OneStops loop caller a) :
    ∃ n, ∀ bs s', run (TcpClient.proceed loop) s bs = some s' →
      bs.length ≤ n ∧ ((∀ a, s'.proceed loop a = none) ↔ AtRest s') := by
  have hasks : Asks s := run_invariant (fun _ _ _ hI hs => hI.step hs) connected_asks hrun
  have hhandle : Handle loop caller s :=
    run_of_labels (fun _ _ _ hI hA hs => hI.step hA hs) (connected_handle loop caller) hstops hrun
  have hended : s.started_status = false → s.running = false :=
    run_invariant (I := fun s : TcpClient T => s.started_status = false → s.running = false)
      (fun _ _ _ hI hs => ended_step hI hs) (by simp [TcpClient.connected]) hrun
  obtain ⟨active, hactive⟩ := exists_active hrun
  refine ⟨remaining active s, fun bs s' hproceeds => ⟨?_, fun hstuck => ?_, fun h a => h.stuck a⟩⟩
  · have hlength := length_le_of_decreasing (I := fun s => ∀ t, t ∉ active → s.stack t = [])
      (A := fun _ => True) (μ := remaining active) (fun _ _ _ hI _ hs => remaining_lt hI hs) hactive
      (fun _ _ => trivial) hproceeds
    omega
  · have hasks' : Asks s' :=
      run_invariant (fun _ _ _ hI hs => hI.step (step_of_proceed hs)) hasks hproceeds
    have hhandle' : Handle loop caller s' :=
      run_invariant (fun _ _ _ hI hs => hI.step (oneStops_of_proceed hs) (step_of_proceed hs)) hhandle
        hproceeds
    have hended' : s'.started_status = false → s'.running = false :=
      run_invariant (I := fun s : TcpClient T => s.started_status = false → s.running = false)
        (fun _ _ _ hI hs => ended_step hI (step_of_proceed hs)) hended hproceeds
    exact atRest_of_stuck hasks' hhandle' hended' hstuck

end Settling

/-- A listener of the event loop calls `stop`, whose `join` throws, while another thread calls it. -/
def stopsTwice : List (Action Bool) :=
  [.dispatch (.connect none), .advance true, .call true .stop, .call false .stop, .advance false]

def settles : List (Action Bool) :=
  [.advance true, .advance true, .advance true, .returns true, .advance true, .advance true,
    .advance true, .advance true, .returns true, .advance false, .advance false, .returns false,
    .advance false, .advance false, .advance false, .leave, .finish, .advance false]

theorem calls_settle_stopsTwice : ∃ s s' n,
    run (TcpClient.step true) TcpClient.connected stopsTwice = some s ∧
      run (TcpClient.proceed true) s settles = some s' ∧ settles.length ≤ n ∧
        ∀ a, s'.proceed true a = none := by
  have hstops : (run (TcpClient.step true) TcpClient.connected stopsTwice).isSome = true := by
    decide +kernel
  obtain ⟨s, hs⟩ := Option.isSome_iff_exists.mp hstops
  have hsettles : (((run (TcpClient.step true) TcpClient.connected stopsTwice).bind fun s =>
      run (TcpClient.proceed true) s settles).map fun s' =>
        (s'.stack true, s'.stack false, s'.running, s'.started_status)) =
      some ([], [], false, false) := by decide +kernel
  rw [hs] at hsettles
  obtain ⟨s', hs', hfields⟩ := Option.map_eq_some_iff.mp hsettles
  simp only [Prod.mk.injEq] at hfields
  obtain ⟨hloop, hother, hended, hfinished⟩ := hfields
  have hrest : AtRest s' := ⟨fun t => by cases t <;> assumption, Or.inl ⟨hended, hfinished⟩⟩
  obtain ⟨n, hn⟩ := calls_settle true false stopsTwice s hs
    (by simp [stopsTwice, OneStops])
  obtain ⟨hlength, hstuck⟩ := hn settles s' hs'
  exact ⟨s, s', n, hs, hs', hlength, hstuck.mpr hrest⟩

end Diginext.Client
