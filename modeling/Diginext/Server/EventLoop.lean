import Diginext.Server.Registry

/-! # Runs of the event loop

`Orderly` is kept by every step of the one thread (`Orderly.step`): what the innermost call needs of
the registry is what the step before it has looked up, and nothing can have changed since. The
identifiers have to be distinct up to the end of the run only.
-/
namespace Diginext.Server
open Cpp Transition
set_option autoImplicit false

variable {U : Type}

/-- The calls that can be waiting for a call of their own. -/
def Frame.waiting : Frame U → Bool
  | disconnectEach _ | post _ | reading _ _ | writing _ | listening _ | finishAccept => true
  | _ => false

/-- The connection that the innermost call has erased and not yet announced. -/
def pendingOf : List (Frame U) → Option Connection
  | .recheck p :: _ => some p
  | .emit (.onDisconnected p) :: _ => some p
  | _ => none

/-- What the innermost call relies on. -/
def Ready (s : TcpServer Unit U) : Frame U → Prop
  | .dropSlots _ p => p ∈ s.connections
  | .erase p => p ∈ s.connections
  | .emit event => (∃ p, event = .onDisconnected p) ∨
      (event.isNotice = true ∧ event.connection ∈ s.connections)
  | .register c => Unseen c s.raised ∧ c < s.created ∧ s.accepting = none
  | _ => True

structure Orderly (s : TcpServer Unit U) : Prop where
  book : Book s (pendingOf (s.stack ()))
  innermost : ∀ frame rest, s.stack () = frame :: rest → Ready s frame
  below : ∀ frame ∈ (s.stack ()).tail, frame.waiting = true

/-! ## Calls that begin and end -/

theorem Book.setStack {s : TcpServer Unit U} {pending : Option Connection} (h : Book s pending)
    (frames : List (Frame U)) : Book (s.setStack () frames) pending :=
  h.congr rfl rfl rfl fun _ hc => hc

theorem ready_setStack (s : TcpServer Unit U) (frames : List (Frame U)) (frame : Frame U) :
    Ready (s.setStack () frames) frame ↔ Ready s frame := by
  cases frame <;> exact Iff.rfl

theorem waiting_ready (s : TcpServer Unit U) {frame : Frame U} (rest : List (Frame U))
    (h : frame.waiting = true) : Ready s frame ∧ pendingOf (frame :: rest) = none := by
  cases frame with
  | disconnectEach _ | post _ | reading _ _ | writing _ | listening _ | finishAccept =>
    exact ⟨trivial, rfl⟩
  | _ => cases h

theorem Orderly.enter {s : TcpServer Unit U} {frame : Frame U} {rest : List (Frame U)}
    (h : Book s (pendingOf (frame :: rest))) (hready : Ready s frame)
    (hrest : ∀ f ∈ rest, f.waiting = true) : Orderly (s.setStack () (frame :: rest)) where
  book := by
    rw [TcpServer.setStack_self]
    exact h.setStack _
  innermost := by
    intro f r hf
    rw [TcpServer.setStack_self, List.cons.injEq] at hf
    rw [ready_setStack, ← hf.1]
    exact hready
  below := by
    rw [TcpServer.setStack_self]
    exact hrest

/-- The innermost call ends, or leaves only calls that were waiting for it. -/
theorem Orderly.resume {s : TcpServer Unit U} {frames : List (Frame U)} (h : Book s none)
    (hframes : ∀ f ∈ frames, f.waiting = true) : Orderly (s.setStack () frames) := by
  cases frames with
  | nil =>
    constructor
    · rw [TcpServer.setStack_self]
      exact h.setStack _
    · intro f r hf
      rw [TcpServer.setStack_self] at hf
      cases hf
    · rw [TcpServer.setStack_self]
      simp
  | cons frame rest =>
    obtain ⟨hwaiting, hrest⟩ := List.forall_mem_cons.mp hframes
    obtain ⟨hready, hpending⟩ := waiting_ready s rest hwaiting
    exact Orderly.enter (by rw [hpending]; exact h) hready hrest

theorem Orderly.emission {s : TcpServer Unit U} {handler : Frame U} {rest : List (Frame U)}
    (h : Book s none) (c : Connection) (signal : Signal) (hready : Ready s handler)
    (hpending : pendingOf (handler :: rest) = none) (hrest : ∀ f ∈ rest, f.waiting = true) :
    Orderly (s.setStack () (s.emission c signal handler ++ rest)) := by
  unfold TcpServer.emission
  split
  · rw [List.singleton_append]
    exact Orderly.enter (by rw [hpending]; exact h) hready hrest
  · rw [List.nil_append]
    exact Orderly.resume h hrest

/-! ## One step -/

variable [DecidableEq U] {uuid : Connection → U}

theorem Orderly.follows {s : TcpServer Unit U} {frame : Frame U} {new rest : List (Frame U)}
    (h : Book s none) (hrest : ∀ f ∈ rest, f.waiting = true)
    (hf : TcpServer.Follows uuid s frame new) : Orderly (s.setStack () (new ++ rest)) := by
  cases hf with
  | notFound _ | noneLeft | ignored _ | written _ => exact Orderly.resume h hrest
  | found _ | copied => exact Orderly.enter h trivial hrest
  | each c cs => exact Orderly.enter h trivial (List.forall_mem_cons.mpr ⟨rfl, hrest⟩)
  | stop c =>
    rw [← List.append_cons]
    exact Orderly.emission h c .onDisconnected trivial rfl (List.forall_mem_cons.mpr ⟨rfl, hrest⟩)
  | message c msg messages =>
    rw [← List.append_cons]
    exact Orderly.emission h c .onReadMessage trivial rfl (List.forall_mem_cons.mpr ⟨rfl, hrest⟩)
  | @passed c p notice hfound =>
    have hp := (TcpServer.getConnectionByUUID_some hfound).1
    cases notice <;> exact Orderly.enter h (Or.inr ⟨rfl, hp⟩) hrest

theorem Orderly.advance {s s' : TcpServer Unit U} (h : Orderly s) (hdistinct : Distinct uuid s.created)
    {frame : Frame U} {rest : List (Frame U)} (hstack : s.stack () = frame :: rest)
    (hs : s.advance uuid () rest frame = some s') : Orderly s' := by
  have hbook := h.book
  have hready := h.innermost frame rest hstack
  have hrest : ∀ f ∈ rest, f.waiting = true := by
    have hbelow := h.below
    rwa [hstack] at hbelow
  rw [hstack] at hbook
  cases TcpServer.advances_of_advance uuid hs with
  | follows hf => exact Orderly.follows (by cases hf <;> exact hbook) hrest hf
  | post c => exact Orderly.resume (hbook.congr rfl rfl rfl fun _ hc => hc) hrest
  | found hfound =>
    exact Orderly.enter hbook (TcpServer.getConnectionByUUID_some hfound).1 hrest
  | notFound _ => exact Orderly.resume hbook hrest
  | dropSlots c p =>
    exact Orderly.enter (hbook.congr rfl rfl rfl fun _ hc => hc) hready hrest
  | erase p => exact Orderly.enter (hbook.erase hdistinct hready) trivial hrest
  | @again p q hfound =>
    rw [hbook.erased hdistinct] at hfound
    cases hfound
  | @removed p hnone => exact Orderly.enter hbook (Or.inl ⟨p, rfl⟩) hrest
  | emit event =>
    have hraised : Book { s with raised := s.raised ++ [event] } none := by
      rcases hready with ⟨p, rfl⟩ | ⟨hnotice, hmem⟩
      · exact hbook.disconnected
      · cases event with
        | onDisconnected p => cases hnotice
        | _ => exact Book.notice hbook hnotice hmem
    exact Orderly.enter hraised trivial hrest
  | read c => exact Orderly.resume (hbook.congr rfl rfl rfl fun _ hc => hc) hrest
  | register c hsync =>
    obtain ⟨hunseen, hlt, hidle⟩ := hready
    exact Orderly.resume (hbook.accept hunseen hlt hidle)
      (List.forall_mem_cons.mpr ⟨rfl, List.forall_mem_cons.mpr ⟨rfl, hrest⟩⟩)
  | finishAccept => exact Orderly.resume hbook.startAccept hrest

omit [DecidableEq U] in
theorem Orderly.dispatch {s s' : TcpServer Unit U} (h : Orderly s) (hstack : s.stack () = [])
    {completion : Completion} (haccept : ∀ error, completion ≠ .accept (some error))
    (hs : TcpServer.Dispatches () s completion s') : Orderly s' := by
  have hbook := h.book
  rw [hstack] at hbook
  cases hs with
  | accept hc =>
    obtain ⟨hunseen, hlt⟩ := hbook.offered _ hc
    have hidle : Book { s with accepting := none } none :=
      hbook.congr rfl rfl rfl fun _ hd => by cases hd
    exact Orderly.enter hidle ⟨hunseen, hlt, rfl⟩ (by simp)
  | acceptError error hc => exact absurd rfl (haccept error)
  | read messages hc =>
    exact Orderly.resume (hbook.congr rfl rfl rfl fun _ hd => hd) (by simp [Frame.waiting])
  | @readError c error n hc =>
    have hread : Book { s with reading := Function.update s.reading c false } none :=
      hbook.congr rfl rfl rfl fun _ hd => hd
    unfold TcpServer.handleReadError
    split
    · rw [← List.append_nil (TcpServer.emission _ _ _ _)]
      exact Orderly.emission hread c .onDisconnected trivial rfl (by simp)
    · rw [← List.append_nil (TcpServer.emission _ _ _ _)]
      exact Orderly.emission hread c .onReadError trivial rfl (by simp)
  | writeError c error n =>
    exact Orderly.emission hbook c .onSendError trivial rfl (by simp [Frame.waiting])
  | closure hc =>
    constructor
    · rw [hstack]
      exact hbook.congr rfl rfl rfl fun _ hd => hd
    · intro f r hf
      rw [hstack] at hf
      cases hf
    · rw [hstack]
      simp

omit [DecidableEq U] in
theorem entry_ready (uuid : Connection → U) (s : TcpServer Unit U) (op : Operation U)
    (rest : List (Frame U)) :
    Ready s (TcpServer.entry uuid op) ∧ pendingOf (TcpServer.entry uuid op :: rest) = none := by
  cases op <;> exact ⟨trivial, rfl⟩

/-- **Every step of the event loop keeps the registry in order.** -/
theorem Orderly.step {s s' : TcpServer Unit U} {a : Action Unit U} (h : Orderly s)
    (hdistinct : Distinct uuid s.created) (ha : ∀ error, a ≠ .dispatch (.accept (some error)))
    (hs : TcpServer.step uuid () s a = some s') : Orderly s' := by
  have hbook := h.book
  have hbelow := h.below
  cases TcpServer.steps_of_step uuid hs with
  | dispatch hrunning hidle hd => exact h.dispatch hidle (fun error hc => ha error (by rw [hc])) hd
  | call op hidle hloop =>
    obtain ⟨hready, hpending⟩ := entry_ready uuid s op []
    rw [hidle] at hbook
    exact Orderly.enter (by rw [hpending]; exact hbook) hready (by simp)
  | @callback t event rest op hstack =>
    obtain ⟨hready, hpending⟩ := entry_ready uuid s op (.listening event :: rest)
    rw [hstack] at hbook hbelow
    exact Orderly.enter (by rw [hpending]; exact hbook) hready
      (List.forall_mem_cons.mpr ⟨rfl, hbelow⟩)
  | returns hstack =>
    rw [hstack] at hbook hbelow
    exact Orderly.resume hbook hbelow
  | caught hstack hframes =>
    rw [hstack] at hbook hbelow
    exact Orderly.resume hbook fun f hf => hbelow f ((List.dropWhile_suffix _).subset hf)
  | escapes hstack hframes =>
    rw [hstack] at hbook
    exact Orderly.resume (hbook.congr rfl rfl rfl fun _ hd => hd) (by simp)
  | advance hstack hadvance => exact h.advance hdistinct hstack hadvance

/-! ## Connections are only ever created -/

theorem advance_created {T : Type} [DecidableEq T] {s s' : TcpServer T U} {t : T} {frame : Frame U}
    {rest : List (Frame U)} (hs : s.advance uuid t rest frame = some s') :
    s.created ≤ s'.created := by
  cases TcpServer.advances_of_advance uuid hs with
  | finishAccept => exact Nat.le_succ _
  | _ => exact Nat.le_refl _

theorem step_created {T : Type} [DecidableEq T] {s s' : TcpServer T U} {loop : T} {a : Action T U}
    (hs : TcpServer.step uuid loop s a = some s') : s.created ≤ s'.created := by
  cases TcpServer.steps_of_step uuid hs with
  | dispatch hrunning hidle hd => cases hd <;> exact Nat.le_refl _
  | call _ _ _ | callback _ _ | returns _ | caught _ _ | escapes _ _ => exact Nat.le_refl _
  | advance hstack hadvance => exact advance_created hadvance

theorem run_created {T : Type} [DecidableEq T] {s s' : TcpServer T U} {loop : T}
    {as : List (Action T U)} (hrun : run (TcpServer.step uuid loop) s as = some s') :
    s.created ≤ s'.created :=
  run_invariant (I := fun s' => s.created ≤ s'.created)
    (fun _ _ _ hI hs => Nat.le_trans hI (step_created hs)) (Nat.le_refl _) hrun

/-! ## Whole runs -/

omit [DecidableEq U] in
theorem started_orderly : Orderly (TcpServer.started : TcpServer Unit U) where
  book := started_book
  innermost := by
    intro frame rest h
    cases h
  below := by
    intro frame h
    cases h

theorem orderly_run {s s' : TcpServer Unit U} {as : List (Action Unit U)} (h : Orderly s)
    (hrun : run (TcpServer.step uuid ()) s as = some s')
    (haccepts : ∀ error, .dispatch (.accept (some error)) ∉ as)
    (hdistinct : Distinct uuid s'.created) :
    Orderly s' := by
  induction as generalizing s with
  | nil =>
    cases hrun
    exact h
  | cons a as ih =>
    obtain ⟨s₁, hstep, hrest⟩ := run_cons_eq.mp hrun
    have hle : s.created ≤ s'.created := run_created hrun
    have hdistinct' : Distinct uuid s.created := fun c d hc hd =>
      hdistinct c d (Nat.lt_of_lt_of_le hc hle) (Nat.lt_of_lt_of_le hd hle)
    have ha : ∀ error, a ≠ .dispatch (.accept (some error)) := by
      rintro error rfl
      exact haccepts error (List.mem_cons_self ..)
    have has : ∀ error, .dispatch (.accept (some error)) ∉ as := fun error hmem =>
      haccepts error (List.mem_cons_of_mem a hmem)
    exact ih (h.step hdistinct' ha hstep) hrest has

/-- **The registry and the event protocol.** In every run of the event loop alone in which no accept
fails: whenever the loop has completed an event, `connections` are the accepted connections that have
not been disconnected, in the order in which they were accepted; and at any time the events of each
connection follow the protocol. -/
theorem registry_protocol (uuid : Connection → U) (as : List (Action Unit U)) (s : TcpServer Unit U)
    (hrun : run (TcpServer.step uuid ()) TcpServer.started as = some s)
    (haccepts : ∀ error, .dispatch (.accept (some error)) ∉ as)
    (hdistinct : Distinct uuid s.created) :
    (s.stack () = [] →
      s.connections = (accepted s.raised).filter fun c => .onDisconnected c ∉ s.raised) ∧
      s.connections.Nodup ∧ ∀ c, Protocol c s.raised := by
  have h := orderly_run started_orderly hrun haccepts hdistinct
  have hbook := h.book
  refine ⟨?_, hbook.nodup.sublist hbook.order, fun c => protocol_of_phase (hbook.phase c)⟩
  intro hidle
  rw [hidle] at hbook
  apply eq_filter_of_sublist _ hbook.order hbook.nodup
  intro c
  rw [hbook.members c, mem_accepted, decide_eq_true_eq]
  constructor
  · rintro ⟨hopen, -⟩
    exact ⟨hopen.accepted_mem, hopen.disconnected_not_mem⟩
  · rintro ⟨hmem, hnot⟩
    refine ⟨?_, by simp [pendingOf]⟩
    rcases hbook.phase c with hunseen | hopen | hclosed
    · exact absurd hmem (hunseen.not_mem rfl)
    · exact hopen
    · exact absurd hclosed.disconnected_mem hnot

/-- A connection is accepted; its first message makes the listener disconnect it, so that the second
is not raised; a second connection is accepted and stays. -/
def disconnectInListener : List (Action Unit ℕ) :=
  [.dispatch (.accept none), .advance (), .returns (), .advance (),
    .dispatch (.read 0 [ascii "a", ascii "b"]), .advance (), .advance (), .advance (),
    .call () (.disconnect 0), .advance (), .advance (), .advance (), .advance (), .advance (),
    .advance (), .advance (), .returns (), .advance (), .returns (), .advance (), .advance (),
    .dispatch (.accept none), .advance (), .returns (), .advance ()]

theorem registry_protocol_disconnectInListener :
    ∃ s, run (TcpServer.step id ()) TcpServer.started disconnectInListener = some s ∧
      s.stack () = [] ∧ s.connections = [1] ∧
      s.connections = (accepted s.raised).filter fun c => .onDisconnected c ∉ s.raised := by
  have hrun : ((run (TcpServer.step id ()) TcpServer.started disconnectInListener).map
      fun s => (s.stack (), s.connections)) = some ([], [1]) := by decide +kernel
  obtain ⟨s, hs, hfields⟩ := Option.map_eq_some_iff.mp hrun
  simp only [Prod.mk.injEq] at hfields
  have haccepts : ∀ error, Action.dispatch (.accept (some error)) ∉ disconnectInListener := by
    simp [disconnectInListener]
  have hdistinct : Distinct (id : Connection → ℕ) s.created := fun c d _ _ h => h
  have hprotocol := registry_protocol id disconnectInListener s hs haccepts hdistinct
  exact ⟨s, hs, hfields.1, hfields.2, hprotocol.1 hfields.1⟩

end Diginext.Server
