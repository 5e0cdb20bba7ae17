import Diginext.Server.Admission
import Mathlib.Data.Finset.Card

/-! # The events of a connection that has left the registry

The handlers of the server look a connection up in the registry and raise its events later, without
`server_sync`, so that events follow a connection that has left. Which ones is settled in the moment when
it leaves: those that threads have in hand, having found the connection before, and every thread has one
at most.
-/
namespace Diginext.Server
open Cpp Transition
set_option autoImplicit false

variable {T U : Type}

/-- The event that a call comes to raise without looking its connection up again. -/
def Frame.announces : Frame U → Option Event
  | dropSlots _ p | erase p | recheck p => some (.onDisconnected p)
  | emit event => some event
  | _ => none

/-- The event that a thread with these calls has in hand. -/
def inHand (frames : List (Frame U)) : Option Event := frames.head?.bind Frame.announces

theorem inHand_cons (frame : Frame U) (frames : List (Frame U)) :
    inHand (frame :: frames) = frame.announces := rfl

theorem inHand_silent {frames : List (Frame U)} (h : ∀ frame ∈ frames, frame.announces = none) :
    inHand frames = none := by
  cases frames with
  | nil => rfl
  | cons frame frames => exact h frame (List.mem_cons_self ..)

theorem inHand_append {new rest : List (Frame U)} (hrest : ∀ frame ∈ rest, frame.announces = none) :
    inHand (new ++ rest) = inHand new := by
  cases new with
  | nil => exact inHand_silent hrest
  | cons frame new => rfl

theorem entry_announces (uuid : Connection → U) (op : Operation U) :
    (TcpServer.entry uuid op).announces = none := by
  cases op <;> rfl

/-- Calls that wait for others have nothing in hand. -/
def Innermost (s : TcpServer T U) : Prop :=
  ∀ t, ∀ frame ∈ (s.stack t).tail, frame.announces = none

/-- What a step does to the threads that have `event` in hand: nothing, or one of them raises it. -/
inductive Hands (event : Event) (s s' : TcpServer T U) : Prop where
  | keeps (hcount : s'.raised.count event = s.raised.count event)
      (hhands : ∀ t, inHand (s'.stack t) = some event ↔ inHand (s.stack t) = some event)
  | raises (t : T) (hcount : s'.raised.count event = s.raised.count event + 1)
      (hbefore : inHand (s.stack t) = some event) (hafter : inHand (s'.stack t) ≠ some event)
      (hothers : ∀ u, u ≠ t → s'.stack u = s.stack u)

theorem Hands.fewer {event : Event} {s s' : TcpServer T U} (h : Hands event s s') {t : T}
    (ht : inHand (s'.stack t) = some event) : inHand (s.stack t) = some event := by
  cases h with
  | keeps hcount hhands => exact (hhands t).mp ht
  | raises u hcount hbefore hafter hothers =>
    have hne : t ≠ u := by
      rintro rfl
      exact hafter ht
    rw [← hothers t hne]
    exact ht

/-- The threads among `late` that have `event` in hand. -/
def holders (late : Finset T) (event : Event) (s : TcpServer T U) : Finset T :=
  late.filter fun t => inHand (s.stack t) = some event

theorem count_raise_of_ne {event raised : Event} (h : raised ≠ event) (events : List Event) :
    (events ++ [raised]).count event = events.count event := by
  have hnone : [raised].count event = 0 := List.count_eq_zero_of_not_mem (by simpa using h.symm)
  rw [List.count_append, hnone, Nat.add_zero]

theorem count_raise_self (event : Event) (events : List Event) :
    (events ++ [event]).count event = events.count event + 1 := by
  rw [List.count_append, List.count_singleton_self]

variable [DecidableEq T]

/-- Raised or in hand: the sum does not change. -/
theorem Hands.conserved {event : Event} {s s' : TcpServer T U} (h : Hands event s s') {late : Finset T}
    (hlate : ∀ t, inHand (s.stack t) = some event → t ∈ late) :
    s'.raised.count event + (holders late event s').card =
      s.raised.count event + (holders late event s).card := by
  cases h with
  | keeps hcount hhands =>
    have hsame : holders late event s' = holders late event s := by
      unfold holders
      exact Finset.filter_congr fun t _ => hhands t
    rw [hcount, hsame]
  | raises t hcount hbefore hafter hothers =>
    have hmem : t ∈ holders late event s := Finset.mem_filter.mpr ⟨hlate t hbefore, hbefore⟩
    have herased : holders late event s' = (holders late event s).erase t := by
      ext u
      simp only [holders, Finset.mem_erase, Finset.mem_filter]
      by_cases heq : u = t
      · subst heq
        simp [hafter]
      · simp [heq, hothers u heq]
    have hcard := Finset.card_erase_add_one hmem
    rw [hcount, herased]
    omega

/-! ## One thread goes on -/

/-- An event of a connection that has left the registry. -/
def Late (s : TcpServer T U) (event : Event) : Prop :=
  event.connection ∈ accepted s.raised ∧ event.connection ∉ s.connections

/-- What a step does to what threads have in hand. -/
structure Proceeds (s s' : TcpServer T U) : Prop where
  innermost : Innermost s'
  hands : ∀ event, Late s event → Hands event s s'

theorem Innermost.goes {s s' : TcpServer T U} (h : Innermost s) {t : T} (new rest : List (Frame U))
    (hstack : s'.stack = Function.update s.stack t (new ++ rest))
    (hrest : ∀ frame ∈ rest, frame.announces = none)
    (hnew : ∀ frame ∈ new.tail, frame.announces = none) : Innermost s' := by
  intro u frame hframe
  rw [hstack] at hframe
  by_cases heq : u = t
  · subst heq
    rw [Function.update_self] at hframe
    cases new with
    | nil => exact hrest frame (List.mem_of_mem_tail hframe)
    | cons f new =>
      rcases List.mem_append.mp hframe with hframe | hframe
      · exact hnew frame hframe
      · exact hrest frame hframe
  · rw [Function.update_of_ne heq] at hframe
    exact h u frame hframe

/-- A thread goes on and raises nothing of the connections that have left. It keeps what it has in hand
of them. -/
theorem Innermost.proceeds {s s' : TcpServer T U} (h : Innermost s) {t : T} (new rest : List (Frame U))
    (hstack : s'.stack = Function.update s.stack t (new ++ rest))
    (hrest : ∀ frame ∈ rest, frame.announces = none)
    (hnew : ∀ frame ∈ new.tail, frame.announces = none)
    (hraised : ∀ event, Late s event → s'.raised.count event = s.raised.count event)
    (hhands : ∀ event, Late s event → (inHand new = some event ↔ inHand (s.stack t) = some event)) :
    Proceeds s s' where
  innermost := h.goes new rest hstack hrest hnew
  hands := by
    intro event hlate
    refine .keeps (hraised event hlate) ?_
    intro u
    rw [hstack]
    by_cases heq : u = t
    · subst heq
      rw [Function.update_self, inHand_append hrest]
      exact hhands event hlate
    · rw [Function.update_of_ne heq]

/-- A thread that has nothing in hand goes on to calls that have nothing in hand either. -/
theorem Innermost.silent {s s' : TcpServer T U} (h : Innermost s) {t : T} (new rest : List (Frame U))
    (hstack : s'.stack = Function.update s.stack t (new ++ rest))
    (hrest : ∀ frame ∈ rest, frame.announces = none) (hnew : ∀ frame ∈ new, frame.announces = none)
    (hraised : ∀ event, Late s event → s'.raised.count event = s.raised.count event)
    (hold : inHand (s.stack t) = none) : Proceeds s s' := by
  apply h.proceeds new rest hstack hrest (fun f hf => hnew f (List.mem_of_mem_tail hf)) hraised
  intro event _
  rw [hold, inHand_silent hnew]

omit [DecidableEq T] in
theorem started_innermost : Innermost (TcpServer.started : TcpServer T U) := by
  simp [Innermost, TcpServer.started]

/-! ## One step -/

variable [DecidableEq U] {uuid : Connection → U}

omit [DecidableEq T] in
/-- A call that only makes others gets the event of a registered connection in hand, or none. -/
theorem follows_announces {s : TcpServer T U} {frame : Frame U} {new : List (Frame U)}
    (h : TcpServer.Follows uuid s frame new) :
    frame.announces = none ∧ ((∀ f ∈ new, f.announces = none) ∨
      ∃ event, new = [.emit event] ∧ event.connection ∈ s.connections) := by
  cases h with
  | found _ | notFound _ | copied | noneLeft | each _ _ | ignored _ | written _ =>
    exact ⟨rfl, Or.inl (by simp [Frame.announces])⟩
  | stop c =>
    refine ⟨rfl, Or.inl fun f hf => ?_⟩
    rcases TcpServer.mem_emission_concat hf with rfl | rfl
    · rfl
    · rfl
  | message c msg messages =>
    refine ⟨rfl, Or.inl fun f hf => ?_⟩
    rcases TcpServer.mem_emission_concat hf with rfl | rfl
    · rfl
    · rfl
  | @passed c p notice hfound =>
    have hp := (TcpServer.getConnectionByUUID_some hfound).1
    refine ⟨rfl, Or.inr ⟨notice.event p, rfl, ?_⟩⟩
    cases notice <;> exact hp

omit [DecidableEq T] [DecidableEq U] in
theorem Late.ne {s : TcpServer T U} {event event' : Event} (h : Late s event)
    (hregistered : event'.connection ∈ s.connections) : event' ≠ event := by
  rintro rfl
  exact h.2 hregistered

theorem Innermost.advance {loop t : T} {s s' : TcpServer T U} (h : Innermost s)
    (hadmitted : Admitted loop s) {frame : Frame U} {rest : List (Frame U)}
    (hstack : s.stack t = frame :: rest) (hs : s.advance uuid t rest frame = some s') :
    Proceeds s s' := by
  have hrest : ∀ f ∈ rest, f.announces = none := by
    intro f hf
    apply h t f
    rw [hstack]
    exact hf
  have hold : inHand (s.stack t) = frame.announces := by rw [hstack, inHand_cons]
  cases TcpServer.advances_of_advance uuid hs with
  | @follows frame new hf =>
    obtain ⟨hsilent, hnew | ⟨event, rfl, hregistered⟩⟩ := follows_announces hf
    · exact h.silent new rest rfl hrest hnew (fun _ _ => rfl) (hold.trans hsilent)
    · refine h.proceeds [.emit event] rest rfl hrest (by simp) (fun _ _ => rfl) fun event' hlate => ?_
      have hne := hlate.ne hregistered
      rw [hold, hsilent, inHand_cons]
      simp [Frame.announces, hne]
  | post _ | read _ | notFound _ | finishAccept =>
    exact h.silent [] rest rfl hrest (by simp) (fun _ _ => rfl) hold
  | @found c p hfound =>
    refine h.proceeds [.dropSlots c p] rest rfl hrest (by simp) (fun _ _ => rfl) fun event hlate => ?_
    have hne : .onDisconnected p ≠ event := hlate.ne (TcpServer.getConnectionByUUID_some hfound).1
    rw [hold, inHand_cons]
    simp [Frame.announces, hne]
  | dropSlots c p =>
    exact h.proceeds [.erase p] rest rfl hrest (by simp) (fun _ _ => rfl) fun _ _ => by
      rw [hold, inHand_cons]
      rfl
  | erase p =>
    exact h.proceeds [.recheck p] rest rfl hrest (by simp) (fun _ _ => rfl) fun _ _ => by
      rw [hold, inHand_cons]
      rfl
  | @again p q _ =>
    exact h.proceeds [.erase p] rest rfl hrest (by simp) (fun _ _ => rfl) fun _ _ => by
      rw [hold, inHand_cons]
      rfl
  | @removed p _ =>
    exact h.proceeds [.emit (.onDisconnected p)] rest rfl hrest (by simp) (fun _ _ => rfl) fun _ _ => by
      rw [hold, inHand_cons]
      rfl
  | emit raised =>
    have hsilent : ∀ f ∈ [(.listening raised : Frame U)], f.announces = none := by
      simp [Frame.announces]
    refine ⟨h.goes [.listening raised] rest rfl hrest (by simp), fun event _ => ?_⟩
    by_cases heq : raised = event
    · subst heq
      refine .raises t (count_raise_self raised s.raised) hold ?_ fun u hu =>
        TcpServer.setStack_of_ne _ hu _
      rw [TcpServer.setStack_self, ← List.singleton_append, inHand_append hrest, inHand_silent hsilent]
      simp
    · refine .keeps (count_raise_of_ne heq s.raised) fun u => ?_
      by_cases hu : u = t
      · subst hu
        rw [TcpServer.setStack_self, hold, inHand_cons]
        simp [Frame.announces, heq]
      · rw [TcpServer.setStack_of_ne _ hu]
  | register c hsync =>
    refine h.silent [.listening (.onAccepted c), .finishAccept] rest rfl hrest
      (by simp [Frame.announces]) (fun event hlate => ?_) hold
    have hunseen := (hadmitted.ticket hstack).2.1
    have hne : .onAccepted c ≠ event := by
      rintro rfl
      exact hunseen hlate.1
    exact count_raise_of_ne hne s.raised

omit [DecidableEq U] in
theorem Innermost.dispatch {loop : T} {s s' : TcpServer T U} (h : Innermost s)
    (hadmitted : Admitted loop s) (hidle : s.stack loop = []) {completion : Completion}
    (hs : TcpServer.Dispatches loop s completion s') : Proceeds s s' := by
  have hold : inHand (s.stack loop) = none := by rw [hidle]; rfl
  have hfresh : ∀ {s' : TcpServer T U} (frames : List (Frame U)),
      s'.stack = Function.update s.stack loop frames → s'.raised = s.raised →
      (∀ frame ∈ frames, frame.announces = none) → Proceeds s s' := by
    intro s' frames hstack hr hnew
    exact h.silent frames [] (by rw [hstack, List.append_nil]) (by simp) hnew
      (fun _ _ => by rw [hr]) hold
  cases hs with
  | accept hc => exact hfresh [.register _] rfl rfl (by simp [Frame.announces])
  | @acceptError c error hc =>
    refine h.proceeds [.emit (.onAcceptError c error), .register c] [] rfl (by simp)
      (by simp [Frame.announces]) (fun _ _ => rfl) fun event hlate => ?_
    have hticket : c ∈ tickets loop s := by simp [tickets, hc]
    have hne : .onAcceptError c error ≠ event := by
      rintro rfl
      exact (hadmitted.unseen c hticket).1 hlate.1
    rw [hold, inHand_cons]
    simp [Frame.announces, hne]
  | read messages hc => exact hfresh [.reading _ messages] rfl rfl (by simp [Frame.announces])
  | @readError c error n hc =>
    refine hfresh (s.handleReadError c error n) rfl rfl fun frame hf => ?_
    rcases TcpServer.mem_handleReadError hf with rfl | rfl
    · rfl
    · rfl
  | writeError c error n =>
    refine hfresh _ rfl rfl fun frame hf => ?_
    rcases TcpServer.mem_emission_concat hf with rfl | rfl
    · rfl
    · rfl
  | closure hc => exact hfresh [] (by rw [← hidle, Function.update_eq_self]) rfl (by simp)

theorem Innermost.step {loop : T} {s s' : TcpServer T U} {a : Action T U} (h : Innermost s)
    (hadmitted : Admitted loop s) (hs : TcpServer.step uuid loop s a = some s') : Proceeds s s' := by
  have hlisten : ∀ {t : T} {event : Event} {rest : List (Frame U)},
      s.stack t = .listening event :: rest →
      inHand (s.stack t) = none ∧ ∀ frame ∈ rest, frame.announces = none := by
    intro t event rest hstack
    refine ⟨by rw [hstack]; rfl, fun frame hframe => h t frame ?_⟩
    rw [hstack]
    exact hframe
  cases TcpServer.steps_of_step uuid hs with
  | dispatch hrunning hidle hd => exact h.dispatch hadmitted hidle hd
  | @call t op hidle hloop =>
    exact h.silent [TcpServer.entry uuid op] [] rfl (by simp)
      (by simpa using entry_announces uuid op) (fun _ _ => rfl) (by rw [hidle]; rfl)
  | @callback t event rest op hstack =>
    obtain ⟨hold, hrest⟩ := hlisten hstack
    exact h.silent [TcpServer.entry uuid op] (.listening event :: rest) rfl
      (List.forall_mem_cons.mpr ⟨rfl, hrest⟩) (by simpa using entry_announces uuid op)
      (fun _ _ => rfl) hold
  | @returns t event rest hstack =>
    obtain ⟨hold, hrest⟩ := hlisten hstack
    exact h.silent [] rest rfl hrest (by simp) (fun _ _ => rfl) hold
  | @caught t event rest hstack hframes =>
    obtain ⟨hold, hrest⟩ := hlisten hstack
    exact h.silent [] (TcpServer.unwind rest) rfl
      (fun frame hframe => hrest frame ((List.dropWhile_sublist _).subset hframe)) (by simp)
      (fun _ _ => rfl) hold
  | @escapes t event rest hstack hframes =>
    exact h.silent [] [] rfl (by simp) (by simp) (fun _ _ => rfl) (hlisten hstack).1
  | advance hstack hadvance => exact h.advance hadmitted hstack hadvance

/-! ## Whole runs -/

/-- What has left does not come back. -/
theorem Late.step {loop : T} {s s' : TcpServer T U} {a : Action T U} {event : Event} (h : Late s event)
    (hadmitted : Admitted loop s) (hs : TcpServer.step uuid loop s a = some s') : Late s' event := by
  refine ⟨step_accepted hs h.1, ?_⟩
  intro hmem
  cases TcpServer.steps_of_step uuid hs with
  | dispatch hrunning hidle hd => cases hd <;> exact h.2 hmem
  | call _ _ _ | callback _ _ | returns _ | caught _ _ | escapes _ _ => exact h.2 hmem
  | advance hstack hadvance =>
    cases TcpServer.advances_of_advance uuid hadvance with
    | erase p => exact h.2 (List.mem_of_mem_eraseP hmem)
    | register c hsync =>
      rcases List.mem_append.mp hmem with hmem | hmem
      · exact h.2 hmem
      · obtain rfl := List.mem_singleton.mp hmem
        exact (hadmitted.ticket hstack).2.1 h.1
    | _ => exact h.2 hmem

theorem innermost_run (uuid : Connection → U) (loop : T) (as : List (Action T U)) (s : TcpServer T U)
    (hrun : run (TcpServer.step uuid loop) TcpServer.started as = some s) :
    Admitted loop s ∧ Innermost s :=
  run_invariant (I := fun s => Admitted loop s ∧ Innermost s)
    (fun _ _ _ h hs => ⟨h.1.step hs, (h.2.step h.1 hs).innermost⟩)
    ⟨started_admitted loop, started_innermost⟩ hrun

/-- **The last events of a connection** are settled when it leaves the registry: from then on, each of
its events is raised by the threads that had it in hand in that moment, once by each, and by nobody
else. -/
theorem late_events (uuid : Connection → U) (loop : T) (as : List (Action T U)) (s : TcpServer T U)
    (hrun : run (TcpServer.step uuid loop) TcpServer.started as = some s) (event : Event)
    (haccepted : event.connection ∈ accepted s.raised) (hgone : event.connection ∉ s.connections)
    (late : Finset T) (hlate : ∀ t, inHand (s.stack t) = some event → t ∈ late)
    (bs : List (Action T U)) (s' : TcpServer T U)
    (hrun' : run (TcpServer.step uuid loop) s bs = some s') :
    (∀ t, inHand (s'.stack t) = some event → inHand (s.stack t) = some event) ∧
      s'.raised.count event + (holders late event s').card =
        s.raised.count event + (holders late event s).card := by
  obtain ⟨hadmitted, hinnermost⟩ := innermost_run uuid loop as s hrun
  have hlast : (Admitted loop s' ∧ Innermost s' ∧ Late s' event) ∧
      (∀ t, inHand (s'.stack t) = some event → inHand (s.stack t) = some event) ∧
        s'.raised.count event + (holders late event s').card =
          s.raised.count event + (holders late event s).card := by
    refine run_invariant (I := fun r => (Admitted loop r ∧ Innermost r ∧ Late r event) ∧
      (∀ t, inHand (r.stack t) = some event → inHand (s.stack t) = some event) ∧
        r.raised.count event + (holders late event r).card =
          s.raised.count event + (holders late event s).card) ?_
      ⟨⟨hadmitted, hinnermost, haccepted, hgone⟩, fun _ h => h, rfl⟩ hrun'
    intro r a r' h hs
    obtain ⟨⟨hr, hi, hl⟩, hfewer, hsum⟩ := h
    have hproceeds := hi.step hr hs
    have hhands := hproceeds.hands event hl
    refine ⟨⟨hr.step hs, hproceeds.innermost, hl.step hr hs⟩, ?_, ?_⟩
    · exact fun t ht => hfewer t (hhands.fewer ht)
    · rw [hhands.conserved fun t ht => hlate t (hfewer t ht)]
      exact hsum
  exact hlast.2

/-- The other thread has found the connection, and so has the loop at the end of the stream, when it is
removed. -/
def untilRemoved : List (Action Bool ℕ) :=
  acceptOne ++ [.call false (.disconnect 0), .advance false, .advance false,
    .dispatch (.readError 0 .eof 0), .advance false, .advance true, .advance false, .advance false]

def afterRemoved : List (Action Bool ℕ) :=
  [.advance false, .advance false, .advance true, .advance true, .advance true, .advance true]

theorem late_events_bothAtOnce : ∃ s s',
    run (TcpServer.step id true) TcpServer.started untilRemoved = some s ∧
      run (TcpServer.step id true) s afterRemoved = some s' ∧
      holders Finset.univ (.onDisconnected 0) s = {false, true} ∧
      holders Finset.univ (.onDisconnected 0) s' = ∅ ∧
      s'.raised.count (.onDisconnected 0) = s.raised.count (.onDisconnected 0) + 2 := by
  have hruns : ((run (TcpServer.step id true) TcpServer.started untilRemoved).bind fun s =>
      (run (TcpServer.step id true) s afterRemoved).map fun s' =>
        decide (0 ∈ accepted s.raised ∧ 0 ∉ s.connections ∧
          holders Finset.univ (.onDisconnected 0) s = {false, true} ∧
          holders Finset.univ (.onDisconnected 0) s' = ∅)) = some true := by
    decide +kernel
  obtain ⟨s, hs, hmap⟩ := Option.bind_eq_some_iff.mp hruns
  obtain ⟨s', hs', hdecide⟩ := Option.map_eq_some_iff.mp hmap
  obtain ⟨haccepted, hgone, hbefore, hafter⟩ := of_decide_eq_true hdecide
  have hsum := (late_events id true untilRemoved s hs (.onDisconnected 0) haccepted hgone Finset.univ
    (fun t _ => Finset.mem_univ t) afterRemoved s' hs').2
  rw [hbefore, hafter] at hsum
  refine ⟨s, s', hs, hs', hbefore, hafter, ?_⟩
  simpa using hsum

end Diginext.Server
