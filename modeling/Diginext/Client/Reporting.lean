import Diginext.Client.Machine
import Diginext.Foundations.Transition
import Mathlib.Data.Fintype.Basic

/-! # The client's reports of a disconnection

Nothing keeps `tcp_client` from reporting a disconnection again as long as its handlers are connected,
and these are disconnected by the close routine only, which the event loop has still to run. A run in
which no emission begins while the disconnection is being reported or has been (`Sole`), unless the close
routine has run, reports it once, and no message after it (`reported_once`). `StorageClient::Disconnect`
calls `disconnect()` and then `stop()`, which calls it again.
-/
namespace Diginext.Client
open Cpp Transition
open Server (ErrorCode)
set_option autoImplicit false

/-- `onDisconnected` has been raised at most once, and no `onReadMessage` after it. -/
structure Reported (raised : List Event) : Prop where
  once : raised.count .onDisconnected ≤ 1
  last : ∀ before after, raised = before ++ after → .onDisconnected ∈ before →
    ∀ msg, .onReadMessage msg ∉ after

/-- The events that end with a disconnection. -/
def Event.tells : Event → Bool
  | onDisconnected | onReadMessage _ => true
  | _ => false

theorem Reported.raise {raised : List Event} (h : Reported raised) {event : Event}
    (hevent : event.tells = true → .onDisconnected ∉ raised) : Reported (raised ++ [event]) := by
  constructor
  · rw [List.count_append]
    by_cases heq : event = .onDisconnected
    · subst heq
      have hnone : raised.count .onDisconnected = 0 := List.count_eq_zero.mpr (hevent rfl)
      rw [hnone, List.count_singleton_self]
    · have hother : [event].count .onDisconnected = 0 := by simp [heq]
      rw [hother]
      exact h.once
  · intro before after hsplit hbefore msg hmem
    rcases List.eq_nil_or_concat after with rfl | ⟨after', last, rfl⟩
    · cases hmem
    · rw [List.concat_eq_append, ← List.append_assoc] at hsplit
      obtain ⟨rfl, hlast⟩ := List.append_inj' hsplit rfl
      obtain rfl : event = last := List.singleton_inj.mp hlast
      rw [List.concat_eq_append] at hmem
      rcases List.mem_append.mp hmem with hmem | hmem
      · exact h.last before after' rfl hbefore msg hmem
      · obtain rfl : .onReadMessage msg = event := List.mem_singleton.mp hmem
        exact hevent rfl (List.mem_append_left _ hbefore)

/-! ## Emissions that are under way -/

def Frame.passes : Frame → Option Event
  | handler event => some event
  | _ => none

/-- The signal that a thread is about to raise. -/
def passing : List Frame → Option Event
  | frame :: _ => frame.passes
  | [] => none

section Condition
variable {T : Type}

/-- The disconnection has been reported or is being reported. -/
def Reporting (s : TcpClient T) : Prop :=
  .onDisconnected ∈ s.raised ∨ ∃ t, passing (s.stack t) = some .onDisconnected

/-- The emission of `onDisconnected` or `onReadMessage` that a step begins with the handlers of the
client connected. -/
def begins (s : TcpClient T) : Action T → Option Event
  | .advance t =>
    match s.stack t with
    | .disconnect :: _ => if s.slots then some .onDisconnected else none
    | .reading (msg :: _) :: _ => if s.slots then some (.onReadMessage msg) else none
    | _ => none
  | .dispatch (.readError error _) =>
    if (error = .eof ∨ error = .connection_reset) ∧ s.slots then some .onDisconnected else none
  | _ => none

/-- With the handlers connected, nothing is begun once the disconnection is being reported, and its
report is not begun while a message is passed on. -/
def Sole (s : TcpClient T) (a : Action T) : Prop :=
  ∀ event, begins s a = some event → ¬ Reporting s ∧
    (event = .onDisconnected → ∀ t other, passing (s.stack t) = some other → other.tells = false)

instance [Fintype T] (s : TcpClient T) : Decidable (Reporting s) :=
  inferInstanceAs (Decidable (_ ∨ _))

instance [Fintype T] (s : TcpClient T) (a : Action T) : Decidable (Sole s a) :=
  inferInstanceAs (Decidable (∀ event ∈ begins s a, ¬ Reporting s ∧
    (event = .onDisconnected → ∀ t, ∀ other ∈ passing (s.stack t), other.tells = false)))

/-! ## What a step emits and raises -/

/-- The calls below the innermost one are waiting for it. -/
def Waiting (s : TcpClient T) : Prop := ∀ t, ∀ frame ∈ (s.stack t).tail, frame.passes = none

variable [DecidableEq T]

/-- A thread goes on to calls of which the innermost only may be about to raise a signal. -/
structure Onward (s s' : TcpClient T) (t : T) (a : Action T) (frames : List Frame) : Prop where
  stack : s'.stack = Function.update s.stack t frames
  raised : s'.raised = s.raised
  tail : ∀ frame ∈ frames.tail, frame.passes = none
  begun : ∀ event, passing frames = some event → event.tells = true → begins s a = some event

theorem Onward.waiting {s s' : TcpClient T} {t : T} {a : Action T} {frames : List Frame}
    (h : Onward s s' t a frames) (hw : Waiting s) : Waiting s' := by
  intro u frame hf
  rw [h.stack] at hf
  by_cases heq : u = t
  · subst heq
    rw [Function.update_self] at hf
    exact h.tail frame hf
  · rw [Function.update_of_ne heq] at hf
    exact hw u frame hf

omit [DecidableEq T] in
theorem passing_none {frames : List Frame} (h : ∀ frame ∈ frames, frame.passes = none) :
    passing frames = none := by
  cases frames with
  | nil => rfl
  | cons frame frames => exact h frame List.mem_cons_self

theorem onward_quiet {s s' : TcpClient T} {t : T} {a : Action T} {frames : List Frame}
    (hnone : ∀ frame ∈ frames, frame.passes = none)
    (hstack : s'.stack = Function.update s.stack t frames) (hraised : s'.raised = s.raised) :
    Onward s s' t a frames where
  stack := hstack
  raised := hraised
  tail := fun frame hf => hnone frame (List.mem_of_mem_tail hf)
  begun := by
    intro event hpassing _
    rw [passing_none hnone] at hpassing
    cases hpassing

/-- An emission begins. -/
theorem onward_emission {s s' : TcpClient T} {t : T} {a : Action T} {event : Event} {rest : List Frame}
    (hnone : ∀ frame ∈ rest, frame.passes = none)
    (hbegins : s.slots = true → event.tells = true → begins s a = some event)
    (hstack : s'.stack = Function.update s.stack t (s.emission event ++ rest))
    (hraised : s'.raised = s.raised) : Onward s s' t a (s.emission event ++ rest) := by
  unfold TcpClient.emission at *
  split at hstack
  · rename_i hslots
    rw [if_pos hslots]
    refine ⟨hstack, hraised, hnone, ?_⟩
    intro event' hpassing htells
    cases hpassing
    exact hbegins hslots htells
  · rename_i hslots
    rw [if_neg hslots]
    exact onward_quiet hnone hstack hraised

/-- The thread `t` raises the signal it was about to raise. -/
structure Raises (s s' : TcpClient T) (t : T) (event : Event) (rest : List Frame) : Prop where
  innermost : s.stack t = .handler event :: rest
  stack : s'.stack = Function.update s.stack t (.listening event :: rest)
  raised : s'.raised = s.raised ++ [event]

theorem advance_onward {loop t : T} {s s' : TcpClient T} (hw : Waiting s) {frame : Frame}
    {rest : List Frame} (hold : s.stack t = frame :: rest)
    (hs : s.advance loop t rest frame = some s') :
    (∃ frames, Onward s s' t (.advance t) frames) ∨ ∃ event, Raises s s' t event rest := by
  have hrest : ∀ f ∈ rest, f.passes = none := by
    intro f hf
    apply hw t
    rw [hold]
    exact hf
  have hpush : ∀ new : List Frame, (∀ f ∈ new, f.passes = none) →
      ∀ f ∈ new ++ rest, f.passes = none := by
    intro new hnew f hf
    exact (List.mem_append.mp hf).elim (hnew f) (hrest f)
  cases frame with
  | storageDisconnect =>
    cases hs
    left
    split
    · exact ⟨_, onward_quiet (hpush [.disconnect, .stop] (by simp [Frame.passes])) rfl rfl⟩
    · exact ⟨_, onward_quiet hrest rfl rfl⟩
  | stop =>
    cases hs
    left
    split
    · exact ⟨_, onward_quiet (hpush [.disconnect, .ioStop, .join] (by simp [Frame.passes])) rfl rfl⟩
    · exact ⟨_, onward_quiet hrest rfl rfl⟩
  | disconnect =>
    cases hs
    have hbegins : s.slots = true → Event.onDisconnected.tells = true →
        begins s (.advance t) = some .onDisconnected := by
      intro hslots _
      simp only [begins, hold, hslots, if_true]
    exact Or.inl ⟨_, onward_emission (hpush [.post] (by simp [Frame.passes])) hbegins rfl rfl⟩
  | post | ioStop | writing =>
    cases hs
    exact Or.inl ⟨_, onward_quiet hrest rfl rfl⟩
  | join =>
    cases hs
    left
    split
    · exact ⟨_, onward_quiet (hpush [.joining] (by simp [Frame.passes])) rfl rfl⟩
    · exact ⟨_, onward_quiet hrest rfl rfl⟩
  | joining =>
    cases TcpClient.joins_of_join hs with
    | throws ht => exact Or.inl ⟨_, onward_quiet hrest rfl rfl⟩
    | joined hother hended hjoinable => exact Or.inl ⟨_, onward_quiet hrest rfl rfl⟩
  | handler event =>
    cases hs
    exact Or.inr ⟨event, hold, rfl, rfl⟩
  | listening event => cases hs
  | reading messages =>
    cases messages with
    | nil =>
      cases hs
      exact Or.inl ⟨_, onward_quiet hrest rfl rfl⟩
    | cons msg messages =>
      cases hs
      have hbegins : s.slots = true → (Event.onReadMessage msg).tells = true →
          begins s (.advance t) = some (.onReadMessage msg) := by
        intro hslots _
        simp only [begins, hold, hslots, if_true]
      exact Or.inl ⟨_, onward_emission (hpush [.reading messages] (by simp [Frame.passes])) hbegins
        rfl rfl⟩

theorem dispatch_onward {loop : T} {s s' : TcpClient T} {completion : Completion}
    (hs : TcpClient.Dispatches loop s completion s') :
    (s'.stack = s.stack ∧ s'.raised = s.raised) ∨
      ∃ frames, Onward s s' loop (.dispatch completion) frames := by
  have hsilent : ∀ event : Event, event.tells = false → s'.raised = s.raised →
      s'.stack = Function.update s.stack loop (s.emission event) →
      ∃ frames, Onward s s' loop (.dispatch completion) frames := by
    intro event hevent hraised hstack
    refine ⟨s.emission event ++ [], onward_emission (by simp) ?_ ?_ hraised⟩
    · intro _ htells
      rw [hevent] at htells
      cases htells
    · rw [List.append_nil]
      exact hstack
  cases hs with
  | timedOut error h hclosed => exact Or.inr (hsilent .onConnectionTimedOut rfl rfl rfl)
  | connectError error h hopen => exact Or.inr (hsilent (.onConnectionError error) rfl rfl rfl)
  | connected h hopen => exact Or.inr (hsilent .onConnectionSuccess rfl rfl rfl)
  | read messages h =>
    exact Or.inr ⟨[.reading messages], onward_quiet (by simp [Frame.passes]) rfl rfl⟩
  | readError error n h =>
    right
    by_cases hends : error = .eof ∨ error = .connection_reset
    · refine ⟨s.emission .onDisconnected ++ [], onward_emission (by simp) ?_ ?_ rfl⟩
      · intro hslots _
        simp only [begins, hends, hslots, and_self, if_true]
      · rw [List.append_nil]
        change Function.update s.stack loop (s.handleReadError error n) = _
        rw [TcpClient.handleReadError, if_pos hends]
    · refine hsilent (.onReadError error n) rfl rfl ?_
      change Function.update s.stack loop (s.handleReadError error n) = _
      rw [TcpClient.handleReadError, if_neg hends]
  | writeError error n =>
    refine Or.inr ⟨_, onward_emission (by simp [Frame.passes]) ?_ rfl rfl⟩
    intro _ htells
    cases htells
  | closure h => exact Or.inl ⟨rfl, rfl⟩

theorem entry_passes (op : Operation) : (entry op).passes = none := by
  cases op <;> rfl

/-- A step leaves stacks and events alone, or takes one thread onward, or raises one event. -/
theorem step_onward {loop : T} {s s' : TcpClient T} {a : Action T} (hw : Waiting s)
    (hs : TcpClient.step loop s a = some s') :
    (s'.stack = s.stack ∧ s'.raised = s.raised) ∨ (∃ t frames, Onward s s' t a frames) ∨
      ∃ t event rest, Raises s s' t event rest := by
  have hbelow : ∀ {t : T} {frame : Frame} {rest : List Frame}, s.stack t = frame :: rest →
      ∀ f ∈ rest, f.passes = none := by
    intro t frame rest hold f hf
    apply hw t
    rw [hold]
    exact hf
  cases TcpClient.steps_of_step hs with
  | dispatch hrunning hidle hd =>
    rcases dispatch_onward hd with hsame | ⟨frames, honward⟩
    · exact Or.inl hsame
    · exact Or.inr (Or.inl ⟨loop, frames, honward⟩)
  | @call t op hidle hloop =>
    exact Or.inr (Or.inl ⟨t, [entry op], onward_quiet (by simpa using entry_passes op) rfl rfl⟩)
  | @callback t event rest op hold =>
    refine Or.inr (Or.inl ⟨t, entry op :: .listening event :: rest, onward_quiet ?_ rfl rfl⟩)
    intro f hf
    rcases List.mem_cons.mp hf with rfl | hf
    · exact entry_passes op
    · rcases List.mem_cons.mp hf with rfl | hf
      · rfl
      · exact hbelow hold f hf
  | @returns t event rest hold =>
    exact Or.inr (Or.inl ⟨t, rest, onward_quiet (hbelow hold) rfl rfl⟩)
  | @caught t event rest hold hframes =>
    refine Or.inr (Or.inl ⟨t, unwind rest, onward_quiet ?_ rfl rfl⟩)
    exact fun f hf => hbelow hold f ((List.dropWhile_sublist _).subset hf)
  | @escapes t event rest hold hframes =>
    exact Or.inr (Or.inl ⟨t, [], onward_quiet (by simp) rfl rfl⟩)
  | @advance t frame rest s' hold hadvance =>
    right
    rcases advance_onward hw hold hadvance with ⟨frames, honward⟩ | ⟨event, hraises⟩
    · exact Or.inl ⟨t, frames, honward⟩
    · exact Or.inr ⟨t, event, rest, hraises⟩
  | leave hidle => exact Or.inl ⟨rfl, rfl⟩
  | finish hrunning => exact Or.inl ⟨rfl, rfl⟩

/-! ## Runs in which every emission is the only one -/

/-- While the disconnection is being reported no thread is about to report it again or to pass on a
message. -/
structure Orderly (s : TcpClient T) : Prop where
  reported : Reported s.raised
  waiting : Waiting s
  flight : ∀ t event, passing (s.stack t) = some event → event.tells = true →
    .onDisconnected ∉ s.raised
  alone : ∀ t u event, passing (s.stack t) = some .onDisconnected → passing (s.stack u) = some event →
    event.tells = true → u = t

omit [DecidableEq T] in
theorem connected_orderly : Orderly (TcpClient.connected : TcpClient T) where
  reported := ⟨Nat.zero_le _, by simp [TcpClient.connected]⟩
  waiting := by simp [Waiting, TcpClient.connected]
  flight := by simp [TcpClient.connected, passing]
  alone := by simp [TcpClient.connected, passing]

theorem Orderly.onward {s s' : TcpClient T} {t : T} {a : Action T} {frames : List Frame}
    (h : Orderly s) (hsole : Sole s a) (ho : Onward s s' t a frames) : Orderly s' := by
  -- Whoever is about to raise a signal was so before, or begins to now.
  have hpassing : ∀ u event, passing (s'.stack u) = some event → event.tells = true →
      passing (s.stack u) = some event ∨ u = t ∧ begins s a = some event := by
    intro u event hu htells
    rw [ho.stack] at hu
    by_cases heq : u = t
    · subst heq
      rw [Function.update_self] at hu
      exact Or.inr ⟨rfl, ho.begun event hu htells⟩
    · rw [Function.update_of_ne heq] at hu
      exact Or.inl hu
  have hclear : ∀ {u event event'}, passing (s.stack u) = some event → event.tells = true →
      begins s a = some event' → ¬ (event = .onDisconnected ∨ event' = .onDisconnected) := by
    rintro u event event' hu htells hbegins (rfl | rfl)
    · exact (hsole event' hbegins).1 (Or.inr ⟨u, hu⟩)
    · have hsilent := (hsole _ hbegins).2 rfl u event hu
      rw [hsilent] at htells
      cases htells
  constructor
  · rw [ho.raised]
    exact h.reported
  · exact ho.waiting h.waiting
  · intro u event hu htells
    rw [ho.raised]
    rcases hpassing u event hu htells with hold | ⟨-, hbegins⟩
    · exact h.flight u event hold htells
    · exact fun hmem => (hsole event hbegins).1 (Or.inl hmem)
  · intro u v event hu hv htells
    rcases hpassing u _ hu rfl with hu | ⟨rfl, hu⟩
    · rcases hpassing v event hv htells with hv | ⟨rfl, hv⟩
      · exact h.alone u v event hu hv htells
      · exact absurd (Or.inl rfl) (hclear hu rfl hv)
    · rcases hpassing v event hv htells with hv | ⟨rfl, -⟩
      · exact absurd (Or.inr rfl) (hclear hv htells hu)
      · rfl

theorem Orderly.raises {s s' : TcpClient T} {t : T} {event : Event} {rest : List Frame}
    (h : Orderly s) (hr : Raises s s' t event rest) : Orderly s' := by
  have htop : passing (s.stack t) = some event := by
    rw [hr.innermost]
    rfl
  have hpassing : ∀ u event', passing (s'.stack u) = some event' →
      u ≠ t ∧ passing (s.stack u) = some event' := by
    intro u event' hu
    rw [hr.stack] at hu
    by_cases heq : u = t
    · subst heq
      rw [Function.update_self] at hu
      cases hu
    · rw [Function.update_of_ne heq] at hu
      exact ⟨heq, hu⟩
  constructor
  · rw [hr.raised]
    exact h.reported.raise (h.flight t event htop)
  · intro u frame hf
    rw [hr.stack] at hf
    apply h.waiting u
    by_cases heq : u = t
    · subst heq
      rw [Function.update_self] at hf
      rw [hr.innermost]
      exact hf
    · rw [Function.update_of_ne heq] at hf
      exact hf
  · intro u event' hu htells hmem
    obtain ⟨hne, hu⟩ := hpassing u event' hu
    rw [hr.raised] at hmem
    rcases List.mem_append.mp hmem with hmem | hmem
    · exact h.flight u event' hu htells hmem
    · obtain rfl : .onDisconnected = event := List.mem_singleton.mp hmem
      exact hne (h.alone t u event' htop hu htells)
  · intro u v event' hu hv htells
    exact h.alone u v event' (hpassing u _ hu).2 (hpassing v _ hv).2 htells

theorem Orderly.step {loop : T} {s s' : TcpClient T} {a : Action T} (h : Orderly s) (hsole : Sole s a)
    (hs : TcpClient.step loop s a = some s') : Orderly s' := by
  rcases step_onward h.waiting hs with ⟨hstack, hraised⟩ | ⟨t, frames, honward⟩ |
    ⟨t, event, rest, hraises⟩
  · obtain ⟨hreported, hwaiting, hflight, halone⟩ := h
    refine ⟨?_, ?_, ?_, ?_⟩
    · rwa [hraised]
    · rwa [Waiting, hstack]
    · rwa [hstack, hraised]
    · rwa [hstack]
  · exact h.onward hsole honward
  · exact h.raises hraises

/-- **The client reports each disconnection once** in every run all of whose emissions are `Sole`. -/
theorem reported_once (loop : T) (as : List (Action T))
    (hsole : Meets (TcpClient.step loop) Sole .connected as) :
    Along (TcpClient.step loop) (fun s => Reported s.raised) .connected as :=
  (along_of_meets (fun _ _ _ h hC hs => h.step hC hs) connected_orderly hsole).mono
    fun _ h => h.reported

/-! ## Emissions that overlap -/

theorem begins_handler {loop : T} {s s' : TcpClient T} {a : Action T} {event : Event}
    (hbegins : begins s a = some event) (hs : TcpClient.step loop s a = some s') :
    ∃ t rest, passing (s.stack t) = none ∧
      s'.stack = Function.update s.stack t (.handler event :: rest) ∧ s'.raised = s.raised := by
  cases TcpClient.steps_of_step hs with
  | dispatch hrunning hidle hd =>
    cases hd with
    | readError error n h =>
      simp only [begins] at hbegins
      split at hbegins
      · rename_i hends
        cases hbegins
        refine ⟨loop, [], by rw [hidle]; rfl, ?_, rfl⟩
        change Function.update s.stack loop (s.handleReadError error n) = _
        rw [TcpClient.handleReadError, if_pos hends.1, TcpClient.emission, if_pos hends.2]
      · cases hbegins
    | _ => cases hbegins
  | @advance t frame rest s' hold hadvance =>
    simp only [begins, hold] at hbegins
    split at hbegins
    · rename_i heq
      cases heq
      split at hbegins
      · rename_i hslots
        cases hbegins
        cases hadvance
        refine ⟨t, .post :: rest, by rw [hold]; rfl, ?_, rfl⟩
        simp only [TcpClient.setStack, TcpClient.emission, hslots, if_true]
        rfl
      · cases hbegins
    · rename_i msg messages tail heq
      cases heq
      split at hbegins
      · rename_i hslots
        cases hbegins
        cases hadvance
        refine ⟨t, .reading messages :: rest, by rw [hold]; rfl, ?_, rfl⟩
        simp only [TcpClient.setStack, TcpClient.emission, hslots, if_true]
        rfl
      · cases hbegins
    · cases hbegins
  | _ => cases hbegins

theorem handler_raises {loop t : T} {s : TcpClient T} {event : Event}
    (h : passing (s.stack t) = some event) :
    ∃ s', TcpClient.step loop s (.advance t) = some s' ∧ s'.raised = s.raised ++ [event] ∧
      ∀ u, u ≠ t → s'.stack u = s.stack u := by
  cases hold : s.stack t with
  | nil =>
    rw [hold] at h
    cases h
  | cons frame rest =>
    rw [hold] at h
    cases frame with
    | handler event' =>
      cases h
      refine ⟨_, by simp only [TcpClient.step, hold, TcpClient.advance]; rfl, rfl, ?_⟩
      exact fun u hu => TcpClient.setStack_of_ne _ hu _
    | _ => cases h

theorem not_reported {raised : List Event} (hmem : .onDisconnected ∈ raised) {event : Event}
    (htells : event.tells = true) : ¬ Reported (raised ++ [event]) := by
  intro h
  cases event with
  | onDisconnected =>
    have honce := h.once
    have hpos := List.count_pos_iff.mpr hmem
    rw [List.count_append, List.count_singleton_self] at honce
    omega
  | onReadMessage msg => exact h.last raised _ rfl hmem msg (List.mem_singleton_self _)
  | _ => cases htells

omit [DecidableEq T] in
theorem begins_tells {s : TcpClient T} {a : Action T} {event : Event} (h : begins s a = some event) :
    event.tells = true := by
  cases a with
  | advance t =>
    simp only [begins] at h
    split at h
    · split at h <;> cases h
      rfl
    · split at h <;> cases h
      rfl
    · cases h
  | dispatch completion =>
    cases completion with
    | readError error n =>
      simp only [begins] at h
      split at h <;> cases h
      rfl
    | _ => cases h
  | _ => cases h

/-- One thread reports the disconnection, and then another raises a signal. -/
theorem raises_after {loop t u : T} {s : TcpClient T} {event : Event} (hne : u ≠ t)
    (ht : passing (s.stack t) = some .onDisconnected) (hu : passing (s.stack u) = some event)
    (htells : event.tells = true) :
    ∃ bs s', run (TcpClient.step loop) s bs = some s' ∧ ¬ Reported s'.raised := by
  obtain ⟨s₁, hs₁, hraised₁, hother⟩ := handler_raises ht
  rw [← hother u hne] at hu
  obtain ⟨s₂, hs₂, hraised₂, -⟩ := handler_raises hu
  refine ⟨[.advance t, .advance u], s₂, ?_, ?_⟩
  · rw [run_cons hs₁, run_cons hs₂, run_nil]
  · rw [hraised₂, hraised₁]
    exact not_reported (List.mem_append_right _ (List.mem_singleton_self _)) htells

/-- The condition leaves nothing out: after an emission that is not the only one, the client breaks its
word as soon as the threads that are about to raise signals go on. -/
theorem overlap_breaks {loop : T} {s s' : TcpClient T} {a : Action T} (hsole : ¬ Sole s a)
    (hs : TcpClient.step loop s a = some s') :
    ∃ bs s'', run (TcpClient.step loop) s' bs = some s'' ∧ ¬ Reported s''.raised := by
  simp only [Sole, not_forall] at hsole
  obtain ⟨event, hbegins, hoverlap⟩ := hsole
  have htells := begins_tells hbegins
  obtain ⟨t, rest, hidle, hstack, hraised⟩ := begins_handler hbegins hs
  have htop : passing (s'.stack t) = some event := by
    rw [hstack, Function.update_self]
    rfl
  have hother : ∀ u other, passing (s.stack u) = some other →
      u ≠ t ∧ passing (s'.stack u) = some other := by
    intro u other hu
    have hne : u ≠ t := by
      rintro rfl
      rw [hidle] at hu
      cases hu
    rw [hstack, Function.update_of_ne hne]
    exact ⟨hne, hu⟩
  rcases not_and_or.mp hoverlap with hreporting | hmessage
  · rcases not_not.mp hreporting with hmem | ⟨u, hu⟩
    · obtain ⟨s₁, hs₁, hraised₁, -⟩ := handler_raises htop
      refine ⟨[.advance t], s₁, by rw [run_cons hs₁, run_nil], ?_⟩
      rw [hraised₁, hraised]
      exact not_reported hmem htells
    · obtain ⟨hne, hu⟩ := hother u _ hu
      exact raises_after hne.symm hu htop htells
  · simp only [not_forall] at hmessage
    obtain ⟨rfl, u, other, hu, hother'⟩ := hmessage
    obtain ⟨hne, hu⟩ := hother u other hu
    exact raises_after hne htop hu (by simpa using hother')

end Condition

/-- A message is read, the application calls `disconnect()`, the loop runs the close routine, and then
the application calls `StorageClient::Disconnect`. -/
def closedInTime : List (Action Bool) :=
  [.dispatch (.connect none), .advance true, .returns true, .dispatch (.read [[104, 105]]),
    .advance true, .advance true, .returns true, .advance true, .call false .disconnect,
    .advance false, .advance false, .returns false, .advance false, .dispatch .closure,
    .call false .storageDisconnect, .advance false, .advance false, .advance false, .advance false,
    .advance false, .advance false, .advance false, .leave, .finish, .advance false]

theorem reported_once_closedInTime : ∃ s,
    run (TcpClient.step true) .connected closedInTime = some s ∧
      s.raised = [.onConnectionSuccess, .onReadMessage [104, 105], .onDisconnected] ∧
      Along (TcpClient.step true) (fun s => Reported s.raised) .connected closedInTime := by
  have hrun : ((run (TcpClient.step true) TcpClient.connected closedInTime).map fun s => s.raised) =
      some [.onConnectionSuccess, .onReadMessage [104, 105], .onDisconnected] := by decide +kernel
  obtain ⟨s, hs, hraised⟩ := Option.map_eq_some_iff.mp hrun
  exact ⟨s, hs, hraised, reported_once true closedInTime (by decide +kernel)⟩

/-- `StorageClient::Disconnect` while the loop has not yet run the close routine. -/
def disconnectsTwice : List (Action Bool) :=
  [.call false .storageDisconnect, .advance false, .advance false, .advance false, .returns false,
    .advance false, .advance false, .advance false, .advance false]

theorem reported_twice : ¬ ∀ as : List (Action Bool),
    Along (TcpClient.step true) (fun s => Reported s.raised) .connected as := by
  intro h
  have hrun : ((run (TcpClient.step true) TcpClient.connected disconnectsTwice).map fun s => s.raised) =
      some [.onDisconnected, .onDisconnected] := by decide +kernel
  obtain ⟨s, hs, hraised⟩ := Option.map_eq_some_iff.mp hrun
  have honce := ((h disconnectsTwice).last hs).once
  rw [hraised] at honce
  exact absurd honce (by decide)

end Diginext.Client
