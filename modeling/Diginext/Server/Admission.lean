import Diginext.Server.Concurrency
import Diginext.Server.Threads

/-! # Every connection is registered at most once

Whatever the threads do, a connection that is on its way to the registry has not been accepted before,
and what is registered has been accepted. An accepted connection that has left the registry is
therefore gone for good.
-/
namespace Diginext.Server
open Cpp Transition
set_option autoImplicit false

variable {T U : Type}

structure Admitted (loop : T) (s : TcpServer T U) : Prop where
  distinct : (tickets loop s).Nodup
  unseen : ∀ c ∈ tickets loop s, c ∉ accepted s.raised ∧ c < s.created
  created : ∀ c ∈ accepted s.raised, c < s.created
  registered : ∀ c ∈ s.connections, c ∈ accepted s.raised
  heralds : ∀ t c, .emit (.onAccepted c) ∉ s.stack t
  others : ∀ t, t ≠ loop → registering (s.stack t) = []

theorem started_admitted (loop : T) : Admitted loop (TcpServer.started : TcpServer T U) where
  distinct := by simp [TcpServer.started, tickets, registering]
  unseen := by simp [TcpServer.started, tickets, registering, accepted]
  created := by simp [TcpServer.started, accepted]
  registered := by simp [TcpServer.started]
  heralds := by simp [TcpServer.started]
  others := by simp [TcpServer.started, registering]

/-- The calls that register no connection and announce none as accepted. -/
def Frame.plain : Frame U → Bool
  | register _ | emit (.onAccepted _) => false
  | _ => true

theorem Frame.calm_plain {frame : Frame U} (h : frame.calm = true) : frame.plain = true := by
  cases frame with
  | register c => cases h
  | emit event =>
    cases event with
    | onAccepted c => cases h
    | _ => rfl
  | _ => rfl

theorem registering_plain {frames : List (Frame U)} (h : ∀ frame ∈ frames, frame.plain = true) :
    registering frames = [] := by
  induction frames with
  | nil => rfl
  | cons frame frames ih =>
    obtain ⟨hfirst, hrest⟩ := List.forall_mem_cons.mp h
    have hnone : registering [frame] = [] := by
      cases frame with
      | register c => cases hfirst
      | _ => rfl
    rw [← List.singleton_append, registering_append, hnone, ih hrest]
    rfl

theorem entry_plain (uuid : Connection → U) (op : Operation U) :
    (TcpServer.entry uuid op).plain = true := by
  cases op <;> rfl

variable [DecidableEq T]

/-- A thread goes on to calls that register nothing. -/
theorem Admitted.goes {loop t : T} {s s' : TcpServer T U} (h : Admitted loop s)
    (new rest : List (Frame U)) (hstack : s'.stack = Function.update s.stack t (new ++ rest))
    (hrest : rest.Sublist (s.stack t)) (hnew : ∀ frame ∈ new, frame.plain = true)
    (hc : ∀ c ∈ s'.connections, c ∈ s.connections) (hr : accepted s'.raised = accepted s.raised)
    (hn : s'.created = s.created) (ha : s'.accepting = s.accepting) : Admitted loop s' := by
  have hself : s'.stack t = new ++ rest := by rw [hstack, Function.update_self]
  have hother : ∀ u, u ≠ t → s'.stack u = s.stack u := by
    intro u hu
    rw [hstack, Function.update_of_ne hu]
  have hregistering : ∀ u, (registering (s'.stack u)).Sublist (registering (s.stack u)) := by
    intro u
    by_cases heq : u = t
    · subst heq
      rw [hself, registering_append, registering_plain hnew, List.nil_append]
      exact hrest.filterMap _
    · rw [hother u heq]
  have htickets : (tickets loop s').Sublist (tickets loop s) := by
    unfold tickets
    rw [ha]
    exact (List.Sublist.refl _).append (hregistering loop)
  constructor
  · exact h.distinct.sublist htickets
  · intro c hmem
    rw [hr, hn]
    exact h.unseen c (htickets.subset hmem)
  · rw [hr, hn]
    exact h.created
  · intro c hmem
    rw [hr]
    exact h.registered c (hc c hmem)
  · intro u c hmem
    by_cases heq : u = t
    · subst heq
      rw [hself] at hmem
      rcases List.mem_append.mp hmem with hmem | hmem
      · cases hnew _ hmem
      · exact h.heralds u c (hrest.subset hmem)
    · rw [hother u heq] at hmem
      exact h.heralds u c hmem
  · intro u hu
    have hpart := hregistering u
    rw [h.others u hu] at hpart
    exact List.sublist_nil.mp hpart

theorem Admitted.onward {loop t : T} {s s' : TcpServer T U} (h : Admitted loop s)
    (new rest : List (Frame U)) (hs : Restacked s s' t (new ++ rest)) (hrest : rest.Sublist (s.stack t))
    (hnew : ∀ frame ∈ new, frame.plain = true) : Admitted loop s' := by
  obtain ⟨hc, hr, hn, ha, hstack⟩ := hs
  refine h.goes new rest hstack hrest hnew ?_ (by rw [hr]) hn ha
  rw [hc]
  exact fun _ hmem => hmem

omit [DecidableEq T] in
/-- The event loop, which alone registers, takes the ticket of a connection. -/
theorem Admitted.ticket {loop t : T} {s : TcpServer T U} (h : Admitted loop s) {c : Connection}
    {rest : List (Frame U)} (hstack : s.stack t = .register c :: rest) :
    t = loop ∧ c ∉ accepted s.raised ∧ c < s.created ∧
      c ∉ s.accepting.toList ++ registering rest := by
  obtain ⟨hloop, hticket, hused⟩ := ticket_taken h.others h.distinct hstack
  obtain ⟨hnot, hlt⟩ := h.unseen c hticket
  exact ⟨hloop, hnot, hlt, hused⟩

omit [DecidableEq T] in
/-- `onAccepted` is raised by `handle_accept` only. -/
theorem Admitted.not_accepted {loop t : T} {s : TcpServer T U} (h : Admitted loop s) {event : Event}
    {rest : List (Frame U)} (hstack : s.stack t = .emit event :: rest) :
    ∀ c, event ≠ .onAccepted c := by
  rintro c rfl
  exact h.heralds t c (by simp [hstack])

theorem Admitted.registers {loop t : T} {s : TcpServer T U} (h : Admitted loop s) {c : Connection}
    {rest : List (Frame U)} (hstack : s.stack t = .register c :: rest) :
    Admitted loop ((s.handleAccept t c).setStack t
      (.listening (.onAccepted c) :: .finishAccept :: rest)) := by
  obtain ⟨rfl, hunseen, hlt, hused⟩ := h.ticket hstack
  have hmoved : Admitted t (s.setStack t (.listening (.onAccepted c) :: .finishAccept :: rest)) :=
    h.onward [.listening (.onAccepted c), .finishAccept] rest (restacked ..)
      (by rw [hstack]; exact List.sublist_cons_self _ _) (by simp [Frame.plain])
  have htickets : tickets t (s.setStack t (.listening (.onAccepted c) :: .finishAccept :: rest)) =
      s.accepting.toList ++ registering rest := by
    rw [tickets, TcpServer.setStack_self]
    rfl
  have haccepted : ∀ d, d ∈ accepted (s.raised ++ [.onAccepted c]) ↔
      d ∈ accepted s.raised ∨ d = c := by
    intro d
    rw [accepted_append_self, List.mem_append, List.mem_singleton]
  constructor
  · exact hmoved.distinct
  · intro d hd
    obtain ⟨hnot, hlt'⟩ := hmoved.unseen d hd
    have hne : d ≠ c := by
      rintro rfl
      exact hused (htickets ▸ hd)
    refine ⟨?_, hlt'⟩
    intro hmem
    rcases (haccepted d).mp hmem with hmem | hmem
    · exact hnot hmem
    · exact hne hmem
  · intro d hd
    rcases (haccepted d).mp hd with hd | rfl
    · exact h.created d hd
    · exact hlt
  · intro d hd
    rcases List.mem_append.mp hd with hd | hd
    · exact (haccepted d).mpr (Or.inl (h.registered d hd))
    · exact (haccepted d).mpr (Or.inr (List.mem_singleton.mp hd))
  · exact hmoved.heralds
  · exact hmoved.others

omit [DecidableEq T] in
theorem Admitted.startAccept {loop : T} {s : TcpServer T U} (h : Admitted loop s) :
    Admitted loop s.startAccept := by
  obtain ⟨hdistinct, htickets⟩ := tickets_startAccept h.distinct fun c hc => (h.unseen c hc).2
  exact { h with
    distinct := hdistinct
    unseen := by
      intro c hc
      rcases htickets c hc with rfl | hc
      · exact ⟨fun hmem => Nat.lt_irrefl _ (h.created _ hmem), Nat.lt_succ_self _⟩
      · obtain ⟨hnot, hlt⟩ := h.unseen c hc
        exact ⟨hnot, Nat.lt_succ_of_lt hlt⟩
    created := fun c hc => Nat.lt_succ_of_lt (h.created c hc) }

theorem Admitted.accepting {loop : T} {s : TcpServer T U} (h : Admitted loop s) {c : Connection}
    (hc : s.accepting = some c) (frames : List (Frame U))
    (hframes : ∀ frame ∈ frames, frame.plain = true) :
    Admitted loop ({ s with accepting := none }.setStack loop (frames ++ [Frame.register c])) := by
  have htickets : (tickets loop ({ s with accepting := none }.setStack loop
      (frames ++ [Frame.register c]))).Sublist (tickets loop s) := by
    simp only [tickets]
    rw [TcpServer.setStack_self, registering_append, registering_plain hframes, hc]
    exact List.sublist_append_left _ _
  constructor
  · exact h.distinct.sublist htickets
  · exact fun d hd => h.unseen d (htickets.subset hd)
  · exact h.created
  · exact h.registered
  · intro u d hmem
    by_cases heq : u = loop
    · subst heq
      rw [TcpServer.setStack_self] at hmem
      rcases List.mem_append.mp hmem with hmem | hmem
      · cases hframes _ hmem
      · cases List.mem_singleton.mp hmem
    · rw [TcpServer.setStack_of_ne _ heq] at hmem
      exact h.heralds u d hmem
  · intro u hu
    rw [TcpServer.setStack_of_ne _ hu]
    exact h.others u hu

/-! ## One step -/

variable [DecidableEq U] {uuid : Connection → U}

theorem Admitted.advance {loop t : T} {s s' : TcpServer T U} (h : Admitted loop s) {frame : Frame U}
    {rest : List (Frame U)} (hstack : s.stack t = frame :: rest)
    (hs : s.advance uuid t rest frame = some s') : Admitted loop s' := by
  have hpart : rest.Sublist (s.stack t) := by
    rw [hstack]
    exact List.sublist_cons_self _ _
  cases TcpServer.advances_of_advance uuid hs with
  | @follows frame new hf =>
    exact h.onward new rest (restacked ..) hpart fun f hmem =>
      Frame.calm_plain (follows_calm hf f hmem)
  | post c | read c | notFound _ => exact h.onward [] rest ⟨rfl, rfl, rfl, rfl, rfl⟩ hpart (by simp)
  | @found c p hfound =>
    exact h.onward [.dropSlots c p] rest (restacked ..) hpart (by simp [Frame.plain])
  | dropSlots c p => exact h.onward [.erase p] rest (restacked ..) hpart (by simp [Frame.plain])
  | erase p =>
    exact h.goes [.recheck p] rest rfl hpart (by simp [Frame.plain])
      (fun _ hc => List.mem_of_mem_eraseP hc) rfl rfl rfl
  | @again p q hfound => exact h.onward [.erase p] rest (restacked ..) hpart (by simp [Frame.plain])
  | @removed p hnone =>
    exact h.onward [.emit (.onDisconnected p)] rest (restacked ..) hpart (by simp [Frame.plain])
  | emit event =>
    exact h.goes [.listening event] rest rfl hpart (by simp [Frame.plain]) (fun _ hc => hc)
      (accepted_append_other (h.not_accepted hstack) s.raised) rfl rfl
  | register c hsync => exact h.registers hstack
  | finishAccept =>
    have hmoved : Admitted loop (s.setStack t rest) :=
      h.onward [] rest (restacked ..) hpart (by simp)
    exact hmoved.startAccept

omit [DecidableEq U] in
theorem Admitted.dispatch {loop : T} {s s' : TcpServer T U} (h : Admitted loop s)
    {completion : Completion} (hs : TcpServer.Dispatches loop s completion s') : Admitted loop s' := by
  have hpart : ([] : List (Frame U)).Sublist (s.stack loop) := List.nil_sublist _
  cases hs with
  | accept hc => exact h.accepting hc [] (by simp)
  | acceptError error hc => exact h.accepting hc [.emit (.onAcceptError _ error)] (by simp [Frame.plain])
  | read messages hc =>
    exact h.onward [.reading _ messages] [] (restacked ..) hpart (by simp [Frame.plain])
  | @readError c error n hc =>
    unfold TcpServer.handleReadError TcpServer.emission
    split
    · split
      · exact h.onward [.disconnected c] [] (restacked ..) hpart (by simp [Frame.plain])
      · exact h.onward [] [] (restacked ..) hpart (by simp)
    · split
      · exact h.onward [.received c _] [] (restacked ..) hpart (by simp [Frame.plain])
      · exact h.onward [] [] (restacked ..) hpart (by simp)
  | writeError c error n =>
    unfold TcpServer.emission
    split
    · exact h.onward [.received c _, .writing c] [] (restacked ..) hpart (by simp [Frame.plain])
    · exact h.onward [.writing c] [] (restacked ..) hpart (by simp [Frame.plain])
  | closure hc => exact ⟨h.distinct, h.unseen, h.created, h.registered, h.heralds, h.others⟩

theorem Admitted.step {loop : T} {s s' : TcpServer T U} {a : Action T U} (h : Admitted loop s)
    (hs : TcpServer.step uuid loop s a = some s') : Admitted loop s' := by
  cases TcpServer.steps_of_step uuid hs with
  | dispatch hrunning hidle hd => exact h.dispatch hd
  | call op hidle hloop =>
    exact h.onward [TcpServer.entry uuid op] [] (restacked ..) (List.nil_sublist _)
      (by simpa using entry_plain uuid op)
  | @callback t event rest op hstack =>
    exact h.onward [TcpServer.entry uuid op] (.listening event :: rest) (restacked ..)
      (by rw [hstack]) (by simpa using entry_plain uuid op)
  | @returns t event rest hstack =>
    exact h.onward [] rest (restacked ..) (by rw [hstack]; exact List.sublist_cons_self _ _) (by simp)
  | @caught t event rest hstack hframes =>
    exact h.onward [] (TcpServer.unwind rest) (restacked ..)
      (by rw [hstack]; exact (List.dropWhile_sublist _).trans (List.sublist_cons_self _ _))
      (by simp)
  | @escapes t event rest hstack hframes =>
    exact h.onward [] [] (restacked ..) (List.nil_sublist _) (by simp)
  | advance hstack hadvance => exact h.advance hstack hadvance

end Diginext.Server
