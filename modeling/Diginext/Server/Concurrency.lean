import Diginext.Server.EventLoop
import Mathlib.Data.Fintype.Basic

/-! # Disconnect notifications of concurrent threads

`handle_tcp_connection_disconnected` looks a connection up, removes it and raises `onDisconnected` in
separate critical sections. Two threads that both look it up before either has removed it both raise.
A run without such a lookup (`Uncontended`) raises `onDisconnected` at most once for every connection:
a connection is in `connections`, or in flight in exactly one thread, or neither ever again
(`Notified`). That a connection is registered only once is seen by its ticket: it is `accepting`, or on
its way to the registry in the event loop (`registering`), or neither.
-/
namespace Diginext.Server
open Cpp Transition
set_option autoImplicit false

variable {T U : Type}

/-- The connection that a thread has found and will raise `onDisconnected` for. -/
def inFlight : List (Frame U) → Option Connection
  | .dropSlots _ p :: _ => some p
  | .erase p :: _ => some p
  | .recheck p :: _ => some p
  | .emit (.onDisconnected p) :: _ => some p
  | _ => none

def registering (frames : List (Frame U)) : List Connection :=
  frames.filterMap fun frame =>
    match frame with
    | .register c => some c
    | _ => none

def tickets (loop : T) (s : TcpServer T U) : List Connection :=
  s.accepting.toList ++ registering (s.stack loop)

/-- `start_accept` hands out the ticket of a connection that has just been created. -/
theorem tickets_startAccept {loop : T} {s : TcpServer T U} (hdistinct : (tickets loop s).Nodup)
    (hcreated : ∀ c ∈ tickets loop s, c < s.created) :
    (tickets loop s.startAccept).Nodup ∧
      ∀ c ∈ tickets loop s.startAccept, c = s.created ∨ c ∈ tickets loop s := by
  have hrest : (registering (s.stack loop)).Nodup :=
    hdistinct.sublist (List.sublist_append_right _ _)
  constructor
  · refine List.nodup_cons.mpr ⟨?_, hrest⟩
    intro hmem
    exact Nat.lt_irrefl _ (hcreated s.created (List.mem_append_right _ hmem))
  · intro c hc
    exact (List.mem_cons.mp hc).imp id fun hmem => List.mem_append_right _ hmem

/-- Only the event loop registers, and the ticket of what it registers is the only one. -/
theorem ticket_taken {loop t : T} {s : TcpServer T U}
    (hothers : ∀ u, u ≠ loop → registering (s.stack u) = []) (hdistinct : (tickets loop s).Nodup)
    {c : Connection} {rest : List (Frame U)} (hstack : s.stack t = .register c :: rest) :
    t = loop ∧ c ∈ tickets loop s ∧ c ∉ s.accepting.toList ++ registering rest := by
  have hloop : t = loop := by
    by_contra hne
    have hnone := hothers t hne
    rw [hstack] at hnone
    cases hnone
  subst hloop
  have htickets : tickets t s = s.accepting.toList ++ c :: registering rest := by
    rw [tickets, hstack]
    rfl
  rw [htickets, List.nodup_middle, List.nodup_cons] at hdistinct
  exact ⟨rfl, by simp [htickets], hdistinct.1⟩

structure Notified (loop : T) (s : TcpServer T U) : Prop where
  once : ∀ c, s.raised.count (.onDisconnected c) ≤ 1
  announced : ∀ c, .onDisconnected c ∈ s.raised → .onAccepted c ∈ s.raised
  registered : ∀ c ∈ s.connections, .onAccepted c ∈ s.raised ∧ .onDisconnected c ∉ s.raised
  leaving : ∀ t c, inFlight (s.stack t) = some c →
    .onAccepted c ∈ s.raised ∧ .onDisconnected c ∉ s.raised
  alone : ∀ t u c, inFlight (s.stack t) = some c → inFlight (s.stack u) = some c → t = u
  erased : ∀ t c rest, s.stack t = .emit (.onDisconnected c) :: rest → c ∉ s.connections
  below : ∀ t, ∀ frame ∈ (s.stack t).tail, inFlight [frame] = none
  heralds : ∀ t c, .emit (.onAccepted c) ∉ s.stack t
  distinct : (tickets loop s).Nodup
  unseen : ∀ c ∈ tickets loop s, .onAccepted c ∉ s.raised ∧ c < s.created
  created : ∀ c, .onAccepted c ∈ s.raised → c < s.created
  others : ∀ t, t ≠ loop → registering (s.stack t) = []

theorem started_notified (loop : T) : Notified loop (TcpServer.started : TcpServer T U) where
  once := by simp [TcpServer.started]
  announced := by simp [TcpServer.started]
  registered := by simp [TcpServer.started]
  leaving := by simp [TcpServer.started, inFlight]
  alone := by simp [TcpServer.started, inFlight]
  erased := by simp [TcpServer.started]
  below := by simp [TcpServer.started]
  heralds := by simp [TcpServer.started]
  distinct := by simp [TcpServer.started, tickets, registering]
  unseen := by simp [TcpServer.started, tickets, registering]
  created := by simp [TcpServer.started]
  others := by simp [TcpServer.started, registering]

theorem inFlight_cons (frame : Frame U) (rest : List (Frame U)) :
    inFlight (frame :: rest) = inFlight [frame] := by
  cases frame with
  | emit event => cases event <;> rfl
  | _ => rfl

theorem inFlight_some {frame : Frame U} {c : Connection} (h : inFlight [frame] = some c) :
    registering [frame] = [] ∧ ∀ d, frame ≠ .emit (.onAccepted d) := by
  cases frame with
  | dropSlots _ _ | erase _ | recheck _ => exact ⟨rfl, by simp⟩
  | emit event =>
    cases event with
    | onDisconnected p => exact ⟨rfl, by simp⟩
    | _ => cases h
  | _ => cases h

/-! ## Steps that only move a thread -/

/-- The thread `t` goes on, and neither registry nor events change. It is then in flight only as it
was, or for a registered connection that no thread is in flight for; and it registers nothing that has
not been offered to it. -/
structure Moves (loop : T) (s s' : TcpServer T U) (t : T) : Prop where
  connections : s'.connections = s.connections
  raised : s'.raised = s.raised
  created : s'.created = s.created
  others : ∀ u, u ≠ t → s'.stack u = s.stack u
  flight : ∀ c, inFlight (s'.stack t) = some c → inFlight (s.stack t) = some c ∨
    (c ∈ s.connections ∧ ∀ u, inFlight (s.stack u) ≠ some c)
  erased : ∀ c rest, s'.stack t = .emit (.onDisconnected c) :: rest → c ∉ s.connections
  below : ∀ frame ∈ (s'.stack t).tail, inFlight [frame] = none
  heralds : ∀ c, .emit (.onAccepted c) ∉ s'.stack t
  offers : (tickets loop s').Sublist (tickets loop s)
  registers : t ≠ loop → registering (s'.stack t) = []

theorem Notified.moves {loop t : T} {s s' : TcpServer T U} (h : Notified loop s)
    (hm : Moves loop s s' t) : Notified loop s' := by
  have hflight : ∀ u c, inFlight (s'.stack u) = some c → inFlight (s.stack u) = some c ∨
      (u = t ∧ c ∈ s.connections ∧ ∀ v, inFlight (s.stack v) ≠ some c) := by
    intro u c hu
    by_cases heq : u = t
    · subst heq
      rcases hm.flight c hu with hold | hnew
      · exact Or.inl hold
      · exact Or.inr ⟨rfl, hnew⟩
    · rw [hm.others u heq] at hu
      exact Or.inl hu
  constructor
  · rw [hm.raised]
    exact h.once
  · rw [hm.raised]
    exact h.announced
  · rw [hm.connections, hm.raised]
    exact h.registered
  · intro u c hu
    rw [hm.raised]
    rcases hflight u c hu with hold | ⟨-, hmem, -⟩
    · exact h.leaving u c hold
    · exact h.registered c hmem
  · intro u v c hu hv
    rcases hflight u c hu with hu | ⟨rfl, -, hfree⟩
    · rcases hflight v c hv with hv | ⟨-, -, hfree⟩
      · exact h.alone u v c hu hv
      · exact absurd hu (hfree u)
    · rcases hflight v c hv with hv | ⟨rfl, -, -⟩
      · exact absurd hv (hfree v)
      · rfl
  · intro u c rest hu
    rw [hm.connections]
    by_cases heq : u = t
    · subst heq
      exact hm.erased c rest hu
    · rw [hm.others u heq] at hu
      exact h.erased u c rest hu
  · intro u
    by_cases heq : u = t
    · subst heq
      exact hm.below
    · rw [hm.others u heq]
      exact h.below u
  · intro u c
    by_cases heq : u = t
    · subst heq
      exact hm.heralds c
    · rw [hm.others u heq]
      exact h.heralds u c
  · exact h.distinct.sublist hm.offers
  · intro c hc
    rw [hm.raised, hm.created]
    exact h.unseen c (hm.offers.subset hc)
  · rw [hm.raised, hm.created]
    exact h.created
  · intro u hu
    by_cases heq : u = t
    · subst heq
      exact hm.registers hu
    · rw [hm.others u heq]
      exact h.others u hu

/-- The calls that are neither in flight nor about to register or announce a connection. -/
def Frame.calm : Frame U → Bool
  | dropSlots _ _ | erase _ | recheck _ | register _ => false
  | emit (.onAccepted _) | emit (.onDisconnected _) => false
  | _ => true

theorem Frame.calm_spec {frame : Frame U} (h : frame.calm = true) :
    inFlight [frame] = none ∧ (∀ c, frame ≠ .emit (.onAccepted c)) ∧ registering [frame] = [] := by
  cases frame with
  | dropSlots _ _ | erase _ | recheck _ | register _ => cases h
  | emit event =>
    cases event with
    | onAccepted _ | onDisconnected _ => cases h
    | _ => exact ⟨rfl, by simp, rfl⟩
  | _ => exact ⟨rfl, by simp, rfl⟩

theorem registering_append (frames frames' : List (Frame U)) :
    registering (frames ++ frames') = registering frames ++ registering frames' :=
  List.filterMap_append

theorem registering_calm {frames : List (Frame U)} (h : ∀ frame ∈ frames, frame.calm = true) :
    registering frames = [] := by
  induction frames with
  | nil => rfl
  | cons frame frames ih =>
    obtain ⟨hfirst, hrest⟩ := List.forall_mem_cons.mp h
    rw [← List.singleton_append, registering_append, (Frame.calm_spec hfirst).2.2, ih hrest]
    rfl

variable [DecidableEq T]

/-- A state that differs from another in the stack of one thread, and in fields that do not matter. -/
def Restacked (s s' : TcpServer T U) (t : T) (frames : List (Frame U)) : Prop :=
  s'.connections = s.connections ∧ s'.raised = s.raised ∧ s'.created = s.created ∧
    s'.accepting = s.accepting ∧ s'.stack = Function.update s.stack t frames

theorem restacked (s : TcpServer T U) (t : T) (frames : List (Frame U)) :
    Restacked s (s.setStack t frames) t frames := ⟨rfl, rfl, rfl, rfl, rfl⟩

/-- A thread whose stack keeps no more than a part of what lay below its innermost call. -/
theorem Moves.of_restacked {loop t : T} {s s' : TcpServer T U} (h : Notified loop s)
    {new rest : List (Frame U)} (hs : Restacked s s' t (new ++ rest))
    (hrest : rest.Sublist (s.stack t).tail)
    (hflight : ∀ c, inFlight (new ++ rest) = some c → inFlight (s.stack t) = some c ∨
      (c ∈ s.connections ∧ ∀ u, inFlight (s.stack u) ≠ some c))
    (herased : ∀ c tail, new ++ rest = .emit (.onDisconnected c) :: tail → c ∉ s.connections)
    (hbelow : ∀ frame ∈ new.tail, inFlight [frame] = none)
    (hheralds : ∀ c, .emit (.onAccepted c) ∉ new) (hregisters : registering new = []) :
    Moves loop s s' t := by
  obtain ⟨hc, hr, hn, ha, hstack⟩ := hs
  have hself : s'.stack t = new ++ rest := by rw [hstack, Function.update_self]
  have hother : ∀ u, u ≠ t → s'.stack u = s.stack u := by
    intro u hu
    rw [hstack, Function.update_of_ne hu]
  have hpart : rest.Sublist (s.stack t) := hrest.trans (List.tail_sublist _)
  have hold : (registering rest).Sublist (registering (s.stack t)) := hpart.filterMap _
  have hsub : (registering (s'.stack t)).Sublist (registering (s.stack t)) := by
    rwa [hself, registering_append, hregisters, List.nil_append]
  refine ⟨hc, hr, hn, hother, ?_, ?_, ?_, ?_, ?_, ?_⟩
  · rw [hself]
    exact hflight
  · rw [hself]
    exact herased
  · rw [hself]
    intro frame hframe
    have hcases : frame ∈ new.tail ∨ frame ∈ rest := by
      cases new with
      | nil => exact Or.inr (List.mem_of_mem_tail hframe)
      | cons first new => exact List.mem_append.mp hframe
    rcases hcases with hnew | hrest'
    · exact hbelow frame hnew
    · exact h.below t frame (hrest.subset hrest')
  · rw [hself]
    intro c hc
    rcases List.mem_append.mp hc with hc | hc
    · exact hheralds c hc
    · exact h.heralds t c (hpart.subset hc)
  · unfold tickets
    rw [ha]
    apply (List.Sublist.refl _).append
    by_cases heq : loop = t
    · subst heq
      exact hsub
    · rw [hother loop heq]
  · intro hne
    rw [h.others t hne] at hsub
    exact List.sublist_nil.mp hsub

theorem Notified.goes {loop t : T} {s s' : TcpServer T U} (h : Notified loop s)
    (new rest : List (Frame U)) (hs : Restacked s s' t (new ++ rest))
    (hrest : rest.Sublist (s.stack t).tail) (hnew : ∀ frame ∈ new, frame.calm = true) :
    Notified loop s' := by
  have hnone : inFlight (new ++ rest) = none := by
    cases new with
    | nil =>
      cases rest with
      | nil => rfl
      | cons frame rest =>
        rw [List.nil_append, inFlight_cons]
        exact h.below t frame (hrest.subset (List.mem_cons_self ..))
    | cons frame new =>
      rw [List.cons_append, inFlight_cons]
      exact (Frame.calm_spec (hnew frame (List.mem_cons_self ..))).1
  apply h.moves
  apply Moves.of_restacked h hs hrest
  · intro c hc
    rw [hnone] at hc
    cases hc
  · intro c tail hc
    rw [hc] at hnone
    cases hnone
  · intro frame hframe
    exact (Frame.calm_spec (hnew frame (List.mem_of_mem_tail hframe))).1
  · intro c hc
    exact (Frame.calm_spec (hnew _ hc)).2.1 c rfl
  · exact registering_calm hnew

/-- The thread is in flight, for the connection it was in flight for or for one it has just found. -/
theorem Notified.flies {loop t : T} {s s' : TcpServer T U} (h : Notified loop s) {c : Connection}
    (frame : Frame U) (rest : List (Frame U)) (hs : Restacked s s' t (frame :: rest))
    (hrest : rest.Sublist (s.stack t).tail) (hc : inFlight [frame] = some c)
    (hflight : inFlight (s.stack t) = some c ∨
      (c ∈ s.connections ∧ ∀ u, inFlight (s.stack u) ≠ some c))
    (herased : frame = .emit (.onDisconnected c) → c ∉ s.connections) : Notified loop s' := by
  obtain ⟨hregisters, hheralds⟩ := inFlight_some hc
  have hs' : Restacked s s' t ([frame] ++ rest) := hs
  apply h.moves
  apply Moves.of_restacked h hs' hrest
  · intro d hd
    rw [List.singleton_append, inFlight_cons, hc] at hd
    cases hd
    exact hflight
  · intro d tail hd
    rw [List.singleton_append, List.cons.injEq] at hd
    have heq : c = d := by
      rw [hd.1] at hc
      exact (Option.some.inj hc).symm
    subst heq
    exact herased hd.1
  · simp
  · intro d hd
    exact hheralds d (List.mem_singleton.mp hd).symm
  · exact hregisters

/-! ## Steps that change the registry or raise an event -/

omit [DecidableEq T] in
theorem Notified.fewer {loop : T} {s s' : TcpServer T U} (h : Notified loop s)
    (hc : ∀ c ∈ s'.connections, c ∈ s.connections) (hr : s'.raised = s.raised)
    (hs : s'.stack = s.stack) (ha : s'.accepting = s.accepting) (hn : s'.created = s.created) :
    Notified loop s' where
  once := by rw [hr]; exact h.once
  announced := by rw [hr]; exact h.announced
  registered := by
    intro c hmem
    rw [hr]
    exact h.registered c (hc c hmem)
  leaving := by rw [hs, hr]; exact h.leaving
  alone := by rw [hs]; exact h.alone
  erased := by
    intro t c rest hstack hmem
    rw [hs] at hstack
    exact h.erased t c rest hstack (hc c hmem)
  below := by rw [hs]; exact h.below
  heralds := by rw [hs]; exact h.heralds
  distinct := by rw [tickets, ha, hs]; exact h.distinct
  unseen := by rw [tickets, ha, hs, hr, hn]; exact h.unseen
  created := by rw [hr, hn]; exact h.created
  others := by rw [hs]; exact h.others

omit [DecidableEq T] in
/-- An event other than `onAccepted`. An `onDisconnected` is the first of its connection, and the
connection is neither registered nor in flight. -/
theorem Notified.raise {loop : T} {s : TcpServer T U} (h : Notified loop s) {event : Event}
    (hne : ∀ c, event ≠ .onAccepted c)
    (hfirst : ∀ c, event = .onDisconnected c → .onAccepted c ∈ s.raised ∧
      .onDisconnected c ∉ s.raised ∧ c ∉ s.connections ∧ ∀ t, inFlight (s.stack t) ≠ some c) :
    Notified loop { s with raised := s.raised ++ [event] } := by
  have haccepted : ∀ c, .onAccepted c ∈ s.raised ++ [event] ↔ .onAccepted c ∈ s.raised := by
    intro c
    simp [Ne.symm (hne c)]
  have hdisconnected : ∀ c, .onDisconnected c ∉ s.raised → event ≠ .onDisconnected c →
      .onDisconnected c ∉ s.raised ++ [event] := by
    intro c hnot hother
    simp [hnot, Ne.symm hother]
  constructor
  · intro c
    simp only [List.count_append, List.count_singleton]
    by_cases heq : event = .onDisconnected c
    · have hzero := List.count_eq_zero_of_not_mem (hfirst c heq).2.1
      simp [heq, hzero]
    · have hone := h.once c
      simp [heq, hone]
  · intro c hc
    simp only [haccepted]
    rcases List.mem_append.mp hc with hc | hc
    · exact h.announced c hc
    · exact (hfirst c (List.mem_singleton.mp hc).symm).1
  · intro c hc
    simp only [haccepted]
    obtain ⟨hmem, hnot⟩ := h.registered c hc
    refine ⟨hmem, hdisconnected c hnot ?_⟩
    intro heq
    exact (hfirst c heq).2.2.1 hc
  · intro t c ht
    simp only [haccepted]
    obtain ⟨hmem, hnot⟩ := h.leaving t c ht
    refine ⟨hmem, hdisconnected c hnot ?_⟩
    intro heq
    exact (hfirst c heq).2.2.2 t ht
  · exact h.alone
  · exact h.erased
  · exact h.below
  · exact h.heralds
  · exact h.distinct
  · intro c hc
    simp only [haccepted]
    exact h.unseen c hc
  · intro c hc
    exact h.created c ((haccepted c).mp hc)
  · exact h.others

omit [DecidableEq T] in
theorem Notified.accept {loop : T} {s : TcpServer T U} (h : Notified loop s) (t : T) {c : Connection}
    (hunseen : .onAccepted c ∉ s.raised) (hlt : c < s.created) (hused : c ∉ tickets loop s) :
    Notified loop (s.handleAccept t c) := by
  have hquiet : .onDisconnected c ∉ s.raised := fun hmem => hunseen (h.announced c hmem)
  have hdisconnected : ∀ d, .onDisconnected d ∈ s.raised ++ [.onAccepted c] ↔
      .onDisconnected d ∈ s.raised := by simp
  have haccepted : ∀ d, .onAccepted d ∈ s.raised ++ [.onAccepted c] ↔
      .onAccepted d ∈ s.raised ∨ d = c := by simp
  constructor
  · intro d
    simp only [TcpServer.handleAccept, List.count_append]
    have hone := h.once d
    simpa using hone
  · intro d hd
    simp only [TcpServer.handleAccept, hdisconnected] at hd
    exact (haccepted d).mpr (Or.inl (h.announced d hd))
  · intro d hd
    simp only [TcpServer.handleAccept, List.mem_append, List.mem_singleton] at hd
    simp only [TcpServer.handleAccept, hdisconnected, haccepted]
    rcases hd with hd | rfl
    · exact ⟨Or.inl (h.registered d hd).1, (h.registered d hd).2⟩
    · exact ⟨Or.inr rfl, hquiet⟩
  · intro u d hu
    simp only [TcpServer.handleAccept, hdisconnected, haccepted]
    exact ⟨Or.inl (h.leaving u d hu).1, (h.leaving u d hu).2⟩
  · exact h.alone
  · intro u d rest hu hmem
    simp only [TcpServer.handleAccept, List.mem_append, List.mem_singleton] at hu hmem
    rcases hmem with hmem | rfl
    · exact h.erased u d rest hu hmem
    · have hflight : inFlight (s.stack u) = some d := by
        rw [hu]
        rfl
      exact hunseen (h.leaving u d hflight).1
  · exact h.below
  · exact h.heralds
  · exact h.distinct
  · intro d hd
    have hne : d ≠ c := by
      rintro rfl
      exact hused hd
    simp only [TcpServer.handleAccept, haccepted]
    obtain ⟨hnot, hlt'⟩ := h.unseen d hd
    exact ⟨by simp [hnot, hne], hlt'⟩
  · intro d hd
    simp only [TcpServer.handleAccept, haccepted] at hd
    rcases hd with hd | rfl
    · exact h.created d hd
    · exact hlt
  · exact h.others

omit [DecidableEq T] in
theorem Notified.startAccept {loop : T} {s : TcpServer T U} (h : Notified loop s) :
    Notified loop s.startAccept := by
  obtain ⟨hdistinct, htickets⟩ := tickets_startAccept h.distinct fun c hc => (h.unseen c hc).2
  exact { h with
    distinct := hdistinct
    unseen := by
      intro c hc
      rcases htickets c hc with rfl | hc
      · exact ⟨fun hmem => Nat.lt_irrefl _ (h.created _ hmem), Nat.lt_succ_self _⟩
      · obtain ⟨hnot, hlt⟩ := h.unseen c hc
        exact ⟨hnot, Nat.lt_succ_of_lt hlt⟩
    created := fun c hc => Nat.lt_succ_of_lt (h.created c hc) }

/-! ## One step -/

theorem Notified.emits {loop t : T} {s : TcpServer T U} (h : Notified loop s) {event : Event}
    {rest : List (Frame U)} (hstack : s.stack t = .emit event :: rest) :
    Notified loop ({ s with raised := s.raised ++ [event] }.setStack t (.listening event :: rest)) := by
  have hpart : rest.Sublist (s.stack t).tail := by rw [hstack]; exact List.Sublist.refl _
  have hmoved : Notified loop (s.setStack t (.listening event :: rest)) :=
    h.goes [.listening event] rest (restacked ..) hpart (by simp [Frame.calm])
  refine hmoved.raise ?_ ?_
  · rintro c rfl
    exact h.heralds t c (by simp [hstack])
  · rintro c rfl
    have hflight : inFlight (s.stack t) = some c := by
      rw [hstack]
      rfl
    obtain ⟨hmem, hnot⟩ := h.leaving t c hflight
    refine ⟨hmem, hnot, h.erased t c rest hstack, ?_⟩
    intro u hu
    by_cases heq : u = t
    · subst heq
      rw [TcpServer.setStack_self] at hu
      cases hu
    · rw [TcpServer.setStack_of_ne s heq] at hu
      exact heq (h.alone u t c hu hflight)

/-- A connection is registered by the event loop, which has taken its ticket. -/
theorem Notified.registers {loop t : T} {s : TcpServer T U} (h : Notified loop s) {c : Connection}
    {rest : List (Frame U)} (hstack : s.stack t = .register c :: rest) :
    Notified loop ((s.handleAccept t c).setStack t
      (.listening (.onAccepted c) :: .finishAccept :: rest)) := by
  have hpart : rest.Sublist (s.stack t).tail := by rw [hstack]; exact List.Sublist.refl _
  have hmoved : Notified loop (s.setStack t (.listening (.onAccepted c) :: .finishAccept :: rest)) :=
    h.goes [.listening (.onAccepted c), .finishAccept] rest (restacked ..) hpart
      (by simp [Frame.calm])
  obtain ⟨rfl, hticket, hused⟩ := ticket_taken h.others h.distinct hstack
  have hafter : tickets t (s.setStack t (.listening (.onAccepted c) :: .finishAccept :: rest)) =
      s.accepting.toList ++ registering rest := by
    rw [tickets, TcpServer.setStack_self]
    rfl
  obtain ⟨hnot, hlt⟩ := h.unseen c hticket
  exact hmoved.accept t hnot hlt (by rw [hafter]; exact hused)

variable [DecidableEq U] (uuid : Connection → U)

/-- The connection that `t` finds next, if it is at the lookup of
`handle_tcp_connection_disconnected`. -/
def findsNext (s : TcpServer T U) (t : T) : Option Connection :=
  match s.stack t with
  | .disconnected c :: _ => s.getConnectionByUUID uuid (uuid c)
  | _ => none

/-- The step is not such a lookup that finds a connection for which a thread is between its own lookup
and its `onDisconnected`. -/
def Uncontended (s : TcpServer T U) : Action T U → Prop
  | .advance t => ∀ u, findsNext uuid s t = none ∨ inFlight (s.stack u) ≠ findsNext uuid s t
  | _ => True

instance [Fintype T] (s : TcpServer T U) (a : Action T U) : Decidable (Uncontended uuid s a) :=
  match a with
  | .advance t => inferInstanceAs
      (Decidable (∀ u, findsNext uuid s t = none ∨ inFlight (s.stack u) ≠ findsNext uuid s t))
  | .dispatch _ | .call _ _ | .returns _ | .throws _ => isTrue trivial

variable {uuid}

omit [DecidableEq T] in
theorem follows_calm {s : TcpServer T U} {frame : Frame U} {new : List (Frame U)}
    (h : TcpServer.Follows uuid s frame new) : ∀ f ∈ new, f.calm = true := by
  intro f hf
  cases h with
  | notFound _ | noneLeft | ignored _ | written _ => cases hf
  | found _ | copied =>
    rw [List.mem_singleton.mp hf]
    rfl
  | each c cs =>
    rcases List.mem_pair.mp hf with rfl | rfl
    · rfl
    · rfl
  | stop c | message c msg messages =>
    rcases TcpServer.mem_emission_concat hf with rfl | rfl
    · rfl
    · rfl
  | @passed c p notice hfound =>
    rw [List.mem_singleton.mp hf]
    cases notice <;> rfl

theorem Notified.advance {loop t : T} {s s' : TcpServer T U} (h : Notified loop s) {frame : Frame U}
    {rest : List (Frame U)} (hstack : s.stack t = frame :: rest)
    (huncontended : Uncontended uuid s (.advance t))
    (hs : s.advance uuid t rest frame = some s') : Notified loop s' := by
  have hpart : rest.Sublist (s.stack t).tail := by rw [hstack]; exact List.Sublist.refl _
  have hflight : ∀ p, inFlight [frame] = some p → inFlight (s.stack t) = some p := by
    intro p hp
    rw [hstack, inFlight_cons]
    exact hp
  cases TcpServer.advances_of_advance uuid hs with
  | @follows frame new hf => exact h.goes new rest (restacked ..) hpart (follows_calm hf)
  | post c | read c | notFound _ => exact h.goes [] rest ⟨rfl, rfl, rfl, rfl, rfl⟩ hpart (by simp)
  | @found c p hfound =>
    have hfree : ∀ u, inFlight (s.stack u) ≠ some p := by
      have hnext : findsNext uuid s t = some p := by
        simp only [findsNext, hstack]
        exact hfound
      intro u
      have hu := huncontended u
      rw [hnext] at hu
      simpa using hu
    exact h.flies (.dropSlots c p) rest (restacked ..) hpart rfl
      (Or.inr ⟨(TcpServer.getConnectionByUUID_some hfound).1, hfree⟩) (by simp)
  | dropSlots c p =>
    exact h.flies (.erase p) rest (restacked ..) hpart rfl (Or.inl (hflight p rfl)) (by simp)
  | erase p =>
    have hfewer : Notified loop (s.removeFirst uuid (uuid p)) :=
      h.fewer (fun c hc => List.mem_of_mem_eraseP hc) rfl rfl rfl rfl
    exact hfewer.flies (.recheck p) rest (restacked ..) hpart rfl (Or.inl (hflight p rfl)) (by simp)
  | @again p q hfound =>
    exact h.flies (.erase p) rest (restacked ..) hpart rfl (Or.inl (hflight p rfl)) (by simp)
  | @removed p hnone =>
    exact h.flies (.emit (.onDisconnected p)) rest (restacked ..) hpart rfl
      (Or.inl (hflight p rfl))
      fun _ => TcpServer.not_registered_of_lookup hnone
  | emit event => exact h.emits hstack
  | register c hsync => exact h.registers hstack
  | finishAccept =>
    have hmoved : Notified loop (s.setStack t rest) :=
      h.goes [] rest (restacked ..) hpart (by simp)
    exact hmoved.startAccept

omit [DecidableEq U] in
theorem Notified.accepting {loop : T} {s : TcpServer T U} (h : Notified loop s) {c : Connection}
    (hc : s.accepting = some c) (frames : List (Frame U))
    (hframes : ∀ frame ∈ frames, frame.calm = true) :
    Notified loop ({ s with accepting := none }.setStack loop (frames ++ [Frame.register c])) := by
  have hnone : inFlight (frames ++ [Frame.register c]) = none := by
    cases frames with
    | nil => rfl
    | cons frame frames =>
      rw [List.cons_append, inFlight_cons]
      exact (Frame.calm_spec (hframes frame (List.mem_cons_self ..))).1
  have htickets : registering (frames ++ [Frame.register c]) = [c] := by
    rw [registering_append, registering_calm hframes]
    rfl
  apply h.moves (t := loop)
  refine ⟨rfl, rfl, rfl, ?_, ?_, ?_, ?_, ?_, ?_, ?_⟩
  · intro u hu
    rw [TcpServer.setStack_of_ne _ hu]
  · intro d hd
    rw [TcpServer.setStack_self, hnone] at hd
    cases hd
  · intro d rest hd
    rw [TcpServer.setStack_self] at hd
    rw [hd] at hnone
    cases hnone
  · rw [TcpServer.setStack_self]
    intro frame hframe
    have hcases : frame ∈ frames ∨ frame = .register c := by
      have hmem := List.mem_of_mem_tail hframe
      simpa using hmem
    rcases hcases with hmem | rfl
    · exact (Frame.calm_spec (hframes frame hmem)).1
    · rfl
  · rw [TcpServer.setStack_self]
    intro d hd
    rcases List.mem_append.mp hd with hd | hd
    · exact (Frame.calm_spec (hframes _ hd)).2.1 d rfl
    · cases List.mem_singleton.mp hd
  · simp only [tickets]
    rw [TcpServer.setStack_self, htickets, hc]
    exact List.sublist_append_left _ _
  · intro hne
    exact absurd rfl hne

omit [DecidableEq U] in
theorem Notified.dispatch {loop : T} {s s' : TcpServer T U} (h : Notified loop s)
    {completion : Completion} (hs : TcpServer.Dispatches loop s completion s') : Notified loop s' := by
  have hpart : ([] : List (Frame U)).Sublist (s.stack loop).tail := List.nil_sublist _
  cases hs with
  | accept hc => exact h.accepting hc [] (by simp)
  | acceptError error hc => exact h.accepting hc [.emit (.onAcceptError _ error)] (by simp [Frame.calm])
  | read messages hc => exact h.goes [.reading _ messages] [] (restacked ..) hpart (by simp [Frame.calm])
  | @readError c error n hc =>
    unfold TcpServer.handleReadError TcpServer.emission
    split
    · split
      · exact h.goes [.disconnected c] [] (restacked ..) hpart (by simp [Frame.calm])
      · exact h.goes [] [] (restacked ..) hpart (by simp)
    · split
      · exact h.goes [.received c _] [] (restacked ..) hpart (by simp [Frame.calm])
      · exact h.goes [] [] (restacked ..) hpart (by simp)
  | writeError c error n =>
    unfold TcpServer.emission
    split
    · exact h.goes [.received c _, .writing c] [] (restacked ..) hpart (by simp [Frame.calm])
    · exact h.goes [.writing c] [] (restacked ..) hpart (by simp [Frame.calm])
  | closure hc => exact h.fewer (fun c hc => hc) rfl rfl rfl rfl

theorem Notified.step {loop : T} {s s' : TcpServer T U} {a : Action T U} (h : Notified loop s)
    (huncontended : Uncontended uuid s a) (hs : TcpServer.step uuid loop s a = some s') :
    Notified loop s' := by
  have hcalm : ∀ op, (TcpServer.entry uuid op).calm = true := by
    intro op
    cases op <;> rfl
  cases TcpServer.steps_of_step uuid hs with
  | dispatch hrunning hidle hd => exact h.dispatch hd
  | call op hidle hloop =>
    exact h.goes [TcpServer.entry uuid op] [] (restacked ..) (List.nil_sublist _)
      (by simpa using hcalm op)
  | @callback t event rest op hstack =>
    exact h.goes [TcpServer.entry uuid op, .listening event] rest (restacked ..)
      (by rw [hstack]; exact List.Sublist.refl _) (by simpa [Frame.calm] using hcalm op)
  | @returns t event rest hstack =>
    exact h.goes [] rest (restacked ..) (by rw [hstack]; exact List.Sublist.refl _) (by simp)
  | @caught t event rest hstack hframes =>
    exact h.goes [] (TcpServer.unwind rest) (restacked ..)
      (by rw [hstack]; exact List.dropWhile_sublist _) (by simp)
  | escapes hstack hframes =>
    exact h.goes [] [] (restacked ..) (List.nil_sublist _) (by simp)
  | advance hstack hadvance => exact h.advance hstack huncontended hadvance

/-! ## Whole runs -/

/-- **At most one disconnect notification**, in every run without contended lookups. -/
theorem notified_once (uuid : Connection → U) (loop : T) (as : List (Action T U)) (s : TcpServer T U)
    (hrun : run (TcpServer.step uuid loop) TcpServer.started as = some s)
    (hmeets : Meets (TcpServer.step uuid loop) (Uncontended uuid) TcpServer.started as)
    (c : Connection) : s.raised.count (.onDisconnected c) ≤ 1 := by
  have halong := along_of_meets (I := Notified loop) (fun _ _ _ hI hC hs => hI.step hC hs)
    (started_notified loop) hmeets
  exact (halong.last hrun).once c

def acceptOne : List (Action Bool ℕ) :=
  [.dispatch (.accept none), .advance true, .returns true, .advance true]

/-- The loop reads the end of the stream while the other thread disconnects the connection; the other
thread's lookup comes after the loop has removed it. -/
def oneAfterTheOther : List (Action Bool ℕ) :=
  acceptOne ++ [.call false (.disconnect 0), .advance false, .advance false,
    .dispatch (.readError 0 .eof 0), .advance true, .advance true, .advance true, .advance true,
    .advance true, .advance false, .returns true, .advance false]

theorem notified_once_oneAfterTheOther : ∃ s,
    run (TcpServer.step id true) TcpServer.started oneAfterTheOther = some s ∧
      s.raised.count (.onDisconnected 0) ≤ 1 := by
  have hruns : (run (TcpServer.step id true) TcpServer.started oneAfterTheOther).isSome = true := by
    decide +kernel
  obtain ⟨s, hs⟩ := Option.isSome_iff_exists.mp hruns
  exact ⟨s, hs, notified_once id true oneAfterTheOther s hs (by decide +kernel) 0⟩

/-- The same, but both threads look the connection up before either has removed it. -/
def bothAtOnce : List (Action Bool ℕ) :=
  acceptOne ++ [.call false (.disconnect 0), .advance false, .advance false,
    .dispatch (.readError 0 .eof 0), .advance false, .advance true, .advance false, .advance false,
    .advance false, .advance false, .advance true, .advance true, .advance true, .advance true]

theorem notified_twice : ¬ ∀ (as : List (Action Bool ℕ)) (s : TcpServer Bool ℕ),
    run (TcpServer.step id true) TcpServer.started as = some s →
      ∀ c, s.raised.count (.onDisconnected c) ≤ 1 := by
  intro h
  have hrun : ((run (TcpServer.step id true) TcpServer.started bothAtOnce).map fun s =>
      s.raised.count (.onDisconnected 0)) = some 2 := by decide +kernel
  obtain ⟨s, hs, hcount⟩ := Option.map_eq_some_iff.mp hrun
  have hone := h bothAtOnce s hs 0
  omega

end Diginext.Server
