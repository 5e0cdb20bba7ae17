import Diginext.Server.Reads
import Diginext.Server.Removal

/-! # Accepts that fail

`handle_accept` raises `onAcceptError` for a completion that carries an error, and does not return: it
registers the unconnected connection, starts its read and raises `onAccepted` as for any other. If a
listener of `onAcceptError` throws instead, the exception leaves `handle_accept` before the `try`, no
accept is started again and the event loop ends. `AcceptingServer` records the completions, what is put
into `connections` and the reads that are started; `failuresHarmless_iff` says that the server is as it
should be after exactly those runs in which no accept has failed.
-/
namespace Diginext.Server
open Cpp Transition
set_option autoImplicit false

/-! ## The record of a run -/

structure AcceptingServer (T U : Type) where
  server : TcpServer T U
  succeeded : List Connection
  failed : List (Connection × ErrorCode)
  registered : List Connection
  reads : List Connection

def AcceptingServer.started {T U : Type} : AcceptingServer T U := ⟨.started, [], [], [], []⟩

def acceptErrors (raised : List Event) : List (Connection × ErrorCode) :=
  raised.filterMap fun event =>
    match event with
    | .onAcceptError c error => some (c, error)
    | _ => none

section Record
variable {T U : Type} [DecidableEq T]

def succeeds (s : TcpServer T U) : Action T U → Option Connection
  | .dispatch (.accept none) => s.accepting
  | _ => none

def fails (s : TcpServer T U) : Action T U → Option (Connection × ErrorCode)
  | .dispatch (.accept (some error)) => s.accepting.map fun c => (c, error)
  | _ => none

/-- The connection of a `connections.push_back`. -/
def pushesBack (s : TcpServer T U) : Action T U → Option Connection
  | .advance t =>
    match s.stack t with
    | .register c :: _ => some c
    | _ => none
  | _ => none

variable [DecidableEq U] (uuid : Connection → U)

def AcceptingServer.step (loop : T) (w : AcceptingServer T U) (a : Action T U) :
    Option (AcceptingServer T U) :=
  match TcpServer.step uuid loop w.server a with
  | some server => some {
      server := server
      succeeded := w.succeeded ++ (succeeds w.server a).toList
      failed := w.failed ++ (fails w.server a).toList
      registered := w.registered ++ (pushesBack w.server a).toList
      reads := w.reads ++ (readStarted w.server a).toList }
  | none => none

end Record

/-- Every failed accept has raised `onAcceptError` once and has done nothing else; every other one has
raised `onAccepted` once and is registered once; and one accept is outstanding. -/
structure FailuresHarmless {T U : Type} (w : AcceptingServer T U) : Prop where
  errors : acceptErrors w.server.raised = w.failed
  accepted : accepted w.server.raised = w.succeeded
  registered : w.registered = w.succeeded
  unread : ∀ p ∈ w.failed, p.1 ∉ w.reads
  armed : w.server.accepting.isSome = true

/-! ## Where `handle_accept` stands

The call of `handle_accept` is the outermost one of the loop: it still has a connection to register, or
only to start the next accept.
-/

section Handling
variable {T U : Type}

def Frame.stage : Frame U → Option (Option Connection)
  | register c => some (some c)
  | finishAccept => some none
  | _ => none

def handling (frames : List (Frame U)) : Option (Option Connection) := frames.getLast?.bind Frame.stage

/-- The calls other than `handle_accept`, and the emissions of other signals. -/
def Frame.elsewhere : Frame U → Bool
  | register _ | finishAccept => false
  | emit (.onAccepted _) | emit (.onAcceptError _ _) => false
  | _ => true

theorem Frame.elsewhere_stage {frame : Frame U} (h : frame.elsewhere = true) : frame.stage = none := by
  cases frame with
  | register c | finishAccept => cases h
  | _ => rfl

theorem entry_elsewhere (uuid : Connection → U) (op : Operation U) :
    (TcpServer.entry uuid op).elsewhere = true := by
  cases op <;> rfl

theorem follows_elsewhere [DecidableEq U] {uuid : Connection → U} {s : TcpServer T U} {frame : Frame U}
    {new : List (Frame U)} (h : TcpServer.Follows uuid s frame new) :
    ∀ f ∈ new, f.elsewhere = true := by
  have hemission : ∀ (c : Connection) (signal : Signal) (handler frame : Frame U),
      handler.elsewhere = true → frame.elsewhere = true →
        ∀ f ∈ s.emission c signal handler ++ [frame], f.elsewhere = true := by
    intro c signal handler frame hhandler hframe f hf
    rcases TcpServer.mem_emission_concat hf with rfl | rfl
    · exact hhandler
    · exact hframe
  cases h with
  | stop c => exact hemission c _ _ _ rfl rfl
  | message c msg messages => exact hemission c _ _ _ rfl rfl
  | @passed c p notice hfound => cases notice <;> simp [Notice.event, Frame.elsewhere]
  | _ => simp [Frame.elsewhere]

theorem handling_kept (new : List (Frame U)) {kept frames : List (Frame U)} (hsuffix : kept <:+ frames)
    (hnew : ∀ f ∈ new, f.elsewhere = true) (h : kept = [] → handling frames = none) :
    handling (new ++ kept) = handling frames := by
  by_cases hnil : kept = []
  · subst hnil
    rw [List.append_nil, h rfl, handling]
    cases hlast : new.getLast? with
    | none => rfl
    | some f => exact Frame.elsewhere_stage (hnew f (List.mem_of_getLast? hlast))
  · obtain ⟨above, rfl⟩ := hsuffix
    rw [handling, handling, List.getLast?_append_of_ne_nil _ hnil,
      List.getLast?_append_of_ne_nil _ hnil]

/-- Only the outermost call of a stack can be `handle_accept`. -/
def Outermost (frames : List (Frame U)) : Prop := ∀ f ∈ frames.dropLast, f.stage = none

theorem outermost_kept {new kept frames : List (Frame U)} (h : Outermost frames)
    (hsuffix : kept <:+ frames) (hnew : ∀ f ∈ new, f.elsewhere = true) : Outermost (new ++ kept) := by
  intro f hf
  by_cases hnil : kept = []
  · subst hnil
    rw [List.append_nil] at hf
    exact Frame.elsewhere_stage (hnew f (List.mem_of_mem_dropLast hf))
  · rw [List.dropLast_append_of_ne_nil hnil] at hf
    rcases List.mem_append.mp hf with hf | hf
    · exact Frame.elsewhere_stage (hnew f hf)
    · obtain ⟨above, rfl⟩ := hsuffix
      rw [Outermost, List.dropLast_append_of_ne_nil hnil] at h
      exact h f (List.mem_append_right _ hf)

theorem Outermost.innermost {frame : Frame U} {rest : List (Frame U)} (h : Outermost (frame :: rest))
    (hframe : frame.stage ≠ none) : rest = [] := by
  by_contra hnil
  refine hframe (h frame ?_)
  rw [List.dropLast_cons_of_ne_nil hnil]
  exact List.mem_cons_self

end Handling

/-! ## What holds in every run -/

section Invariant
variable {T U : Type}

/-- As long as no accept has failed. -/
structure Unfailed (loop : T) (w : AcceptingServer T U) : Prop where
  errors : acceptErrors w.server.raised = []
  silent : ∀ t c error, .emit (.onAcceptError c error) ∉ w.server.stack t
  balance : w.succeeded = w.registered ++ (handling (w.server.stack loop)).join.toList
  handled : w.server.accepting = none → handling (w.server.stack loop) ≠ none
  alone : ∀ c, handling (w.server.stack loop) = some (some c) → w.server.stack loop = [.register c]

/-- A connection whose accept has failed is registered, or about to be, or the loop has ended. -/
structure Recorded (loop : T) (w : AcceptingServer T U) : Prop where
  admitted : Admitted loop w.server
  others : ∀ t, t ≠ loop → ∀ f ∈ w.server.stack t, f.stage = none
  outermost : Outermost (w.server.stack loop)
  registered : w.registered = accepted w.server.raised
  read : ∀ c ∈ w.registered, c ∈ w.reads
  pending : handling (w.server.stack loop) ≠ none → w.server.accepting = none
  failures : ∀ p ∈ w.failed, p.1 ∈ w.registered ∨
    handling (w.server.stack loop) = some (some p.1) ∨
    (w.server.accepting = none ∧ w.server.running = false ∧ handling (w.server.stack loop) = none)
  clean : w.failed = [] → Unfailed loop w

theorem started_recorded (loop : T) : Recorded loop (AcceptingServer.started : AcceptingServer T U) where
  admitted := started_admitted loop
  others := by simp [AcceptingServer.started, TcpServer.started]
  outermost := by simp [AcceptingServer.started, TcpServer.started, Outermost]
  registered := rfl
  read := by simp [AcceptingServer.started]
  pending := by simp [AcceptingServer.started, TcpServer.started, handling]
  failures := by simp [AcceptingServer.started]
  clean := fun _ => {
    errors := rfl
    silent := by simp [AcceptingServer.started, TcpServer.started]
    balance := rfl
    handled := by simp [AcceptingServer.started, TcpServer.started]
    alone := by simp [AcceptingServer.started, TcpServer.started, handling] }

variable [DecidableEq T]

/-- The thread `t` goes on and leaves `handle_accept`, if it is in it, where it stands. -/
structure Continues (loop t : T) (s s' : TcpServer T U) (new kept : List (Frame U)) : Prop where
  stack : s'.stack = Function.update s.stack t (new ++ kept)
  suffix : kept <:+ s.stack t
  elsewhere : ∀ f ∈ new, f.elsewhere = true
  accepted : accepted s'.raised = accepted s.raised
  errors : (∀ c error, .emit (.onAcceptError c error) ∉ s.stack t) →
    acceptErrors s'.raised = acceptErrors s.raised
  accepting : s'.accepting = s.accepting
  running : s.running = false → s'.running = false
  kept : t = loop → kept = [] → handling (s.stack loop) = none
  active : t = loop → ∀ c, s.stack loop ≠ [.register c]

theorem Recorded.goes {loop t : T} {w : AcceptingServer T U} {s' : TcpServer T U}
    {new kept : List (Frame U)} (h : Recorded loop w) (hadmitted : Admitted loop s')
    (hgoes : Continues loop t w.server s' new kept) : Recorded loop { w with server := s' } := by
  have hother : ∀ u, u ≠ t → s'.stack u = w.server.stack u := by
    intro u hu
    rw [hgoes.stack, Function.update_of_ne hu]
  have hself : s'.stack t = new ++ kept := by rw [hgoes.stack, Function.update_self]
  have hhandling : handling (s'.stack loop) = handling (w.server.stack loop) := by
    by_cases heq : t = loop
    · subst heq
      rw [hself]
      exact handling_kept new hgoes.suffix hgoes.elsewhere (hgoes.kept rfl)
    · rw [hother loop (Ne.symm heq)]
  have hmem : ∀ f ∈ s'.stack t, f.elsewhere = true ∨ f ∈ w.server.stack t := by
    intro f hf
    rw [hself] at hf
    exact (List.mem_append.mp hf).imp (hgoes.elsewhere f) fun hf => hgoes.suffix.subset hf
  constructor
  · exact hadmitted
  · intro u hu f hf
    by_cases heq : u = t
    · subst heq
      rcases hmem f hf with hf | hf
      · exact Frame.elsewhere_stage hf
      · exact h.others u hu f hf
    · rw [show s'.stack u = _ from hother u heq] at hf
      exact h.others u hu f hf
  · by_cases heq : t = loop
    · subst heq
      simp only [hself]
      exact outermost_kept h.outermost hgoes.suffix hgoes.elsewhere
    · simp only [hother loop (Ne.symm heq)]
      exact h.outermost
  · simp only [hgoes.accepted]
    exact h.registered
  · exact h.read
  · simp only [hhandling, hgoes.accepting]
    exact h.pending
  · intro p hp
    simp only [hhandling, hgoes.accepting]
    rcases h.failures p hp with hreg | hnext | ⟨hnone, hrunning, hidle⟩
    · exact Or.inl hreg
    · exact Or.inr (Or.inl hnext)
    · exact Or.inr (Or.inr ⟨hnone, hgoes.running hrunning, hidle⟩)
  · intro hfailed
    have hclean := h.clean hfailed
    constructor
    · rw [hgoes.errors fun c error => hclean.silent t c error]
      exact hclean.errors
    · intro u c error hf
      by_cases heq : u = t
      · subst heq
        rcases hmem _ hf with hf | hf
        · cases hf
        · exact hclean.silent u c error hf
      · rw [show s'.stack u = _ from hother u heq] at hf
        exact hclean.silent u c error hf
    · simp only [hhandling]
      exact hclean.balance
    · simp only [hhandling, hgoes.accepting]
      exact hclean.handled
    · intro c hc
      simp only [hhandling] at hc
      have halone := hclean.alone c hc
      by_cases heq : t = loop
      · exact absurd halone (hgoes.active heq c)
      · rw [show s'.stack loop = _ from hother loop (Ne.symm heq)]
        exact halone

/-! ## The steps of `handle_accept` -/

/-- `handle_accept` is called by the loop and by nothing else. -/
theorem Recorded.outermost_call {loop t : T} {w : AcceptingServer T U} (h : Recorded loop w)
    {frame : Frame U} {rest : List (Frame U)} (hstack : w.server.stack t = frame :: rest)
    (hframe : frame.stage ≠ none) : t = loop ∧ rest = [] := by
  have hloop : t = loop := by
    by_contra hne
    exact hframe (h.others t hne frame (by rw [hstack]; exact List.mem_cons_self))
  subst hloop
  have houtermost := h.outermost
  rw [hstack] at houtermost
  exact ⟨rfl, houtermost.innermost hframe⟩

theorem Recorded.others_setStack {loop : T} {w : AcceptingServer T U} (h : Recorded loop w)
    {s : TcpServer T U} (hs : s.stack = w.server.stack) (frames : List (Frame U)) :
    ∀ u, u ≠ loop → ∀ f ∈ (s.setStack loop frames).stack u, f.stage = none := by
  intro u hu f hf
  rw [TcpServer.setStack_of_ne _ hu, hs] at hf
  exact h.others u hu f hf

theorem silent_setStack {s : TcpServer T U} {frames : List (Frame U)}
    (h : ∀ u c error, .emit (.onAcceptError c error) ∉ s.stack u)
    (hframes : ∀ c error, .emit (.onAcceptError c error) ∉ frames) (t : T) :
    ∀ u c error, .emit (.onAcceptError c error) ∉ (s.setStack t frames).stack u := by
  intro u c error hf
  by_cases heq : u = t
  · subst heq
    rw [TcpServer.setStack_self] at hf
    exact hframes c error hf
  · rw [TcpServer.setStack_of_ne _ heq] at hf
    exact h u c error hf

/-- The connection is registered, and the handling goes on to its end. -/
theorem Recorded.registers {loop t : T} {w : AcceptingServer T U} (h : Recorded loop w) {c : Connection}
    {rest : List (Frame U)} (hstack : w.server.stack t = .register c :: rest) :
    Recorded loop { w with
      server := (w.server.handleAccept t c).setStack t
        (.listening (.onAccepted c) :: .finishAccept :: rest)
      registered := w.registered ++ [c]
      reads := w.reads ++ [c] } := by
  obtain ⟨rfl, rfl⟩ := h.outermost_call hstack (by simp [Frame.stage])
  have hbefore : handling (w.server.stack t) = some (some c) := by rw [hstack]; rfl
  have hafter : handling (((w.server.handleAccept t c).setStack t
      [.listening (.onAccepted c), .finishAccept]).stack t) = some none := by
    rw [TcpServer.setStack_self]
    rfl
  have haccepting := h.pending (by rw [hbefore]; simp)
  constructor
  · exact h.admitted.registers hstack
  · exact h.others_setStack rfl _
  · simp only [TcpServer.setStack_self]
    simp [Outermost, Frame.stage]
  · simp only [h.registered]
    exact (accepted_append_self c w.server.raised).symm
  · intro d hd
    rcases List.mem_append.mp hd with hd | hd
    · exact List.mem_append_left _ (h.read d hd)
    · exact List.mem_append_right _ hd
  · exact fun _ => haccepting
  · intro p hp
    left
    rcases h.failures p hp with hreg | hnext | ⟨-, -, hidle⟩
    · exact List.mem_append_left _ hreg
    · rw [hbefore] at hnext
      have heq : c = p.1 := by simpa using hnext
      simp [heq]
    · rw [hbefore] at hidle
      cases hidle
  · intro hfailed
    have hclean := h.clean hfailed
    constructor
    · have herrors : acceptErrors (w.server.raised ++ [.onAccepted c]) =
          acceptErrors w.server.raised := by
        rw [acceptErrors, List.filterMap_append]
        exact List.append_nil _
      exact herrors.trans hclean.errors
    · exact silent_setStack hclean.silent (by simp) _
    · have hbalance := hclean.balance
      rw [hbefore] at hbalance
      simp only [hafter, hbalance]
      simp
    · simp only [hafter]
      simp
    · intro d hd
      simp only [hafter] at hd
      cases hd

/-- `start_accept` at the end. -/
theorem Recorded.finishes {loop t : T} {w : AcceptingServer T U} (h : Recorded loop w)
    {rest : List (Frame U)} (hstack : w.server.stack t = .finishAccept :: rest)
    (hadmitted : Admitted loop (w.server.startAccept.setStack t rest)) :
    Recorded loop { w with server := w.server.startAccept.setStack t rest } := by
  obtain ⟨rfl, rfl⟩ := h.outermost_call hstack (by simp [Frame.stage])
  have hbefore : handling (w.server.stack t) = some none := by rw [hstack]; rfl
  have hafter : handling ((w.server.startAccept.setStack t []).stack t) = none := by
    rw [TcpServer.setStack_self]
    rfl
  constructor
  · exact hadmitted
  · exact h.others_setStack rfl _
  · simp only [TcpServer.setStack_self]
    simp [Outermost]
  · exact h.registered
  · exact h.read
  · intro hne
    simp only [hafter] at hne
    exact absurd rfl hne
  · intro p hp
    left
    rcases h.failures p hp with hreg | hnext | ⟨-, -, hidle⟩
    · exact hreg
    · rw [hbefore] at hnext
      simp at hnext
    · rw [hbefore] at hidle
      cases hidle
  · intro hfailed
    have hclean := h.clean hfailed
    constructor
    · exact hclean.errors
    · exact silent_setStack hclean.silent (by simp) _
    · have hbalance := hclean.balance
      rw [hbefore] at hbalance
      simp only [hafter, hbalance]
      rfl
    · intro hnone
      cases hnone
    · intro d hd
      simp only [hafter] at hd
      cases hd

/-- An accept has completed. -/
theorem Recorded.accepts {loop : T} {w : AcceptingServer T U} (h : Recorded loop w)
    (hidle : w.server.stack loop = []) (hrunning : w.server.running = true) {c : Connection}
    (above : List (Frame U)) (succeeded : List Connection) (failed : List (Connection × ErrorCode))
    (hadmitted : Admitted loop
      ({ w.server with accepting := none }.setStack loop (above ++ [Frame.register c])))
    (habove : ∀ f ∈ above, f.stage = none) (hfailed : ∀ p ∈ failed, p ∈ w.failed ∨ p.1 = c)
    (hclean : failed = [] → w.failed = [] ∧ above = [] ∧ succeeded = w.succeeded ++ [c]) :
    Recorded loop { w with
      server := { w.server with accepting := none }.setStack loop (above ++ [Frame.register c])
      succeeded := succeeded
      failed := failed } := by
  have hafter : handling (({ w.server with accepting := none }.setStack loop
      (above ++ [Frame.register c])).stack loop) = some (some c) := by
    rw [TcpServer.setStack_self, handling, List.getLast?_append_of_ne_nil _ (by simp)]
    rfl
  constructor
  · exact hadmitted
  · exact h.others_setStack rfl _
  · simp only [TcpServer.setStack_self]
    intro f hf
    rw [List.dropLast_concat] at hf
    exact habove f hf
  · exact h.registered
  · exact h.read
  · exact fun _ => rfl
  · intro p hp
    rcases hfailed p hp with hold | heq
    · rcases h.failures p hold with hreg | hnext | ⟨-, hhalted, -⟩
      · exact Or.inl hreg
      · rw [hidle] at hnext
        cases hnext
      · rw [hrunning] at hhalted
        cases hhalted
    · right
      left
      simp only [hafter, heq]
  · intro hnil
    obtain ⟨hbefore, rfl, rfl⟩ := hclean hnil
    have hold := h.clean hbefore
    constructor
    · exact hold.errors
    · exact silent_setStack hold.silent (by simp) _
    · have hbalance := hold.balance
      rw [hidle] at hbalance
      simp only [hafter, hbalance]
      simp [handling]
    · simp only [hafter]
      simp
    · intro d hd
      simp only [hafter, Option.some.injEq] at hd
      subst hd
      exact TcpServer.setStack_self _ _ _

/-- The exception of a listener leaves `handle_accept` before it has registered the connection. -/
theorem Recorded.ends {loop : T} {w : AcceptingServer T U} {s' : TcpServer T U} (h : Recorded loop w)
    (hadmitted : Admitted loop s') (hstack : s'.stack = Function.update w.server.stack loop [])
    (haccepted : accepted s'.raised = accepted w.server.raised) (haccepting : s'.accepting = w.server.accepting)
    (hrunning : s'.running = false) {c : Connection}
    (hhandling : handling (w.server.stack loop) = some (some c))
    (hactive : w.server.stack loop ≠ [.register c]) : Recorded loop { w with server := s' } := by
  have hself : s'.stack loop = [] := by rw [hstack, Function.update_self]
  have hnone := h.pending (by rw [hhandling]; simp)
  constructor
  · exact hadmitted
  · intro u hu f hf
    rw [show s'.stack u = w.server.stack u by rw [hstack, Function.update_of_ne hu]] at hf
    exact h.others u hu f hf
  · simp only [hself]
    simp [Outermost]
  · simp only [haccepted]
    exact h.registered
  · exact h.read
  · intro hne
    simp only [hself] at hne
    exact absurd rfl hne
  · intro p hp
    simp only [hself, haccepting, hrunning, hnone]
    rcases h.failures p hp with hreg | hnext | ⟨-, -, hidle⟩
    · exact Or.inl hreg
    · exact Or.inr (Or.inr ⟨trivial, trivial, rfl⟩)
    · rw [hhandling] at hidle
      cases hidle
  · intro hfailed
    exact absurd ((h.clean hfailed).alone c hhandling) hactive

omit [DecidableEq T] in
theorem Recorded.reads_more {loop : T} {w : AcceptingServer T U} (h : Recorded loop w)
    (more : List Connection) : Recorded loop { w with reads := w.reads ++ more } where
  admitted := h.admitted
  others := h.others
  outermost := h.outermost
  registered := h.registered
  read := fun c hc => List.mem_append_left _ (h.read c hc)
  pending := h.pending
  failures := h.failures
  clean := fun hfailed =>
    have hclean := h.clean hfailed
    ⟨hclean.errors, hclean.silent, hclean.balance, hclean.handled, hclean.alone⟩

/-! ## Every step -/

variable [DecidableEq U] {uuid : Connection → U}

omit [DecidableEq T] [DecidableEq U] in
theorem acceptErrors_append {event : Event} (h : ∀ c error, event ≠ .onAcceptError c error)
    (raised : List Event) : acceptErrors (raised ++ [event]) = acceptErrors raised := by
  rw [acceptErrors, List.filterMap_append]
  cases event with
  | onAcceptError c error => exact absurd rfl (h c error)
  | _ => exact List.append_nil _

omit [DecidableEq T] [DecidableEq U] in
/-- Where the innermost call of the loop is not `handle_accept`, `handle_accept` lies below it. -/
theorem handling_below {frame : Frame U} (hframe : frame.stage = none) {rest : List (Frame U)}
    (hnil : rest = []) : handling (frame :: rest) = none := by
  rw [hnil]
  exact hframe

omit [DecidableEq T] [DecidableEq U] in
theorem not_registering {loop t : T} {s : TcpServer T U} {frame : Frame U} {rest : List (Frame U)}
    (hold : s.stack t = frame :: rest) (hframe : frame.stage = none) :
    t = loop → ∀ c, s.stack loop ≠ [.register c] := by
  rintro rfl c heq
  rw [hold] at heq
  cases heq
  cases hframe

omit [DecidableEq U] in
/-- Only the calls of `t` change. -/
theorem continues_setStack {loop t : T} {s : TcpServer T U} (new kept : List (Frame U))
    (hsuffix : kept <:+ s.stack t) (hnew : ∀ f ∈ new, f.elsewhere = true)
    (hkept : t = loop → kept = [] → handling (s.stack loop) = none)
    (hactive : t = loop → ∀ c, s.stack loop ≠ [.register c]) :
    Continues loop t s (s.setStack t (new ++ kept)) new kept where
  stack := rfl
  suffix := hsuffix
  elsewhere := hnew
  accepted := rfl
  errors := fun _ => rfl
  accepting := rfl
  running := id
  kept := hkept
  active := hactive

omit [DecidableEq U] in
/-- The innermost call of `t` goes on to other calls. -/
theorem continues_call {loop t : T} {s s' : TcpServer T U} {frame : Frame U} {rest : List (Frame U)}
    (new : List (Frame U)) (hold : s.stack t = frame :: rest)
    (hstack : s'.stack = Function.update s.stack t (new ++ rest)) (hframe : frame.stage = none)
    (hnew : ∀ f ∈ new, f.elsewhere = true) (haccepted : accepted s'.raised = accepted s.raised)
    (herrors : (∀ c error, frame ≠ .emit (.onAcceptError c error)) →
      acceptErrors s'.raised = acceptErrors s.raised)
    (haccepting : s'.accepting = s.accepting) (hrunning : s'.running = s.running) :
    Continues loop t s s' new rest where
  stack := hstack
  suffix := by rw [hold]; exact List.suffix_cons _ _
  elsewhere := hnew
  accepted := haccepted
  errors := by
    intro hsilent
    refine herrors fun c error heq => hsilent c error ?_
    rw [hold, heq]
    exact List.mem_cons_self
  accepting := haccepting
  running := by rw [hrunning]; exact id
  kept := by
    rintro rfl hnil
    rw [hold]
    exact handling_below hframe hnil
  active := not_registering hold hframe

theorem Recorded.advance {loop t : T} {w : AcceptingServer T U} {s' : TcpServer T U} (h : Recorded loop w)
    {frame : Frame U} {rest : List (Frame U)} (hold : w.server.stack t = frame :: rest)
    (hs : w.server.advance uuid t rest frame = some s') :
    Recorded loop { w with
      server := s'
      registered := w.registered ++ (pushesBack w.server (.advance t : Action T U)).toList
      reads := w.reads ++ (readStarted w.server (.advance t : Action T U)).toList } := by
  have hadmitted := h.admitted.advance hold hs
  have hmoves : ∀ new, s'.stack = Function.update w.server.stack t (new ++ rest) → frame.stage = none →
      (∀ f ∈ new, f.elsewhere = true) → accepted s'.raised = accepted w.server.raised →
      ((∀ c error, frame ≠ .emit (.onAcceptError c error)) →
        acceptErrors s'.raised = acceptErrors w.server.raised) →
      s'.accepting = w.server.accepting → s'.running = w.server.running →
      Recorded loop { w with
        server := s'
        reads := w.reads ++ (readStarted w.server (.advance t : Action T U)).toList } :=
    fun new hstack hframe hnew haccepted herrors haccepting hrunning =>
      (h.goes hadmitted (continues_call new hold hstack hframe hnew haccepted herrors haccepting
        hrunning)).reads_more _
  have hnone : frame.stage = none →
      (pushesBack w.server (.advance t : Action T U)).toList = [] := by
    intro hframe
    simp only [pushesBack, hold]
    cases frame with
    | register c => cases hframe
    | _ => rfl
  cases TcpServer.advances_of_advance uuid hs with
  | @follows frame new hf =>
    have hframe : frame.stage = none := by cases hf <;> rfl
    rw [hnone hframe, List.append_nil]
    exact hmoves new rfl hframe (follows_elsewhere hf) rfl (fun _ => rfl) rfl rfl
  | post c | notFound _ | read c =>
    rw [hnone rfl, List.append_nil]
    exact hmoves [] rfl rfl (by simp) rfl (fun _ => rfl) rfl rfl
  | @found c p hfound =>
    rw [hnone rfl, List.append_nil]
    exact hmoves [.dropSlots c p] rfl rfl (by simp [Frame.elsewhere]) rfl (fun _ => rfl) rfl rfl
  | @again p q hfound =>
    rw [hnone rfl, List.append_nil]
    exact hmoves [.erase p] rfl rfl (by simp [Frame.elsewhere]) rfl (fun _ => rfl) rfl rfl
  | dropSlots c p =>
    rw [hnone rfl, List.append_nil]
    exact hmoves [.erase p] rfl rfl (by simp [Frame.elsewhere]) rfl (fun _ => rfl) rfl rfl
  | erase p =>
    rw [hnone rfl, List.append_nil]
    exact hmoves [.recheck p] rfl rfl (by simp [Frame.elsewhere]) rfl (fun _ => rfl) rfl rfl
  | @removed p hgone =>
    rw [hnone rfl, List.append_nil]
    exact hmoves [.emit (.onDisconnected p)] rfl rfl (by simp [Frame.elsewhere]) rfl (fun _ => rfl)
      rfl rfl
  | emit event =>
    rw [hnone rfl, List.append_nil]
    refine hmoves [.listening event] rfl rfl (by simp [Frame.elsewhere])
      (accepted_append_other (h.admitted.not_accepted hold) _) (fun hne => ?_) rfl rfl
    exact acceptErrors_append (fun c error heq => hne c error (by rw [heq])) _
  | register c hsync =>
    have hpushed : (pushesBack w.server (.advance t : Action T U)).toList = [c] := by
      simp only [pushesBack, hold]
      rfl
    have hread : (readStarted w.server (.advance t : Action T U)).toList = [c] := by
      simp only [readStarted, hold]
      rfl
    rw [hpushed, hread]
    exact h.registers hold
  | finishAccept =>
    have hpushed : (pushesBack w.server (.advance t : Action T U)).toList = [] := by
      simp only [pushesBack, hold]
      rfl
    rw [hpushed, List.append_nil]
    exact (h.finishes hold hadmitted).reads_more _

omit [DecidableEq U] in
theorem Recorded.dispatch {loop : T} {w : AcceptingServer T U} {s' : TcpServer T U} (h : Recorded loop w)
    {completion : Completion} (hrunning : w.server.running = true) (hidle : w.server.stack loop = [])
    (hs : TcpServer.Dispatches loop w.server completion s') :
    Recorded loop { w with
      server := s'
      succeeded := w.succeeded ++ (succeeds w.server (.dispatch completion : Action T U)).toList
      failed := w.failed ++ (fails w.server (.dispatch completion : Action T U)).toList } := by
  have hadmitted := h.admitted.dispatch hs
  have hmoves : ∀ new, s'.stack = Function.update w.server.stack loop new →
      (∀ f ∈ new, f.elsewhere = true) → s'.raised = w.server.raised →
      s'.accepting = w.server.accepting → s'.running = w.server.running →
      Recorded loop { w with server := s' } := by
    intro new hstack hnew hraised haccepting hrun
    have hgoes : Continues loop loop w.server s' new [] := {
      stack := by rw [List.append_nil, hstack]
      suffix := List.nil_suffix
      elsewhere := hnew
      accepted := by rw [hraised]
      errors := fun _ => by rw [hraised]
      accepting := haccepting
      running := by rw [hrun]; exact id
      kept := fun _ _ => by rw [hidle]; rfl
      active := fun _ c heq => by rw [hidle] at heq; cases heq }
    exact h.goes hadmitted hgoes
  cases hs with
  | @accept c hc =>
    have hsucceeds : (succeeds w.server (.dispatch (.accept none) : Action T U)).toList = [c] := by
      simp only [succeeds, hc]
      rfl
    rw [hsucceeds]
    refine h.accepts hidle hrunning [] _ _ hadmitted (by simp) (fun p hp => ?_) fun hnil => ?_
    · exact Or.inl (by simpa [fails] using hp)
    · exact ⟨by simpa [fails] using hnil, rfl, rfl⟩
  | @acceptError c error hc =>
    have hfails : (fails w.server (.dispatch (.accept (some error)) : Action T U)).toList =
        [(c, error)] := by
      simp only [fails, hc]
      rfl
    rw [hfails]
    refine h.accepts hidle hrunning [.emit (.onAcceptError c error)] _ _ hadmitted
      (by simp [Frame.stage]) (fun p hp => ?_) fun hnil => ?_
    · rcases List.mem_append.mp hp with hp | hp
      · exact Or.inl hp
      · exact Or.inr (by rw [List.mem_singleton.mp hp])
    · simp at hnil
  | @read c messages hc =>
    simpa [succeeds, fails] using hmoves [.reading c messages] rfl (by simp [Frame.elsewhere]) rfl rfl rfl
  | @readError c error n hc =>
    have hnew : ∀ f ∈ w.server.handleReadError c error n, f.elsewhere = true := by
      intro f hf
      rcases TcpServer.mem_handleReadError hf with rfl | rfl
      · rfl
      · rfl
    simpa [succeeds, fails] using hmoves _ rfl hnew rfl rfl rfl
  | writeError c error n =>
    have hnew : ∀ f ∈ w.server.emission c .onSendError (handleTcpConnectionSendError c error n) ++
        [.writing c], f.elsewhere = true := by
      intro f hf
      rcases TcpServer.mem_emission_concat hf with rfl | rfl
      · rfl
      · rfl
    simpa [succeeds, fails] using hmoves _ rfl hnew rfl rfl rfl
  | closure hc =>
    have hsame : Function.update w.server.stack loop [] = w.server.stack := by
      rw [← hidle, Function.update_eq_self]
    simpa [succeeds, fails] using hmoves [] hsame.symm (by simp) rfl rfl rfl

/-- What the step relation of the record consists of. -/
theorem step_recorded {loop : T} {w w' : AcceptingServer T U} {a : Action T U}
    (h : w.step uuid loop a = some w') : ∃ s', TcpServer.step uuid loop w.server a = some s' ∧
      w' = {
        server := s'
        succeeded := w.succeeded ++ (succeeds w.server a).toList
        failed := w.failed ++ (fails w.server a).toList
        registered := w.registered ++ (pushesBack w.server a).toList
        reads := w.reads ++ (readStarted w.server a).toList } := by
  unfold AcceptingServer.step at h
  split at h
  · rename_i s' hs
    exact ⟨s', hs, (Option.some.inj h).symm⟩
  · cases h

omit [DecidableEq T] [DecidableEq U] in
theorem suffix_unwind (rest : List (Frame U)) : TcpServer.unwind rest <:+ rest :=
  List.dropWhile_suffix _

omit [DecidableEq U] in
/-- An exception that leaves all calls has not met `finishAccept`. -/
theorem handling_of_unwind {frame : Frame U} {rest : List (Frame U)} (hframe : frame.stage = none)
    (h : TcpServer.unwind rest = []) : handling (frame :: rest) ≠ some none := by
  intro hfinish
  have hmem : Frame.finishAccept ∈ frame :: rest := by
    rw [handling] at hfinish
    cases hlast : (frame :: rest).getLast? with
    | none =>
      rw [hlast] at hfinish
      cases hfinish
    | some f =>
      rw [hlast] at hfinish
      cases f with
      | finishAccept => exact List.mem_of_getLast? hlast
      | register c => simp [Frame.stage] at hfinish
      | _ => cases hfinish
  rcases List.mem_cons.mp hmem with heq | hmem
  · rw [← heq] at hframe
    cases hframe
  · have hkept := mem_unwind rfl hmem
    rw [h] at hkept
    cases hkept

theorem Recorded.step {loop : T} {w w' : AcceptingServer T U} {a : Action T U} (h : Recorded loop w)
    (hs : w.step uuid loop a = some w') : Recorded loop w' := by
  obtain ⟨s', hserver, rfl⟩ := step_recorded hs
  have hadmitted := h.admitted.step hserver
  cases TcpServer.steps_of_step uuid hserver with
  | dispatch hrunning hidle hd =>
    simpa [pushesBack, readStarted] using h.dispatch hrunning hidle hd
  | @call t op hidle hloop =>
    have hkept : t = loop → ([] : List (Frame U)) = [] → handling (w.server.stack loop) = none := by
      rintro rfl -
      rw [hidle]
      rfl
    have hactive : t = loop → ∀ c, w.server.stack loop ≠ [.register c] := by
      rintro rfl c heq
      rw [hidle] at heq
      cases heq
    have hgoes := continues_setStack [TcpServer.entry uuid op] [] List.nil_suffix
      (by simpa using entry_elsewhere uuid op) hkept hactive
    simpa [succeeds, fails, pushesBack, readStarted] using h.goes hadmitted hgoes
  | @callback t event rest op hold =>
    have hactive : t = loop → ∀ c, w.server.stack loop ≠ [.register c] := not_registering hold rfl
    have hgoes := continues_setStack [TcpServer.entry uuid op] (.listening event :: rest)
      (by rw [hold]) (by simpa using entry_elsewhere uuid op) (by simp) hactive
    simpa [succeeds, fails, pushesBack, readStarted] using h.goes hadmitted hgoes
  | @returns t event rest hold =>
    have hgoes : Continues loop t w.server (w.server.setStack t rest) [] rest :=
      continues_call [] hold rfl rfl (by simp) rfl (fun _ => rfl) rfl rfl
    simpa [succeeds, fails, pushesBack, readStarted] using h.goes hadmitted hgoes
  | @caught t event rest hold hframes =>
    have hsuffix : TcpServer.unwind rest <:+ w.server.stack t := by
      rw [hold]
      exact (suffix_unwind rest).trans (List.suffix_cons _ _)
    have hactive : t = loop → ∀ c, w.server.stack loop ≠ [.register c] := not_registering hold rfl
    have hgoes := continues_setStack [] (TcpServer.unwind rest) hsuffix (by simp)
      (fun _ hnil => absurd hnil hframes) hactive
    simpa [succeeds, fails, pushesBack, readStarted] using h.goes hadmitted hgoes
  | @escapes t event rest hold hframes =>
    have hactive : t = loop → ∀ c, w.server.stack loop ≠ [.register c] := not_registering hold rfl
    by_cases hout : t = loop ∧ handling (w.server.stack loop) ≠ none
    · obtain ⟨rfl, hhandling⟩ := hout
      have hnot : handling (w.server.stack t) ≠ some none := by
        rw [hold]
        exact handling_of_unwind rfl hframes
      cases hstage : handling (w.server.stack t) with
      | none => exact absurd hstage hhandling
      | some next =>
        cases next with
        | none => exact absurd hstage hnot
        | some c =>
          have hhalted : (w.server.running && decide (t ≠ t)) = false := by simp
          have hends := h.ends hadmitted rfl rfl rfl hhalted hstage (hactive rfl c)
          simpa [succeeds, fails, pushesBack, readStarted] using hends
    · have hgoes : Continues loop t w.server
          ({ w.server with running := w.server.running && decide (t ≠ loop) }.setStack t []) [] [] := {
        stack := rfl
        suffix := List.nil_suffix
        elsewhere := by simp
        accepted := rfl
        errors := fun _ => rfl
        accepting := rfl
        running := by
          intro hhalted
          change (w.server.running && decide (t ≠ loop)) = false
          rw [hhalted, Bool.false_and]
        kept := fun heq _ => not_not.mp fun hhandling => hout ⟨heq, hhandling⟩
        active := hactive }
      simpa [succeeds, fails, pushesBack, readStarted] using h.goes hadmitted hgoes
  | advance hold hadvance =>
    simpa [succeeds, fails] using h.advance hold hadvance

/-! ## The server after a run -/

/-- **Failed accepts.** Whenever the event loop has completed what it was doing, the server is as it
should be exactly if no accept has completed with an error. -/
theorem failuresHarmless_iff (uuid : Connection → U) (loop : T) (as : List (Action T U))
    (w : AcceptingServer T U) (hrun : run (AcceptingServer.step uuid loop) .started as = some w)
    (hidle : w.server.stack loop = []) : FailuresHarmless w ↔ w.failed = [] := by
  have h : Recorded loop w :=
    run_invariant (I := Recorded loop) (fun _ _ _ hI hs => hI.step hs) (started_recorded loop) hrun
  have hnone : handling (w.server.stack loop) = none := by rw [hidle]; rfl
  constructor
  · intro hharmless
    by_contra hfailed
    obtain ⟨p, hp⟩ := List.exists_mem_of_ne_nil _ hfailed
    rcases h.failures p hp with hreg | hnext | ⟨haccepting, -, -⟩
    · exact hharmless.unread p hp (h.read _ hreg)
    · rw [hnone] at hnext
      cases hnext
    · have harmed := hharmless.armed
      rw [haccepting] at harmed
      cases harmed
  · intro hfailed
    have hclean := h.clean hfailed
    have hbalance : w.registered = w.succeeded := by
      rw [hclean.balance, hnone]
      exact (List.append_nil _).symm
    constructor
    · rw [hfailed]
      exact hclean.errors
    · rw [← h.registered, hbalance]
    · exact hbalance
    · simp [hfailed]
    · by_contra hdisarmed
      exact hclean.handled (by simpa using hdisarmed) hnone

end Invariant

theorem failuresHarmless_accepted : ∃ w,
    run (AcceptingServer.step id true) AcceptingServer.started acceptOne = some w ∧
      w.registered = [0] ∧ FailuresHarmless w := by
  have hrun : ((run (AcceptingServer.step id true) AcceptingServer.started acceptOne).map fun w =>
      (w.server.stack true, w.registered, w.failed)) = some ([], [0], []) := by decide +kernel
  obtain ⟨w, hw, hfields⟩ := Option.map_eq_some_iff.mp hrun
  simp only [Prod.mk.injEq] at hfields
  obtain ⟨hidle, hregistered, hfailed⟩ := hfields
  exact ⟨w, hw, hregistered, (failuresHarmless_iff id true acceptOne w hw hidle).mpr hfailed⟩

/-- An accept fails and the listeners return. -/
def failsOne : List (Action Bool ℕ) :=
  [.dispatch (.accept (some (.other 24))), .advance true, .returns true, .advance true, .returns true,
    .advance true]

theorem phantom_connection : ¬ ∀ (as : List (Action Bool ℕ)) (w : AcceptingServer Bool ℕ),
    run (AcceptingServer.step id true) .started as = some w → w.server.stack true = [] →
      FailuresHarmless w := by
  intro h
  have hrun : ((run (AcceptingServer.step id true) AcceptingServer.started failsOne).map fun w =>
      (w.server.stack true, w.failed, w.reads)) = some ([], [(0, .other 24)], [0]) := by
    decide +kernel
  obtain ⟨w, hw, hfields⟩ := Option.map_eq_some_iff.mp hrun
  simp only [Prod.mk.injEq] at hfields
  obtain ⟨hidle, hfailed, hreads⟩ := hfields
  have hharmless := h failsOne w hw hidle
  refine hharmless.unread (0, .other 24) ?_ ?_
  · rw [hfailed]
    exact List.mem_singleton.mpr rfl
  · rw [hreads]
    exact List.mem_singleton.mpr rfl

end Diginext.Server
