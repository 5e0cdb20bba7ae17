import Diginext.Server.Departure

/-! # A registered connection is being read

`WatchedServer` counts the reads of each connection that have been started and have not completed. A
read that fails is followed by no other: `handle_read` raises `onDisconnected` on an end of stream or a
reset, whose handler removes the connection, but on any other error only `onReadError`. The loop has
then done with a dead connection that is still registered, unless somebody disconnects it
(`attended_iff`).
-/
namespace Diginext.Server
open Cpp Transition
set_option autoImplicit false

/-! ## The reads of a connection -/

structure WatchedServer (T U : Type) where
  server : TcpServer T U
  outstanding : Connection → ℕ

def WatchedServer.started {T U : Type} : WatchedServer T U := ⟨.started, fun _ => 0⟩

section Reads
variable {T U : Type} [DecidableEq T]

/-- The connection for which a step calls `async_read_until`: in `tcp_connection::start`, or at the end
of `handle_read`. -/
def readStarted (s : TcpServer T U) : Action T U → Option Connection
  | .advance t =>
    match s.stack t with
    | .register c :: _ => some c
    | .reading c [] :: _ => some c
    | _ => none
  | _ => none

def readCompleted : Action T U → Option Connection
  | .dispatch (.read c _) => some c
  | .dispatch (.readError c _ _) => some c
  | _ => none

variable [DecidableEq U] (uuid : Connection → U)

def WatchedServer.step (loop : T) (w : WatchedServer T U) (a : Action T U) :
    Option (WatchedServer T U) :=
  match TcpServer.step uuid loop w.server a with
  | some server => some {
      server := server
      outstanding := fun c => w.outstanding c + (if readStarted w.server a = some c then 1 else 0) -
        (if readCompleted a = some c then 1 else 0) }
  | none => none

/-- When the loop has completed an event, every registered connection has one read outstanding, and an
accepted connection that has none is no longer registered and its `onDisconnected` has been raised. -/
def Attended (loop : T) (w : WatchedServer T U) : Prop :=
  w.server.stack loop = [] →
    (∀ c ∈ w.server.connections, w.outstanding c = 1) ∧
      ∀ c ∈ accepted w.server.raised, w.outstanding c = 0 →
        c ∉ w.server.connections ∧ .onDisconnected c ∈ w.server.raised

/-- The step ends the handling of a failed read of the connection without raising `onDisconnected`: no
handler is connected to the signal that `handle_read` raises, or the handler does not find the
connection, or the listeners of `onReadError` have returned. -/
def abandons (loop : T) (s : TcpServer T U) : Action T U → Option Connection
  | .dispatch (.readError c error n) => if s.handleReadError c error n = [] then some c else none
  | .advance t =>
    if t = loop then
      match s.stack loop with
      | [.disconnected c] => if s.getConnectionByUUID uuid (uuid c) = none then some c else none
      | [.received c (.readError _ _)] =>
        if s.getConnectionByUUID uuid (uuid c) = none then some c else none
      | _ => none
    else none
  | .returns t =>
    if t = loop then
      match s.stack loop with
      | [.listening (.onReadError c _ _)] => some c
      | _ => none
    else none
  | _ => none

def Announced (loop : T) (w : WatchedServer T U) (a : Action T U) : Prop :=
  ∀ c, abandons uuid loop w.server a = some c → .onDisconnected c ∈ w.server.raised

instance (loop : T) (w : WatchedServer T U) (a : Action T U) :
    Decidable (Announced uuid loop w a) :=
  decidable_of_iff
    (∀ c ∈ (abandons uuid loop w.server a).toList, .onDisconnected c ∈ w.server.raised)
    (by simp [Announced, Option.mem_toList])

end Reads

/-! ## What the loop still has to do for a connection

The connection of a completed read stands in a `reading` frame until the next read is started. That of
a failed read stands in the outermost call of the loop until its handling ends.
-/

section Handling
variable {T U : Type}

def readers (frames : List (Frame U)) : List Connection :=
  frames.filterMap fun frame =>
    match frame with
    | .reading c _ => some c
    | _ => none

def Frame.failing : Frame U → Option Connection
  | disconnected c => some c
  | dropSlots _ p | erase p | recheck p | emit (.onDisconnected p) => some p
  | received c (.readError _ _) => some c
  | emit (.onReadError c _ _) | listening (.onReadError c _ _) => some c
  | _ => none

def failing (frames : List (Frame U)) : Option Connection := frames.getLast?.bind Frame.failing

theorem readers_append (frames frames' : List (Frame U)) :
    readers (frames ++ frames') = readers frames ++ readers frames' :=
  List.filterMap_append

theorem failing_below (new : List (Frame U)) {rest : List (Frame U)} (h : rest ≠ []) :
    failing (new ++ rest) = failing rest := by
  unfold failing
  rw [List.getLast?_append_of_ne_nil _ h]

theorem failing_swap (new : List (Frame U)) {frame : Frame U} (rest : List (Frame U))
    (h : rest = [] → failing new = frame.failing) : failing (new ++ rest) = failing (frame :: rest) := by
  by_cases hrest : rest = []
  · rw [hrest, List.append_nil, h hrest]
    rfl
  · rw [failing_below new hrest, ← List.singleton_append, failing_below _ hrest]

structure Tended (loop : T) (s : TcpServer T U) : Prop where
  one : (readers (s.stack loop)).length ≤ 1
  others : ∀ t, t ≠ loop → readers (s.stack t) = []
  reading : ∀ c, s.reading c = true → c ∈ accepted s.raised
  completed : ∀ c ∈ readers (s.stack loop),
    c ∈ accepted s.raised ∧ s.reading c = false ∧ failing (s.stack loop) = none
  failed : ∀ c, failing (s.stack loop) = some c → c ∈ accepted s.raised ∧ s.reading c = false
  settled : ∀ c ∈ accepted s.raised, s.reading c = true ∨ c ∈ readers (s.stack loop) ∨
    failing (s.stack loop) = some c ∨ .onDisconnected c ∈ s.raised

theorem started_tended (loop : T) : Tended loop (TcpServer.started : TcpServer T U) where
  one := by simp [TcpServer.started, readers]
  others := by simp [TcpServer.started, readers]
  reading := by simp [TcpServer.started]
  completed := by simp [TcpServer.started, readers]
  failed := by simp [TcpServer.started, failing]
  settled := by simp [TcpServer.started, accepted]

variable [DecidableEq T]

/-- A thread goes on, and no read starts or completes. If the loop has then done with a failed read,
the connection has been announced. -/
theorem Tended.goes {loop t : T} {s s' : TcpServer T U} (h : Tended loop s) (frames : List (Frame U))
    (hstack : s'.stack = Function.update s.stack t frames) (hread : s'.reading = s.reading)
    (haccepted : accepted s'.raised = accepted s.raised) (hraised : s.raised ⊆ s'.raised)
    (hreaders : readers frames = readers (s.stack t))
    (hfailing : t = loop → failing frames = failing (s.stack loop) ∨
      failing frames = none ∧ ∀ c, failing (s.stack loop) = some c → .onDisconnected c ∈ s'.raised) :
    Tended loop s' := by
  have hreaders' : ∀ u, readers (s'.stack u) = readers (s.stack u) := by
    intro u
    rw [hstack]
    by_cases heq : u = t
    · subst heq
      rw [Function.update_self, hreaders]
    · rw [Function.update_of_ne heq]
  have hfailing' : failing (s'.stack loop) = failing (s.stack loop) ∨
      failing (s'.stack loop) = none ∧
        ∀ c, failing (s.stack loop) = some c → .onDisconnected c ∈ s'.raised := by
    rw [hstack]
    by_cases heq : loop = t
    · subst heq
      rw [Function.update_self]
      exact hfailing rfl
    · rw [Function.update_of_ne heq]
      exact Or.inl rfl
  constructor
  · rw [hreaders']
    exact h.one
  · intro u hu
    rw [hreaders']
    exact h.others u hu
  · rw [hread, haccepted]
    exact h.reading
  · intro c hc
    rw [hreaders'] at hc
    obtain ⟨hmem, hidle, hnone⟩ := h.completed c hc
    rw [hread, haccepted]
    refine ⟨hmem, hidle, ?_⟩
    rcases hfailing' with heq | ⟨heq, -⟩
    · rw [heq, hnone]
    · exact heq
  · intro c hc
    rw [hread, haccepted]
    rcases hfailing' with heq | ⟨heq, -⟩
    · exact h.failed c (heq ▸ hc)
    · rw [heq] at hc
      cases hc
  · intro c hc
    rw [haccepted] at hc
    rw [hread, hreaders']
    rcases h.settled c hc with hreading | hreader | hfail | hgone
    · exact Or.inl hreading
    · exact Or.inr (Or.inl hreader)
    · rcases hfailing' with heq | ⟨-, hdone⟩
      · exact Or.inr (Or.inr (Or.inl (heq ▸ hfail)))
      · exact Or.inr (Or.inr (Or.inr (hdone c hfail)))
    · exact Or.inr (Or.inr (Or.inr (hraised hgone)))

/-- A call is replaced by others that stand for the same read. -/
theorem Tended.onward {loop t : T} {s s' : TcpServer T U} (h : Tended loop s) {frame : Frame U}
    {rest : List (Frame U)} (hold : s.stack t = frame :: rest) (new : List (Frame U))
    (hs : s'.stack = Function.update s.stack t (new ++ rest)) (hread : s'.reading = s.reading)
    (hr : s'.raised = s.raised) (hreaders : readers new = readers [frame])
    (hfailing : t = loop → rest = [] → failing new = frame.failing) : Tended loop s' := by
  refine h.goes (new ++ rest) hs hread (by rw [hr]) (by rw [hr]; exact List.Subset.refl _) ?_ ?_
  · rw [hold, ← List.singleton_append, readers_append, readers_append, hreaders]
  · rintro rfl
    rw [hold]
    exact Or.inl (failing_swap new rest (hfailing rfl))

/-- A call ends. If it was the handling of a failed read, the connection has been announced. -/
theorem Tended.ends {loop t : T} {s s' : TcpServer T U} (h : Tended loop s) {frame : Frame U}
    {rest : List (Frame U)} (hold : s.stack t = frame :: rest)
    (hs : s'.stack = Function.update s.stack t rest) (hread : s'.reading = s.reading)
    (hr : s'.raised = s.raised) (hreaders : readers [frame] = [])
    (hfailing : t = loop → rest = [] → ∀ c, frame.failing = some c → .onDisconnected c ∈ s.raised) :
    Tended loop s' := by
  refine h.goes rest hs hread (by rw [hr]) (by rw [hr]; exact List.Subset.refl _) ?_ ?_
  · rw [hold, ← List.singleton_append, readers_append, hreaders, List.nil_append]
  · rintro rfl
    rw [hold]
    by_cases hrest : rest = []
    · subst hrest
      exact Or.inr ⟨rfl, fun c hc => hr ▸ hfailing rfl rfl c hc⟩
    · rw [← List.singleton_append, failing_below _ hrest]
      exact Or.inl rfl

/-! ## Reads that start and complete -/

theorem Tended.registers {loop t : T} {s : TcpServer T U} (h : Tended loop s)
    (hadmitted : Admitted loop s) {c : Connection} {rest : List (Frame U)}
    (hold : s.stack t = .register c :: rest) :
    Tended loop ((s.handleAccept t c).setStack t
      (.listening (.onAccepted c) :: .finishAccept :: rest)) := by
  have hunseen := (hadmitted.ticket hold).2.1
  have hmoved : Tended loop (s.setStack t (.listening (.onAccepted c) :: .finishAccept :: rest)) :=
    h.onward hold [.listening (.onAccepted c), .finishAccept] rfl rfl rfl rfl fun _ _ => rfl
  have haccepted : ∀ d, d ∈ accepted (s.raised ++ [.onAccepted c]) ↔
      d ∈ accepted s.raised ∨ d = c := by
    intro d
    rw [accepted_append_self, List.mem_append, List.mem_singleton]
  have hreading : ∀ d ∈ accepted s.raised, Function.update s.reading c true d = s.reading d := by
    intro d hd
    refine Function.update_of_ne ?_ _ _
    rintro rfl
    exact hunseen hd
  constructor
  · exact hmoved.one
  · exact hmoved.others
  · intro d hd
    by_cases heq : d = c
    · exact (haccepted d).mpr (Or.inr heq)
    · have hd' : s.reading d = true := (Function.update_of_ne heq _ _).symm.trans hd
      exact (haccepted d).mpr (Or.inl (h.reading d hd'))
  · intro d hd
    obtain ⟨hmem, hidle, hnone⟩ := hmoved.completed d hd
    exact ⟨(haccepted d).mpr (Or.inl hmem), (hreading d hmem).trans hidle, hnone⟩
  · intro d hd
    obtain ⟨hmem, hidle⟩ := hmoved.failed d hd
    exact ⟨(haccepted d).mpr (Or.inl hmem), (hreading d hmem).trans hidle⟩
  · intro d hd
    rcases (haccepted d).mp hd with hd | rfl
    · rcases hmoved.settled d hd with hread | hreader | hfail | hgone
      · exact Or.inl ((hreading d hd).trans hread)
      · exact Or.inr (Or.inl hreader)
      · exact Or.inr (Or.inr (Or.inl hfail))
      · exact Or.inr (Or.inr (Or.inr (List.mem_append_left _ hgone)))
    · exact Or.inl (Function.update_self ..)

/-- The end of `handle_read`. -/
theorem Tended.rereads {loop t : T} {s : TcpServer T U} (h : Tended loop s) {c : Connection}
    {rest : List (Frame U)} (hold : s.stack t = .reading c [] :: rest) :
    t = loop ∧ s.reading c = false ∧ Tended loop
      ({ s with reading := Function.update s.reading c true }.setStack t rest) := by
  have hloop : t = loop := by
    by_contra hne
    have hnone := h.others t hne
    rw [hold] at hnone
    cases hnone
  subst hloop
  have hreaders : readers (s.stack t) = c :: readers rest := by
    rw [hold]
    rfl
  have hrest : readers rest = [] := by
    have hone := h.one
    rw [hreaders, List.length_cons] at hone
    exact List.length_eq_zero_iff.mp (by omega)
  obtain ⟨hmem, hidle, hnone⟩ := h.completed c (by simp [hreaders])
  have hquiet : failing rest = none := by
    by_cases hnil : rest = []
    · rw [hnil]
      rfl
    · rw [hold, ← List.singleton_append, failing_below _ hnil] at hnone
      exact hnone
  refine ⟨rfl, hidle, ?_⟩
  constructor
  · rw [TcpServer.setStack_self, hrest]
    exact Nat.zero_le _
  · intro u hu
    rw [TcpServer.setStack_of_ne _ hu]
    exact h.others u hu
  · intro d hd
    by_cases heq : d = c
    · exact heq ▸ hmem
    · exact h.reading d ((Function.update_of_ne heq _ _).symm.trans hd)
  · intro d hd
    rw [TcpServer.setStack_self, hrest] at hd
    cases hd
  · intro d hd
    rw [TcpServer.setStack_self, hquiet] at hd
    cases hd
  · intro d hd
    by_cases heq : d = c
    · exact Or.inl (heq ▸ Function.update_self ..)
    · rcases h.settled d hd with hread | hreader | hfail | hgone
      · exact Or.inl ((Function.update_of_ne heq _ _).trans hread)
      · rw [hreaders, hrest] at hreader
        exact absurd (List.mem_singleton.mp hreader) heq
      · rw [hnone] at hfail
        cases hfail
      · exact Or.inr (Or.inr (Or.inr hgone))

/-- A read of `c` completes while the loop is idle; the loop then handles it, or has announced `c`. -/
theorem Tended.completes {loop : T} {s : TcpServer T U} (h : Tended loop s)
    (hidle : s.stack loop = []) {c : Connection} (hread : s.reading c = true)
    (frames : List (Frame U)) (hone : (readers frames).length ≤ 1)
    (hreaders : ∀ d ∈ readers frames, d = c ∧ failing frames = none)
    (hfailing : ∀ d, failing frames = some d → d = c)
    (hsettled : c ∈ readers frames ∨ failing frames = some c ∨ .onDisconnected c ∈ s.raised) :
    Tended loop ({ s with reading := Function.update s.reading c false }.setStack loop frames) := by
  have hmem := h.reading c hread
  constructor
  · rw [TcpServer.setStack_self]
    exact hone
  · intro u hu
    rw [TcpServer.setStack_of_ne _ hu]
    exact h.others u hu
  · intro d hd
    by_cases heq : d = c
    · exact heq ▸ hmem
    · exact h.reading d ((Function.update_of_ne heq _ _).symm.trans hd)
  · intro d hd
    rw [TcpServer.setStack_self] at hd ⊢
    obtain ⟨rfl, hnone⟩ := hreaders d hd
    exact ⟨hmem, Function.update_self .., hnone⟩
  · intro d hd
    rw [TcpServer.setStack_self] at hd
    obtain rfl := hfailing d hd
    exact ⟨hmem, Function.update_self ..⟩
  · intro d hd
    rw [TcpServer.setStack_self]
    by_cases heq : d = c
    · subst heq
      exact Or.inr hsettled
    · rcases h.settled d hd with hread' | hreader | hfail | hgone
      · exact Or.inl ((Function.update_of_ne heq _ _).trans hread')
      · rw [hidle] at hreader
        cases hreader
      · rw [hidle] at hfail
        cases hfail
      · exact Or.inr (Or.inr (Or.inr hgone))

/-! ## One step -/

variable [DecidableEq U] {uuid : Connection → U}

omit [DecidableEq T] in
/-- The look-up of the handler of a failed read finds that connection. -/
theorem Tended.finds {loop : T} {s : TcpServer T U} (h : Tended loop s) (hadmitted : Admitted loop s)
    (hdistinct : Distinct uuid s.created) {frame : Frame U} {c p : Connection}
    (hold : s.stack loop = [frame]) (hframe : frame.failing = some c)
    (hfound : s.getConnectionByUUID uuid (uuid c) = some p) : p = c := by
  have hfail : failing (s.stack loop) = some c := by
    rw [hold]
    exact hframe
  obtain ⟨hp, heq⟩ := TcpServer.getConnectionByUUID_some hfound
  exact hdistinct p c (hadmitted.created p (hadmitted.registered p hp))
    (hadmitted.created c (h.failed c hfail).1) heq

theorem Tended.follows {loop t : T} {s : TcpServer T U} (h : Tended loop s)
    (hadmitted : Admitted loop s) (hdistinct : Distinct uuid s.created) {frame : Frame U}
    {new rest : List (Frame U)} (hold : s.stack t = frame :: rest)
    (hannounced : ∀ c, abandons uuid loop s (.advance t) = some c → .onDisconnected c ∈ s.raised)
    (hf : TcpServer.Follows uuid s frame new) : Tended loop (s.setStack t (new ++ rest)) := by
  cases hf with
  | notFound _ | noneLeft | written _ => exact h.ends hold rfl rfl rfl rfl (by simp [Frame.failing])
  | found _ | copied | each _ _ => exact h.onward hold _ rfl rfl rfl rfl fun _ _ => rfl
  | stop c | message c _ _ =>
    unfold TcpServer.emission
    split
    · exact h.onward hold _ rfl rfl rfl rfl fun _ _ => rfl
    · exact h.onward hold _ rfl rfl rfl rfl fun _ _ => rfl
  | @passed c p notice hfound =>
    refine h.onward hold [.emit (notice.event p)] rfl rfl rfl rfl ?_
    rintro rfl rfl
    cases notice with
    | message _ | sendError _ _ => rfl
    | readError error n =>
      rw [h.finds hadmitted hdistinct hold rfl hfound]
      rfl
  | @ignored c notice hnone =>
    refine h.ends hold rfl rfl rfl rfl ?_
    rintro rfl rfl d hd
    cases notice with
    | message _ | sendError _ _ => cases hd
    | readError error n =>
      cases hd
      exact hannounced c (by simp [abandons, hold, hnone])

theorem Tended.advance {loop t : T} {s s' : TcpServer T U} (h : Tended loop s)
    (hadmitted : Admitted loop s) (hdistinct : Distinct uuid s.created) {frame : Frame U}
    {rest : List (Frame U)} (hold : s.stack t = frame :: rest)
    (hannounced : ∀ c, abandons uuid loop s (.advance t) = some c → .onDisconnected c ∈ s.raised)
    (hs : s.advance uuid t rest frame = some s') : Tended loop s' := by
  cases TcpServer.advances_of_advance uuid hs with
  | follows hf => exact h.follows hadmitted hdistinct hold hannounced hf
  | post c => exact h.ends hold rfl rfl rfl rfl (by simp [Frame.failing])
  | @found c p hfound =>
    refine h.onward hold [.dropSlots c p] rfl rfl rfl rfl ?_
    rintro rfl rfl
    rw [h.finds hadmitted hdistinct hold rfl hfound]
    rfl
  | @notFound c hnone =>
    refine h.ends hold rfl rfl rfl rfl ?_
    rintro rfl rfl d hd
    cases hd
    exact hannounced c (by simp [abandons, hold, hnone])
  | dropSlots c p => exact h.onward hold [.erase p] rfl rfl rfl rfl fun _ _ => rfl
  | erase p => exact h.onward hold [.recheck p] rfl rfl rfl rfl fun _ _ => rfl
  | @again p q hfound => exact h.onward hold [.erase p] rfl rfl rfl rfl fun _ _ => rfl
  | @removed p hnone =>
    exact h.onward hold [.emit (.onDisconnected p)] rfl rfl rfl rfl fun _ _ => rfl
  | emit event =>
    refine h.goes (.listening event :: rest) rfl rfl
      (accepted_append_other (hadmitted.not_accepted hold) s.raised)
      (List.subset_append_left _ _) (by rw [hold]; rfl) ?_
    rintro rfl
    rw [hold]
    cases event with
    | onDisconnected p =>
      by_cases hrest : rest = []
      · subst hrest
        refine Or.inr ⟨rfl, fun c hc => ?_⟩
        cases hc
        exact List.mem_append_right _ (List.mem_singleton_self _)
      · exact Or.inl ((failing_below [_] hrest).trans (failing_below [_] hrest).symm)
    | _ => exact Or.inl (failing_swap [.listening _] rest fun _ => rfl)
  | read c => exact (h.rereads hold).2.2
  | register c hsync => exact h.registers hadmitted hold
  | finishAccept =>
    have hmoved : Tended loop (s.setStack t rest) :=
      h.ends hold rfl rfl rfl rfl (by simp [Frame.failing])
    exact ⟨hmoved.one, hmoved.others, hmoved.reading, hmoved.completed, hmoved.failed,
      hmoved.settled⟩

theorem Tended.dispatch {loop : T} {s s' : TcpServer T U} (h : Tended loop s)
    {completion : Completion} (hidle : s.stack loop = [])
    (hannounced : ∀ c, abandons uuid loop s (.dispatch completion) = some c →
      .onDisconnected c ∈ s.raised)
    (hs : TcpServer.Dispatches loop s completion s') : Tended loop s' := by
  have hgoes : ∀ {s' : TcpServer T U} (frames : List (Frame U)),
      s'.stack = Function.update s.stack loop frames → s'.reading = s.reading →
      s'.raised = s.raised → readers frames = [] → failing frames = none → Tended loop s' := by
    intro s' frames hstack hread hr hreaders hfailing
    refine h.goes frames hstack hread (by rw [hr]) (by rw [hr]; exact List.Subset.refl _) ?_ ?_
    · rw [hidle, hreaders]
      rfl
    · rw [hidle]
      exact fun _ => Or.inl hfailing
  cases hs with
  | accept hc => exact hgoes [.register _] rfl rfl rfl rfl rfl
  | acceptError error hc => exact hgoes [.emit _, .register _] rfl rfl rfl rfl rfl
  | @read c messages hc =>
    refine h.completes hidle hc [.reading c messages] (Nat.le_refl _) ?_ ?_ ?_
    · intro d hd
      exact ⟨List.mem_singleton.mp hd, rfl⟩
    · intro d hd
      cases hd
    · exact Or.inl (List.mem_singleton_self _)
  | @readError c error n hc =>
    have hframes : s.handleReadError c error n = [] ∨
        (∃ frame, s.handleReadError c error n = [frame] ∧ frame.failing = some c ∧
          readers [frame] = []) := by
      unfold TcpServer.handleReadError TcpServer.emission
      split
      · split
        · exact Or.inr ⟨_, rfl, rfl, rfl⟩
        · exact Or.inl rfl
      · split
        · exact Or.inr ⟨_, rfl, rfl, rfl⟩
        · exact Or.inl rfl
    rcases hframes with hnone | ⟨frame, heq, hfailing, hreaders⟩
    · have hgone := hannounced c (by simp [abandons, hnone])
      rw [hnone]
      exact h.completes hidle hc [] (Nat.zero_le _) (fun _ hd => by cases hd)
        (fun _ hd => by cases hd) (Or.inr (Or.inr hgone))
    · rw [heq]
      refine h.completes hidle hc [frame] (by rw [hreaders]; exact Nat.zero_le _) ?_ ?_ ?_
      · intro d hd
        rw [hreaders] at hd
        cases hd
      · intro d hd
        exact Option.some.inj (hd.symm.trans hfailing)
      · exact Or.inr (Or.inl hfailing)
  | writeError c error n =>
    unfold TcpServer.emission
    split
    · exact hgoes [.received c (.sendError error n), .writing c] rfl rfl rfl rfl rfl
    · exact hgoes [.writing c] rfl rfl rfl rfl rfl
  | closure hc =>
    exact ⟨h.one, h.others, h.reading, h.completed, h.failed, h.settled⟩

theorem Tended.step {loop : T} {s s' : TcpServer T U} {a : Action T U} (h : Tended loop s)
    (hadmitted : Admitted loop s) (hdistinct : Distinct uuid s.created)
    (hquiet : ∀ t, a ≠ .throws t)
    (hannounced : ∀ c, abandons uuid loop s a = some c → .onDisconnected c ∈ s.raised)
    (hs : TcpServer.step uuid loop s a = some s') : Tended loop s' := by
  have hentry : ∀ op, readers [TcpServer.entry uuid op] = [] ∧
      (TcpServer.entry uuid op).failing = none := by
    intro op
    cases op <;> exact ⟨rfl, rfl⟩
  cases TcpServer.steps_of_step uuid hs with
  | dispatch hrunning hidle hd => exact h.dispatch hidle hannounced hd
  | @call t op hidle hloop =>
    refine h.goes [TcpServer.entry uuid op] rfl rfl rfl (List.Subset.refl _) ?_ ?_
    · rw [hidle]
      exact (hentry op).1
    · rintro rfl
      rw [hidle]
      exact Or.inl (hentry op).2
  | @callback t event rest op hold =>
    refine h.onward hold [TcpServer.entry uuid op, .listening event] rfl rfl rfl ?_ fun _ _ => rfl
    rw [← List.singleton_append, readers_append, (hentry op).1, List.nil_append]
  | @returns t event rest hold =>
    refine h.ends hold rfl rfl rfl rfl ?_
    rintro rfl rfl c hc
    cases event with
    | onReadError d error n =>
      cases hc
      exact hannounced c (by simp [abandons, hold])
    | _ => cases hc
  | caught hold hframes => exact absurd rfl (hquiet _)
  | escapes hold hframes => exact absurd rfl (hquiet _)
  | advance hold hadvance => exact h.advance hadmitted hdistinct hold hannounced hadvance

/-! ## Counting the reads -/

theorem step_reading {loop : T} {s s' : TcpServer T U} {a : Action T U}
    (hs : TcpServer.step uuid loop s a = some s') :
    (readStarted s a = none ∧ readCompleted a = none ∧ s'.reading = s.reading) ∨
      (∃ c, readStarted s a = some c ∧ readCompleted a = none ∧
        s'.reading = Function.update s.reading c true) ∨
      ∃ c, readStarted s a = none ∧ readCompleted a = some c ∧ s.reading c = true ∧
        s'.reading = Function.update s.reading c false := by
  cases TcpServer.steps_of_step uuid hs with
  | dispatch hrunning hidle hd =>
    cases hd with
    | read messages hc => exact Or.inr (Or.inr ⟨_, rfl, rfl, hc, rfl⟩)
    | readError error n hc => exact Or.inr (Or.inr ⟨_, rfl, rfl, hc, rfl⟩)
    | accept _ | acceptError _ _ | writeError _ _ _ | closure _ => exact Or.inl ⟨rfl, rfl, rfl⟩
  | call _ _ _ | callback _ _ | returns _ | caught _ _ | escapes _ _ => exact Or.inl ⟨rfl, rfl, rfl⟩
  | @advance t frame rest s' hold hadvance =>
    cases TcpServer.advances_of_advance uuid hadvance with
    | register c _ | read c =>
      exact Or.inr (Or.inl ⟨c, by simp only [readStarted, hold], rfl, rfl⟩)
    | follows hf =>
      refine Or.inl ⟨?_, rfl, rfl⟩
      cases hf <;> simp only [readStarted, hold]
    | _ => exact Or.inl ⟨by simp only [readStarted, hold], rfl, rfl⟩

omit [DecidableEq U] in
/-- No second read of a connection is started. -/
theorem Tended.starts {loop : T} {s : TcpServer T U} (h : Tended loop s)
    (hadmitted : Admitted loop s) {a : Action T U} {c : Connection}
    (hc : readStarted s a = some c) : s.reading c = false := by
  cases a with
  | advance t =>
    simp only [readStarted] at hc
    split at hc
    · rename_i d rest hold
      cases hc
      have hunseen := (hadmitted.ticket hold).2.1
      by_contra hread
      exact hunseen (h.reading c (by simpa using hread))
    · rename_i d rest hold
      cases hc
      exact (h.rereads hold).2.1
    · cases hc
  | dispatch _ | call _ _ | returns _ | throws _ => cases hc

structure Watched (loop : T) (w : WatchedServer T U) : Prop where
  admitted : Admitted loop w.server
  parted : Parted w.server
  tended : Tended loop w.server
  counted : ∀ c, w.outstanding c = (w.server.reading c).toNat

omit [DecidableEq T] [DecidableEq U] in
theorem started_watched (loop : T) : Watched loop (WatchedServer.started : WatchedServer T U) where
  admitted := started_admitted loop
  parted := started_parted
  tended := started_tended loop
  counted := fun _ => rfl

theorem Watched.count {loop : T} {w : WatchedServer T U} (h : Watched loop w) {s : TcpServer T U}
    {a : Action T U} (hs : TcpServer.step uuid loop w.server a = some s) (c : Connection) :
    w.outstanding c + (if readStarted w.server a = some c then 1 else 0) -
      (if readCompleted a = some c then 1 else 0) = (s.reading c).toNat := by
  rw [h.counted c]
  rcases step_reading hs with ⟨hstarted, hcompleted, heq⟩ | ⟨d, hstarted, hcompleted, heq⟩ |
    ⟨d, hstarted, hcompleted, hread, heq⟩
  · simp [hstarted, hcompleted, heq]
  · have hidle := h.tended.starts h.admitted hstarted
    by_cases hc : d = c
    · subst hc
      simp [hstarted, hcompleted, heq, hidle]
    · simp [hstarted, hcompleted, heq, hc, Ne.symm hc]
  · by_cases hc : d = c
    · subst hc
      simp [hstarted, hcompleted, heq, hread]
    · simp [hstarted, hcompleted, heq, hc, Ne.symm hc]

theorem watched_step {loop : T} {w w' : WatchedServer T U} {a : Action T U}
    (hs : WatchedServer.step uuid loop w a = some w') :
    ∃ s, TcpServer.step uuid loop w.server a = some s ∧ w'.server = s ∧
      ∀ c, w'.outstanding c = w.outstanding c + (if readStarted w.server a = some c then 1 else 0) -
        (if readCompleted a = some c then 1 else 0) := by
  unfold WatchedServer.step at hs
  split at hs
  · rename_i server hserver
    cases hs
    exact ⟨server, hserver, rfl, fun _ => rfl⟩
  · cases hs

theorem Watched.step {loop : T} {w w' : WatchedServer T U} {a : Action T U} (h : Watched loop w)
    (hdistinct : Distinct uuid w.server.created) (hquiet : ∀ t, a ≠ .throws t)
    (hannounced : Announced uuid loop w a) (hs : WatchedServer.step uuid loop w a = some w') :
    Watched loop w' := by
  obtain ⟨s, hserver, heq, hcount⟩ := watched_step hs
  subst heq
  constructor
  · exact h.admitted.step hserver
  · exact h.parted.step h.admitted hserver
  · exact h.tended.step h.admitted hdistinct hquiet hannounced hserver
  · intro c
    rw [hcount]
    exact h.count hserver c

/-! ## Whole runs -/

omit [DecidableEq T] [DecidableEq U] in
theorem Watched.attended {loop : T} {w : WatchedServer T U} (h : Watched loop w) : Attended loop w := by
  intro hidle
  have hsettled : ∀ c ∈ accepted w.server.raised,
      w.server.reading c = true ∨ .onDisconnected c ∈ w.server.raised := by
    intro c hc
    rcases h.tended.settled c hc with hread | hreader | hfail | hgone
    · exact Or.inl hread
    · rw [hidle] at hreader
      cases hreader
    · rw [hidle] at hfail
      cases hfail
    · exact Or.inr hgone
  constructor
  · intro c hc
    rcases hsettled c (h.admitted.registered c hc) with hread | hgone
    · rw [h.counted, hread]
      rfl
    · exact absurd hc (h.parted.gone c hgone).2
  · intro c hc hzero
    rcases hsettled c hc with hread | hgone
    · rw [h.counted, hread] at hzero
      cases hzero
    · exact ⟨(h.parted.gone c hgone).2, hgone⟩

/-- What a step that abandons a connection leaves. -/
theorem Tended.abandoned {loop : T} {s s' : TcpServer T U} (h : Tended loop s) {a : Action T U}
    {c : Connection} (hc : abandons uuid loop s a = some c)
    (hs : TcpServer.step uuid loop s a = some s') :
    s'.stack loop = [] ∧ c ∈ accepted s.raised ∧ s'.raised = s.raised ∧ s'.reading c = false := by
  have hfailed : ∀ {frame : Frame U}, s.stack loop = [frame] → frame.failing = some c →
      c ∈ accepted s.raised ∧ s.reading c = false := by
    intro frame hold hframe
    refine h.failed c ?_
    rw [hold]
    exact hframe
  cases TcpServer.steps_of_step uuid hs with
  | @dispatch completion s' hrunning hidle hd =>
    cases hd with
    | @readError d error n hread =>
      simp only [abandons] at hc
      split at hc
      · rename_i hnone
        cases hc
        rw [hnone]
        exact ⟨TcpServer.setStack_self .., h.reading c hread, rfl, Function.update_self ..⟩
      · cases hc
    | accept _ | acceptError _ _ | read _ _ | writeError _ _ _ | closure _ => cases hc
  | call _ _ _ | callback _ _ | caught _ _ | escapes _ _ => cases hc
  | @returns t event rest hold =>
    simp only [abandons] at hc
    split at hc
    · rename_i hloop
      subst hloop
      split at hc
      · rename_i d error n hstack
        cases hc
        rw [hstack, List.cons.injEq] at hold
        obtain ⟨hmem, hidle⟩ := hfailed hstack rfl
        rw [← hold.2]
        exact ⟨TcpServer.setStack_self .., hmem, rfl, hidle⟩
      · cases hc
    · cases hc
  | @advance t frame rest s' hold hadvance =>
    simp only [abandons] at hc
    split at hc
    · rename_i hloop
      subst hloop
      split at hc
      · rename_i d hstack
        rw [hstack, List.cons.injEq] at hold
        obtain ⟨rfl, rfl⟩ := hold
        split at hc
        · rename_i hnone
          cases hc
          obtain ⟨-, rfl⟩ := TcpServer.locked_eq hadvance
          obtain ⟨hmem, hidle⟩ := hfailed hstack rfl
          rw [hnone]
          exact ⟨TcpServer.setStack_self .., hmem, rfl, hidle⟩
        · cases hc
      · rename_i d error n hstack
        rw [hstack, List.cons.injEq] at hold
        obtain ⟨rfl, rfl⟩ := hold
        split at hc
        · rename_i hnone
          cases hc
          obtain ⟨-, rfl⟩ := TcpServer.locked_eq hadvance
          obtain ⟨hmem, hidle⟩ := hfailed hstack rfl
          rw [hnone]
          exact ⟨TcpServer.setStack_self .., hmem, rfl, hidle⟩
        · cases hc
      · cases hc
    · cases hc

theorem Watched.not_attended {loop : T} {w w' : WatchedServer T U} {a : Action T U}
    (h : Watched loop w) (hnot : ¬ Announced uuid loop w a)
    (hs : WatchedServer.step uuid loop w a = some w') : ¬ Attended loop w' := by
  intro hattended
  obtain ⟨s, hserver, rfl, hcount⟩ := watched_step hs
  have hlost : ∃ c, abandons uuid loop w.server a = some c ∧
      .onDisconnected c ∉ w.server.raised := by
    by_contra hnone
    exact hnot fun c hc => by_contra fun hquiet => hnone ⟨c, hc, hquiet⟩
  obtain ⟨c, hc, hquiet⟩ := hlost
  obtain ⟨hidle, hmem, hraised, hread⟩ := h.tended.abandoned hc hserver
  have hzero : w'.outstanding c = 0 := by
    rw [hcount, h.count hserver c, hread]
    rfl
  have hgone := ((hattended hidle).2 c (hraised ▸ hmem) hzero).2
  rw [hraised] at hgone
  exact hquiet hgone

/-- **No dead connection stays registered**, in a run without exceptions of listeners, just if whenever
the loop is done with a failed read that it has not announced as a disconnection itself, the connection
has been announced as disconnected before. -/
theorem attended_iff (uuid : Connection → U) (loop : T) (as : List (Action T U))
    (w : WatchedServer T U)
    (hrun : run (WatchedServer.step uuid loop) WatchedServer.started as = some w)
    (hquiet : ∀ t, .throws t ∉ as) (hdistinct : Distinct uuid w.server.created) :
    Along (WatchedServer.step uuid loop) (Attended loop) WatchedServer.started as ↔
      Meets (WatchedServer.step uuid loop) (Announced uuid loop) WatchedServer.started as := by
  refine along_iff_meets (Q := fun w => Distinct uuid w.server.created) ?_ (I := Watched loop)
    (A := fun a => ∀ t, a ≠ .throws t) (fun _ h => h.attended) ?_ ?_ (started_watched loop) hrun
    hdistinct ?_
  · intro w a w' hs hlater c d hc hd
    obtain ⟨s, hserver, rfl, -⟩ := watched_step hs
    have hle := step_created hserver
    exact hlater c d (Nat.lt_of_lt_of_le hc hle) (Nat.lt_of_lt_of_le hd hle)
  · intro w a w' h hlater hnothrow hannounced hs
    obtain ⟨s, hserver, rfl, -⟩ := watched_step hs
    have hle := step_created hserver
    exact h.step (fun c d hc hd => hlater c d (Nat.lt_of_lt_of_le hc hle)
      (Nat.lt_of_lt_of_le hd hle)) hnothrow hannounced hs
  · exact fun w a w' h hnot hs => h.not_attended hnot hs
  · rintro a ha t rfl
    exact hquiet t ha

end Handling

/-- A connection is accepted and the peer ends the stream. -/
def endOfStream : List (Action Bool ℕ) :=
  acceptOne ++ [.dispatch (.readError 0 .eof 0), .advance true, .advance true, .advance true,
    .advance true, .advance true, .returns true]

theorem attended_endOfStream : ∃ w,
    run (WatchedServer.step id true) WatchedServer.started endOfStream = some w ∧
      w.server.connections = [] ∧
      Along (WatchedServer.step id true) (Attended true) WatchedServer.started endOfStream := by
  have hrun : ((run (WatchedServer.step id true) WatchedServer.started endOfStream).map fun w =>
      w.server.connections) = some [] := by decide +kernel
  obtain ⟨w, hw, hconnections⟩ := Option.map_eq_some_iff.mp hrun
  have hquiet : ∀ t, Action.throws t ∉ endOfStream := by simp [endOfStream, acceptOne]
  have hdistinct : Distinct (id : Connection → ℕ) w.server.created := fun c d _ _ h => h
  exact ⟨w, hw, hconnections,
    (attended_iff id true endOfStream w hw hquiet hdistinct).mpr (by decide +kernel)⟩

/-- A connection is accepted and its read times out. -/
def timedOut : List (Action Bool ℕ) :=
  acceptOne ++ [.dispatch (.readError 0 (.other 110) 0), .advance true, .advance true, .returns true]

theorem dead_connection_stays : ¬ ∀ (as : List (Action Bool ℕ)) (w : WatchedServer Bool ℕ),
    run (WatchedServer.step id true) WatchedServer.started as = some w → (∀ t, .throws t ∉ as) →
      Attended true w := by
  intro h
  have hrun : ((run (WatchedServer.step id true) WatchedServer.started timedOut).map fun w =>
      (w.server.stack true, w.server.connections, w.outstanding 0)) = some ([], [0], 0) := by
    decide +kernel
  obtain ⟨w, hw, hfields⟩ := Option.map_eq_some_iff.mp hrun
  simp only [Prod.mk.injEq] at hfields
  have hquiet : ∀ t, Action.throws t ∉ timedOut := by simp [timedOut, acceptOne]
  have hone := (h timedOut w hw hquiet hfields.1).1 0 (by simp [hfields.2.1])
  omega

end Diginext.Server
