import Diginext.Server.Removal

/-! # `tcp_server::stop`

The application thread stops a started server while the event loop goes on. `stop` disconnects the
connections of a copy of the list, stops the `io_service` and waits for the loop's thread; the close
routine of a connection is a closure posted to that very loop. `stop` leaves nothing behind if the loop
gets to the closures before it leaves `run`, and if somebody has stopped the connections that the copy
does not cover (`stop_shuts_down`).
-/
namespace Diginext.Server
open Cpp Transition
set_option autoImplicit false

inductive Thread where
  | application
  | eventLoop
  deriving DecidableEq

instance : Fintype Thread where
  elems := {.application, .eventLoop}
  complete := by
    intro t
    cases t <;> simp

/-- Where the application is in `stop`: in `disconnectAll`, or from `io_service->stop()` on in
`waitStop` and `join`. -/
inductive Stop where
  | outside
  | disconnecting
  | waiting
  | returned
  deriving DecidableEq

/-- `stopped` says that `io_service::stop` has been called. The other fields record what has happened:
`told` the accepted connections for which `tcp_connection::stop` has been called, `ended` those whose
stream has ended with the handler connected, `closed` those whose close routine has run, and `covered`
those accepted before the `disconnectAll` of `stop` took its copy of the list. -/
structure Shutdown (U : Type) where
  server : TcpServer Thread U
  started_status : Bool
  stop : Stop
  stopped : Bool
  told : List Connection
  ended : List Connection
  closed : List Connection
  covered : List Connection

def Shutdown.started {U : Type} : Shutdown U where
  server := .started
  started_status := true
  stop := .outside
  stopped := false
  told := []
  ended := []
  closed := []
  covered := []

/-- `leave` is the return of `io_service::run`, which may leave handlers queued, and `finish` the end of
the loop's thread. -/
inductive ShutdownAction (U : Type) where
  | server (a : Action Thread U)
  | stop
  | ioStop
  | leave
  | finish
  | join

namespace Shutdown
variable {U : Type}

/-- Inside `stop` the application calls operations in listeners only. -/
def admits (w : Shutdown U) : Action Thread U → Bool
  | .call .application _ => decide (w.stop = .outside) || !(w.server.stack .application).isEmpty
  | _ => true

/-- `disconnectAll` copies the list for `stop`. -/
def copies (w : Shutdown U) : Action Thread U → Bool
  | .advance .application =>
    decide (w.stop = .disconnecting) &&
      match w.server.stack .application with
      | [.disconnectAll] => true
      | _ => false
  | _ => false

/-- An exception may leave `stop`. -/
def stopAfter (w : Shutdown U) (server : TcpServer Thread U) : Action Thread U → Stop
  | .throws .application =>
    if w.stop = .disconnecting ∧ (server.stack .application).isEmpty then .outside else w.stop
  | _ => w.stop

def after (w : Shutdown U) (a : Action Thread U) (server : TcpServer Thread U) : Shutdown U :=
  { w with
    server := server
    stop := w.stopAfter server a
    told := (tells w.server a).toList ++ w.told
    ended := (endsStream w.server a).toList ++ w.ended
    closed := (closes w.server a).toList ++ w.closed
    covered := if w.copies a then accepted w.server.raised else w.covered }

variable [DecidableEq U] (uuid : Connection → U)

def step (w : Shutdown U) : ShutdownAction U → Option (Shutdown U)
  | .server a =>
    if w.admits a then
      match TcpServer.step uuid .eventLoop w.server a with
      | some server => some (w.after a server)
      | none => none
    else none
  | .stop =>
    if w.stop = .outside ∧ w.server.stack .application = [] then
      if w.started_status then
        some { w with
          server := w.server.setStack .application [.disconnectAll]
          stop := .disconnecting }
      else some { w with stop := .returned }
    else none
  | .ioStop =>
    if w.stop = .disconnecting ∧ w.server.stack .application = [] then
      some { w with stopped := true, stop := .waiting }
    else none
  | .leave =>
    if w.stopped ∧ w.server.running ∧ w.server.stack .eventLoop = [] then
      some { w with server := { w.server with running := false } }
    else none
  | .finish =>
    if w.server.running = false then some { w with started_status := false } else none
  | .join =>
    if w.stop = .waiting ∧ w.started_status = false then some { w with stop := .returned } else none

end Shutdown

/-! ## Nothing is left behind -/

variable {U : Type}

/-- When `stop` has returned the list is empty and every accepted connection has been closed. -/
def ShutDown (w : Shutdown U) : Prop :=
  w.stop = .returned → w.server.connections = [] ∧ ∀ c ∈ accepted w.server.raised, c ∈ w.closed

/-- No close routine is left queued for an accepted connection that none has run for, and
`tcp_connection::stop` has been called for the accepted connections that the copy does not cover and
for those whose stream has ended. -/
def Swept (w : Shutdown U) : Prop :=
  (∀ c ∈ w.server.posted, c ∈ accepted w.server.raised → c ∈ w.closed) ∧
    ∀ c ∈ accepted w.server.raised, c ∉ w.covered ∨ c ∈ w.ended → c ∈ w.told

/-- `stop` returns from a swept state, and no closure disconnects the handlers of a registered
connection. -/
def Clean (w : Shutdown U) : ShutdownAction U → Prop
  | .server a => Wired w.server a
  | .stop => w.started_status = false → Swept w
  | .join => Swept w
  | _ => True

instance (w : Shutdown U) : Decidable (Swept w) :=
  inferInstanceAs (Decidable (_ ∧ _))

instance (w : Shutdown U) (a : ShutdownAction U) : Decidable (Clean w a) :=
  match a with
  | .server a => inferInstanceAs (Decidable (Wired w.server a))
  | .stop => inferInstanceAs (Decidable (w.started_status = false → Swept w))
  | .join => inferInstanceAs (Decidable (Swept w))
  | .ioStop | .leave | .finish => isTrue trivial

/-! ## Listeners that throw inside `stop`

What the application runs while it disconnects runs inside the `try` of `tcp_connection::stop`, so an
exception of a listener ends nothing else (`Shielded.unwind`).
-/

/-- The calls that can be outermost in the application. -/
def Frame.outer : Frame U → Bool
  | disconnectByUUID _ | disconnectAll | disconnectEach _ | stop _ | post _ => true
  | _ => false

/-- The calls that run in the emission of `onDisconnected`. -/
def Frame.inner : Frame U → Bool
  | disconnected _ | dropSlots _ _ | erase _ | recheck _ | received _ _ | emit _ | listening _ => true
  | _ => false

def Shielded : List (Frame U) → Prop
  | [] => True
  | frame :: rest => (frame.outer = true ∨
      frame.inner = true ∧ ∃ c below, rest = .post c :: below) ∧ Shielded rest

theorem Shielded.under {frame : Frame U} {rest : List (Frame U)} (h : Shielded (frame :: rest))
    (hframe : frame.outer = false) : ∃ c below, rest = .post c :: below := by
  rcases h.1 with houter | ⟨-, hpost⟩
  · rw [houter] at hframe
    cases hframe
  · exact hpost

theorem Shielded.unwind {event : Event} {rest : List (Frame U)}
    (h : Shielded (.listening event :: rest)) : TcpServer.unwind rest = rest ∧ rest ≠ [] := by
  obtain ⟨c, below, rfl⟩ := h.under rfl
  exact ⟨rfl, by simp⟩

/-- A call that runs in the emission is replaced by another. -/
theorem Shielded.replace {frame next : Frame U} {rest : List (Frame U)}
    (h : Shielded (frame :: rest)) (hframe : frame.outer = false) (hnext : next.inner = true) :
    Shielded (next :: rest) :=
  ⟨Or.inr ⟨hnext, h.under hframe⟩, h.2⟩

theorem Shielded.push {frame : Frame U} {rest : List (Frame U)} (h : Shielded rest)
    (hframe : frame.outer = true) : Shielded (frame :: rest) :=
  ⟨Or.inl hframe, h⟩

theorem entry_outer (uuid : Connection → U) (op : Operation U) :
    (TcpServer.entry uuid op).outer = true := by
  cases op <;> rfl

variable [DecidableEq U] {uuid : Connection → U}

theorem Shielded.follows {T : Type} {s : TcpServer T U} {frame : Frame U} {new rest : List (Frame U)}
    (h : Shielded (frame :: rest)) (hf : TcpServer.Follows uuid s frame new) :
    Shielded (new ++ rest) := by
  cases hf with
  | notFound _ | noneLeft | ignored _ => exact h.2
  | found _ | copied => exact h.2.push rfl
  | each c cs => exact (h.2.push rfl).push rfl
  | stop c =>
    unfold TcpServer.emission
    split
    · exact ⟨Or.inr ⟨rfl, c, rest, rfl⟩, h.2.push rfl⟩
    · exact h.2.push rfl
  | passed _ => exact h.replace rfl rfl
  | message _ _ _ | written _ =>
    rcases h.1 with houter | ⟨hinner, -⟩
    · cases houter
    · cases hinner

theorem Shielded.advance {T : Type} [DecidableEq T] {s s' : TcpServer T U} {t : T} {frame : Frame U}
    {rest : List (Frame U)} (h : Shielded (frame :: rest))
    (hs : s.advance uuid t rest frame = some s') : Shielded (s'.stack t) := by
  cases TcpServer.advances_of_advance uuid hs <;> rw [TcpServer.setStack_self]
  case follows new hf => exact h.follows hf
  case post | notFound => exact h.2
  case found | dropSlots | erase | again | removed | emit => exact h.replace rfl rfl
  case read | register | finishAccept =>
    rcases h.1 with houter | ⟨hinner, -⟩
    · cases houter
    · cases hinner

theorem Shielded.step {loop : Thread} {s s' : TcpServer Thread U} {a : Action Thread U}
    (hloop : loop ≠ .application) (h : Shielded (s.stack .application))
    (hs : TcpServer.step uuid loop s a = some s') : Shielded (s'.stack .application) := by
  by_cases hother : Thread.application ≠ a.thread loop
  · rw [step_other hs hother]
    exact h
  have hself : a.thread loop = .application := (not_not.mp hother).symm
  cases TcpServer.steps_of_step uuid hs with
  | dispatch hrunning hidle hd => exact absurd hself hloop
  | call op hidle hrunning =>
    obtain rfl : _ = Thread.application := hself
    rw [TcpServer.setStack_self]
    exact ⟨Or.inl (entry_outer uuid op), trivial⟩
  | callback op hold =>
    obtain rfl : _ = Thread.application := hself
    rw [hold] at h
    rw [TcpServer.setStack_self]
    exact h.push (entry_outer uuid op)
  | returns hold =>
    obtain rfl : _ = Thread.application := hself
    rw [hold] at h
    rw [TcpServer.setStack_self]
    exact h.2
  | caught hold hframes =>
    obtain rfl : _ = Thread.application := hself
    rw [hold] at h
    rw [TcpServer.setStack_self, h.unwind.1]
    exact h.2
  | escapes hold hframes =>
    obtain rfl : _ = Thread.application := hself
    rw [TcpServer.setStack_self]
    trivial
  | advance hold hadvance =>
    obtain rfl : _ = Thread.application := hself
    rw [hold] at h
    exact h.advance hadvance

/-! ## The connections that `disconnectAll` still has to stop -/

def Frame.willStop (uuid : Connection → U) (c : Connection) : Frame U → Prop
  | disconnectByUUID u => u = uuid c
  | disconnectEach connections => c ∈ connections
  | stop d => d = c
  | _ => False

def Pending (uuid : Connection → U) (frames : List (Frame U)) (c : Connection) : Prop :=
  ∃ frame ∈ frames, frame.willStop uuid c

/-- A pending connection is stopped, or it is found to have left the registry. -/
theorem pending_advance {T : Type} [DecidableEq T] {loop t : T} {s s' : TcpServer T U}
    (hadmitted : Admitted loop s) (hdistinct : Distinct uuid s.created) {c : Connection}
    (hc : c ∈ accepted s.raised) {frame : Frame U} {rest : List (Frame U)}
    (hold : s.stack t = frame :: rest) (h : Pending uuid (frame :: rest) c)
    (hs : s.advance uuid t rest frame = some s') :
    c ∉ s.connections ∨ tells s (.advance t) = some c ∨ Pending uuid (s'.stack t) c := by
  obtain ⟨f, hf, hwill⟩ := h
  rcases List.mem_cons.mp hf with rfl | hbelow
  · cases TcpServer.advances_of_advance uuid hs with
    | @follows _ new hfollows =>
      rw [TcpServer.setStack_self]
      cases hfollows with
      | @found u p hfound =>
        obtain rfl : u = uuid c := hwill
        obtain rfl := hadmitted.lookup hdistinct hc hfound
        exact Or.inr (Or.inr ⟨.stop p, List.mem_cons_self .., rfl⟩)
      | @notFound u hnone =>
        obtain rfl : u = uuid c := hwill
        exact Or.inl (TcpServer.not_registered_of_lookup hnone)
      | each d ds =>
        rcases List.mem_cons.mp hwill with rfl | hmem
        · exact Or.inr (Or.inr ⟨.disconnectByUUID (uuid c), List.mem_cons_self .., rfl⟩)
        · exact Or.inr (Or.inr ⟨.disconnectEach ds, by simp, hmem⟩)
      | stop d =>
        obtain rfl : d = c := hwill
        exact Or.inr (Or.inl (by simp only [tells, hold, hc, if_true]))
      | _ => cases hwill
    | _ => cases hwill
  · exact Or.inr (Or.inr ⟨f, advance_below hs hbelow, hwill⟩)

theorem pending_step {loop : Thread} {s s' : TcpServer Thread U} {a : Action Thread U}
    (hloop : loop ≠ .application) (hadmitted : Admitted loop s) (hdistinct : Distinct uuid s.created)
    (hshielded : Shielded (s.stack .application)) {c : Connection} (hc : c ∈ accepted s.raised)
    (h : Pending uuid (s.stack .application) c) (hs : TcpServer.step uuid loop s a = some s') :
    c ∉ s.connections ∨ tells s a = some c ∨ Pending uuid (s'.stack .application) c := by
  by_cases hother : Thread.application ≠ a.thread loop
  · rw [step_other hs hother]
    exact Or.inr (Or.inr h)
  have hself : a.thread loop = .application := (not_not.mp hother).symm
  cases TcpServer.steps_of_step uuid hs with
  | dispatch hrunning hidle hd => exact absurd hself hloop
  | call op hidle hrunning =>
    obtain rfl : _ = Thread.application := hself
    rw [hidle] at h
    obtain ⟨f, hf, -⟩ := h
    cases hf
  | callback op hold =>
    obtain rfl : _ = Thread.application := hself
    obtain ⟨f, hf, hwill⟩ := h
    refine Or.inr (Or.inr ⟨f, ?_, hwill⟩)
    rw [TcpServer.setStack_self, ← hold]
    exact List.mem_cons_of_mem _ hf
  | returns hold =>
    obtain rfl : _ = Thread.application := hself
    rw [hold] at h
    obtain ⟨f, hf, hwill⟩ := h
    rcases List.mem_cons.mp hf with rfl | hf
    · cases hwill
    · refine Or.inr (Or.inr ⟨f, ?_, hwill⟩)
      rw [TcpServer.setStack_self]
      exact hf
  | caught hold hframes =>
    obtain rfl : _ = Thread.application := hself
    rw [hold] at h hshielded
    obtain ⟨f, hf, hwill⟩ := h
    rcases List.mem_cons.mp hf with rfl | hf
    · cases hwill
    · refine Or.inr (Or.inr ⟨f, ?_, hwill⟩)
      rw [TcpServer.setStack_self, hshielded.unwind.1]
      exact hf
  | escapes hold hframes =>
    obtain rfl : _ = Thread.application := hself
    rw [hold] at hshielded
    rw [hshielded.unwind.1] at hframes
    exact absurd hframes hshielded.unwind.2
  | advance hold hadvance =>
    obtain rfl : _ = Thread.application := hself
    rw [hold] at h
    exact pending_advance hadmitted hdistinct hc hold h hadvance

/-! ## The end of the loop -/

theorem advance_running {T : Type} [DecidableEq T] {s s' : TcpServer T U} {t : T} {frame : Frame U}
    {rest : List (Frame U)} (hs : s.advance uuid t rest frame = some s') : s'.running = s.running := by
  cases TcpServer.advances_of_advance uuid hs <;> rfl

/-- Once `run` has been left the loop makes no more calls. -/
theorem step_halted {T : Type} [DecidableEq T] {loop : T} {s s' : TcpServer T U} {a : Action T U}
    (h : s.running = false → s.stack loop = []) (hs : TcpServer.step uuid loop s a = some s')
    (hhalted : s'.running = false) : s'.stack loop = [] := by
  have hkept : ∀ {t : T} (frames : List (Frame U)), s.running = false → s.stack t ≠ [] →
      (s.setStack t frames).stack loop = [] := by
    intro t frames hrunning hbusy
    have hne : loop ≠ t := by
      rintro rfl
      exact hbusy (h hrunning)
    rw [TcpServer.setStack_of_ne s hne]
    exact h hrunning
  cases TcpServer.steps_of_step uuid hs with
  | dispatch hrunning hidle hd =>
    have hsame : s'.running = s.running := by cases hd <;> rfl
    rw [hsame, hrunning] at hhalted
    cases hhalted
  | @call t op hidle hloop =>
    have hne : loop ≠ t := by
      rintro rfl
      rw [TcpServer.setStack, hloop rfl] at hhalted
      cases hhalted
    rw [TcpServer.setStack_of_ne s hne]
    exact h hhalted
  | callback op hold => exact hkept _ hhalted (by rw [hold]; simp)
  | returns hold => exact hkept _ hhalted (by rw [hold]; simp)
  | caught hold hframes => exact hkept _ hhalted (by rw [hold]; simp)
  | @escapes t event rest hold hframes =>
    by_cases heq : loop = t
    · subst heq
      exact TcpServer.setStack_self ..
    · have hrunning : s.running = false := by
        simpa [TcpServer.setStack, Ne.symm heq] using hhalted
      rw [TcpServer.setStack_of_ne _ heq]
      exact h hrunning
  | @advance t frame rest s' hold hadvance =>
    rw [advance_running hadvance] at hhalted
    have hne : loop ≠ t := by
      rintro rfl
      have hnil := h hhalted
      rw [hold] at hnil
      cases hnil
    rw [advance_other hadvance hne]
    exact h hhalted

theorem step_running {T : Type} [DecidableEq T] {loop : T} {s s' : TcpServer T U} {a : Action T U}
    (hs : TcpServer.step uuid loop s a = some s') (h : s.running = false) : s'.running = false := by
  cases TcpServer.steps_of_step uuid hs with
  | dispatch hrunning _ _ =>
    rw [h] at hrunning
    cases hrunning
  | call _ _ _ | callback _ _ | returns _ | caught _ _ => exact h
  | escapes hold hframes => simp [TcpServer.setStack, h]
  | advance hold hadvance => exact (advance_running hadvance).trans h

/-- A thread that makes no call gets one from its own code only. -/
theorem step_idle {T : Type} [DecidableEq T] {loop t : T} {s s' : TcpServer T U} {a : Action T U}
    (hidle : s.stack t = []) (hs : TcpServer.step uuid loop s a = some s') :
    s'.stack t = [] ∨ (∃ op, a = .call t op) ∨ t = loop := by
  by_cases hother : t ≠ a.thread loop
  · rw [step_other hs hother]
    exact Or.inl hidle
  have hself : t = a.thread loop := not_not.mp hother
  cases TcpServer.steps_of_step uuid hs with
  | dispatch _ _ _ => exact Or.inr (Or.inr hself)
  | call op _ _ =>
    obtain rfl : t = _ := hself
    exact Or.inr (Or.inl ⟨op, rfl⟩)
  | callback _ hold | returns hold | caught hold _ | escapes hold _ | advance hold _ =>
    obtain rfl : t = _ := hself
    rw [hidle] at hold
    cases hold

/-! ## Every state of a run -/

structure Tracked (uuid : Connection → U) (w : Shutdown U) : Prop where
  admitted : Admitted .eventLoop w.server
  removal : Removal w.server fun c => c ∈ w.told ∨ c ∈ w.ended
  posting : Posting w.server (fun c => c ∈ w.told) fun c => c ∈ w.closed
  shielded : Shielded (w.server.stack .application)
  covered : ∀ c ∈ w.covered, c ∈ accepted w.server.raised ∧
    ((c ∈ w.told ∨ c ∈ w.ended) ∨ Pending uuid (w.server.stack .application) c)
  idle : w.stop = .waiting ∨ w.stop = .returned → w.server.stack .application = []
  halted : w.server.running = false → w.server.stack .eventLoop = []
  finished : w.started_status = false → w.server.running = false
  ended : w.stop = .returned → w.started_status = false
  done : ShutDown w

omit [DecidableEq U] in
theorem started_tracked (uuid : Connection → U) : Tracked uuid (Shutdown.started : Shutdown U) where
  admitted := started_admitted _
  removal := started_removal.congr fun c => by simp [Shutdown.started]
  posting := by simp [Posting, Shutdown.started]
  shielded := trivial
  covered := by simp [Shutdown.started]
  idle := fun _ => rfl
  halted := fun _ => rfl
  finished := by simp [Shutdown.started]
  ended := by simp [Shutdown.started]
  done := by
    intro h
    cases h

omit [DecidableEq U] in
/-- Both threads are done, and the state is swept. -/
theorem Tracked.swept {w : Shutdown U} (h : Tracked uuid w)
    (hidle : w.server.stack .application = []) (hstatus : w.started_status = false)
    (hswept : Swept w) :
    w.server.connections = [] ∧ ∀ c ∈ accepted w.server.raised, c ∈ w.closed := by
  have hstacks : ∀ t, w.server.stack t = [] := by
    intro t
    cases t with
    | application => exact hidle
    | eventLoop => exact h.halted (h.finished hstatus)
  have htold : ∀ c ∈ accepted w.server.raised, c ∈ w.told := by
    intro c hc
    by_cases hcovered : c ∈ w.covered
    · rcases (h.covered c hcovered).2 with (htold | hended) | ⟨f, hf, -⟩
      · exact htold
      · exact hswept.2 c hc (Or.inr hended)
      · rw [hidle] at hf
        cases hf
    · exact hswept.2 c hc (Or.inl hcovered)
  constructor
  · apply List.eq_nil_iff_forall_not_mem.mpr
    intro c hc
    have hmem := htold c (h.admitted.registered c hc)
    obtain ⟨t, ht⟩ := h.removal.leaving c hc (Or.inl hmem)
    rw [hstacks t] at ht
    cases ht
  · intro c hc
    rcases h.posting c (htold c hc) with ⟨t, ht⟩ | hposted | hclosed
    · rw [hstacks t] at ht
      cases ht
    · exact hswept.1 c hposted hc
    · exact hclosed

omit [DecidableEq U] in
theorem mem_toList_append {o : Option Connection} {l : List Connection} {c : Connection} :
    c ∈ o.toList ++ l ↔ c ∈ l ∨ o = some c := by
  rw [List.mem_append, Option.mem_toList, or_comm]

omit [DecidableEq U] in
theorem stopAfter_cases (w : Shutdown U) (server : TcpServer Thread U) (a : Action Thread U) :
    w.stopAfter server a = .outside ∨ w.stopAfter server a = w.stop := by
  unfold Shutdown.stopAfter
  split
  · split
    · exact Or.inl rfl
    · exact Or.inr rfl
  · exact Or.inr rfl

omit [DecidableEq U] in
theorem stop_of_after {w : Shutdown U} {server : TcpServer Thread U} {a : Action Thread U} {p : Stop}
    (h : (w.after a server).stop = p) (hp : p ≠ .outside) : w.stop = p := by
  rcases stopAfter_cases w server a with hout | hsame
  · exact absurd (h.symm.trans hout) hp
  · exact hsame.symm.trans h

/-- In `waitStop`, `join` and after `stop` the application makes no calls. -/
theorem application_idle {w : Shutdown U} {a : Action Thread U} {server : TcpServer Thread U}
    (hidle : w.server.stack .application = []) (hstop : w.stop ≠ .outside)
    (hadmits : w.admits a = true) (hs : TcpServer.step uuid .eventLoop w.server a = some server) :
    server.stack .application = [] := by
  rcases step_idle hidle hs with hnil | ⟨op, rfl⟩ | hloop
  · exact hnil
  · simp [Shutdown.admits, hidle, hstop] at hadmits
  · cases hloop

/-- The list is copied when every accepted connection is in it, or has been told or has ended. -/
theorem Tracked.copied {w : Shutdown U} {a : Action Thread U} {server : TcpServer Thread U}
    (h : Tracked uuid w) (hcopies : w.copies a = true)
    (hs : TcpServer.step uuid .eventLoop w.server a = some server) {c : Connection}
    (hc : c ∈ accepted w.server.raised) :
    (c ∈ w.told ∨ c ∈ w.ended) ∨ Pending uuid (server.stack .application) c := by
  have hstart : a = .advance .application ∧ w.server.stack .application = [.disconnectAll] := by
    unfold Shutdown.copies at hcopies
    split at hcopies
    · rw [Bool.and_eq_true] at hcopies
      obtain ⟨-, hstack⟩ := hcopies
      split at hstack
      · rename_i heq
        exact ⟨rfl, heq⟩
      · cases hstack
    · cases hcopies
  obtain ⟨rfl, hstack⟩ := hstart
  by_cases hmem : c ∈ w.server.connections
  · right
    simp only [TcpServer.step, hstack] at hs
    obtain ⟨-, rfl⟩ := TcpServer.locked_eq hs
    refine ⟨.disconnectEach w.server.connections, ?_, hmem⟩
    rw [TcpServer.setStack_self]
    exact List.mem_singleton_self _
  · exact Or.inl (h.removal.gone c hc hmem)

theorem Tracked.after {w : Shutdown U} {a : Action Thread U} {server : TcpServer Thread U}
    (h : Tracked uuid w) (hdistinct : Distinct uuid w.server.created) (hwired : Wired w.server a)
    (hadmits : w.admits a = true)
    (hs : TcpServer.step uuid .eventLoop w.server a = some server) :
    Tracked uuid (w.after a server) := by
  have htold : ∀ c, c ∈ (w.after a server).told ↔ c ∈ w.told ∨ tells w.server a = some c :=
    fun _ => mem_toList_append
  have hended : ∀ c, c ∈ (w.after a server).ended ↔ c ∈ w.ended ∨ endsStream w.server a = some c :=
    fun _ => mem_toList_append
  have hclosed : ∀ c, c ∈ (w.after a server).closed ↔ c ∈ w.closed ∨ closes w.server a = some c :=
    fun _ => mem_toList_append
  have hmono : ∀ c, c ∈ w.told ∨ c ∈ w.ended →
      c ∈ (w.after a server).told ∨ c ∈ (w.after a server).ended := by
    rintro c (hc | hc)
    · exact Or.inl ((htold c).mpr (Or.inl hc))
    · exact Or.inr ((hended c).mpr (Or.inl hc))
  constructor
  · exact h.admitted.step hs
  · refine (h.removal.step h.admitted hdistinct hwired hs).congr fun c => ?_
    rw [htold, hended]
    tauto
  · intro c hc
    rcases h.posting.step hs c ((htold c).mp hc) with hpost | hposted | hclose
    · exact Or.inl hpost
    · exact Or.inr (Or.inl hposted)
    · exact Or.inr (Or.inr ((hclosed c).mpr hclose))
  · exact h.shielded.step (by simp) hs
  · intro c hc
    by_cases hcopies : w.copies a = true
    · have hmem : c ∈ accepted w.server.raised := by
        simpa only [Shutdown.after, hcopies, if_true] using hc
      exact ⟨step_accepted hs hmem, (h.copied hcopies hs hmem).imp (hmono c) id⟩
    · have hold : c ∈ w.covered := by
        simpa [Shutdown.after, hcopies] using hc
      obtain ⟨hmem, hcase⟩ := h.covered c hold
      refine ⟨step_accepted hs hmem, ?_⟩
      rcases hcase with hdone | hpending
      · exact Or.inl (hmono c hdone)
      · rcases pending_step (by simp) h.admitted hdistinct h.shielded hmem hpending hs with
          hnot | htells | hpending'
        · exact Or.inl (hmono c (h.removal.gone c hmem hnot))
        · exact Or.inl (Or.inl ((htold c).mpr (Or.inr htells)))
        · exact Or.inr hpending'
  · intro hstop
    have hold : w.stop = .waiting ∨ w.stop = .returned := by
      rcases hstop with hstop | hstop
      · exact Or.inl (stop_of_after hstop (by simp))
      · exact Or.inr (stop_of_after hstop (by simp))
    refine application_idle (h.idle hold) ?_ hadmits hs
    rcases hold with heq | heq <;> simp [heq]
  · exact step_halted h.halted hs
  · exact fun hstatus => step_running hs (h.finished hstatus)
  · exact fun hstop => h.ended (stop_of_after hstop (by simp))
  · intro hstop
    -- After `stop` neither thread has a step.
    have hold : w.stop = .returned := stop_of_after hstop (by simp)
    have hrunning := h.finished (h.ended hold)
    have hidle : ∀ t, w.server.stack t = [] := by
      intro t
      cases t with
      | application => exact h.idle (Or.inr hold)
      | eventLoop => exact h.halted hrunning
    cases TcpServer.steps_of_step uuid hs with
    | dispatch hrun _ _ =>
      rw [hrunning] at hrun
      cases hrun
    | @call t op hnil hloop =>
      cases t with
      | application => simp [Shutdown.admits, hidle, hold] at hadmits
      | eventLoop =>
        have hrun := hloop rfl
        rw [hrunning] at hrun
        cases hrun
    | callback _ hcall | returns hcall | caught hcall _ | escapes hcall _ | advance hcall _ =>
      rw [hidle] at hcall
      cases hcall

/-! ## One step -/

omit [DecidableEq U] in
theorem Tracked.begins {w : Shutdown U} (h : Tracked uuid w)
    (hidle : w.server.stack .application = []) :
    Tracked uuid { w with
      server := w.server.setStack .application [.disconnectAll], stop := .disconnecting } where
  admitted := h.admitted.onward [.disconnectAll] [] (restacked ..) (List.nil_sublist _)
    (by simp [Frame.plain])
  removal := h.removal.onward [.disconnectAll] [] rfl rfl rfl rfl (List.nil_subset _)
    (by rw [hidle]; rfl) (by simp [Frame.removes])
  posting := by
    intro c hc
    rcases h.posting c hc with ⟨t, ht⟩ | hrest
    · have hne : t ≠ .application := by
        rintro rfl
        rw [hidle] at ht
        cases ht
      exact Or.inl ⟨t, by rw [TcpServer.setStack_of_ne _ hne]; exact ht⟩
    · exact Or.inr hrest
  shielded := by
    rw [TcpServer.setStack_self]
    exact ⟨Or.inl rfl, trivial⟩
  covered := by
    intro c hc
    obtain ⟨hmem, hdone | ⟨f, hf, -⟩⟩ := h.covered c hc
    · exact ⟨hmem, Or.inl hdone⟩
    · rw [hidle] at hf
      cases hf
  idle := by
    rintro (hstop | hstop)
    · cases hstop
    · cases hstop
  halted := by
    intro hrunning
    rw [TcpServer.setStack_of_ne _ (by simp)]
    exact h.halted hrunning
  finished := h.finished
  ended := by
    intro hstop
    cases hstop
  done := by
    intro hstop
    cases hstop

theorem Tracked.step {w w' : Shutdown U} {a : ShutdownAction U} (h : Tracked uuid w)
    (hdistinct : Distinct uuid w.server.created) (hclean : Clean w a)
    (hs : Shutdown.step uuid w a = some w') : Tracked uuid w' := by
  cases a with
  | server a =>
    simp only [Shutdown.step] at hs
    split at hs
    · rename_i hadmits
      cases hserver : TcpServer.step uuid .eventLoop w.server a with
      | none =>
        rw [hserver] at hs
        cases hs
      | some server =>
        rw [hserver] at hs
        cases hs
        exact h.after hdistinct hclean hadmits hserver
    · cases hs
  | stop =>
    simp only [Shutdown.step] at hs
    split at hs
    · rename_i hcalls
      split at hs
      · cases hs
        exact h.begins hcalls.2
      · rename_i hstatus
        cases hs
        have hstatus' : w.started_status = false := by simpa using hstatus
        exact { h with
          idle := fun _ => hcalls.2
          ended := fun _ => hstatus'
          done := fun _ => h.swept hcalls.2 hstatus' (hclean hstatus') }
    · cases hs
  | ioStop =>
    simp only [Shutdown.step] at hs
    split at hs
    · rename_i hcalls
      cases hs
      exact { h with
        idle := fun _ => hcalls.2
        ended := by
          intro hstop
          cases hstop
        done := by
          intro hstop
          cases hstop }
    · cases hs
  | leave =>
    simp only [Shutdown.step] at hs
    split at hs
    · rename_i hleaves
      cases hs
      obtain ⟨hdistinct', hunseen, hcreated, hregistered, hheralds, hothers⟩ := h.admitted
      obtain ⟨hbegun, hconnected, hhandlers, hfound, hgone, hwired, hleaving⟩ := h.removal
      exact { h with
        admitted := ⟨hdistinct', hunseen, hcreated, hregistered, hheralds, hothers⟩
        removal := ⟨hbegun, hconnected, hhandlers, hfound, hgone, hwired, hleaving⟩
        halted := fun _ => hleaves.2.2
        finished := fun _ => rfl }
    · cases hs
  | finish =>
    simp only [Shutdown.step] at hs
    split at hs
    · rename_i hrunning
      cases hs
      exact { h with finished := fun _ => hrunning, ended := fun _ => rfl }
    · cases hs
  | join =>
    simp only [Shutdown.step] at hs
    split at hs
    · rename_i hwaits
      cases hs
      have hidle := h.idle (Or.inl hwaits.1)
      exact { h with
        idle := fun _ => hidle
        ended := fun _ => hwaits.2
        done := fun _ => h.swept hidle hwaits.2 hclean }
    · cases hs

theorem shutdown_created {w w' : Shutdown U} {a : ShutdownAction U}
    (hs : Shutdown.step uuid w a = some w') : w.server.created ≤ w'.server.created := by
  cases a with
  | server a =>
    simp only [Shutdown.step] at hs
    split at hs
    · cases hserver : TcpServer.step uuid .eventLoop w.server a with
      | none =>
        rw [hserver] at hs
        cases hs
      | some server =>
        rw [hserver] at hs
        cases hs
        exact step_created hserver
    · cases hs
  | stop =>
    simp only [Shutdown.step] at hs
    split at hs
    · split at hs <;> cases hs <;> exact Nat.le_refl _
    · cases hs
  | ioStop | leave | finish | join =>
    simp only [Shutdown.step] at hs
    split at hs
    · cases hs
      exact Nat.le_refl _
    · cases hs

/-! ## Whole runs -/

/-- **`stop` shuts everything down** in every run whose steps are clean. -/
theorem stop_shuts_down (uuid : Connection → U) (as : List (ShutdownAction U)) (w : Shutdown U)
    (hrun : run (Shutdown.step uuid) Shutdown.started as = some w)
    (hclean : Meets (Shutdown.step uuid) Clean Shutdown.started as)
    (hdistinct : Distinct uuid w.server.created) :
    Along (Shutdown.step uuid) ShutDown Shutdown.started as := by
  have hearlier : ∀ w a w', Shutdown.step uuid w a = some w' →
      Distinct uuid w'.server.created → Distinct uuid w.server.created := by
    intro w a w' hs hlater c d hc hd
    have hle := shutdown_created hs
    exact hlater c d (Nat.lt_of_lt_of_le hc hle) (Nat.lt_of_lt_of_le hd hle)
  have htracked := along_of_meets_to hearlier (I := Tracked uuid) (A := fun _ => True) ?_
    (started_tracked uuid) hrun hdistinct (fun _ _ => trivial) hclean
  · exact htracked.mono fun _ h => h.done
  · intro w a w' h hlater _ hclean hs
    exact h.step (hearlier w a w' hs hlater) hclean hs

/-- A client connects, and the application calls `stop` and gets as far as `io_service->stop()`. -/
def stopWhileConnected : List (ShutdownAction ℕ) :=
  ([.dispatch (.accept none), .advance .eventLoop, .returns .eventLoop, .advance .eventLoop].map
      .server : List (ShutdownAction ℕ)) ++
    .stop :: [.advance .application, .advance .application, .advance .application,
      .advance .application, .advance .application, .advance .application, .advance .application,
      .advance .application, .advance .application, .returns .application, .advance .application,
      .advance .application].map .server ++ [.ioStop]

/-- The loop runs the posted closure before it leaves `run`. -/
def closureFirst : List (ShutdownAction ℕ) :=
  stopWhileConnected ++ [.server (.dispatch .closure), .leave, .finish, .join]

theorem stop_shuts_down_closureFirst : ∃ w,
    run (Shutdown.step id) Shutdown.started closureFirst = some w ∧ w.stop = .returned ∧
      accepted w.server.raised = [0] ∧
      Along (Shutdown.step id) ShutDown Shutdown.started closureFirst := by
  have hrun : ((run (Shutdown.step id) Shutdown.started closureFirst).map fun w =>
      (w.stop, accepted w.server.raised)) = some (.returned, [0]) := by
    decide +kernel
  obtain ⟨w, hw, hfields⟩ := Option.map_eq_some_iff.mp hrun
  simp only [Prod.mk.injEq] at hfields
  have hdistinct : Distinct (id : Connection → ℕ) w.server.created := fun c d _ _ h => h
  exact ⟨w, hw, hfields.1, hfields.2,
    stop_shuts_down id closureFirst w hw (by decide +kernel) hdistinct⟩

/-- `run` returns with the closure still queued. -/
def closureLeft : List (ShutdownAction ℕ) := stopWhileConnected ++ [.leave, .finish, .join]

theorem socket_left_open : ¬ ∀ (as : List (ShutdownAction ℕ)) (w : Shutdown ℕ),
    run (Shutdown.step id) Shutdown.started as = some w → ShutDown w := by
  intro h
  have hrun : ((run (Shutdown.step id) Shutdown.started closureLeft).map fun w =>
      (w.stop, accepted w.server.raised, w.closed)) = some (.returned, [0], []) := by
    decide +kernel
  obtain ⟨w, hw, hfields⟩ := Option.map_eq_some_iff.mp hrun
  simp only [Prod.mk.injEq] at hfields
  obtain ⟨hstop, haccepted, hclosed⟩ := hfields
  have hmem := (h closureLeft w hw hstop).2 0 (by simp [haccepted])
  rw [hclosed] at hmem
  cases hmem

end Diginext.Server
