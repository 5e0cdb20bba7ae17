import Diginext.Tcp.SendQueue

/-! # Sends that race with connection set-up

`connect`, `handle_connect` and `start` of `core/src/TCP/TCPConnection.cpp` beside the send path.
`connect` only starts the asynchronous connect, and the client program sends right after it, so `send`
can run before `handle_connect` has called `start`. `start` writes `sendStart` without `sendSync` and
without looking at the queue. Two of its orders with the send path go wrong: a later
`async_write(true)` finds the flag cleared over an outstanding write, or the flag was set by nobody
(the constructor leaves it as it is) and a queued message has no caller left. `Unraced` excludes just
these two, and `set_up_correct_iff` says that nothing else goes wrong.

`start` is one atomic step although it takes no lock: a critical section tests `sendStart` once and
assigns it afterwards, so a `start` that falls inside it does what it does before it or after it. In
`handleConnect` the argument `is_open` is what `socket_.is_open()` says.
-/
namespace Diginext.Tcp
open Outcomes Cpp Transition
set_option autoImplicit false

/-- A connection on which `connect` has been called; `connecting` until `handle_connect` has run. -/
structure SetUp (T : Type) where
  sender : Sender T
  connecting : Bool
  established : Bool

def SetUp.connect {T : Type} (sendStart : Bool) : SetUp T where
  sender := Sender.fresh sendStart
  connecting := true
  established := false

inductive SetUpAction (T : Type) where
  | sending (a : SendAction T)
  | handleConnect (is_open ec : Bool)

/-- `tcp_connection::handle_connect`, without the events it raises. -/
def SetUp.handleConnect {T : Type} (c : SetUp T) (is_open ec : Bool) : SetUp T :=
  if !is_open then { c with connecting := false }
  else if ec then { c with connecting := false }
  else { sender := c.sender.start, connecting := false, established := true }

def setUpStep {T : Type} [DecidableEq T] (c : SetUp T) : SetUpAction T → Option (SetUp T)
  | .sending a => (sendStep c.sender a).map fun sender => { c with sender := sender }
  | .handleConnect is_open ec => if c.connecting then some (c.handleConnect is_open ec) else none

def SetUpAction.transmits {T : Type} : SetUpAction T → Bool
  | .sending a => a.transmits
  | .handleConnect _ _ => true

/-- What is asked of the send queue while the connection is set up and after: at most one write is
outstanding; the buffers handed to the socket are a prefix of those pushed, which are distinct; no
element is taken off the queue before its write was completed; and when all sends and completions have
run on an established connection, everything pushed has been handed over. -/
structure SetUpCorrect {T : Type} (c : SetUp T) : Prop where
  one_write : c.sender.writes.length ≤ 1
  in_order : c.sender.handed <+: c.sender.pushed
  distinct : c.sender.pushed.Nodup
  kept : c.sender.popped <+: c.sender.finished
  drained : c.established = true → (∀ t, c.sender.calling t = false) → c.sender.writes = [] →
    c.sender.sendBuffer = [] ∧ c.sender.handed = c.sender.pushed

/-- The steps that do not race with `start`: an `async_write(true)` that finds the flag cleared finds
no write outstanding, and a `start` that finds an element without a write finds a caller that has yet
to run `async_write(true)`. -/
def Unraced {T : Type} (c : SetUp T) : SetUpAction T → Prop
  | .sending (.pump _) => c.sender.sendStart = false → c.sender.writes = []
  | .handleConnect true false =>
    c.sender.writes = [] → c.sender.sendBuffer ≠ [] → ∃ t, c.sender.calling t = true
  | _ => True

/-- What unraced steps keep: a sound queue, which drains once the connection is established. -/
structure SettingUp {T : Type} (c : SetUp T) : Prop where
  sound : c.sender.Sound
  draining : c.established = true → Draining c.sender

variable {T : Type}

theorem connect_settingUp (flag : Bool) : SettingUp (SetUp.connect flag : SetUp T) where
  sound := Sender.fresh_sound flag
  draining := by
    intro h
    simp [SetUp.connect] at h

theorem SettingUp.correct {c : SetUp T} (h : SettingUp c) : SetUpCorrect c where
  one_write := h.sound.one
  in_order := h.sound.handed_initial
  distinct := h.sound.nodup
  kept := h.sound.popped_initial
  drained := by
    intro hest hcalls hidle
    have hbuffer := (h.draining hest).drained hcalls hidle
    refine ⟨hbuffer, ?_⟩
    rw [h.sound.offered, h.sound.queued, hidle, hbuffer]
    rfl

/-! ## `start` -/

theorem Sender.Sound.start {s : Sender T} (h : s.Sound) : s.start.Sound :=
  h.congr rfl rfl rfl rfl rfl rfl

theorem Sender.Sound.start_draining {s : Sender T} (h : s.Sound)
    (hwaiting : s.writes = [] → s.sendBuffer ≠ [] → ∃ t, s.calling t = true) :
    Draining s.start where
  sound := h.start
  busy := by
    intro hflag
    simp [Sender.start] at hflag
  waiting := hwaiting

theorem SettingUp.handleConnect {c : SetUp T} (h : SettingUp c) (is_open ec : Bool)
    (hunraced : Unraced c (.handleConnect is_open ec)) : SettingUp (c.handleConnect is_open ec) := by
  cases is_open with
  | false => exact ⟨h.sound, h.draining⟩
  | true =>
    cases ec with
    | true => exact ⟨h.sound, h.draining⟩
    | false => exact ⟨h.sound.start, fun _ => h.sound.start_draining hunraced⟩

theorem pumping_unraced {c : SetUp T} (h : Pumping c.sender) (a : SetUpAction T) : Unraced c a := by
  unfold Unraced
  split
  · exact fun hflag => h.idle hflag
  · exact h.waiting
  · trivial

variable [DecidableEq T]

/-! ## One step -/

theorem SettingUp.step {c c' : SetUp T} {a : SetUpAction T} (h : SettingUp c) (hunraced : Unraced c a)
    (hs : setUpStep c a = some c') : SettingUp c' := by
  cases a with
  | sending a =>
    obtain ⟨s', hs', rfl⟩ := Option.map_eq_some_iff.mp hs
    have hpump : ∀ t, a = .pump t → c.sender.sendStart = false → c.sender.writes = [] := by
      intro t ha
      subst ha
      exact hunraced
    exact ⟨h.sound.step hpump hs', fun hest => (h.draining hest).step hpump hs'⟩
  | handleConnect is_open ec =>
    simp only [setUpStep] at hs
    split at hs
    · cases hs
      exact h.handleConnect is_open ec hunraced
    · cases hs

/-- An `async_write(true)` that finds the flag cleared over an outstanding write starts a second. -/
theorem second_write {s s' : Sender T} (h : s.Sound) {t : T} (hflag : s.sendStart = false)
    (hbusy : s.writes ≠ []) (hs : sendStep s (.pump t) = some s') : 1 < s'.writes.length := by
  obtain ⟨w, ws, hws⟩ := List.exists_cons_of_ne_nil hbusy
  obtain ⟨-, hsingle, rest, hbuffer⟩ := h.write_cases (k := 0) (w := w) (by simp [hws])
  simp only [sendStep] at hs
  split at hs
  · cases hs
    rw [Sender.asyncWrite_idle (s := { s with calling := Function.update s.calling t false }) hflag,
      Sender.writeFront_cons
        (s := { s with calling := Function.update s.calling t false, sendStart := true }) hbuffer]
    simp [hsingle]
  · cases hs

theorem raced_step {c c' : SetUp T} {a : SetUpAction T} (h : SettingUp c) (hraced : ¬ Unraced c a)
    (hs : setUpStep c a = some c') : ¬ SetUpCorrect c' := by
  intro hcorrect
  match a with
  | .sending (.pump t) =>
    obtain ⟨hflag, hbusy⟩ : c.sender.sendStart = false ∧ c.sender.writes ≠ [] := by
      simpa [Unraced] using hraced
    obtain ⟨s', hs', rfl⟩ := Option.map_eq_some_iff.mp hs
    have htwo := second_write h.sound hflag hbusy hs'
    have hone := hcorrect.one_write
    simp only at hone
    omega
  | .handleConnect true false =>
    -- the element waits without a write, and nobody is left to start one
    obtain ⟨hidle, hbuffer, hcalls⟩ : c.sender.writes = [] ∧ c.sender.sendBuffer ≠ [] ∧
        ∀ t, c.sender.calling t = false := by
      simpa [Unraced] using hraced
    simp only [setUpStep] at hs
    split at hs
    · cases hs
      exact hbuffer (hcorrect.drained rfl hcalls hidle).1
    · cases hs
  | .sending (.push t msg) => exact hraced trivial
  | .sending (.complete k result) => exact hraced trivial
  | .sending (.resume k) => exact hraced trivial
  | .handleConnect false ec => exact hraced trivial
  | .handleConnect true true => exact hraced trivial

/-! ## Whole runs -/

theorem unraced_correct {flag : Bool} {as : List (SetUpAction T)}
    (h : Meets setUpStep Unraced (SetUp.connect flag) as) :
    Along setUpStep SetUpCorrect (SetUp.connect flag) as := by
  have hinv := along_of_meets (I := SettingUp) (fun _ _ _ hI hC hs => hI.step hC hs)
    (connect_settingUp flag) h
  exact hinv.mono fun _ hI => hI.correct

/-- **The send queue around set-up.** For either value that the constructor left in `sendStart`, a run
is correct in every state it reaches exactly if none of its steps races with `start`. -/
theorem set_up_correct_iff (flag : Bool) (as : List (SetUpAction T)) :
    Along setUpStep SetUpCorrect (SetUp.connect flag) as ↔
      Meets setUpStep Unraced (SetUp.connect flag) as := by
  constructor
  · intro h
    exact meets_of_along (I := SettingUp) (fun _ _ _ hI hC hs => hI.step hC hs)
      (fun _ _ _ hI hC hs => raced_step hI hC hs) (connect_settingUp flag) h
  · exact unraced_correct

def sendsAround : List (SetUpAction Unit) :=
  [.sending (.push () letters), .sending (.pump ()), .handleConnect true false,
    .sending (.push () letters), .sending (.pump ())]

def sendBefore : List (SetUpAction Unit) :=
  [.sending (.push () letters), .sending (.pump ()), .handleConnect true false]

/-- With either initial flag the queue goes wrong though every write succeeds: with the flag false two
writes of one element are outstanding, with the flag true the message is never written. -/
theorem set_up_races :
    (¬ ∀ as : List (SetUpAction Unit), (∀ a ∈ as, a.transmits = true) →
      Along setUpStep SetUpCorrect (SetUp.connect false) as) ∧
    (¬ ∀ as : List (SetUpAction Unit), (∀ a ∈ as, a.transmits = true) →
      Along setUpStep SetUpCorrect (SetUp.connect true) as) := by
  constructor
  · intro h
    have hrun : ((run setUpStep (SetUp.connect false) sendsAround).map
        fun c => c.sender.writes.length) = some 2 := by decide
    obtain ⟨c, hc, hlen⟩ := Option.map_eq_some_iff.mp hrun
    have hone := ((h sendsAround (by decide)).last hc).one_write
    omega
  · intro h
    have hrun : ((run setUpStep (SetUp.connect true) sendBefore).map fun c =>
        (c.established, c.sender.calling (), c.sender.writes.length, c.sender.sendBuffer.length)) =
        some (true, false, 0, 1) := by decide
    obtain ⟨c, hc, hfields⟩ := Option.map_eq_some_iff.mp hrun
    simp only [Prod.mk.injEq, List.length_eq_zero_iff] at hfields
    obtain ⟨hest, hcall, hidle, hqueued⟩ := hfields
    have hdrained := ((h sendBefore (by decide)).last hc).drained hest (fun _ => hcall) hidle
    rw [hdrained.1] at hqueued
    cases hqueued

/-! ## A connection that is sent on only after it was established -/

/-- **Sending from `onConnectionSuccess` on.** A run that begins with the completed connect is
correct. -/
theorem set_up_correct_of_connected (flag : Bool) (as : List (SetUpAction T)) :
    Along setUpStep SetUpCorrect (SetUp.connect flag) (.handleConnect true false :: as) := by
  apply unraced_correct
  intro c hs
  refine ⟨?_, ?_⟩
  · intro _ hbuffer
    exact absurd rfl hbuffer
  · have hc : c = (SetUp.connect flag).handleConnect true false := by
      simpa [setUpStep, SetUp.connect] using hs.symm
    have hI : Pumping c.sender ∧ c.connecting = false := by
      rw [hc]
      exact ⟨started_pumping flag, rfl⟩
    refine meets_of_invariant (I := fun c : SetUp T => Pumping c.sender ∧ c.connecting = false)
      (fun c a _ hI _ => pumping_unraced hI.1 a) ?_ hI
    intro c a c' hI hs
    cases a with
    | sending a =>
      obtain ⟨s', hs', rfl⟩ := Option.map_eq_some_iff.mp hs
      exact ⟨hI.1.step hs', hI.2⟩
    | handleConnect is_open ec => simp [setUpStep, hI.2] at hs

end Diginext.Tcp
