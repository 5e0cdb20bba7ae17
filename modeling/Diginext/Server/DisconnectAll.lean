import Diginext.Server.Wiring
import Mathlib.Computability.StateTransition

/-! # `disconnectAll` on one thread

`disconnectAll` goes through a copy of the list, and every connection it disconnects runs listeners that
may call the server again. A listener makes finitely many calls and then returns or throws (`Listener`);
what it does may differ from one notification to the next. Every notification takes a connection out of
the registry, so by induction on how many there are every call returns (`entry_returns`), and at the end
each connection of the copy has left the registry and has been announced once.
-/
namespace Diginext.Server
open Cpp Transition StateTransition
set_option autoImplicit false

/-! ## A thread whose listeners follow a script -/

/-- What the listeners of one notification do: they make these calls, and then return or throw. -/
structure Listener (U : Type) where
  calls : List (Operation U)
  throws : Bool

/-- `listeners` are the listeners that the thread is in, innermost first, with the calls they still
make. -/
structure Scripted (T U : Type) where
  server : TcpServer T U
  listeners : List (Listener U)

section Script
variable {T U : Type} [DecidableEq T] [DecidableEq U] (uuid : Connection → U) (loop t : T)
  (behaviour : ℕ → Listener U)

/-- The next step of the thread `t`, where `behaviour n` is what the listeners of the `n`-th event do. It
has none when it is back in its own code, or in the listener that it was in at the beginning. -/
def Scripted.next (d : Scripted T U) : Option (Scripted T U) :=
  match d.server.stack t, d.listeners with
  | .listening _ :: _, [] => none
  | .listening _ :: _, ⟨op :: calls, throws⟩ :: outer =>
    (TcpServer.step uuid loop d.server (.call t op)).map fun s => ⟨s, ⟨calls, throws⟩ :: outer⟩
  | .listening _ :: _, ⟨[], throws⟩ :: outer =>
    (TcpServer.step uuid loop d.server (if throws then .throws t else .returns t)).map fun s =>
      ⟨s, outer⟩
  | .emit _ :: _, listeners =>
    (TcpServer.step uuid loop d.server (.advance t)).map fun s =>
      ⟨s, behaviour d.server.raised.length :: listeners⟩
  | _, listeners =>
    (TcpServer.step uuid loop d.server (.advance t)).map fun s => ⟨s, listeners⟩

end Script

/-! ## What calls on one thread do -/

section Departs
variable {T U : Type}

/-- Whether a connection is registered, and how often its `onDisconnected` has been raised. -/
def dues (s : TcpServer T U) (c : Connection) : ℕ :=
  s.raised.count (.onDisconnected c) + if c ∈ s.connections then 1 else 0

/-- Connections have left the registry, and each has been announced. -/
structure Departs (s s' : TcpServer T U) : Prop where
  stack : s'.stack = s.stack
  server_sync : s'.server_sync = s.server_sync
  subset : s'.connections ⊆ s.connections
  length : s'.connections.length ≤ s.connections.length
  connected : ∀ c ∈ s'.connections, s'.slots c .onDisconnected = s.slots c .onDisconnected
  dues : ∀ c, dues s' c = dues s c

theorem Departs.refl (s : TcpServer T U) : Departs s s :=
  ⟨rfl, rfl, List.Subset.refl _, Nat.le_refl _, fun _ _ => rfl, fun _ => rfl⟩

theorem Departs.trans {s s' s'' : TcpServer T U} (h : Departs s s') (h' : Departs s' s'') :
    Departs s s'' where
  stack := h'.stack.trans h.stack
  server_sync := h'.server_sync.trans h.server_sync
  subset := List.Subset.trans h'.subset h.subset
  length := Nat.le_trans h'.length h.length
  connected := fun c hc => (h'.connected c hc).trans (h.connected c (h'.subset hc))
  dues := fun c => (h'.dues c).trans (h.dues c)

theorem AtRest.departs {uuid : Connection → U} {s s' : TcpServer T U} (h : AtRest uuid s)
    (hd : Departs s s') : AtRest uuid s' where
  unlocked := hd.server_sync.trans h.unlocked
  connected := fun c hc => (hd.connected c hc).trans (h.connected c (hd.subset hc))
  distinct := fun c hc d hd' => h.distinct c (hd.subset hc) d (hd.subset hd')

end Departs

/-! ## One step of the script -/

section Steps
variable {T U : Type} [DecidableEq T]

@[simp] theorem setStack_setStack (s : TcpServer T U) (t : T) (frames frames' : List (Frame U)) :
    (s.setStack t frames).setStack t frames' = s.setStack t frames' := by
  simp [TcpServer.setStack, Function.update_idem]

variable [DecidableEq U] {uuid : Connection → U} {loop t : T} {behaviour : ℕ → Listener U}

/-- The calls in which the script has no say. -/
def Frame.unscripted : Frame U → Bool
  | listening _ | emit _ => false
  | _ => true

theorem next_advance {s s' : TcpServer T U} {ls : List (Listener U)} {frame : Frame U}
    {rest : List (Frame U)} (hframe : frame.unscripted = true)
    (hs : (s.setStack t (frame :: rest)).advance uuid t rest frame = some s') :
    Scripted.next uuid loop t behaviour ⟨s.setStack t (frame :: rest), ls⟩ = some ⟨s', ls⟩ := by
  have hstep : TcpServer.step uuid loop (s.setStack t (frame :: rest)) (.advance t) = some s' := by
    simp only [TcpServer.step, TcpServer.setStack_self]
    exact hs
  cases frame with
  | listening event | emit event => cases hframe
  | _ =>
    simp only [Scripted.next, TcpServer.setStack_self, hstep]
    rfl

omit [DecidableEq T] [DecidableEq U] in
/-- `locked` with the mutex free. -/
theorem locked_free {s result : TcpServer T U} (h : s.server_sync = none) :
    s.locked result = some result := by
  simp [TcpServer.locked, h]

theorem next_emit (s : TcpServer T U) (ls : List (Listener U)) (event : Event)
    (rest : List (Frame U)) :
    Scripted.next uuid loop t behaviour ⟨s.setStack t (.emit event :: rest), ls⟩ =
      some ⟨{ s with raised := s.raised ++ [event] }.setStack t (.listening event :: rest),
        behaviour s.raised.length :: ls⟩ := by
  simp [Scripted.next, TcpServer.step, TcpServer.advance, TcpServer.setStack, Function.update_idem]

theorem next_call (s : TcpServer T U) (ls : List (Listener U)) (event : Event) (rest : List (Frame U))
    (op : Operation U) (calls : List (Operation U)) (throws : Bool) :
    Scripted.next uuid loop t behaviour
        ⟨s.setStack t (.listening event :: rest), ⟨op :: calls, throws⟩ :: ls⟩ =
      some ⟨s.setStack t (TcpServer.entry uuid op :: .listening event :: rest),
        ⟨calls, throws⟩ :: ls⟩ := by
  simp [Scripted.next, TcpServer.step]

/-- Whether the listener returns or throws, the call that catches exceptions goes on. -/
theorem next_ends (s : TcpServer T U) (ls : List (Listener U)) (event : Event) {frame : Frame U}
    (rest : List (Frame U)) (throws : Bool) (hcatches : frame.catches = true) :
    Scripted.next uuid loop t behaviour
        ⟨s.setStack t (.listening event :: frame :: rest), ⟨[], throws⟩ :: ls⟩ =
      some ⟨s.setStack t (frame :: rest), ls⟩ := by
  have hunwind : TcpServer.unwind (frame :: rest) = frame :: rest := by
    simp [TcpServer.unwind, hcatches]
  cases throws with
  | false => simp [Scripted.next, TcpServer.step]
  | true => simp [Scripted.next, TcpServer.step, hunwind]

end Steps

/-! ## Calls that return -/

section Calls
variable {T U : Type} [DecidableEq T] [DecidableEq U] (uuid : Connection → U) (loop t : T)
  (behaviour : ℕ → Listener U)

/-- The thread gets from `frames` to `rest` in finitely many steps, and `Q` holds there. -/
def Returns (s : TcpServer T U) (ls : List (Listener U)) (frames rest : List (Frame U))
    (Q : TcpServer T U → Prop) : Prop :=
  ∃ s', Reaches (Scripted.next uuid loop t behaviour) ⟨s.setStack t frames, ls⟩
    ⟨s'.setStack t rest, ls⟩ ∧ Departs s s' ∧ Q s'

/-- Every operation returns when fewer than `n` connections are registered. -/
def CallsReturn (n : ℕ) : Prop :=
  ∀ (s : TcpServer T U) (ls : List (Listener U)) (op : Operation U) (rest : List (Frame U)),
    s.connections.length < n → AtRest uuid s →
      Returns uuid loop t behaviour s ls (TcpServer.entry uuid op :: rest) rest fun _ => True

variable {uuid loop t behaviour}

theorem Returns.here {s : TcpServer T U} {ls : List (Listener U)} {rest : List (Frame U)}
    {Q : TcpServer T U → Prop} (h : Q s) : Returns uuid loop t behaviour s ls rest rest Q :=
  ⟨s, .refl, .refl s, h⟩

/-- One step that changes the stack only. -/
theorem Returns.step {s : TcpServer T U} {ls : List (Listener U)} {frames frames' rest : List (Frame U)}
    {Q : TcpServer T U → Prop}
    (hnext : Scripted.next uuid loop t behaviour ⟨s.setStack t frames, ls⟩ =
      some ⟨s.setStack t frames', ls⟩)
    (h : Returns uuid loop t behaviour s ls frames' rest Q) :
    Returns uuid loop t behaviour s ls frames rest Q := by
  obtain ⟨s', hreaches, hdeparts, hQ⟩ := h
  exact ⟨s', .head hnext hreaches, hdeparts, hQ⟩

theorem Returns.trans {s : TcpServer T U} {ls : List (Listener U)} {frames frames' rest : List (Frame U)}
    {P Q : TcpServer T U → Prop} (h : Returns uuid loop t behaviour s ls frames frames' P)
    (hrest : ∀ s', Departs s s' → P s' → Returns uuid loop t behaviour s' ls frames' rest Q) :
    Returns uuid loop t behaviour s ls frames rest Q := by
  obtain ⟨s₁, hreaches₁, hdeparts₁, hP⟩ := h
  obtain ⟨s₂, hreaches₂, hdeparts₂, hQ⟩ := hrest s₁ hdeparts₁ hP
  exact ⟨s₂, hreaches₁.trans hreaches₂, hdeparts₁.trans hdeparts₂, hQ⟩

/-! ### The listeners -/

/-- The listener makes its calls one after the other; the induction is on the calls that are left. -/
theorem listener_returns {n : ℕ} (hcalls : CallsReturn uuid loop t behaviour n)
    (l : Listener U) {s : TcpServer T U} (hlength : s.connections.length < n) (hrest : AtRest uuid s)
    (ls : List (Listener U)) (event : Event) {frame : Frame U} (rest : List (Frame U))
    (hcatches : frame.catches = true) :
    ∃ s', Reaches (Scripted.next uuid loop t behaviour)
      ⟨s.setStack t (.listening event :: frame :: rest), l :: ls⟩
      ⟨s'.setStack t (frame :: rest), ls⟩ ∧ Departs s s' := by
  obtain ⟨calls, throws⟩ := l
  induction calls generalizing s with
  | nil => exact ⟨s, .single (next_ends s ls event rest throws hcatches), .refl s⟩
  | cons op calls ih =>
    obtain ⟨s₁, hreaches₁, hdeparts₁, -⟩ :=
      hcalls s (⟨calls, throws⟩ :: ls) op (.listening event :: frame :: rest) hlength hrest
    obtain ⟨s₂, hreaches₂, hdeparts₂⟩ :=
      ih (Nat.lt_of_le_of_lt hdeparts₁.length hlength) (hrest.departs hdeparts₁)
    refine ⟨s₂, .head ?_ (hreaches₁.trans hreaches₂), hdeparts₁.trans hdeparts₂⟩
    exact next_call s ls event (frame :: rest) op calls throws

/-! ### `handle_tcp_connection_disconnected` -/

/-- The registry without the connections that have the identifier `u`. -/
def TcpServer.without (uuid : Connection → U) (s : TcpServer T U) (u : U) : TcpServer T U :=
  { s with connections := s.connections.filter fun c => uuid c ≠ u }

omit [DecidableEq T] in
theorem without_removeFirst (s : TcpServer T U) (u : U) :
    (s.removeFirst uuid u).without uuid u = s.without uuid u := by
  have hfilter : ∀ l : List Connection, (l.eraseP fun c => uuid c = u).filter (fun c => uuid c ≠ u) =
      l.filter fun c => uuid c ≠ u := by
    intro l
    induction l with
    | nil => rfl
    | cons c l ih =>
      by_cases hc : uuid c = u
      · simp [hc]
      · simpa [hc] using ih
  simp only [TcpServer.without, TcpServer.removeFirst, hfilter]

omit [DecidableEq T] in
theorem without_of_lookup {s : TcpServer T U} {u : U} (hnone : s.getConnectionByUUID uuid u = none) :
    s.without uuid u = s := by
  have hfilter : s.connections.filter (fun c => uuid c ≠ u) = s.connections := by
    apply List.filter_eq_self.mpr
    intro c hc
    simpa using List.find?_eq_none.mp hnone c hc
  simp only [TcpServer.without, hfilter]

/-- `removeConnectionByUUID` erases and looks up again until the identifier is gone; the induction is on
the length of the list. -/
theorem erase_reaches (s : TcpServer T U) (hsync : s.server_sync = none) (ls : List (Listener U))
    (p : Connection) (rest : List (Frame U)) :
    Reaches (Scripted.next uuid loop t behaviour) ⟨s.setStack t (.erase p :: rest), ls⟩
      ⟨(s.without uuid (uuid p)).setStack t (.emit (.onDisconnected p) :: rest), ls⟩ := by
  induction hn : s.connections.length using Nat.strong_induction_on generalizing s with
  | _ n ih =>
    have herase : Scripted.next uuid loop t behaviour ⟨s.setStack t (.erase p :: rest), ls⟩ =
        some ⟨(s.removeFirst uuid (uuid p)).setStack t (.recheck p :: rest), ls⟩ := by
      refine next_advance rfl ((locked_free hsync).trans ?_)
      simp [TcpServer.removeFirst, TcpServer.setStack, Function.update_idem]
    have hlookup : ∀ frames, ((s.removeFirst uuid (uuid p)).setStack t frames).getConnectionByUUID uuid
        (uuid p) = (s.removeFirst uuid (uuid p)).getConnectionByUUID uuid (uuid p) := fun _ => rfl
    refine .head herase ?_
    cases hfound : (s.removeFirst uuid (uuid p)).getConnectionByUUID uuid (uuid p) with
    | none =>
      have hrecheck : Scripted.next uuid loop t behaviour
          ⟨(s.removeFirst uuid (uuid p)).setStack t (.recheck p :: rest), ls⟩ =
          some ⟨(s.removeFirst uuid (uuid p)).setStack t (.emit (.onDisconnected p) :: rest), ls⟩ := by
        refine next_advance rfl ((locked_free hsync).trans ?_)
        simp [hlookup, hfound]
      rw [← without_removeFirst s (uuid p), without_of_lookup hfound]
      exact .single hrecheck
    | some q =>
      have hrecheck : Scripted.next uuid loop t behaviour
          ⟨(s.removeFirst uuid (uuid p)).setStack t (.recheck p :: rest), ls⟩ =
          some ⟨(s.removeFirst uuid (uuid p)).setStack t (.erase p :: rest), ls⟩ := by
        refine next_advance rfl ((locked_free hsync).trans ?_)
        simp [hlookup, hfound]
      obtain ⟨hq, heq⟩ := TcpServer.getConnectionByUUID_some hfound
      have hshorter : (s.removeFirst uuid (uuid p)).connections.length < n := by
        rw [← hn]
        have hmem : q ∈ s.connections := List.mem_of_mem_eraseP hq
        have hlength := List.length_eraseP_of_mem hmem (p := fun c => uuid c = uuid p) (by simpa using heq)
        have hpos := List.length_pos_of_mem hmem
        change (s.connections.eraseP fun c => uuid c = uuid p).length < s.connections.length
        omega
      rw [← without_removeFirst s (uuid p)]
      exact .head hrecheck (ih _ hshorter (s.removeFirst uuid (uuid p)) hsync rfl)

/-- The handler has dropped the slots of `c`, removed `p` and raised `onDisconnected` for it. -/
def TcpServer.announced (uuid : Connection → U) (s : TcpServer T U) (c p : Connection) : TcpServer T U :=
  { s.without uuid (uuid p) with
    slots := Function.update s.slots c fun _ => false
    raised := s.raised ++ [.onDisconnected p] }

omit [DecidableEq T] in
theorem mem_announced {s : TcpServer T U} (h : AtRest uuid s) {c p : Connection}
    (hp : p ∈ s.connections) {d : Connection} :
    d ∈ (s.announced uuid c p).connections ↔ d ∈ s.connections ∧ d ≠ p := by
  have hfilter : d ∈ (s.announced uuid c p).connections ↔ d ∈ s.connections ∧ uuid d ≠ uuid p := by
    change d ∈ s.connections.filter (fun d => uuid d ≠ uuid p) ↔ _
    simp
  rw [hfilter]
  refine and_congr_right fun hd => not_congr ⟨h.distinct d hd p hp, ?_⟩
  intro heq
  rw [heq]

omit [DecidableEq T] in
theorem length_announced {s : TcpServer T U} {c p : Connection} (hp : p ∈ s.connections) :
    (s.announced uuid c p).connections.length < s.connections.length := by
  refine List.length_filter_lt_length_iff_exists.mpr ⟨p, hp, ?_⟩
  simp

omit [DecidableEq T] in
/-- The connection that was looked up is no longer registered, whether or not it is the one found. -/
theorem not_mem_announced {s : TcpServer T U} (h : AtRest uuid s) {c p : Connection}
    (hp : p ∈ s.connections) (huuid : uuid p = uuid c) : c ∉ (s.announced uuid c p).connections := by
  intro hmem
  obtain ⟨hregistered, hne⟩ := (mem_announced h hp).mp hmem
  exact hne (h.distinct c hregistered p hp huuid.symm)

omit [DecidableEq T] in
theorem departs_announced {s : TcpServer T U} (h : AtRest uuid s) {c p : Connection}
    (hp : p ∈ s.connections) (huuid : uuid p = uuid c) : Departs s (s.announced uuid c p) where
  stack := rfl
  server_sync := rfl
  subset := fun d hd => ((mem_announced h hp).mp hd).1
  length := Nat.le_of_lt (length_announced hp)
  connected := by
    intro d hd
    have hne : d ≠ c := by
      rintro rfl
      exact not_mem_announced h hp huuid hd
    exact congrFun (Function.update_of_ne hne _ s.slots) _
  dues := by
    intro d
    have hraised : (s.announced uuid c p).raised = s.raised ++ [.onDisconnected p] := rfl
    unfold dues
    rw [hraised, List.count_append]
    by_cases heq : d = p
    · subst heq
      have hgone : d ∉ (s.announced uuid c d).connections := fun hd => ((mem_announced h hp).mp hd).2 rfl
      rw [if_neg hgone, if_pos hp, List.count_singleton_self]
    · have hsame : d ∈ (s.announced uuid c p).connections ↔ d ∈ s.connections := by
        simp [mem_announced h hp, heq]
      have hother : [Event.onDisconnected p].count (.onDisconnected d) = 0 := by
        simp [Ne.symm heq]
      rw [hother]
      simp only [hsame, Nat.add_zero]

/-- The handler has found `p`: it removes and announces it, and the listeners run. -/
theorem found_returns {n : ℕ} (hcalls : CallsReturn uuid loop t behaviour n) {s : TcpServer T U}
    (hlength : s.connections.length ≤ n) (hrest : AtRest uuid s) (ls : List (Listener U))
    {c p : Connection} (hfound : s.getConnectionByUUID uuid (uuid c) = some p) {frame : Frame U}
    (rest : List (Frame U)) (hcatches : frame.catches = true) :
    Returns uuid loop t behaviour s ls (.dropSlots c p :: frame :: rest) (frame :: rest) fun s' =>
      c ∉ s'.connections := by
  obtain ⟨hp, huuid⟩ := TcpServer.getConnectionByUUID_some hfound
  have hdeparts := departs_announced hrest hp huuid
  have hshorter : (s.announced uuid c p).connections.length < n :=
    Nat.lt_of_lt_of_le (length_announced hp) hlength
  obtain ⟨s', hreaches, hdeparts'⟩ := listener_returns hcalls (behaviour s.raised.length) hshorter
    (hrest.departs hdeparts) ls (.onDisconnected p) rest hcatches
  refine ⟨s', ?_, hdeparts.trans hdeparts', ?_⟩
  · let s₁ : TcpServer T U := { s with slots := Function.update s.slots c fun _ => false }
    have hdrop : Scripted.next uuid loop t behaviour
        ⟨s.setStack t (.dropSlots c p :: frame :: rest), ls⟩ =
        some ⟨s₁.setStack t (.erase p :: frame :: rest), ls⟩ := by
      refine next_advance rfl ?_
      simp [TcpServer.advance, TcpServer.setStack, Function.update_idem, s₁]
    refine .head hdrop ((erase_reaches s₁ hrest.unlocked ls p (frame :: rest)).trans (.head ?_ hreaches))
    exact next_emit (s₁.without uuid (uuid p)) ls (.onDisconnected p) (frame :: rest)
  · exact fun hmem => not_mem_announced hrest hp huuid (hdeparts'.subset hmem)

/-! ### The operations -/

theorem post_returns (s : TcpServer T U) (ls : List (Listener U)) (c : Connection)
    (rest : List (Frame U)) {Q : TcpServer T U → Prop}
    (hQ : Q { s with posted := s.posted ++ [c] }) :
    Returns uuid loop t behaviour s ls (.post c :: rest) rest Q := by
  have hpost : Scripted.next uuid loop t behaviour ⟨s.setStack t (.post c :: rest), ls⟩ =
      some ⟨{ s with posted := s.posted ++ [c] }.setStack t rest, ls⟩ := by
    refine next_advance rfl ?_
    simp [TcpServer.advance, TcpServer.setStack, Function.update_idem]
  have hdeparts : Departs s { s with posted := s.posted ++ [c] } :=
    ⟨rfl, rfl, List.Subset.refl _, Nat.le_refl _, fun _ _ => rfl, fun _ => rfl⟩
  exact ⟨_, .single hpost, hdeparts, hQ⟩

/-- `tcp_connection::stop`. -/
theorem stop_returns {n : ℕ} (hcalls : CallsReturn uuid loop t behaviour n) {s : TcpServer T U}
    (hlength : s.connections.length ≤ n) (hrest : AtRest uuid s) (ls : List (Listener U))
    (c : Connection) (rest : List (Frame U)) :
    Returns uuid loop t behaviour s ls (.stop c :: rest) rest fun s' => c ∉ s'.connections := by
  have hstop : ∀ handlers, s.emission c .onDisconnected (handleTcpConnectionDisconnected c) = handlers →
      Scripted.next uuid loop t behaviour ⟨s.setStack t (.stop c :: rest), ls⟩ =
        some ⟨s.setStack t (handlers ++ .post c :: rest), ls⟩ := by
    rintro handlers rfl
    refine next_advance rfl ?_
    rw [TcpServer.advance, setStack_setStack]
    rfl
  by_cases hslot : s.slots c .onDisconnected = true
  · refine .step (hstop [.disconnected c] (if_pos hslot)) ?_
    have hlookup : ∀ frames, (s.setStack t frames).getConnectionByUUID uuid (uuid c) =
        s.getConnectionByUUID uuid (uuid c) := fun _ => rfl
    cases hfound : s.getConnectionByUUID uuid (uuid c) with
    | none =>
      have hlooked : Scripted.next uuid loop t behaviour
          ⟨s.setStack t (.disconnected c :: .post c :: rest), ls⟩ =
          some ⟨s.setStack t (.post c :: rest), ls⟩ := by
        refine next_advance rfl ((locked_free hrest.unlocked).trans ?_)
        simp [hlookup, hfound]
      exact .step hlooked (post_returns s ls c rest (TcpServer.not_registered_of_lookup hfound))
    | some p =>
      have hlooked : Scripted.next uuid loop t behaviour
          ⟨s.setStack t (.disconnected c :: .post c :: rest), ls⟩ =
          some ⟨s.setStack t (.dropSlots c p :: .post c :: rest), ls⟩ := by
        refine next_advance rfl ((locked_free hrest.unlocked).trans ?_)
        simp [hlookup, hfound]
      refine .step hlooked ?_
      exact (found_returns hcalls hlength hrest ls hfound rest rfl).trans fun s' _ hgone =>
        post_returns s' ls c rest hgone
  · refine .step (hstop [] (if_neg hslot)) (post_returns s ls c rest ?_)
    exact fun hregistered => hslot (hrest.connected c hregistered)

theorem disconnectByUUID_returns {n : ℕ} (hcalls : CallsReturn uuid loop t behaviour n)
    {s : TcpServer T U} (hlength : s.connections.length ≤ n) (hrest : AtRest uuid s)
    (ls : List (Listener U)) (u : U) (rest : List (Frame U)) :
    Returns uuid loop t behaviour s ls (.disconnectByUUID u :: rest) rest fun s' =>
      ∀ c ∈ s'.connections, uuid c ≠ u := by
  have hlookup : ∀ frames, (s.setStack t frames).getConnectionByUUID uuid u =
      s.getConnectionByUUID uuid u := fun _ => rfl
  cases hfound : s.getConnectionByUUID uuid u with
  | none =>
    have hlooked : Scripted.next uuid loop t behaviour
        ⟨s.setStack t (.disconnectByUUID u :: rest), ls⟩ = some ⟨s.setStack t rest, ls⟩ := by
      refine next_advance rfl ((locked_free hrest.unlocked).trans ?_)
      simp [hlookup, hfound]
    refine .step hlooked (.here ?_)
    rintro c hc rfl
    exact TcpServer.not_registered_of_lookup hfound hc
  | some p =>
    have hlooked : Scripted.next uuid loop t behaviour
        ⟨s.setStack t (.disconnectByUUID u :: rest), ls⟩ =
        some ⟨s.setStack t (.stop p :: rest), ls⟩ := by
      refine next_advance rfl ((locked_free hrest.unlocked).trans ?_)
      simp [hlookup, hfound]
    obtain ⟨hp, rfl⟩ := TcpServer.getConnectionByUUID_some hfound
    obtain ⟨s', hreaches, hdeparts, hgone⟩ := stop_returns hcalls hlength hrest ls p rest
    refine .step hlooked ⟨s', hreaches, hdeparts, ?_⟩
    intro c hc heq
    obtain rfl := hrest.distinct c (hdeparts.subset hc) p hp heq
    exact hgone hc

/-- The loop of `disconnectAll`; the induction is on the part of the copy that is left. -/
theorem disconnectEach_returns {n : ℕ} (hcalls : CallsReturn uuid loop t behaviour n)
    (cs : List Connection) {s : TcpServer T U} (hlength : s.connections.length ≤ n)
    (hrest : AtRest uuid s) (ls : List (Listener U)) (rest : List (Frame U)) :
    Returns uuid loop t behaviour s ls (.disconnectEach cs :: rest) rest fun s' =>
      ∀ c ∈ cs, c ∉ s'.connections := by
  induction cs generalizing s with
  | nil =>
    have hdone : Scripted.next uuid loop t behaviour ⟨s.setStack t (.disconnectEach [] :: rest), ls⟩ =
        some ⟨s.setStack t rest, ls⟩ := by
      refine next_advance rfl ?_
      simp [TcpServer.advance]
    exact .step hdone (.here (by simp))
  | cons c cs ih =>
    have heach : Scripted.next uuid loop t behaviour
        ⟨s.setStack t (.disconnectEach (c :: cs) :: rest), ls⟩ =
        some ⟨s.setStack t (.disconnectByUUID (uuid c) :: .disconnectEach cs :: rest), ls⟩ := by
      refine next_advance rfl ?_
      simp [TcpServer.advance]
    refine .step heach ?_
    have hfirst := disconnectByUUID_returns hcalls hlength hrest ls (uuid c) (.disconnectEach cs :: rest)
    refine hfirst.trans fun s₁ hdeparts hgone => ?_
    obtain ⟨s₂, hreaches, hdeparts', hrestgone⟩ :=
      ih (Nat.le_trans hdeparts.length hlength) (hrest.departs hdeparts)
    refine ⟨s₂, hreaches, hdeparts', ?_⟩
    intro d hd hmem
    rcases List.mem_cons.mp hd with rfl | hd
    · exact hgone d (hdeparts'.subset hmem) rfl
    · exact hrestgone d hd hmem

theorem disconnectAll_returns {n : ℕ} (hcalls : CallsReturn uuid loop t behaviour n)
    {s : TcpServer T U} (hlength : s.connections.length ≤ n) (hrest : AtRest uuid s)
    (ls : List (Listener U)) (rest : List (Frame U)) :
    Returns uuid loop t behaviour s ls (.disconnectAll :: rest) rest fun s' =>
      ∀ c ∈ s.connections, c ∉ s'.connections := by
  have hcopied : Scripted.next uuid loop t behaviour ⟨s.setStack t (.disconnectAll :: rest), ls⟩ =
      some ⟨s.setStack t (.disconnectEach s.connections :: rest), ls⟩ := by
    refine next_advance rfl ((locked_free hrest.unlocked).trans ?_)
    rw [setStack_setStack]
    rfl
  exact .step hcopied (disconnectEach_returns hcalls s.connections hlength hrest ls rest)

/-- Every operation returns, by induction on the number of registered connections: each notification
comes from one that has left. -/
theorem calls_return (n : ℕ) : CallsReturn uuid loop t behaviour n := by
  induction n with
  | zero =>
    intro s ls op rest hlength
    omega
  | succ n ih =>
    intro s ls op rest hlength hrest
    have hle : s.connections.length ≤ n := Nat.lt_succ_iff.mp hlength
    have hweak : ∀ {Q : TcpServer T U → Prop},
        Returns uuid loop t behaviour s ls (TcpServer.entry uuid op :: rest) rest Q →
        Returns uuid loop t behaviour s ls (TcpServer.entry uuid op :: rest) rest fun _ => True := by
      rintro Q ⟨s', hreaches, hdeparts, -⟩
      exact ⟨s', hreaches, hdeparts, trivial⟩
    cases op with
    | disconnectByUUID u => exact hweak (disconnectByUUID_returns ih hle hrest ls u rest)
    | disconnect c => exact hweak (disconnectByUUID_returns ih hle hrest ls (uuid c) rest)
    | disconnectAll => exact hweak (disconnectAll_returns ih hle hrest ls rest)
    | connectionDisconnect c => exact hweak (stop_returns ih hle hrest ls c rest)

end Calls

/-! ## Whole calls -/

section Whole
variable {T U : Type}

/-- The thread is in its own code or in a listener. -/
def Idle (frames : List (Frame U)) : Prop := frames = [] ∨ ∃ event rest, frames = .listening event :: rest

theorem removing_ofIdle {frames : List (Frame U)} (h : Idle frames) : removing frames = none := by
  rcases h with rfl | ⟨event, rest, rfl⟩ <;> rfl

variable [DecidableEq T] [DecidableEq U]

theorem called {uuid : Connection → U} {loop t : T} {s s' : TcpServer T U} {op : Operation U}
    (h : TcpServer.step uuid loop s (.call t op) = some s') :
    s' = s.setStack t (TcpServer.entry uuid op :: s.stack t) ∧ Idle (s.stack t) := by
  cases TcpServer.steps_of_step uuid h with
  | call op hidle hloop =>
    rw [hidle]
    exact ⟨rfl, Or.inl rfl⟩
  | @callback t event rest op hold =>
    rw [hold]
    exact ⟨rfl, Or.inr ⟨event, rest, rfl⟩⟩

/-- The script has ended when the thread is back where it was. -/
theorem next_idle {uuid : Connection → U} {loop t : T} {behaviour : ℕ → Listener U} {s : TcpServer T U}
    {frames : List (Frame U)} (h : Idle frames) :
    Scripted.next uuid loop t behaviour ⟨s.setStack t frames, []⟩ = none := by
  rcases h with rfl | ⟨event, rest, rfl⟩
  · simp [Scripted.next, TcpServer.step]
  · simp [Scripted.next]

/-- **`disconnectAll` empties the registry.** The server is in any state that a run has led to in which
`disconnect()` was called on accepted connections only; no other thread is in a call, and the caller is
in none or in a listener of a signal raised with no mutex held. Whatever the listeners do, the call
returns. -/
theorem disconnectAll_empties (uuid : Connection → U) (loop t : T) (as : List (Action T U))
    (s s₁ : TcpServer T U) (hrun : run (TcpServer.step uuid loop) .started as = some s)
    (hhanded : Meets (TcpServer.step uuid loop) Handed .started as)
    (hdistinct : Distinct uuid s.created) (hothers : ∀ u, u ≠ t → s.stack u = [])
    (hunlocked : .finishAccept ∉ s.stack t)
    (hcall : TcpServer.step uuid loop s (.call t .disconnectAll) = some s₁)
    (behaviour : ℕ → Listener U) :
    ∃ d ∈ eval (Scripted.next uuid loop t behaviour) ⟨s₁, []⟩,
      d.server.stack t = s.stack t ∧ d.listeners = [] ∧
        ∀ c ∈ s.connections, c ∉ d.server.connections ∧
          d.server.raised.count (.onDisconnected c) = 1 := by
  obtain ⟨L, h⟩ := wiring_run hrun hhanded hdistinct
  obtain ⟨rfl, hidle⟩ := called hcall
  have hrest := h.atRest hdistinct hothers (removing_ofIdle hidle) hunlocked
  obtain ⟨s', hreaches, hdeparts, hgone⟩ :=
    disconnectAll_returns (calls_return s.connections.length) (Nat.le_refl _) hrest [] (s.stack t)
  refine ⟨_, mem_eval.mpr ⟨hreaches, next_idle hidle⟩, TcpServer.setStack_self .., rfl, ?_⟩
  intro c hc
  have hannounced : s.raised.count (.onDisconnected c) = 0 :=
    List.count_eq_zero.mpr fun hmem => (h.parted.gone c hmem).2 hc
  have hdues := hdeparts.dues c
  rw [dues, dues, if_pos hc, if_neg (hgone c hc), hannounced] at hdues
  exact ⟨hgone c hc, hdues⟩

end Whole

/-- Two connections are accepted. -/
def acceptTwo : List (Action Bool ℕ) := acceptOne ++ acceptOne

/-- Every listener disconnects all others and throws. -/
theorem disconnectAll_empties_acceptTwo : ∃ s s₁,
    run (TcpServer.step id true) .started acceptTwo = some s ∧ s.connections = [0, 1] ∧
      TcpServer.step id true s (.call false .disconnectAll) = some s₁ ∧
      ∃ d ∈ eval (Scripted.next id true false fun _ => ⟨[.disconnectAll, .disconnect 1], true⟩) ⟨s₁, []⟩,
        d.server.stack false = s.stack false ∧ d.listeners = [] ∧
          ∀ c ∈ s.connections, c ∉ d.server.connections ∧
            d.server.raised.count (.onDisconnected c) = 1 := by
  have hrun : ((run (TcpServer.step id true) TcpServer.started acceptTwo).map fun s =>
      (s.connections, s.stack false, s.stack true)) = some ([0, 1], [], []) := by decide +kernel
  obtain ⟨s, hs, hfields⟩ := Option.map_eq_some_iff.mp hrun
  simp only [Prod.mk.injEq] at hfields
  obtain ⟨hconnections, hidle, hloop⟩ := hfields
  have hcall : TcpServer.step id true s (.call false .disconnectAll) =
      some (s.setStack false [.disconnectAll]) := by
    simp [TcpServer.step, hidle, TcpServer.entry]
  have hothers : ∀ u, u ≠ false → s.stack u = [] := by
    intro u hu
    rw [Bool.eq_true_of_not_eq_false hu]
    exact hloop
  have hdistinct : Distinct (id : Connection → ℕ) s.created := fun c d _ _ h => h
  exact ⟨s, _, hs, hconnections, hcall, disconnectAll_empties id true false acceptTwo s _ hs
    (by decide +kernel) hdistinct hothers (by rw [hidle]; simp) hcall _⟩

end Diginext.Server
