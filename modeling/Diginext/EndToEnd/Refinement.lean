import Diginext.Foundations.Service
import Diginext.EndToEnd.Network

/-! # The network implements a service

Connections, frames, queues and the event loop are invisible to the clients: what they submit and receive
in a run of the network is what they submit and receive in a run of a `Service` that handles one
request at a time (`network_refines_service`). A message is submitted when `send` has queued it, and
received when it reaches the `StorageClient`. Empty messages are never delivered, and a request that
arrives after its connection has left `tcp_server` is lost. The sockets are those that send nothing more
once something is missing on the wire (`SocketsStop`): any other can join the parts of two frames to a
message that nobody has submitted.
-/
namespace Diginext.EndToEnd
open Cpp Outcomes Storage Tcp Transition
set_option autoImplicit false

abbrev Contents := Bytes → Option Bytes

/-- What a text given to `connection->send` brings to the other end. The encoder refuses texts that are
too long, and an empty one is an empty line. -/
def delivers (text : Bytes) : List Bytes :=
  if h : text.length ≤ maxSize then nonEmpty (queues (.push () ⟨text, h⟩)) else []

/-- The contents of the storage after a request, and the replies that its sender gets. -/
def handle (lib : JsonLib) (data : Contents) (msg : Bytes) : Contents × List Bytes :=
  ((respond data (lib.parse msg)).1,
    ((respond data (lib.parse msg)).2.map (text lib)).flatMap delivers)

/-- What the clients notice of a step. -/
def visible {I T : Type} (t : Network I T) : Action I T → List (Service.Event I Bytes Bytes)
  | .client i a => (nonEmpty (queues a)).map (.submitted i)
  | .clientMessage i => ((t.down i).messages.take 1).map (.received i)
  | _ => []

/-- The replies to the last message raised that are still to be sent. -/
def Loop.pending {I : Type} [DecidableEq I] (loop : Loop I) (i : I) : List Bytes :=
  match loop with
  | .idle => []
  | .reading j outbox => if j = i then outbox.flatMap delivers else []

@[simp] theorem Loop.pending_nil {I : Type} [DecidableEq I] (i j : I) :
    (Loop.reading j []).pending i = [] := by
  simp [Loop.pending]

/-! ## The links -/

section Links
variable {T : Type} [DecidableEq T]

theorem raised_send {l l' : Link T} {a : SendAction T} (h : Link.step l (.send a) = some l') :
    l'.raised = l.raised ∧ l'.queued = l.queued ++ queues a := by
  cases Link.steps_of_step h with
  | send hsend => exact ⟨rfl, rfl⟩

theorem raised_read {l l' : Link T} {chunk : Bytes} (h : Link.step l (.read chunk) = some l') :
    l'.raised = l.raised ∧ l'.queued = l.queued := by
  cases Link.steps_of_step h with
  | read hdone hline hreceived hr => exact ⟨rfl, rfl⟩

theorem raised_raise {l l' : Link T} {msg : Bytes} {messages : List Bytes}
    (hmessages : l.messages = msg :: messages) (h : Link.step l .raise = some l') :
    l'.raised = l.raised ++ [msg] ∧ l'.queued = l.queued := by
  cases Link.steps_of_step h with
  | raise hmessages' =>
    rw [hmessages] at hmessages'
    cases hmessages'
    exact ⟨rfl, rfl⟩

omit [DecidableEq T] in
theorem queues_cases (a : SendAction T) :
    nonEmpty (queues a) = [] ∨ ∃ msg, nonEmpty (queues a) = [msg] := by
  have hlength : (queues a).length ≤ 1 := by
    cases a with
    | push t msg =>
      simp only [queues]
      split <;> simp
    | pump t | complete k result | resume k => simp [queues]
  have hbound : (nonEmpty (queues a)).length ≤ 1 := by
    refine Nat.le_trans (List.length_filter_le _ _) ?_
    rwa [List.length_map]
  cases hqueues : nonEmpty (queues a) with
  | nil => exact Or.inl rfl
  | cons msg msgs =>
    rw [hqueues, List.length_cons] at hbound
    have hnil : msgs = [] := List.eq_nil_of_length_eq_zero (by omega)
    exact Or.inr ⟨msg, by rw [hnil]⟩

end Links

/-! ## The simulation -/

variable {I T : Type} [DecidableEq I] {lib : JsonLib}

/-- The server is where the requests served have brought it, and the links hold what waits. -/
structure Simulates (lib : JsonLib) (t : Network I T) (u : Service.State I Bytes Bytes Contents) :
    Prop where
  up : ∀ i, (t.up i).Sound
  down : ∀ i, (t.down i).Sound
  sequential : run (serve lib) .empty u.served = some t.server
  servable : Servable t.server.dataStorage
  reading : ∀ i outbox, t.loop = .reading i outbox → t.accepted i = true
  listed : ∀ i ∈ t.connections, t.accepted i = true
  data : u.data = t.server.dataStorage
  closed : ∀ i, u.closed i = (t.accepted i && decide (i ∉ t.connections))
  submitted : ∀ i, u.submitted i = nonEmpty (t.up i).queued
  waiting : ∀ i, (t.up i).raised ++ u.waiting i = nonEmpty (t.up i).queued
  received : ∀ i, u.received i = (t.down i).raised
  answered : ∀ i, (t.down i).raised ++ u.answered i = nonEmpty (t.down i).queued ++ t.loop.pending i

theorem started_simulates (sendStart : Bool) :
    Simulates lib (Network.started sendStart : Network I T) (Service.started (fun _ => none)) where
  up := fun _ => Link.started_sound sendStart
  down := fun _ => Link.started_sound sendStart
  sequential := rfl
  servable := empty_servable
  reading := by
    intro i outbox h
    cases h
  listed := by
    intro i h
    cases h
  data := rfl
  closed := fun _ => rfl
  submitted := fun _ => rfl
  waiting := fun _ => rfl
  received := fun _ => rfl
  answered := fun _ => rfl

variable {t t' : Network I T} {u : Service.State I Bytes Bytes Contents}

/-- A step that the clients do not notice. -/
theorem Simulates.stutter (h : Simulates lib t u) (hserver : t'.server = t.server)
    (hconnections : t'.connections = t.connections) (haccepted : t'.accepted = t.accepted)
    (hreading : ∀ i outbox, t'.loop = .reading i outbox → t.accepted i = true)
    (hup : ∀ i, (t'.up i).Sound ∧ (t'.up i).raised = (t.up i).raised ∧
      nonEmpty (t'.up i).queued = nonEmpty (t.up i).queued)
    (hdown : ∀ i, (t'.down i).Sound ∧ (t'.down i).raised = (t.down i).raised ∧
      nonEmpty (t'.down i).queued ++ t'.loop.pending i =
        nonEmpty (t.down i).queued ++ t.loop.pending i) : Simulates lib t' u where
  up := fun i => (hup i).1
  down := fun i => (hdown i).1
  sequential := by
    rw [hserver]
    exact h.sequential
  servable := by
    rw [hserver]
    exact h.servable
  reading := by
    rw [haccepted]
    exact hreading
  listed := by
    rw [haccepted, hconnections]
    exact h.listed
  data := by
    rw [hserver]
    exact h.data
  closed := by
    rw [haccepted, hconnections]
    exact h.closed
  submitted := by
    intro i
    rw [(hup i).2.2]
    exact h.submitted i
  waiting := by
    intro i
    rw [(hup i).2.1, (hup i).2.2]
    exact h.waiting i
  received := by
    intro i
    rw [(hdown i).2.1]
    exact h.received i
  answered := by
    intro i
    rw [(hdown i).2.1, (hdown i).2.2]
    exact h.answered i

variable [DecidableEq T]

/-- The way up has changed, and nothing that the clients notice. -/
theorem Simulates.stutter_up (h : Simulates lib t u) {i : I} {link : Link T} {a : LinkAction T}
    {loop : Loop I} (hs : Link.step (t.up i) a = some link) (hsocket : Link.SocketStops (t.up i) a)
    (hraised : link.raised = (t.up i).raised)
    (hqueued : nonEmpty link.queued = nonEmpty (t.up i).queued)
    (hreading : ∀ j outbox, loop = .reading j outbox → t.accepted j = true)
    (hpending : ∀ j, loop.pending j = t.loop.pending j) :
    Simulates lib { t with up := Function.update t.up i link, loop := loop } u := by
  refine h.stutter rfl rfl rfl hreading ?_ (fun j => ⟨h.down j, rfl, by rw [hpending]⟩)
  refine (Function.forall_update_iff t.up fun j l => l.Sound ∧ l.raised = (t.up j).raised ∧
    nonEmpty l.queued = nonEmpty (t.up j).queued).mpr ⟨⟨(h.up i).step hs hsocket, hraised, hqueued⟩, ?_⟩
  exact fun j _ => ⟨h.up j, rfl, rfl⟩

omit [DecidableEq T] in
theorem Simulates.stutter_down (h : Simulates lib t u) {i : I} {link : Link Unit} {a : LinkAction Unit}
    {loop : Loop I} (hs : Link.step (t.down i) a = some link) (hsocket : Link.SocketStops (t.down i) a)
    (hraised : link.raised = (t.down i).raised)
    (hreading : ∀ j outbox, loop = .reading j outbox → t.accepted j = true)
    (hqueued : nonEmpty link.queued ++ loop.pending i =
      nonEmpty (t.down i).queued ++ t.loop.pending i)
    (hpending : ∀ j, j ≠ i → loop.pending j = t.loop.pending j) :
    Simulates lib { t with down := Function.update t.down i link, loop := loop } u := by
  refine h.stutter rfl rfl rfl hreading (fun j => ⟨h.up j, rfl, rfl⟩) ?_
  refine (Function.forall_update_iff t.down fun j l => l.Sound ∧ l.raised = (t.down j).raised ∧
    nonEmpty l.queued ++ loop.pending j = nonEmpty (t.down j).queued ++ t.loop.pending j).mpr
    ⟨⟨(h.down i).step hs hsocket, hraised, hqueued⟩, ?_⟩
  exact fun j hj => ⟨h.down j, rfl, by rw [hpending j hj]⟩

/-! ## The steps that the clients or the service notice -/

theorem Simulates.submit (h : Simulates lib t u) {i : I} {a : SendAction T} {link : Link T} {msg : Bytes}
    (hs : Link.step (t.up i) (.send a) = some link) (hsocket : Link.SocketStops (t.up i) (.send a))
    (hmsg : nonEmpty (queues a) = [msg]) :
    ∃ u', Service.step (handle lib) u (.submit i msg) = some u' ∧
      Simulates lib { t with up := Function.update t.up i link } u' := by
  obtain ⟨hraised, hqueued⟩ := raised_send hs
  refine ⟨_, rfl, ?_⟩
  have hlink : nonEmpty link.queued = nonEmpty (t.up i).queued ++ [msg] := by
    rw [hqueued, nonEmpty_append, hmsg]
  constructor
  · refine (Function.forall_update_iff t.up fun _ l => l.Sound).mpr ⟨(h.up i).step hs hsocket, ?_⟩
    exact fun j _ => h.up j
  · exact h.down
  · exact h.sequential
  · exact h.servable
  · exact h.reading
  · exact h.listed
  · exact h.data
  · exact h.closed
  · intro j
    by_cases hj : j = i
    · subst hj
      simp [hlink, h.submitted j]
    · simp [Function.update_of_ne hj, h.submitted j]
  · intro j
    by_cases hj : j = i
    · subst hj
      simp [hlink, hraised, ← h.waiting j]
    · simp [Function.update_of_ne hj, h.waiting j]
  · exact h.received
  · exact h.answered

omit [DecidableEq T] in
theorem Simulates.accept (h : Simulates lib t u) {i : I} (hidle : t.loop = .idle)
    (hnew : t.accepted i = false) :
    Simulates lib { t with
      connections := t.connections ++ [i]
      accepted := Function.update t.accepted i true } u := by
  refine ⟨h.up, h.down, h.sequential, h.servable, ?_, ?_, h.data, ?_, h.submitted, h.waiting, h.received,
    h.answered⟩
  · intro j outbox hloop
    simp only [hidle] at hloop
    cases hloop
  · intro j hj
    show Function.update t.accepted i true j = true
    by_cases hji : j = i
    · rw [hji, Function.update_self]
    · rw [Function.update_of_ne hji]
      exact h.listed j (by simpa [hji] using hj)
  · intro j
    have hclosed := h.closed j
    by_cases hj : j = i
    · subst hj
      simp [hclosed, hnew]
    · simp [hclosed, hj]

omit [DecidableEq T] in
theorem Simulates.leave (h : Simulates lib t u) {i : I} (hmem : i ∈ t.connections) :
    ∃ u', Service.step (handle lib) u (.close i) = some u' ∧
      Simulates lib { t with connections := t.connections.filter (· ≠ i) } u' := by
  refine ⟨_, rfl, h.up, h.down, h.sequential, h.servable, h.reading, ?_, h.data, ?_, h.submitted, h.waiting,
    h.received, h.answered⟩
  · exact fun j hj => h.listed j (List.mem_of_mem_filter hj)
  · intro j
    have hclosed := h.closed j
    by_cases hj : j = i
    · subst hj
      simp [h.listed j hmem]
    · simp [hclosed, hj]

omit [DecidableEq T] in
/-- The message raised is the first one that waits. -/
theorem Simulates.raises (h : Simulates lib t u) {i : I} {msg : Bytes} {messages : List Bytes}
    (hmessages : (t.up i).messages = msg :: messages) : ∃ msgs, u.waiting i = msg :: msgs := by
  have hdelivered := (h.up i).delivered
  rw [← h.waiting i, List.prefix_append_right_inj, hmessages] at hdelivered
  obtain ⟨rest, hrest⟩ := hdelivered
  exact ⟨messages ++ rest, by rw [← hrest]; rfl⟩

omit [DecidableEq T] in
theorem Simulates.replied (h : Simulates lib t u) {i : I} {msg : Bytes} {messages : List Bytes}
    (hmessages : (t.down i).messages = msg :: messages) : ∃ msgs, u.answered i = msg :: msgs := by
  have hdelivered := (h.down i).delivered.trans (List.prefix_append _ (t.loop.pending i))
  rw [← h.answered i, List.prefix_append_right_inj, hmessages] at hdelivered
  obtain ⟨rest, hrest⟩ := hdelivered
  exact ⟨messages ++ rest, by rw [← hrest]; rfl⟩

omit [DecidableEq T] in
/-- What waits on the other connections is as it was. -/
theorem Simulates.waiting_raised (h : Simulates lib t u) {i : I} {link : Link T} {msg : Bytes}
    {msgs : List Bytes} (hwaiting : u.waiting i = msg :: msgs)
    (hraised : link.raised = (t.up i).raised ++ [msg] ∧ link.queued = (t.up i).queued) (j : I) :
    (Function.update t.up i link j).raised ++ Function.update u.waiting i msgs j =
      nonEmpty (Function.update t.up i link j).queued := by
  have hj := h.waiting j
  by_cases heq : j = i
  · subst heq
    rw [Function.update_self, Function.update_self, hraised.1, hraised.2, ← hj, hwaiting]
    simp
  · rw [Function.update_of_ne heq, Function.update_of_ne heq]
    exact hj

omit [DecidableEq I] in
/-- The texts that a call of the handler gives to `connection->send`. -/
theorem responded_texts (lib : JsonLib) (s : StorageServer I) (i : I) (msg : Bytes) :
    ((s.responded lib (i, msg)).sent.drop s.sent.length).map Prod.snd =
      (respond s.dataStorage (lib.parse msg)).2.map (text lib) := by
  simp [StorageServer.responded, StorageServer.reply, Function.comp_def]

theorem Simulates.serve (laws : JsonLaws lib) (h : Simulates lib t u) {i : I} {msg : Bytes}
    {messages : List Bytes} {link : Link T} {server : StorageServer I}
    (hloop : t.loop = .reading i []) (hmessages : (t.up i).messages = msg :: messages)
    (hs : Link.step (t.up i) .raise = some link) (hmem : i ∈ t.connections)
    (hserve : Storage.serve lib t.server (i, msg) = some server) :
    ∃ u', Service.step (handle lib) u (.serve i) = some u' ∧ Simulates lib { t with
      server := server
      up := Function.update t.up i link
      loop := .reading i ((server.sent.drop t.server.sent.length).map Prod.snd) } u' := by
  have hserver : t.server.responded lib (i, msg) = server := by
    rw [← Option.some.injEq, ← serve_eq laws _ h.servable]
    exact hserve
  subst hserver
  obtain ⟨msgs, hwaiting⟩ := h.raises hmessages
  have hopen : u.closed i = false := by simp [h.closed i, hmem]
  have hreplies : (handle lib u.data msg).2 =
      ((respond t.server.dataStorage (lib.parse msg)).2.map (text lib)).flatMap delivers := by
    rw [h.data]
    rfl
  refine ⟨_, Service.step_iff.mpr (.serve hopen hwaiting), ?_⟩
  constructor
  · refine (Function.forall_update_iff t.up fun _ l => l.Sound).mpr ⟨(h.up i).step hs trivial, ?_⟩
    exact fun j _ => h.up j
  · exact h.down
  · rw [run_append h.sequential]
    exact run_cons hserve []
  · exact servable_respond laws h.servable msg
  · intro j outbox hj
    cases hj
    exact h.reading i [] hloop
  · exact h.listed
  · rw [h.data]
    rfl
  · exact h.closed
  · refine (Function.forall_update_iff t.up fun j l => u.submitted j = nonEmpty l.queued).mpr ⟨?_, ?_⟩
    · rw [(raised_raise hmessages hs).2]
      exact h.submitted i
    · exact fun j _ => h.submitted j
  · exact h.waiting_raised hwaiting (raised_raise hmessages hs)
  · exact h.received
  · intro j
    have hj := h.answered j
    rw [hloop, Loop.pending_nil, List.append_nil] at hj
    show (t.down j).raised ++ Function.update u.answered i (u.answered i ++ (handle lib u.data msg).2) j =
      nonEmpty (t.down j).queued ++ Loop.pending (.reading i _) j
    rw [responded_texts, Loop.pending]
    by_cases heq : j = i
    · subst heq
      rw [Function.update_self, if_pos rfl, hreplies, ← hj, List.append_assoc]
    · rw [Function.update_of_ne heq, if_neg (Ne.symm heq), List.append_nil]
      exact hj

theorem Simulates.lose (h : Simulates lib t u) {i : I} {msg : Bytes} {messages : List Bytes} {link : Link T}
    (hloop : t.loop = .reading i []) (hmessages : (t.up i).messages = msg :: messages)
    (hs : Link.step (t.up i) .raise = some link) (hmem : i ∉ t.connections) :
    ∃ u', Service.step (handle lib) u (.lose i) = some u' ∧
      Simulates lib { t with up := Function.update t.up i link } u' := by
  obtain ⟨msgs, hwaiting⟩ := h.raises hmessages
  have hclosed : u.closed i = true := by simp [h.closed i, hmem, h.reading i [] hloop]
  refine ⟨_, Service.step_iff.mpr (.lose hclosed hwaiting), ?_⟩
  refine ⟨?_, h.down, h.sequential, h.servable, h.reading, h.listed, h.data, h.closed, ?_,
    h.waiting_raised hwaiting (raised_raise hmessages hs), h.received, h.answered⟩
  · refine (Function.forall_update_iff t.up fun _ l => l.Sound).mpr ⟨(h.up i).step hs trivial, ?_⟩
    exact fun j _ => h.up j
  · refine (Function.forall_update_iff t.up fun j l => u.submitted j = nonEmpty l.queued).mpr ⟨?_, ?_⟩
    · rw [(raised_raise hmessages hs).2]
      exact h.submitted i
    · exact fun j _ => h.submitted j

omit [DecidableEq T] in
theorem Simulates.receive (h : Simulates lib t u) {i : I} {msg : Bytes} {messages : List Bytes}
    {link : Link Unit} {answer : I → Bytes} (hmessages : (t.down i).messages = msg :: messages)
    (hs : Link.step (t.down i) .raise = some link) :
    ∃ u', Service.step (handle lib) u (.receive i msg) = some u' ∧
      Simulates lib { t with down := Function.update t.down i link, answer := answer } u' := by
  obtain ⟨msgs, hanswered⟩ := h.replied hmessages
  obtain ⟨hraised, hqueued⟩ := raised_raise hmessages hs
  refine ⟨_, Service.step_iff.mpr (.receive hanswered), ?_⟩
  refine ⟨h.up, ?_, h.sequential, h.servable, h.reading, h.listed, h.data, h.closed, h.submitted, h.waiting, ?_, ?_⟩
  · refine (Function.forall_update_iff t.down fun _ l => l.Sound).mpr ⟨(h.down i).step hs trivial, ?_⟩
    exact fun j _ => h.down j
  · intro j
    have hj := h.received j
    by_cases heq : j = i
    · subst heq
      simp [hj, hraised]
    · simp [Function.update_of_ne heq, hj]
  · intro j
    have hj := h.answered j
    show (Function.update t.down i link j).raised ++ Function.update u.answered i msgs j =
      nonEmpty (Function.update t.down i link j).queued ++ t.loop.pending j
    by_cases heq : j = i
    · subst heq
      rw [Function.update_self, Function.update_self, hraised, hqueued, ← hj, hanswered]
      simp
    · rw [Function.update_of_ne heq, Function.update_of_ne heq]
      exact hj

omit [DecidableEq T] in
/-- The next text of the handler goes from `outbox` into the queue of the connection. -/
theorem Simulates.send (h : Simulates lib t u) {i : I} {text : Bytes} {outbox : List Bytes}
    {link : Link Unit} (hloop : t.loop = .reading i (text :: outbox)) (hsize : text.length ≤ maxSize)
    (hs : Link.step (t.down i) (.send (.push () ⟨text, hsize⟩)) = some link) :
    Simulates lib { t with down := Function.update t.down i link, loop := .reading i outbox } u := by
  obtain ⟨hraised, hqueued⟩ := raised_send hs
  have hdelivers : delivers text =
      nonEmpty (queues (.push () ⟨text, hsize⟩ : SendAction Unit)) := dif_pos hsize
  refine h.stutter_down hs rfl hraised ?_ ?_ ?_
  · intro j outbox' hj
    cases hj
    exact h.reading i _ hloop
  · rw [hloop, Loop.pending, Loop.pending, if_pos rfl, if_pos rfl, hqueued, nonEmpty_append,
      List.flatMap_cons, hdelivers, List.append_assoc]
  · intro j hj
    rw [hloop, Loop.pending, Loop.pending, if_neg (Ne.symm hj), if_neg (Ne.symm hj)]

omit [DecidableEq T] in
theorem Simulates.tooLong (h : Simulates lib t u) {i : I} {text : Bytes} {outbox : List Bytes}
    (hloop : t.loop = .reading i (text :: outbox)) (hsize : ¬ text.length ≤ maxSize) :
    Simulates lib { t with loop := .reading i outbox } u := by
  have hdelivers : delivers text = [] := dif_neg hsize
  refine h.stutter rfl rfl rfl ?_ (fun j => ⟨h.up j, rfl, rfl⟩) fun j => ⟨h.down j, rfl, ?_⟩
  · intro j outbox' hj
    cases hj
    exact h.reading i _ hloop
  · rw [hloop, Loop.pending, Loop.pending, List.flatMap_cons, hdelivers, List.nil_append]

/-! ## Steps and runs -/

/-- One label, or none, follows a step of the network. -/
theorem Simulates.step (laws : JsonLaws lib) (h : Simulates lib t u) {a : Action I T}
    (hsocket : Network.SocketsStop t a) (hs : Network.step lib t a = some t') :
    ∃ ls u', run (Service.step (handle lib)) u ls = some u' ∧
      ls.filterMap Service.Label.event = visible t a ∧ Simulates lib t' u' := by
  have hone : ∀ {l : Service.Label I Bytes Bytes}, l.event.toList = visible t a →
      (∃ u', Service.step (handle lib) u l = some u' ∧ Simulates lib t' u') →
      ∃ ls u', run (Service.step (handle lib)) u ls = some u' ∧
        ls.filterMap Service.Label.event = visible t a ∧ Simulates lib t' u' := by
    rintro l hevent ⟨u', hstep, h'⟩
    refine ⟨[l], u', run_cons hstep [], ?_, h'⟩
    rw [← hevent]
    cases l <;> rfl
  have hnone : visible t a = [] → Simulates lib t' u →
      ∃ ls u', run (Service.step (handle lib)) u ls = some u' ∧
        ls.filterMap Service.Label.event = visible t a ∧ Simulates lib t' u' :=
    fun hvisible h' => ⟨[], u, rfl, hvisible.symm, h'⟩
  cases Network.steps_of_step hs with
  | client hlink =>
    rename_i i a link
    rcases queues_cases a with hnil | ⟨msg, hmsg⟩
    · refine hnone (by rw [visible, hnil, List.map_nil]) ?_
      refine h.stutter_up hlink hsocket (raised_send hlink).1 ?_ h.reading fun _ => rfl
      rw [(raised_send hlink).2, nonEmpty_append, hnil, List.append_nil]
    · exact hone (l := .submit i msg) (by rw [visible, hmsg]; rfl) (h.submit hlink hsocket hmsg)
  | accept hidle hnew => exact hnone rfl (h.accept hidle hnew)
  | leave hmem => exact hone rfl (h.leave hmem)
  | serverRead hidle haccepted hlink =>
    rename_i i chunk link
    refine hnone rfl ?_
    refine h.stutter_up hlink trivial (raised_read hlink).1 (by rw [(raised_read hlink).2]) ?_ ?_
    · intro j outbox hj
      cases hj
      exact haccepted
    · intro j
      rw [hidle, Loop.pending_nil, Loop.pending]
  | handle hloop hmessages hdone hlink hmem hserve =>
    exact hone rfl (h.serve laws hloop hmessages hlink hmem hserve)
  | drop hloop hmessages hdone hlink hmem => exact hone rfl (h.lose hloop hmessages hlink hmem)
  | send hloop hsize hlink => exact hnone rfl (h.send hloop hsize hlink)
  | tooLong hloop hsize => exact hnone rfl (h.tooLong hloop hsize)
  | pump hloop hlink =>
    refine hnone rfl (h.stutter_down hlink rfl (raised_send hlink).1 h.reading ?_ fun _ _ => rfl)
    simp [(raised_send hlink).2, queues]
  | finish hloop hmessages hdone =>
    refine hnone rfl (h.stutter rfl rfl rfl (by simp) (fun j => ⟨h.up j, rfl, rfl⟩) fun j => ?_)
    refine ⟨h.down j, rfl, ?_⟩
    rw [hloop, Loop.pending_nil, Loop.pending]
  | written hlink =>
    refine hnone rfl (h.stutter_down hlink hsocket (raised_send hlink).1 h.reading ?_ fun _ _ => rfl)
    simp [(raised_send hlink).2, queues]
  | handleWrite hidle hlink =>
    refine hnone rfl (h.stutter_down hlink rfl (raised_send hlink).1 h.reading ?_ fun _ _ => rfl)
    simp [(raised_send hlink).2, queues]
  | clientRead hlink =>
    refine hnone rfl (h.stutter_down hlink trivial (raised_read hlink).1 h.reading ?_ fun _ _ => rfl)
    rw [(raised_read hlink).2]
  | clientMessage hmessages hlink =>
    refine hone (l := .receive _ _) ?_ (h.receive hmessages hlink)
    rw [visible, hmessages]
    rfl

theorem simulates_run (laws : JsonLaws lib) {as : List (Action I T)} (h : Simulates lib t u)
    (hsockets : Meets (Network.step lib) Network.SocketsStop t as)
    (hr : run (Network.step lib) t as = some t') :
    ∃ ls u', run (Service.step (handle lib)) u ls = some u' ∧
      ls.filterMap Service.Label.event = trace (Network.step lib) visible t as ∧ Simulates lib t' u' :=
  run_of_simulation (fun _ _ _ _ hR hC hs => hR.step laws hC hs) h hsockets hr

def writeRequest : StdString := ⟨writeText, by decide⟩
def readRequest : StdString := ⟨readText, by decide⟩
def okReply : StdString := ⟨text sampleLib okWrite, by decide⟩
def valueReply : StdString := ⟨text sampleLib (okRead (ascii "b")), by decide⟩

/-- Client `i` sends a request, and receives the one reply to it. -/
def asks {I : Type} (i : I) (request reply : StdString) : List (Action I Unit) :=
  [.client i (.push () request), .client i (.pump ()), .client i (.complete 0 .transmitted),
    .serverRead i (frame request), .handle, .send, .pump, .finish, .written i 0 .transmitted,
    .handleWrite i 0, .client i (.resume 0), .clientRead i (frame reply), .clientMessage i]

/-- One client writes a value, the other reads it. -/
def writesAndReads : List (Action (Fin 2) Unit) :=
  [.accept 0, .accept 1] ++ asks 0 writeRequest okReply ++ asks 1 readRequest valueReply

/-- How the run ends. -/
theorem writesAndReads_ends : ∃ t : Network (Fin 2) Unit,
    run (Network.step sampleLib) (.started true) writesAndReads = some t ∧
      (t.up 1).queued.map StdString.bytes = [readText] ∧ (t.down 1).raised = [valueReply.bytes] ∧
      t.answer 1 = valueReply.bytes ∧ t.server.sent = [(0, okReply.bytes), (1, valueReply.bytes)] := by
  have hruns : ((run (Network.step sampleLib) (.started true) writesAndReads).map fun t =>
      decide ((t.up 1).queued.map StdString.bytes = [readText] ∧
        (t.down 1).raised = [valueReply.bytes] ∧ t.answer 1 = valueReply.bytes ∧
        t.server.sent = [(0, okReply.bytes), (1, valueReply.bytes)])) = some true := by
    decide +kernel
  obtain ⟨t, ht, hstate⟩ := Option.map_eq_some_iff.mp hruns
  exact ⟨t, ht, of_decide_eq_true hstate⟩

theorem writesAndReads_stops :
    Meets (Network.step sampleLib) Network.SocketsStop (.started true) writesAndReads := by
  decide +kernel

end Diginext.EndToEnd
