import Diginext.Tcp.Link

/-! # Sending to all connections

The sending operations of `tcp_server` with the connections they send on, each a `Link` to its other end.
Any threads `T` call `send` with a connection or a UUID, and `sendAll`, which copies the list of
connections and sends on one after the other, while connections come and go and the sockets go on.

`asked` records what each thread has been asked to send, where `sendAll` asks for one message for every
connection that it finds listed, and `sent` what has been handed to `connection->send`, by which thread.
One order of sends accounts for what all threads have been asked and for what the other ends have been
told, of a connection whose socket sends nothing more once something is missing on the wire
(`everyone_told`).
-/
namespace Diginext.EndToEnd
open Cpp Outcomes Tcp Transition
set_option autoImplicit false

/-- Where a call stands: `sendEach` is the loop of `sendAll`, `send` and `asyncWrite` are the two halves
of `tcp_connection::send`. -/
inductive SendTask (I U : Type) where
  | sendByUUID (uuid : U) (message : StdString)
  | sendAll (message : StdString)
  | sendEach (connections : List I) (message : StdString)
  | send (connection : I) (message : StdString)
  | asyncWrite (connection : I)

inductive SendRequest (I U : Type) where
  | send (connection : I) (message : StdString)
  | sendByUUID (uuid : U) (message : StdString)
  | sendAll (message : StdString)

structure SendingServer (I T U : Type) where
  connections : List I
  links : I → Link T
  tasks : T → List (SendTask I U)
  asked : T → List (I × StdString)
  sent : List (T × I × StdString)

/-- The constructor of a connection leaves `sendStart` at whatever the memory held. -/
def SendingServer.started {I T U : Type} (sendStart : I → Bool) : SendingServer I T U where
  connections := []
  links := fun i => .started (sendStart i)
  tasks := fun _ => []
  asked := fun _ => []
  sent := []

/-- `socket` are the completions of a connection's writes, the handlers of them, and the reads of the
other end. -/
inductive SendingAction (I T U : Type) where
  | register (i : I)
  | remove (i : I)
  | request (t : T) (r : SendRequest I U)
  | task (t : T)
  | socket (i : I) (a : LinkAction T)

def SendRequest.entry {I U : Type} : SendRequest I U → SendTask I U
  | send i message => .send i message
  | sendByUUID uuid message => .sendByUUID uuid message
  | sendAll message => .sendAll message

/-- What a request asks for by itself; the others look at the list of connections first. -/
def SendRequest.asks {I U : Type} : SendRequest I U → List (I × StdString)
  | send i message => [(i, message)]
  | _ => []

/-- The steps of a link that are none of its sending threads. -/
def isSocket {T : Type} : LinkAction T → Bool
  | .send (.push _ _) | .send (.pump _) => false
  | _ => true

namespace SendingServer
variable {I T U : Type} [DecidableEq I] [DecidableEq T] [DecidableEq U] (uuid : I → U)

def setTasks (s : SendingServer I T U) (t : T) (tasks : List (SendTask I U)) : SendingServer I T U :=
  { s with tasks := Function.update s.tasks t tasks }

def ask (s : SendingServer I T U) (t : T) (messages : List (I × StdString)) : SendingServer I T U :=
  { s with asked := Function.update s.asked t (s.asked t ++ messages) }

def onLink (s : SendingServer I T U) (i : I) (a : LinkAction T) : Option (SendingServer I T U) :=
  match Link.step (s.links i) a with
  | some link => some { s with links := Function.update s.links i link }
  | none => none

def getConnectionByUUID (s : SendingServer I T U) (u : U) : Option I :=
  s.connections.find? fun i => uuid i = u

def perform (s : SendingServer I T U) (t : T) (rest : List (SendTask I U)) :
    SendTask I U → Option (SendingServer I T U)
  | .sendByUUID u message =>
    match s.getConnectionByUUID uuid u with
    | some i => some ((s.ask t [(i, message)]).setTasks t (.send i message :: rest))
    | none => some (s.setTasks t rest)
  | .sendAll message =>
    some ((s.ask t (s.connections.map fun i => (i, message))).setTasks t
      (.sendEach s.connections message :: rest))
  | .sendEach [] _ => some (s.setTasks t rest)
  | .sendEach (i :: connections) message =>
    some (s.setTasks t (.send i message :: .sendEach connections message :: rest))
  | .send i message =>
    match s.onLink i (.send (.push t message)) with
    | some s => some ({ s with sent := s.sent ++ [(t, i, message)] }.setTasks t (.asyncWrite i :: rest))
    | none => none
  | .asyncWrite i =>
    match s.onLink i (.send (.pump t)) with
    | some s => some (s.setTasks t rest)
    | none => none

def step (s : SendingServer I T U) : SendingAction I T U → Option (SendingServer I T U)
  | .register i =>
    if i ∈ s.connections then none else some { s with connections := s.connections ++ [i] }
  | .remove i => some { s with connections := s.connections.filter (· ≠ i) }
  | .request t r =>
    if (s.tasks t).isEmpty then some ((s.ask t r.asks).setTasks t [r.entry]) else none
  | .task t =>
    match s.tasks t with
    | [] => none
    | task :: rest => s.perform uuid t rest task
  | .socket i a => if isSocket a then s.onLink i a else none

/-! ## What a step can do -/

/-- The cases of `step`. -/
inductive Steps (s : SendingServer I T U) : SendingAction I T U → SendingServer I T U → Prop where
  | register {i : I} (hnew : i ∉ s.connections) :
    Steps s (.register i) { s with connections := s.connections ++ [i] }
  | remove {i : I} : Steps s (.remove i) { s with connections := s.connections.filter (· ≠ i) }
  | request {t : T} (r : SendRequest I U) (hidle : s.tasks t = []) :
    Steps s (.request t r) ((s.ask t r.asks).setTasks t [r.entry])
  | found {t : T} {u : U} {message : StdString} {rest : List (SendTask I U)} {i : I}
      (hold : s.tasks t = .sendByUUID u message :: rest)
      (hfound : s.getConnectionByUUID uuid u = some i) :
    Steps s (.task t) ((s.ask t [(i, message)]).setTasks t (.send i message :: rest))
  | missing {t : T} {u : U} {message : StdString} {rest : List (SendTask I U)}
      (hold : s.tasks t = .sendByUUID u message :: rest) (hnone : s.getConnectionByUUID uuid u = none) :
    Steps s (.task t) (s.setTasks t rest)
  | copies {t : T} {message : StdString} {rest : List (SendTask I U)}
      (hold : s.tasks t = .sendAll message :: rest) :
    Steps s (.task t) ((s.ask t (s.connections.map fun i => (i, message))).setTasks t
      (.sendEach s.connections message :: rest))
  | ends {t : T} {message : StdString} {rest : List (SendTask I U)}
      (hold : s.tasks t = .sendEach [] message :: rest) :
    Steps s (.task t) (s.setTasks t rest)
  | next {t : T} {i : I} {connections : List I} {message : StdString} {rest : List (SendTask I U)}
      (hold : s.tasks t = .sendEach (i :: connections) message :: rest) :
    Steps s (.task t) (s.setTasks t (.send i message :: .sendEach connections message :: rest))
  | push {t : T} {i : I} {message : StdString} {rest : List (SendTask I U)} {link : Link T}
      (hold : s.tasks t = .send i message :: rest)
      (h : Link.step (s.links i) (.send (.push t message)) = some link) :
    Steps s (.task t) ({ s with
      links := Function.update s.links i link
      sent := s.sent ++ [(t, i, message)] }.setTasks t (.asyncWrite i :: rest))
  | pump {t : T} {i : I} {rest : List (SendTask I U)} {link : Link T}
      (hold : s.tasks t = .asyncWrite i :: rest)
      (h : Link.step (s.links i) (.send (.pump t)) = some link) :
    Steps s (.task t) ({ s with links := Function.update s.links i link }.setTasks t rest)
  | socket {i : I} {a : LinkAction T} {link : Link T} (hsocket : isSocket a = true)
      (h : Link.step (s.links i) a = some link) :
    Steps s (.socket i a) { s with links := Function.update s.links i link }

omit [DecidableEq U] in
theorem onLink_eq {s s' : SendingServer I T U} {i : I} {a : LinkAction T}
    (h : s.onLink i a = some s') : ∃ link, Link.step (s.links i) a = some link ∧
      s' = { s with links := Function.update s.links i link } := by
  unfold onLink at h
  split at h
  · rename_i link hlink
    cases h
    exact ⟨link, hlink, rfl⟩
  · cases h

variable {uuid}

theorem steps_of_perform {s s' : SendingServer I T U} {t : T} {task : SendTask I U}
    {rest : List (SendTask I U)} (hold : s.tasks t = task :: rest)
    (h : s.perform uuid t rest task = some s') : Steps uuid s (.task t) s' := by
  cases task with
  | sendByUUID u message =>
    simp only [perform] at h
    split at h
    · rename_i i hfound
      cases h
      exact .found hold hfound
    · rename_i hnone
      cases h
      exact .missing hold hnone
  | sendAll message =>
    cases h
    exact .copies hold
  | sendEach connections message =>
    cases connections with
    | nil =>
      cases h
      exact .ends hold
    | cons i connections =>
      cases h
      exact .next hold
  | send i message =>
    simp only [perform] at h
    split at h
    · rename_i s₁ hpush
      obtain ⟨link, hlink, rfl⟩ := onLink_eq hpush
      cases h
      exact .push hold hlink
    · cases h
  | asyncWrite i =>
    simp only [perform] at h
    split at h
    · rename_i s₁ hpump
      obtain ⟨link, hlink, rfl⟩ := onLink_eq hpump
      cases h
      exact .pump hold hlink
    · cases h

theorem steps_of_step {s s' : SendingServer I T U} {a : SendingAction I T U}
    (h : step uuid s a = some s') : Steps uuid s a s' := by
  cases a with
  | register i =>
    simp only [step] at h
    split at h
    · cases h
    · rename_i hnew
      cases h
      exact .register hnew
  | remove i =>
    cases h
    exact .remove
  | request t r =>
    simp only [step] at h
    split at h
    · rename_i hidle
      cases h
      exact .request r (List.isEmpty_iff.mp hidle)
    · cases h
  | task t =>
    simp only [step] at h
    split at h
    · cases h
    · rename_i task rest hold
      exact steps_of_perform hold h
  | socket i a =>
    simp only [step] at h
    split at h
    · rename_i hsocket
      obtain ⟨link, hlink, rfl⟩ := onLink_eq h
      exact .socket hsocket hlink
    · cases h

end SendingServer

/-! ## Who has sent what -/

section Sending
variable {I T U : Type}

def SendTask.outstanding : SendTask I U → List (I × StdString)
  | sendEach connections message => connections.map fun i => (i, message)
  | send i message => [(i, message)]
  | _ => []

/-- What the calls of a thread still have to hand to `connection->send`. -/
def outstanding (tasks : List (SendTask I U)) : List (I × StdString) :=
  tasks.flatMap SendTask.outstanding

/-- The calls of a thread: at most the loop of `sendAll` waits for another. -/
inductive Nested : List (SendTask I U) → Prop where
  | idle : Nested []
  | sendByUUID (u : U) (message : StdString) : Nested [.sendByUUID u message]
  | sendAll (message : StdString) : Nested [.sendAll message]
  | sendEach (connections : List I) (message : StdString) : Nested [.sendEach connections message]
  | send (i : I) (message : StdString) : Nested [.send i message]
  | asyncWrite (i : I) : Nested [.asyncWrite i]
  | eachSend (i : I) (connections : List I) (sent message : StdString) :
    Nested [.send i sent, .sendEach connections message]
  | eachWrite (i : I) (connections : List I) (message : StdString) :
    Nested [.asyncWrite i, .sendEach connections message]

def sentBy [DecidableEq T] (t : T) (sent : List (T × I × StdString)) : List (I × StdString) :=
  (sent.filter fun entry => entry.1 = t).map Prod.snd

/-- What of it a connection has queued; an exception of the encoder queues nothing. -/
def sentTo [DecidableEq I] (i : I) (sent : List (T × I × StdString)) : List StdString :=
  sent.flatMap fun entry => if entry.2.1 = i then queues (.push entry.1 entry.2.2) else []

theorem sentBy_concat [DecidableEq T] (t u : T) (i : I) (message : StdString)
    (sent : List (T × I × StdString)) :
    sentBy t (sent ++ [(u, i, message)]) = sentBy t sent ++ if u = t then [(i, message)] else [] := by
  by_cases hu : u = t <;> simp [sentBy, hu]

theorem sentTo_concat [DecidableEq I] (i j : I) (t : T) (message : StdString)
    (sent : List (T × I × StdString)) : sentTo i (sent ++ [(t, j, message)]) =
      sentTo i sent ++ if j = i then queues (.push t message) else [] := by
  simp [sentTo]

variable [DecidableEq T]

/-! ## What a step of a connection does -/

theorem push_link {l l' : Link T} {t : T} {message : StdString}
    (h : Link.step l (.send (.push t message)) = some l') :
    l'.queued = l.queued ++ queues (.push t message) ∧
      l'.sender.calling = Function.update l.sender.calling t true := by
  cases Link.steps_of_step h with
  | @send _ sender hsend =>
    refine ⟨rfl, ?_⟩
    simp only [sendStep] at hsend
    split at hsend
    · cases hsend
    · unfold Sender.push at hsend
      split at hsend
      · cases hsend
        rfl
      · cases hsend
        rfl
      · cases hsend

theorem pump_link {l l' : Link T} {t : T} (h : Link.step l (.send (.pump t)) = some l') :
    l'.queued = l.queued ∧ l'.sender.calling = Function.update l.sender.calling t false := by
  cases Link.steps_of_step h with
  | @send _ sender hsend =>
    refine ⟨List.append_nil _, ?_⟩
    simp only [sendStep] at hsend
    split at hsend
    · cases hsend
      exact Link.asyncWrite_calling true _
    · cases hsend

theorem socket_link {l l' : Link T} {a : LinkAction T} (ha : isSocket a = true)
    (h : Link.step l a = some l') : l'.queued = l.queued ∧ l'.sender.calling = l.sender.calling := by
  cases Link.steps_of_step h with
  | @send a sender hsend =>
    rcases sendStep_cases hsend with ⟨t, msg, rfl, hpush⟩ | ⟨t, rfl, rfl⟩ |
      ⟨k, w, result, rfl, hw, hnot, rfl⟩ | ⟨k, w, rfl, hw, hdone, rfl⟩
    · cases ha
    · cases ha
    · exact ⟨List.append_nil _, rfl⟩
    · exact ⟨List.append_nil _, Link.asyncWrite_calling false _⟩
  | read hdone hline hreceived hr => exact ⟨rfl, rfl⟩
  | raise hmessages => exact ⟨rfl, rfl⟩

/-! ## Every thread, every connection -/

variable [DecidableEq I]

structure Sound (s : SendingServer I T U) : Prop where
  links : ∀ i, (s.links i).Intact
  queued : ∀ i, (s.links i).queued = sentTo i s.sent
  nested : ∀ t, Nested (s.tasks t)
  order : ∀ t, sentBy t s.sent ++ outstanding (s.tasks t) = s.asked t
  calling : ∀ t i, (s.links i).sender.calling t = true → ∃ rest, s.tasks t = .asyncWrite i :: rest

theorem started_allSound (sendStart : I → Bool) : Sound (.started sendStart : SendingServer I T U) where
  links := fun i => Link.started_intact (sendStart i)
  queued := fun _ => rfl
  nested := fun _ => .idle
  order := fun _ => rfl
  calling := by
    intro t i h
    cases h

theorem Sound.links_update {s : SendingServer I T U} (h : Sound s) {i : I} {link : Link T}
    {a : LinkAction T} (hlink : Link.step (s.links i) a = some link) (j : I) :
    (Function.update s.links i link j).Intact := by
  by_cases hj : j = i
  · subst hj
    rw [Function.update_self]
    exact (h.links j).step hlink
  · rw [Function.update_of_ne hj]
    exact h.links j

theorem Sound.queued_update {s : SendingServer I T U} (h : Sound s) {i : I} {link : Link T}
    (hqueued : link.queued = (s.links i).queued) (j : I) :
    (Function.update s.links i link j).queued = sentTo j s.sent := by
  by_cases hj : j = i
  · subst hj
    rw [Function.update_self]
    exact hqueued.trans (h.queued j)
  · rw [Function.update_of_ne hj]
    exact h.queued j

/-- A thread goes on. -/
theorem Sound.goes {s s' : SendingServer I T U} (h : Sound s) {t : T} {tasks : List (SendTask I U)}
    (htasks : s'.tasks = Function.update s.tasks t tasks) (hnested : Nested tasks)
    (hlinks : ∀ i, (s'.links i).Intact) (hqueued : ∀ i, (s'.links i).queued = sentTo i s'.sent)
    (horder : sentBy t s'.sent ++ outstanding tasks = s'.asked t)
    (hothers : ∀ u, u ≠ t → s'.asked u = s.asked u ∧ sentBy u s'.sent = sentBy u s.sent ∧
      ∀ i, (s'.links i).sender.calling u = (s.links i).sender.calling u)
    (hcalling : ∀ i, (s'.links i).sender.calling t = true → ∃ rest, tasks = .asyncWrite i :: rest) :
    Sound s' := by
  have hself : s'.tasks t = tasks := by rw [htasks, Function.update_self]
  have hother : ∀ u, u ≠ t → s'.tasks u = s.tasks u := by
    intro u hu
    rw [htasks, Function.update_of_ne hu]
  refine ⟨hlinks, hqueued, fun u => ?_, fun u => ?_, fun u i hcall => ?_⟩
  · by_cases hu : u = t
    · rw [hu, hself]
      exact hnested
    · rw [hother u hu]
      exact h.nested u
  · by_cases hu : u = t
    · rw [hu, hself]
      exact horder
    · obtain ⟨hasked, hsent, -⟩ := hothers u hu
      rw [hother u hu, hasked, hsent]
      exact h.order u
  · by_cases hu : u = t
    · rw [hu] at hcall ⊢
      rw [hself]
      exact hcalling i hcall
    · rw [hother u hu]
      apply h.calling u i
      rw [← (hothers u hu).2.2 i]
      exact hcall

/-- A thread goes on without touching a connection. -/
theorem Sound.asks {s : SendingServer I T U} (h : Sound s) {t : T} {tasks : List (SendTask I U)}
    (messages : List (I × StdString)) (hidle : ∀ i rest, s.tasks t ≠ .asyncWrite i :: rest)
    (hnested : Nested tasks) (horder : outstanding tasks = outstanding (s.tasks t) ++ messages) :
    Sound ((s.ask t messages).setTasks t tasks) := by
  refine h.goes rfl hnested h.links h.queued ?_ ?_ ?_
  · show sentBy t s.sent ++ outstanding tasks = Function.update s.asked t (s.asked t ++ messages) t
    rw [Function.update_self, horder, ← List.append_assoc, h.order t]
  · intro u hu
    exact ⟨Function.update_of_ne hu _ _, rfl, fun _ => rfl⟩
  · intro i hcall
    obtain ⟨rest, hrest⟩ := h.calling t i hcall
    exact absurd hrest (hidle i rest)

theorem Sound.moves {s : SendingServer I T U} (h : Sound s) {t : T} {tasks : List (SendTask I U)}
    (hidle : ∀ i rest, s.tasks t ≠ .asyncWrite i :: rest) (hnested : Nested tasks)
    (horder : outstanding tasks = outstanding (s.tasks t)) : Sound (s.setTasks t tasks) := by
  have hasks := h.asks [] hidle hnested (by rw [horder, List.append_nil])
  have hsame : s.ask t [] = s := by
    unfold SendingServer.ask
    rw [List.append_nil, Function.update_eq_self]
  rwa [hsame] at hasks

/-- The first half of `connection->send`. -/
theorem Sound.pushes {s : SendingServer I T U} (h : Sound s) {t : T} {i : I} {message : StdString}
    {rest : List (SendTask I U)} {link : Link T} (hold : s.tasks t = .send i message :: rest)
    (hlink : Link.step (s.links i) (.send (.push t message)) = some link) :
    Sound ({ s with
      links := Function.update s.links i link
      sent := s.sent ++ [(t, i, message)] }.setTasks t (.asyncWrite i :: rest)) := by
  obtain ⟨hqueued, hcalling⟩ := push_link hlink
  have hnested : Nested (.asyncWrite i :: rest) := by
    have hnested := h.nested t
    rw [hold] at hnested
    cases hnested with
    | send => exact .asyncWrite i
    | eachSend => exact .eachWrite i _ _
  have hidle : ∀ j, (s.links j).sender.calling t = true → False := by
    intro j hcall
    obtain ⟨rest', hrest⟩ := h.calling t j hcall
    rw [hold] at hrest
    cases hrest
  refine h.goes rfl hnested (fun j => ?_) (fun j => ?_) ?_ (fun u hu => ⟨rfl, ?_, fun j => ?_⟩)
    fun j hcall => ?_
  · exact h.links_update hlink j
  · show (Function.update s.links i link j).queued = sentTo j (s.sent ++ [(t, i, message)])
    rw [sentTo_concat]
    by_cases hj : j = i
    · subst hj
      rw [Function.update_self, hqueued, h.queued j, if_pos rfl]
    · rw [Function.update_of_ne hj, h.queued j, if_neg (Ne.symm hj), List.append_nil]
  · have horder := h.order t
    rw [hold] at horder
    show sentBy t (s.sent ++ [(t, i, message)]) ++ outstanding rest = s.asked t
    rw [sentBy_concat, if_pos rfl, List.append_assoc]
    exact horder
  · show sentBy u (s.sent ++ [(t, i, message)]) = sentBy u s.sent
    rw [sentBy_concat, if_neg (Ne.symm hu), List.append_nil]
  · by_cases hj : j = i
    · subst hj
      simp only [SendingServer.setTasks, Function.update_self, hcalling, Function.update_of_ne hu]
    · simp only [SendingServer.setTasks, Function.update_of_ne hj]
  · by_cases hj : j = i
    · subst hj
      exact ⟨rest, rfl⟩
    · simp only [SendingServer.setTasks, Function.update_of_ne hj] at hcall
      exact (hidle j hcall).elim

/-- The second half. -/
theorem Sound.pumps {s : SendingServer I T U} (h : Sound s) {t : T} {i : I} {rest : List (SendTask I U)}
    {link : Link T} (hold : s.tasks t = .asyncWrite i :: rest)
    (hlink : Link.step (s.links i) (.send (.pump t)) = some link) :
    Sound ({ s with links := Function.update s.links i link }.setTasks t rest) := by
  obtain ⟨hqueued, hcalling⟩ := pump_link hlink
  have hnested : Nested rest := by
    have hnested := h.nested t
    rw [hold] at hnested
    cases hnested with
    | asyncWrite => exact .idle
    | eachWrite => exact .sendEach _ _
  refine h.goes rfl hnested (fun j => ?_) (fun j => ?_) ?_ (fun u hu => ⟨rfl, rfl, fun j => ?_⟩)
    fun j hcall => ?_
  · exact h.links_update hlink j
  · exact h.queued_update hqueued j
  · have horder := h.order t
    rw [hold] at horder
    exact horder
  · by_cases hj : j = i
    · subst hj
      simp only [SendingServer.setTasks, Function.update_self, hcalling, Function.update_of_ne hu]
    · simp only [SendingServer.setTasks, Function.update_of_ne hj]
  · -- no thread is in two calls of `send` at once
    by_cases hj : j = i
    · subst hj
      simp only [SendingServer.setTasks, Function.update_self, hcalling] at hcall
      cases hcall
    · simp only [SendingServer.setTasks, Function.update_of_ne hj] at hcall
      obtain ⟨rest', hrest⟩ := h.calling t j hcall
      rw [hold] at hrest
      cases hrest
      exact absurd rfl hj

theorem Sound.step [DecidableEq U] {uuid : I → U} {s s' : SendingServer I T U}
    {a : SendingAction I T U} (h : Sound s) (hs : SendingServer.step uuid s a = some s') : Sound s' := by
  cases SendingServer.steps_of_step hs with
  | register hnew => exact ⟨h.links, h.queued, h.nested, h.order, h.calling⟩
  | remove => exact ⟨h.links, h.queued, h.nested, h.order, h.calling⟩
  | @request t r hidle =>
    have hnot : ∀ i rest, s.tasks t ≠ .asyncWrite i :: rest := by simp [hidle]
    cases r with
    | send i message => exact h.asks _ hnot (.send i message) (by rw [hidle]; rfl)
    | sendByUUID u message => exact h.asks _ hnot (.sendByUUID u message) (by rw [hidle]; rfl)
    | sendAll message => exact h.asks _ hnot (.sendAll message) (by rw [hidle]; rfl)
  | @found t u message rest i hold hfound =>
    have hnested := h.nested t
    rw [hold] at hnested
    cases hnested with
    | sendByUUID => exact h.asks _ (by simp [hold]) (.send i message) (by rw [hold]; rfl)
  | @missing t u message rest hold hnone =>
    have hnested := h.nested t
    rw [hold] at hnested
    cases hnested with
    | sendByUUID => exact h.moves (by simp [hold]) .idle (by rw [hold]; rfl)
  | @copies t message rest hold =>
    have hnested := h.nested t
    rw [hold] at hnested
    cases hnested with
    | sendAll =>
      exact h.asks _ (by simp [hold]) (.sendEach s.connections message)
        (by rw [hold]; exact List.append_nil _)
  | @ends t message rest hold =>
    have hnested := h.nested t
    rw [hold] at hnested
    cases hnested with
    | sendEach => exact h.moves (by simp [hold]) .idle (by rw [hold]; rfl)
  | @next t i connections message rest hold =>
    have hnested := h.nested t
    rw [hold] at hnested
    cases hnested with
    | sendEach =>
      exact h.moves (by simp [hold]) (.eachSend i connections message message) (by rw [hold]; rfl)
  | @push t i message rest link hold hlink =>
    exact h.pushes hold hlink
  | @pump t i rest link hold hlink =>
    exact h.pumps hold hlink
  | @socket i a link hsocket hlink =>
    obtain ⟨hqueued, hcalling⟩ := socket_link hsocket hlink
    refine ⟨fun j => ?_, fun j => ?_, h.nested, h.order, fun u j hcall => h.calling u j ?_⟩
    · exact h.links_update hlink j
    · exact h.queued_update hqueued j
    · by_cases hj : j = i
      · subst hj
        simp only [Function.update_self, hcalling] at hcall
        exact hcall
      · simpa only [Function.update_of_ne hj] using hcall

/-! ## The socket of one connection -/

/-- The step is none in which the socket of this connection sends something after a write that failed. -/
def SocketStops (i : I) (s : SendingServer I T U) : SendingAction I T U → Prop
  | .socket j a => j = i → Link.SocketStops (s.links j) a
  | _ => True

instance (i : I) (s : SendingServer I T U) (a : SendingAction I T U) : Decidable (SocketStops i s a) :=
  match a with
  | .socket j a => inferInstanceAs (Decidable (j = i → Link.SocketStops (s.links j) a))
  | .register _ | .remove _ | .request _ _ | .task _ => isTrue trivial

/-- A step moves one connection at most, and in a way that its socket decides. -/
theorem link_sound_step [DecidableEq U] {uuid : I → U} {s s' : SendingServer I T U}
    {a : SendingAction I T U} {i : I} (h : (s.links i).Sound) (hsocket : SocketStops i s a)
    (hs : SendingServer.step uuid s a = some s') : (s'.links i).Sound := by
  have hmoves : ∀ {j : I} {b : LinkAction T} {link : Link T}, Link.step (s.links j) b = some link →
      (j = i → Link.SocketStops (s.links j) b) → (Function.update s.links j link i).Sound := by
    intro j b link hlink hstops
    by_cases hj : i = j
    · subst hj
      rw [Function.update_self]
      exact h.step hlink (hstops rfl)
    · rw [Function.update_of_ne hj]
      exact h
  cases SendingServer.steps_of_step hs with
  | push hold hlink => exact hmoves hlink fun _ => rfl
  | pump hold hlink => exact hmoves hlink fun _ => rfl
  | socket ha hlink => exact hmoves hlink hsocket
  | register _ | remove | request _ _ | found _ _ | missing _ _ | copies _ | ends _ | next _ => exact h

/-- **One order of sends accounts for everybody.** In every run, whatever connections come and go, what
has been handed to `connection->send` on all connections by all threads is one sequence of sends such
that every thread's part of it is the first part of what it has been asked for, one message for every
connection that a `sendAll` found listed, in order; and what the other end of a connection whose socket
stops has been told is the first part of the messages sent to it. When all calls have returned, every
thread's part is all it has been asked for, and where nothing is missing on the wire and a connection
has come to rest, its other end has been told all. -/
theorem everyone_told [DecidableEq U] (uuid : I → U) (sendStart : I → Bool)
    (as : List (SendingAction I T U)) (s : SendingServer I T U)
    (hrun : run (SendingServer.step uuid) (.started sendStart) as = some s) :
    (∀ t, sentBy t s.sent <+: s.asked t) ∧
      (∀ i, Meets (SendingServer.step uuid) (SocketStops i) (.started sendStart) as →
        (s.links i).raised <+: nonEmpty (sentTo i s.sent)) ∧
      ((∀ t, s.tasks t = []) → (∀ t, sentBy t s.sent = s.asked t) ∧
        ∀ i, Faithful (s.links i).sender → (s.links i).AtRest →
          (s.links i).raised = nonEmpty (sentTo i s.sent)) := by
  have h : Sound s := run_invariant (fun _ _ _ hI hs => hI.step hs) (started_allSound sendStart) hrun
  refine ⟨fun t => ⟨_, h.order t⟩, fun i hsocket => ?_, fun hidle => ⟨fun t => ?_, ?_⟩⟩
  · have hsound : (s.links i).Sound :=
      (along_of_meets (I := fun s : SendingServer I T U => (s.links i).Sound)
        (fun _ _ _ hI hC hs => link_sound_step hI hC hs) (Link.started_sound (sendStart i))
        hsocket).last hrun
    rw [← h.queued i]
    exact (List.prefix_append _ _).trans hsound.delivered
  · have horder := h.order t
    rw [hidle t] at horder
    exact (List.append_nil _).symm.trans horder
  · intro i hfaithful hrest
    have hcalls : ∀ t, (s.links i).sender.calling t = false := by
      intro t
      cases hcall : (s.links i).sender.calling t with
      | false => rfl
      | true =>
        obtain ⟨rest, hrest⟩ := h.calling t i hcall
        rw [hidle t] at hrest
        cases hrest
    rw [← h.queued i]
    exact hrest.delivered ((h.links i).sound hfaithful) ⟨hcalls, hfaithful⟩

end Sending

/-- A `sendAll` finds two connections. The second is removed before its turn comes, and gets the message
nevertheless. -/
def sendsToTwo : List (SendingAction ℕ Bool ℕ) :=
  [.register 0, .register 1, .request false (.sendAll Base64.hello), .task false, .task false, .remove 1,
    .task false, .task false, .task false, .task false, .task false, .task false] ++
    [0, 1].flatMap fun i => [.socket i (.send (.complete 0 .transmitted)), .socket i (.send (.resume 0)),
      .socket i (.read (ascii "SEVMTE8=\n")), .socket i .raise]

theorem everyone_told_sendsToTwo : ∃ s,
    run (SendingServer.step id) (.started fun _ => true) sendsToTwo = some s ∧ s.connections = [0] ∧
      sentBy false s.sent = [(0, Base64.hello), (1, Base64.hello)] ∧
      (s.links 1).raised = [ascii "HELLO"] ∧ sentBy false s.sent = s.asked false ∧
      (s.links 0).raised <+: nonEmpty (sentTo 0 s.sent) ∧
      (s.links 1).raised = nonEmpty (sentTo 1 s.sent) := by
  have hruns : (run (SendingServer.step id) (.started fun _ => true) sendsToTwo).map (fun s =>
      decide ((s.tasks false).isEmpty ∧ (s.tasks true).isEmpty ∧ s.connections = [0] ∧
        sentBy false s.sent = [(0, Base64.hello), (1, Base64.hello)] ∧
        (s.links 1).raised = [ascii "HELLO"] ∧ Faithful (s.links 1).sender ∧
        Link.todo (s.links 1) = 0)) = some true := by
    decide +kernel
  obtain ⟨s, hs, hstate⟩ := Option.map_eq_some_iff.mp hruns
  obtain ⟨hfalse, htrue, hconnections, hsent, hraised, hfaithful, hzero⟩ := of_decide_eq_true hstate
  have hidle : ∀ t, s.tasks t = [] := by
    intro t
    cases t with
    | false => exact List.isEmpty_iff.mp hfalse
    | true => exact List.isEmpty_iff.mp htrue
  have hsound : Sound s :=
    run_invariant (fun _ _ _ hI hs => hI.step hs) (started_allSound fun _ => true) hs
  have hrest := Link.atRest_of_todo (hsound.links 1).consistent hzero
  obtain ⟨-, hfirst, hall⟩ := everyone_told id (fun _ => true) sendsToTwo s hs
  obtain ⟨hasked, htold⟩ := hall hidle
  have hstops : Meets (SendingServer.step id) (SocketStops 0) (.started fun _ => true) sendsToTwo := by
    decide +kernel
  exact ⟨s, hs, hconnections, hsent, hraised, hasked false, hfirst 0 hstops, htold 1 hfaithful hrest⟩

end Diginext.EndToEnd
