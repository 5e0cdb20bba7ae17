import Diginext.EndToEnd.Answers

/-! # Peers that send anything

The receiving side of the storage server when its peers are not clients of ours. A read brings any
bytes, `decode_message` makes of them what it can, and `StorageServer` is asked for whatever comes out.
Only the bytes on which `Base64::Decode` has no defined behaviour are excluded, since nothing can be
said after them.

What other peers send is noticed by a client in the values it reads and by nothing else. As long as they
complete no request to write, the storage and all replies to the client are what they would be if the
others were not there (`strangers_unnoticed`). What is given to `connection->send` is recorded; `Link`
says how it goes on from there. -/
namespace Diginext.EndToEnd
open Cpp Outcomes Storage Tcp Transition Service KeyValue Lines
set_option autoImplicit false

/-- `connections` are those listed with the handlers of `tcp_server` connected. `loop` is the connection
whose `handle_read` is running, `messages` are those it has still to raise, and `chunks` is what has been
read. -/
structure OpenServer (I : Type) where
  server : StorageServer I
  connections : List I
  accepted : I → Bool
  loop : Option I
  messages : List Bytes
  partMessage : I → Bytes
  chunks : I → List Bytes

def OpenServer.started {I : Type} : OpenServer I where
  server := .empty
  connections := []
  accepted := fun _ => false
  loop := none
  messages := []
  partMessage := fun _ => []
  chunks := fun _ => []

/-- `leave` is the disconnection of the handlers of a connection, with which its removal begins, on any
thread and for any reason. -/
inductive Incident (I : Type) where
  | accept (i : I)
  | leave (i : I)
  | read (i : I) (chunk : Bytes)
  | handle
  | finish

namespace OpenServer
variable {I : Type} [DecidableEq I]

def step (lib : JsonLib) (t : OpenServer I) : Incident I → Option (OpenServer I)
  | .accept i =>
    if t.loop = none ∧ t.accepted i = false then
      some { t with
        connections := t.connections ++ [i]
        accepted := Function.update t.accepted i true }
    else none
  | .leave i =>
    if i ∈ t.connections then some { t with connections := t.connections.filter (· ≠ i) } else none
  | .read i chunk =>
    if t.loop = none ∧ t.accepted i = true ∧ delimetr ∈ chunk then
      match handleRead Base64.decode quiet (t.partMessage i) chunk with
      | .ok r => some { t with
          loop := some i
          messages := r.raised
          partMessage := Function.update t.partMessage i r.partMessage
          chunks := Function.update t.chunks i (t.chunks i ++ [chunk]) }
      | _ => none
    else none
  | .handle =>
    match t.loop, t.messages with
    | some i, msg :: messages =>
      -- `handle_tcp_connection_read_message` looks the connection up
      if i ∈ t.connections then
        (serve lib t.server (i, msg)).map fun server => { t with server := server, messages := messages }
      else some { t with messages := messages }
    | _, _ => none
  | .finish =>
    if t.loop.isSome ∧ t.messages = [] then some { t with loop := none } else none

inductive Steps (lib : JsonLib) (t : OpenServer I) : Incident I → OpenServer I → Prop where
  | accept {i : I} (hidle : t.loop = none) (hnew : t.accepted i = false) :
      Steps lib t (.accept i) { t with
        connections := t.connections ++ [i]
        accepted := Function.update t.accepted i true }
  | leave {i : I} (hmem : i ∈ t.connections) :
      Steps lib t (.leave i) { t with connections := t.connections.filter (· ≠ i) }
  | read {i : I} {chunk : Bytes} {r : ReadResult} (hidle : t.loop = none)
      (haccepted : t.accepted i = true)
      (hr : handleRead Base64.decode quiet (t.partMessage i) chunk = .ok r) :
      Steps lib t (.read i chunk) { t with
        loop := some i
        messages := r.raised
        partMessage := Function.update t.partMessage i r.partMessage
        chunks := Function.update t.chunks i (t.chunks i ++ [chunk]) }
  | handle {i : I} {msg : Bytes} {messages : List Bytes} {server : StorageServer I}
      (hloop : t.loop = some i) (hmessages : t.messages = msg :: messages) (hmem : i ∈ t.connections)
      (hserve : serve lib t.server (i, msg) = some server) :
      Steps lib t .handle { t with server := server, messages := messages }
  | drop {i : I} {msg : Bytes} {messages : List Bytes} (hloop : t.loop = some i)
      (hmessages : t.messages = msg :: messages) (hmem : i ∉ t.connections) :
      Steps lib t .handle { t with messages := messages }
  | finish (hmessages : t.messages = []) : Steps lib t .finish { t with loop := none }

theorem steps_of_step {lib : JsonLib} {t t' : OpenServer I} {a : Incident I}
    (h : step lib t a = some t') : Steps lib t a t' := by
  cases a with
  | accept i =>
    simp only [step] at h
    split at h
    · rename_i hnew
      cases h
      exact .accept hnew.1 hnew.2
    · cases h
  | leave i =>
    simp only [step] at h
    split at h
    · rename_i hmem
      cases h
      exact .leave hmem
    · cases h
  | read i chunk =>
    simp only [step] at h
    split at h
    · rename_i hready
      split at h
      · rename_i r hr
        cases h
        exact .read hready.1 hready.2.1 hr
      · cases h
    · cases h
  | handle =>
    simp only [step] at h
    split at h
    · rename_i i msg messages hloop hmessages
      split at h
      · rename_i hmem
        obtain ⟨server, hserve, rfl⟩ := Option.map_eq_some_iff.mp h
        exact .handle hloop hmessages hmem hserve
      · rename_i hmem
        cases h
        exact .drop hloop hmessages hmem
    · cases h
  | finish =>
    simp only [step] at h
    split at h
    · rename_i hdone
      cases h
      exact .finish hdone.2
    · cases h

/-- The messages in what has been read from a peer. -/
def heard (t : OpenServer I) (i : I) : List Bytes := reference Base64.decode (t.chunks i).flatten

def pending (t : OpenServer I) (i : I) : List Bytes := if t.loop = some i then t.messages else []

end OpenServer

/-! ## What has been handled -/

section Serving
variable {I : Type} [DecidableEq I] {lib : JsonLib}

/-- The requests handled so far in their order. Those of a registered connection are all that it has been
heard to ask, but for the messages still to be raised. -/
structure Serving (lib : JsonLib) (t : OpenServer I) (order : List (I × Bytes)) : Prop where
  sequential : run (serve lib) .empty order = some t.server
  servable : Servable t.server.dataStorage
  part : ∀ i, t.partMessage i = tail delimetr (t.chunks i).flatten
  listed : ∀ i ∈ t.connections, t.accepted i = true
  unread : ∀ i, t.accepted i = false → t.chunks i = []
  initial : ∀ i, requestsOf i order <+: t.heard i
  all : ∀ i ∈ t.connections, requestsOf i order ++ t.pending i = t.heard i

theorem started_serving : Serving lib (OpenServer.started : OpenServer I) [] where
  sequential := rfl
  servable := empty_servable
  part := by simp [OpenServer.started]
  listed := by simp [OpenServer.started]
  unread := fun _ _ => rfl
  initial := fun _ => List.nil_prefix
  all := by simp [OpenServer.started]

variable {t : OpenServer I} {order : List (I × Bytes)}

theorem Serving.accept (h : Serving lib t order) {i : I} (hidle : t.loop = none)
    (hnew : t.accepted i = false) : Serving lib { t with
      connections := t.connections ++ [i]
      accepted := Function.update t.accepted i true } order := by
  refine ⟨h.sequential, h.servable, h.part, ?_, ?_, h.initial, ?_⟩
  · intro j hj
    by_cases heq : j = i
    · simp [heq]
    · simp only [Function.update_of_ne heq]
      exact h.listed j (by simpa [heq] using hj)
  · intro j hj
    by_cases heq : j = i
    · simp [heq] at hj
    · simp only [Function.update_of_ne heq] at hj
      exact h.unread j hj
  · intro j hj
    rcases List.mem_append.mp hj with hj | hj
    · exact h.all j hj
    · obtain rfl := List.mem_singleton.mp hj
      -- nothing has been read from a connection that is only now accepted
      have hnothing : t.heard j = [] := by
        simp [OpenServer.heard, h.unread j hnew, reference, decodedLines]
      have hnone := List.prefix_nil.mp (hnothing ▸ h.initial j)
      show requestsOf j order ++ t.pending j = t.heard j
      rw [hnothing, hnone]
      simp [OpenServer.pending, hidle]

theorem Serving.leave (h : Serving lib t order) (i : I) :
    Serving lib { t with connections := t.connections.filter (· ≠ i) } order := by
  refine ⟨h.sequential, h.servable, h.part, ?_, h.unread, h.initial, ?_⟩
  · exact fun j hj => h.listed j (List.mem_of_mem_filter hj)
  · exact fun j hj => h.all j (List.mem_of_mem_filter hj)

theorem Serving.read (h : Serving lib t order) {i : I} {chunk : Bytes} {r : ReadResult}
    (hidle : t.loop = none) (haccepted : t.accepted i = true)
    (hr : handleRead Base64.decode quiet (t.partMessage i) chunk = .ok r) : Serving lib { t with
      loop := some i
      messages := r.raised
      partMessage := Function.update t.partMessage i r.partMessage
      chunks := Function.update t.chunks i (t.chunks i ++ [chunk]) } order := by
  rw [h.part i] at hr
  obtain ⟨hraised, hpart⟩ := reference_read hr
  have hflatten : (t.chunks i ++ [chunk]).flatten = (t.chunks i).flatten ++ chunk := by simp
  refine ⟨h.sequential, h.servable, ?_, h.listed, ?_, ?_, ?_⟩
  · intro j
    by_cases heq : j = i
    · subst heq
      simp only [Function.update_self]
      rw [hflatten]
      exact hpart
    · simp only [Function.update_of_ne heq]
      exact h.part j
  · intro j hj
    have heq : j ≠ i := by
      rintro rfl
      rw [haccepted] at hj
      cases hj
    simp only [Function.update_of_ne heq]
    exact h.unread j hj
  · intro j
    by_cases heq : j = i
    · subst heq
      simp only [OpenServer.heard, Function.update_self]
      rw [hflatten, hraised]
      exact (h.initial j).trans (List.prefix_append _ _)
    · simp only [OpenServer.heard, Function.update_of_ne heq]
      exact h.initial j
  · intro j hj
    have hall := h.all j hj
    simp only [OpenServer.pending, hidle] at hall
    by_cases heq : j = i
    · subst heq
      simp only [OpenServer.heard, OpenServer.pending, Function.update_self]
      rw [hflatten, hraised]
      simpa [OpenServer.heard] using hall
    · have hother : ¬ i = j := fun hij => heq hij.symm
      simpa [OpenServer.heard, OpenServer.pending, heq, hother] using hall

theorem Serving.handle (laws : JsonLaws lib) (h : Serving lib t order) {i : I} {msg : Bytes}
    {messages : List Bytes} {server : StorageServer I} (hloop : t.loop = some i)
    (hmessages : t.messages = msg :: messages) (hmem : i ∈ t.connections)
    (hserve : serve lib t.server (i, msg) = some server) :
    Serving lib { t with server := server, messages := messages } (order ++ [(i, msg)]) := by
  have hserver : t.server.responded lib (i, msg) = server := by
    rw [← Option.some.injEq, ← serve_eq laws _ h.servable]
    exact hserve
  have hi := h.all i hmem
  simp only [OpenServer.pending, hloop, if_true, hmessages] at hi
  refine ⟨?_, ?_, h.part, h.listed, h.unread, ?_, ?_⟩
  · rw [run_append h.sequential]
    exact run_cons hserve []
  · rw [← hserver]
    exact servable_respond laws h.servable msg
  · intro j
    show requestsOf j (order ++ [(i, msg)]) <+: t.heard j
    rw [requestsOf_append]
    by_cases heq : i = j
    · subst heq
      rw [requestsOf_self, ← hi, List.prefix_append_right_inj]
      exact List.cons_prefix_cons.mpr ⟨rfl, List.nil_prefix⟩
    · rw [requestsOf_other heq, List.append_nil]
      exact h.initial j
  · intro j hj
    show requestsOf j (order ++ [(i, msg)]) ++ (if t.loop = some j then messages else []) = t.heard j
    rw [requestsOf_append, hloop]
    by_cases heq : i = j
    · subst heq
      rw [requestsOf_self, if_pos rfl, ← hi, List.append_assoc]
      rfl
    · have hall := h.all j hj
      have hother : ¬ some i = some j := fun hij => heq (Option.some.inj hij)
      rw [OpenServer.pending, hloop, if_neg hother] at hall
      rw [requestsOf_other heq, if_neg hother, List.append_nil]
      exact hall

theorem Serving.drop (h : Serving lib t order) {i : I} (messages : List Bytes) (hloop : t.loop = some i)
    (hmem : i ∉ t.connections) : Serving lib { t with messages := messages } order := by
  refine ⟨h.sequential, h.servable, h.part, h.listed, h.unread, h.initial, ?_⟩
  intro j hj
  have hother : ¬ some i = some j := by
    intro hij
    cases hij
    exact hmem hj
  have hall := h.all j hj
  simp only [OpenServer.pending, hloop, if_neg hother] at hall ⊢
  exact hall

theorem Serving.finish (h : Serving lib t order) (hmessages : t.messages = []) :
    Serving lib { t with loop := none } order := by
  refine ⟨h.sequential, h.servable, h.part, h.listed, h.unread, h.initial, ?_⟩
  intro j hj
  have hall := h.all j hj
  simp only [OpenServer.pending, hmessages, ite_self] at hall
  show requestsOf j order ++ (if none = some j then t.messages else []) = t.heard j
  rw [if_neg (by simp)]
  exact hall

theorem Serving.step (laws : JsonLaws lib) (h : Serving lib t order) {t' : OpenServer I}
    {a : Incident I} (hs : OpenServer.step lib t a = some t') : ∃ order', Serving lib t' order' := by
  cases OpenServer.steps_of_step hs with
  | accept hidle hnew => exact ⟨order, h.accept hidle hnew⟩
  | leave hmem => exact ⟨order, h.leave _⟩
  | read hidle haccepted hr => exact ⟨order, h.read hidle haccepted hr⟩
  | handle hloop hmessages hmem hserve => exact ⟨_, h.handle laws hloop hmessages hmem hserve⟩
  | drop hloop hmessages hmem => exact ⟨order, h.drop _ hloop hmem⟩
  | finish hmessages => exact ⟨order, h.finish hmessages⟩

theorem serving_run (laws : JsonLaws lib) {as : List (Incident I)}
    (hr : run (OpenServer.step lib) .started as = some t) : ∃ order, Serving lib t order := by
  refine run_invariant (I := fun t => ∃ order, Serving lib t order) ?_ ⟨[], started_serving⟩ hr
  intro s a s' hI hs
  obtain ⟨order, h⟩ := hI
  exact h.step laws hs

/-! ## Without the others -/

omit [DecidableEq I] in
/-- Requests that write nothing leave no trace but their own replies. -/
theorem serve_without (laws : JsonLaws lib) (known : I → Bool) {s : StorageServer I}
    (hrun : run (serve lib) .empty order = some s)
    (hquiet : ∀ p ∈ order, known p.1 = false → ∀ key value, ¬ WriteRequest lib p.2 key value) :
    ∃ r, run (serve lib) .empty (order.filter fun p => known p.1) = some r ∧
      r.dataStorage = s.dataStorage ∧ r.sent = s.sent.filter fun p => known p.1 := by
  have hother : ∀ (s : StorageServer I) (p : I × Bytes) (kept : Bool), known p.1 = kept →
      (s.responded lib p).sent.filter (fun q => known q.1) = s.sent.filter (fun q => known q.1) ++
        if kept then ((respond s.dataStorage (lib.parse p.2)).2.map fun json => (p.1, text lib json))
        else [] := by
    intro s p kept hp
    cases kept <;> simp [StorageServer.responded, StorageServer.reply, List.filter_map,
      Function.comp_def, hp]
  have hrelated : ∃ r, run (serve lib) .empty (order.filter fun p => known p.1) = some r ∧
      Servable s.dataStorage ∧ r.dataStorage = s.dataStorage ∧
      r.sent = s.sent.filter fun p => known p.1 := by
    refine run_of_unwinding (R := fun s r => Servable s.dataStorage ∧ r.dataStorage = s.dataStorage ∧
      r.sent = s.sent.filter fun p => known p.1)
      (A := fun p => known p.1 = false → ∀ key value, ¬ WriteRequest lib p.2 key value)
      ?_ ?_ ⟨empty_servable, rfl, rfl⟩ hquiet hrun
    · intro s r p s' hR _ hkeep hs
      obtain ⟨hservable, hdata, hsent⟩ := hR
      rw [serve_eq laws p hservable] at hs
      cases hs
      have hr : Servable r.dataStorage := by rw [hdata]; exact hservable
      refine ⟨r.responded lib p, serve_eq laws p hr, servable_respond laws hservable p.2, ?_, ?_⟩
      · show (respond r.dataStorage (lib.parse p.2)).1 = (respond s.dataStorage (lib.parse p.2)).1
        rw [hdata]
      · rw [hother s p true hkeep, ← hsent, ← hdata]
        simp [StorageServer.responded, StorageServer.reply]
    · intro s r p s' hR hwrites hdrop hs
      obtain ⟨hservable, hdata, hsent⟩ := hR
      rw [serve_eq laws p hservable] at hs
      cases hs
      refine ⟨servable_respond laws hservable p.2, ?_, ?_⟩
      · show r.dataStorage = (respond s.dataStorage (lib.parse p.2)).1
        rw [respond_data, hdata]
        cases hcommand : commandOf (lib.parse p.2) with
        | none => rfl
        | some command =>
          cases command with
          | read key => rfl
          | write key value => exact absurd (write_of_commandOf hcommand) (hwrites hdrop key value)
      · rw [hother s p false hdrop, hsent]
        simp
  obtain ⟨r, hr, -, hdata, hsent⟩ := hrelated
  exact ⟨r, hr, hdata, hsent⟩

theorem requestsOf_known {known : I → Bool} {i : I} (h : known i = true) :
    requestsOf i (order.filter fun p => known p.1) = requestsOf i order := by
  unfold requestsOf
  rw [List.filter_filter]
  congr 1
  refine List.filter_congr fun p _ => ?_
  by_cases hp : p.1 = i
  · simp [hp, h]
  · simp [hp]

/-- The server as its known peers know it: `order` are their requests, and nobody else's. -/
structure AsIfAlone (lib : JsonLib) (known : I → Bool) (t : OpenServer I) (order : List (I × Bytes)) :
    Prop where
  others : ∀ p ∈ order, known p.1 = true
  sequential : ∃ s, run (serve lib) .empty order = some s ∧ s.dataStorage = t.server.dataStorage ∧
    s.sent = t.server.sent.filter fun p => known p.1
  requests : ∀ i, known i = true → requestsOf i order <+: t.heard i
  registered : ∀ i ∈ t.connections, known i = true → t.loop ≠ some i → requestsOf i order = t.heard i
  clients : ∀ i, known i = true → ∀ msgs : List StdString,
    (t.chunks i).flatten <+: (msgs.map frame).flatten → requestsOf i order <+: nonEmpty msgs
  replies : ∀ p ∈ t.server.sent, known p.1 = true → ∃ before msg after reply,
    order = before ++ (p.1, msg) :: after ∧ p.2 = text lib reply ∧ Truthful lib before msg reply

/-- **Strangers go unnoticed.** In every run, whatever bytes are read from whom and in what order, if
none of the messages heard from the other peers is a request to write, then the storage and the replies
to the known peers are those of a server that has handled the requests of the known peers only, each of
them in the order of its lines. -/
theorem strangers_unnoticed (laws : JsonLaws lib) (as : List (Incident I)) (t : OpenServer I)
    (hrun : run (OpenServer.step lib) .started as = some t) (known : I → Bool)
    (hquiet : ∀ i, known i = false → ∀ msg ∈ t.heard i, ∀ key value, ¬ WriteRequest lib msg key value) :
    ∃ order, AsIfAlone lib known t order := by
  obtain ⟨order, h⟩ := serving_run laws hrun
  have hwrites : ∀ p ∈ order, known p.1 = false → ∀ key value, ¬ WriteRequest lib p.2 key value := by
    intro p hp hother
    have hrequest : p.2 ∈ requestsOf p.1 order :=
      List.mem_map.mpr ⟨p, List.mem_filter.mpr ⟨hp, by simp⟩, rfl⟩
    exact hquiet p.1 hother p.2 ((h.initial p.1).subset hrequest)
  obtain ⟨s, hs, hdata, hsent⟩ := serve_without laws known h.sequential hwrites
  have hinitial : ∀ i, known i = true →
      requestsOf i (order.filter fun p => known p.1) <+: t.heard i := by
    intro i hi
    rw [requestsOf_known hi]
    exact h.initial i
  refine ⟨order.filter fun p => known p.1, ?_, ⟨s, hs, hdata, hsent⟩, hinitial, ?_, ?_, ?_⟩
  · exact fun p hp => by simpa using (List.mem_filter.mp hp).2
  · intro i hmem hi hloop
    have hall := h.all i hmem
    rw [OpenServer.pending, if_neg hloop, List.append_nil] at hall
    rw [requestsOf_known hi, hall]
  · exact fun i hi msgs hmsgs => (hinitial i hi).trans (reference_initial hmsgs)
  · intro p hp hi
    apply sent_of_run laws hs
    rw [hsent]
    exact List.mem_filter.mpr ⟨hp, by simpa using hi⟩

end Serving

/-! ## A run -/

/-- The peer `false` sends lines that are no requests, in two reads that cut a line, `true` writes a
value. -/
def strangerBesides : List (Incident Bool) :=
  [.accept true, .accept false, .read false (ascii "%%%%\nabc\nAA"), .handle, .finish,
    .read true (frame writeRequest), .handle, .finish, .read false (ascii "AA\n"), .handle, .finish]

theorem strangers_unnoticed_besides : ∃ t : OpenServer Bool, ∃ order,
    run (OpenServer.step sampleLib) .started strangerBesides = some t ∧
      t.server.sent.length = 3 ∧ AsIfAlone sampleLib (fun i => i) t order ∧
      requestsOf true order = [writeText] := by
  have hruns : ((run (OpenServer.step sampleLib) .started strangerBesides).map fun t =>
      decide (t.server.sent.length = 3 ∧ t.heard true = [writeText] ∧ true ∈ t.connections ∧
        t.loop = none ∧ ∀ msg ∈ t.heard false, (commandOf (sampleLib.parse msg)).isNone = true)) =
      some true := by
    decide +kernel
  obtain ⟨t, ht, hdecide⟩ := Option.map_eq_some_iff.mp hruns
  obtain ⟨hsent, hheard, hmem, hidle, hnone⟩ := of_decide_eq_true hdecide
  obtain ⟨order, h⟩ := strangers_unnoticed sampleLib_laws strangerBesides t ht (fun i => i) (by
    intro i hi msg hmsg key value hwrite
    subst hi
    have hcommand := hnone msg hmsg
    rw [commandOf_write hwrite] at hcommand
    cases hcommand)
  refine ⟨t, order, ht, hsent, h, ?_⟩
  rw [h.registered true hmem rfl (by simp [hidle]), hheard]

end Diginext.EndToEnd
