import Diginext.Foundations.Transition
import Diginext.Tcp.Framing

/-! # The answer and the last request

`core/src/Storage/StorageClient.cpp`, one client on one connection. `send` leaves `answer` as it is and
`handle_read_message` overwrites it, so `getAnswer` tells the last non-empty reply that has been read,
whichever request it is for (`Reads`). It is the reply to the last request as long as every `send` and
every message read is `Timely` (`answers_latest`), and up to the second request (`first_answer`); `main`
takes a new client for each (`waitAnswer_first`).

The server is seen through `reply`: `reply i` is the text it sends for the i-th request, after the
request and in their order. The empty text stands for no reply, since the empty message is not delivered.
An access to `answer` is one step.
-/
namespace Diginext.Client
open Outcomes Cpp Tcp Transition
set_option autoImplicit false

/-- `replied` says how many of the requests the server has replied to, `stream` holds the bytes of these
replies. `messages` are those of the last read that are still to be passed to `handle_read_message`.
`chunks` and `passed` record what has been read and how many messages have been passed. -/
structure StorageClient where
  answer : Bytes
  requests : List StdString
  replied : ℕ
  stream : Bytes
  partMessage : Bytes
  messages : List Bytes
  chunks : List Bytes
  passed : ℕ
  deriving DecidableEq

inductive StorageAction where
  | send (msg : StdString)
  | reply
  | read (chunk : Bytes)
  | pass

namespace StorageClient

def connected : StorageClient where
  answer := []
  requests := []
  replied := 0
  stream := []
  partMessage := []
  messages := []
  chunks := []
  passed := 0

def send (s : StorageClient) (msg : StdString) : StorageClient :=
  { s with requests := s.requests ++ [msg] }

def getAnswer (s : StorageClient) : Bytes := s.answer

def handleReadMessage (s : StorageClient) (msg : Bytes) : StorageClient := { s with answer := msg }

variable (reply : ℕ → StdString)

def step (s : StorageClient) : StorageAction → Option StorageClient
  | .send msg => some (s.send msg)
  | .reply =>
    if s.replied < s.requests.length then
      match socketMsg (reply s.replied) with
      | .ok bytes => some { s with replied := s.replied + 1, stream := s.stream ++ bytes }
      | _ => none
    else none
  | .read chunk =>
    if s.messages = [] ∧ s.chunks.flatten ++ chunk <+: s.stream then
      match handleRead Base64.decode quiet s.partMessage chunk with
      | .ok r =>
        some { s with partMessage := r.partMessage, messages := r.raised, chunks := s.chunks ++ [chunk] }
      | _ => none
    else none
  | .pass =>
    match s.messages with
    | [] => none
    | msg :: messages =>
      some ({ s with messages := messages, passed := s.passed + 1 }.handleReadMessage msg)

/-! ## What the client should answer -/

/-- What `getAnswer` returns, if anything, is the reply to the last request. -/
def Current (s : StorageClient) : Prop :=
  s.requests ≠ [] → s.getAnswer ≠ [] → s.getAnswer = (reply (s.requests.length - 1)).bytes

/-- What the first `n` replies deliver. -/
def delivered (n : ℕ) : List Bytes := nonEmpty ((List.range n).map reply)

/-- A request is sent before any reply is read, or the last one read has the text of the reply to it; a
reply that is read is the one to the last request, or has its text. -/
def Timely (s : StorageClient) : StorageAction → Prop
  | .send _ => ∀ r ∈ ((delivered reply s.requests.length).take s.passed).getLast?,
      r = (reply s.requests.length).bytes
  | .pass => ∀ r ∈ (delivered reply s.requests.length)[s.passed]?,
      r = (reply (s.requests.length - 1)).bytes
  | _ => True

/-! ## What a step can do -/

inductive Steps (s : StorageClient) : StorageAction → StorageClient → Prop where
  | send (msg : StdString) : Steps s (.send msg) (s.send msg)
  | reply (hasked : s.replied < s.requests.length) :
    Steps s .reply
      { s with replied := s.replied + 1, stream := s.stream ++ frame (reply s.replied) }
  | read {chunk : Bytes} {r : ReadResult} (hdone : s.messages = [])
      (hreceived : s.chunks.flatten ++ chunk <+: s.stream)
      (hr : handleRead Base64.decode quiet s.partMessage chunk = .ok r) :
    Steps s (.read chunk)
      { s with partMessage := r.partMessage, messages := r.raised, chunks := s.chunks ++ [chunk] }
  | pass {msg : Bytes} {messages : List Bytes} (hmessages : s.messages = msg :: messages) :
    Steps s .pass { s with answer := msg, messages := messages, passed := s.passed + 1 }

variable {reply}

theorem steps_of_step {s s' : StorageClient} {a : StorageAction} (h : step reply s a = some s') :
    Steps reply s a s' := by
  cases a with
  | send msg =>
    cases h
    exact .send msg
  | reply =>
    simp only [step] at h
    split at h
    · rename_i hasked
      cases hmsg : socketMsg (reply s.replied) with
      | ok bytes =>
        rw [hmsg] at h
        cases h
        rw [socketMsg_frame hmsg]
        exact .reply hasked
      | throws e =>
        rw [hmsg] at h
        cases h
      | undefined =>
        rw [hmsg] at h
        cases h
    · cases h
  | read chunk =>
    simp only [step] at h
    split at h
    · rename_i hread
      cases hr : handleRead Base64.decode quiet s.partMessage chunk with
      | ok r =>
        rw [hr] at h
        cases h
        exact .read hread.1 hread.2 hr
      | throws e =>
        rw [hr] at h
        cases h
      | undefined =>
        rw [hr] at h
        cases h
    · cases h
  | pass =>
    simp only [step] at h
    split at h
    · cases h
    · rename_i msg messages hmessages
      cases h
      exact .pass hmessages

/-! ## What has been read -/

theorem frames_succ (n : ℕ) :
    (((List.range (n + 1)).map reply).map frame).flatten =
      (((List.range n).map reply).map frame).flatten ++ frame (reply n) := by
  rw [List.range_succ, List.map_append, List.map_append, List.flatten_append]
  simp

theorem delivered_initial {m n : ℕ} (h : m ≤ n) : delivered reply m <+: delivered reply n := by
  obtain ⟨k, rfl⟩ := Nat.exists_eq_add_of_le h
  rw [delivered, delivered, List.range_add, List.map_append, nonEmpty_append]
  exact List.prefix_append _ _

theorem ne_nil_of_mem_delivered {n : ℕ} {r : Bytes} (h : r ∈ delivered reply n) : r ≠ [] := by
  have hr := (List.mem_filter.mp h).2
  simpa using hr

variable (reply)

/-- The reads so far have delivered the messages already passed, of which `answer` is the last, and those
still to be passed. -/
structure Reads (s : StorageClient) : Prop where
  asked : s.replied ≤ s.requests.length
  stream : s.stream = (((List.range s.replied).map reply).map frame).flatten
  received : s.chunks.flatten <+: s.stream
  shown : ∃ shown, receive Base64.decode [] s.chunks = .ok (shown ++ s.messages, s.partMessage) ∧
    shown.length = s.passed ∧ s.answer = shown.getLast?.getD []

variable {reply}

theorem reads_connected : Reads reply connected where
  asked := Nat.le_refl _
  stream := rfl
  received := List.prefix_refl _
  shown := ⟨[], rfl, rfl, rfl⟩

theorem reads_step {s s' : StorageClient} {a : StorageAction} (h : Reads reply s)
    (hs : Steps reply s a s') : Reads reply s' := by
  obtain ⟨shown, hreceive, hlength, hanswer⟩ := h.shown
  induction hs with
  | send msg =>
    refine ⟨?_, h.stream, h.received, h.shown⟩
    have hasked := h.asked
    simp only [send, List.length_append]
    omega
  | reply hasked =>
    refine ⟨hasked, ?_, ?_, h.shown⟩
    · show s.stream ++ frame (reply s.replied) = _
      rw [frames_succ, h.stream]
    · exact h.received.trans (List.prefix_append _ _)
  | read hdone hreceived hr =>
    refine ⟨h.asked, h.stream, by simpa using hreceived, shown, ?_, hlength, hanswer⟩
    rw [hdone, List.append_nil] at hreceive
    exact receive_concat hreceive hr
  | pass hmessages =>
    rename_i msg messages
    refine ⟨h.asked, h.stream, h.received, shown ++ [msg], ?_, by simp [hlength], by simp⟩
    rw [hreceive, hmessages, List.append_assoc, List.singleton_append]

/-- The messages passed and to be passed are the first of the replies to the requests. -/
theorem shown_delivered {s : StorageClient} (h : Reads reply s) :
    s.answer = ((delivered reply s.requests.length).take s.passed).getLast?.getD [] ∧
      ∀ msg messages, s.messages = msg :: messages →
        (delivered reply s.requests.length)[s.passed]? = some msg := by
  obtain ⟨shown, hreceive, hlength, hanswer⟩ := h.shown
  have hreceived := h.received
  rw [h.stream] at hreceived
  have hshown : shown ++ s.messages <+: delivered reply s.requests.length :=
    (received_nonEmpty hreceived hreceive).trans (delivered_initial h.asked)
  obtain ⟨rest, hrest⟩ := hshown
  rw [← hrest, ← hlength, List.append_assoc]
  refine ⟨by rw [List.take_left, hanswer], ?_⟩
  intro msg messages hmessages
  rw [hmessages]
  simp

/-! ## The condition -/

/-- A step that leads from a current answer leads to one exactly if it is timely. -/
theorem current_step {s s' : StorageClient} {a : StorageAction} (h : Reads reply s)
    (hcurrent : Current reply s) (hs : Steps reply s a s') : Current reply s' ↔ Timely reply s a := by
  obtain ⟨hanswer, hnext⟩ := shown_delivered h
  induction hs with
  | send msg =>
    simp only [Current, Timely, send, getAnswer, hanswer]
    cases hlast : ((delivered reply s.requests.length).take s.passed).getLast? with
    | none => simp
    | some r =>
      have hmem := List.mem_of_mem_take (List.mem_of_getLast? hlast)
      simp [ne_nil_of_mem_delivered hmem]
  | reply hasked =>
    exact iff_of_true hcurrent trivial
  | read hdone hreceived hr =>
    exact iff_of_true hcurrent trivial
  | pass hmessages =>
    rename_i msg messages
    have hmsg := hnext msg messages hmessages
    have hmem := List.mem_of_getElem? hmsg
    have hasked : s.requests ≠ [] := by
      intro hnil
      rw [hnil] at hmem
      cases hmem
    simp [Current, Timely, getAnswer, hmsg, hasked, ne_nil_of_mem_delivered hmem]

theorem answers_latest (reply : ℕ → StdString) (as : List StorageAction) :
    Along (step reply) (Current reply) connected as ↔
      Meets (step reply) (Timely reply) connected as := by
  have hfirst : Reads reply connected ∧ Current reply connected :=
    ⟨reads_connected, fun hasked => absurd rfl hasked⟩
  have hstep : ∀ s a s', Reads reply s ∧ Current reply s → Timely reply s a →
      step reply s a = some s' → Reads reply s' ∧ Current reply s' := by
    intro s a s' ⟨hreads, hcurrent⟩ htimely hs
    have hs' := steps_of_step hs
    exact ⟨reads_step hreads hs', (current_step hreads hcurrent hs').mpr htimely⟩
  constructor
  · intro h
    refine meets_of_along hstep ?_ hfirst h
    intro s a s' ⟨hreads, hcurrent⟩ htimely hs hcurrent'
    exact htimely ((current_step hreads hcurrent (steps_of_step hs)).mp hcurrent')
  · intro h
    exact (along_of_meets hstep hfirst h).mono fun s hs => hs.2

/-- The answer to a first request is read, and a second request is sent. -/
def asksAgain : List StorageAction :=
  [.send letters, .reply, .read (ascii "YWJj\n"), .pass, .send letters]

def repliesOnce : ℕ → StdString
  | 0 => letters
  | _ + 1 => ⟨[], Nat.zero_le _⟩

theorem answer_outdated : ¬ ∀ (reply : ℕ → StdString) (as : List StorageAction),
    Along (step reply) (Current reply) connected as := by
  intro h
  have hrun : ((run (step repliesOnce) connected asksAgain).map fun s => (s.requests, s.answer)) =
      some ([letters, letters], letters.bytes) := by decide +kernel
  obtain ⟨s, hs, hstate⟩ := Option.map_eq_some_iff.mp hrun
  obtain ⟨hrequests, hanswer⟩ : s.requests = [letters, letters] ∧ s.answer = letters.bytes :=
    Prod.ext_iff.mp hstate
  have hcurrent := (h repliesOnce asksAgain).last hs
  simp only [Current, getAnswer, hrequests, hanswer] at hcurrent
  exact absurd (hcurrent (by decide) (by decide)) (by decide)

/-! ## A client for one request -/

theorem first_answer (reply : ℕ → StdString) (as : List StorageAction) :
    Along (step reply) (fun s => s.requests.length ≤ 1 → Current reply s) connected as := by
  have hreads : Along (step reply) (Reads reply) connected as :=
    along_invariant (fun s a s' h hs => reads_step h (steps_of_step hs)) as reads_connected
  refine hreads.mono fun s h hone hasked hanswered => ?_
  have hlength : s.requests.length = 1 := by
    have hpos := List.length_pos_iff.mpr hasked
    omega
  obtain ⟨hanswer, -⟩ := shown_delivered h
  rw [hlength] at hanswer ⊢
  rw [getAnswer, hanswer] at hanswered ⊢
  cases hlast : ((delivered reply 1).take s.passed).getLast? with
  | none =>
    rw [hlast] at hanswered
    exact absurd rfl hanswered
  | some r =>
    have hmem := List.mem_of_mem_take (List.mem_of_getLast? hlast)
    have hall := (List.mem_filter.mp hmem).1
    simpa using hall

/-- `waitAnswer` of the client's `main`: what it prints, `looks` being the client at the times when it
asks. -/
def waitAnswer (looks : List StorageClient) (MAX_COUNT : ℕ := 15) : Option Bytes :=
  ((looks.take MAX_COUNT).map getAnswer).find? fun answer => answer ≠ []

/-- What `main` prints for a request is the reply to it. -/
theorem waitAnswer_first {looks : List StorageClient} {MAX_COUNT : ℕ} {answer : Bytes}
    (hlooks : ∀ s ∈ looks, s.requests.length = 1 ∧ ∃ as, run (step reply) connected as = some s)
    (h : waitAnswer looks MAX_COUNT = some answer) : answer = (reply 0).bytes := by
  have hanswered : answer ≠ [] := by simpa using List.find?_some h
  obtain ⟨s, hs, rfl⟩ := List.mem_map.mp (List.mem_of_find?_eq_some h)
  obtain ⟨hone, as, has⟩ := hlooks s (List.mem_of_mem_take hs)
  have hasked : s.requests ≠ [] := List.ne_nil_of_length_eq_add_one hone
  have hcurrent := (first_answer reply as).last has (Nat.le_of_eq hone)
  have hreply := hcurrent hasked hanswered
  rwa [hone] at hreply

end StorageClient

end Diginext.Client
