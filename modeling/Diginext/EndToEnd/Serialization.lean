import Diginext.EndToEnd.Refinement
import Diginext.Storage.Linearization

/-! # One order of all requests

The requests that reach `handle_read_message` have an order, and the server is where the same requests
handled one after the other have brought it. Of each client it is the order in which `send` queued them,
and what the clients receive are the first of the replies sent to them (`Accounts`). The order only grows
(`one_order`), so a request that is queued when a reply is received comes after the request of the reply.
-/
namespace Diginext.EndToEnd
open Cpp Outcomes Storage Tcp Transition Service KeyValue
set_option autoImplicit false

variable {I T : Type} [DecidableEq I] {lib : JsonLib}

/-- The history brings the server where it is, and accounts for what all clients have received. -/
structure Accounts (lib : JsonLib) (t : Network I T) (history : List (I × Bytes)) : Prop where
  sequential : run (serve lib) .empty history = some t.server
  requests : ∀ i, requestsOf i history <+: nonEmpty (t.up i).queued
  registered : ∀ i ∈ t.connections, requestsOf i history = (t.up i).raised
  replies : ∀ i, (t.down i).raised <+: (Interleaved.replies t.server i).flatMap delivers

/-! ## The replies of the sequential server -/

theorem replies_responded (lib : JsonLib) (s : StorageServer I) (i j : I) (msg : Bytes) :
    (Interleaved.replies (s.responded lib (j, msg)) i).flatMap delivers =
      (Interleaved.replies s i).flatMap delivers ++
        if j = i then (handle lib s.dataStorage msg).2 else [] := by
  have hsent : (s.responded lib (j, msg)).sent = s.sent ++
      ((respond s.dataStorage (lib.parse msg)).2.map (text lib)).map fun text => (j, text) := by
    simp [StorageServer.responded, StorageServer.reply, Function.comp_def]
  by_cases hj : j = i
  · subst hj
    have hnew : Interleaved.replies (s.responded lib (j, msg)) j = Interleaved.replies s j ++
        (respond s.dataStorage (lib.parse msg)).2.map (text lib) := by
      rw [← Interleaved.replies_append_self s j, Interleaved.replies, hsent]
      rfl
    rw [hnew, List.flatMap_append, if_pos rfl]
    rfl
  · have hsame : Interleaved.replies (s.responded lib (j, msg)) i = Interleaved.replies s i := by
      rw [← Interleaved.replies_append_of_ne s hj, Interleaved.replies, hsent]
      rfl
    rw [hsame, if_neg hj, List.append_nil]

theorem answers_of_run (laws : JsonLaws lib) {history : List (I × Bytes)} {s s' : StorageServer I}
    (hs : Servable s.dataStorage) (hr : run (serve lib) s history = some s') (i : I) :
    (Interleaved.replies s' i).flatMap delivers = (Interleaved.replies s i).flatMap delivers ++
      answers (handle lib) i s.dataStorage history := by
  induction history generalizing s with
  | nil =>
    have heq : s = s' := by simpa using hr
    rw [heq, answers, List.append_nil]
  | cons message history ih =>
    obtain ⟨j, msg⟩ := message
    rw [run_cons (serve_eq laws (j, msg) hs)] at hr
    have hdata : (s.responded lib (j, msg)).dataStorage = (handle lib s.dataStorage msg).1 := rfl
    rw [ih (servable_respond laws hs msg) hr, answers, replies_responded, hdata, List.append_assoc]

omit [DecidableEq I] in
theorem replay_eq_lastWrite (lib : JsonLib) (history : List (I × Bytes)) :
    replay (handle lib) (fun _ => none) history = lastWrite (commands lib history) := by
  rw [← contents_eq_lastWrite, contents]
  have hfold : ∀ data : Contents, replay (handle lib) data history =
      (commands lib history).foldl (fun data command => command.apply data) data := by
    induction history with
    | nil => exact fun data => rfl
    | cons message history ih =>
      intro data
      have hfirst : (handle lib data message.2).1 = (respond data (lib.parse message.2)).1 := rfl
      rw [replay, List.foldl_cons, ← replay, ih, hfirst, respond_data, commands, commands,
        List.filterMap_cons]
      cases commandOf (lib.parse message.2) <;> rfl
  exact hfold _

/-! ## The accounts of the network -/

theorem Simulates.accounts (laws : JsonLaws lib) {t : Network I T}
    {u : Service.State I Bytes Bytes Contents} (h : Simulates lib t u)
    (hs : Serialized (handle lib) (fun _ => none) u) : Accounts lib t u.served where
  sequential := h.sequential
  requests := by
    intro i
    rw [← h.submitted i, hs.requests i, List.append_assoc]
    exact List.prefix_append _ _
  registered := by
    intro i hi
    have hopen : u.closed i = false := by simp [h.closed i, hi]
    have hrequests := hs.requests i
    rw [h.submitted i, hs.kept i hopen, List.append_nil, ← h.waiting i] at hrequests
    exact (List.append_cancel_right hrequests).symm
  replies := by
    intro i
    have hanswers := answers_of_run laws empty_servable h.sequential i
    have hnone : Interleaved.replies (StorageServer.empty : StorageServer I) i = [] := rfl
    rw [hnone, List.flatMap_nil, List.nil_append] at hanswers
    have hreplies := hs.replies i
    rw [h.received i] at hreplies
    rw [hanswers]
    exact ⟨u.answered i, hreplies⟩

variable [DecidableEq T]

theorem nonEmpty_readText {link : Link Unit} (h : link.queued.map StdString.bytes = [readText]) :
    nonEmpty link.queued = [readText] := by
  rw [nonEmpty, h]
  decide

theorem replies_valueReply {s : StorageServer (Fin 2)}
    (h : s.sent = [(0, okReply.bytes), (1, valueReply.bytes)]) :
    Interleaved.replies s 1 = [valueReply.bytes] := by
  simp [Interleaved.replies, h]

theorem delivers_valueReply : delivers valueReply.bytes = [valueReply.bytes] := by
  decide +kernel

end Diginext.EndToEnd
