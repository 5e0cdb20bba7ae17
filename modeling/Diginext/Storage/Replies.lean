import Diginext.Storage.Semantics

/-! # Replies per message

A report of a missing field does not leave `handle_read_message`, so the handler goes on to the read of
the field, which throws, and the catch-all sends another reply. `respond_replies` counts the replies to
one message; a connection gets one for each of its messages exactly if all of them are `Answerable`.
-/
namespace Diginext.Storage
open Cpp Effects Transition
set_option autoImplicit false

variable {C : Type} {lib : JsonLib}

/-- The message does not parse, or none of the fields that the handler asks for is missing. -/
def Answerable (lib : JsonLib) (msg : Bytes) : Prop :=
  ∀ json, lib.parse msg = .ok json →
    json.contains keyRequest = true ∧ json.contains keyKey = true ∧
      (json.field keyRequest = some requestWrite → (json.field keyKey).isSome = true →
        json.contains keyValue = true)

/-! ## One message -/

theorem report_length (json : Json) (key named : Bytes) :
    (report json key named).length = if json.contains key then 0 else 1 := by
  unfold report
  split <;> rfl

/-- A message is answered once exactly if it is answerable. -/
theorem respond_replies (lib : JsonLib) (data : Bytes → Option Bytes) (msg : Bytes) :
    (respond data (lib.parse msg)).2.length = 1 ↔ Answerable lib msg := by
  unfold Answerable
  cases hjson : lib.parse msg with
  | error e => simp [respond]
  | ok json =>
    simp only [Except.ok.injEq, forall_eq']
    cases hrequest : json.field keyRequest with
    | none =>
      simp only [respond, hrequest, List.length_append, report_length, List.length_singleton]
      cases json.contains keyRequest <;> cases json.contains keyKey <;> simp
    | some request =>
      have hcontains := Json.contains_of_field hrequest
      cases hkey : json.field keyKey with
      | none => simp [respond, hrequest, hkey, report_length, hcontains]
      | some key =>
        have hcontains' := Json.contains_of_field hkey
        by_cases hread : request = requestRead
        · have hne : requestRead ≠ requestWrite := by decide
          cases hdata : data key <;>
            simp [respond, hrequest, hkey, hread, hdata, report_length, hcontains, hcontains', hne]
        by_cases hwrite : request = requestWrite
        · have hne : requestWrite ≠ requestRead := by decide
          cases hvalue : json.field keyValue with
          | none =>
            simp [respond, hrequest, hkey, hwrite, hne, hvalue, report_length, hcontains, hcontains']
          | some value =>
            have hcontains'' := Json.contains_of_field hvalue
            simp [respond, hrequest, hkey, hwrite, hne, hvalue, report_length, hcontains, hcontains',
              hcontains'']
        · simp [respond, hrequest, hkey, hread, hwrite, report_length, hcontains, hcontains']

/-! ## Whole runs -/

section Runs
variable [DecidableEq C]

def count (connection : C) (messages : List (C × Bytes)) : ℕ :=
  messages.countP fun message => message.1 = connection

theorem count_responded (lib : JsonLib) (connection : C) (s : StorageServer C) (message : C × Bytes) :
    count connection (s.responded lib message).sent = count connection s.sent +
      if message.1 = connection then (respond s.dataStorage (lib.parse message.2)).2.length else 0 := by
  unfold count StorageServer.responded StorageServer.reply
  rw [List.countP_append, List.countP_map]
  split
  · rename_i h
    simp [Function.comp_def, h]
  · rename_i h
    simp [Function.comp_def, h]

theorem count_cons (connection : C) (message : C × Bytes) (messages : List (C × Bytes)) :
    count connection (message :: messages) =
      (if message.1 = connection then 1 else 0) + count connection messages := by
  rw [count, List.countP_cons, count, Nat.add_comm]
  simp

/-- After each message of the history, as many replies have been sent to the connection as messages
have been received on it. -/
def OneEach (lib : JsonLib) (connection : C) (s : StorageServer C) (history : List (C × Bytes)) :
    Prop :=
  ∀ n ≤ history.length, ∃ s', run (serve lib) s (history.take n) = some s' ∧
    count connection s'.sent = count connection s.sent + count connection (history.take n)

theorem oneEach_cons (laws : JsonLaws lib) (connection : C) {s : StorageServer C}
    (hs : Servable s.dataStorage) (message : C × Bytes) (history : List (C × Bytes)) :
    OneEach lib connection s (message :: history) ↔
      (message.1 = connection → Answerable lib message.2) ∧
        OneEach lib connection (s.responded lib message) history := by
  have hstep := serve_eq laws message hs
  have hcount := count_responded lib connection s message
  have hreplies := respond_replies lib s.dataStorage message.2
  constructor
  · intro h
    obtain ⟨s₁, hrun, hone⟩ := h 1 (by simp)
    have hs₁ : s₁ = s.responded lib message := by
      rw [List.take_succ_cons, List.take_zero, run_cons hstep, run_nil] at hrun
      exact (Option.some.inj hrun).symm
    rw [List.take_succ_cons, List.take_zero, count_cons, hs₁] at hone
    have hfirst : count connection (s.responded lib message).sent =
        count connection s.sent + if message.1 = connection then 1 else 0 := by simpa [count] using hone
    refine ⟨?_, ?_⟩
    · intro hconnection
      rw [hcount, if_pos hconnection, if_pos hconnection] at hfirst
      exact hreplies.mp (by omega)
    · intro n hn
      obtain ⟨s', hrun', hcount'⟩ := h (n + 1) (by simpa using hn)
      rw [List.take_succ_cons] at hrun' hcount'
      rw [run_cons hstep] at hrun'
      rw [count_cons] at hcount'
      exact ⟨s', hrun', by omega⟩
  · rintro ⟨hanswerable, hrest⟩ n hn
    cases n with
    | zero => exact ⟨s, rfl, rfl⟩
    | succ n =>
      obtain ⟨s', hrun', hcount'⟩ := hrest n (by simpa using hn)
      refine ⟨s', ?_, ?_⟩
      · rw [List.take_succ_cons, run_cons hstep, hrun']
      · rw [List.take_succ_cons, count_cons, hcount', hcount]
        by_cases hconnection : message.1 = connection
        · rw [if_pos hconnection, if_pos hconnection, hreplies.mpr (hanswerable hconnection)]
          omega
        · rw [if_neg hconnection, if_neg hconnection]
          omega

theorem oneEach_iff (laws : JsonLaws lib) (connection : C) (history : List (C × Bytes))
    {s : StorageServer C} (hs : Servable s.dataStorage) :
    OneEach lib connection s history ↔
      ∀ msg, (connection, msg) ∈ history → Answerable lib msg := by
  induction history generalizing s with
  | nil =>
    constructor
    · intro _ msg hmsg
      cases hmsg
    · intro _ n hn
      have hzero : n = 0 := by simpa using hn
      subst hzero
      exact ⟨s, rfl, rfl⟩
  | cons message history ih =>
    have hs' : Servable (s.responded lib message).dataStorage := servable_respond laws hs message.2
    rw [oneEach_cons laws connection hs, ih hs']
    constructor
    · rintro ⟨hfirst, hrest⟩ msg hmsg
      rcases List.mem_cons.mp hmsg with hmsg | hmsg
      · rw [← hmsg] at hfirst
        exact hfirst rfl
      · exact hrest msg hmsg
    · intro h
      refine ⟨?_, fun msg hmsg => h msg (List.mem_cons_of_mem _ hmsg)⟩
      intro hconnection
      apply h message.2
      rw [← hconnection]
      exact List.mem_cons_self ..

/-- **One reply per request** exactly if every message received on the connection is answerable,
whatever is received on other connections in between. -/
theorem one_reply_iff (laws : JsonLaws lib) (connection : C) (history : List (C × Bytes)) :
    OneEach lib connection StorageServer.empty history ↔
      ∀ msg, (connection, msg) ∈ history → Answerable lib msg :=
  oneEach_iff laws connection history empty_servable

theorem one_reply_iff_sample : OneEach sampleLib 1 StorageServer.empty [(1, writeText), (2, readText)] ↔
    ∀ msg, ((1 : ℕ), msg) ∈ [(1, writeText), (2, readText)] → Answerable sampleLib msg :=
  one_reply_iff sampleLib_laws 1 [(1, writeText), (2, readText)]

/-- The empty object is answered three times: no request, no key, and the catch-all. -/
theorem three_replies : ¬ ∀ lib : JsonLib, JsonLaws lib → ∀ (connection : ℕ)
    (history : List (ℕ × Bytes)), OneEach lib connection StorageServer.empty history := by
  intro h
  obtain ⟨s, hrun, hcount⟩ := h sampleLib sampleLib_laws 1 [(1, ascii "\x7b\x7d")] 1 (by simp)
  have hthree : ((run (serve sampleLib) StorageServer.empty [(1, ascii "\x7b\x7d")]).map fun s =>
      count 1 s.sent) = some 3 := by decide +kernel
  rw [List.take_succ_cons, List.take_zero] at hrun hcount
  rw [hrun] at hthree
  have hone : count 1 s.sent = 1 := hcount
  simp [hone] at hthree

end Runs

end Diginext.Storage
