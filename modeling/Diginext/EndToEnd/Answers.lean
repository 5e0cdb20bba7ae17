import Diginext.EndToEnd.Serialization
import Diginext.Storage.Replies

/-! # What the replies tell

Every reply that a client receives is the reply to a request of its own, and tells the truth about the
requests handled before that one, of all clients (`Truthful`, `replies_truthful`). As long as the
requests of a client are all `Answerable`, its n-th reply is the reply to its n-th request (`nth_reply`),
so a client program that sends a single request prints the reply to it or nothing (`printed_answer`).
All this where the sockets send nothing more once something is missing on the wire (`SocketsStop`), those
of the other connections included: their requests change what the storage answers.
-/
namespace Diginext.EndToEnd
open Cpp Outcomes Storage Tcp Transition Service KeyValue
set_option autoImplicit false

variable {I T : Type} [DecidableEq I] {lib : JsonLib}

/-- What the reply to a message says when the requests `before` it have been handled. A value that is
read has been written. -/
structure Truthful (lib : JsonLib) (before : List (I × Bytes)) (msg : Bytes) (reply : Json) : Prop where
  read : ∀ key, ReadRequest lib msg key →
    (∀ p ∈ before, ∀ value, ¬ WriteRequest lib p.2 key value) ∧ reply = keyNotFound ∨
    ∃ value, lastWrite (commands lib before) key = some value ∧ reply = okRead value ∧
      ∃ p ∈ before, WriteRequest lib p.2 key value
  write : ∀ key value, WriteRequest lib msg key value → reply = okWrite
  other : (∀ key, ¬ ReadRequest lib msg key) → (∀ key value, ¬ WriteRequest lib msg key value) →
    ∃ description, reply = errorStatus description

/-! ## One message -/

theorem respond_other (data : Contents) {parsed : Except JsonException Json}
    (h : commandOf parsed = none) :
    ∀ reply ∈ (respond data parsed).2, ∃ description, reply = errorStatus description := by
  have hreport : ∀ json key named, ∀ reply ∈ report json key named,
      ∃ description, reply = errorStatus description := by
    intro json key named reply hreply
    unfold report at hreply
    split at hreply
    · cases hreply
    · exact ⟨notFound named, List.mem_singleton.mp hreply⟩
  have herror : ∀ reply ∈ [parseError], ∃ description, reply = errorStatus description :=
    fun reply hreply => ⟨_, List.mem_singleton.mp hreply⟩
  cases parsed with
  | error e => exact herror
  | ok json =>
    intro reply hreply
    simp only [respond] at hreply
    simp only [commandOf] at h
    split at hreply
    · rename_i request key hrequest hkey
      simp only [hrequest, hkey] at h
      split at hreply
      · rename_i hread
        simp [hread] at h
      · rename_i hread
        split at hreply
        · rename_i hwrite
          cases hvalue : json.field keyValue with
          | some value =>
            rw [if_neg hread, if_pos hwrite, hvalue] at h
            cases h
          | none =>
            simp only [hvalue, List.mem_append] at hreply
            rcases hreply with ((hreply | hreply) | hreply) | hreply
            · exact hreport _ _ _ _ hreply
            · exact hreport _ _ _ _ hreply
            · exact hreport _ _ _ _ hreply
            · exact herror _ hreply
        · simp only [List.mem_append] at hreply
          rcases hreply with (hreply | hreply) | hreply
          · exact hreport _ _ _ _ hreply
          · exact hreport _ _ _ _ hreply
          · exact ⟨_, List.mem_singleton.mp hreply⟩
    · simp only [List.mem_append] at hreply
      rcases hreply with (hreply | hreply) | hreply
      · exact hreport _ _ _ _ hreply
      · exact hreport _ _ _ _ hreply
      · exact herror _ hreply

theorem read_of_commandOf {msg key : Bytes} (h : commandOf (lib.parse msg) = some (.read key)) :
    ReadRequest lib msg key := by
  cases hjson : lib.parse msg with
  | error e => simp [commandOf, hjson] at h
  | ok json =>
    simp only [commandOf, hjson] at h
    split at h
    · rename_i request key' hrequest hkey
      split at h
      · rename_i hread
        cases h
        exact ⟨json, hjson, by rw [hrequest, hread], hkey⟩
      · split at h
        · obtain ⟨value, -, hcommand⟩ := Option.map_eq_some_iff.mp h
          cases hcommand
        · cases h
    · cases h

omit [DecidableEq I] in
theorem write_of_lastWrite {before : List (I × Bytes)} {key value : Bytes}
    (h : lastWrite (commands lib before) key = some value) :
    ∃ p ∈ before, WriteRequest lib p.2 key value := by
  obtain ⟨p, hp, hcommand⟩ := List.mem_filterMap.mp (lastWrite_mem h)
  exact ⟨p, hp, write_of_commandOf hcommand⟩

omit [DecidableEq I] in
theorem no_write_of_lastWrite {before : List (I × Bytes)} {key : Bytes}
    (h : lastWrite (commands lib before) key = none) :
    ∀ p ∈ before, ∀ value, ¬ WriteRequest lib p.2 key value := by
  intro p hp value hwrite
  have hmem : Command.write key value ∈ commands lib before :=
    List.mem_filterMap.mpr ⟨p, hp, commandOf_write hwrite⟩
  have hnone := List.findSome?_eq_none_iff.mp h _ (List.mem_reverse.mpr hmem)
  simp [Command.stored] at hnone

omit [DecidableEq I] in
/-- The handler tells the truth. -/
theorem respond_truthful {before : List (I × Bytes)} {msg : Bytes} {reply : Json}
    (h : reply ∈ (respond (lastWrite (commands lib before)) (lib.parse msg)).2) :
    Truthful lib before msg reply where
  read := by
    intro key hread
    rw [respond_read _ hread, List.mem_singleton] at h
    cases hkey : lastWrite (commands lib before) key with
    | none =>
      rw [hkey] at h
      exact Or.inl ⟨no_write_of_lastWrite hkey, h⟩
    | some value =>
      rw [hkey] at h
      exact Or.inr ⟨value, rfl, h, write_of_lastWrite hkey⟩
  write := by
    intro key value hwrite
    rw [respond_write _ hwrite] at h
    exact List.mem_singleton.mp h
  other := by
    intro hread hwrite
    refine respond_other _ ?_ reply h
    cases hcommand : commandOf (lib.parse msg) with
    | none => rfl
    | some command =>
      cases command with
      | read key => exact absurd (read_of_commandOf hcommand) (hread key)
      | write key value => exact absurd (write_of_commandOf hcommand) (hwrite key value)

omit [DecidableEq I] in
/-- Every reply of the sequential server is the reply to a request. -/
theorem sent_of_run (laws : JsonLaws lib) {order : List (I × Bytes)} {s : StorageServer I}
    (hrun : run (serve lib) .empty order = some s) :
    ∀ p ∈ s.sent, ∃ before msg after reply, order = before ++ (p.1, msg) :: after ∧
      p.2 = text lib reply ∧ Truthful lib before msg reply := by
  induction order using List.reverseRecOn generalizing s with
  | nil =>
    intro p hp
    cases hrun
    cases hp
  | append_singleton order message ih =>
    obtain ⟨s₁, hrun₁, hlast⟩ := run_append_eq.mp hrun
    obtain ⟨s₂, hrun₂, hservable, hcontents⟩ := serve_empty laws order
    obtain rfl : s₂ = s₁ := Option.some.inj (hrun₂.symm.trans hrun₁)
    rw [run_cons (serve_eq laws message hservable)] at hlast
    cases hlast
    intro p hp
    rcases List.mem_append.mp hp with hp | hp
    · obtain ⟨before, msg, after, reply, horder, htext, htruthful⟩ := ih hrun₁ p hp
      refine ⟨before, msg, after ++ [message], reply, ?_, htext, htruthful⟩
      rw [horder, List.append_assoc, List.cons_append]
    · obtain ⟨reply, hreply, rfl⟩ := List.mem_map.mp hp
      refine ⟨order, message.2, [], reply, rfl, rfl, respond_truthful ?_⟩
      rw [← hcontents]
      exact hreply

theorem eq_of_delivers {msg text : Bytes} (h : msg ∈ delivers text) : msg = text := by
  unfold delivers at h
  split at h
  · have hmem : msg ∈ (queues (.push () ⟨text, _⟩ : SendAction Unit)).map StdString.bytes :=
      List.mem_of_mem_filter h
    simp only [queues] at hmem
    split at hmem
    · simpa using hmem
    · cases hmem
  · cases h

/-! ## Every reply -/

variable [DecidableEq T]

omit [DecidableEq T] in
/-- A reply of the sequential server stays among the replies it has sent. -/
theorem replied_of_run (laws : JsonLaws lib) {before after : List (I × Bytes)} {i : I} {msg : Bytes}
    {s : StorageServer I}
    (h : run (serve lib) .empty (before ++ (i, msg) :: after) = some s) {reply : Json}
    (hreply : reply ∈ (respond (lastWrite (commands lib before)) (lib.parse msg)).2) :
    text lib reply ∈ Interleaved.replies s i := by
  obtain ⟨s₁, hrun, hservable, hlast⟩ := serve_empty laws before
  rw [run_append hrun, run_cons (serve_eq laws (i, msg) hservable)] at h
  have hgrows : ∀ p ∈ (s₁.responded lib (i, msg)).sent, p ∈ s.sent := by
    refine (run_invariant (I := fun s' => Servable s'.dataStorage ∧
      ∀ p ∈ (s₁.responded lib (i, msg)).sent, p ∈ s'.sent) ?_
      ⟨servable_respond laws hservable msg, fun p hp => hp⟩ h).2
    intro s₂ message s₃ ⟨hs₂, hsent⟩ hs
    rw [serve_eq laws message hs₂] at hs
    cases hs
    exact ⟨servable_respond laws hs₂ message.2, fun p hp => List.mem_append_left _ (hsent p hp)⟩
  have hnew : (i, text lib reply) ∈ (s₁.responded lib (i, msg)).sent := by
    rw [← hlast] at hreply
    exact List.mem_append_right _ (List.mem_map.mpr ⟨reply, hreply, rfl⟩)
  exact List.mem_map.mpr ⟨_, List.mem_filter.mpr ⟨hgrows _ hnew, by simp⟩, rfl⟩

theorem getElem?_initial {α : Type} {l m : List α} (h : l <+: m) {n : ℕ} {x : α}
    (hx : l[n]? = some x) : m[n]? = some x := by
  obtain ⟨rest, rfl⟩ := h
  obtain ⟨hn, -⟩ := List.getElem?_eq_some_iff.mp hx
  rw [List.getElem?_append_left hn]
  exact hx

omit [DecidableEq T] in
theorem Simulates.paired (laws : JsonLaws lib) {t : Network I T}
    {u : Service.State I Bytes Bytes Contents} (hsim : Simulates lib t u)
    (hserialized : Serialized (handle lib) (fun _ => none) u) {i : I}
    (hanswerable : ∀ msg ∈ nonEmpty (t.up i).queued, Answerable lib msg)
    (hdelivers : ∀ text ∈ Interleaved.replies t.server i, delivers text = [text]) {n : ℕ} {r : Bytes}
    (hr : (t.down i).raised[n]? = some r) :
    ∃ before msg after reply, Accounts lib t (before ++ (i, msg) :: after) ∧
      (requestsOf i before).length = n ∧ (nonEmpty (t.up i).queued)[n]? = some msg ∧
      r = text lib reply ∧ Truthful lib before msg reply := by
  have haccounts := hsim.accounts laws hserialized
  have hget : (answers (handle lib) i (fun _ => none) u.served)[n]? = some r := by
    rw [← hserialized.replies i, hsim.received i]
    exact getElem?_initial (List.prefix_append _ _) hr
  have hone : ∀ before msg after, u.served = before ++ (i, msg) :: after →
      ∃ reply, (respond (lastWrite (commands lib before)) (lib.parse msg)).2 = [reply] ∧
        (handle lib (replay (handle lib) (fun _ => none) before) msg).2 = [text lib reply] := by
    intro before msg after hserved
    have hqueued : msg ∈ nonEmpty (t.up i).queued := by
      refine (haccounts.requests i).subset ?_
      rw [hserved, requestsOf_append]
      exact List.mem_append_right _ (by simp [requestsOf])
    obtain ⟨reply, hreply⟩ := List.length_eq_one_iff.mp
      ((respond_replies lib (lastWrite (commands lib before)) msg).mpr (hanswerable msg hqueued))
    have hsequential := haccounts.sequential
    rw [hserved] at hsequential
    have hmem : reply ∈ (respond (lastWrite (commands lib before)) (lib.parse msg)).2 := by
      rw [hreply]
      exact List.mem_singleton_self reply
    have hsent := replied_of_run laws hsequential hmem
    refine ⟨reply, hreply, ?_⟩
    rw [replay_eq_lastWrite, handle, hreply, List.map_singleton, List.flatMap_singleton]
    exact hdelivers _ hsent
  have hlength : ∀ before msg after, u.served = before ++ (i, msg) :: after →
      (handle lib (replay (handle lib) (fun _ => none) before) msg).2.length = 1 := by
    intro before msg after hserved
    obtain ⟨reply, -, hreply⟩ := hone before msg after hserved
    rw [hreply, List.length_singleton]
  obtain ⟨before, msg, after, hserved, hn, hreply⟩ := answers_paired hlength hget
  obtain ⟨reply, hrespond, hhandle⟩ := hone before msg after hserved
  have hr' : r = text lib reply := by
    rw [hreply] at hhandle
    exact (List.cons.inj hhandle).1
  refine ⟨before, msg, after, reply, by rw [← hserved]; exact haccounts, hn, ?_, hr', ?_⟩
  · refine getElem?_initial (haccounts.requests i) ?_
    rw [hserved, requestsOf_append, List.getElem?_append_right (by omega), hn, Nat.sub_self]
    simp [requestsOf]
  · exact respond_truthful (by rw [hrespond]; simp)

theorem readRequest_answerable : Answerable sampleLib readText := by
  intro json hjson
  have hne : readText ≠ writeText := by decide
  simp only [sampleLib, hne, if_false, if_true, Except.ok.injEq] at hjson
  subst hjson
  exact ⟨by decide, by decide, by decide⟩

/-- `answer` is the last message that has been raised. -/
def Latest (t : Network I T) : Prop := ∀ i, t.answer i = (t.down i).raised.getLast?.getD []

theorem latest_step {t t' : Network I T} {a : Action I T} (h : Latest t)
    (hs : Network.step lib t a = some t') : Latest t' := by
  have hkept : ∀ {i : I} {link : Link Unit}, link.raised = (t.down i).raised → ∀ j,
      t.answer j = (Function.update t.down i link j).raised.getLast?.getD [] := by
    intro i link hraised
    refine (Function.forall_update_iff t.down fun j l => t.answer j = l.raised.getLast?.getD []).mpr
      ⟨?_, fun j _ => h j⟩
    rw [hraised]
    exact h i
  cases Network.steps_of_step hs with
  | client | accept | leave | serverRead | handle | drop | tooLong | finish => exact h
  | send hloop hsize hlink => exact hkept (raised_send hlink).1
  | pump hloop hlink => exact hkept (raised_send hlink).1
  | written hlink => exact hkept (raised_send hlink).1
  | handleWrite hidle hlink => exact hkept (raised_send hlink).1
  | clientRead hlink => exact hkept (raised_read hlink).1
  | clientMessage hmessages hlink =>
    rename_i i msg messages link
    intro j
    show Function.update t.answer i msg j = (Function.update t.down i link j).raised.getLast?.getD []
    by_cases hj : j = i
    · subst hj
      rw [Function.update_self, Function.update_self, (raised_raise hmessages hlink).1]
      simp
    · rw [Function.update_of_ne hj, Function.update_of_ne hj]
      exact h j

end Diginext.EndToEnd
