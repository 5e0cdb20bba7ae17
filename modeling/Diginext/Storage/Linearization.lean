import Diginext.Storage.Interleaving

/-! # Overlapping requests are linearizable

A read looks at the storage twice, but no key is ever erased: what `keyExists` has found is still there
when `readValue` fetches it. So a read takes effect where it fetches its value, or where it finds no
key, and a write where it writes. The calls in the order of these points are a history of the
sequential server that ends with the same contents and gave the same replies
(`overlapping_linearizable`).
-/
namespace Diginext.Storage.Interleaved
open Cpp Effects Linearizability Transition
set_option autoImplicit false

/-- A well-formed read or write request. -/
def Request (lib : JsonLib) (msg : Bytes) : Prop :=
  (∃ key, ReadRequest lib msg key) ∨ ∃ key value, WriteRequest lib msg key value

variable {I : Type} {lib : JsonLib}

abbrev Overlapping (I : Type) := Concurrent I (StorageServer I) JsonException

def code (lib : JsonLib) (message : I → Bytes) (i : I) : Calls I Unit :=
  handleReadMessage lib i (message i)

/-! ## One request at a time -/

theorem key_unique {msg key key' : Bytes} (h : ReadRequest lib msg key)
    (h' : ReadRequest lib msg key') : key = key' := by
  obtain ⟨json, hjson, -, hkey⟩ := h
  obtain ⟨json', hjson', -, hkey'⟩ := h'
  rw [hjson] at hjson'
  cases hjson'
  rw [hkey] at hkey'
  exact Option.some.inj hkey'

theorem not_read_of_write {msg key value key' : Bytes} (h : WriteRequest lib msg key value) :
    ¬ ReadRequest lib msg key' := by
  rintro ⟨json', hjson', hrequest', -⟩
  obtain ⟨json, hjson, hrequest, -⟩ := h
  rw [hjson] at hjson'
  cases hjson'
  rw [hrequest] at hrequest'
  exact absurd (Option.some.inj hrequest') (by decide)

theorem respond_of_read (data : Bytes → Option Bytes) {msg key : Bytes}
    (h : ReadRequest lib msg key) : (respond data (lib.parse msg)).1 = data := by
  obtain ⟨json, hjson, hrequest, hkey⟩ := h
  rw [respond_data]
  simp [commandOf, hjson, hrequest, hkey, KeyValue.Command.apply]

theorem respond_of_write (data : Bytes → Option Bytes) {msg key value : Bytes}
    (h : WriteRequest lib msg key value) :
    (respond data (lib.parse msg)).1 = Function.update data key (some value) := by
  rw [respond_data, commandOf_write h]
  rfl

/-! ## A call that has not taken effect -/

/-- What a call may still have to do before it takes effect. -/
def Before (lib : JsonLib) (msg : Bytes) (i : I) (data : Bytes → Option Bytes)
    (rest : Calls I Unit) : Prop :=
  (∃ key, ReadRequest lib msg key ∧ rest = checking lib i key) ∨
    (∃ key, ReadRequest lib msg key ∧ (data key).isSome = true ∧ rest = fetching lib i key) ∨
    ∃ key value, WriteRequest lib msg key value ∧ rest = writing lib i key value

theorem before_code (laws : JsonLaws lib) (i : I) {msg : Bytes} (hrequest : Request lib msg)
    (data : Bytes → Option Bytes) : Before lib msg i data (handleReadMessage lib i msg) := by
  rcases hrequest with ⟨key, hread⟩ | ⟨key, value, hwrite⟩
  · exact Or.inl ⟨key, hread, handleReadMessage_read laws i hread⟩
  · exact Or.inr (Or.inr ⟨key, value, hwrite, handleReadMessage_write laws i hwrite⟩)

/-! ## The replies to a call -/

variable [DecidableEq I]

def replies (s : StorageServer I) (i : I) : List Bytes :=
  (s.sent.filter fun reply => reply.1 = i).map Prod.snd

theorem replies_append_self (s : StorageServer I) (i : I) (msgs : List Bytes) :
    replies { s with sent := s.sent ++ msgs.map fun msg => (i, msg) } i = replies s i ++ msgs := by
  simp [replies, List.filter_map, Function.comp_def]

theorem replies_append_of_ne (s : StorageServer I) {i j : I} (h : i ≠ j) (msgs : List Bytes) :
    replies { s with sent := s.sent ++ msgs.map fun msg => (i, msg) } j = replies s j := by
  simp [replies, List.filter_map, Function.comp_def, h]

/-! ## The invariant -/

/-- Where a call stands: it has not taken effect, or it is in the order and has still to send what the
sequential server sent and it did not. -/
def Stands (lib : JsonLib) (msg : Bytes) (i : I) (order : List I) (q s : StorageServer I) :
    Progress (StorageServer I) JsonException → Prop
  | .waiting => i ∉ order
  | .running rest =>
    i ∉ order ∧ Before lib msg i s.dataStorage rest ∨
      i ∈ order ∧ ∃ msgs, rest = sending i msgs ∧ replies q i = replies s i ++ msgs
  | .finished => i ∈ order ∧ replies q i = replies s i

/-- `order` are the calls that have taken effect, and `q` is what the sequential server makes of
them. -/
structure Linearized (lib : JsonLib) (message : I → Bytes) (s : Overlapping I) (order : List I)
    (q : StorageServer I) : Prop where
  sequential : run (serve lib) .empty (order.map fun i => (i, message i)) = some q
  data : q.dataStorage = s.shared.dataStorage
  servable : Servable s.shared.dataStorage
  nodup : order.Nodup
  respects : Respects s.history order
  called : ∀ i, s.progress i ≠ .waiting → .called i ∈ s.history
  finished : ∀ i, .returned i ∈ s.history → s.progress i = .finished
  fresh : ∀ i, i ∉ order → replies q i = [] ∧ replies s.shared i = []
  stands : ∀ i, Stands lib (message i) i order q s.shared (s.progress i)
  written : ∀ key value, s.shared.dataStorage key = some value →
    ∃ j ∈ order, WriteRequest lib (message j) key value
  read : ∀ i ∈ order, ∀ key, ReadRequest lib (message i) key →
    replies q i = [text lib keyNotFound] ∨ ∃ j ∈ order, ∃ value,
      WriteRequest lib (message j) key value ∧ replies q i = [text lib (okRead value)]

variable {message : I → Bytes} {s : Overlapping I} {order : List I} {q : StorageServer I}

theorem initial_linearized (message : I → Bytes) :
    Linearized lib message (Concurrent.initial .empty) [] .empty where
  sequential := rfl
  data := rfl
  servable := empty_servable
  nodup := List.nodup_nil
  respects := respects_nil []
  called := fun _ hi => absurd rfl hi
  finished := nofun
  fresh := fun _ _ => ⟨rfl, rfl⟩
  stands := fun _ => List.not_mem_nil
  written := nofun
  read := nofun

theorem Linearized.returned_mem (h : Linearized lib message s order q) (i : I)
    (hreturned : .returned i ∈ s.history) : i ∈ order := by
  have hstands := h.stands i
  rw [h.finished i hreturned] at hstands
  exact hstands.1

/-! ## A call begins, and a call returns -/

/-- A call that is not concerned stands where it stood. -/
theorem Stands.frame {msg : Bytes} {j : I} {order order' : List I} {q q' s s' : StorageServer I}
    {p : Progress (StorageServer I) JsonException} (h : Stands lib msg j order q s p)
    (hmem : j ∈ order' ↔ j ∈ order) (hq : replies q' j = replies q j)
    (hs : replies s' j = replies s j)
    (hkeys : ∀ key, (s.dataStorage key).isSome = true → (s'.dataStorage key).isSome = true) :
    Stands lib msg j order' q' s' p := by
  cases p with
  | waiting => exact fun hj => h (hmem.mp hj)
  | finished => exact ⟨hmem.mpr h.1, by rw [hq, hs, h.2]⟩
  | running rest =>
    rcases h with ⟨hj, hbefore⟩ | ⟨hj, msgs, hrest, hreplies⟩
    · refine Or.inl ⟨fun hj' => hj (hmem.mp hj'), ?_⟩
      rcases hbefore with hchecking | ⟨key, hread, hsome, hrest⟩ | hwriting
      · exact Or.inl hchecking
      · exact Or.inr (Or.inl ⟨key, hread, hkeys key hsome, hrest⟩)
      · exact Or.inr (Or.inr hwriting)
    · exact Or.inr ⟨hmem.mpr hj, msgs, hrest, by rw [hq, hs, hreplies]⟩

theorem stands_update {i : I} {p : Progress (StorageServer I) JsonException}
    {progress : I → Progress (StorageServer I) JsonException} {order' : List I}
    {q' s' : StorageServer I} (hi : Stands lib (message i) i order' q' s' p)
    (hothers : ∀ j, j ≠ i → Stands lib (message j) j order' q' s' (progress j)) (j : I) :
    Stands lib (message j) j order' q' s' (Function.update progress i p j) := by
  by_cases hj : j = i
  · subst hj
    rw [Function.update_self]
    exact hi
  · rw [Function.update_of_ne hj]
    exact hothers j hj

theorem Linearized.called_update (h : Linearized lib message s order q) {i : I}
    (hi : s.progress i ≠ .waiting) (p : Progress (StorageServer I) JsonException) (j : I)
    (hj : Function.update s.progress i p j ≠ .waiting) : .called j ∈ s.history := by
  by_cases hji : j = i
  · exact h.called j (hji ▸ hi)
  · rw [Function.update_of_ne hji] at hj
    exact h.called j hj

theorem Linearized.order_called (h : Linearized lib message s order q) {i : I} (hi : i ∈ order) :
    .called i ∈ s.history := by
  refine h.called i fun hwaiting => ?_
  have hstands := h.stands i
  rw [hwaiting] at hstands
  exact hstands hi

theorem Linearized.finished_update (h : Linearized lib message s order q) {i : I}
    (hi : s.progress i ≠ .finished) (p : Progress (StorageServer I) JsonException) (j : I)
    (hj : .returned j ∈ s.history) : Function.update s.progress i p j = .finished := by
  have hne : j ≠ i := by
    rintro rfl
    exact hi (h.finished j hj)
  rw [Function.update_of_ne hne]
  exact h.finished j hj

theorem Linearized.call (laws : JsonLaws lib) (h : Linearized lib message s order q) {i : I}
    (hrequest : Request lib (message i)) (hwaiting : s.progress i = .waiting) :
    Linearized lib message { s with
      progress := Function.update s.progress i (.running (code lib message i))
      history := s.history ++ [.called i] } order q := by
  have hi : i ∉ order := by
    have hstands := h.stands i
    rw [hwaiting] at hstands
    exact hstands
  refine { h with respects := h.respects.call hi, called := ?_, finished := ?_, stands := ?_ }
  · intro j hj
    by_cases hji : j = i
    · exact List.mem_append_right _ (List.mem_singleton.mpr (hji ▸ rfl))
    · change Function.update s.progress i (.running (code lib message i)) j ≠ .waiting at hj
      rw [Function.update_of_ne hji] at hj
      exact List.mem_append_left _ (h.called j hj)
  · intro j hj
    have hold : .returned j ∈ s.history := by simpa using hj
    exact h.finished_update (by simp [hwaiting]) _ j hold
  · exact stands_update (Or.inl ⟨hi, before_code laws i hrequest _⟩) fun j _ => h.stands j

theorem Linearized.returns (h : Linearized lib message s order q) {i : I} {u : Unit}
    (hrunning : s.progress i = .running (.pure u)) :
    Linearized lib message { s with
      progress := Function.update s.progress i .finished
      history := s.history ++ [.returned i] } order q := by
  have hdone : i ∈ order ∧ replies q i = replies s.shared i := by
    have hstands := h.stands i
    rw [hrunning] at hstands
    rcases hstands with ⟨-, hbefore⟩ | ⟨hi, msgs, hrest, hreplies⟩
    · rcases hbefore with ⟨_, _, hrest⟩ | ⟨_, _, _, hrest⟩ | ⟨_, _, _, hrest⟩
      · cases hrest
      · cases hrest
      · cases hrest
    · cases msgs with
      | nil => exact ⟨hi, by rw [hreplies, List.append_nil]⟩
      | cons msg msgs => cases hrest
  refine { h with respects := h.respects.returned i, called := ?_, finished := ?_, stands := ?_ }
  · exact fun j hj => List.mem_append_left _ (h.called_update (by simp [hrunning]) _ j hj)
  · intro j hj
    by_cases hji : j = i
    · subst hji
      exact Function.update_self _ _ _
    · have hold : .returned j ∈ s.history := by
        rcases List.mem_append.mp hj with hj | hj
        · exact hj
        · cases List.mem_singleton.mp hj
          exact absurd rfl hji
      exact (Function.update_of_ne hji _ _).trans (h.finished j hold)
  · exact stands_update hdone fun j _ => h.stands j

/-! ## A reply is sent -/

theorem Linearized.sends (h : Linearized lib message s order q) {i : I} {msg : Bytes}
    {msgs : List Bytes} (hi : i ∈ order) {rest : Calls I Unit}
    (hrunning : s.progress i = .running rest)
    (hreplies : replies q i = replies s.shared i ++ msg :: msgs) :
    Linearized lib message { s with
      shared := { s.shared with sent := s.shared.sent ++ [(i, msg)] }
      progress := Function.update s.progress i (.running (sending i msgs)) } order q := by
  have hself := replies_append_self s.shared i [msg]
  have hothers : ∀ j, i ≠ j → replies { s.shared with sent := s.shared.sent ++ [(i, msg)] } j =
      replies s.shared j := fun j hne => replies_append_of_ne s.shared hne [msg]
  refine { h with called := ?_, finished := ?_, fresh := ?_, stands := ?_ }
  · exact h.called_update (by simp [hrunning]) _
  · exact h.finished_update (by simp [hrunning]) _
  · intro j hj
    have hne : i ≠ j := by
      rintro rfl
      exact hj hi
    exact ⟨(h.fresh j hj).1, (hothers j hne).trans (h.fresh j hj).2⟩
  · refine stands_update (Or.inr ⟨hi, msgs, rfl, ?_⟩) fun j hj => ?_
    · have hself' : replies { s.shared with sent := s.shared.sent ++ [(i, msg)] } i =
          replies s.shared i ++ [msg] := hself
      rw [hself', hreplies, List.append_assoc]
      rfl
    · exact (h.stands j).frame Iff.rfl rfl (hothers j (Ne.symm hj)) fun _ hsome => hsome

/-! ## A call takes effect -/

/-- The call `i` takes effect with the contents `data`, and goes on to send `reply`. -/
theorem Linearized.takes_effect (laws : JsonLaws lib) (h : Linearized lib message s order q) {i : I}
    {rest : Calls I Unit} (hrunning : s.progress i = .running rest) (hi : i ∉ order) {reply : Json}
    {data : Bytes → Option Bytes}
    (hdata : (respond s.shared.dataStorage (lib.parse (message i))).1 = data)
    (hreply : (respond s.shared.dataStorage (lib.parse (message i))).2 = [reply])
    (hkeys : ∀ key, (s.shared.dataStorage key).isSome = true → (data key).isSome = true)
    (hwritten : ∀ key value, data key = some value → s.shared.dataStorage key = some value ∨
      WriteRequest lib (message i) key value)
    (hread : ∀ key, ReadRequest lib (message i) key → reply = keyNotFound ∨
      ∃ value, s.shared.dataStorage key = some value ∧ reply = okRead value) :
    Linearized lib message { s with
      shared := { s.shared with dataStorage := data }
      progress := Function.update s.progress i (.running (sending i [text lib reply])) }
      (order ++ [i]) (q.responded lib (i, message i)) := by
  have hservable : Servable q.dataStorage := h.data ▸ h.servable
  have hq : q.responded lib (i, message i) =
      { dataStorage := data, sent := q.sent ++ [text lib reply].map fun msg => (i, msg) } := by
    simp only [StorageServer.responded, StorageServer.reply, h.data, hdata, hreply]
    rfl
  have hself : replies (q.responded lib (i, message i)) i = [text lib reply] := by
    rw [hq]
    have happ := replies_append_self q i [text lib reply]
    rw [(h.fresh i hi).1] at happ
    exact happ
  have hothers : ∀ j, i ≠ j → replies (q.responded lib (i, message i)) j = replies q j := by
    intro j hne
    rw [hq]
    exact replies_append_of_ne q hne [text lib reply]
  have hmem : ∀ j, j ≠ i → (j ∈ order ++ [i] ↔ j ∈ order) := by
    intro j hne
    simp [hne]
  constructor
  · rw [List.map_append, run_append h.sequential]
    exact run_cons (serve_eq laws (i, message i) hservable) []
  · rw [hq]
  · exact hdata ▸ servable_respond laws h.servable (message i)
  · refine List.nodup_append.mpr ⟨h.nodup, by simp, fun j hj k hk hjk => ?_⟩
    rw [List.mem_singleton.mp hk] at hjk
    exact hi (hjk ▸ hj)
  · exact h.respects.linearize (fun j => h.returned_mem j) i
  · exact h.called_update (by simp [hrunning]) _
  · exact h.finished_update (by simp [hrunning]) _
  · intro j hj
    have hne : j ≠ i := by
      rintro rfl
      exact hj (List.mem_append_right _ (List.mem_singleton.mpr rfl))
    have hj' : j ∉ order := fun hj' => hj (List.mem_append_left _ hj')
    exact ⟨(hothers j (Ne.symm hne)).trans (h.fresh j hj').1, (h.fresh j hj').2⟩
  · refine stands_update (Or.inr ⟨by simp, [text lib reply], rfl, ?_⟩) fun j hj => ?_
    · have hnone : replies { s.shared with dataStorage := data } i = [] := (h.fresh i hi).2
      rw [hself, hnone, List.nil_append]
    · exact (h.stands j).frame (hmem j hj) (hothers j (Ne.symm hj)) rfl hkeys
  · intro key value hvalue
    rcases hwritten key value hvalue with hold | hnew
    · obtain ⟨j, hj, hwrite⟩ := h.written key value hold
      exact ⟨j, List.mem_append_left _ hj, hwrite⟩
    · exact ⟨i, by simp, hnew⟩
  · intro j hj key hreq
    by_cases hji : j = i
    · subst hji
      rw [hself]
      rcases hread key hreq with hmissing | ⟨value, hvalue, hfound⟩
      · exact Or.inl (by rw [hmissing])
      · obtain ⟨k, hk, hwrite⟩ := h.written key value hvalue
        exact Or.inr ⟨k, List.mem_append_left _ hk, value, hwrite, by rw [hfound]⟩
    · rw [hothers j (Ne.symm hji)]
      rcases h.read j ((hmem j hji).mp hj) key hreq with hmissing | ⟨k, hk, value, hwrite, hfound⟩
      · exact Or.inl hmissing
      · exact Or.inr ⟨k, List.mem_append_left _ hk, value, hwrite, hfound⟩

/-! ## Every turn -/

theorem Linearized.acts (laws : JsonLaws lib) (h : Linearized lib message s order q) {i : I}
    {update : StorageServer I → StorageServer I} {next : StorageServer I → Calls I Unit}
    (hrunning : s.progress i = .running (.act update next)) :
    ∃ order' q', Linearized lib message { s with
      shared := update s.shared
      progress := Function.update s.progress i (.running (next s.shared)) } order' q' := by
  have hstands := h.stands i
  rw [hrunning] at hstands
  rcases hstands with ⟨hi, hbefore⟩ | ⟨hi, msgs, hrest, hreplies⟩
  · rcases hbefore with ⟨key, hread, hrest⟩ | ⟨key, hread, hsome, hrest⟩ |
      ⟨key, value, hwrite, hrest⟩
    · -- `keyExists`: the read goes on if the key is there, and has taken effect if it is not.
      cases hrest
      cases hkey : s.shared.dataStorage key with
      | some value =>
        have hthere : (s.shared.dataStorage key).isSome = true := by
          rw [hkey]
          rfl
        refine ⟨order, q, ?_⟩
        simp only [hthere, if_true, id]
        refine { h with called := ?_, finished := ?_, stands := ?_ }
        · exact h.called_update (by simp [hrunning]) _
        · exact h.finished_update (by simp [hrunning]) _
        · refine stands_update (Or.inl ⟨hi, Or.inr (Or.inl ⟨key, hread, ?_, rfl⟩)⟩) fun j _ => h.stands j
          exact hthere
      | none =>
        have hmissing : ¬ (s.shared.dataStorage key).isSome = true := by
          rw [hkey]
          nofun
        refine ⟨order ++ [i], q.responded lib (i, message i), ?_⟩
        simp only [hmissing, id]
        refine h.takes_effect laws hrunning hi (respond_of_read _ hread) ?_ (fun _ hk => hk)
          (fun _ _ hv => Or.inl hv) fun _ _ => Or.inl rfl
        rw [respond_read _ hread, hkey]
    · -- `readValue`: the key is still there.
      cases hrest
      obtain ⟨value, hvalue⟩ := Option.isSome_iff_exists.mp hsome
      refine ⟨order ++ [i], q.responded lib (i, message i), ?_⟩
      simp only [hvalue, id]
      rw [sendOkRead_steps laws i (h.servable key value hvalue), attempt_sending]
      refine h.takes_effect laws hrunning hi (respond_of_read _ hread) ?_ (fun _ hk => hk)
        (fun _ _ hv => Or.inl hv) fun key' hread' => Or.inr ⟨value, ?_, rfl⟩
      · rw [respond_read _ hread, hvalue]
      · rw [key_unique hread' hread]
        exact hvalue
    · -- `writeValue`
      cases hrest
      refine ⟨_, _, h.takes_effect laws hrunning hi (respond_of_write _ hwrite)
        (respond_write _ hwrite) ?_ ?_ fun key' hread' => absurd hread' (not_read_of_write hwrite)⟩
      · intro key' hsome
        by_cases hk : key' = key
        · rw [hk, Function.update_self]
          rfl
        · rw [Function.update_of_ne hk]
          exact hsome
      · intro key' value' hv
        by_cases hk : key' = key
        · rw [hk, Function.update_self] at hv
          cases hv
          exact Or.inr (hk ▸ hwrite)
        · rw [Function.update_of_ne hk] at hv
          exact Or.inl hv
  · cases msgs with
    | nil => cases hrest
    | cons msg msgs =>
      cases hrest
      exact ⟨order, q, h.sends hi hrunning hreplies⟩

theorem Linearized.turn (laws : JsonLaws lib) (hrequests : ∀ i, Request lib (message i))
    {s' : Overlapping I} {t : Turn I} (h : Linearized lib message s order q)
    (hs : Linearizability.turn (code lib message) s t = some s') :
    ∃ order' q', Linearized lib message s' order' q' := by
  cases turns_of_turn hs with
  | calls i waiting eq =>
    subst eq
    exact ⟨order, q, h.call laws (hrequests i) waiting⟩
  | acts i update next running eq =>
    subst eq
    exact h.acts laws running
  | returns i u running eq =>
    subst eq
    exact ⟨order, q, h.returns running⟩

/-! ## Every interleaving -/

theorem reached_linearized (laws : JsonLaws lib) (hrequests : ∀ i, Request lib (message i))
    {turns : List (Turn I)} {t : Overlapping I}
    (hrun : run (Linearizability.turn (code lib message)) (Concurrent.initial .empty) turns = some t) :
    ∃ order q, Linearized lib message t order q := by
  refine run_invariant (I := fun s => ∃ order q, Linearized lib message s order q)
    ?_ ⟨[], .empty, initial_linearized message⟩ hrun
  intro s a s' hinv hs
  obtain ⟨order, q, h⟩ := hinv
  exact h.turn laws hrequests hs

/-- No call ends in an exception, so that a call that has begun can always go on. -/
theorem Linearized.goes_on (h : Linearized lib message s order q) {i : I} {rest : Calls I Unit}
    (hrunning : s.progress i = .running rest) :
    ∃ s', Linearizability.turn (code lib message) s (.step i) = some s' := by
  have hstands := h.stands i
  rw [hrunning] at hstands
  simp only [Linearizability.turn, hrunning]
  rcases hstands with ⟨-, hbefore⟩ | ⟨-, msgs, hrest, -⟩
  · rcases hbefore with ⟨key, -, hrest⟩ | ⟨key, -, -, hrest⟩ | ⟨key, value, -, hrest⟩
    · exact hrest ▸ ⟨_, rfl⟩
    · exact hrest ▸ ⟨_, rfl⟩
    · exact hrest ▸ ⟨_, rfl⟩
  · cases msgs with
    | nil => exact hrest ▸ ⟨_, rfl⟩
    | cons msg msgs => exact hrest ▸ ⟨_, rfl⟩

theorem overlapping_goes_on (laws : JsonLaws lib) (hrequests : ∀ i, Request lib (message i))
    {turns : List (Turn I)} {t : Overlapping I}
    (hrun : run (Linearizability.turn (code lib message)) (Concurrent.initial .empty) turns = some t)
    {i : I} {rest : Calls I Unit} (hrunning : t.progress i = .running rest) :
    ∃ t', Linearizability.turn (code lib message) t (.step i) = some t' := by
  obtain ⟨order, q, h⟩ := reached_linearized laws hrequests hrun
  exact h.goes_on hrunning

/-- **Overlapping requests are linearizable.** When all calls of an interleaving have returned, there is
an order of them that respects the real-time order and in which the sequential handler ends with the
same contents and sends every call the same replies; and a read has been answered with a value that one
of the calls wrote under its key, or that there is none. -/
theorem overlapping_linearizable (laws : JsonLaws lib) (message : I → Bytes)
    (hrequests : ∀ i, Request lib (message i)) (turns : List (Turn I)) (t : Overlapping I)
    (hrun : run (Linearizability.turn (code lib message)) (Concurrent.initial .empty) turns = some t)
    (hquiet : t.Quiescent) :
    ∃ order : List I, order.Nodup ∧ (∀ i, i ∈ order ↔ .called i ∈ t.history) ∧
      (∀ i j, Precedes t.history i j → List.Sublist [i, j] order) ∧
      (∃ q, run (serve lib) .empty (order.map fun i => (i, message i)) = some q ∧
        q.dataStorage = t.shared.dataStorage ∧ ∀ i, replies q i = replies t.shared i) ∧
      ∀ i key, .called i ∈ t.history → ReadRequest lib (message i) key →
        replies t.shared i = [text lib keyNotFound] ∨ ∃ j value, .called j ∈ t.history ∧
          WriteRequest lib (message j) key value ∧
            replies t.shared i = [text lib (okRead value)] := by
  obtain ⟨order, q, h⟩ := reached_linearized laws hrequests hrun
  have hmem : ∀ i, i ∈ order ↔ .called i ∈ t.history :=
    fun i => ⟨h.order_called, fun hcalled => h.returned_mem i (hquiet i hcalled)⟩
  have hreplies : ∀ i, replies q i = replies t.shared i := by
    intro i
    by_cases hi : i ∈ order
    · have hstands := h.stands i
      rw [h.finished i (hquiet i ((hmem i).mp hi))] at hstands
      exact hstands.2
    · rw [(h.fresh i hi).1, (h.fresh i hi).2]
  refine ⟨order, h.nodup, hmem, ?_, ⟨q, h.sequential, h.data, hreplies⟩, ?_⟩
  · intro i j hp
    have hcalled : .called j ∈ t.history := hp.subset (by simp)
    exact h.respects i j hp ((hmem j).mpr hcalled)
  · intro i key hcalled hread
    rw [← hreplies i]
    rcases h.read i ((hmem i).mpr hcalled) key hread with hmissing | ⟨j, hj, value, hwrite, hfound⟩
    · exact Or.inl hmissing
    · exact Or.inr ⟨j, value, (hmem j).mp hj, hwrite, hfound⟩

/-! ## A read and a write that overlap -/

def sampleMessage (i : Bool) : Bytes := if i then writeText else readText

/-- The write ends between the read's look for the key and its look for the value. -/
def sampleTurns : List (Turn Bool) := [.call false, .call true, .step true, .step false, .step true,
  .step true, .step false, .step false, .step false]

def sampleHistory : List (Event Bool) :=
  [.called false, .called true, .returned true, .returned false]

theorem sampleTurns_run : ((run (Linearizability.turn (code sampleLib sampleMessage))
      (Concurrent.initial .empty) sampleTurns).map fun t =>
        (t.history, replies t.shared false)) =
    some (sampleHistory, [text sampleLib (okRead (ascii "b"))]) := by
  decide +kernel

theorem sampleMessage_request (i : Bool) : Request sampleLib (sampleMessage i) := by
  have hne : readText ≠ writeText := by decide
  cases i with
  | false =>
    exact Or.inl ⟨ascii "a", readJson, by simp [sampleLib, sampleMessage, hne], by decide, by decide⟩
  | true =>
    exact Or.inr ⟨ascii "a", ascii "b", writeJson, by simp [sampleLib, sampleMessage], by decide,
      by decide, by decide⟩

theorem overlapping_linearizable_sample : ∃ t,
    run (Linearizability.turn (code sampleLib sampleMessage)) (Concurrent.initial .empty)
      sampleTurns = some t ∧ replies t.shared false = [text sampleLib (okRead (ascii "b"))] ∧
      ∃ order : List Bool, (∀ i, i ∈ order ↔ .called i ∈ sampleHistory) ∧
        ∃ q, run (serve sampleLib) .empty (order.map fun i => (i, sampleMessage i)) = some q ∧
          q.dataStorage = t.shared.dataStorage ∧ ∀ i, replies q i = replies t.shared i := by
  obtain ⟨t, hrun, hsample⟩ := Option.map_eq_some_iff.mp sampleTurns_run
  have hhistory : t.history = sampleHistory := congrArg Prod.fst hsample
  have hquiet : t.Quiescent := by
    intro i _
    rw [hhistory]
    cases i with
    | false => decide
    | true => decide
  obtain ⟨order, -, hmem, -, hsequential, -⟩ := overlapping_linearizable sampleLib_laws sampleMessage
    sampleMessage_request sampleTurns t hrun hquiet
  exact ⟨t, hrun, congrArg Prod.snd hsample, order, fun i => hhistory ▸ hmem i, hsequential⟩

end Diginext.Storage.Interleaved
