import Diginext.Server.Departure
import Diginext.Server.Removal

/-! # Registered connections keep their handlers

An application learns of a connection when the server has accepted it. As long as it calls
`disconnect()` on accepted connections only (`Handed`), a close routine is posted only for a connection
whose removal has begun, and none disconnects the handlers of a registered connection (`Wired`).
-/
namespace Diginext.Server
open Cpp Transition
set_option autoImplicit false

variable {T U : Type}

/-- `tcp_connection::disconnect` is called on connections that the server has accepted. -/
def Handed (s : TcpServer T U) : Action T U → Prop
  | .call _ (.connectionDisconnect c) => c ∈ accepted s.raised
  | _ => True

instance (s : TcpServer T U) (a : Action T U) : Decidable (Handed s a) :=
  match a with
  | .call _ (.connectionDisconnect c) => inferInstanceAs (Decidable (c ∈ accepted s.raised))
  | .call _ (.disconnectByUUID _) | .call _ (.disconnect _) | .call _ .disconnectAll => isTrue trivial
  | .dispatch _ | .returns _ | .throws _ | .advance _ => isTrue trivial

/-- `L` are the connections whose removal has begun. Whoever holds `server_sync` is in
`handle_accept`. -/
structure Wiring (loop : T) (s : TcpServer T U) (L : Connection → Prop) : Prop where
  admitted : Admitted loop s
  parted : Parted s
  removal : Removal s L
  stopping : ∀ t c, .stop c ∈ s.stack t → c ∈ accepted s.raised
  posting : ∀ t c, .post c ∈ s.stack t → L c
  posted : ∀ c ∈ s.posted, L c
  holder : ∀ t, s.server_sync = some t → .finishAccept ∈ s.stack t

theorem started_wiring (loop : T) : Wiring loop (TcpServer.started : TcpServer T U) fun _ => False where
  admitted := started_admitted loop
  parted := started_parted
  removal := started_removal
  stopping := by simp [TcpServer.started]
  posting := by simp [TcpServer.started]
  posted := by simp [TcpServer.started]
  holder := by simp [TcpServer.started]

/-! ## Where calls of `tcp_connection::stop` come from -/

section Calls
variable [DecidableEq T] {loop : T}

/-- What is dispatched stops no connection. -/
theorem dispatch_stops {s s' : TcpServer T U} {completion : Completion}
    (hs : TcpServer.Dispatches loop s completion s') {t : T} {c : Connection} :
    (.stop c ∈ s'.stack t → .stop c ∈ s.stack t) ∧ (.post c ∈ s'.stack t → .post c ∈ s.stack t) := by
  by_cases hother : t ≠ loop
  · rw [dispatch_other hs hother]
    exact ⟨id, id⟩
  obtain rfl : t = loop := not_not.mp hother
  cases hs with
  | readError error n _ =>
    rw [TcpServer.setStack_self]
    unfold TcpServer.handleReadError TcpServer.emission
    split <;> split <;>
      simp [handleTcpConnectionDisconnected, handleTcpConnectionReadError]
  | writeError d error n =>
    rw [TcpServer.setStack_self]
    unfold TcpServer.emission
    split <;> simp [handleTcpConnectionSendError]
  | closure _ => exact ⟨id, id⟩
  | _ =>
    rw [TcpServer.setStack_self]
    simp

variable [DecidableEq U] {uuid : Connection → U}

omit [DecidableEq T] in
theorem follows_stops {s : TcpServer T U} {frame : Frame U} {new : List (Frame U)}
    (h : TcpServer.Follows uuid s frame new) {c : Connection} :
    (.stop c ∈ new → c ∈ s.connections) ∧ (.post c ∈ new → frame = .stop c) := by
  cases h with
  | found hfound =>
    refine ⟨?_, by simp⟩
    intro hmem
    cases List.mem_singleton.mp hmem
    exact (TcpServer.getConnectionByUUID_some hfound).1
  | stop d =>
    unfold TcpServer.emission
    split <;> simp [handleTcpConnectionDisconnected, eq_comm]
  | message d msg messages =>
    unfold TcpServer.emission
    split <;> simp [handleTcpConnectionReadMessage]
  | _ => simp

theorem advance_stops {s s' : TcpServer T U} {t : T} {frame : Frame U} {rest : List (Frame U)}
    (hs : s.advance uuid t rest frame = some s') {c : Connection} :
    (.stop c ∈ s'.stack t → .stop c ∈ rest ∨ c ∈ s.connections) ∧
      (.post c ∈ s'.stack t → .post c ∈ rest ∨ frame = .stop c) := by
  cases TcpServer.advances_of_advance uuid hs <;> rw [TcpServer.setStack_self]
  case follows new hf =>
    obtain ⟨hstop, hpost⟩ := follows_stops hf (c := c)
    rw [List.mem_append, List.mem_append]
    exact ⟨fun h => h.symm.imp_right hstop, fun h => h.symm.imp_right hpost⟩
  all_goals simp +contextual

/-- The frames of a thread after a step: those it had, or what it was called with, or what a completion
or its innermost call has put there. -/
theorem step_frames {s s' : TcpServer T U} {a : Action T U}
    (hs : TcpServer.step uuid loop s a = some s') {t : T} {frame : Frame U}
    (hmem : frame ∈ s'.stack t) :
    frame ∈ s.stack t ∨ (∃ op, a = .call t op ∧ frame = TcpServer.entry uuid op) ∨
      (∃ completion, TcpServer.Dispatches loop s completion s') ∨
      ∃ first rest, a = .advance t ∧ s.stack t = first :: rest ∧
        s.advance uuid t rest first = some s' := by
  by_cases hother : t ≠ a.thread loop
  · rw [step_other hs hother] at hmem
    exact Or.inl hmem
  have hself : t = a.thread loop := not_not.mp hother
  cases TcpServer.steps_of_step uuid hs with
  | @dispatch completion _ hrunning hidle hd => exact Or.inr (Or.inr (Or.inl ⟨completion, hd⟩))
  | @call u op hidle hloop =>
    obtain rfl : t = u := hself
    rw [TcpServer.setStack_self] at hmem
    exact Or.inr (Or.inl ⟨op, rfl, List.mem_singleton.mp hmem⟩)
  | @callback u event rest op hold =>
    obtain rfl : t = u := hself
    rw [TcpServer.setStack_self, ← hold] at hmem
    rcases List.mem_cons.mp hmem with heq | hmem
    · exact Or.inr (Or.inl ⟨op, rfl, heq⟩)
    · exact Or.inl hmem
  | returns hold =>
    obtain rfl : t = _ := hself
    rw [TcpServer.setStack_self] at hmem
    rw [hold]
    exact Or.inl (List.mem_cons_of_mem _ hmem)
  | caught hold hframes =>
    obtain rfl : t = _ := hself
    rw [TcpServer.setStack_self] at hmem
    rw [hold]
    exact Or.inl (List.mem_cons_of_mem _ ((List.dropWhile_sublist _).subset hmem))
  | escapes hold hframes =>
    obtain rfl : t = _ := hself
    rw [TcpServer.setStack_self] at hmem
    cases hmem
  | @advance u first rest _ hold hadvance =>
    obtain rfl : t = u := hself
    exact Or.inr (Or.inr (Or.inr ⟨first, rest, rfl, hold, hadvance⟩))

theorem step_stops {s s' : TcpServer T U} {a : Action T U}
    (hs : TcpServer.step uuid loop s a = some s') {t : T} {c : Connection}
    (hmem : .stop c ∈ s'.stack t) :
    .stop c ∈ s.stack t ∨ c ∈ s.connections ∨ ∃ u, a = .call u (.connectionDisconnect c) := by
  rcases step_frames hs hmem with hold | ⟨op, rfl, heq⟩ | ⟨completion, hd⟩ |
    ⟨first, rest, -, hold, hadvance⟩
  · exact Or.inl hold
  · cases op <;> cases heq
    exact Or.inr (Or.inr ⟨t, rfl⟩)
  · exact Or.inl ((dispatch_stops hd).1 hmem)
  · rw [hold]
    rcases (advance_stops hadvance).1 hmem with hrest | hregistered
    · exact Or.inl (List.mem_cons_of_mem _ hrest)
    · exact Or.inr (Or.inl hregistered)

theorem step_posts {s s' : TcpServer T U} {a : Action T U}
    (hs : TcpServer.step uuid loop s a = some s') {t : T} {c : Connection}
    (hmem : .post c ∈ s'.stack t) :
    .post c ∈ s.stack t ∨ a = .advance t ∧ ∃ rest, s.stack t = .stop c :: rest := by
  rcases step_frames hs hmem with hold | ⟨op, -, heq⟩ | ⟨completion, hd⟩ |
    ⟨first, rest, hadvances, hold, hadvance⟩
  · exact Or.inl hold
  · cases op <;> cases heq
  · exact Or.inl ((dispatch_stops hd).2 hmem)
  · rcases (advance_stops hadvance).2 hmem with hrest | rfl
    · rw [hold]
      exact Or.inl (List.mem_cons_of_mem _ hrest)
    · exact Or.inr ⟨hadvances, rest, hold⟩

theorem step_posted_from {s s' : TcpServer T U} {a : Action T U}
    (hs : TcpServer.step uuid loop s a = some s') {c : Connection} (hmem : c ∈ s'.posted) :
    c ∈ s.posted ∨ ∃ t, .post c ∈ s.stack t := by
  cases TcpServer.steps_of_step uuid hs with
  | dispatch hrunning hidle hd =>
    left
    cases hd with
    | closure hposted =>
      rw [hposted]
      exact List.mem_cons_of_mem _ hmem
    | _ => exact hmem
  | call _ _ _ | callback _ _ | returns _ | caught _ _ | escapes _ _ => exact Or.inl hmem
  | @advance t frame rest _ hold hadvance =>
    rcases advance_posted hadvance with heq | ⟨d, rfl, heq⟩
    · rw [heq] at hmem
      exact Or.inl hmem
    · rw [heq] at hmem
      rcases List.mem_append.mp hmem with hmem | hmem
      · exact Or.inl hmem
      · rw [List.mem_singleton.mp hmem]
        exact Or.inr ⟨t, by rw [hold]; exact List.mem_cons_self⟩

/-! ## Every step -/

/-- Whoever has taken `server_sync` has gone into `handle_accept` for it. -/
theorem step_holder {s s' : TcpServer T U} {a : Action T U} {t : T}
    (h : s.server_sync = some t → .finishAccept ∈ s.stack t)
    (hs : TcpServer.step uuid loop s a = some s') (ht : s'.server_sync = some t) :
    .finishAccept ∈ s'.stack t := by
  have hkept : s.server_sync = some t → .finishAccept ∈ s'.stack t := by
    intro hheld
    rcases step_catching rfl (h hheld) hs with hmem | ⟨rfl, rest, hold⟩
    · exact hmem
    · simp only [TcpServer.step, hold] at hs
      cases hs
      cases ht
  cases TcpServer.steps_of_step uuid hs with
  | dispatch _ _ hd => exact hkept (dispatch_sync hd ▸ ht)
  | call _ _ _ | callback _ _ | returns _ | caught _ _ | escapes _ _ => exact hkept ht
  | advance hold hadvance =>
    rcases advance_sync hadvance with hsync | ⟨c, rfl⟩ | rfl
    · exact hkept (hsync ▸ ht)
    · obtain ⟨-, rfl⟩ := TcpServer.locked_eq hadvance
      cases ht
      rw [TcpServer.setStack_self]
      simp
    · cases hadvance
      cases ht

omit [DecidableEq T] [DecidableEq U] in
/-- The connection of the next close routine, if it is registered, is being removed. -/
theorem Wiring.wired {s : TcpServer T U} {L : Connection → Prop} (h : Wiring loop s L)
    (a : Action T U) : Wired s a := by
  intro c hcloses hregistered _
  refine h.removal.leaving c hregistered (h.posted c ?_)
  unfold closes at hcloses
  split at hcloses
  · exact List.mem_of_mem_head? hcloses
  · cases hcloses

theorem Wiring.step {s s' : TcpServer T U} {L : Connection → Prop} {a : Action T U}
    (h : Wiring loop s L) (hdistinct : Distinct uuid s.created) (hhanded : Handed s a)
    (hs : TcpServer.step uuid loop s a = some s') :
    Wiring loop s' fun c => L c ∨ tells s a = some c ∨ endsStream s a = some c where
  admitted := h.admitted.step hs
  parted := h.parted.step h.admitted hs
  removal := h.removal.step h.admitted hdistinct (h.wired a) hs
  stopping := by
    intro t c hmem
    apply step_accepted hs
    rcases step_stops hs hmem with hold | hregistered | ⟨u, rfl⟩
    · exact h.stopping t c hold
    · exact h.admitted.registered c hregistered
    · exact hhanded
  posting := by
    intro t c hmem
    rcases step_posts hs hmem with hold | ⟨rfl, rest, hold⟩
    · exact Or.inl (h.posting t c hold)
    · have haccepted : c ∈ accepted s.raised := h.stopping t c (by rw [hold]; exact List.mem_cons_self)
      exact Or.inr (Or.inl (by simp only [tells, hold, haccepted, if_true]))
  posted := by
    intro c hmem
    rcases step_posted_from hs hmem with hold | ⟨t, ht⟩
    · exact Or.inl (h.posted c hold)
    · exact Or.inl (h.posting t c ht)
  holder := fun t => step_holder (h.holder t) hs

/-- Every run that calls `disconnect()` on accepted connections only. -/
theorem wiring_run {s : TcpServer T U} {as : List (Action T U)}
    (hrun : run (TcpServer.step uuid loop) .started as = some s)
    (hhanded : Meets (TcpServer.step uuid loop) Handed .started as)
    (hdistinct : Distinct uuid s.created) : ∃ L, Wiring loop s L := by
  have hearlier : ∀ s a s', TcpServer.step uuid loop s a = some s' →
      Distinct uuid s'.created → Distinct uuid s.created := by
    intro s a s' hs hlater c d hc hd
    have hle := step_created hs
    exact hlater c d (Nat.lt_of_lt_of_le hc hle) (Nat.lt_of_lt_of_le hd hle)
  have halong := along_of_meets_to hearlier (I := fun s => ∃ L, Wiring loop s L)
    (A := fun _ => True) ?_ ⟨_, started_wiring loop⟩ hrun hdistinct (fun _ _ => trivial) hhanded
  · exact halong.last hrun
  · rintro s a s' ⟨L, h⟩ hlater _ hhanded hs
    exact ⟨_, h.step (hearlier s a s' hs hlater) hhanded hs⟩

/-! ## A server at rest -/

/-- The mutex is free, the registered connections are connected to the server, and they can be told
apart. -/
structure AtRest (uuid : Connection → U) (s : TcpServer T U) : Prop where
  unlocked : s.server_sync = none
  connected : ∀ c ∈ s.connections, s.slots c .onDisconnected = true
  distinct : ∀ c ∈ s.connections, ∀ d ∈ s.connections, uuid c = uuid d → c = d

omit [DecidableEq T] [DecidableEq U] in
/-- No thread is in a call, but for `t` perhaps in a listener of a signal that is raised with no mutex
held. -/
theorem Wiring.atRest {s : TcpServer T U} {L : Connection → Prop} (h : Wiring loop s L)
    (hdistinct : Distinct uuid s.created) {t : T} (hothers : ∀ u, u ≠ t → s.stack u = [])
    (hidle : removing (s.stack t) = none) (hunlocked : .finishAccept ∉ s.stack t) :
    AtRest uuid s where
  unlocked := by
    cases hsync : s.server_sync with
    | none => rfl
    | some u =>
      have hholder := h.holder u hsync
      by_cases heq : u = t
      · subst heq
        exact absurd hholder hunlocked
      · rw [hothers u heq] at hholder
        cases hholder
  connected := by
    intro c hc
    rcases h.removal.wired c hc with hslot | ⟨u, hu⟩
    · exact hslot
    · by_cases heq : u = t
      · subst heq
        rw [hidle] at hu
        cases hu
      · rw [hothers u heq] at hu
        cases hu
  distinct := by
    intro c hc d hd heq
    exact hdistinct c d (h.admitted.created c (h.admitted.registered c hc))
      (h.admitted.created d (h.admitted.registered d hd)) heq

end Calls

end Diginext.Server
