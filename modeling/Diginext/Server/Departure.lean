import Diginext.Server.Admission

/-! # What has left the registry is gone

The threads that announce `onDisconnected` for a connection have found it registered and have erased
it. Since it is not registered again, a connection whose `onDisconnected` has been raised was accepted
once and is not registered.
-/
namespace Diginext.Server
open Cpp Transition
set_option autoImplicit false

variable {T U : Type}

/-- The connection that a call of `handle_tcp_connection_disconnected` has found. -/
def Frame.leaves : Frame U → Option Connection
  | dropSlots _ p | erase p | recheck p | emit (.onDisconnected p) => some p
  | _ => none

theorem Frame.calm_leaves {frame : Frame U} (h : frame.calm = true) : frame.leaves = none := by
  cases frame with
  | dropSlots _ _ | erase _ | recheck _ => cases h
  | emit event =>
    cases event with
    | onDisconnected p => cases h
    | _ => rfl
  | _ => rfl

structure Parted (s : TcpServer T U) : Prop where
  known : ∀ t, ∀ frame ∈ s.stack t, ∀ p, frame.leaves = some p → p ∈ accepted s.raised
  erased : ∀ t p, .emit (.onDisconnected p) ∈ s.stack t → p ∉ s.connections
  gone : ∀ p, .onDisconnected p ∈ s.raised → p ∈ accepted s.raised ∧ p ∉ s.connections

theorem started_parted : Parted (TcpServer.started : TcpServer T U) where
  known := by simp [TcpServer.started]
  erased := by simp [TcpServer.started]
  gone := by simp [TcpServer.started]

variable [DecidableEq T]

/-- A thread goes on; what it newly leaves is accepted, what it newly announces is erased. -/
theorem Parted.goes {s s' : TcpServer T U} (h : Parted s) {t : T} (new rest : List (Frame U))
    (hstack : s'.stack = Function.update s.stack t (new ++ rest)) (hrest : rest ⊆ s.stack t)
    (hc : ∀ c ∈ s'.connections, c ∈ s.connections) (hr : s'.raised = s.raised)
    (hnew : ∀ frame ∈ new, ∀ p, frame.leaves = some p → p ∈ accepted s.raised)
    (herased : ∀ p, .emit (.onDisconnected p) ∈ new → p ∉ s'.connections) : Parted s' := by
  have hmem : ∀ u frame, frame ∈ s'.stack u → frame ∈ s.stack u ∨ frame ∈ new := by
    intro u frame hf
    rw [hstack] at hf
    by_cases heq : u = t
    · subst heq
      rw [Function.update_self] at hf
      rcases List.mem_append.mp hf with hf | hf
      · exact Or.inr hf
      · exact Or.inl (hrest hf)
    · rw [Function.update_of_ne heq] at hf
      exact Or.inl hf
  constructor
  · intro u frame hf p hp
    rw [hr]
    rcases hmem u frame hf with hf | hf
    · exact h.known u frame hf p hp
    · exact hnew frame hf p hp
  · intro u p hf
    rcases hmem u _ hf with hf | hf
    · exact fun hp => h.erased u p hf (hc p hp)
    · exact herased p hf
  · intro p hp
    rw [hr] at hp ⊢
    exact ⟨(h.gone p hp).1, fun hmem => (h.gone p hp).2 (hc p hmem)⟩

theorem Parted.onward {s s' : TcpServer T U} (h : Parted s) {t : T} (new rest : List (Frame U))
    (hs : Restacked s s' t (new ++ rest)) (hrest : rest ⊆ s.stack t)
    (hnew : ∀ frame ∈ new, frame.leaves = none) : Parted s' := by
  obtain ⟨hc, hr, -, -, hstack⟩ := hs
  refine h.goes new rest hstack hrest (fun c hmem => hc ▸ hmem) hr ?_ ?_
  · intro frame hf p hp
    rw [hnew frame hf] at hp
    cases hp
  · intro p hf
    cases hnew _ hf

/-- A thread goes on with the connection it is leaving, which is not announced yet. -/
theorem Parted.leaving {s s' : TcpServer T U} (h : Parted s) {t : T} (frame : Frame U)
    {rest : List (Frame U)} {p : Connection}
    (hstack : s'.stack = Function.update s.stack t (frame :: rest)) (hrest : rest ⊆ s.stack t)
    (hc : ∀ c ∈ s'.connections, c ∈ s.connections) (hr : s'.raised = s.raised)
    (hframe : frame.leaves = some p) (hp : p ∈ accepted s.raised)
    (herased : frame = .emit (.onDisconnected p) → p ∉ s'.connections) : Parted s' := by
  refine h.goes [frame] rest hstack hrest hc hr ?_ ?_
  · intro f hf q hq
    rw [List.mem_singleton.mp hf, hframe] at hq
    cases hq
    exact hp
  · intro q hq
    have heq : frame = .emit (.onDisconnected q) := (List.mem_singleton.mp hq).symm
    subst heq
    cases hframe
    exact herased rfl

omit [DecidableEq T] in
/-- An event other than `onAccepted`; an `onDisconnected` is that of a connection a thread is
announcing. -/
theorem Parted.raise {s : TcpServer T U} (h : Parted s) {event : Event}
    (hne : ∀ c, event ≠ .onAccepted c)
    (hevent : ∀ p, event = .onDisconnected p → p ∈ accepted s.raised ∧ p ∉ s.connections) :
    Parted { s with raised := s.raised ++ [event] } where
  known := by
    simp only [accepted_append_other hne]
    exact h.known
  erased := h.erased
  gone := by
    intro p hp
    simp only [accepted_append_other hne]
    rcases List.mem_append.mp hp with hp | hp
    · exact h.gone p hp
    · exact hevent p (List.mem_singleton.mp hp).symm

omit [DecidableEq T] in
theorem Parted.accept {s : TcpServer T U} (h : Parted s) (t : T) {c : Connection}
    (hunseen : c ∉ accepted s.raised) : Parted (s.handleAccept t c) := by
  have haccepted : ∀ d ∈ accepted s.raised, d ∈ accepted (s.raised ++ [.onAccepted c]) := by
    intro d hd
    rw [accepted_append_self]
    exact List.mem_append_left _ hd
  have hstill : ∀ d ∈ accepted s.raised, d ∉ s.connections → d ∉ s.connections ++ [c] := by
    intro d hd hnot hmem
    rcases List.mem_append.mp hmem with hmem | hmem
    · exact hnot hmem
    · rw [List.mem_singleton.mp hmem] at hd
      exact hunseen hd
  constructor
  · exact fun u frame hf p hp => haccepted p (h.known u frame hf p hp)
  · exact fun u p hf => hstill p (h.known u _ hf p rfl) (h.erased u p hf)
  · intro p hp
    have hold : .onDisconnected p ∈ s.raised := by simpa [TcpServer.handleAccept] using hp
    obtain ⟨hmem, hnot⟩ := h.gone p hold
    exact ⟨haccepted p hmem, hstill p hmem hnot⟩

variable [DecidableEq U] {uuid : Connection → U}

theorem Parted.advance {loop t : T} {s s' : TcpServer T U} (h : Parted s) (hadmitted : Admitted loop s)
    {frame : Frame U} {rest : List (Frame U)} (hstack : s.stack t = frame :: rest)
    (hs : s.advance uuid t rest frame = some s') : Parted s' := by
  have hpart : rest ⊆ s.stack t := by
    rw [hstack]
    exact List.subset_cons_self _ _
  have htop : frame ∈ s.stack t := by
    rw [hstack]
    exact List.mem_cons_self ..
  cases TcpServer.advances_of_advance uuid hs with
  | @follows frame new hf =>
    exact h.onward new rest (restacked ..) hpart fun f hmem =>
      Frame.calm_leaves (follows_calm hf f hmem)
  | post c | read c | notFound _ => exact h.onward [] rest ⟨rfl, rfl, rfl, rfl, rfl⟩ hpart (by simp)
  | @found c p hfound =>
    have hp := hadmitted.registered p (TcpServer.getConnectionByUUID_some hfound).1
    exact h.leaving (.dropSlots c p) rfl hpart (fun _ hc => hc) rfl rfl hp (by simp)
  | dropSlots c p =>
    exact h.leaving (.erase p) rfl hpart (fun _ hc => hc) rfl rfl (h.known t _ htop p rfl) (by simp)
  | erase p =>
    exact h.leaving (.recheck p) rfl hpart (fun _ hc => List.mem_of_mem_eraseP hc) rfl rfl
      (h.known t _ htop p rfl) (by simp)
  | @again p q hfound =>
    exact h.leaving (.erase p) rfl hpart (fun _ hc => hc) rfl rfl (h.known t _ htop p rfl) (by simp)
  | @removed p hnone =>
    exact h.leaving (.emit (.onDisconnected p)) rfl hpart (fun _ hc => hc) rfl rfl
      (h.known t _ htop p rfl) fun _ => TcpServer.not_registered_of_lookup hnone
  | emit event =>
    have hmoved : Parted (s.setStack t (.listening event :: rest)) :=
      h.onward [.listening event] rest (restacked ..) hpart (by simp [Frame.leaves])
    refine hmoved.raise (hadmitted.not_accepted hstack) ?_
    rintro p rfl
    exact ⟨h.known t _ htop p rfl, h.erased t p htop⟩
  | register c hsync =>
    have hmoved : Parted (s.setStack t (.listening (.onAccepted c) :: .finishAccept :: rest)) :=
      h.onward [.listening (.onAccepted c), .finishAccept] rest (restacked ..) hpart
        (by simp [Frame.leaves])
    exact hmoved.accept t (hadmitted.ticket hstack).2.1
  | finishAccept =>
    have hmoved : Parted (s.setStack t rest) :=
      h.onward [] rest (restacked ..) hpart (by simp)
    exact ⟨hmoved.known, hmoved.erased, hmoved.gone⟩

omit [DecidableEq U] in
theorem Parted.dispatch {loop : T} {s s' : TcpServer T U} (h : Parted s) {completion : Completion}
    (hs : TcpServer.Dispatches loop s completion s') : Parted s' := by
  have hfresh : ∀ {s' : TcpServer T U} (frames : List (Frame U)),
      s'.stack = Function.update s.stack loop frames → s'.connections = s.connections →
      s'.raised = s.raised → (∀ frame ∈ frames, frame.leaves = none) → Parted s' := by
    intro s' frames hstack hc hr hnew
    refine h.goes frames [] (by rw [hstack, List.append_nil]) (List.nil_subset _)
      (fun c hmem => hc ▸ hmem) hr ?_ ?_
    · intro frame hf p hp
      rw [hnew frame hf] at hp
      cases hp
    · intro p hf
      cases hnew _ hf
  cases hs with
  | accept hc => exact hfresh [.register _] rfl rfl rfl (by simp [Frame.leaves])
  | acceptError error hc =>
    exact hfresh [.emit (.onAcceptError _ error), .register _] rfl rfl rfl (by simp [Frame.leaves])
  | read messages hc => exact hfresh [.reading _ messages] rfl rfl rfl (by simp [Frame.leaves])
  | @readError c error n hc =>
    refine hfresh (s.handleReadError c error n) rfl rfl rfl fun frame hf => ?_
    rcases TcpServer.mem_handleReadError hf with rfl | rfl
    · rfl
    · rfl
  | writeError c error n =>
    refine hfresh _ rfl rfl rfl fun frame hf => ?_
    rcases TcpServer.mem_emission_concat hf with rfl | rfl
    · rfl
    · rfl
  | closure hc => exact ⟨h.known, h.erased, h.gone⟩

theorem Parted.step {loop : T} {s s' : TcpServer T U} {a : Action T U} (h : Parted s)
    (hadmitted : Admitted loop s) (hs : TcpServer.step uuid loop s a = some s') : Parted s' := by
  have hentry : ∀ op, (TcpServer.entry uuid op).leaves = none := by
    intro op
    cases op <;> rfl
  cases TcpServer.steps_of_step uuid hs with
  | dispatch hrunning hidle hd => exact h.dispatch hd
  | call op hidle hloop =>
    exact h.onward [TcpServer.entry uuid op] [] (restacked ..) (List.nil_subset _)
      (by simpa using hentry op)
  | @callback t event rest op hstack =>
    exact h.onward [TcpServer.entry uuid op] (.listening event :: rest) (restacked ..)
      (by rw [hstack]; exact List.Subset.refl _) (by simpa using hentry op)
  | @returns t event rest hstack =>
    exact h.onward [] rest (restacked ..) (by rw [hstack]; exact List.subset_cons_self _ _) (by simp)
  | @caught t event rest hstack hframes =>
    refine h.onward [] (TcpServer.unwind rest) (restacked ..) ?_ (by simp)
    rw [hstack]
    exact List.Subset.trans (List.dropWhile_sublist _).subset (List.subset_cons_self _ _)
  | escapes hstack hframes =>
    exact h.onward [] [] (restacked ..) (List.nil_subset _) (by simp)
  | advance hstack hadvance => exact h.advance hadmitted hstack hadvance

end Diginext.Server
