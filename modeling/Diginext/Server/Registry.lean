import Diginext.Foundations.Transition
import Diginext.Server.Trace

/-! # The registry of a single-threaded server

Only the event loop runs, so between two steps of a call nothing else happens but what the call itself
starts. `Book` relates `connections` to the events raised: a connection is registered while it is open,
except from the moment `removeConnectionByUUID` has erased it to the `onDisconnected` that follows.
That is a moment of the innermost call only (`pendingOf`): all calls below it are waiting for a call
they made themselves, and there the registry is up to date (`Orderly`).
-/
namespace Diginext.Server
open Cpp Transition
set_option autoImplicit false

variable {U : Type}

/-! ## The registry and the events -/

/-- `pending` has been erased, and its `onDisconnected` is still to be raised. -/
structure Book (s : TcpServer Unit U) (pending : Option Connection) : Prop where
  phase : ∀ c, Unseen c s.raised ∨ Open c s.raised ∨ Closed c s.raised
  members : ∀ c, c ∈ s.connections ↔ Open c s.raised ∧ pending ≠ some c
  leaving : ∀ c, pending = some c → Open c s.raised
  order : s.connections.Sublist (accepted s.raised)
  nodup : (accepted s.raised).Nodup
  created : ∀ c, ¬ Unseen c s.raised → c < s.created
  offered : ∀ c, s.accepting = some c → Unseen c s.raised ∧ c < s.created

theorem Book.congr {s s' : TcpServer Unit U} {pending : Option Connection} (h : Book s pending)
    (hc : s'.connections = s.connections) (hr : s'.raised = s.raised) (hn : s'.created = s.created)
    (ha : ∀ c, s'.accepting = some c → s.accepting = some c) : Book s' pending where
  phase := by rw [hr]; exact h.phase
  members := by rw [hc, hr]; exact h.members
  leaving := by rw [hr]; exact h.leaving
  order := by rw [hc, hr]; exact h.order
  nodup := by rw [hr]; exact h.nodup
  created := by rw [hr, hn]; exact h.created
  offered := by
    intro c hc'
    rw [hr, hn]
    exact h.offered c (ha c hc')

theorem started_book : Book (TcpServer.started : TcpServer Unit U) none where
  phase := fun _ => Or.inl rfl
  members := by
    intro c
    constructor
    · intro hc
      cases hc
    · rintro ⟨hopen, -⟩
      exact absurd rfl hopen.not_unseen
  leaving := by simp
  order := List.Sublist.refl _
  nodup := List.nodup_nil
  created := fun _ h => absurd rfl h
  offered := by
    intro c hc
    cases hc
    exact ⟨rfl, Nat.one_pos⟩

/-- An event of an open connection `p`, after which it is registered just if it is still open. -/
theorem Book.raise {s : TcpServer Unit U} {pending : Option Connection} (h : Book s pending)
    {event : Event} {p : Connection} (hp : event.connection = p)
    (hne : ∀ c, event ≠ .onAccepted c) (hopen : Open p s.raised)
    (hpending : ∀ c, pending = some c → c = p)
    (hphase : Open p (s.raised ++ [event]) ∨ Closed p (s.raised ++ [event]))
    (hmem : p ∈ s.connections ↔ Open p (s.raised ++ [event])) :
    Book { s with raised := s.raised ++ [event] } none := by
  have hother : ∀ c, c ≠ p → event.connection ≠ c := by
    rintro c hc rfl
    exact hc hp
  constructor
  · intro c
    by_cases hc : c = p
    · subst hc
      exact Or.inr hphase
    · obtain ⟨hunseen, hopen', hclosed⟩ := phase_append_other (hother c hc) s.raised
      rw [hunseen, hopen', hclosed]
      exact h.phase c
  · intro c
    by_cases hc : c = p
    · subst hc
      simpa using hmem
    · have hnot : pending ≠ some c := fun hsome => hc (hpending c hsome)
      rw [h.members c, (phase_append_other (hother c hc) s.raised).2.1]
      simp [hnot]
  · simp
  · rw [accepted_append_other hne]
    exact h.order
  · rw [accepted_append_other hne]
    exact h.nodup
  · intro c hc
    by_cases heq : c = p
    · subst heq
      exact h.created c hopen.not_unseen
    · rw [(phase_append_other (hother c heq) s.raised).1] at hc
      exact h.created c hc
  · intro c hc
    obtain ⟨hunseen, hlt⟩ := h.offered c hc
    have heq : c ≠ p := by
      rintro rfl
      exact hopen.not_unseen hunseen
    exact ⟨(phase_append_other (hother c heq) s.raised).1.mpr hunseen, hlt⟩

theorem Book.notice {s : TcpServer Unit U} (h : Book s none) {event : Event}
    (hnotice : event.isNotice = true) (hmem : event.connection ∈ s.connections) :
    Book { s with raised := s.raised ++ [event] } none := by
  have hopen := ((h.members _).mp hmem).1
  have hne : ∀ c, event ≠ .onAccepted c := by
    rintro c rfl
    cases hnotice
  have hstill := hopen.notice rfl hnotice
  exact h.raise rfl hne hopen (by simp) (Or.inl hstill) (iff_of_true hmem hstill)

theorem Book.disconnected {s : TcpServer Unit U} {p : Connection} (h : Book s (some p)) :
    Book { s with raised := s.raised ++ [.onDisconnected p] } none := by
  have hopen := h.leaving p rfl
  have hclosed := hopen.disconnected
  have hnot : p ∉ s.connections := by
    intro hmem
    exact ((h.members p).mp hmem).2 rfl
  have hnotopen : ¬ Open p (s.raised ++ [.onDisconnected p]) := fun hp => hp.not_closed hclosed
  exact h.raise rfl (by simp) hopen (fun c hc => (Option.some.inj hc).symm) (Or.inr hclosed)
    (iff_of_false hnot hnotopen)

theorem Book.accept {s : TcpServer Unit U} (h : Book s none) {c : Connection}
    (hunseen : Unseen c s.raised) (hlt : c < s.created) (hidle : s.accepting = none) :
    Book (s.handleAccept () c) none := by
  have hopen := hunseen.accepted
  have hother : ∀ d, d ≠ c → (Event.onAccepted c).connection ≠ d := by
    rintro d hd rfl
    exact hd rfl
  have hnew : c ∉ accepted s.raised := by
    rw [mem_accepted]
    exact hunseen.not_mem rfl
  constructor
  · intro d
    by_cases hd : d = c
    · subst hd
      exact Or.inr (Or.inl hopen)
    · obtain ⟨hunseen', hopen', hclosed⟩ := phase_append_other (hother d hd) s.raised
      simp only [TcpServer.handleAccept]
      rw [hunseen', hopen', hclosed]
      exact h.phase d
  · intro d
    simp only [TcpServer.handleAccept, List.mem_append, List.mem_singleton]
    by_cases hd : d = c
    · subst hd
      simp [hopen]
    · rw [h.members d, (phase_append_other (hother d hd) s.raised).2.1]
      simp [hd]
  · simp
  · simp only [TcpServer.handleAccept, accepted_append_self]
    exact h.order.append (List.Sublist.refl [c])
  · simp only [TcpServer.handleAccept, accepted_append_self]
    exact List.nodup_append.mpr ⟨h.nodup, List.nodup_singleton c, by
      rintro a ha b hb rfl
      rw [List.mem_singleton.mp hb] at ha
      exact hnew ha⟩
  · intro d hd
    simp only [TcpServer.handleAccept] at hd ⊢
    by_cases heq : d = c
    · subst heq
      exact hlt
    · rw [(phase_append_other (hother d heq) s.raised).1] at hd
      exact h.created d hd
  · intro d hd
    simp [TcpServer.handleAccept, hidle] at hd

theorem Book.startAccept {s : TcpServer Unit U} {pending : Option Connection} (h : Book s pending) :
    Book s.startAccept pending where
  phase := h.phase
  members := h.members
  leaving := h.leaving
  order := h.order
  nodup := h.nodup
  created := fun c hc => Nat.lt_succ_of_lt (h.created c hc)
  offered := by
    intro c hc
    have heq : s.created = c := Option.some.inj hc
    subst heq
    refine ⟨?_, Nat.lt_succ_self _⟩
    by_contra hseen
    exact Nat.lt_irrefl _ (h.created _ hseen)

/-! ## Identifiers -/

def Distinct (uuid : Connection → U) (n : ℕ) : Prop :=
  ∀ c d, c < n → d < n → uuid c = uuid d → c = d

theorem Book.eq_of_uuid {s : TcpServer Unit U} {pending : Option Connection} (h : Book s pending)
    {uuid : Connection → U} (hdistinct : Distinct uuid s.created) {c d : Connection}
    (hc : Open c s.raised) (hd : Open d s.raised) (heq : uuid c = uuid d) : c = d :=
  hdistinct c d (h.created c hc.not_unseen) (h.created d hd.not_unseen) heq

variable [DecidableEq U] {uuid : Connection → U}

/-- `removeConnectionByUUID` erases the connection and no other. -/
theorem Book.erase {s : TcpServer Unit U} (h : Book s none) (hdistinct : Distinct uuid s.created)
    {p : Connection} (hp : p ∈ s.connections) : Book (s.removeFirst uuid (uuid p)) (some p) := by
  have hopen := ((h.members p).mp hp).1
  have honly : ∀ c ∈ s.connections, decide (uuid c = uuid p) = true → c = p := by
    intro c hc heq
    exact h.eq_of_uuid hdistinct ((h.members c).mp hc).1 hopen (by simpa using heq)
  have hmem := mem_eraseP_only (h.nodup.sublist h.order) hp (by simp) honly
  constructor
  · exact h.phase
  · intro c
    simp only [TcpServer.removeFirst]
    rw [hmem c, h.members c]
    simp [eq_comm]
  · intro c hc
    cases hc
    exact hopen
  · exact List.eraseP_sublist.trans h.order
  · exact h.nodup
  · exact h.created
  · exact h.offered

theorem Book.erased {s : TcpServer Unit U} {p : Connection} (h : Book s (some p))
    (hdistinct : Distinct uuid s.created) : s.getConnectionByUUID uuid (uuid p) = none := by
  cases hfound : s.getConnectionByUUID uuid (uuid p) with
  | none => rfl
  | some c =>
    obtain ⟨hc, heq⟩ := TcpServer.getConnectionByUUID_some hfound
    obtain ⟨hopen, hne⟩ := (h.members c).mp hc
    have hcp := h.eq_of_uuid hdistinct hopen (h.leaving p rfl) heq
    exact absurd (congrArg some hcp.symm) hne

end Diginext.Server
