import Diginext.Foundations.Transition

/-! # Who owns the connection of a client

A `tcp_client` keeps its connection in `tcp_conn`; `tcp_connection::connect` and the closure that
`tcp_connection::stop` posts bind a raw `this`, reads and writes bind `shared_from_this()`. A
connection without an owner has been destroyed: its pending operations complete with an error, and
their handlers and the posted closure are still dispatched. Connections are numbered in the order in
which `tcp_client::connect` creates them.

A call from a listener is taken to follow the handler that raised the event. Whether a read or a write
is followed by another, and whether `send` starts a write, depends on the data and is left open.
-/
namespace Diginext.Tcp
open Transition
set_option autoImplicit false

inductive HandlerKind where
  | connect
  | read
  | write
  | close
  deriving DecidableEq, Repr

/-- The handlers that bind a shared pointer. -/
def HandlerKind.shared : HandlerKind → Bool
  | .connect => false
  | .read => true
  | .write => true
  | .close => false

structure PendingHandler where
  kind : HandlerKind
  connection : ℕ
  deriving DecidableEq, Repr

structure Ownership where
  created : ℕ
  tcp_conn : Option ℕ
  pending : List PendingHandler
  deriving DecidableEq, Repr

def Ownership.fresh : Ownership := ⟨0, none, []⟩

/-- A pending handler that binds a shared pointer to the connection. -/
def Ownership.Shares (s : Ownership) (c : ℕ) : Prop :=
  ∃ h ∈ s.pending, h.kind.shared = true ∧ h.connection = c

def Ownership.Owned (s : Ownership) (c : ℕ) : Prop := s.tcp_conn = some c ∨ s.Shares c

/-- A pending handler that binds a raw pointer to the connection. -/
def Ownership.Points (s : Ownership) (c : ℕ) : Prop :=
  ∃ h ∈ s.pending, h.kind.shared = false ∧ h.connection = c

/-- What a handler leaves pending: a connect that succeeded and a read that goes on start a read, a
write that goes on starts a write. -/
def PendingHandler.next (h : PendingHandler) (again : Bool) : List PendingHandler :=
  match h.kind, again with
  | .connect, true => [⟨.read, h.connection⟩]
  | .read, true => [⟨.read, h.connection⟩]
  | .write, true => [⟨.write, h.connection⟩]
  | _, _ => []

inductive OwnershipAction where
  | connect
  | disconnect
  | send (writes : Bool)
  | dispatch (h : PendingHandler) (again : Bool)
  deriving DecidableEq, Repr

/-- `tcp_client::connect`, `disconnect` and `send`, and the dispatch of a pending handler. -/
def ownershipStep (s : Ownership) : OwnershipAction → Option Ownership
  | .connect => some {
      created := s.created + 1
      tcp_conn := some s.created
      pending := s.pending ++ [⟨.connect, s.created⟩] }
  | .disconnect =>
    match s.tcp_conn with
    | some c => some { s with pending := s.pending ++ [⟨.close, c⟩] }
    | none => some s
  | .send writes =>
    match s.tcp_conn with
    | some c => some { s with pending := s.pending ++ if writes then [⟨.write, c⟩] else [] }
    | none => some s
  | .dispatch h again =>
    if h ∈ s.pending then some { s with pending := s.pending.erase h ++ h.next again } else none

/-- Whichever handler is dispatched next, its connection is owned. -/
def DispatchesOwned (s : Ownership) : Prop := ∀ h ∈ s.pending, s.Owned h.connection

/-- A step that takes the last owner from a connection leaves no raw handler of it pending: `connect`
where it replaces `tcp_conn`, and the last read or write of a connection that has been replaced. -/
def ReleasesLast (s : Ownership) : OwnershipAction → Prop
  | .connect => ∀ c, s.tcp_conn = some c → s.Points c → s.Shares c
  | .dispatch h again =>
    h.kind.shared = true → s.tcp_conn ≠ some h.connection → h.next again = [] →
      s.Points h.connection →
        ∃ g ∈ s.pending.erase h, g.kind.shared = true ∧ g.connection = h.connection
  | .disconnect => True
  | .send _ => True

/-! ## One step -/

structure Ownership.Sound (s : Ownership) : Prop where
  owned : DispatchesOwned s
  known : ∀ h ∈ s.pending, h.connection < s.created
  current : ∀ c, s.tcp_conn = some c → c < s.created

theorem fresh_sound : Ownership.fresh.Sound where
  owned := nofun
  known := nofun
  current := nofun

theorem next_connection {h g : PendingHandler} {again : Bool} (hg : g ∈ h.next again) :
    g.kind.shared = true ∧ g.connection = h.connection := by
  unfold PendingHandler.next at hg
  split at hg
  · rw [List.mem_singleton.mp hg]
    exact ⟨rfl, rfl⟩
  · rw [List.mem_singleton.mp hg]
    exact ⟨rfl, rfl⟩
  · rw [List.mem_singleton.mp hg]
    exact ⟨rfl, rfl⟩
  · cases hg

/-- More pending handlers, with the same `tcp_conn`, take no owner away. -/
theorem Ownership.Owned.append {s : Ownership} {c : ℕ} (h : s.Owned c) (hs : List PendingHandler) :
    ({ s with pending := s.pending ++ hs } : Ownership).Owned c := by
  rcases h with h | ⟨g, hg, hshared, hc⟩
  · exact Or.inl h
  · exact Or.inr ⟨g, List.mem_append_left _ hg, hshared, hc⟩

/-- Handlers added for the connection in `tcp_conn` have it as their owner. -/
theorem Ownership.Sound.add {s : Ownership} (h : s.Sound) {c : ℕ} (hconn : s.tcp_conn = some c)
    (hs : List PendingHandler) (hall : ∀ g ∈ hs, g.connection = c) :
    ({ s with pending := s.pending ++ hs } : Ownership).Sound where
  owned := by
    intro g hg
    rcases List.mem_append.mp hg with hg | hg
    · exact (h.owned g hg).append hs
    · exact Or.inl (hall g hg ▸ hconn)
  known := by
    intro g hg
    rcases List.mem_append.mp hg with hg | hg
    · exact h.known g hg
    · exact hall g hg ▸ h.current c hconn
  current := h.current

theorem Ownership.Sound.connect {s s' : Ownership} (h : s.Sound) (hlast : ReleasesLast s .connect)
    (hs : ownershipStep s .connect = some s') : s'.Sound := by
  cases hs
  constructor
  · intro g hg
    rcases List.mem_append.mp hg with hg | hg
    · -- The owner may have been `tcp_conn`; then a handler that shares is needed.
      rcases h.owned g hg with hconn | ⟨k, hk, hshared, hc⟩
      · have hshares : s.Shares g.connection := by
          cases hkind : g.kind.shared with
          | true => exact ⟨g, hg, hkind, rfl⟩
          | false => exact hlast g.connection hconn ⟨g, hg, hkind, rfl⟩
        obtain ⟨k, hk, hshared, hc⟩ := hshares
        exact Or.inr ⟨k, List.mem_append_left _ hk, hshared, hc⟩
      · exact Or.inr ⟨k, List.mem_append_left _ hk, hshared, hc⟩
    · rw [List.mem_singleton.mp hg]
      exact Or.inl rfl
  · intro g hg
    rcases List.mem_append.mp hg with hg | hg
    · exact Nat.lt_succ_of_lt (h.known g hg)
    · rw [List.mem_singleton.mp hg]
      exact Nat.lt_succ_self _
  · rintro c ⟨⟩
    exact Nat.lt_succ_self _

theorem Ownership.Sound.dispatch {s s' : Ownership} {h : PendingHandler} {again : Bool}
    (hsound : s.Sound) (hlast : ReleasesLast s (.dispatch h again))
    (hs : ownershipStep s (.dispatch h again) = some s') : s'.Sound := by
  obtain ⟨hmem, hs⟩ := Option.ite_none_right_eq_some.mp hs
  cases hs
  constructor
  · intro g hg
    -- A handler that shares owns its connection itself.
    cases hkind : g.kind.shared with
    | true => exact Or.inr ⟨g, hg, hkind, rfl⟩
    | false =>
      rcases List.mem_append.mp hg with hg' | hg'
      · have hpending := List.mem_of_mem_erase hg'
        rcases hsound.owned g hpending with hconn | ⟨k, hk, hshared, hc⟩
        · exact Or.inl hconn
        · by_cases hkh : k = h
          · subst hkh
            by_cases hconn : s.tcp_conn = some k.connection
            · exact Or.inl (hc ▸ hconn)
            cases hnext : k.next again with
            | cons f fs =>
              have hf : f ∈ k.next again := by
                rw [hnext]
                exact List.mem_cons_self
              obtain ⟨hfshared, hfc⟩ := next_connection hf
              exact Or.inr ⟨f, List.mem_append_right _ List.mem_cons_self, hfshared, hfc.trans hc⟩
            | nil =>
              obtain ⟨f, hf, hfshared, hfc⟩ :=
                hlast hshared hconn hnext ⟨g, hpending, hkind, hc.symm⟩
              exact Or.inr ⟨f, List.mem_append_left _ hf, hfshared, hfc.trans hc⟩
          · have hk' : k ∈ s.pending.erase h := (List.mem_erase_of_ne hkh).mpr hk
            exact Or.inr ⟨k, List.mem_append_left _ hk', hshared, hc⟩
      · obtain ⟨hgshared, -⟩ := next_connection hg'
        rw [hkind] at hgshared
        cases hgshared
  · intro g hg
    rcases List.mem_append.mp hg with hg | hg
    · exact hsound.known g (List.mem_of_mem_erase hg)
    · obtain ⟨-, hc⟩ := next_connection hg
      exact hc ▸ hsound.known h hmem
  · exact hsound.current

theorem Ownership.Sound.step {s s' : Ownership} {a : OwnershipAction} (h : s.Sound)
    (hlast : ReleasesLast s a) (hs : ownershipStep s a = some s') : s'.Sound := by
  cases a with
  | connect => exact h.connect hlast hs
  | disconnect =>
    cases hconn : s.tcp_conn with
    | none =>
      simp only [ownershipStep, hconn] at hs
      cases hs
      exact h
    | some c =>
      simp only [ownershipStep, hconn] at hs
      cases hs
      exact hconn ▸ h.add hconn _ fun g hg => by rw [List.mem_singleton.mp hg]
  | send writes =>
    cases hconn : s.tcp_conn with
    | none =>
      simp only [ownershipStep, hconn] at hs
      cases hs
      exact h
    | some c =>
      simp only [ownershipStep, hconn] at hs
      cases hs
      refine hconn ▸ h.add hconn _ fun g hg => ?_
      cases writes with
      | true => rw [List.mem_singleton.mp hg]
      | false => cases hg
  | dispatch k again => exact h.dispatch hlast hs

/-- A step that takes the last owner and leaves a raw handler behind. -/
theorem not_dispatchesOwned {s s' : Ownership} {a : OwnershipAction} (h : s.Sound)
    (hlast : ¬ ReleasesLast s a) (hs : ownershipStep s a = some s') : ¬ DispatchesOwned s' := by
  cases a with
  | connect =>
    cases hs
    simp only [ReleasesLast, not_forall] at hlast
    obtain ⟨c, hconn, ⟨g, hg, hraw, hc⟩, hshares⟩ := hlast
    intro howned
    have hold : c < s.created := h.current c hconn
    rcases howned g (List.mem_append_left _ hg) with hnew | ⟨k, hk, hshared, hkc⟩
    · have hnew' : s.created = g.connection := Option.some.inj hnew
      omega
    · rcases List.mem_append.mp hk with hk | hk
      · exact hshares ⟨k, hk, hshared, hkc.trans hc⟩
      · rw [List.mem_singleton.mp hk] at hshared
        cases hshared
  | dispatch k again =>
    obtain ⟨hmem, hs⟩ := Option.ite_none_right_eq_some.mp hs
    cases hs
    simp only [ReleasesLast, not_forall] at hlast
    obtain ⟨hshared, hconn, hnext, ⟨g, hg, hraw, hc⟩, hnone⟩ := hlast
    have hne : g ≠ k := by
      rintro rfl
      rw [hraw] at hshared
      cases hshared
    intro howned
    rw [hnext, List.append_nil] at howned
    rcases howned g ((List.mem_erase_of_ne hne).mpr hg) with hcurrent | ⟨f, hf, hfshared, hfc⟩
    · exact hconn (hc ▸ hcurrent)
    · exact hnone ⟨f, hf, hfshared, hfc.trans hc⟩
  | disconnect | send => exact absurd trivial hlast

/-! ## Every order -/

/-- **Ownership.** Over any order of connects, disconnects, sends and dispatches, every pending handler's
connection is owned exactly if no step takes the last owner of a connection for which a connect
completion or a close closure is pending. -/
theorem dispatchesOwned_iff (as : List OwnershipAction) :
    Along ownershipStep DispatchesOwned .fresh as ↔ Meets ownershipStep ReleasesLast .fresh as := by
  constructor
  · exact meets_of_along (fun s a s' h hlast hs => h.step hlast hs)
      (fun s a s' h hlast hs => not_dispatchesOwned h hlast hs) fresh_sound
  · intro hmeets
    have hsound := along_of_meets (fun s a s' h hlast hs => Ownership.Sound.step h hlast hs)
      fresh_sound hmeets
    exact hsound.mono fun s h => h.owned

/-- A second connect while the first is pending: its completion is dispatched to a destroyed
connection. -/
theorem second_connect_releases_first : ¬ ∀ as, Along ownershipStep DispatchesOwned .fresh as := by
  intro h
  have hr : run ownershipStep .fresh [.connect, .connect] =
      some ⟨2, some 1, [⟨.connect, 0⟩, ⟨.connect, 1⟩]⟩ := rfl
  rcases (h _).last hr ⟨.connect, 0⟩ (by decide) with hconn | ⟨g, hg, hshared, -⟩
  · cases hconn
  · simp only [List.mem_cons, List.not_mem_nil, or_false] at hg
    rcases hg with rfl | rfl
    · cases hshared
    · cases hshared

end Diginext.Tcp
