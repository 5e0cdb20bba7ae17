import Diginext.Server.Machine
import Mathlib.Data.List.Basic
import Mathlib.Data.List.Nodup
import Mathlib.Data.List.Perm.Subperm

/-! # What the server raises for one connection

The events of a connection begin with `onAccepted` and end with `onDisconnected` (`Protocol`). At any
time a connection is unseen, open or closed, and each event takes it from one phase to another.
-/
namespace Diginext.Server
open Cpp
set_option autoImplicit false

def accepted (raised : List Event) : List Connection :=
  raised.filterMap fun event =>
    match event with
    | .onAccepted c => some c
    | _ => none

def about (c : Connection) (raised : List Event) : List Event :=
  raised.filter fun event => event.connection = c

def Event.isNotice : Event → Bool
  | onReadMessage _ _ | onReadError _ _ _ | onSendError _ _ _ => true
  | _ => false

def Unseen (c : Connection) (raised : List Event) : Prop := about c raised = []

def Open (c : Connection) (raised : List Event) : Prop :=
  ∃ middle, about c raised = .onAccepted c :: middle ∧ ∀ event ∈ middle, event.isNotice = true

def Closed (c : Connection) (raised : List Event) : Prop :=
  ∃ middle, about c raised = .onAccepted c :: middle ++ [.onDisconnected c] ∧
    ∀ event ∈ middle, event.isNotice = true

/-- `onAccepted`, then messages and errors, then at most one `onDisconnected`, and nothing after. -/
def Protocol (c : Connection) (raised : List Event) : Prop :=
  about c raised = [] ∨
    ∃ middle last, about c raised = .onAccepted c :: middle ++ last ∧
      (∀ event ∈ middle, event.isNotice = true) ∧ (last = [] ∨ last = [.onDisconnected c])

theorem protocol_of_phase {c : Connection} {raised : List Event}
    (h : Unseen c raised ∨ Open c raised ∨ Closed c raised) : Protocol c raised := by
  rcases h with h | ⟨middle, h, hm⟩ | ⟨middle, h, hm⟩
  · exact Or.inl h
  · exact Or.inr ⟨middle, [], by rw [h, List.append_nil], hm, Or.inl rfl⟩
  · exact Or.inr ⟨middle, [.onDisconnected c], h, hm, Or.inr rfl⟩

/-! ## One more event -/

theorem about_append_self {c : Connection} {event : Event} (h : event.connection = c)
    (raised : List Event) : about c (raised ++ [event]) = about c raised ++ [event] := by
  simp [about, h]

theorem about_append_other {c : Connection} {event : Event} (h : event.connection ≠ c)
    (raised : List Event) : about c (raised ++ [event]) = about c raised := by
  simp [about, h]

theorem phase_append_other {c : Connection} {event : Event} (h : event.connection ≠ c)
    (raised : List Event) :
    (Unseen c (raised ++ [event]) ↔ Unseen c raised) ∧
      (Open c (raised ++ [event]) ↔ Open c raised) ∧
      (Closed c (raised ++ [event]) ↔ Closed c raised) := by
  unfold Unseen Open Closed
  rw [about_append_other h]
  exact ⟨Iff.rfl, Iff.rfl, Iff.rfl⟩

theorem mem_about {c : Connection} {event : Event} (h : event.connection = c) (raised : List Event) :
    event ∈ about c raised ↔ event ∈ raised := by
  simp [about, h]

theorem Unseen.accepted {c : Connection} {raised : List Event} (h : Unseen c raised) :
    Open c (raised ++ [.onAccepted c]) := by
  refine ⟨[], ?_, by simp⟩
  have hc : (Event.onAccepted c).connection = c := rfl
  rw [about_append_self hc, h, List.nil_append]

theorem Open.notice {c : Connection} {raised : List Event} (h : Open c raised) {event : Event}
    (hc : event.connection = c) (hnotice : event.isNotice = true) : Open c (raised ++ [event]) := by
  obtain ⟨middle, habout, hm⟩ := h
  refine ⟨middle ++ [event], ?_, ?_⟩
  · rw [about_append_self hc, habout, List.cons_append]
  · intro e he
    rcases List.mem_append.mp he with he | he
    · exact hm e he
    · rw [List.mem_singleton.mp he]
      exact hnotice

theorem Open.disconnected {c : Connection} {raised : List Event} (h : Open c raised) :
    Closed c (raised ++ [.onDisconnected c]) := by
  obtain ⟨middle, habout, hm⟩ := h
  refine ⟨middle, ?_, hm⟩
  have hc : (Event.onDisconnected c).connection = c := rfl
  rw [about_append_self hc, habout]

/-! ## Phases by the events that have been raised -/

theorem Unseen.not_mem {c : Connection} {raised : List Event} (h : Unseen c raised) {event : Event}
    (hc : event.connection = c) : event ∉ raised := by
  rw [← mem_about hc, h]
  exact List.not_mem_nil

theorem notice_ne_disconnected {c : Connection} {middle : List Event}
    (h : ∀ event ∈ middle, event.isNotice = true) : Event.onDisconnected c ∉ middle := by
  intro hmem
  have hnotice := h _ hmem
  cases hnotice

theorem Open.accepted_mem {c : Connection} {raised : List Event} (h : Open c raised) :
    Event.onAccepted c ∈ raised := by
  obtain ⟨middle, habout, -⟩ := h
  rw [← mem_about (c := c) rfl, habout]
  exact List.mem_cons_self ..

theorem Open.disconnected_not_mem {c : Connection} {raised : List Event} (h : Open c raised) :
    Event.onDisconnected c ∉ raised := by
  obtain ⟨middle, habout, hm⟩ := h
  rw [← mem_about (c := c) rfl, habout, List.mem_cons]
  rintro (he | he)
  · cases he
  · exact notice_ne_disconnected hm he

theorem Closed.disconnected_mem {c : Connection} {raised : List Event} (h : Closed c raised) :
    Event.onDisconnected c ∈ raised := by
  obtain ⟨middle, habout, -⟩ := h
  rw [← mem_about (c := c) rfl, habout]
  exact List.mem_append_right _ (List.mem_singleton_self _)

theorem Open.not_unseen {c : Connection} {raised : List Event} (h : Open c raised) :
    ¬ Unseen c raised := fun hu => hu.not_mem rfl h.accepted_mem

theorem Open.not_closed {c : Connection} {raised : List Event} (h : Open c raised) :
    ¬ Closed c raised := fun hc => h.disconnected_not_mem hc.disconnected_mem

theorem mem_accepted {c : Connection} {raised : List Event} :
    c ∈ accepted raised ↔ Event.onAccepted c ∈ raised := by
  simp only [accepted, List.mem_filterMap]
  constructor
  · rintro ⟨event, he, hc⟩
    cases event <;> simp_all
  · intro h
    exact ⟨_, h, rfl⟩

theorem accepted_append_other {event : Event} (h : ∀ c, event ≠ .onAccepted c) (raised : List Event) :
    accepted (raised ++ [event]) = accepted raised := by
  rw [accepted, List.filterMap_append]
  cases event with
  | onAccepted c => exact absurd rfl (h c)
  | _ => simp [accepted]

theorem accepted_append_self (c : Connection) (raised : List Event) :
    accepted (raised ++ [.onAccepted c]) = accepted raised ++ [c] := by
  simp [accepted]

/-! ## A part of a list without repetition -/

/-- A sublist that has the members of a filter is the filter. -/
theorem eq_filter_of_sublist {α : Type} {l m : List α} (p : α → Bool) (hsub : l.Sublist m)
    (hnodup : m.Nodup) (hmem : ∀ a, a ∈ l ↔ a ∈ m ∧ p a = true) : l = m.filter p := by
  have hl : l.filter p = l := List.filter_eq_self.mpr fun a ha => ((hmem a).mp ha).2
  have hpart : l.Sublist (m.filter p) := by
    rw [← hl]
    exact hsub.filter p
  have hback : m.filter p ⊆ l := by
    intro a ha
    exact (hmem a).mpr (List.mem_filter.mp ha)
  have hlength : (m.filter p).length ≤ l.length :=
    (List.subperm_of_subset (hnodup.filter p) hback).length_le
  exact hpart.eq_of_length_le hlength

theorem mem_eraseP_only {α : Type} {l : List α} {p : α → Bool} {a : α} (hnodup : l.Nodup)
    (ha : a ∈ l) (hp : p a = true) (honly : ∀ b ∈ l, p b = true → b = a) (c : α) :
    c ∈ l.eraseP p ↔ c ∈ l ∧ c ≠ a := by
  obtain ⟨b, before, after, -, hb, hl, herase⟩ := List.exists_of_eraseP ha hp
  have hba : b = a := honly b (by simp [hl]) hb
  subst hba
  rw [hl, List.nodup_middle, List.nodup_cons, List.mem_append] at hnodup
  rw [herase, hl, List.mem_append, List.mem_append, List.mem_cons]
  constructor
  · intro hc
    refine ⟨?_, ?_⟩
    · rcases hc with hc | hc
      · exact Or.inl hc
      · exact Or.inr (Or.inr hc)
    · rintro rfl
      exact hnodup.1 hc
  · rintro ⟨hc | hc | hc, hne⟩
    · exact Or.inl hc
    · exact absurd hc hne
    · exact Or.inr hc

end Diginext.Server
