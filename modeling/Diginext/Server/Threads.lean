import Diginext.Server.EventLoop

/-! # What a step of one thread leaves to the others

A thread moves on its own stack only. It takes `server_sync` for longer than a step in `handle_accept`
alone: from there to the end of the call it is in the listeners of `onAccepted` with the mutex held.
-/
namespace Diginext.Server
open Cpp
set_option autoImplicit false

variable {T U : Type}

def Action.thread (loop : T) : Action T U → T
  | .dispatch _ => loop
  | .call t _ | .returns t | .throws t | .advance t => t

variable [DecidableEq T]

theorem dispatch_other {loop u : T} {s s' : TcpServer T U} {completion : Completion}
    (h : TcpServer.Dispatches loop s completion s') (hu : u ≠ loop) : s'.stack u = s.stack u := by
  cases h with
  | accept _ | acceptError _ _ | read _ _ | readError _ _ _ | writeError _ _ _ =>
    exact TcpServer.setStack_of_ne _ hu _
  | closure _ => rfl

theorem dispatch_sync {loop : T} {s s' : TcpServer T U} {completion : Completion}
    (h : TcpServer.Dispatches loop s completion s') : s'.server_sync = s.server_sync := by
  cases h <;> rfl

variable [DecidableEq U] {uuid : Connection → U}

theorem advance_other {s s' : TcpServer T U} {t u : T} {frame : Frame U} {rest : List (Frame U)}
    (hs : s.advance uuid t rest frame = some s') (hu : u ≠ t) : s'.stack u = s.stack u := by
  cases TcpServer.advances_of_advance uuid hs <;> exact TcpServer.setStack_of_ne _ hu _

theorem step_other {loop u : T} {s s' : TcpServer T U} {a : Action T U}
    (hs : TcpServer.step uuid loop s a = some s') (hu : u ≠ a.thread loop) :
    s'.stack u = s.stack u := by
  cases TcpServer.steps_of_step uuid hs with
  | dispatch _ _ hd => exact dispatch_other hd hu
  | call _ _ _ | callback _ _ | returns _ | caught _ _ | escapes _ _ =>
    exact TcpServer.setStack_of_ne _ hu _
  | advance _ hadvance => exact advance_other hadvance hu

/-- The mutex changes hands in `handle_accept` only. -/
theorem advance_sync {s s' : TcpServer T U} {t : T} {frame : Frame U} {rest : List (Frame U)}
    (hs : s.advance uuid t rest frame = some s') :
    s'.server_sync = s.server_sync ∨ (∃ c, frame = .register c) ∨ frame = .finishAccept := by
  cases TcpServer.advances_of_advance uuid hs with
  | register c hsync => exact Or.inr (Or.inl ⟨c, rfl⟩)
  | finishAccept => exact Or.inr (Or.inr rfl)
  | _ => exact Or.inl rfl

/-! ## Events are only ever added -/

theorem advance_raised {s s' : TcpServer T U} {t : T} {frame : Frame U} {rest : List (Frame U)}
    (hs : s.advance uuid t rest frame = some s') : s.raised ⊆ s'.raised := by
  cases TcpServer.advances_of_advance uuid hs with
  | emit _ | register _ _ => exact List.subset_append_left _ _
  | _ => exact List.Subset.refl _

theorem step_accepted {loop : T} {s s' : TcpServer T U} {a : Action T U}
    (hs : TcpServer.step uuid loop s a = some s') {c : Connection} (hc : c ∈ accepted s.raised) :
    c ∈ accepted s'.raised := by
  rw [mem_accepted] at hc ⊢
  cases TcpServer.steps_of_step uuid hs with
  | dispatch _ _ hd => cases hd <;> exact hc
  | call _ _ _ | callback _ _ | returns _ | caught _ _ | escapes _ _ => exact hc
  | advance hold hadvance => exact advance_raised hadvance hc

end Diginext.Server
