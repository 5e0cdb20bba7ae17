import Diginext.Tcp.Send
import Diginext.Foundations.Transition
import Mathlib.Data.List.Nodup

/-! # The send queue of a started connection

`Sound` relates the queue to what has gone in and out of it, whatever `sendStart` says: at most one
write is outstanding, it is the front of the queue, and the pushed elements are those popped followed
by those queued. It is kept by every step except an `async_write(true)` that finds `sendStart` false
while a write is outstanding (`Sound.pump`). On a connection started before its first `send` the flag
tells the truth, so that step does not happen, and no element waits without a caller that will start
the pump (`Pumping`).
-/
namespace Diginext.Tcp
open Outcomes Cpp Transition
set_option autoImplicit false

variable {T : Type}

namespace Sender

structure Sound (s : Sender T) : Prop where
  one : s.writes.length ≤ 1
  front : ∀ w ∈ s.writes, s.sendBuffer.head? = some w.element
  numbered : s.pushed.map Element.id = List.range s.pushed.length
  queued : s.pushed = s.popped ++ s.sendBuffer
  offered : s.handed = s.popped ++ s.writes.map Write.element
  done : s.finished = s.popped ++ (s.writes.filter (·.completed)).map Write.element

/-! ## The parts of a sound queue -/

/-- An outstanding write is the only one, and its element heads the queue. -/
theorem Sound.write_cases {s : Sender T} (h : s.Sound) {k : ℕ} {w : Write}
    (hw : s.writes[k]? = some w) :
    k = 0 ∧ s.writes = [w] ∧ ∃ rest, s.sendBuffer = w.element :: rest := by
  have hone := h.one
  match hws : s.writes with
  | [] => simp [hws] at hw
  | [v] =>
    have hk : k = 0 := by
      by_contra hne
      have hlt : ([v] : List Write).length ≤ k := by simp; omega
      rw [hws, List.getElem?_eq_none hlt] at hw
      cases hw
    subst hk
    have hv : v = w := by simpa [hws] using hw
    subst hv
    have hfront := h.front v (by simp [hws])
    obtain ⟨rest, hrest⟩ := List.head?_eq_some_iff.mp hfront
    exact ⟨rfl, rfl, rest, hrest⟩
  | _ :: _ :: _ => simp [hws] at hone

theorem Sound.handed_initial {s : Sender T} (h : s.Sound) : s.handed <+: s.pushed := by
  rw [h.offered, h.queued]
  match hws : s.writes with
  | [] => simp
  | w :: ws =>
    obtain ⟨-, hsingle, rest, hbuffer⟩ := h.write_cases (k := 0) (w := w) (by simp [hws])
    rw [hws] at hsingle
    rw [hsingle, hbuffer]
    exact ⟨rest, by simp⟩

theorem Sound.popped_initial {s : Sender T} (h : s.Sound) : s.popped <+: s.finished := by
  rw [h.done]
  exact List.prefix_append _ _

theorem Sound.nodup {s : Sender T} (h : s.Sound) : s.pushed.Nodup := by
  apply List.Nodup.of_map Element.id
  rw [h.numbered]
  exact List.nodup_range

theorem fresh_sound (flag : Bool) : (fresh flag : Sender T).Sound where
  one := by simp [fresh]
  front := by simp [fresh]
  numbered := by simp [fresh]
  queued := by simp [fresh]
  offered := by simp [fresh]
  done := by simp [fresh]

theorem Sound.congr {s s' : Sender T} (h : s.Sound) (hb : s'.sendBuffer = s.sendBuffer)
    (hw : s'.writes = s.writes) (hp : s'.pushed = s.pushed) (hh : s'.handed = s.handed)
    (hq : s'.popped = s.popped) (hf : s'.finished = s.finished) : s'.Sound where
  one := by rw [hw]; exact h.one
  front := by rw [hw, hb]; exact h.front
  numbered := by rw [hp]; exact h.numbered
  queued := by rw [hp, hq, hb]; exact h.queued
  offered := by rw [hh, hq, hw]; exact h.offered
  done := by rw [hf, hq, hw]; exact h.done

/-! ## The pump -/

theorem writeFront_nil {s : Sender T} (h : s.sendBuffer = []) :
    s.writeFront = { s with sendStart := false } := by
  unfold Sender.writeFront
  split
  · rfl
  · rename_i hb
    rw [h] at hb
    cases hb

theorem writeFront_cons {s : Sender T} {msg : Element} {rest : List Element}
    (h : s.sendBuffer = msg :: rest) :
    s.writeFront = { s with writes := s.writes ++ [⟨msg, false⟩], handed := s.handed ++ [msg] } := by
  unfold Sender.writeFront
  split
  · rename_i hb
    rw [h] at hb
    cases hb
  · rename_i hb
    rw [h] at hb
    cases hb
    rfl

theorem Sound.writeFront {s : Sender T} (h : s.Sound) (hidle : s.writes = []) :
    s.writeFront.Sound := by
  have hoff := h.offered
  have hdone := h.done
  rw [hidle] at hoff hdone
  simp only [List.map_nil, List.filter_nil, List.append_nil] at hoff hdone
  match hb : s.sendBuffer with
  | [] =>
    rw [writeFront_nil hb]
    exact h.congr rfl rfl rfl rfl rfl rfl
  | msg :: rest =>
    rw [writeFront_cons hb]
    constructor
    · simp [hidle]
    · simp [hidle, hb]
    · exact h.numbered
    · exact h.queued
    · simp [hidle, hoff]
    · simp [hidle, hdone]

theorem writeFront_writes {s : Sender T} (hidle : s.writes = []) :
    s.writeFront.writes = [] ↔ s.sendBuffer = [] := by
  match hb : s.sendBuffer with
  | [] => simp [writeFront_nil hb, hidle]
  | msg :: rest => simp [writeFront_cons hb]

theorem writeFront_buffer (s : Sender T) : s.writeFront.sendBuffer = s.sendBuffer := by
  match hb : s.sendBuffer with
  | [] => simp [writeFront_nil hb, hb]
  | msg :: rest => simp [writeFront_cons hb, hb]

theorem writeFront_flag (s : Sender T) :
    s.writeFront.sendStart = (s.sendStart && decide (s.sendBuffer ≠ [])) := by
  match hb : s.sendBuffer with
  | [] => simp [writeFront_nil hb]
  | msg :: rest => simp [writeFront_cons hb]

theorem asyncWrite_busy {s : Sender T} (h : s.sendStart = true) : asyncWrite true s = s := by
  simp [asyncWrite, h]

theorem asyncWrite_idle {s : Sender T} (h : s.sendStart = false) :
    asyncWrite true s = writeFront { s with sendStart := true } := by
  simp [asyncWrite, h]

/-- `async_write(true)` keeps the queue sound unless it finds the flag false and a write
outstanding. -/
theorem Sound.pump {s : Sender T} (h : s.Sound) (hflag : s.sendStart = false → s.writes = []) :
    (asyncWrite true s).Sound := by
  cases hs : s.sendStart with
  | true =>
    rw [asyncWrite_busy hs]
    exact h
  | false =>
    rw [asyncWrite_idle hs]
    have hset : ({ s with sendStart := true } : Sender T).Sound := h.congr rfl rfl rfl rfl rfl rfl
    exact hset.writeFront (hflag hs)

/-! ## The other steps -/

theorem Sound.complete {s : Sender T} (h : s.Sound) {k : ℕ} {w : Write}
    (hw : s.writes[k]? = some w) (hnot : w.completed = false) (result : WriteResult) :
    (s.complete k w result).Sound := by
  obtain ⟨rfl, hsingle, rest, hbuffer⟩ := h.write_cases hw
  have hdone := h.done
  rw [hsingle] at hdone
  constructor
  · simp [Sender.complete, hsingle]
  · simp [Sender.complete, hsingle, hbuffer]
  · exact h.numbered
  · exact h.queued
  · simp only [Sender.complete, hsingle]
    rw [h.offered, hsingle]
    simp
  · simp only [Sender.complete, hsingle, hdone]
    simp [hnot]

theorem Sound.popFront {s : Sender T} (h : s.Sound) {k : ℕ} {w : Write}
    (hw : s.writes[k]? = some w) (hdone : w.completed = true) :
    ({ s with
      writes := s.writes.eraseIdx k
      sendBuffer := s.sendBuffer.tail
      popped := s.popped ++ s.sendBuffer.take 1 } : Sender T).Sound := by
  obtain ⟨rfl, hsingle, rest, hbuffer⟩ := h.write_cases hw
  have hq := h.queued
  have hoff := h.offered
  have hfin := h.done
  rw [hbuffer] at hq
  rw [hsingle] at hoff hfin
  constructor
  · simp [hsingle]
  · simp [hsingle]
  · exact h.numbered
  · simp [hbuffer, hq]
  · simp [hsingle, hbuffer, hoff]
  · simp [hsingle, hbuffer, hfin, hdone]

theorem Sound.handled {s : Sender T} (h : s.Sound) {k : ℕ} {w : Write}
    (hw : s.writes[k]? = some w) (hdone : w.completed = true) : (s.handled k).Sound := by
  obtain ⟨rfl, hsingle, -⟩ := h.write_cases hw
  have hidle : s.writes.eraseIdx 0 = [] := by simp [hsingle]
  exact (h.popFront hw hdone).writeFront hidle

variable [DecidableEq T]

theorem Sound.push {s s' : Sender T} (h : s.Sound) {t : T} {msg : StdString}
    (hs : s.push t msg = some s') : s'.Sound := by
  unfold Sender.push at hs
  cases hm : socketMsg msg with
  | undefined => simp [hm] at hs
  | throws e =>
    simp only [hm, Option.some.injEq] at hs
    subst hs
    exact h.congr rfl rfl rfl rfl rfl rfl
  | ok bytes =>
    simp only [hm, Option.some.injEq] at hs
    subst hs
    constructor
    · exact h.one
    · intro w hw
      have hfront := h.front w hw
      obtain ⟨rest, hrest⟩ := List.head?_eq_some_iff.mp hfront
      simp [hrest]
    · simp [h.numbered, List.range_succ]
    · simp only
      rw [h.queued, List.append_assoc]
    · exact h.offered
    · exact h.done

/-- Every step keeps a sound queue sound but for the one that starts a second write. -/
theorem Sound.step {s s' : Sender T} (h : s.Sound) {a : SendAction T}
    (hpump : ∀ t, a = .pump t → s.sendStart = false → s.writes = [])
    (hs : sendStep s a = some s') : s'.Sound := by
  rcases sendStep_cases hs with ⟨t, msg, rfl, hs'⟩ | ⟨t, rfl, rfl⟩ |
    ⟨k, w, result, rfl, hw, hnot, rfl⟩ | ⟨k, w, rfl, hw, hdone, rfl⟩
  · exact h.push hs'
  · have hset : ({ s with calling := Function.update s.calling t false } : Sender T).Sound :=
      h.congr rfl rfl rfl rfl rfl rfl
    exact hset.pump (hpump t rfl)
  · exact h.complete hw hnot result
  · exact h.handled hw hdone

end Sender

/-! ## No element is stranded -/

/-- A queue that will drain: a flag that is set stands for an outstanding write, and an element that
waits without one is waited on by a caller that has yet to run `async_write(true)`. -/
structure Draining (s : Sender T) : Prop where
  sound : s.Sound
  busy : s.sendStart = true → s.writes ≠ []
  waiting : s.writes = [] → s.sendBuffer ≠ [] → ∃ t, s.calling t = true

theorem Sender.Sound.draining {s : Sender T} (h : s.Sound) (hidle : s.writes = []) :
    Draining s.writeFront where
  sound := h.writeFront hidle
  busy := by
    intro hflag hw
    have hb := (Sender.writeFront_writes hidle).mp hw
    simp [Sender.writeFront_flag, hb] at hflag
  waiting := by
    intro hw hb
    rw [Sender.writeFront_buffer] at hb
    exact absurd ((Sender.writeFront_writes hidle).mp hw) hb

theorem Draining.drained {s : Sender T} (h : Draining s) (hcalls : ∀ t, s.calling t = false)
    (hidle : s.writes = []) : s.sendBuffer = [] := by
  by_contra hne
  obtain ⟨t, ht⟩ := h.waiting hidle hne
  rw [hcalls t] at ht
  cases ht

theorem Draining.handled {s : Sender T} (h : Draining s) {k : ℕ} {w : Write}
    (hw : s.writes[k]? = some w) (hdone : w.completed = true) : Draining (s.handled k) := by
  obtain ⟨rfl, hsingle, -⟩ := h.sound.write_cases hw
  exact (h.sound.popFront hw hdone).draining (by simp [hsingle])

theorem Draining.complete {s : Sender T} (h : Draining s) {k : ℕ} {w : Write}
    (hw : s.writes[k]? = some w) (hnot : w.completed = false) (result : WriteResult) :
    Draining (s.complete k w result) := by
  obtain ⟨rfl, hsingle, -⟩ := h.sound.write_cases hw
  refine ⟨h.sound.complete hw hnot result, ?_, ?_⟩
  · simp [Sender.complete, hsingle]
  · simp [Sender.complete, hsingle]

/-! ## A connection started before its first send -/

structure Pumping (s : Sender T) : Prop extends Draining s where
  marked : s.writes ≠ [] → s.sendStart = true

theorem Pumping.idle {s : Sender T} (h : Pumping s) (hflag : s.sendStart = false) :
    s.writes = [] := by
  by_contra hne
  rw [h.marked hne] at hflag
  cases hflag

theorem started_pumping (flag : Bool) : Pumping (Sender.fresh flag : Sender T).start where
  sound := (Sender.fresh_sound flag).congr rfl rfl rfl rfl rfl rfl
  busy := by simp [Sender.start]
  waiting := by simp [Sender.start, Sender.fresh]
  marked := by simp [Sender.start, Sender.fresh]

/-- A pump that has been set going leaves its flag set as long as it writes. -/
theorem writeFront_marked {s : Sender T} (hidle : s.writes = []) (hflag : s.sendStart = true)
    (hw : s.writeFront.writes ≠ []) : s.writeFront.sendStart = true := by
  have hb : s.sendBuffer ≠ [] := fun hb => hw ((Sender.writeFront_writes hidle).mpr hb)
  simp [Sender.writeFront_flag, hflag, hb]

/-- What the queue of a started connection guarantees. At most one write is outstanding, that is
between its hand-over to the socket and the `async_write(false)` of its completion; `sendStart` is true
exactly when one is; its buffer is the front element, which is not taken off the queue before the
completion. The buffers handed to the socket are a prefix of those pushed, which are distinct. With no
call of `send` between its two steps and no write outstanding, the queue is empty. -/
structure PumpCorrect (s : Sender T) : Prop where
  one_write : s.writes.length ≤ 1
  flag_iff : s.sendStart = true ↔ s.writes.length = 1
  front : ∀ w ∈ s.writes, s.sendBuffer.head? = some w.element
  kept : s.popped <+: s.finished
  in_order : s.handed <+: s.pushed
  distinct : s.pushed.Nodup
  drained : (∀ t, s.calling t = false) → s.writes = [] → s.sendBuffer = []

theorem Pumping.correct {s : Sender T} (h : Pumping s) : PumpCorrect s where
  one_write := h.sound.one
  flag_iff := by
    have hone := h.sound.one
    have hflag : s.sendStart = true ↔ s.writes ≠ [] := ⟨h.busy, h.marked⟩
    rw [hflag, ← List.length_pos_iff]
    omega
  front := h.sound.front
  kept := h.sound.popped_initial
  in_order := h.sound.handed_initial
  distinct := h.sound.nodup
  drained := h.toDraining.drained

/-! ## The steps -/

variable [DecidableEq T]

theorem Draining.push {s s' : Sender T} (h : Draining s) {t : T} {msg : StdString}
    (hs : s.push t msg = some s') : Draining s' := by
  refine ⟨h.sound.push hs, ?_, ?_⟩
  · unfold Sender.push at hs
    split at hs <;> cases hs <;> exact h.busy
  · intro _ _
    refine ⟨t, ?_⟩
    unfold Sender.push at hs
    split at hs <;> cases hs <;> simp

theorem Draining.pump {s : Sender T} (h : Draining s) (t : T)
    (hflag : s.sendStart = false → s.writes = []) :
    Draining (Sender.asyncWrite true { s with calling := Function.update s.calling t false }) := by
  have hset : ({ s with calling := Function.update s.calling t false } : Sender T).Sound :=
    h.sound.congr rfl rfl rfl rfl rfl rfl
  rcases Bool.eq_false_or_eq_true s.sendStart with hs | hs
  · rw [Sender.asyncWrite_busy (s := { s with calling := Function.update s.calling t false }) hs]
    exact ⟨hset, h.busy, fun hw => absurd hw (h.busy hs)⟩
  · rw [Sender.asyncWrite_idle (s := { s with calling := Function.update s.calling t false }) hs]
    have hready : ({ s with calling := Function.update s.calling t false, sendStart := true } :
        Sender T).Sound := hset.congr rfl rfl rfl rfl rfl rfl
    exact hready.draining (hflag hs)

theorem Draining.step {s s' : Sender T} (h : Draining s) {a : SendAction T}
    (hpump : ∀ t, a = .pump t → s.sendStart = false → s.writes = [])
    (hs : sendStep s a = some s') : Draining s' := by
  rcases sendStep_cases hs with ⟨t, msg, rfl, hs'⟩ | ⟨t, rfl, rfl⟩ |
    ⟨k, w, result, rfl, hw, hnot, rfl⟩ | ⟨k, w, rfl, hw, hdone, rfl⟩
  · exact h.push hs'
  · exact h.pump t (hpump t rfl)
  · exact h.complete hw hnot result
  · exact h.handled hw hdone

theorem Pumping.step {s s' : Sender T} (h : Pumping s) {a : SendAction T}
    (hs : sendStep s a = some s') : Pumping s' := by
  refine ⟨h.toDraining.step (fun _ _ hflag => h.idle hflag) hs, ?_⟩
  rcases sendStep_cases hs with ⟨t, msg, rfl, hs'⟩ | ⟨t, rfl, rfl⟩ |
    ⟨k, w, result, rfl, hw, hnot, rfl⟩ | ⟨k, w, rfl, hw, hdone, rfl⟩
  · unfold Sender.push at hs'
    split at hs' <;> cases hs' <;> exact h.marked
  · rcases Bool.eq_false_or_eq_true s.sendStart with hflag | hflag
    · rw [Sender.asyncWrite_busy
        (s := { s with calling := Function.update s.calling t false }) hflag]
      exact h.marked
    · rw [Sender.asyncWrite_idle
        (s := { s with calling := Function.update s.calling t false }) hflag]
      exact writeFront_marked (h.idle hflag) rfl
  · obtain ⟨rfl, hsingle, -⟩ := h.sound.write_cases hw
    have hflag : s.sendStart = true := h.marked (by simp [hsingle])
    exact fun _ => hflag
  · obtain ⟨rfl, hsingle, -⟩ := h.sound.write_cases hw
    have hflag : s.sendStart = true := h.marked (by simp [hsingle])
    exact writeFront_marked (by simp [hsingle]) hflag

/-! ## The queue in every reachable state -/

theorem pumping_run {flag : Bool} {s : Sender T} {as : List (SendAction T)}
    (h : run sendStep (Sender.fresh flag).start as = some s) : Pumping s :=
  run_invariant (I := Pumping) (fun _ _ _ hI hs => hI.step hs) (started_pumping flag) h

/-- **The send queue after `start`.** Every interleaving of any callers of `send` with completions,
successful or failed, keeps the queue correct. -/
theorem send_queue_correct (flag : Bool) (as : List (SendAction T)) (s : Sender T)
    (h : run sendStep (Sender.fresh flag).start as = some s) : PumpCorrect s :=
  (pumping_run h).correct

def letters : StdString := ⟨ascii "abc", by decide⟩

def twoCallers : List (SendAction ℕ) :=
  [.push 0 letters, .push 1 ⟨[], Nat.zero_le _⟩, .pump 1, .complete 0 .transmitted, .pump 0, .resume 0]

theorem send_queue_correct_two_callers :
    ∃ s, run sendStep (Sender.fresh true).start twoCallers = some s ∧ PumpCorrect s := by
  have hruns : (run sendStep (Sender.fresh true).start twoCallers).isSome = true := by decide
  obtain ⟨s, hs⟩ := Option.isSome_iff_exists.mp hruns
  exact ⟨s, hs, send_queue_correct true twoCallers s hs⟩

end Diginext.Tcp
