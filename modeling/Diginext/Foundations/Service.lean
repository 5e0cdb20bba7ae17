import Diginext.Foundations.Transition
import Mathlib.Logic.Function.Basic

/-! # A service and its clients

Nothing here is about one program. Clients `I` submit requests, a service that does one thing at a time
serves them, each client's in the order of its submissions, and the replies to a client wait for it in
the order in which they were made. `handle` is what serving does to the data, and the replies. When a
client has been closed, its requests are no longer served.

Whatever the interleaving, the requests served are a history: the data is what it makes of the initial
data (`replay`), and what a client has received are the first of the replies to its part of it
(`answers`).
-/
namespace Service
open Transition
set_option autoImplicit false

/-- The fields from `served` on are records of what has happened. -/
structure State (I Q R σ : Type) where
  data : σ
  waiting : I → List Q
  answered : I → List R
  closed : I → Bool
  served : List (I × Q)
  lost : I → List Q
  submitted : I → List Q
  received : I → List R

inductive Label (I Q R : Type) where
  | submit (i : I) (q : Q)
  | serve (i : I)
  | close (i : I)
  | lose (i : I)
  | receive (i : I) (r : R)

/-- What a client does. -/
inductive Event (I Q R : Type) where
  | submitted (i : I) (q : Q)
  | received (i : I) (r : R)
  deriving DecidableEq

def Label.event {I Q R : Type} : Label I Q R → Option (Event I Q R)
  | submit i q => some (.submitted i q)
  | receive i r => some (.received i r)
  | _ => none

def started {I Q R σ : Type} (data : σ) : State I Q R σ where
  data := data
  waiting := fun _ => []
  answered := fun _ => []
  closed := fun _ => false
  served := []
  lost := fun _ => []
  submitted := fun _ => []
  received := fun _ => []

variable {I Q R σ : Type} [DecidableEq I]

def step [DecidableEq R] (handle : σ → Q → σ × List R) (s : State I Q R σ) :
    Label I Q R → Option (State I Q R σ)
  | .submit i q => some { s with
      waiting := Function.update s.waiting i (s.waiting i ++ [q])
      submitted := Function.update s.submitted i (s.submitted i ++ [q]) }
  | .serve i =>
    if s.closed i then none
    else
      match s.waiting i with
      | [] => none
      | q :: qs => some { s with
          data := (handle s.data q).1
          waiting := Function.update s.waiting i qs
          answered := Function.update s.answered i (s.answered i ++ (handle s.data q).2)
          served := s.served ++ [(i, q)] }
  | .close i => some { s with closed := Function.update s.closed i true }
  | .lose i =>
    if s.closed i then
      match s.waiting i with
      | [] => none
      | q :: qs => some { s with
          waiting := Function.update s.waiting i qs
          lost := Function.update s.lost i (s.lost i ++ [q]) }
    else none
  | .receive i r =>
    match s.answered i with
    | [] => none
    | r' :: rs =>
      if r' = r then some { s with
        answered := Function.update s.answered i rs
        received := Function.update s.received i (s.received i ++ [r]) }
      else none

/-! ## Histories -/

def requestsOf (i : I) (history : List (I × Q)) : List Q :=
  (history.filter fun p => p.1 = i).map Prod.snd

def replay (handle : σ → Q → σ × List R) (data : σ) (history : List (I × Q)) : σ :=
  history.foldl (fun data p => (handle data p.2).1) data

/-- The replies to client `i` when the history is served from `data` on. -/
def answers (handle : σ → Q → σ × List R) (i : I) : σ → List (I × Q) → List R
  | _, [] => []
  | data, (j, q) :: history =>
    (if j = i then (handle data q).2 else []) ++ answers handle i (handle data q).1 history

variable {handle : σ → Q → σ × List R}

theorem requestsOf_append (i : I) (h h' : List (I × Q)) :
    requestsOf i (h ++ h') = requestsOf i h ++ requestsOf i h' := by
  simp [requestsOf]

@[simp] theorem requestsOf_self (i : I) (q : Q) : requestsOf i [(i, q)] = [q] := by
  simp [requestsOf]

theorem requestsOf_other {i j : I} (h : j ≠ i) (q : Q) : requestsOf i [(j, q)] = [] := by
  simp [requestsOf, h]

omit [DecidableEq I] in
theorem replay_append (data : σ) (h h' : List (I × Q)) :
    replay handle data (h ++ h') = replay handle (replay handle data h) h' :=
  List.foldl_append

theorem answers_append (i : I) (data : σ) (h h' : List (I × Q)) :
    answers handle i data (h ++ h') =
      answers handle i data h ++ answers handle i (replay handle data h) h' := by
  induction h generalizing data with
  | nil => rfl
  | cons p h ih =>
    obtain ⟨j, q⟩ := p
    rw [List.cons_append, answers, answers, ih, List.append_assoc]
    rfl

theorem answers_concat_self (i : I) (data : σ) (h : List (I × Q)) (q : Q) :
    answers handle i data (h ++ [(i, q)]) =
      answers handle i data h ++ (handle (replay handle data h) q).2 := by
  rw [answers_append, answers, if_pos rfl, answers, List.append_nil]

theorem answers_concat_other {i j : I} (hne : j ≠ i) (data : σ) (h : List (I × Q)) (q : Q) :
    answers handle i data (h ++ [(j, q)]) = answers handle i data h := by
  rw [answers_append, answers, if_neg hne, answers, List.append_nil, List.append_nil]

/-- Every reply belongs to a request of the client, served in the state left by those before it. -/
theorem mem_answers {i : I} {data : σ} {h : List (I × Q)} {r : R} :
    r ∈ answers handle i data h ↔ ∃ before q after, h = before ++ (i, q) :: after ∧
      r ∈ (handle (replay handle data before) q).2 := by
  induction h generalizing data with
  | nil => simp [answers]
  | cons p h ih =>
    obtain ⟨j, q⟩ := p
    rw [answers, List.mem_append, ih]
    constructor
    · rintro (hfirst | ⟨before, q', after, rfl, hr⟩)
      · split at hfirst
        · rename_i hj
          subst hj
          exact ⟨[], q, h, rfl, hfirst⟩
        · cases hfirst
      · exact ⟨(j, q) :: before, q', after, rfl, hr⟩
    · rintro ⟨before, q', after, heq, hr⟩
      cases before with
      | nil =>
        cases heq
        rw [if_pos rfl]
        exact Or.inl hr
      | cons p before =>
        cases heq
        exact Or.inr ⟨before, q', after, rfl, hr⟩

/-- Where each request of the client has one reply, the n-th reply is the reply to the n-th request. -/
theorem answers_paired {i : I} {data : σ} {h : List (I × Q)}
    (hone : ∀ before q after, h = before ++ (i, q) :: after →
      (handle (replay handle data before) q).2.length = 1) {n : ℕ} {r : R}
    (hr : (answers handle i data h)[n]? = some r) :
    ∃ before q after, h = before ++ (i, q) :: after ∧ (requestsOf i before).length = n ∧
      (handle (replay handle data before) q).2 = [r] := by
  induction h generalizing data n with
  | nil => simp [answers] at hr
  | cons p h ih =>
    obtain ⟨j, q⟩ := p
    have hrest : ∀ before q' after, h = before ++ (i, q') :: after →
        (handle (replay handle (handle data q).1 before) q').2.length = 1 := by
      intro before q' after heq
      exact hone ((j, q) :: before) q' after (by rw [heq]; rfl)
    by_cases hj : j = i
    · subst hj
      obtain ⟨r₀, hr₀⟩ := List.length_eq_one_iff.mp (hone [] q h rfl)
      have hfirst : (handle data q).2 = [r₀] := hr₀
      rw [answers, if_pos rfl, hfirst] at hr
      cases n with
      | zero =>
        have heq : r₀ = r := by simpa using hr
        subst heq
        exact ⟨[], q, h, rfl, rfl, hr₀⟩
      | succ n =>
        obtain ⟨before, q', after, heq, hlength, hreply⟩ := ih hrest (n := n) (by simpa using hr)
        refine ⟨(j, q) :: before, q', after, by rw [heq]; rfl, ?_, hreply⟩
        simp [requestsOf] at hlength ⊢
        omega
    · rw [answers, if_neg hj, List.nil_append] at hr
      obtain ⟨before, q', after, heq, hlength, hreply⟩ := ih hrest hr
      refine ⟨(j, q) :: before, q', after, by rw [heq]; rfl, ?_, hreply⟩
      simpa [requestsOf, hj] using hlength

/-! ## Every interleaving -/

structure Serialized (handle : σ → Q → σ × List R) (initial : σ) (s : State I Q R σ) : Prop where
  data : s.data = replay handle initial s.served
  requests : ∀ i, s.submitted i = requestsOf i s.served ++ s.lost i ++ s.waiting i
  kept : ∀ i, s.closed i = false → s.lost i = []
  replies : ∀ i, s.received i ++ s.answered i = answers handle i initial s.served

theorem started_serialized (initial : σ) :
    Serialized handle initial (started initial : State I Q R σ) where
  data := rfl
  requests := fun _ => rfl
  kept := fun _ _ => rfl
  replies := fun _ => rfl

variable [DecidableEq R]

/-- Everything a label can do. -/
inductive Steps (handle : σ → Q → σ × List R) (s : State I Q R σ) :
    Label I Q R → State I Q R σ → Prop where
  | submit (i : I) (q : Q) : Steps handle s (.submit i q) { s with
      waiting := Function.update s.waiting i (s.waiting i ++ [q])
      submitted := Function.update s.submitted i (s.submitted i ++ [q]) }
  | serve {i : I} {q : Q} {qs : List Q} (hopen : s.closed i = false) (hwaiting : s.waiting i = q :: qs) :
      Steps handle s (.serve i) { s with
        data := (handle s.data q).1
        waiting := Function.update s.waiting i qs
        answered := Function.update s.answered i (s.answered i ++ (handle s.data q).2)
        served := s.served ++ [(i, q)] }
  | close (i : I) : Steps handle s (.close i) { s with closed := Function.update s.closed i true }
  | lose {i : I} {q : Q} {qs : List Q} (hclosed : s.closed i = true) (hwaiting : s.waiting i = q :: qs) :
      Steps handle s (.lose i) { s with
        waiting := Function.update s.waiting i qs
        lost := Function.update s.lost i (s.lost i ++ [q]) }
  | receive {i : I} {r : R} {rs : List R} (hanswered : s.answered i = r :: rs) :
      Steps handle s (.receive i r) { s with
        answered := Function.update s.answered i rs
        received := Function.update s.received i (s.received i ++ [r]) }

theorem step_iff {s s' : State I Q R σ} {l : Label I Q R} :
    step handle s l = some s' ↔ Steps handle s l s' := by
  constructor
  · intro h
    cases l with
    | submit i q =>
      cases h
      exact .submit i q
    | serve i =>
      simp only [step] at h
      split at h
      · cases h
      · rename_i hopen
        cases hwaiting : s.waiting i with
        | nil =>
          rw [hwaiting] at h
          cases h
        | cons q qs =>
          rw [hwaiting] at h
          cases h
          exact .serve (by simpa using hopen) hwaiting
    | close i =>
      cases h
      exact .close i
    | lose i =>
      simp only [step] at h
      split at h
      · rename_i hclosed
        cases hwaiting : s.waiting i with
        | nil =>
          rw [hwaiting] at h
          cases h
        | cons q qs =>
          rw [hwaiting] at h
          cases h
          exact .lose hclosed hwaiting
      · cases h
    | receive i r =>
      simp only [step] at h
      cases hanswered : s.answered i with
      | nil =>
        rw [hanswered] at h
        cases h
      | cons r' rs =>
        simp only [hanswered] at h
        split at h
        · rename_i heq
          cases heq
          cases h
          exact .receive hanswered
        · cases h
  · intro h
    induction h with
    | submit i q => rfl
    | serve hopen hwaiting => simp [step, hopen, hwaiting]
    | close i => rfl
    | lose hclosed hwaiting => simp [step, hclosed, hwaiting]
    | receive hanswered => simp [step, hanswered]

theorem Serialized.step {initial : σ} {s s' : State I Q R σ} {l : Label I Q R}
    (h : Serialized handle initial s) (hs : step handle s l = some s') : Serialized handle initial s' := by
  induction step_iff.mp hs with
  | submit i q =>
    refine ⟨h.data, fun j => ?_, h.kept, h.replies⟩
    by_cases hj : j = i
    · subst hj
      simp [h.requests j]
    · simp [Function.update_of_ne hj, h.requests j]
  | serve hopen hwaiting =>
    rename_i i q qs
    refine ⟨?_, fun j => ?_, h.kept, fun j => ?_⟩
    · rw [replay_append, ← h.data]
      rfl
    · by_cases hj : j = i
      · subst hj
        simp [h.requests j, hwaiting, h.kept j hopen, requestsOf_append]
      · simp [Function.update_of_ne hj, h.requests j, requestsOf_append,
          requestsOf_other (Ne.symm hj)]
    · show s.received j ++ Function.update s.answered i (s.answered i ++ (handle s.data q).2) j =
        answers handle j initial (s.served ++ [(i, q)])
      by_cases hj : j = i
      · subst hj
        rw [Function.update_self, answers_concat_self, ← h.data, ← h.replies j, List.append_assoc]
      · rw [Function.update_of_ne hj, answers_concat_other (Ne.symm hj)]
        exact h.replies j
  | close i =>
    refine ⟨h.data, h.requests, fun j hj => h.kept j ?_, h.replies⟩
    have hopen : Function.update s.closed i true j = false := hj
    have hne : j ≠ i := by
      rintro rfl
      simp at hopen
    rwa [Function.update_of_ne hne] at hopen
  | lose hclosed hwaiting =>
    rename_i i q qs
    refine ⟨h.data, fun j => ?_, fun j hj => ?_, h.replies⟩
    · by_cases heq : j = i
      · subst heq
        simp [h.requests j, hwaiting]
      · simp [Function.update_of_ne heq, h.requests j]
    · have hne : j ≠ i := by
        rintro rfl
        rw [hclosed] at hj
        cases hj
      simp [Function.update_of_ne hne, h.kept j hj]
  | receive hanswered =>
    rename_i i r rs
    refine ⟨h.data, h.requests, h.kept, fun j => ?_⟩
    by_cases heq : j = i
    · subst heq
      simp [← h.replies j, hanswered]
    · simp [Function.update_of_ne heq, h.replies j]

theorem serialized_run {initial : σ} {s s' : State I Q R σ} {ls : List (Label I Q R)}
    (h : Serialized handle initial s) (hr : run (step handle) s ls = some s') :
    Serialized handle initial s' :=
  run_invariant (I := Serialized handle initial) (fun _ _ _ hI hs => hI.step hs) h hr

/-- What has been served stays at the beginning of the history. -/
theorem served_grows {s s' : State I Q R σ} {ls : List (Label I Q R)}
    (hr : run (step handle) s ls = some s') : s.served <+: s'.served := by
  refine run_invariant (I := fun u => s.served <+: u.served) ?_ (List.prefix_refl _) hr
  intro u l u' hI hs
  refine hI.trans ?_
  induction step_iff.mp hs with
  | serve hopen hwaiting => exact List.prefix_append _ _
  | submit i q | close i | lose hclosed hwaiting | receive hanswered => exact List.prefix_refl _

end Service
