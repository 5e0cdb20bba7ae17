import Mathlib.Data.List.Basic
import Mathlib.Order.WellFounded

/-! # Runs of a deterministic labelled transition function

Nothing here is about one program. A system is a partial function `step : σ → α → Option σ`: the
label says which of the possible things happens next, `none` that it cannot happen now. `run` follows
a list of labels. An invariant is proved for one step and holds along every run
(`run_invariant`); when only steps of a certain kind preserve it, it holds along the runs all of whose
steps are of that kind (`along_of_meets`). Labels that a relation cannot tell can be left out of a run
(`run_of_unwinding`). One system simulates another if it can follow each of its steps
(`run_of_simulation`).
-/
namespace Transition
set_option autoImplicit false

variable {σ α : Type} (step : σ → α → Option σ)

def run : σ → List α → Option σ
  | s, [] => some s
  | s, a :: as =>
    match step s a with
    | none => none
    | some s' => run s' as

/-- `P` holds in every state the run meets, the first one included. -/
def Along (P : σ → Prop) : σ → List α → Prop
  | s, [] => P s
  | s, a :: as => P s ∧ ∀ s', step s a = some s' → Along P s' as

/-- Every step the run takes is taken in a state and with a label that `C` admits. -/
def Meets (C : σ → α → Prop) : σ → List α → Prop
  | _, [] => True
  | s, a :: as => ∀ s', step s a = some s' → C s a ∧ Meets C s' as

variable {step}

instance decidableMeets (C : σ → α → Prop) [∀ s a, Decidable (C s a)] :
    ∀ (s : σ) (as : List α), Decidable (Meets step C s as)
  | _, [] => isTrue trivial
  | s, a :: as =>
    match h : step s a with
    | none => isTrue fun s' hs => by rw [h] at hs; cases hs
    | some s' =>
      have := decidableMeets C s' as
      decidable_of_iff (C s a ∧ Meets step C s' as)
        ⟨fun hC t ht => by rw [h] at ht; cases ht; exact hC, fun hm => hm s' h⟩

@[simp] theorem run_nil (s : σ) : run step s [] = some s := rfl

theorem run_bind (s : σ) (a : α) (as : List α) :
    run step s (a :: as) = (step s a).bind fun s' => run step s' as := by
  change (match step s a with | none => none | some s' => run step s' as) = _
  cases step s a <;> rfl

theorem run_cons {s s' : σ} {a : α} (h : step s a = some s') (as : List α) :
    run step s (a :: as) = run step s' as := by
  rw [run_bind, h, Option.bind_some]

theorem run_cons_eq {s t : σ} {a : α} {as : List α} :
    run step s (a :: as) = some t ↔ ∃ s', step s a = some s' ∧ run step s' as = some t := by
  rw [run_bind, Option.bind_eq_some_iff]

theorem run_append {s t : σ} {as bs : List α} (h : run step s as = some t) :
    run step s (as ++ bs) = run step t bs := by
  induction as generalizing s with
  | nil =>
    have hs : s = t := by simpa using h
    rw [hs, List.nil_append]
  | cons a as ih =>
    obtain ⟨s', hs, hr⟩ := run_cons_eq.mp h
    rw [List.cons_append, run_cons hs]
    exact ih hr

theorem run_append_eq {s u : σ} {as bs : List α} :
    run step s (as ++ bs) = some u ↔ ∃ t, run step s as = some t ∧ run step t bs = some u := by
  constructor
  · intro h
    induction as generalizing s with
    | nil => exact ⟨s, rfl, h⟩
    | cons a as ih =>
      obtain ⟨s', hs, hr⟩ := run_cons_eq.mp h
      obtain ⟨t, ht, hu⟩ := ih hr
      exact ⟨t, (run_cons hs as).trans ht, hu⟩
  · rintro ⟨t, ht, hu⟩
    exact (run_append ht).trans hu

/-- The states that a run goes through. -/
theorem exists_states {s t : σ} {as : List α} (h : run step s as = some t) :
    ∃ states : ℕ → σ, states 0 = s ∧
      ∀ n (hn : n < as.length), step (states n) as[n] = some (states (n + 1)) := by
  induction as generalizing s with
  | nil => exact ⟨fun _ => s, rfl, fun n hn => absurd hn (Nat.not_lt_zero n)⟩
  | cons a as ih =>
    obtain ⟨s', hs, hr⟩ := run_cons_eq.mp h
    obtain ⟨states, hfirst, hsteps⟩ := ih hr
    refine ⟨fun n => n.casesOn s states, rfl, fun n hn => ?_⟩
    cases n with
    | zero =>
      show step s a = some (states 0)
      rw [hfirst, hs]
    | succ n => exact hsteps n (Nat.lt_of_succ_lt_succ hn)

theorem meets_append {C : σ → α → Prop} {s t : σ} {as bs : List α} (hr : run step s as = some t)
    (h : Meets step C s (as ++ bs)) : Meets step C s as ∧ Meets step C t bs := by
  induction as generalizing s with
  | nil =>
    have hs : s = t := by simpa using hr
    exact ⟨trivial, hs ▸ h⟩
  | cons a as ih =>
    obtain ⟨s₁, hs₁, hr'⟩ := run_cons_eq.mp hr
    obtain ⟨hCa, hCs⟩ := h s₁ hs₁
    obtain ⟨has, hbs⟩ := ih hr' hCs
    refine ⟨fun s' hs => ?_, hbs⟩
    have heq : s₁ = s' := Option.some.inj (hs₁.symm.trans hs)
    exact heq ▸ ⟨hCa, has⟩

/-! ## Invariants -/

theorem Along.first {P : σ → Prop} {s : σ} {as : List α} (h : Along step P s as) : P s := by
  cases as with
  | nil => exact h
  | cons a as => exact h.1

theorem Along.last {P : σ → Prop} {s t : σ} {as : List α} (h : Along step P s as)
    (hr : run step s as = some t) : P t := by
  induction as generalizing s with
  | nil =>
    have hs : s = t := by simpa using hr
    rw [← hs]
    exact h
  | cons a as ih =>
    obtain ⟨s', hs, hr'⟩ := run_cons_eq.mp hr
    exact ih (h.2 s' hs) hr'

theorem Along.mono {P Q : σ → Prop} (hPQ : ∀ s, P s → Q s) {s : σ} {as : List α}
    (h : Along step P s as) : Along step Q s as := by
  induction as generalizing s with
  | nil => exact hPQ s h
  | cons a as ih => exact ⟨hPQ s h.1, fun s' hs => ih (h.2 s' hs)⟩

/-- **Invariant rule for guarded steps.** What every admitted step preserves holds along every run
whose steps are all admitted. -/
theorem along_of_meets {I : σ → Prop} {C : σ → α → Prop}
    (hstep : ∀ s a s', I s → C s a → step s a = some s' → I s') {s : σ} {as : List α}
    (hI : I s) (hC : Meets step C s as) : Along step I s as := by
  induction as generalizing s with
  | nil => exact hI
  | cons a as ih =>
    refine ⟨hI, fun s' hs => ?_⟩
    obtain ⟨hCa, hCs⟩ := hC s' hs
    exact ih (hstep s a s' hI hCa hs) hCs

theorem meets_of_invariant {I : σ → Prop} {C : σ → α → Prop}
    (hC : ∀ s a s', I s → step s a = some s' → C s a)
    (hstep : ∀ s a s', I s → step s a = some s' → I s') {s : σ} {as : List α} (hI : I s) :
    Meets step C s as := by
  induction as generalizing s with
  | nil => trivial
  | cons a as ih =>
    intro s' hs
    exact ⟨hC s a s' hI hs, ih (hstep s a s' hI hs)⟩

/-- **Invariant rule.** What every step preserves holds along every run. -/
theorem along_invariant {I : σ → Prop} (hstep : ∀ s a s', I s → step s a = some s' → I s')
    {s : σ} (as : List α) (hI : I s) : Along step I s as :=
  along_of_meets (C := fun _ _ => True) (fun s a s' h _ hs => hstep s a s' h hs) hI
    (meets_of_invariant (fun _ _ _ _ _ => trivial) hstep hI)

theorem run_invariant {I : σ → Prop} (hstep : ∀ s a s', I s → step s a = some s' → I s')
    {s t : σ} {as : List α} (hI : I s) (hr : run step s as = some t) : I t :=
  (along_invariant hstep as hI).last hr

/-- The invariant rule for the runs whose labels are all of the kind `A`. -/
theorem run_of_labels {I : σ → Prop} {A : α → Prop}
    (hstep : ∀ s a s', I s → A a → step s a = some s' → I s') {s t : σ} {as : List α} (hI : I s)
    (hA : ∀ a ∈ as, A a) (hr : run step s as = some t) : I t := by
  induction as generalizing s with
  | nil =>
    have hs : s = t := by simpa using hr
    rwa [← hs]
  | cons a as ih =>
    obtain ⟨s', hs, hr'⟩ := run_cons_eq.mp hr
    obtain ⟨ha, has⟩ := List.forall_mem_cons.mp hA
    exact ih (hstep s a s' hI ha hs) has hr'

/-- **Noninterference.** If the labels that are kept act alike on states that `R` relates, and the others
cannot be told by `R`, then the run without the others ends in a related state. -/
theorem run_of_unwinding {R : σ → σ → Prop} {A : α → Prop} {keep : α → Bool}
    (hkeep : ∀ s r a s', R s r → A a → keep a = true → step s a = some s' →
      ∃ r', step r a = some r' ∧ R s' r')
    (hdrop : ∀ s r a s', R s r → A a → keep a = false → step s a = some s' → R s' r)
    {s r t : σ} {as : List α} (hR : R s r) (hA : ∀ a ∈ as, A a) (hr : run step s as = some t) :
    ∃ u, run step r (as.filter keep) = some u ∧ R t u := by
  induction as generalizing s r with
  | nil =>
    have hs : s = t := by simpa using hr
    exact ⟨r, rfl, hs ▸ hR⟩
  | cons a as ih =>
    obtain ⟨s', hs, hr'⟩ := run_cons_eq.mp hr
    obtain ⟨ha, has⟩ := List.forall_mem_cons.mp hA
    cases hkept : keep a with
    | true =>
      obtain ⟨r', hr₁, hR'⟩ := hkeep s r a s' hR ha hkept hs
      obtain ⟨u, hu, htu⟩ := ih hR' has hr'
      rw [List.filter_cons_of_pos hkept, run_cons hr₁]
      exact ⟨u, hu, htu⟩
    | false =>
      rw [List.filter_cons_of_neg (by simp [hkept])]
      exact ih (hdrop s r a s' hR ha hkept hs) has hr'

/-- A run that takes a step that is not admitted ends in `B`, from which there is no way out. -/
theorem run_of_not_meets {I B : σ → Prop} {C : σ → α → Prop}
    (hstep : ∀ s a s', I s → C s a → step s a = some s' → I s')
    (hbad : ∀ s a s', I s → ¬ C s a → step s a = some s' → B s')
    (hkeep : ∀ s a s', B s → step s a = some s' → B s') {s t : σ} {as : List α} (hI : I s)
    (hr : run step s as = some t) (hnot : ¬ Meets step C s as) : B t := by
  induction as generalizing s with
  | nil => exact absurd trivial hnot
  | cons a as ih =>
    obtain ⟨s', hs, hr'⟩ := run_cons_eq.mp hr
    by_cases hC : C s a
    · refine ih (hstep s a s' hI hC hs) hr' fun hmeets => hnot fun s₁ hs₁ => ?_
      have heq : s' = s₁ := Option.some.inj (hs.symm.trans hs₁)
      exact ⟨hC, heq ▸ hmeets⟩
    · exact run_invariant hkeep (hbad s a s' hI hC hs) hr'

/-- Steps that all lower a measure come to an end. -/
theorem length_le_of_decreasing {I : σ → Prop} {A : α → Prop} {μ : σ → ℕ}
    (hstep : ∀ s a s', I s → A a → step s a = some s' → I s' ∧ μ s' < μ s) {s t : σ} {as : List α}
    (hI : I s) (hA : ∀ a ∈ as, A a) (hr : run step s as = some t) : as.length + μ t ≤ μ s := by
  induction as generalizing s with
  | nil =>
    have hs : s = t := by simpa using hr
    rw [hs, List.length_nil]
    omega
  | cons a as ih =>
    obtain ⟨s', hs, hr'⟩ := run_cons_eq.mp hr
    obtain ⟨ha, has⟩ := List.forall_mem_cons.mp hA
    obtain ⟨hI', hless⟩ := hstep s a s' hI ha hs
    have hrest := ih hI' has hr'
    rw [List.length_cons]
    omega

/-- Steps that all descend in a well-founded order do not go on for ever. -/
theorem no_endless_run {I : σ → Prop} {A : α → Prop} {β : Type} [Preorder β] [WellFoundedLT β]
    {μ : σ → β} (hstep : ∀ s a s', I s → A a → step s a = some s' → I s' ∧ μ s' < μ s)
    {states : ℕ → σ} {labels : ℕ → α} (hI : I (states 0)) (hA : ∀ n, A (labels n)) :
    ¬ ∀ n, step (states n) (labels n) = some (states (n + 1)) := by
  intro hs
  have hall : ∀ n, I (states n) := by
    intro n
    induction n with
    | zero => exact hI
    | succ n ih => exact (hstep _ _ _ ih (hA n) (hs n)).1
  obtain ⟨n, hn⟩ := WellFounded.not_rel_apply_succ (r := (· < ·)) fun n => μ (states n)
  exact hn (hstep _ _ _ (hall n) (hA n) (hs n)).2

/-- The converse of `along_of_meets`: where a step that is not admitted leads out of `P`, a run that
stays in `P` takes admitted steps only. `I` is the invariant the admitted steps keep. -/
theorem meets_of_along {I P : σ → Prop} {C : σ → α → Prop}
    (hstep : ∀ s a s', I s → C s a → step s a = some s' → I s')
    (hbad : ∀ s a s', I s → ¬ C s a → step s a = some s' → ¬ P s') {s : σ} {as : List α}
    (hI : I s) (h : Along step P s as) : Meets step C s as := by
  induction as generalizing s with
  | nil => trivial
  | cons a as ih =>
    intro s' hs
    have hP : P s' := (h.2 s' hs).first
    have hC : C s a := by
      by_contra hn
      exact hbad s a s' hI hn hs hP
    exact ⟨hC, ih (hstep s a s' hI hC hs) (h.2 s' hs)⟩

/-! ## Simulation

`visible` is what a step of the one system lets be seen, `shown` the same of a label of the other.
-/

section Simulation
variable {τ β ε : Type} {step' : τ → β → Option τ}

def trace (step : σ → α → Option σ) (visible : σ → α → List ε) : σ → List α → List ε
  | _, [] => []
  | s, a :: as =>
    match step s a with
    | none => []
    | some s' => visible s a ++ trace step visible s' as

/-- **Simulation rule for guarded steps.** If the other system can follow every admitted step by a run
that shows the same, it can follow every run whose steps are all admitted. -/
theorem run_of_simulation {R : σ → τ → Prop} {C : σ → α → Prop} {visible : σ → α → List ε}
    {shown : β → Option ε}
    (hstep : ∀ s a s' u, R s u → C s a → step s a = some s' →
      ∃ bs u', run step' u bs = some u' ∧ bs.filterMap shown = visible s a ∧ R s' u')
    {s t : σ} {u : τ} {as : List α} (h : R s u) (hC : Meets step C s as)
    (hr : run step s as = some t) :
    ∃ bs u', run step' u bs = some u' ∧ bs.filterMap shown = trace step visible s as ∧ R t u' := by
  induction as generalizing s u with
  | nil =>
    have hs : s = t := by simpa using hr
    rw [← hs]
    exact ⟨[], u, rfl, rfl, h⟩
  | cons a as ih =>
    obtain ⟨s', hs, hr'⟩ := run_cons_eq.mp hr
    obtain ⟨hCa, hCs⟩ := hC s' hs
    obtain ⟨bs, u', hrun, hshown, h'⟩ := hstep s a s' u h hCa hs
    obtain ⟨cs, u'', hrun', hshown', h''⟩ := ih h' hCs hr'
    refine ⟨bs ++ cs, u'', ?_, ?_, h''⟩
    · rw [run_append hrun]
      exact hrun'
    · simp only [trace, hs]
      rw [List.filterMap_append, hshown, hshown']

end Simulation

/-! ## Runs to a known state

`Q` is a property that every state before a `Q`-state has; so all states of a run that ends in one have
it.
-/

section Backward
variable {Q : σ → Prop} (hback : ∀ s a s', step s a = some s' → Q s' → Q s)

include hback in
theorem first_of_last {s t : σ} {as : List α} (hr : run step s as = some t) (hQ : Q t) : Q s := by
  induction as generalizing s with
  | nil =>
    have hs : s = t := by simpa using hr
    rwa [hs]
  | cons a as ih =>
    obtain ⟨s', hs, hr'⟩ := run_cons_eq.mp hr
    exact hback s a s' hs (ih hr')

include hback in
theorem run_invariant_to {I : σ → Prop} (hstep : ∀ s a s', I s → Q s' → step s a = some s' → I s')
    {s t : σ} {as : List α} (hI : I s) (hr : run step s as = some t) (hQ : Q t) : I t := by
  induction as generalizing s with
  | nil =>
    have hs : s = t := by simpa using hr
    exact hs ▸ hI
  | cons a as ih =>
    obtain ⟨s', hs, hr'⟩ := run_cons_eq.mp hr
    exact ih (hstep s a s' hI (first_of_last hback hr' hQ) hs) hr'

include hback in
/-- The invariant rule for guarded steps, in a run whose labels are all of the kind `A`. -/
theorem along_of_meets_to {I : σ → Prop} {A : α → Prop} {C : σ → α → Prop}
    (hstep : ∀ s a s', I s → Q s' → A a → C s a → step s a = some s' → I s') {s t : σ} {as : List α}
    (hI : I s) (hr : run step s as = some t) (hQ : Q t) (hA : ∀ a ∈ as, A a)
    (hC : Meets step C s as) : Along step I s as := by
  induction as generalizing s with
  | nil => exact hI
  | cons a as ih =>
    obtain ⟨s₁, hs₁, hr'⟩ := run_cons_eq.mp hr
    obtain ⟨ha, has⟩ := List.forall_mem_cons.mp hA
    refine ⟨hI, fun s' hs => ?_⟩
    have heq : s₁ = s' := Option.some.inj (hs₁.symm.trans hs)
    subst heq
    obtain ⟨hCa, hCs⟩ := hC s₁ hs
    exact ih (hstep s a s₁ hI (first_of_last hback hr' hQ) ha hCa hs) hr' has hCs

include hback in
/-- Both directions, where a step that is not admitted leads out of `P`. -/
theorem along_iff_meets {I P : σ → Prop} {A : α → Prop} {C : σ → α → Prop}
    (hsafe : ∀ s, I s → P s)
    (hstep : ∀ s a s', I s → Q s' → A a → C s a → step s a = some s' → I s')
    (hbad : ∀ s a s', I s → ¬ C s a → step s a = some s' → ¬ P s') {s t : σ} {as : List α}
    (hI : I s) (hr : run step s as = some t) (hQ : Q t) (hA : ∀ a ∈ as, A a) :
    Along step P s as ↔ Meets step C s as := by
  constructor
  · intro h
    induction as generalizing s with
    | nil => trivial
    | cons a as ih =>
      obtain ⟨s₁, hs₁, hr'⟩ := run_cons_eq.mp hr
      obtain ⟨ha, has⟩ := List.forall_mem_cons.mp hA
      intro s' hs
      have heq : s₁ = s' := Option.some.inj (hs₁.symm.trans hs)
      subst heq
      have hC : C s a := by
        by_contra hn
        exact hbad s a s₁ hI hn hs (h.2 s₁ hs).first
      have hI' := hstep s a s₁ hI (first_of_last hback hr' hQ) ha hC hs
      exact ⟨hC, ih hI' hr' has (h.2 s₁ hs)⟩
  · intro hC
    exact (along_of_meets_to hback hstep hI hr hQ hA hC).mono hsafe

end Backward

end Transition
