import Mathlib.Data.List.Basic

/-! # Cutting a stream into delimited pieces

Nothing here is about one program. A list over `α` is read as a stream in which every piece is ended
by the delimiter `d`: `complete d l` are the pieces whose delimiter has arrived, `tail d l` is what
follows the last delimiter. A stream can be cut as it arrives: only the tail of what has been cut so
far matters for the rest (`complete_append`, `tail_append`), so cutting chunk by chunk and carrying
the tail over gives the pieces of the whole (`cutAll_eq`).
-/
namespace Lines
set_option autoImplicit false

variable {α : Type} [DecidableEq α] (d : α)

def complete (l : List α) : List (List α) := (l.splitOn d).dropLast

def tail (l : List α) : List α := (l.splitOn d).getLast (List.splitOn_ne_nil d l)

variable {d}

theorem splitOn_eq (l : List α) : l.splitOn d = complete d l ++ [tail d l] :=
  (List.dropLast_append_getLast (List.splitOn_ne_nil d l)).symm

theorem eq_of_splitOn {l : List α} {p : List (List α)} {t : List α}
    (h : l.splitOn d = p ++ [t]) : complete d l = p ∧ tail d l = t := by
  rw [splitOn_eq] at h
  obtain ⟨hp, ht⟩ := List.append_inj' h rfl
  exact ⟨hp, by simpa using ht⟩

theorem complete_of_not_mem {l : List α} (h : d ∉ l) : complete d l = [] :=
  (eq_of_splitOn (p := []) (List.splitOn_eq_singleton h)).1

theorem tail_of_not_mem {l : List α} (h : d ∉ l) : tail d l = l :=
  (eq_of_splitOn (p := []) (List.splitOn_eq_singleton h)).2

@[simp] theorem complete_nil : complete d ([] : List α) = [] := complete_of_not_mem (by simp)
@[simp] theorem tail_nil : tail d ([] : List α) = [] := tail_of_not_mem (by simp)

theorem splitOn_piece {p : List α} (hp : d ∉ p) (l : List α) :
    (p ++ d :: l).splitOn d = p :: l.splitOn d := by
  rw [List.splitOn_append_cons_self, List.splitOn_eq_singleton hp, List.singleton_append]

theorem complete_piece {p : List α} (hp : d ∉ p) (l : List α) :
    complete d (p ++ d :: l) = p :: complete d l := by
  have h : (p ++ d :: l).splitOn d = (p :: complete d l) ++ [tail d l] := by
    rw [splitOn_piece hp, splitOn_eq l, List.cons_append]
  exact (eq_of_splitOn h).1

theorem tail_piece {p : List α} (hp : d ∉ p) (l : List α) : tail d (p ++ d :: l) = tail d l := by
  have h : (p ++ d :: l).splitOn d = (p :: complete d l) ++ [tail d l] := by
    rw [splitOn_piece hp, splitOn_eq l, List.cons_append]
  exact (eq_of_splitOn h).2

theorem piece_cases (l : List α) : d ∉ l ∨ ∃ p r, d ∉ p ∧ l = p ++ d :: r := by
  by_cases h : d ∈ l
  · obtain ⟨p, r, rfl, hp⟩ := List.eq_append_cons_of_mem h
    exact Or.inr ⟨p, r, hp, rfl⟩
  · exact Or.inl h

/-- **Cutting in two steps.** The pieces of `a ++ b` are those of `a`, then those of what is left of
`a` followed by `b`. The induction is on the number of complete pieces of `a`. -/
theorem splitOn_append (a b : List α) :
    (a ++ b).splitOn d = complete d a ++ (tail d a ++ b).splitOn d := by
  induction hn : a.length using Nat.strongRecOn generalizing a with
  | _ n ih =>
    rcases piece_cases (d := d) a with h | ⟨p, r, hp, rfl⟩
    · rw [complete_of_not_mem h, tail_of_not_mem h, List.nil_append]
    · have hr := ih r.length (by rw [← hn]; simp; omega) r rfl
      rw [complete_piece hp, tail_piece hp, List.append_assoc, List.cons_append, splitOn_piece hp, hr,
        List.cons_append]

theorem complete_append (a b : List α) :
    complete d (a ++ b) = complete d a ++ complete d (tail d a ++ b) := by
  have h : (a ++ b).splitOn d =
      (complete d a ++ complete d (tail d a ++ b)) ++ [tail d (tail d a ++ b)] := by
    rw [splitOn_append, splitOn_eq (tail d a ++ b), List.append_assoc]
  exact (eq_of_splitOn h).1

theorem tail_append (a b : List α) : tail d (a ++ b) = tail d (tail d a ++ b) := by
  have h : (a ++ b).splitOn d =
      (complete d a ++ complete d (tail d a ++ b)) ++ [tail d (tail d a ++ b)] := by
    rw [splitOn_append, splitOn_eq (tail d a ++ b), List.append_assoc]
  exact (eq_of_splitOn h).2

theorem complete_length (l : List α) : (complete d l).length = l.count d := by
  induction hn : l.length using Nat.strongRecOn generalizing l with
  | _ n ih =>
    rcases piece_cases (d := d) l with h | ⟨p, r, hp, rfl⟩
    · rw [complete_of_not_mem h, List.count_eq_zero_of_not_mem h, List.length_nil]
    · have hr := ih r.length (by rw [← hn]; simp; omega) r rfl
      rw [complete_piece hp, List.length_cons, hr, List.count_append,
        List.count_eq_zero_of_not_mem hp, List.count_cons_self, Nat.zero_add]

theorem not_mem_tail (l : List α) : d ∉ tail d l := by
  induction hn : l.length using Nat.strongRecOn generalizing l with
  | _ n ih =>
    rcases piece_cases (d := d) l with h | ⟨p, r, hp, rfl⟩
    · rwa [tail_of_not_mem h]
    · rw [tail_piece hp]
      exact ih r.length (by rw [← hn]; simp; omega) r rfl

/-- Bytes without a delimiter only lengthen the tail. -/
theorem cut_append_rest (l : List α) {r : List α} (hr : d ∉ r) :
    complete d (l ++ r) = complete d l ∧ tail d (l ++ r) = tail d l ++ r := by
  have hmem : d ∉ tail d l ++ r := fun h => (List.mem_append.mp h).elim (not_mem_tail l) hr
  constructor
  · rw [complete_append, complete_of_not_mem hmem, List.append_nil]
  · rw [tail_append, tail_of_not_mem hmem]

/-- A piece that is ended is joined to the tail. -/
theorem cut_append_piece (l : List α) {p : List α} (hp : d ∉ p) :
    complete d (l ++ (p ++ [d])) = complete d l ++ [tail d l ++ p] ∧
      tail d (l ++ (p ++ [d])) = [] := by
  have hmem : d ∉ tail d l ++ p := fun h => (List.mem_append.mp h).elim (not_mem_tail l) hp
  constructor
  · rw [complete_append, ← List.append_assoc, complete_piece hmem, complete_nil]
  · rw [tail_append, ← List.append_assoc, tail_piece hmem, tail_nil]

/-! ## Streams of delimited pieces

`framed d ps` is the stream of the pieces `ps`, each with its delimiter.
-/

def framed (d : α) (ps : List (List α)) : List α := (ps.map (· ++ [d])).flatten

/-- The longest initial part of a list whose sizes sum to at most `n`. -/
def fitting {β : Type} (size : β → ℕ) : ℕ → List β → List β
  | _, [] => []
  | n, b :: bs => if size b ≤ n then b :: fitting size (n - size b) bs else []

omit [DecidableEq α] in
theorem framed_cons (p : List α) (ps : List (List α)) :
    framed d (p :: ps) = p ++ d :: framed d ps := by
  simp [framed]

theorem cut_framed {ps : List (List α)} (h : ∀ p ∈ ps, d ∉ p) :
    complete d (framed d ps) = ps ∧ tail d (framed d ps) = [] := by
  induction ps with
  | nil => exact ⟨complete_nil, tail_nil⟩
  | cons p ps ih =>
    have hp := h p (List.mem_cons_self ..)
    obtain ⟨hcomplete, htail⟩ := ih fun q hq => h q (List.mem_cons_of_mem p hq)
    rw [framed_cons]
    exact ⟨by rw [complete_piece hp, hcomplete], by rw [tail_piece hp, htail]⟩

theorem framed_injective {ps qs : List (List α)} (hps : ∀ p ∈ ps, d ∉ p) (hqs : ∀ q ∈ qs, d ∉ q)
    (h : framed d ps = framed d qs) : ps = qs := by
  rw [← (cut_framed hps).1, h, (cut_framed hqs).1]

/-- The pieces of an initial part of the stream are those that fit into it with their delimiters. The
induction is on the pieces: the part either holds the first of them whole or holds no delimiter. -/
theorem complete_initial {ps : List (List α)} (h : ∀ p ∈ ps, d ∉ p) {r : List α}
    (hr : r <+: framed d ps) : complete d r = fitting (fun p => p.length + 1) r.length ps := by
  induction ps generalizing r with
  | nil =>
    have hnil : r = [] := List.prefix_nil.mp hr
    rw [hnil, complete_nil, fitting]
  | cons p ps ih =>
    have hp := h p (List.mem_cons_self ..)
    have hsplit : framed d (p :: ps) = (p ++ [d]) ++ framed d ps := by
      rw [framed_cons, List.append_assoc, List.singleton_append]
    rw [hsplit] at hr
    rw [fitting]
    by_cases hlen : p.length + 1 ≤ r.length
    · have hfirst : p ++ [d] <+: r :=
        List.prefix_of_prefix_length_le (List.prefix_append _ _) hr (by simpa using hlen)
      obtain ⟨r', rfl⟩ := hfirst
      have hr' : r' <+: framed d ps := (List.prefix_append_right_inj (p ++ [d])).mp hr
      have hrest := ih (fun q hq => h q (List.mem_cons_of_mem p hq)) hr'
      have hsize : (p ++ [d] ++ r').length - (p.length + 1) = r'.length := by
        rw [List.length_append, List.length_append, List.length_singleton]
        omega
      rw [if_pos hlen, hsize, ← hrest, List.append_assoc, List.singleton_append, complete_piece hp]
    · rw [if_neg hlen]
      apply complete_of_not_mem
      have hshort : r <+: p := by
        have hpre : p <+: p ++ [d] ++ framed d ps := by
          rw [List.append_assoc]
          exact List.prefix_append _ _
        exact List.prefix_of_prefix_length_le hr hpre (by omega)
      exact fun hmem => hp (hshort.subset hmem)

omit [DecidableEq α] in
theorem fitting_map {β γ : Type} (f : β → γ) (size : γ → ℕ) (n : ℕ) (bs : List β) :
    fitting size n (bs.map f) = (fitting (fun b => size (f b)) n bs).map f := by
  induction bs generalizing n with
  | nil => rfl
  | cons b bs ih =>
    simp only [List.map_cons, fitting]
    split
    · rw [ih, List.map_cons]
    · rfl

omit [DecidableEq α] in
theorem fitting_initial {β : Type} (size : β → ℕ) (n : ℕ) (bs : List β) : fitting size n bs <+: bs := by
  induction bs generalizing n with
  | nil => exact List.prefix_refl _
  | cons b bs ih =>
    rw [fitting]
    split
    · exact List.cons_prefix_cons.mpr ⟨rfl, ih (n - size b)⟩
    · exact List.nil_prefix

/-! ## Cutting as the chunks arrive -/

/-- Cutting chunk by chunk: the pieces completed by each chunk, and the tail carried over. -/
def cutAll (d : α) : List α → List (List α) → List (List α) × List α
  | t, [] => ([], t)
  | t, c :: cs =>
    let rest := cutAll d (tail d (t ++ c)) cs
    (complete d (t ++ c) ++ rest.1, rest.2)

/-- **Chunking does not matter.** -/
theorem cutAll_eq (cs : List (List α)) (t : List α) (ht : d ∉ t) :
    cutAll d t cs = (complete d (t ++ cs.flatten), tail d (t ++ cs.flatten)) := by
  induction cs generalizing t with
  | nil => simp [cutAll, complete_of_not_mem ht, tail_of_not_mem ht]
  | cons c cs ih =>
    have hrest := ih (tail d (t ++ c)) (not_mem_tail _)
    have hc : complete d (t ++ (c :: cs).flatten) =
        complete d (t ++ c) ++ complete d (tail d (t ++ c) ++ cs.flatten) := by
      rw [List.flatten_cons, ← List.append_assoc, complete_append]
    have ht' : tail d (t ++ (c :: cs).flatten) = tail d (tail d (t ++ c) ++ cs.flatten) := by
      rw [List.flatten_cons, ← List.append_assoc, tail_append]
    rw [cutAll, hrest, hc, ht']

end Lines
