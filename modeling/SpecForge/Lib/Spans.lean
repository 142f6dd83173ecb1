import SpecForge.Lib.Fuel
import Mathlib.Data.List.Basic

/-!
# Replacing delimited spans

A loop looks for the first `l` in a text, then for the first `r` behind it, and replaces the two
with what stands between them. It searches the text that it has written, so that it ends only if no
replacement brings a new `l`.

- §1 what a span is; §2 one replacement.
- §3 the loop, and the spans that it replaces.
-/

namespace SpecForge.Lib.Spans

universe u

variable {α : Type u}

/-! ## §1  Spans -/

/-- Some `l` is followed, anywhere later, by an `r`. -/
def HasSpan (l r : α) (xs : List α) : Prop :=
  ∃ before after, xs = before ++ l :: after ∧ r ∈ after

variable {l r : α}

theorem hasSpan_cons_self {xs : List α} : HasSpan l r (l :: xs) ↔ r ∈ xs := by
  constructor
  · rintro ⟨before, after, heq, hr⟩
    cases before with
    | nil =>
        obtain ⟨-, rfl⟩ := List.cons.inj heq
        exact hr
    | cons x before =>
        obtain ⟨-, rfl⟩ := List.cons.inj heq
        exact List.mem_append_right _ (List.mem_cons_of_mem l hr)
  · exact fun hr => ⟨[], xs, rfl, hr⟩

/-- What has no `l` adds no span in front. -/
theorem hasSpan_append {xs ys : List α} (h : l ∉ xs) :
    HasSpan l r (xs ++ ys) ↔ HasSpan l r ys := by
  constructor
  · rintro ⟨before, after, heq, hr⟩
    rcases List.append_eq_append_iff.mp heq with ⟨mid, rfl, hys⟩ | ⟨mid, rfl, hcons⟩
    · exact ⟨mid, after, hys, hr⟩
    · cases mid with
      | nil => exact ⟨[], after, hcons.symm, hr⟩
      | cons x mid =>
          obtain ⟨rfl, -⟩ := List.cons.inj hcons
          exact absurd (List.mem_append_right _ List.mem_cons_self) h
  · rintro ⟨before, after, rfl, hr⟩
    exact ⟨xs ++ before, after, (List.append_assoc ..).symm, hr⟩

/-- The first span, from the first `l` to the next `r`. -/
theorem HasSpan.exists_first {xs : List α} (h : HasSpan l r xs) : ∃ before inside after,
    xs = before ++ l :: (inside ++ r :: after) ∧ l ∉ before ∧ r ∉ inside := by
  have hmem : l ∈ xs := by
    obtain ⟨before, after, rfl, -⟩ := h
    exact List.mem_append_right _ List.mem_cons_self
  obtain ⟨before, rest, rfl, hbefore⟩ := List.eq_append_cons_of_mem hmem
  rw [hasSpan_append hbefore, hasSpan_cons_self] at h
  obtain ⟨inside, after, rfl, hinside⟩ := List.eq_append_cons_of_mem h
  exact ⟨before, inside, after, rfl, hbefore, hinside⟩

/-- A text that ends a span, and what stands before the span. -/
structure Span (α : Type u) where
  before : List α
  inside : List α

/-- The span is the first one in the text that it ends. -/
def Span.First (l r : α) (s : Span α) : Prop := l ∉ s.before ∧ r ∉ s.inside

/-- The text of spans. -/
def written (l r : α) (spans : List (Span α)) : List α :=
  spans.flatMap fun s => s.before ++ l :: (s.inside ++ [r])

/-- The text of spans once they are replaced. -/
def replaced (f : List α → List α) (spans : List (Span α)) : List α :=
  spans.flatMap fun s => s.before ++ f s.inside

theorem notMem_replaced {f : List α → List α} {spans : List (Span α)}
    (hf : ∀ xs, l ∉ f xs) (h : ∀ s ∈ spans, s.First l r) : l ∉ replaced f spans := by
  rw [replaced, List.mem_flatMap]
  rintro ⟨s, hs, hl⟩
  rcases List.mem_append.mp hl with hl | hl
  · exact (h s hs).1 hl
  · exact hf _ hl

/-! ## §2  One replacement -/

variable [DecidableEq α]

/-- What stands before and behind the first `c`. -/
def cut (c : α) : List α → Option (List α × List α)
  | [] => none
  | x :: xs => if x = c then some ([], xs) else (cut c xs).map fun p => (x :: p.1, p.2)

/-- Replaces the span from the first `l` to the first `r` behind it. -/
def replaceSpan (l r : α) (f : List α → List α) (xs : List α) : Option (List α) :=
  match cut l xs with
  | none => none
  | some (before, rest) =>
      match cut r rest with
      | none => none
      | some (inside, after) => some (before ++ f inside ++ after)

theorem cut_append {c : α} (ys : List α) : ∀ {xs : List α}, c ∉ xs →
    cut c (xs ++ c :: ys) = some (xs, ys)
  | [], _ => if_pos rfl
  | x :: xs, h => by
      rw [List.mem_cons, not_or] at h
      rw [List.cons_append, cut, if_neg (Ne.symm h.1), cut_append ys h.2]
      rfl

theorem cut_eq_none {c : α} : ∀ {xs : List α}, c ∉ xs → cut c xs = none
  | [], _ => rfl
  | x :: xs, h => by
      rw [List.mem_cons, not_or] at h
      rw [cut, if_neg (Ne.symm h.1), cut_eq_none h.2]
      rfl

variable {f : List α → List α}

theorem replaceSpan_first {before inside : List α} (hbefore : l ∉ before) (hinside : r ∉ inside)
    (after : List α) : replaceSpan l r f (before ++ l :: (inside ++ r :: after)) =
      some (before ++ f inside ++ after) := by
  rw [replaceSpan, cut_append _ hbefore]
  dsimp only
  rw [cut_append _ hinside]

theorem replaceSpan_eq_none {xs : List α} (h : ¬ HasSpan l r xs) :
    replaceSpan l r f xs = none := by
  by_cases hmem : l ∈ xs
  · obtain ⟨before, rest, rfl, hbefore⟩ := List.eq_append_cons_of_mem hmem
    rw [hasSpan_append hbefore, hasSpan_cons_self] at h
    rw [replaceSpan, cut_append _ hbefore]
    dsimp only
    rw [cut_eq_none h]
  · rw [replaceSpan, cut_eq_none hmem]

/-! ## §3  The loop -/

/-- Replaces spans until there is none, at most as many as the budget allows. -/
def replaceSpans (l r : α) (f : List α → List α) : ℕ → List α → Option (List α)
  | 0, _ => none
  | n + 1, xs =>
      match replaceSpan l r f xs with
      | none => some xs
      | some ys => replaceSpans l r f n ys

theorem replaceSpans_succ {n : ℕ} {xs ys : List α} (h : replaceSpans l r f n xs = some ys) :
    replaceSpans l r f (n + 1) xs = some ys := by
  induction n generalizing xs with
  | zero => cases h
  | succ n ih =>
      rw [replaceSpans] at h ⊢
      rcases hstep : replaceSpan l r f xs with _ | xs'
      · rw [hstep] at h
        exact h
      · rw [hstep] at h
        exact ih h

theorem replaceSpans_stable (xs : List α) : Stable fun n => replaceSpans l r f n xs :=
  fun _ _ h => replaceSpans_succ h

/-- From `done`, which has no `l`, and `rest` on, the loop replaces the spans of `rest`: each
replacement takes an `l` from it. -/
theorem replaceSpans_from (hf : ∀ xs, l ∉ f xs) : ∀ {n : ℕ} {done rest : List α}, l ∉ done →
    rest.count l < n → ∃ spans tail, rest = written l r spans ++ tail ∧
      (∀ s ∈ spans, s.First l r) ∧ ¬ HasSpan l r tail ∧
      replaceSpans l r f n (done ++ rest) = some (done ++ (replaced f spans ++ tail)) := by
  intro n
  induction n with
  | zero => exact fun _ hcount => absurd hcount (Nat.not_lt_zero _)
  | succ n ih =>
      intro done rest hdone hcount
      by_cases hspan : HasSpan l r rest
      · obtain ⟨before, inside, after, rfl, hbefore, hinside⟩ := hspan.exists_first
        have hdone' : l ∉ done ++ before ++ f inside := by
          simp [hdone, hbefore, hf inside]
        have hcount' : after.count l < n := by
          simp only [List.count_append, List.count_cons_self] at hcount
          have := List.count_le_count_cons (a := l) (b := r) (l := after)
          omega
        obtain ⟨spans, tail, rfl, hfirst, htail, hrun⟩ := ih hdone' hcount'
        refine ⟨⟨before, inside⟩ :: spans, tail, ?_, ?_, htail, ?_⟩
        · simp [written]
        · exact List.forall_mem_cons.mpr ⟨⟨hbefore, hinside⟩, hfirst⟩
        · have hnotMem : l ∉ done ++ before := fun h => hdone' (List.mem_append_left _ h)
          rw [← List.append_assoc, replaceSpans, replaceSpan_first hnotMem hinside]
          dsimp only
          rw [hrun]
          simp [replaced]
      · refine ⟨[], rest, rfl, List.forall_mem_nil _, hspan, ?_⟩
        rw [← hasSpan_append hdone] at hspan
        rw [replaceSpans, replaceSpan_eq_none hspan]
        rfl

/-- **The loop ends, and has replaced every span**: the text is a row of spans and a rest without
one, and the result is the row with the spans replaced and the same rest. -/
theorem replaceSpans_returns (hf : ∀ xs, l ∉ f xs) (xs : List α) :
    ∃ spans tail, xs = written l r spans ++ tail ∧ (∀ s ∈ spans, s.First l r) ∧
      Returns (fun n => replaceSpans l r f n xs) (replaced f spans ++ tail) ∧
      ¬ HasSpan l r (replaced f spans ++ tail) := by
  obtain ⟨spans, tail, hxs, hfirst, htail, hrun⟩ :=
    replaceSpans_from (r := r) hf (List.not_mem_nil (a := l)) (Nat.lt_succ_self (xs.count l))
  refine ⟨spans, tail, hxs, hfirst, ⟨_, hrun⟩, ?_⟩
  rw [hasSpan_append (notMem_replaced hf hfirst)]
  exact htail

end SpecForge.Lib.Spans
