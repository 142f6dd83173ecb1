import Mathlib.Data.List.Induction
import Mathlib.Logic.Relation

/-!
# Machines

A machine is in one state and takes one event after the other; a state refuses the events
that cannot happen in it. What holds in every state of every run is shown for one event
(§1). Where it holds only as long as the events meet a condition, the condition is about an
event and the state that takes it (§2). A run may go on from where another has led (§3).
-/

namespace SpecForge.Lib

universe u v

structure Machine (σ : Type u) (ε : Type v) where
  init : σ
  step : σ → ε → Option σ

namespace Machine

variable {σ : Type u} {ε : Type v} (M : Machine σ ε)

/-- The state after some events, all of which could happen. -/
def run (events : List ε) : Option σ := events.foldlM M.step M.init

/-! ## §1  Runs -/

@[simp] theorem run_nil : M.run [] = some M.init := rfl

theorem run_concat (events : List ε) (e : ε) :
    M.run (events ++ [e]) = (M.run events).bind fun s => M.step s e := by
  unfold run
  rw [List.foldlM_append]
  change ((events.foldlM M.step M.init).bind fun s => [e].foldlM M.step s) = _
  congr 1
  funext s
  rw [List.foldlM_cons]
  change (M.step s e).bind some = _
  rcases M.step s e <;> rfl

variable {M}

theorem run_concat_iff {events : List ε} {e : ε} {s : σ} :
    M.run (events ++ [e]) = some s ↔ ∃ t, M.run events = some t ∧ M.step t e = some s := by
  rw [run_concat, Option.bind_eq_some_iff]

/-- What holds of the first state, with no events, and is kept by each event holds after
every run. -/
theorem run_invariant {I : List ε → σ → Prop} (hinit : I [] M.init)
    (hstep : ∀ events e t s, M.run events = some t → I events t → M.step t e = some s →
      I (events ++ [e]) s) :
    ∀ {events s}, M.run events = some s → I events s := by
  intro events
  induction events using List.reverseRecOn with
  | nil =>
      intro s hs
      rw [run_nil, Option.some.injEq] at hs
      exact hs ▸ hinit
  | append_singleton events e ih =>
      intro s hs
      obtain ⟨t, ht, hstep'⟩ := run_concat_iff.mp hs
      exact hstep events e t s ht (ih ht) hstep'

/-- The same for what does not mention the events. -/
theorem reachable_invariant {I : σ → Prop} (hinit : I M.init)
    (hstep : ∀ t e s, I t → M.step t e = some s → I s) {events : List ε} {s : σ}
    (hrun : M.run events = some s) : I s :=
  run_invariant (I := fun _ s => I s) hinit (fun _ e t s _ ht he => hstep t e s ht he) hrun

/-! ## §2  Runs whose events meet a condition -/

variable (M)

/-- Each event meets the condition in the state that takes it. -/
def Throughout (P : σ → ε → Prop) (events : List ε) : Prop :=
  ∀ before e after t, events = before ++ e :: after → M.run before = some t → P t e

variable {M}

theorem throughout_nil (P : σ → ε → Prop) : M.Throughout P [] := by
  intro before e after t h
  simp at h

/-- Events that meet the condition in every state. -/
theorem throughout_of_forall {P : σ → ε → Prop} {events : List ε}
    (h : ∀ e ∈ events, ∀ t, P t e) : M.Throughout P events := by
  rintro before e after t rfl -
  exact h e (List.mem_append_right _ List.mem_cons_self) t

theorem throughout_concat {P : σ → ε → Prop} {events : List ε} {e : ε} :
    M.Throughout P (events ++ [e]) ↔
      M.Throughout P events ∧ ∀ t, M.run events = some t → P t e := by
  constructor
  · intro h
    constructor
    · intro before e' after t hsplit ht
      refine h before e' (after ++ [e]) t ?_ ht
      rw [hsplit, List.append_assoc, List.cons_append]
    · intro t ht
      exact h events e [] t rfl ht
  · rintro ⟨hevents, hlast⟩ before e' after t hsplit ht
    rcases List.eq_nil_or_concat after with rfl | ⟨after', last, rfl⟩
    · obtain ⟨rfl, hlast'⟩ := List.append_inj' hsplit rfl
      rw [List.singleton_inj] at hlast'
      exact hlast' ▸ hlast t ht
    · rw [List.concat_eq_append, ← List.cons_append, ← List.append_assoc] at hsplit
      obtain ⟨rfl, -⟩ := List.append_inj' hsplit rfl
      exact hevents before e' after' t rfl ht

theorem run_cons (e : ε) (events : List ε) :
    M.run (e :: events) = (M.step M.init e).bind fun s => (Machine.mk s M.step).run events := by
  unfold run
  rw [List.foldlM_cons]
  rfl

/-- After the first event the machine goes on from where that has led. -/
theorem throughout_cons {P : σ → ε → Prop} {e : ε} {events : List ε} :
    M.Throughout P (e :: events) ↔
      P M.init e ∧ ∀ s, M.step M.init e = some s → (Machine.mk s M.step).Throughout P events := by
  constructor
  · intro h
    refine ⟨h [] e events M.init rfl rfl, fun s hs before e' after t hsplit ht => ?_⟩
    refine h (e :: before) e' after t (by rw [hsplit, List.cons_append]) ?_
    rw [run_cons, hs]
    exact ht
  · rintro ⟨hfirst, hrest⟩ before e' after t hsplit ht
    cases before with
    | nil =>
        rw [List.nil_append, List.cons.injEq] at hsplit
        rw [run_nil, Option.some.injEq] at ht
        rw [← ht, ← hsplit.1]
        exact hfirst
    | cons e'' before =>
        rw [List.cons_append, List.cons.injEq] at hsplit
        obtain ⟨rfl, hsplit⟩ := hsplit
        rw [run_cons] at ht
        obtain ⟨s, hs, hrun⟩ := Option.bind_eq_some_iff.mp ht
        exact hrest s hs before e' after t hsplit hrun

theorem throughout_congr {P P' : σ → ε → Prop}
    (h : ∀ events t e, M.run events = some t → (P t e ↔ P' t e)) {events : List ε} :
    M.Throughout P events ↔ M.Throughout P' events := by
  constructor
  · intro hP before e after t hsplit ht
    exact (h before t e ht).mp (hP before e after t hsplit ht)
  · intro hP' before e after t hsplit ht
    exact (h before t e ht).mpr (hP' before e after t hsplit ht)

/-- What the events keep as long as they meet the condition. -/
theorem run_invariant_of_throughout {P : σ → ε → Prop} {I : List ε → σ → Prop}
    (hinit : I [] M.init)
    (hstep : ∀ events e t s, M.run events = some t → I events t → P t e →
      M.step t e = some s → I (events ++ [e]) s) {events : List ε} {s : σ}
    (hrun : M.run events = some s) (hcond : M.Throughout P events) : I events s := by
  have hboth : M.Throughout P events → I events s := by
    refine run_invariant (I := fun es s => M.Throughout P es → I es s) (fun _ => hinit) ?_ hrun
    intro events e t s ht ih hs hcond
    obtain ⟨hbefore, hlast⟩ := throughout_concat.mp hcond
    exact hstep events e t s ht (ih hbefore) (hlast t ht) hs
  exact hboth hcond

/-- Where a property of the state is lost for good by the first event that does not meet the
condition, it holds at the end of the run exactly if all events met the condition. -/
theorem holds_iff_throughout {P : σ → ε → Prop} {Q : σ → Prop} (hinit : Q M.init)
    (hstep : ∀ events e t s, M.run events = some t → M.step t e = some s →
      (Q s ↔ Q t ∧ P t e)) {events : List ε} {s : σ} (hrun : M.run events = some s) :
    Q s ↔ M.Throughout P events := by
  refine run_invariant (I := fun events s => Q s ↔ M.Throughout P events) ?_ ?_ hrun
  · exact ⟨fun _ => throughout_nil P, fun _ => hinit⟩
  · intro events e t s ht ih hs
    rw [hstep events e t s ht hs, throughout_concat, ih]
    constructor
    · rintro ⟨hbefore, hlast⟩
      refine ⟨hbefore, ?_⟩
      intro t' ht'
      rw [ht, Option.some.injEq] at ht'
      exact ht' ▸ hlast
    · rintro ⟨hbefore, hlast⟩
      exact ⟨hbefore, hlast t ht⟩

/-- Where a property may come back after it was lost, it has held all along exactly if all events
met the condition. -/
theorem prefixes_iff_throughout {P : σ → ε → Prop} {Q : σ → Prop} (hinit : Q M.init)
    (hstep : ∀ events e t s, M.run events = some t → M.step t e = some s → Q t →
      (Q s ↔ P t e)) {events : List ε} {s : σ} (hrun : M.run events = some s) :
    (∀ before after t, events = before ++ after → M.run before = some t → Q t) ↔
      M.Throughout P events := by
  refine run_invariant (I := fun events _ => (∀ before after t, events = before ++ after →
    M.run before = some t → Q t) ↔ M.Throughout P events) ?_ ?_ hrun
  · refine iff_of_true ?_ (throughout_nil P)
    intro before after t hsplit ht
    obtain ⟨rfl, -⟩ := List.append_eq_nil_iff.mp hsplit.symm
    rw [run_nil, Option.some.injEq] at ht
    exact ht ▸ hinit
  · intro events e t s ht ih hs
    rw [throughout_concat, ← ih]
    have hlast : M.run (events ++ [e]) = some s := run_concat_iff.mpr ⟨t, ht, hs⟩
    constructor
    · intro h
      have hbefore : ∀ before after t, events = before ++ after → M.run before = some t → Q t := by
        intro before after t' hsplit ht'
        exact h before (after ++ [e]) t' (by rw [hsplit, List.append_assoc]) ht'
      refine ⟨hbefore, fun t' ht' => ?_⟩
      rw [ht, Option.some.injEq] at ht'
      rw [← ht']
      have hQ : Q t := hbefore events [] t (List.append_nil _).symm ht
      exact (hstep events e t s ht hs hQ).mp (h _ [] s (List.append_nil _).symm hlast)
    · rintro ⟨hbefore, hcond⟩ before after t' hsplit ht'
      rcases List.eq_nil_or_concat after with rfl | ⟨after', last, rfl⟩
      · rw [List.append_nil] at hsplit
        rw [← hsplit, hlast, Option.some.injEq] at ht'
        rw [← ht']
        have hQ : Q t := hbefore events [] t (List.append_nil _).symm ht
        exact (hstep events e t s ht hs hQ).mpr (hcond t ht)
      · rw [List.concat_eq_append, ← List.append_assoc] at hsplit
        exact hbefore before after' t' (List.append_inj' hsplit rfl).1 ht'

/-! ## §3  Going on -/

variable (M)

/-- Some events lead from the one state to the other. -/
def Leads : σ → σ → Prop := Relation.ReflTransGen fun s s' => ∃ e, M.step s e = some s'

variable {M}

theorem Leads.single {s s' : σ} {e : ε} (h : M.step s e = some s') : M.Leads s s' :=
  Relation.ReflTransGen.single ⟨e, h⟩

theorem Leads.append {s s' s'' : σ} (h : M.Leads s s') (h' : M.Leads s' s'') : M.Leads s s'' :=
  Relation.ReflTransGen.trans h h'

instance : Trans M.Leads M.Leads M.Leads := ⟨Leads.append⟩

theorem exists_run_of_leads {events : List ε} {s s' : σ} (hrun : M.run events = some s)
    (h : M.Leads s s') : ∃ more, M.run (events ++ more) = some s' := by
  induction h with
  | refl => exact ⟨[], by rw [List.append_nil, hrun]⟩
  | tail _ hstep ih =>
      obtain ⟨more, hmore⟩ := ih
      obtain ⟨e, he⟩ := hstep
      refine ⟨more ++ [e], ?_⟩
      rw [← List.append_assoc]
      exact run_concat_iff.mpr ⟨_, hmore, he⟩

/-- What is kept by each of the events that follow. -/
theorem invariant_of_append {P : ε → Prop} {I : σ → Prop} {events : List ε} {s : σ}
    (hrun : M.run events = some s) (hinit : I s)
    (hstep : ∀ t e t', I t → P e → M.step t e = some t' → I t') {more : List ε} :
    ∀ {s' : σ}, (∀ e ∈ more, P e) → M.run (events ++ more) = some s' → I s' := by
  induction more using List.reverseRecOn with
  | nil =>
      intro s' _ hs'
      rw [List.append_nil, hrun] at hs'
      rwa [← Option.some.inj hs']
  | append_singleton more e ih =>
      intro s' hall hs'
      rw [← List.append_assoc] at hs'
      obtain ⟨t, ht, hlast⟩ := run_concat_iff.mp hs'
      apply hstep t e s' _ _ hlast
      · exact ih (fun e' he' => hall e' (List.mem_append_left _ he')) ht
      · exact hall e (List.mem_append_right _ List.mem_cons_self)

end Machine

end SpecForge.Lib
