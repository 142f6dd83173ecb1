import Mathlib.Data.List.TakeDrop
import Mathlib.Logic.Relation
import SpecForge.Lib.Fuel

/-!
# Growing a set in sweeps

A set is grown by going over some nodes in turn, again and again: what a node of the set leads to
is put into the set. The sweeps go on as long as one has put in something new, but a sweep need not
count all it puts in: what a node leads to is `counted` or `silent`.

- §1 the sweeps; §2 one visit and one sweep; §3 that the sweeps end.
- §4 where everything is counted, the set is what can be reached.
- §5 where the nodes stay the same, what has been found at which time, and that the set is what
  has been found after the first quiet sweep.
-/

namespace SpecForge.Lib.Sweep

universe u

variable {α : Type u} [DecidableEq α]

/-! ## §1  The sweeps -/

structure Links (α : Type u) where
  counted : α → List α
  silent : α → List α

namespace Links

variable (leads : Links α)

def Step (a b : α) : Prop := b ∈ leads.counted a ∨ b ∈ leads.silent a

def Reachable (roots : List α) (b : α) : Prop :=
  ∃ a ∈ roots, Relation.ReflTransGen leads.Step a b

end Links

/-- Putting in; a set lists its elements as they came. -/
def put (s : List α) (a : α) : List α := if a ∈ s then s else s ++ [a]

def putCounted (st : List α × Bool) (a : α) : List α × Bool :=
  if a ∈ st.1 then st else (st.1 ++ [a], true)

def visit (leads : Links α) (st : List α × Bool) (a : α) : List α × Bool :=
  if a ∈ st.1 then
    let st := (leads.counted a).foldl putCounted st
    ((leads.silent a).foldl put st.1, st.2)
  else st

def sweep (leads : Links α) (nodes s : List α) : List α × Bool :=
  nodes.foldl (visit leads) (s, false)

/-- The loop, with a cap on the number of sweeps. The nodes may depend on the set. -/
def run (leads : Links α) (nodes : List α → List α) : ℕ → List α → Option (List α)
  | 0, _ => none
  | n + 1, s =>
      let st := sweep leads (nodes s) s
      if st.2 then run leads nodes n st.1 else some st.1

/-! ## §2  One sweep -/

section Visit

variable {leads : Links α} {st : List α × Bool} {s nodes : List α} {a x : α}

theorem mem_foldl_put : ∀ {l : List α} {s : List α}, x ∈ l.foldl put s ↔ x ∈ s ∨ x ∈ l
  | [], s => by simp
  | a :: l, s => by
      have hput : x ∈ put s a ↔ x ∈ s ∨ x = a := by
        unfold put
        split
        · next ha =>
            refine ⟨Or.inl, ?_⟩
            rintro (hx | rfl)
            · exact hx
            · exact ha
        · simp
      rw [List.foldl_cons, mem_foldl_put, hput, List.mem_cons, or_assoc]

/-- The flag does not matter for what is put in. -/
theorem foldl_putCounted_fst : ∀ {l : List α} {st : List α × Bool},
    (l.foldl putCounted st).1 = l.foldl put st.1
  | [], _ => rfl
  | a :: l, st => by
      have hput : (putCounted st a).1 = put st.1 a := by
        unfold putCounted put
        split <;> rfl
      rw [List.foldl_cons, foldl_putCounted_fst, hput, List.foldl_cons]

theorem mem_foldl_putCounted {l : List α} {st : List α × Bool} :
    x ∈ (l.foldl putCounted st).1 ↔ x ∈ st.1 ∨ x ∈ l := by
  rw [foldl_putCounted_fst, mem_foldl_put]

/-- The flag is set by what is new. -/
theorem foldl_putCounted_flag : ∀ {l : List α} {st : List α × Bool},
    (l.foldl putCounted st).2 = true ↔ st.2 = true ∨ ∃ b ∈ l, b ∉ st.1
  | [], st => by simp
  | a :: l, st => by
      rw [List.foldl_cons, foldl_putCounted_flag, List.exists_mem_cons_iff]
      unfold putCounted
      split
      · next ha => simp [ha]
      · next ha => simp [ha]

theorem mem_visit : x ∈ (visit leads st a).1 ↔ x ∈ st.1 ∨ a ∈ st.1 ∧ leads.Step a x := by
  unfold visit
  split
  · next ha =>
      dsimp only
      rw [mem_foldl_put, mem_foldl_putCounted, or_assoc, Links.Step]
      simp [ha]
  · next ha => simp [ha]

theorem visit_flag : (visit leads st a).2 = true ↔
    st.2 = true ∨ a ∈ st.1 ∧ ∃ b ∈ leads.counted a, b ∉ st.1 := by
  unfold visit
  split
  · next ha =>
      dsimp only
      rw [foldl_putCounted_flag]
      simp [ha]
  · next ha => simp [ha]

theorem subset_foldl_visit : ∀ {nodes : List α} {st : List α × Bool},
    st.1 ⊆ (nodes.foldl (visit leads) st).1
  | [], st => List.Subset.refl _
  | a :: nodes, st => by
      rw [List.foldl_cons]
      exact List.Subset.trans (fun x hx => mem_visit.mpr (Or.inl hx)) subset_foldl_visit

theorem subset_sweep : s ⊆ (sweep leads nodes s).1 :=
  @subset_foldl_visit _ _ leads nodes (s, false)

/-- A sweep stays within every set that is closed under its steps. -/
theorem foldl_visit_subset {R : Set α} (hclosed : ∀ a ∈ R, ∀ b, leads.Step a b → b ∈ R) :
    ∀ {nodes : List α} {st : List α × Bool}, (∀ x ∈ st.1, x ∈ R) →
      ∀ x ∈ (nodes.foldl (visit leads) st).1, x ∈ R
  | [], st, h => h
  | a :: nodes, st, h => by
      rw [List.foldl_cons]
      apply foldl_visit_subset hclosed
      intro x hx
      rcases mem_visit.mp hx with hx | ⟨ha, hstep⟩
      · exact h x hx
      · exact hclosed a (h a ha) x hstep

/-- A flagged sweep has put in something that it counts. -/
theorem foldl_visit_flagged : ∀ {nodes : List α} {st : List α × Bool},
    (nodes.foldl (visit leads) st).2 = true → st.2 = true ∨
      ∃ a, ∃ b ∈ leads.counted a, b ∉ st.1 ∧ b ∈ (nodes.foldl (visit leads) st).1
  | [], st, h => Or.inl h
  | a :: nodes, st, h => by
      rw [List.foldl_cons] at h ⊢
      rcases foldl_visit_flagged h with hflag | ⟨a', b, hb, hnew, hput⟩
      · rcases visit_flag.mp hflag with hflag | ⟨ha, b, hb, hnew⟩
        · exact Or.inl hflag
        · refine Or.inr ⟨a, b, hb, hnew, subset_foldl_visit ?_⟩
          exact mem_visit.mpr (Or.inr ⟨ha, Or.inl hb⟩)
      · refine Or.inr ⟨a', b, hb, fun hmem => hnew ?_, hput⟩
        exact mem_visit.mpr (Or.inl hmem)

/-- A quiet sweep has found nothing that it counts behind its nodes. -/
theorem foldl_visit_quiet : ∀ {nodes : List α} {st : List α × Bool},
    (nodes.foldl (visit leads) st).2 = false →
      st.2 = false ∧ ∀ a ∈ nodes, a ∈ st.1 → ∀ b ∈ leads.counted a,
        b ∈ (nodes.foldl (visit leads) st).1
  | [], st, h => ⟨h, List.forall_mem_nil _⟩
  | a :: nodes, st, h => by
      rw [List.foldl_cons] at h ⊢
      obtain ⟨hflag, hnodes⟩ := foldl_visit_quiet h
      have hquiet := mt visit_flag.mpr (Bool.not_eq_true _ ▸ hflag)
      rw [not_or, Bool.not_eq_true] at hquiet
      refine ⟨hquiet.1, List.forall_mem_cons.mpr ⟨fun ha b hb => ?_, fun a' ha' hmem => ?_⟩⟩
      · apply subset_foldl_visit
        exact mem_visit.mpr (Or.inr ⟨ha, Or.inl hb⟩)
      · exact hnodes a' ha' (mem_visit.mpr (Or.inl hmem))

/-- Where everything is counted, a quiet sweep puts in nothing. -/
theorem mem_of_quiet (hsilent : ∀ a, leads.silent a = []) :
    ∀ {nodes : List α} {st : List α × Bool}, (nodes.foldl (visit leads) st).2 = false →
      x ∈ (nodes.foldl (visit leads) st).1 → x ∈ st.1
  | [], st, _, hx => hx
  | a :: nodes, st, h, hx => by
      rw [List.foldl_cons] at h hx
      have hvisit := mem_of_quiet hsilent h hx
      have hquiet := mt visit_flag.mpr (Bool.not_eq_true _ ▸ (foldl_visit_quiet h).1)
      rcases mem_visit.mp hvisit with hx | ⟨ha, hb | hb⟩
      · exact hx
      · by_contra hnew
        exact hquiet (Or.inr ⟨ha, x, hb, hnew⟩)
      · rw [hsilent] at hb
        cases hb

end Visit

/-! ## §3  The loop -/

section Run

variable {leads : Links α} {nodes : List α → List α} {s t : List α}

/-- The set after so many sweeps. -/
def after (leads : Links α) (nodes : List α → List α) (s : List α) : ℕ → List α
  | 0 => s
  | k + 1 => (sweep leads (nodes (after leads nodes s k)) (after leads nodes s k)).1

/-- The flag of a sweep. -/
def flagged (leads : Links α) (nodes : List α → List α) (s : List α) (k : ℕ) : Bool :=
  (sweep leads (nodes (after leads nodes s k)) (after leads nodes s k)).2

theorem after_succ (s : List α) : ∀ k, after leads nodes s (k + 1) =
    after leads nodes (sweep leads (nodes s) s).1 k
  | 0 => rfl
  | k + 1 => by
      rw [after, after_succ s k]
      rfl

/-- **The loop ends with the first sweep that is quiet.** -/
theorem run_eq_some : ∀ {n : ℕ} {s t : List α}, run leads nodes n s = some t →
    ∃ k, (∀ j < k, flagged leads nodes s j = true) ∧ flagged leads nodes s k = false ∧
      t = after leads nodes s (k + 1)
  | 0, s, t, h => by cases h
  | n + 1, s, t, h => by
      rw [run] at h
      split at h
      · next hflag =>
          obtain ⟨k, hbefore, hquiet, rfl⟩ := run_eq_some h
          have hshift : ∀ j, flagged leads nodes (sweep leads (nodes s) s).1 j =
              flagged leads nodes s (j + 1) := by
            intro j
            rw [flagged, flagged, after_succ]
          refine ⟨k + 1, fun j hj => ?_, by rw [← hshift, hquiet], (after_succ s (k + 1)).symm⟩
          rcases j with _ | j
          · exact hflag
          · rw [← hshift]
            exact hbefore j (Nat.lt_of_succ_lt_succ hj)
      · next hflag =>
          rw [Bool.not_eq_true] at hflag
          exact ⟨0, fun j hj => absurd hj (Nat.not_lt_zero j), hflag, (Option.some.inj h).symm⟩

/-- A filter that lets less through. -/
theorem length_filter_lt {β : Type u} {p q : β → Bool} {l : List β} {b : β}
    (hpq : ∀ x, p x = true → q x = true) (hb : b ∈ l) (hq : q b = true) (hp : ¬ p b = true) :
    (l.filter p).length < (l.filter q).length := by
  have hsub : (l.filter p).Sublist (l.filter q) := List.monotone_filter_right l hpq
  refine Nat.lt_of_le_of_ne hsub.length_le fun hlen => ?_
  have hmem : b ∈ l.filter q := List.mem_filter.mpr ⟨hb, hq⟩
  rw [← hsub.eq_of_length hlen, List.mem_filter] at hmem
  exact hp hmem.2

/-- **The sweeps end if only finitely many things are counted.** -/
theorem exists_run (nodes : List α → List α) (univ : List α)
    (huniv : ∀ a, leads.counted a ⊆ univ) (s : List α) :
    ∃ n t, run leads nodes n s = some t := by
  induction hm : (univ.filter (· ∉ s)).length using Nat.strong_induction_on generalizing s with
  | h m ih =>
      subst hm
      cases hflag : (sweep leads (nodes s) s).2 with
      | false =>
          refine ⟨1, (sweep leads (nodes s) s).1, ?_⟩
          rw [run, hflag, if_neg (by simp)]
      | true =>
          rcases foldl_visit_flagged hflag with habsurd | ⟨a, b, hb, hnew, hput⟩
          · cases habsurd
          -- less is missing than before
          have hless : (univ.filter (· ∉ (sweep leads (nodes s) s).1)).length <
              (univ.filter (· ∉ s)).length := by
            refine length_filter_lt (fun x hx => ?_) (huniv a hb) (decide_eq_true hnew)
              (fun h => of_decide_eq_true h hput)
            rw [decide_eq_true_eq] at hx ⊢
            exact fun hmem => hx (subset_foldl_visit hmem)
          obtain ⟨n, t, ht⟩ := ih _ hless _ rfl
          refine ⟨n + 1, t, ?_⟩
          rw [run, hflag, if_pos rfl, ht]

theorem subset_after (k : ℕ) : s ⊆ after leads nodes s k := by
  induction k with
  | zero => exact List.Subset.refl s
  | succ k ih => exact List.Subset.trans ih subset_sweep

/-- Everything that is put in can be reached. -/
theorem reachable_of_mem_after {k : ℕ} {x : α} (hx : x ∈ after leads nodes s k) :
    leads.Reachable s x := by
  have hclosed : ∀ a ∈ {a | leads.Reachable s a}, ∀ b, leads.Step a b →
      b ∈ {a | leads.Reachable s a} := by
    rintro a ⟨r, hr, hpath⟩ b hstep
    exact ⟨r, hr, hpath.tail hstep⟩
  have hall : ∀ k, ∀ x ∈ after leads nodes s k, x ∈ {a | leads.Reachable s a} := by
    intro k
    induction k with
    | zero => exact fun x hx => ⟨x, hx, .refl⟩
    | succ k ih => exact foldl_visit_subset hclosed ih
  exact hall k x hx

/-! ## §4  Everything counted -/

/-- **Where everything is counted and the whole set is visited, the loop finds what can be
reached.** -/
theorem mem_run_iff (hsilent : ∀ a, leads.silent a = []) (hnodes : ∀ s, s ⊆ nodes s) {n : ℕ}
    (h : run leads nodes n s = some t) {x : α} : x ∈ t ↔ leads.Reachable s x := by
  obtain ⟨k, -, hquiet, rfl⟩ := run_eq_some h
  refine ⟨reachable_of_mem_after, ?_⟩
  rintro ⟨r, hr, hpath⟩
  apply subset_sweep
  -- the last sweep adds nothing, so the set before it is closed already
  induction hpath with
  | refl => exact subset_after k hr
  | tail _ hstep ih =>
      apply mem_of_quiet hsilent hquiet
      refine (foldl_visit_quiet hquiet).2 _ (hnodes _ ih) ih _ ?_
      rcases hstep with hb | hb
      · exact hb
      · rw [hsilent] at hb
        cases hb

end Run

/-! ## §5  The same nodes in every sweep -/

section Found

variable (leads : Links α) (nodes roots : List α)

/-- What has been found when sweep `k` comes to the node at `i`. -/
inductive Found : ℕ → ℕ → α → Prop where
  | root {a} : a ∈ roots → Found 0 0 a
  | stay {k i a} : Found k i a → i < nodes.length → Found k (i + 1) a
  | step {k i a b} : nodes[i]? = some a → Found k i a → leads.Step a b → Found k (i + 1) b
  | turn {k a} : Found k nodes.length a → Found (k + 1) 0 a

/-- Sweep `k` comes upon nothing new that it counts. -/
def Quiet (k : ℕ) : Prop :=
  ∀ i a b, nodes[i]? = some a → Found leads nodes roots k i a → b ∈ leads.counted a →
    Found leads nodes roots k i b

/-- The state of sweep `k` when it comes to the node at `i`. -/
def within (k i : ℕ) : List α × Bool :=
  (nodes.take i).foldl (visit leads) (after leads (fun _ => nodes) roots k, false)

variable {leads nodes roots} {k i : ℕ} {a x : α}

theorem within_zero :
    within leads nodes roots k 0 = (after leads (fun _ => nodes) roots k, false) :=
  rfl

theorem within_succ (ha : nodes[i]? = some a) :
    within leads nodes roots k (i + 1) = visit leads (within leads nodes roots k i) a := by
  rw [within, List.take_add_one, ha, List.foldl_append]
  rfl

theorem within_length : within leads nodes roots k nodes.length =
    sweep leads nodes (after leads (fun _ => nodes) roots k) := by
  rw [within, List.take_length, sweep]

theorem mem_within_of_found (h : Found leads nodes roots k i x) :
    x ∈ (within leads nodes roots k i).1 := by
  induction h with
  | root hroot => exact hroot
  | stay _ hi ih =>
      rw [within_succ (List.getElem?_eq_getElem hi), mem_visit]
      exact Or.inl ih
  | step ha _ hstep ih =>
      rw [within_succ ha, mem_visit]
      exact Or.inr ⟨ih, hstep⟩
  | turn _ ih =>
      rw [within_length] at ih
      exact ih

theorem found_of_mem_within (hi : i ≤ nodes.length)
    (hstart : ∀ x ∈ after leads (fun _ => nodes) roots k, Found leads nodes roots k 0 x)
    (hx : x ∈ (within leads nodes roots k i).1) : Found leads nodes roots k i x := by
  induction i generalizing x with
  | zero => exact hstart x hx
  | succ i ih =>
      have hlt : i < nodes.length := hi
      have ha := List.getElem?_eq_getElem hlt
      rw [within_succ ha, mem_visit] at hx
      rcases hx with hx | ⟨hmem, hstep⟩
      · exact .stay (ih (Nat.le_of_lt hlt) hx) hlt
      · exact .step ha (ih (Nat.le_of_lt hlt) hmem) hstep

theorem found_of_mem_after (k : ℕ) :
    ∀ x ∈ after leads (fun _ => nodes) roots k, Found leads nodes roots k 0 x := by
  induction k with
  | zero => exact fun x hx => .root hx
  | succ k ih =>
      intro x hx
      apply Found.turn
      apply found_of_mem_within (Nat.le_refl _) ih
      rw [within_length]
      exact hx

theorem mem_within_iff (hi : i ≤ nodes.length) :
    x ∈ (within leads nodes roots k i).1 ↔ Found leads nodes roots k i x :=
  ⟨found_of_mem_within hi (found_of_mem_after k), mem_within_of_found⟩

theorem mem_after_iff :
    x ∈ after leads (fun _ => nodes) roots k ↔ Found leads nodes roots k 0 x :=
  mem_within_iff (Nat.zero_le _)

theorem flagged_iff_not_quiet :
    flagged leads (fun _ => nodes) roots k = true ↔ ¬ Quiet leads nodes roots k := by
  have hprefix : ∀ i ≤ nodes.length, (within leads nodes roots k i).2 = true ↔
      ∃ j < i, ∃ a b, nodes[j]? = some a ∧ Found leads nodes roots k j a ∧
        b ∈ leads.counted a ∧ ¬ Found leads nodes roots k j b := by
    intro i
    induction i with
    | zero => simp [within_zero]
    | succ i ih =>
        intro hi
        have hlt : i < nodes.length := hi
        have ha := List.getElem?_eq_getElem hlt
        rw [within_succ ha, visit_flag, ih (Nat.le_of_lt hlt), mem_within_iff (Nat.le_of_lt hlt)]
        simp only [mem_within_iff (Nat.le_of_lt hlt)]
        constructor
        · rintro (⟨j, hj, hrest⟩ | ⟨hmem, b, hb, hnew⟩)
          · exact ⟨j, Nat.lt_succ_of_lt hj, hrest⟩
          · exact ⟨i, Nat.lt_succ_self i, _, b, ha, hmem, hb, hnew⟩
        · rintro ⟨j, hj, a, b, haj, hmem, hb, hnew⟩
          rcases Nat.lt_succ_iff_lt_or_eq.mp hj with hj | rfl
          · exact Or.inl ⟨j, hj, a, b, haj, hmem, hb, hnew⟩
          · obtain rfl := Option.some.inj (ha.symm.trans haj)
            exact Or.inr ⟨hmem, b, hb, hnew⟩
  rw [flagged, ← within_length, hprefix _ (Nat.le_refl _), Quiet]
  constructor
  · rintro ⟨j, -, a, b, ha, hmem, hb, hnew⟩ hquiet
    exact hnew (hquiet j a b ha hmem hb)
  · intro hloud
    push Not at hloud
    obtain ⟨j, a, b, ha, hmem, hb, hnew⟩ := hloud
    exact ⟨j, (List.getElem?_eq_some_iff.mp ha).1, a, b, ha, hmem, hb, hnew⟩

theorem Found.later {l : ℕ} (h : Found leads nodes roots k 0 x) (hl : k ≤ l) :
    Found leads nodes roots l 0 x := by
  induction hl with
  | refl => exact h
  | step _ ih =>
      rw [← mem_after_iff] at ih ⊢
      exact subset_sweep ih

/-- **The loop finds what has been found after a quiet sweep.** -/
theorem mem_run_iff_found {n : ℕ} {t : List α}
    (h : run leads (fun _ => nodes) n roots = some t) :
    x ∈ t ↔ ∀ k, Quiet leads nodes roots k → Found leads nodes roots (k + 1) 0 x := by
  obtain ⟨k, hbefore, hquiet, rfl⟩ := run_eq_some h
  have hk : Quiet leads nodes roots k := by
    by_contra hloud
    rw [← flagged_iff_not_quiet, hquiet] at hloud
    cases hloud
  rw [mem_after_iff]
  refine ⟨fun hx l hl => ?_, fun hall => hall k hk⟩
  refine hx.later (Nat.succ_le_succ ?_)
  -- the sweeps before this one were not quiet
  by_contra hlt
  exact flagged_iff_not_quiet.mp (hbefore l (Nat.lt_of_not_le hlt)) hl

end Found

end SpecForge.Lib.Sweep
