import Mathlib.Data.List.Chain
import Mathlib.Logic.Relation
import SpecForge.Lib.IndexMap

/-!
# Depths by a depth-first walk

A walk visits nodes and gives each a depth: 0 without targets, else one more than the largest depth
of a target. The depths are memoized, and a node whose visit has not ended counts 0. So the depth
of a node in a cycle depends on the way by which the walk has come to it.

- §1 the largest of some numbers; §2 ways and first roots; §3 the walk; §4 what a walk visits.
- §5 the depth of a node by the way to it; §6 the way from the first root.
- §7 when two walks agree; §8 walks that follow a given way, and when they do not.
-/

namespace SpecForge.Lib.Depth

universe u

variable {α : Type u}

/-! ## §1  The largest of some numbers -/

def peak (f : α → ℕ) (l : List α) : ℕ := l.foldr (fun a n => max (f a) n) 0

section Peak

variable {f g : α → ℕ} {l l' : List α} {n : ℕ}

theorem peak_le_iff : peak f l ≤ n ↔ ∀ a ∈ l, f a ≤ n := by
  induction l with
  | nil => simp [peak]
  | cons a l ih =>
      rw [List.forall_mem_cons, ← ih]
      exact Nat.max_le

theorem le_peak {a : α} (ha : a ∈ l) : f a ≤ peak f l := peak_le_iff.mp (Nat.le_refl _) a ha

theorem peak_congr (hmem : ∀ a, a ∈ l ↔ a ∈ l') (h : ∀ a ∈ l, f a = g a) :
    peak f l = peak g l' := by
  apply Nat.le_antisymm
  · apply peak_le_iff.mpr
    intro a ha
    rw [h a ha]
    exact le_peak ((hmem a).mp ha)
  · apply peak_le_iff.mpr
    intro a ha
    rw [← h a ((hmem a).mpr ha)]
    exact le_peak ((hmem a).mpr ha)

end Peak

/-! ## §2  Ways -/

section Ways

/-- `p` goes from `r` to `b` and meets no node twice; it is listed backwards. -/
structure Way (R : α → α → Prop) (r b : α) (p : List α) : Prop where
  chain : p.IsChain fun y x => R x y
  first : p.head? = some b
  last : p.getLast? = some r
  nodup : p.Nodup

variable {R : α → α → Prop} {roots : List α} {r a b t : α} {p : List α}

/-- `r` is the first of the roots that leads to `b`. -/
def FirstRoot (R : α → α → Prop) (roots : List α) (r b : α) : Prop :=
  ∃ pre post, roots = pre ++ r :: post ∧ (∀ a ∈ pre, ¬ Relation.ReflTransGen R a b) ∧
    Relation.ReflTransGen R r b

theorem exists_firstRoot (ha : a ∈ roots) (hab : Relation.ReflTransGen R a b) :
    ∃ r, FirstRoot R roots r b := by
  induction roots with
  | nil => cases ha
  | cons c roots ih =>
      by_cases hc : Relation.ReflTransGen R c b
      · exact ⟨c, [], roots, rfl, List.forall_mem_nil _, hc⟩
      · rcases List.mem_cons.mp ha with rfl | ha
        · exact absurd hab hc
        · obtain ⟨r, pre, post, rfl, hpre, hr⟩ := ih ha
          exact ⟨r, c :: pre, post, rfl, List.forall_mem_cons.mpr ⟨hc, hpre⟩, hr⟩

/-- What stands on a way leads to its end. -/
theorem Way.leads_to (h : Way R r b p) (ht : t ∈ p) : Relation.ReflTransGen R t b := by
  obtain ⟨hchain, hfirst, -, -⟩ := h
  induction p generalizing b with
  | nil => cases ht
  | cons c p ih =>
      obtain rfl : c = b := Option.some.inj hfirst
      rcases List.mem_cons.mp ht with rfl | ht
      · exact .refl
      · obtain ⟨hhead, htail⟩ := List.isChain_cons.mp hchain
        cases p with
        | nil => cases ht
        | cons c' p => exact (ih ht htail rfl).tail (hhead c' rfl)

theorem Way.mem_last (h : Way R r b p) : r ∈ p := List.mem_of_getLast? h.last

theorem Way.mem_first (h : Way R r b p) : b ∈ p := List.mem_of_mem_head? h.first

end Ways

variable [DecidableEq α]

/-! ## §3  The walk -/

abbrev Memo (α : Type u) := IndexMap α ℕ

/-- The depth of a node, from the largest depth of its targets. -/
def level (targets : List α) (n : ℕ) : ℕ := if targets.isEmpty then 0 else n + 1

/-- Nodes visited in turn, with the largest of their depths and the memo table before and after. -/
inductive Visits (targets : α → List α) : List α → Memo α → ℕ → Memo α → Prop where
  | nil {m} : Visits targets [] m 0 m
  | cached {a as m d n m'} : m.get a = some d → Visits targets as m n m' →
      Visits targets (a :: as) m (max d n) m'
  | fresh {a as m n m₁ d n' m'} : m.get a = none →
      Visits targets (targets a) (m.insert a 0) n m₁ → d = level (targets a) n →
      Visits targets as (m₁.insert a d) n' m' → Visits targets (a :: as) m (max d n') m'

/-! ## §4  What a walk visits -/

section Visits

variable {targets : α → List α} {as : List α} {m m' : Memo α} {n : ℕ} {a b : α} {d : ℕ}

/-- What has been noted stays. -/
theorem Visits.get_of_get (h : Visits targets as m n m') (hb : m.get b = some d) :
    m'.get b = some d := by
  induction h with
  | nil => exact hb
  | cached _ _ ih => exact ih hb
  | @fresh a as m n m₁ e n' m' hnew _ _ _ ih₁ ih₂ =>
      have hne : b ≠ a := by
        rintro rfl
        rw [hnew] at hb
        cases hb
      apply ih₂
      rw [IndexMap.get_insert, if_neg hne]
      apply ih₁
      rw [IndexMap.get_insert, if_neg hne, hb]

theorem Visits.noted (h : Visits targets as m n m') (ha : a ∈ as) : ∃ d, m'.get a = some d := by
  induction h with
  | nil => cases ha
  | cached hget hrest ih =>
      rcases List.mem_cons.mp ha with rfl | ha
      · exact ⟨_, hrest.get_of_get hget⟩
      · exact ih ha
  | fresh _ _ _ hrest _ ih =>
      rcases List.mem_cons.mp ha with rfl | ha
      · exact ⟨_, hrest.get_of_get (IndexMap.get_insert_self _ _ _)⟩
      · exact ih ha

/-- The targets of what the walk has visited are visited too. -/
theorem Visits.closed (h : Visits targets as m n m') (hnew : m.get b = none)
    (hb : m'.get b = some d) {t : α} (ht : t ∈ targets b) : ∃ e, m'.get t = some e := by
  induction h generalizing d with
  | nil =>
      rw [hnew] at hb
      cases hb
  | cached _ _ ih => exact ih hnew hb
  | @fresh a as m n m₁ e n' m' ha hin _ hrest ih₁ ih₂ =>
      have hkeep : ∀ {t e}, m₁.get t = some e → ∃ e', m'.get t = some e' := by
        intro t e he
        by_cases hta : t = a
        · subst hta
          exact ⟨_, hrest.get_of_get (IndexMap.get_insert_self _ _ _)⟩
        · refine ⟨e, hrest.get_of_get ?_⟩
          rw [IndexMap.get_insert, if_neg hta, he]
      by_cases hba : b = a
      · subst hba
        obtain ⟨e', he'⟩ := hin.noted ht
        exact hkeep he'
      · cases hmid : m₁.get b with
        | some e' =>
            have hbefore : (m.insert a 0).get b = none := by
              rw [IndexMap.get_insert, if_neg hba, hnew]
            obtain ⟨e'', he''⟩ := ih₁ hbefore hmid
            exact hkeep he''
        | none =>
            refine ih₂ ?_ hb
            rw [IndexMap.get_insert, if_neg hba, hmid]

def Edge (targets : α → List α) (a b : α) : Prop := b ∈ targets a

theorem Visits.append {bs : List α} (h : Visits targets (as ++ bs) m n m') :
    ∃ n₁ m₁ n₂, Visits targets as m n₁ m₁ ∧ Visits targets bs m₁ n₂ m' := by
  induction as generalizing m n with
  | nil => exact ⟨0, m, n, .nil, h⟩
  | cons a as ih =>
      rw [List.cons_append] at h
      cases h with
      | cached hget hrest =>
          obtain ⟨n₁, m₁, n₂, h₁, h₂⟩ := ih hrest
          exact ⟨_, m₁, n₂, .cached hget h₁, h₂⟩
      | fresh hnew hin hd hrest =>
          obtain ⟨n₁, m₁, n₂, h₁, h₂⟩ := ih hrest
          exact ⟨_, m₁, n₂, .fresh hnew hin hd h₁, h₂⟩

theorem Visits.trans {bs : List α} {m₁ : Memo α} {n' : ℕ} (h : Visits targets as m n m₁)
    (h' : Visits targets bs m₁ n' m') : Visits targets (as ++ bs) m (max n n') m' := by
  induction h with
  | nil =>
      rw [List.nil_append, Nat.zero_max]
      exact h'
  | cached hget _ ih =>
      rw [List.cons_append, Nat.max_assoc]
      exact .cached hget (ih h')
  | fresh hnew hin hd _ _ ih =>
      rw [List.cons_append, Nat.max_assoc]
      exact .fresh hnew hin hd (ih h')

end Visits

/-! ## §5  The depth by the way -/

/-- The depth that a node shows to a visit with the nodes `s` in progress. -/
def along (m : Memo α) (s : List α) (t : α) : ℕ := if t ∈ s then 0 else (m.get t).getD 0

/-- The depth of `a` if `s` is in progress in its visit. -/
def depthVia (targets : α → List α) (m : Memo α) (s : List α) (a : α) : ℕ :=
  level (targets a) (peak (along m s) (targets a))

section Via

variable {targets : α → List α} {as s : List α} {m m' : Memo α} {n : ℕ} {a b t : α} {d : ℕ}

theorem depthVia_congr (h : ∀ t ∈ targets b, t ∉ s → m.get t = m'.get t) :
    depthVia targets m s b = depthVia targets m' s b := by
  rw [depthVia, depthVia]
  apply congrArg
  apply peak_congr fun _ => Iff.rfl
  intro t ht
  rw [along, along]
  split
  · rfl
  · next hs => rw [h t ht hs]

/-- A target that is not in progress is less deep. -/
theorem lt_depthVia (ht : t ∈ targets a) (hs : t ∉ s) :
    (m.get t).getD 0 < depthVia targets m s a := by
  have hle : along m s t ≤ peak (along m s) (targets a) := le_peak ht
  rw [along, if_neg hs] at hle
  rw [depthVia, level, if_neg]
  · exact Nat.lt_succ_of_le hle
  · rw [List.isEmpty_iff]
    exact List.ne_nil_of_mem ht

/-- The largest depth that a walk yields. -/
theorem Visits.eq_peak (h : Visits targets as m n m') (hs : ∀ t ∈ s, m.get t = some 0) :
    n = peak (along m' s) as := by
  induction h with
  | nil => rfl
  | @cached a as m d n m' hget hrest ih =>
      rw [ih hs]
      refine congrArg (fun e => max e (peak (along m' s) as)) ?_
      rw [along]
      split
      · next ha =>
          rw [hs a ha] at hget
          exact (Option.some.inj hget).symm
      · rw [hrest.get_of_get hget, Option.getD_some]
  | @fresh a as m n m₁ d n' m' hnew hin _ hrest _ ih₂ =>
      have ha : a ∉ s := by
        intro ha
        rw [hs a ha] at hnew
        cases hnew
      have hs' : ∀ t ∈ s, (m₁.insert a d).get t = some 0 := by
        intro t ht
        have hta : t ≠ a := fun h => ha (h ▸ ht)
        rw [IndexMap.get_insert, if_neg hta]
        apply hin.get_of_get
        rw [IndexMap.get_insert, if_neg hta, hs t ht]
      rw [ih₂ hs']
      refine congrArg (fun e => max e (peak (along m' s) as)) ?_
      rw [along, if_neg ha, hrest.get_of_get (IndexMap.get_insert_self _ _ _), Option.getD_some]

/-- What has been visited below `a` is settled. -/
theorem Visits.settle {bs : List α} {m₁ : Memo α} {n' : ℕ}
    (hin : Visits targets as (m.insert a 0) n m₁)
    (hrest : Visits targets bs (m₁.insert a d) n' m') (hba : b ≠ a) (hnew : m.get b = none)
    (ha : a ∈ s) (hb : m₁.get b = some (depthVia targets m₁ s b)) :
    m'.get b = some (depthVia targets m' s b) := by
  have hkeep : ∀ {t e}, t ≠ a → m₁.get t = some e → m'.get t = some e := by
    intro t e hta he
    apply hrest.get_of_get
    rw [IndexMap.get_insert, if_neg hta, he]
  have hbefore : (m.insert a 0).get b = none := by
    rw [IndexMap.get_insert, if_neg hba, hnew]
  rw [hkeep hba hb]
  congr 1
  apply depthVia_congr
  intro t ht hts
  obtain ⟨e, he⟩ := hin.closed hbefore hb ht
  have hta : t ≠ a := fun h => hts (h ▸ ha)
  rw [he, hkeep hta he]

/-- The depth of a node that a walk visits next. -/
theorem Visits.get_fresh (h : Visits targets (a :: as) m n m') (ha : m.get a = none)
    (hs : ∀ t ∈ s, m.get t = some 0) :
    m'.get a = some (depthVia targets m' (a :: s) a) := by
  cases h with
  | cached hget =>
      rw [ha] at hget
      cases hget
  | @fresh _ _ _ n m₁ d _ _ _ hin hd hrest =>
      have hs' : ∀ t ∈ a :: s, (m.insert a 0).get t = some 0 := by
        intro t ht
        rw [IndexMap.get_insert]
        split
        · rfl
        · next hta => exact hs t ((List.mem_cons.mp ht).resolve_left hta)
      rw [hrest.get_of_get (IndexMap.get_insert_self _ _ _), hd, hin.eq_peak hs']
      congr 1
      -- what the targets are by then they are at the end
      apply depthVia_congr
      intro t ht hta
      obtain ⟨e, he⟩ := hin.noted ht
      have hne : t ≠ a := fun h => hta (h ▸ List.mem_cons_self)
      rw [he, hrest.get_of_get (d := e)]
      rw [IndexMap.get_insert, if_neg hne, he]

/-- **What a walk visits it has come to on a way that meets no node twice, and the depth is the one
by this way.** -/
theorem Visits.exists_way (h : Visits targets as m n m') (hs : ∀ t ∈ s, m.get t = some 0)
    (hnodup : s.Nodup) (hnew : m.get b = none) (hb : m'.get b = some d) :
    ∃ r ∈ as, ∃ p, Way (Edge targets) r b p ∧ (p ++ s).Nodup ∧
      m'.get b = some (depthVia targets m' (p ++ s) b) := by
  induction h generalizing s d with
  | nil =>
      rw [hnew] at hb
      cases hb
  | cached _ _ ih =>
      obtain ⟨r, hr, hway⟩ := ih hs hnodup hnew hb
      exact ⟨r, List.mem_cons_of_mem _ hr, hway⟩
  | @fresh a as m n m₁ e n' m' ha hin hd hrest ih₁ ih₂ =>
      have hmem : a ∉ s := by
        intro hmem
        rw [hs a hmem] at ha
        cases ha
      by_cases hba : b = a
      · subst hba
        refine ⟨b, List.mem_cons_self, [b], ⟨List.isChain_singleton b, rfl, rfl,
          List.nodup_singleton b⟩, List.nodup_cons.mpr ⟨hmem, hnodup⟩, ?_⟩
        exact (Visits.fresh ha hin hd hrest).get_fresh hnew hs
      · cases hmid : m₁.get b with
        | some e' =>
            -- visited below `a`
            have hs' : ∀ t ∈ a :: s, (m.insert a 0).get t = some 0 := by
              intro t ht
              rw [IndexMap.get_insert]
              split
              · rfl
              · next hta => exact hs t ((List.mem_cons.mp ht).resolve_left hta)
            have hbefore : (m.insert a 0).get b = none := by
              rw [IndexMap.get_insert, if_neg hba, hnew]
            obtain ⟨r, hr, p, hway, hp, hvalue⟩ :=
              ih₁ hs' (List.nodup_cons.mpr ⟨hmem, hnodup⟩) hbefore hmid
            have happ : (p ++ [a]) ++ s = p ++ a :: s := by simp
            refine ⟨a, List.mem_cons_self, p ++ [a], ⟨?_, ?_, ?_, ?_⟩, ?_, ?_⟩
            · apply hway.chain.append (List.isChain_singleton a)
              intro x hx y hy
              obtain rfl : r = x := Option.some.inj (hway.last.symm.trans hx)
              obtain rfl : a = y := Option.some.inj hy
              exact hr
            · rw [List.head?_append, hway.first]
              rfl
            · exact List.getLast?_concat
            · exact (happ ▸ hp).of_append_left
            · rw [happ]
              exact hp
            · rw [happ]
              exact hin.settle hrest hba hnew (List.mem_append_right _ List.mem_cons_self) hvalue
        | none =>
            have hs' : ∀ t ∈ s, (m₁.insert a e).get t = some 0 := by
              intro t ht
              have hta : t ≠ a := fun h => hmem (h ▸ ht)
              rw [IndexMap.get_insert, if_neg hta]
              apply hin.get_of_get
              rw [IndexMap.get_insert, if_neg hta, hs t ht]
            have hnew' : (m₁.insert a e).get b = none := by
              rw [IndexMap.get_insert, if_neg hba, hmid]
            obtain ⟨r, hr, hway⟩ := ih₂ hs' hnodup hnew' hb
            exact ⟨r, List.mem_cons_of_mem _ hr, hway⟩

end Via

/-! ## §6  The first root -/

section Roots

variable {targets : α → List α} {roots : List α} {m : Memo α} {n : ℕ} {r b : α} {p : List α}

/-- Where the first root that leads to `b` is visited, nothing that leads to `b` has been. -/
theorem Visits.before_firstRoot (h : Visits targets roots IndexMap.empty n m)
    (hr : FirstRoot (Edge targets) roots r b) :
    ∃ pre post n₁ m₁ n₂, Visits targets pre IndexMap.empty n₁ m₁ ∧
      Visits targets (r :: post) m₁ n₂ m ∧
      ∀ y, Relation.ReflTransGen (Edge targets) y b → m₁.get y = none := by
  obtain ⟨pre, post, rfl, hpre, -⟩ := hr
  obtain ⟨n₁, m₁, n₂, hbefore, hfrom⟩ := h.append
  refine ⟨pre, post, n₁, m₁, n₂, hbefore, hfrom, fun y hyb => ?_⟩
  by_contra hy
  obtain ⟨d, hd⟩ := Option.ne_none_iff_exists'.mp hy
  obtain ⟨a, ha, p, hway, -⟩ :=
    hbefore.exists_way (List.forall_mem_nil _) List.nodup_nil (IndexMap.get_empty _) hd
  exact hpre a ha ((hway.leads_to hway.mem_last).trans hyb)

/-- A node is as deep as a way from the first root that leads to it makes it. -/
theorem Visits.way_of_firstRoot (h : Visits targets roots IndexMap.empty n m)
    (hr : FirstRoot (Edge targets) roots r b) :
    ∃ p, Way (Edge targets) r b p ∧ m.get b = some (depthVia targets m p b) := by
  obtain ⟨pre, post, n₁, m₁, n₂, hbefore, hfrom, hnew⟩ := h.before_firstRoot hr
  obtain ⟨-, -, -, -, hrb⟩ := hr
  have hsplit : Visits targets ([r] ++ post) m₁ n₂ m := hfrom
  obtain ⟨n₃, m₂, n₄, hroot, hafter⟩ := hsplit.append
  -- all targets of what has been noted by the end of this root are noted
  have hclosed : ∀ {y d}, m₂.get y = some d → ∀ t ∈ targets y, ∃ e, m₂.get t = some e := by
    intro y d hy t ht
    cases hbef : m₁.get y with
    | none => exact hroot.closed hbef hy ht
    | some e =>
        obtain ⟨e', he'⟩ := hbefore.closed (IndexMap.get_empty _) hbef ht
        exact ⟨e', hroot.get_of_get he'⟩
  have hb : ∃ d, m₂.get b = some d := by
    induction hrb with
    | refl => exact hroot.noted (List.mem_singleton.mpr rfl)
    | tail _ ht ih =>
        obtain ⟨d, hd⟩ := ih fun y hy => hnew y (hy.tail ht)
        exact hclosed hd _ ht
  obtain ⟨d, hd⟩ := hb
  obtain ⟨a, ha, p, hway, -, hvalue⟩ :=
    hroot.exists_way (List.forall_mem_nil _) List.nodup_nil (hnew b .refl) hd
  obtain rfl := List.mem_singleton.mp ha
  rw [List.append_nil] at hvalue
  refine ⟨p, hway, ?_⟩
  rw [hafter.get_of_get hvalue]
  congr 1
  apply depthVia_congr
  intro t ht _
  obtain ⟨e, he⟩ := hclosed hvalue t ht
  rw [he, hafter.get_of_get he]

end Roots

/-! ## §7  When two walks agree -/

section Agree

variable {targets targets' : α → List α} {roots : List α} {m m' : Memo α} {n n' : ℕ} {b : α}

/-- The ways from the first root to a node all pass a target of the node, or none does. -/
def Rigid (R : α → α → Prop) (roots : List α) : Prop :=
  ∀ r b t, FirstRoot R roots r b → R b t → ∀ p q, Way R r b p → Way R r b q → t ∈ p → t ∈ q

/-- **Walks that differ in the order of the targets give the same depths if the graph is rigid.** -/
theorem Visits.get_eq_of_rigid (hmem : ∀ a t, t ∈ targets a ↔ t ∈ targets' a)
    (hrigid : Rigid (Edge targets) roots) (h : Visits targets roots IndexMap.empty n m)
    (h' : Visits targets' roots IndexMap.empty n' m') (b : α) : m.get b = m'.get b := by
  have hedge : Edge targets' = Edge targets := by
    ext a t
    exact (hmem a t).symm
  by_cases hroot : ∃ a ∈ roots, Relation.ReflTransGen (Edge targets) a b
  · obtain ⟨a, ha, hab⟩ := hroot
    -- by induction on the depth, as targets that are not on the way are less deep
    induction hd : (m.get b).getD 0 using Nat.strong_induction_on generalizing b with
    | h d ih =>
        subst hd
        obtain ⟨r, hr⟩ := exists_firstRoot ha hab
        obtain ⟨p, hp, hvalue⟩ := h.way_of_firstRoot hr
        obtain ⟨q, hq, hvalue'⟩ := h'.way_of_firstRoot (hedge ▸ hr)
        rw [hedge] at hq
        rw [hvalue, hvalue', depthVia, depthVia]
        have hpeak : peak (along m p) (targets b) = peak (along m' q) (targets' b) := by
          apply peak_congr (hmem b)
          intro t ht
          have hpq : t ∈ p ↔ t ∈ q := ⟨hrigid r b t hr ht p q hp hq, hrigid r b t hr ht q p hq hp⟩
          rw [along, along]
          by_cases htp : t ∈ p
          · rw [if_pos htp, if_pos (hpq.mp htp)]
          · rw [if_neg htp, if_neg (mt hpq.mpr htp)]
            have hlt : (m.get t).getD 0 < (m.get b).getD 0 := by
              rw [hvalue, Option.getD_some]
              exact lt_depthVia ht htp
            rw [ih _ hlt t (hab.tail ht) rfl]
        have hempty : (targets b).isEmpty = (targets' b).isEmpty := by
          rw [Bool.eq_iff_iff, List.isEmpty_iff, List.isEmpty_iff, List.eq_nil_iff_forall_not_mem,
            List.eq_nil_iff_forall_not_mem]
          exact forall_congr' fun t => not_congr (hmem b t)
        rw [hpeak, level, level, hempty]
  · -- neither walk comes to it
    have hnone : ∀ {targets : α → List α} {n : ℕ} {m : Memo α},
        Visits targets roots IndexMap.empty n m →
        (¬ ∃ a ∈ roots, Relation.ReflTransGen (Edge targets) a b) → m.get b = none := by
      intro targets n m h hroot
      by_contra hb
      obtain ⟨d, hd⟩ := Option.ne_none_iff_exists'.mp hb
      obtain ⟨a, ha, p, hway, -⟩ :=
        h.exists_way (List.forall_mem_nil _) List.nodup_nil (IndexMap.get_empty _) hd
      exact hroot ⟨a, ha, hway.leads_to hway.mem_last⟩
    rw [hnone h hroot, hnone h' (hedge ▸ hroot)]

end Agree

/-! ## §8  Walks that follow a way -/

section Follow

variable {targets : α → List α} {roots : List α} {as s xs ys zs p q : List α} {m m' : Memo α}
  {n : ℕ} {r x y a b t : α}

/-- A walk that tries the next node of a way first comes to each of its nodes on this way. -/
theorem Visits.follow (h : Visits targets (x :: as) m n m') (hs : ∀ t ∈ s, m.get t = some 0)
    (hchain : (x :: xs).IsChain fun a b => ∃ ts, targets a = b :: ts)
    (hnew : ∀ y ∈ x :: xs, m.get y = none) (hnodup : (x :: xs).Nodup)
    (hy : x :: xs = ys ++ y :: zs) :
    m'.get y = some (depthVia targets m' (y :: (ys.reverse ++ s)) y) := by
  induction xs generalizing x as m n m' s ys with
  | nil =>
      obtain rfl | ⟨ys, rfl⟩ : ys = [] ∨ ∃ ys', ys = x :: ys' := by
        cases ys with
        | nil => exact Or.inl rfl
        | cons c ys => exact Or.inr ⟨ys, by rw [(List.cons.inj hy).1]⟩
      · obtain rfl := (List.cons.inj hy).1
        exact h.get_fresh (hnew x List.mem_cons_self) hs
      · have hnil := (List.cons.inj hy).2
        simp at hnil
  | cons x₁ xs ih =>
      rcases ys with _ | ⟨c, ys⟩
      · obtain rfl := (List.cons.inj hy).1
        exact h.get_fresh (hnew x List.mem_cons_self) hs
      · obtain ⟨hc, hrest'⟩ := List.cons.inj hy
        subst hc
        obtain ⟨⟨ts, hts⟩, hchain⟩ := List.isChain_cons_cons.mp hchain
        obtain ⟨hx, hnodup⟩ := List.nodup_cons.mp hnodup
        have hmemy : y ∈ x₁ :: xs := hrest' ▸ List.mem_append_right _ List.mem_cons_self
        cases h with
        | cached hget =>
            rw [hnew x List.mem_cons_self] at hget
            cases hget
        | @fresh _ _ _ _ m₁ d _ _ _ hin _ hrest =>
            have hs' : ∀ t ∈ x :: s, (m.insert x 0).get t = some 0 := by
              intro t ht
              rw [IndexMap.get_insert]
              split
              · rfl
              · next htx => exact hs t ((List.mem_cons.mp ht).resolve_left htx)
            have hnew' : ∀ z ∈ x₁ :: xs, (m.insert x 0).get z = none := by
              intro z hz
              have hzx : z ≠ x := fun h => hx (h ▸ hz)
              rw [IndexMap.get_insert, if_neg hzx, hnew z (List.mem_cons_of_mem _ hz)]
            rw [hts] at hin
            have hstep := ih hin hs' hchain hnew' hnodup hrest'
            have hstack : y :: ((x :: ys).reverse ++ s) = y :: (ys.reverse ++ x :: s) := by simp
            rw [hstack]
            have hyx : y ≠ x := fun h => hx (h ▸ hmemy)
            exact hin.settle hrest hyx (hnew y (List.mem_cons_of_mem _ hmemy))
              (List.mem_cons_of_mem _ (List.mem_append_right _ List.mem_cons_self)) hstep

/-- A walk that prefers a way from the first root makes each node of it as deep as the way says. -/
theorem Visits.follow_way (h : Visits targets roots IndexMap.empty n m)
    (hr : FirstRoot (Edge targets) roots r b) (hp : Way (Edge targets) r b p)
    (hprefer : p.reverse.IsChain fun a b => ∃ ts, targets a = b :: ts)
    (hy : p.reverse = ys ++ y :: zs) :
    m.get y = some (depthVia targets m (y :: ys.reverse) y) := by
  obtain ⟨pre, post, n₁, m₁, n₂, -, hfrom, hnew⟩ := h.before_firstRoot hr
  obtain ⟨xs, hxs⟩ : ∃ xs, p.reverse = r :: xs := by
    have hhead : p.reverse.head? = some r := List.head?_reverse.trans hp.last
    exact List.head?_eq_some_iff.mp hhead
  rw [hxs] at hprefer hy
  have hmem : ∀ z ∈ r :: xs, m₁.get z = none := by
    intro z hz
    rw [← hxs, List.mem_reverse] at hz
    exact hnew z (hp.leads_to hz)
  have hnodup : (r :: xs).Nodup := hxs ▸ List.nodup_reverse.mpr hp.nodup
  have hfollow := hfrom.follow (List.forall_mem_nil _) hprefer hmem hnodup hy
  rw [List.append_nil] at hfollow
  exact hfollow

/-- Along such a way the depths fall. -/
theorem Visits.depth_le_of_follow (h : Visits targets roots IndexMap.empty n m)
    (hr : FirstRoot (Edge targets) roots r b) (hp : Way (Edge targets) r b p)
    (hprefer : p.reverse.IsChain fun a b => ∃ ts, targets a = b :: ts)
    (ht : p.reverse = ys ++ t :: zs) : (m.get b).getD 0 ≤ (m.get t).getD 0 := by
  induction zs generalizing ys t with
  | nil =>
      have hlast : p.reverse.getLast? = some b := List.getLast?_reverse.trans hp.first
      rw [ht, List.getLast?_concat] at hlast
      rw [Option.some.inj hlast]
  | cons z zs ih =>
      have hsplit : p.reverse = (ys ++ [t]) ++ z :: zs := by rw [ht]; simp
      apply Nat.le_trans (ih hsplit)
      have hnodup : (ys ++ t :: z :: zs).Nodup := ht ▸ List.nodup_reverse.mpr hp.nodup
      have hz : z ∉ t :: ys.reverse := by
        intro hz
        have hdisj := (List.nodup_append.mp hnodup).2.2
        rcases List.mem_cons.mp hz with rfl | hz
        · exact (List.nodup_cons.mp (List.nodup_append.mp hnodup).2.1).1 List.mem_cons_self
        · exact hdisj z (List.mem_reverse.mp hz) z
            (List.mem_cons_of_mem _ List.mem_cons_self) rfl
      have hedge : z ∈ targets t := by
        rw [ht] at hprefer
        obtain ⟨ts, hts⟩ := (List.isChain_cons_cons.mp hprefer.right_of_append).1
        rw [hts]
        exact List.mem_cons_self
      rw [h.follow_way hr hp hprefer ht, Option.getD_some]
      exact Nat.le_of_lt (lt_depthVia hedge hz)

/-- Orders that put the next node of a way first. -/
theorem exists_preferring : ∀ {xs : List α}, xs.Nodup → ∃ o : α → HashOrder α,
    xs.IsChain fun a b => ∀ l, b ∈ l → ∃ ts, (o a).visit l = b :: ts
  | [], _ => ⟨fun _ => HashOrder.insertion, List.isChain_nil⟩
  | [x], _ => ⟨fun _ => HashOrder.insertion, List.isChain_singleton x⟩
  | x :: y :: xs, h => by
      obtain ⟨hx, hnodup⟩ := List.nodup_cons.mp h
      obtain ⟨o, ho⟩ := exists_preferring hnodup
      refine ⟨fun a => if a = x then HashOrder.preferring y else o a, ?_⟩
      rw [List.isChain_cons_cons]
      refine ⟨fun l hl => ?_, ?_⟩
      · beta_reduce
        rw [if_pos rfl]
        exact HashOrder.visit_preferring hl
      · apply ho.imp_of_mem_imp
        intro a b ha _ hab l hl
        have hax : a ≠ x := fun h => hx (h ▸ ha)
        beta_reduce
        rw [if_neg hax]
        exact hab l hl

/-- **Where the graph is not rigid, two orders of the targets give different depths.** -/
theorem exists_disagreement {base : α → List α} (hrigid : ¬ Rigid (Edge base) roots) :
    ∃ o o' : α → HashOrder α, ∀ {n n' m m'},
      Visits (fun a => (o a).visit (base a)) roots IndexMap.empty n m →
      Visits (fun a => (o' a).visit (base a)) roots IndexMap.empty n' m' →
      ∃ b, base b ≠ [] ∧ m.get b ≠ m'.get b := by
  simp only [Rigid, not_forall] at hrigid
  obtain ⟨r, b, t, hr, hbt, p, q, hp, hq, htp, htq⟩ := hrigid
  -- one walk comes to `b` through `t`, the other past it
  obtain ⟨o, ho⟩ := exists_preferring (List.nodup_reverse.mpr hp.nodup)
  obtain ⟨o', ho'⟩ := exists_preferring (List.nodup_reverse.mpr hq.nodup)
  have hedge : ∀ o : α → HashOrder α, Edge (fun a => (o a).visit (base a)) = Edge base := by
    intro o
    ext a c
    exact (o a).mem_visit
  have hprefer : ∀ {o : α → HashOrder α} {p : List α}, Way (Edge base) r b p →
      (p.reverse.IsChain fun a b => ∀ l, b ∈ l → ∃ ts, (o a).visit l = b :: ts) →
      p.reverse.IsChain fun a c => ∃ ts, (o a).visit (base a) = c :: ts := by
    intro o p hp ho
    have hchain : p.reverse.IsChain (Edge base) := List.isChain_reverse.mpr hp.chain
    apply List.isChain_iff_forall_rel_of_append_cons_cons.mpr
    intro a c xs ys hxs
    have hac : c ∈ base a := List.isChain_iff_forall_rel_of_append_cons_cons.mp hchain hxs
    exact List.isChain_iff_forall_rel_of_append_cons_cons.mp ho hxs (base a) hac
  refine ⟨o, o', fun {n n' m m'} h h' => ?_⟩
  obtain ⟨ys, zs, hsplit⟩ := List.append_of_mem (List.mem_reverse.mpr htp)
  have hle : (m.get b).getD 0 ≤ (m.get t).getD 0 :=
    h.depth_le_of_follow ((hedge o).symm ▸ hr) ((hedge o).symm ▸ hp) (hprefer hp ho) hsplit
  have hlt : (m'.get t).getD 0 < (m'.get b).getD 0 := by
    obtain ⟨c, q', rfl⟩ := List.exists_cons_of_ne_nil (List.ne_nil_of_mem hq.mem_first)
    obtain rfl : c = b := Option.some.inj hq.first
    rw [h'.follow_way ((hedge o').symm ▸ hr) ((hedge o').symm ▸ hq) (hprefer hq ho')
      List.reverse_cons, Option.getD_some, List.reverse_reverse]
    exact lt_depthVia ((o' c).mem_visit.mpr hbt) htq
  by_contra hagree
  simp only [not_exists, not_and, not_not] at hagree
  have hbb : m.get b = m'.get b := hagree b (List.ne_nil_of_mem hbt)
  have htt : m.get t = m'.get t := by
    apply hagree
    -- `t` stands on the way before its end
    have hchain : p.reverse.IsChain (Edge base) := List.isChain_reverse.mpr hp.chain
    rcases zs with _ | ⟨z, zs⟩
    · have hlast : p.reverse.getLast? = some b := List.getLast?_reverse.trans hp.first
      rw [hsplit, List.getLast?_concat] at hlast
      exact absurd (Option.some.inj hlast ▸ hq.mem_first) htq
    · have htz : z ∈ base t := List.isChain_iff_forall_rel_of_append_cons_cons.mp hchain hsplit
      exact List.ne_nil_of_mem htz
  rw [hbb, htt] at hle
  exact Nat.not_le_of_lt hlt hle

end Follow

end SpecForge.Lib.Depth
