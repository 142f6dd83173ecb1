import Mathlib.Data.List.Basic
import Mathlib.Data.Nat.Count
import Mathlib.Data.Nat.Find

/-!
# Loops that try again

A loop makes one pass after the other, at most a number of times. A pass sends something
and either ends the loop with a result or has another pass made, or it ends the loop before
it sends anything. The run of a loop is what its passes sent and the result; both are read
off the passes that are reached (§1), and of these all but the last had another pass
made (§2). Loops over different passes take the same course if the passes that all of them
reach come to the same (§3).
-/

namespace SpecForge.Lib.Attempts

universe u v

/-- What one pass comes to. -/
inductive Pass (ε : Type u) (β : Type v) where
  | refused (result : β)
  | final (sent : ε) (result : β)
  | again (sent : ε)

namespace Pass

variable {ε : Type u} {β : Type v}

def sent : Pass ε β → Option ε
  | .refused _ => none
  | .final e _ => some e
  | .again e => some e

def result : Pass ε β → Option β
  | .refused b => some b
  | .final _ b => some b
  | .again _ => none

end Pass

section Loop

variable {ε : Type u} {β : Type v} (pass : ℕ → Pass ε β) (exhausted : β)

/-- The passes from the one with the index `i`, at most so many. -/
def run : ℕ → ℕ → List ε × β
  | 0, _ => ([], exhausted)
  | n + 1, i =>
      match pass i with
      | .refused b => ([], b)
      | .final e b => ([e], b)
      | .again e =>
          let (sent, b) := run n (i + 1)
          (e :: sent, b)

/-! ## §1  Passes that are reached -/

/-- The passes before the one with the index `i` all had another one made. -/
def Reached (i : ℕ) : Prop := ∀ j < i, (pass j).result = none

variable {pass exhausted}

theorem Reached.mono {i j : ℕ} (h : Reached pass i) (hj : j ≤ i) : Reached pass j :=
  fun m hm => h m (Nat.lt_of_lt_of_le hm hj)

theorem Reached.succ {i : ℕ} (h : Reached pass i) (hi : (pass i).result = none) :
    Reached pass (i + 1) := by
  intro j hj
  rcases Nat.lt_succ_iff_lt_or_eq.mp hj with hlt | rfl
  · exact h j hlt
  · exact hi

/-- Two passes that end the loop cannot both be reached. -/
theorem Reached.unique {i j : ℕ} (hi : Reached pass i) (hj : Reached pass j)
    (hri : (pass i).result ≠ none) (hrj : (pass j).result ≠ none) : i = j := by
  rcases Nat.lt_trichotomy i j with hlt | heq | hlt
  · exact absurd (hj i hlt) hri
  · exact heq
  · exact absurd (hi j hlt) hrj

/-- If one pass would end the loop, one that ends it is reached. -/
theorem exists_reached_of_result {n : ℕ} (h : (pass n).result ≠ none) :
    ∃ k ≤ n, Reached pass k ∧ (pass k).result ≠ none := by
  have hlast : ∃ n, (pass n).result ≠ none := ⟨n, h⟩
  refine ⟨Nat.find hlast, Nat.find_min' hlast h, ?_, Nat.find_spec hlast⟩
  exact fun j hj => not_not.mp (Nat.find_min hlast hj)

/-- Up to a pass that ends the loop, all passes are reached, and no others. -/
theorem reached_iff_le {k : ℕ} (hk : Reached pass k) (hends : (pass k).result ≠ none) {j : ℕ} :
    Reached pass j ↔ j ≤ k := by
  refine ⟨fun hj => ?_, hk.mono⟩
  by_contra hlt
  exact hends (hj k (Nat.lt_of_not_le hlt))

/-! ## §2  Runs -/

/-- What a run from a reached pass sends, pass by pass. -/
theorem getElem?_run : ∀ {n i : ℕ}, Reached pass i → ∀ (j : ℕ) (e : ε),
    (run pass exhausted n i).1[j]? = some e ↔
      j < n ∧ Reached pass (i + j) ∧ (pass (i + j)).sent = some e
  | 0, i, _, j, e => by simp [run]
  | n + 1, i, hi, j, e => by
      have hlast : ∀ b, (pass i).result = some b → ∀ j',
          Reached pass (i + (j' + 1)) → False := by
        intro b hb j' hreached
        rw [hreached i (by omega)] at hb
        cases hb
      rcases hpass : pass i with b | ⟨e', b⟩ | e'
      · rw [run, hpass]
        rcases j with _ | j
        · simp [hpass, Pass.sent]
        · refine iff_of_false (by simp) fun h => ?_
          exact hlast b (by rw [hpass, Pass.result]) j h.2.1
      · rw [run, hpass]
        rcases j with _ | j
        · simpa [hpass, Pass.sent] using fun _ => hi
        · refine iff_of_false (by simp) fun h => ?_
          exact hlast b (by rw [hpass, Pass.result]) j h.2.1
      · rw [run, hpass]
        rcases j with _ | j
        · simpa [hpass, Pass.sent] using fun _ => hi
        · have ih := getElem?_run (n := n) (i := i + 1)
            (hi.succ (by rw [hpass, Pass.result])) j e
          have hshift : i + (j + 1) = i + 1 + j := by omega
          rw [hshift]
          exact ih.trans (and_congr_left fun _ => by omega)

/-- The result of a run is that of the one pass that ends it, if any is made. -/
theorem run_snd_eq_iff : ∀ {n i : ℕ}, Reached pass i → ∀ b : β,
    (run pass exhausted n i).2 = b ↔
      (∃ j < n, Reached pass (i + j) ∧ (pass (i + j)).result = some b) ∨
      Reached pass (i + n) ∧ b = exhausted
  | 0, i, hi, b => by
      simpa [run, hi] using eq_comm
  | n + 1, i, hi, b => by
      have hend : ∀ b', (pass i).result = some b' →
          (b' = b ↔ (∃ j < n + 1, Reached pass (i + j) ∧ (pass (i + j)).result = some b) ∨
            Reached pass (i + (n + 1)) ∧ b = exhausted) := by
        intro b' hb'
        constructor
        · rintro rfl
          exact Or.inl ⟨0, by omega, hi, hb'⟩
        · rintro (⟨j, -, hreached, hres⟩ | ⟨hreached, -⟩)
          · have hj : i = i + j := hi.unique hreached (by simp [hb']) (by simp [hres])
            rw [← hj, hb'] at hres
            exact Option.some.inj hres
          · rw [hreached i (by omega)] at hb'
            cases hb'
      rcases hpass : pass i with b' | ⟨e', b'⟩ | e'
      · rw [run, hpass]
        exact hend b' (by rw [hpass, Pass.result])
      · rw [run, hpass]
        exact hend b' (by rw [hpass, Pass.result])
      · have hres : (pass i).result = none := by rw [hpass, Pass.result]
        have ih := run_snd_eq_iff (n := n) (i := i + 1) (hi.succ hres) b
        rw [run, hpass]
        refine ih.trans (or_congr ?_ ?_)
        · constructor
          · rintro ⟨j, hj, hreached, hb⟩
            have hshift : i + 1 + j = i + (j + 1) := by omega
            rw [hshift] at hreached hb
            exact ⟨j + 1, by omega, hreached, hb⟩
          · rintro ⟨j, hj, hreached, hb⟩
            rcases j with _ | j
            · rw [Nat.add_zero, hres] at hb
              cases hb
            · have hshift : i + (j + 1) = i + 1 + j := by omega
              rw [hshift] at hreached hb
              exact ⟨j, by omega, hreached, hb⟩
        · have hshift : i + 1 + n = i + (n + 1) := by omega
          rw [hshift]

/-- A run up to the pass that ends it. -/
theorem run_eq_of_result {b : β} : ∀ {n i k : ℕ}, k < n →
    (∀ j < k, (pass (i + j)).result = none) → (pass (i + k)).result = some b →
    run pass exhausted n i = ((List.range (k + 1)).filterMap fun j => (pass (i + j)).sent, b)
  | n + 1, i, 0, _, _, hres => by
      rcases hpass : pass i with b' | ⟨e, b'⟩ | e
      · rw [Nat.add_zero, hpass] at hres
        simpa [run, hpass, Pass.sent] using Option.some.inj hres
      · rw [Nat.add_zero, hpass] at hres
        simpa [run, hpass, Pass.sent] using Option.some.inj hres
      · rw [Nat.add_zero, hpass] at hres
        cases hres
  | n + 1, i, k + 1, hk, hnone, hres => by
      have hfirst := hnone 0 (Nat.succ_pos k)
      rw [Nat.add_zero] at hfirst
      have hshift : ∀ j, i + (j + 1) = i + 1 + j := fun j => by omega
      rcases hpass : pass i with b' | ⟨e, b'⟩ | e
      · rw [hpass] at hfirst
        cases hfirst
      · rw [hpass] at hfirst
        cases hfirst
      · have ih := run_eq_of_result (n := n) (i := i + 1) (k := k) (by omega)
          (fun j hj => by rw [← hshift]; exact hnone (j + 1) (by omega))
          (by rw [← hshift]; exact hres)
        rw [run, hpass]
        dsimp only
        have hrest : (fun j => (pass (i + j)).sent) ∘ Nat.succ =
            fun j => (pass (i + 1 + j)).sent := by
          funext j
          exact congrArg (fun m => (pass m).sent) (hshift j)
        have hhead : (pass (i + 0)).sent = some e := by
          rw [Nat.add_zero, hpass]
          rfl
        rw [ih, List.range_succ_eq_map (n := k + 1), List.filterMap_cons, List.filterMap_map,
          hrest, hhead]

/-- What the passes of a run send together has a property as often as there are passes that send
something with it, if none sends it twice. -/
theorem countP_flatten_filterMap {α : Type*} {sent : ℕ → Option (List α)} {p : α → Bool}
    {q : ℕ → Prop} [DecidablePred q]
    (h : ∀ j, ∃ l, sent j = some l ∧ l.countP p = if q j then 1 else 0) (n : ℕ) :
    ((List.range n).filterMap sent).flatten.countP p = Nat.count q n := by
  induction n with
  | zero => rfl
  | succ n ih =>
      obtain ⟨l, hl, hcount⟩ := h n
      rw [List.range_succ, List.filterMap_append, List.flatten_append, List.countP_append, ih,
        Nat.count_succ, List.filterMap_cons_some hl]
      simp [hcount]

theorem run_succ_of_result {n i : ℕ} {e : ε} {b : β} (hsent : (pass i).sent = some e)
    (hres : (pass i).result = some b) : run pass exhausted (n + 1) i = ([e], b) := by
  have h : run pass exhausted (n + 1) i = _ := run_eq_of_result (Nat.succ_pos n)
    (fun j hj => absurd hj (Nat.not_lt_zero j)) hres
  simpa [hsent] using h

theorem run_succ_of_again {n i : ℕ} {e : ε} (hsent : (pass i).sent = some e)
    (hres : (pass i).result = none) : run pass exhausted (n + 1) i =
      (e :: (run pass exhausted n (i + 1)).1, (run pass exhausted n (i + 1)).2) := by
  rcases hpass : pass i with b' | ⟨e', b'⟩ | e'
  · rw [hpass] at hres
    cases hres
  · rw [hpass] at hres
    cases hres
  · rw [hpass] at hsent
    obtain rfl := Option.some.inj hsent
    rw [run, hpass]

theorem length_run_pos (hsent : ∀ j, ∃ e, (pass j).sent = some e) (n i : ℕ) :
    0 < (run pass exhausted (n + 1) i).1.length := by
  obtain ⟨e, he⟩ := hsent i
  rcases hres : (pass i).result with _ | b
  · rw [run_succ_of_again he hres]
    exact Nat.succ_pos _
  · rw [run_succ_of_result he hres]
    exact Nat.one_pos

end Loop

/-! ## §3  Loops over different passes -/

section Family

variable {ι : Type*} {ε : ι → Type u} {β : ι → Type v} {κ : Type*}
  {pass : ∀ a, ℕ → Pass (ε a) (β a)} {exhausted : ∀ a, β a} {kind : ∀ a, β a → κ}

/-- The runs send as much and end with the same kind of result. -/
def SameCourse (pass : ∀ a, ℕ → Pass (ε a) (β a)) (exhausted : ∀ a, β a)
    (kind : ∀ a, β a → κ) (n i : ℕ) : Prop :=
  ∀ a b, (run (pass a) (exhausted a) n i).1.length = (run (pass b) (exhausted b) n i).1.length ∧
    kind a (run (pass a) (exhausted a) n i).2 = kind b (run (pass b) (exhausted b) n i).2

/-- The loops take the same course exactly if each pass that all of them reach comes to the
same: another pass, or the same kind of result. -/
theorem sameCourse_iff (hsent : ∀ a j, ∃ e, (pass a j).sent = some e) : ∀ {n i : ℕ},
    (∀ a, (pass a (i + n)).result ≠ none) →
      (SameCourse pass exhausted kind (n + 1) i ↔
        ∀ j ≤ n, (∀ m < j, ∀ a, (pass a (i + m)).result = none) →
          ∀ a b, (pass a (i + j)).result.map (kind a) = (pass b (i + j)).result.map (kind b))
  | n, i, hlast => by
      by_cases hagain : ∀ a, (pass a i).result = none
      · cases n with
        | zero =>
            constructor
            · intro _ j hj hbefore a b
              exact absurd (hagain a) (hlast a)
            · intro _ a b
              exact absurd (hagain a) (hlast a)
        | succ n =>
            have hshift : ∀ j, i + (j + 1) = i + 1 + j := fun j => by omega
            have ih := sameCourse_iff hsent (n := n) (i := i + 1)
              (fun a => by rw [← hshift]; exact hlast a)
            have hcourse : SameCourse pass exhausted kind (n + 1 + 1) i ↔
                SameCourse pass exhausted kind (n + 1) (i + 1) := by
              refine forall₂_congr fun a b => ?_
              obtain ⟨e, he⟩ := hsent a i
              obtain ⟨e', he'⟩ := hsent b i
              rw [run_succ_of_again he (hagain a), run_succ_of_again he' (hagain b)]
              simp
            rw [hcourse, ih]
            constructor
            · intro h j hj hbefore
              cases j with
              | zero =>
                  intro a b
                  rw [Nat.add_zero, hagain a, hagain b]
                  rfl
              | succ j =>
                  rw [hshift]
                  exact h j (by omega) fun m hm a => by
                    rw [← hshift]
                    exact hbefore (m + 1) (by omega) a
            · intro h j hj hbefore
              rw [← hshift]
              refine h (j + 1) (by omega) fun m hm a => ?_
              cases m with
              | zero => exact hagain a
              | succ m =>
                  rw [hshift]
                  exact hbefore m (by omega) a
      · have hfirst : (∀ j ≤ n, (∀ m < j, ∀ a, (pass a (i + m)).result = none) →
            ∀ a b, (pass a (i + j)).result.map (kind a) = (pass b (i + j)).result.map (kind b)) ↔
            ∀ a b, (pass a i).result.map (kind a) = (pass b i).result.map (kind b) := by
          constructor
          · intro h
            exact h 0 (Nat.zero_le n) fun m hm => absurd hm (Nat.not_lt_zero m)
          · intro h j hj hbefore
            cases j with
            | zero => exact h
            | succ j => exact absurd (hbefore 0 (Nat.succ_pos j)) hagain
        rw [hfirst]
        obtain ⟨c, hc⟩ := not_forall.mp hagain
        obtain ⟨r, hr⟩ := Option.ne_none_iff_exists'.mp hc
        have hends : ∀ a r, (pass a i).result = some r →
            ∃ e, run (pass a) (exhausted a) (n + 1) i = ([e], r) := by
          intro a r hr
          obtain ⟨e, he⟩ := hsent a i
          exact ⟨e, run_succ_of_result he hr⟩
        obtain ⟨e, hrun⟩ := hends c r hr
        constructor
        · intro h a b
          -- a loop that goes on sends more than the one that ends
          have hall : ∀ a, ∃ r, (pass a i).result = some r := by
            intro a
            refine Option.ne_none_iff_exists'.mp fun hnone => ?_
            obtain ⟨e', he'⟩ := hsent a i
            have hlength := (h a c).1
            rw [run_succ_of_again he' hnone, hrun, List.length_cons, List.length_singleton]
              at hlength
            cases n with
            | zero => exact hlast a hnone
            | succ n =>
                have hpos : 0 < (run (pass a) (exhausted a) (n + 1) (i + 1)).1.length :=
                  length_run_pos (hsent a) n (i + 1)
                omega
          obtain ⟨ra, hra⟩ := hall a
          obtain ⟨rb, hrb⟩ := hall b
          obtain ⟨ea, hruna⟩ := hends a ra hra
          obtain ⟨eb, hrunb⟩ := hends b rb hrb
          have hkind := (h a b).2
          rw [hruna, hrunb] at hkind
          rw [hra, hrb]
          exact congrArg some hkind
        · intro h a b
          have hall : ∀ a, ∃ r', (pass a i).result = some r' ∧ kind a r' = kind c r := by
            intro a
            have heq := h a c
            rw [hr] at heq
            exact Option.map_eq_some_iff.mp heq
          obtain ⟨ra, hra, hka⟩ := hall a
          obtain ⟨rb, hrb, hkb⟩ := hall b
          obtain ⟨ea, hruna⟩ := hends a ra hra
          obtain ⟨eb, hrunb⟩ := hends b rb hrb
          rw [hruna, hrunb]
          exact ⟨rfl, hka.trans hkb.symm⟩

end Family

end SpecForge.Lib.Attempts
