import Mathlib.Algebra.Ring.Nat
import Mathlib.Data.List.Basic

/-!
# Two levels of infix operators

`a & b | c` is read as a list of arms, each a list of operands. Writing two such texts
with `|` between them appends the arms. Writing them with `&` between them, or one
directly behind an unfinished arm, glues the last arm of the first to the first arm of the
second, whatever was meant.

- §1 glueing; §2 the last operand; §3 lists of lists told apart by lengths.
-/

namespace SpecForge.Lib.Infix

universe u v

variable {α : Type u}

/-! ## §1  Glueing -/

def glue : List (List α) → List (List α) → List (List α)
  | [], G => G
  | [a], [] => [a]
  | [a], g :: gs => (a ++ g) :: gs
  | a :: b :: F, G => a :: glue (b :: F) G

@[simp] theorem glue_singleton_cons (a g : List α) (gs : List (List α)) :
    glue [a] (g :: gs) = (a ++ g) :: gs := rfl

@[simp] theorem glue_cons_cons (a b : List α) (F G : List (List α)) :
    glue (a :: b :: F) G = a :: glue (b :: F) G := rfl

/-- An arm without operands is where a text starts. -/
@[simp] theorem glue_start : ∀ {G : List (List α)}, G ≠ [] → glue [[]] G = G
  | _ :: _, _ => rfl

@[simp] theorem glue_end : ∀ F : List (List α), F ≠ [] → glue F [[]] = F
  | [a], _ => by rw [glue_singleton_cons, List.append_nil]
  | a :: b :: F, _ => by rw [glue_cons_cons, glue_end (b :: F) (List.cons_ne_nil b F)]

theorem glue_ne_nil : ∀ {F : List (List α)} (G : List (List α)), F ≠ [] → glue F G ≠ []
  | [_], [], _ => List.cons_ne_nil _ _
  | [_], _ :: _, _ => List.cons_ne_nil _ _
  | _ :: _ :: _, _, _ => List.cons_ne_nil _ _

theorem glue_assoc : ∀ {F G : List (List α)} (H : List (List α)), F ≠ [] → G ≠ [] →
    glue (glue F G) H = glue F (glue G H)
  | [a], [g], [], _, _ => rfl
  | [a], [g], h :: H, _, _ => by simp
  | [a], g :: g' :: G, H, _, _ => rfl
  | a :: b :: F, G, H, _, hG => by
      have hne : b :: F ≠ [] := List.cons_ne_nil b F
      rcases hglue : glue (b :: F) G with _ | ⟨c, C⟩
      · exact absurd hglue (glue_ne_nil G hne)
      · rw [glue_cons_cons, hglue, glue_cons_cons, ← hglue, glue_assoc H hne hG,
          glue_cons_cons]

/-- Behind an empty arm nothing is glued. -/
theorem glue_snoc_nil : ∀ (F : List (List α)) {G : List (List α)}, G ≠ [] →
    glue (F ++ [[]]) G = F ++ G
  | [], _, hG => glue_start hG
  | [a], G, hG => by
      show a :: glue [[]] G = a :: G
      rw [glue_start hG]
  | a :: b :: F, G, hG => by
      have ih := glue_snoc_nil (b :: F) hG
      show a :: glue (b :: F ++ [[]]) G = a :: (b :: F ++ G)
      rw [ih]

theorem glue_append : ∀ {F G : List (List α)} (H : List (List α)), F ≠ [] → G ≠ [] →
    glue F G ++ H = glue F (G ++ H)
  | [a], g :: G, H, _, _ => rfl
  | a :: b :: F, G, H, _, hG => by
      rw [glue_cons_cons, List.cons_append, glue_append H (List.cons_ne_nil b F) hG,
        glue_cons_cons]

theorem flatten_glue : ∀ F G : List (List α), (glue F G).flatten = F.flatten ++ G.flatten
  | [], _ => rfl
  | [a], [] => by simp [glue]
  | [a], g :: G => by simp
  | a :: b :: F, G => by
      have ih := flatten_glue (b :: F) G
      rw [glue_cons_cons, List.flatten_cons, ih, ← List.append_assoc]
      rfl

/-- Glueing makes one arm of two. -/
theorem length_glue : ∀ {F G : List (List α)}, F ≠ [] → G ≠ [] →
    (glue F G).length + 1 = F.length + G.length
  | [a], g :: G, _, _ => by
      simp only [glue_singleton_cons, List.length_cons, List.length_nil]
      omega
  | a :: b :: F, G, _, hG => by
      have ih := length_glue (List.cons_ne_nil b F) hG
      simp only [glue_cons_cons, List.length_cons] at ih ⊢
      omega

/-- All texts glued in order. -/
def glueAll : List (List (List α)) → List (List α)
  | [] => [[]]
  | F :: Fs => glue F (glueAll Fs)

theorem glueAll_ne_nil : ∀ {Fs : List (List (List α))}, (∀ F ∈ Fs, F ≠ []) → glueAll Fs ≠ []
  | [], _ => List.cons_ne_nil _ _
  | F :: _, h => glue_ne_nil _ (h F List.mem_cons_self)

theorem flatten_glueAll : ∀ Fs : List (List (List α)),
    (glueAll Fs).flatten = Fs.flatMap List.flatten
  | [] => rfl
  | F :: Fs => by rw [glueAll, flatten_glue, flatten_glueAll Fs, List.flatMap_cons]

/-- Single arms glue to the arm of all their operands. -/
theorem glueAll_singletons {γ : Type v} (f : γ → List α) : ∀ l : List γ,
    glueAll (l.map fun x => [f x]) = [l.flatMap f]
  | [] => rfl
  | x :: l => by
      rw [List.map_cons, glueAll, glueAll_singletons f l, List.flatMap_cons]
      rfl

/-- Every arm has an operand. -/
def Full (F : List (List α)) : Prop := F ≠ [] ∧ ∀ a ∈ F, a ≠ []

/-- Every arm has an operand, except that the last may still be waiting for its own. -/
def Open (F : List (List α)) : Prop := ∃ D a, F = D ++ [a] ∧ ∀ d ∈ D, d ≠ []

theorem Full.ne_nil {F : List (List α)} (h : Full F) : F ≠ [] := h.1

theorem full_singleton {a : List α} (h : a ≠ []) : Full [a] :=
  ⟨List.cons_ne_nil _ _, fun _ hb => by rw [List.mem_singleton.mp hb]; exact h⟩

theorem Full.append {F G : List (List α)} (hF : Full F) (hG : Full G) : Full (F ++ G) :=
  ⟨List.append_ne_nil_of_left_ne_nil hF.1 G, fun a ha =>
    (List.mem_append.mp ha).elim (hF.2 a) (hG.2 a)⟩

theorem Full.glue : ∀ {F G : List (List α)}, Full F → Full G → Full (glue F G)
  | [a], g :: G, hF, hG => by
      refine ⟨List.cons_ne_nil _ _, ?_⟩
      intro b hb
      rcases List.mem_cons.mp hb with rfl | hb
      · exact List.append_ne_nil_of_left_ne_nil (hF.2 a List.mem_cons_self) g
      · exact hG.2 b (List.mem_cons_of_mem g hb)
  | a :: b :: F, G, hF, hG => by
      have htail : Full (b :: F) :=
        ⟨List.cons_ne_nil _ _, fun c hc => hF.2 c (List.mem_cons_of_mem a hc)⟩
      have ih := htail.glue hG
      refine ⟨List.cons_ne_nil _ _, ?_⟩
      intro c hc
      rcases List.mem_cons.mp hc with rfl | hc
      · exact hF.2 c List.mem_cons_self
      · exact ih.2 c hc

theorem Full.open_snoc {F : List (List α)} (h : Full F) : Open (F ++ [[]]) :=
  ⟨F, [], rfl, h.2⟩

theorem Full.open {F : List (List α)} (h : Full F) : Open F :=
  ⟨F.dropLast, F.getLast h.1, (List.dropLast_append_getLast h.1).symm,
    fun d hd => h.2 d (List.dropLast_subset F hd)⟩

theorem open_start : Open ([[]] : List (List α)) :=
  ⟨[], [], rfl, fun _ hd => absurd hd List.not_mem_nil⟩

/-- The operand that was waited for. -/
theorem Open.glue_operand {F : List (List α)} (h : Open F) (x : α) : Full (glue F [[x]]) := by
  obtain ⟨D, a, rfl, hD⟩ := h
  have heq : ∀ D : List (List α), Infix.glue (D ++ [a]) [[x]] = D ++ [a ++ [x]] := by
    intro D
    induction D with
    | nil => rfl
    | cons d D ih =>
        rcases hne : D ++ [a] with _ | ⟨c, C⟩
        · simp at hne
        · rw [List.cons_append, hne, glue_cons_cons, ← hne, ih, List.cons_append]
  rw [heq]
  refine ⟨List.append_ne_nil_of_right_ne_nil D (List.cons_ne_nil _ _), ?_⟩
  intro b hb
  rcases List.mem_append.mp hb with hb | hb
  · exact hD b hb
  · rw [List.mem_singleton.mp hb]
    exact List.append_ne_nil_of_right_ne_nil a (List.cons_ne_nil x [])

/-! ## §2  The last operand -/

/-- A postfix operator sees only the last operand of the last arm. -/
def onLast (f : α → α) : List (List α) → List (List α)
  | [] => []
  | [a] => [a.dropLast ++ (a.getLast?.map f).toList]
  | a :: b :: F => a :: onLast f (b :: F)

theorem onLast_singleton_snoc (f : α → α) (a : List α) (x : α) :
    onLast f [a ++ [x]] = [a ++ [f x]] := by
  simp [onLast]

theorem length_onLast (f : α → α) : ∀ F : List (List α), (onLast f F).length = F.length
  | [] => rfl
  | [_] => rfl
  | a :: b :: F => by
      have ih := length_onLast f (b :: F)
      rw [onLast, List.length_cons, ih]
      rfl

theorem onLast_glue (f : α → α) : ∀ {F G : List (List α)}, F ≠ [] → Full G →
    onLast f (glue F G) = glue F (onLast f G)
  | [a], [g], _, hG => by
      have hg : g ≠ [] := hG.2 g List.mem_cons_self
      obtain ⟨d, x, rfl⟩ : ∃ d x, g = d ++ [x] :=
        ⟨_, _, (List.dropLast_append_getLast hg).symm⟩
      rw [glue_singleton_cons, ← List.append_assoc, onLast_singleton_snoc,
        onLast_singleton_snoc, glue_singleton_cons, List.append_assoc]
  | [a], g :: g' :: G, _, _ => rfl
  | a :: b :: F, G, _, hG => by
      have hne : b :: F ≠ [] := List.cons_ne_nil b F
      have ih := onLast_glue f hne hG
      rcases hglue : glue (b :: F) G with _ | ⟨c, C⟩
      · exact absurd hglue (glue_ne_nil G hne)
      · rw [hglue] at ih
        rw [glue_cons_cons, hglue, onLast, ih, glue_cons_cons]

theorem Full.onLast (f : α → α) : ∀ {F : List (List α)}, Full F → Full (onLast f F)
  | [a], h => by
      have ha : a ≠ [] := h.2 a List.mem_cons_self
      obtain ⟨d, x, rfl⟩ : ∃ d x, a = d ++ [x] :=
        ⟨_, _, (List.dropLast_append_getLast ha).symm⟩
      rw [onLast_singleton_snoc]
      exact full_singleton (List.append_ne_nil_of_right_ne_nil d (List.cons_ne_nil _ _))
  | a :: b :: F, h => by
      have htail : Full (b :: F) :=
        ⟨List.cons_ne_nil _ _, fun c hc => h.2 c (List.mem_cons_of_mem a hc)⟩
      have ih := htail.onLast f
      refine ⟨List.cons_ne_nil _ _, ?_⟩
      intro c hc
      rcases List.mem_cons.mp hc with rfl | hc
      · exact h.2 c List.mem_cons_self
      · exact ih.2 c hc

/-- The operator changes no number of operands. -/
theorem map_length_onLast (f : α → α) : ∀ F : List (List α),
    (onLast f F).map List.length = F.map List.length
  | [] => rfl
  | [a] => by
      rcases List.eq_nil_or_concat a with rfl | ⟨d, x, rfl⟩
      · rfl
      · rw [List.concat_eq_append, onLast_singleton_snoc]
        simp
  | a :: b :: F => by
      rw [onLast, List.map_cons, map_length_onLast f (b :: F)]
      rfl

theorem length_arm_onLast (f : α → α) {F : List (List α)} {n : Nat} (h : ∀ a ∈ F, a.length = n) :
    ∀ a ∈ onLast f F, a.length = n := by
  intro a ha
  have hlen : a.length ∈ F.map List.length := by
    rw [← map_length_onLast f F]
    exact List.mem_map_of_mem ha
  obtain ⟨b, hb, hab⟩ := List.mem_map.mp hlen
  rw [← hab, h b hb]

theorem mem_flatten_onLast {f : α → α} {x : α} : ∀ {F : List (List α)},
    x ∈ (onLast f F).flatten → x ∈ F.flatten ∨ ∃ y ∈ F.flatten, x = f y
  | [a], h => by
      rw [onLast, List.flatten_singleton, List.mem_append] at h
      rw [List.flatten_singleton]
      rcases h with h | h
      · exact Or.inl (List.dropLast_subset a h)
      · obtain ⟨y, hy, rfl⟩ := Option.map_eq_some_iff.mp (Option.mem_toList.mp h)
        exact Or.inr ⟨y, List.mem_of_getLast? hy, rfl⟩
  | a :: b :: F, h => by
      rw [onLast, List.flatten_cons, List.mem_append] at h
      rw [List.flatten_cons]
      rcases h with h | h
      · exact Or.inl (List.mem_append_left _ h)
      · rcases mem_flatten_onLast h with h | ⟨y, hy, rfl⟩
        · exact Or.inl (List.mem_append_right a h)
        · exact Or.inr ⟨y, List.mem_append_right a hy, rfl⟩

/-- What the operator does not change of an operand, it does not change of the text. -/
theorem map_flatten_onLast {γ : Type v} {f : α → α} {w : α → γ} (h : ∀ x, w (f x) = w x) :
    ∀ F : List (List α), (onLast f F).flatten.map w = F.flatten.map w
  | [] => rfl
  | [a] => by
      rcases List.eq_nil_or_concat a with rfl | ⟨d, x, rfl⟩
      · rfl
      · rw [List.concat_eq_append, onLast_singleton_snoc]
        simp [h]
  | a :: b :: F => by
      rw [onLast, List.flatten_cons, List.map_append, map_flatten_onLast h (b :: F),
        ← List.map_append, ← List.flatten_cons]

/-! ## §3  Lengths -/

theorem length_flatMap_le {γ : Type v} {δ : Type u} {f : γ → List α} {g : γ → List δ} :
    ∀ {l : List γ}, (∀ x ∈ l, (g x).length ≤ (f x).length) → (l.flatMap g).length ≤ (l.flatMap f).length
  | [], _ => Nat.le_refl _
  | x :: l, h => by
      rw [List.forall_mem_cons] at h
      rw [List.flatMap_cons, List.flatMap_cons, List.length_append, List.length_append]
      exact Nat.add_le_add h.1 (length_flatMap_le h.2)

/-- Two lists put together from parts, one part never longer than the other: equal in all
they are equal part by part. -/
theorem eq_parts_of_flatMap_eq {γ : Type v} {f g : γ → List α} : ∀ {l : List γ},
    (∀ x ∈ l, (g x).length ≤ (f x).length) → l.flatMap f = l.flatMap g → ∀ x ∈ l, f x = g x
  | [], _, _ => fun x hx => absurd hx List.not_mem_nil
  | x :: l, hle, heq => by
      rw [List.forall_mem_cons] at hle
      rw [List.flatMap_cons, List.flatMap_cons] at heq
      have hrest := length_flatMap_le hle.2
      have htotal := congrArg List.length heq
      rw [List.length_append, List.length_append] at htotal
      have hlen : (f x).length = (g x).length := by
        have := hle.1
        omega
      obtain ⟨hx, hl⟩ := List.append_inj heq hlen
      rw [List.forall_mem_cons]
      exact ⟨hx, eq_parts_of_flatMap_eq hle.2 hl⟩

/-- One part alone is the whole. -/
theorem of_flatMap_eq_singleton {γ : Type v} {f : γ → List α} {l : List γ} {a : α}
    (hf : ∀ x ∈ l, f x ≠ []) (h : l.flatMap f = [a]) : ∃ x, l = [x] ∧ f x = [a] := by
  rcases l with _ | ⟨x, _ | ⟨y, l⟩⟩
  · cases h
  · exact ⟨x, rfl, by simpa using h⟩
  · have hlen := congrArg List.length h
    have hx := List.length_pos_iff.mpr (hf x (by simp))
    have hy := List.length_pos_iff.mpr (hf y (by simp))
    simp only [List.flatMap_cons, List.length_append, List.length_singleton] at hlen
    omega

theorem eq_singleton_flatten {F : List (List α)} (h : F.length = 1) : F = [F.flatten] := by
  obtain ⟨a, rfl⟩ := List.length_eq_one_iff.mp h
  rw [List.flatten_singleton]

/-- Texts of one arm are glued to one arm. -/
theorem glueAll_of_length_eq_one {Fs : List (List (List α))} (h : ∀ F ∈ Fs, F.length = 1) :
    glueAll Fs = [Fs.flatMap List.flatten] := by
  have hmap : Fs = Fs.map fun F => [F.flatten] := by
    conv_lhs => rw [← List.map_id Fs]
    exact List.map_congr_left fun F hF => eq_singleton_flatten (h F hF)
  conv_lhs => rw [hmap]
  exact glueAll_singletons List.flatten Fs

/-- Only texts of one arm are glued to one arm. -/
theorem length_eq_one_of_glueAll {Fs : List (List (List α))} (hne : ∀ F ∈ Fs, F ≠ [])
    (h : (glueAll Fs).length = 1) : ∀ F ∈ Fs, F.length = 1 := by
  induction Fs with
  | nil => exact fun F hF => absurd hF List.not_mem_nil
  | cons G Fs ih =>
      rw [List.forall_mem_cons] at hne ⊢
      have hstep := length_glue hne.1 (glueAll_ne_nil hne.2)
      have hG := List.length_pos_iff.mpr hne.1
      have hrest := List.length_pos_iff.mpr (glueAll_ne_nil hne.2)
      rw [glueAll] at h
      exact ⟨by omega, ih hne.2 (by omega)⟩

end SpecForge.Lib.Infix
