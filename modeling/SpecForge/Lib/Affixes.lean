import Mathlib.Data.List.Nodup
import SpecForge.Lib.Text
import SpecForge.Lib.Utf8

/-!
# Names with affixes

Families of names that are made from other names by putting a text in front or behind. The same
affix keeps different names apart; §1 is when two families have no name in common whatever the
names, §2 when a prefix and a suffix can meet.
-/

namespace SpecForge.Lib.Text

variable {p q : String}

/-! ## §1  Families without a common name -/

theorem nodup_map_prefix {names : List String} : (names.map (p ++ ·)).Nodup ↔ names.Nodup :=
  List.nodup_map_iff fun _ _ h => append_inj_left h

theorem nodup_map_suffix {names : List String} : (names.map (· ++ q)).Nodup ↔ names.Nodup :=
  List.nodup_map_iff fun _ _ h => append_inj_right h

theorem endsWith_iff {s : String} : endsWith q s = true ↔ ∃ r, s = r ++ q := by
  rw [endsWith, decide_eq_true_iff]
  constructor
  · rintro ⟨r, hr⟩
    refine ⟨String.ofList r, String.toList_inj.mp ?_⟩
    rw [String.toList_append, String.toList_ofList, hr]
  · rintro ⟨r, rfl⟩
    exact ⟨r.toList, String.toList_append.symm⟩

def NoneStarts (p : String) (names : List String) : Prop := ∀ s ∈ names, startsWith p s = false

def NoneEnds (q : String) (names : List String) : Prop := ∀ s ∈ names, endsWith q s = false

instance (p : String) (names : List String) : Decidable (NoneStarts p names) :=
  inferInstanceAs (Decidable (∀ s ∈ names, _))

instance (q : String) (names : List String) : Decidable (NoneEnds q names) :=
  inferInstanceAs (Decidable (∀ s ∈ names, _))

theorem NoneStarts.append_not_mem {names : List String} (h : NoneStarts p names) (s : String) :
    p ++ s ∉ names := by
  intro hmem
  have hstart := h _ hmem
  rw [startsWith_append] at hstart
  cases hstart

theorem NoneEnds.append_not_mem {names : List String} (h : NoneEnds q names) (s : String) :
    s ++ q ∉ names := by
  intro hmem
  have hend := h _ hmem
  rw [endsWith_iff.mpr ⟨s, rfl⟩] at hend
  cases hend

theorem startsWith_eq_false_of_bytes {s : String} (h : ¬ Utf8.bytes p <+: Utf8.bytes s) :
    startsWith p s = false :=
  decide_eq_false fun hp => h (Utf8.bytes_prefix hp)

theorem endsWith_eq_false_of_bytes {s : String} (h : ¬ Utf8.bytes q <:+ Utf8.bytes s) :
    endsWith q s = false :=
  decide_eq_false fun hq => h (Utf8.bytes_suffix hq)

theorem Apart.of_bytes (hpq : ¬ Utf8.bytes p <+: Utf8.bytes q)
    (hqp : ¬ Utf8.bytes q <+: Utf8.bytes p) : Apart p q :=
  ⟨fun h => hpq (Utf8.bytes_prefix h), fun h => hqp (Utf8.bytes_prefix h)⟩

theorem noneStarts_of_bytes {names : List String}
    (h : ∀ s ∈ names, ¬ Utf8.bytes p <+: Utf8.bytes s) : NoneStarts p names := fun s hs =>
  startsWith_eq_false_of_bytes (h s hs)

theorem noneEnds_of_bytes {names : List String}
    (h : ∀ s ∈ names, ¬ Utf8.bytes q <:+ Utf8.bytes s) : NoneEnds q names := fun s hs =>
  endsWith_eq_false_of_bytes (h s hs)

/-- No text ends both in `p` and in `q`. -/
def ApartEnds (p q : String) : Prop :=
  ¬ p.toList <:+ q.toList ∧ ¬ q.toList <:+ p.toList

instance (p q : String) : Decidable (ApartEnds p q) :=
  inferInstanceAs (Decidable (_ ∧ _))

theorem ApartEnds.append_ne (h : ApartEnds p q) (s t : String) : s ++ p ≠ t ++ q := by
  intro heq
  have hlist := congrArg String.toList heq
  rw [String.toList_append, String.toList_append] at hlist
  have hp : p.toList <:+ t.toList ++ q.toList := ⟨s.toList, hlist⟩
  rcases List.suffix_or_suffix_of_suffix hp (List.suffix_append t.toList q.toList) with h' | h'
  · exact h.1 h'
  · exact h.2 h'

section Disjoint

variable {names names' : List String}

theorem NoneStarts.disjoint (h : NoneStarts p names) : names.Disjoint (names'.map (p ++ ·)) := by
  intro s hs hmem
  obtain ⟨t, -, rfl⟩ := List.mem_map.mp hmem
  exact h.append_not_mem t hs

theorem NoneEnds.disjoint (h : NoneEnds q names) : names.Disjoint (names'.map (· ++ q)) := by
  intro s hs hmem
  obtain ⟨t, -, rfl⟩ := List.mem_map.mp hmem
  exact h.append_not_mem t hs

theorem Apart.disjoint (h : Apart p q) : (names.map (p ++ ·)).Disjoint (names'.map (q ++ ·)) := by
  intro s hs hmem
  obtain ⟨t, -, rfl⟩ := List.mem_map.mp hs
  obtain ⟨t', -, ht'⟩ := List.mem_map.mp hmem
  exact h.append_ne t t' ht'.symm

theorem ApartEnds.disjoint (h : ApartEnds p q) :
    (names.map (· ++ p)).Disjoint (names'.map (· ++ q)) := by
  intro s hs hmem
  obtain ⟨t, -, rfl⟩ := List.mem_map.mp hs
  obtain ⟨t', -, ht'⟩ := List.mem_map.mp hmem
  exact h.append_ne t t' ht'.symm

end Disjoint

/-! ## §2  A prefix and a suffix -/

/-- No end of `p` is a beginning of `q`. -/
def NoOverlap (p q : String) : Prop := ∀ c ∈ p.toList.tails, c <+: q.toList → c = []

instance (p q : String) : Decidable (NoOverlap p q) :=
  inferInstanceAs (Decidable (∀ c ∈ p.toList.tails, _))

/-- A name with the prefix is one with the suffix only where both stand around one text. -/
theorem NoOverlap.append_eq_append_iff (h : NoOverlap p q) {s t : String} :
    p ++ s = t ++ q ↔ ∃ r, t = p ++ r ∧ s = r ++ q := by
  constructor
  · intro heq
    have hlist := congrArg String.toList heq
    rw [String.toList_append, String.toList_append] at hlist
    rcases List.append_eq_append_iff.mp hlist with ⟨r, ht, hs⟩ | ⟨c, hp, hq⟩
    · refine ⟨String.ofList r, String.toList_inj.mp ?_, String.toList_inj.mp ?_⟩
      · rw [String.toList_append, String.toList_ofList, ht]
      · rw [String.toList_append, String.toList_ofList, hs]
    · have hc : c = [] :=
        h c ((List.mem_tails _ _).mpr ⟨t.toList, hp.symm⟩) ⟨s.toList, hq.symm⟩
      subst hc
      rw [List.append_nil] at hp
      rw [List.nil_append] at hq
      refine ⟨"", ?_, ?_⟩
      · rw [String.append_empty, String.toList_inj.mp hp]
      · rw [String.empty_append, String.toList_inj.mp hq]
  · rintro ⟨r, rfl, rfl⟩
    exact String.append_assoc.symm

theorem NoOverlap.disjoint_iff (h : NoOverlap p q) {names names' : List String} :
    (names.map (p ++ ·)).Disjoint (names'.map (· ++ q)) ↔
      ∀ r, p ++ r ∈ names' → r ++ q ∉ names := by
  constructor
  · intro hdisj r hr hmem
    exact hdisj (List.mem_map.mpr ⟨_, hmem, rfl⟩)
      (List.mem_map.mpr ⟨_, hr, String.append_assoc⟩)
  · intro hall s hs hmem
    obtain ⟨a, ha, rfl⟩ := List.mem_map.mp hs
    obtain ⟨b, hb, heq⟩ := List.mem_map.mp hmem
    obtain ⟨r, rfl, rfl⟩ := h.append_eq_append_iff.mp heq.symm
    exact hall r hb ha

end SpecForge.Lib.Text
