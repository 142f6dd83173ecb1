import SpecForge.Lib.Quoted

/-!
# Regular expressions of ECMAScript

Patterns without flags, and of them the part that has no groups, alternatives or escapes, no
counted, optional or lazy quantifiers, and no classes but `[^…]`. So an atom stands for one code
unit, `.` for none that ends a line, and `^` and `$` hold at the two ends of the text only.

- §1 patterns and what they match; §2 how they are read; §3 literal text and classes; §4 texts in
  which units are replaced.
-/

namespace SpecForge.Lib.RegExp

/-! ## §1  Patterns -/

inductive Atom where
  | unit (u : ℕ)
  | dot
  | noneOf (us : List ℕ)

def isLineTerminator (u : ℕ) : Bool := u ∈ [10, 13, 0x2028, 0x2029]

def Atom.accepts : Atom → ℕ → Bool
  | .unit v, u => u == v
  | .dot, u => !isLineTerminator u
  | .noneOf us, u => !us.contains u

inductive Quantifier where
  | once
  | plus
  | star

inductive Term where
  /-- `^` -/
  | start
  /-- `$` -/
  | stop
  | atom (a : Atom) (q : Quantifier)

/-- One or more units that the atom accepts, and behind them what `k` accepts. -/
def oneOrMore (a : Atom) (k : List ℕ → Bool) : List ℕ → Bool
  | [] => false
  | u :: us => a.accepts u && (k us || oneOrMore a k us)

/-- Whether the terms match from here on; `first` says that nothing stands before. -/
def run : List Term → Bool → List ℕ → Bool
  | [], _, _ => true
  | .start :: ts, first, us => first && run ts first us
  | .stop :: ts, first, us => us.isEmpty && run ts first us
  | .atom a .once :: ts, _, us =>
      match us with
      | [] => false
      | u :: us => a.accepts u && run ts false us
  | .atom a .plus :: ts, _, us => oneOrMore a (run ts false) us
  | .atom a .star :: ts, first, us => run ts first us || oneOrMore a (run ts false) us

/-- `RegExp.prototype.test`: a match that begins somewhere. -/
def test (ts : List Term) (us : List ℕ) : Bool :=
  run ts true us || us.tails.tail.any (run ts false)

/-! ## §2  Reading -/

inductive Mode where
  /-- A term may begin; there is nothing to be quantified. -/
  | free
  /-- Behind an atom, which a quantifier may follow. -/
  | behind (a : Atom)
  | bracket
  | noneOf (us : List ℕ)

/-- What repeats or groups, and what belongs to the part left out. -/
def reserved : List ℕ := "*+?()]\x7b|\x7d\\".toList.map Char.toNat

def stepFree (u : ℕ) : Option (List Term × Mode) :=
  if u = '^'.toNat then some ([.start], .free)
  else if u = '$'.toNat then some ([.stop], .free)
  else if u = '.'.toNat then some ([], .behind .dot)
  else if u = '['.toNat then some ([], .bracket)
  else if u ∈ reserved then none
  else some ([], .behind (.unit u))

/-- The terms that are complete with one more unit. -/
def step : Mode → ℕ → Option (List Term × Mode)
  | .free, u => stepFree u
  | .behind a, u =>
      if u = '+'.toNat then some ([.atom a .plus], .free)
      else if u = '*'.toNat then some ([.atom a .star], .free)
      else (stepFree u).map fun p => (.atom a .once :: p.1, p.2)
  | .bracket, u => if u = '^'.toNat then some ([], .noneOf []) else none
  | .noneOf us, u =>
      if u = ']'.toNat then some ([], .behind (.noneOf us))
      else if u = '-'.toNat ∨ u = '\\'.toNat then none
      else some ([], .noneOf (us ++ [u]))

def read : Mode → List ℕ → Option (List Term)
  | .free, [] => some []
  | .behind a, [] => some [.atom a .once]
  | _, [] => none
  | mode, u :: us =>
      match step mode u with
      | none => none
      | some (ts, mode') => (read mode' us).map (ts ++ ·)

/-- `new RegExp`; `none` if it throws, or if the pattern is one of those left out. -/
def compile (pattern : List ℕ) : Option (List Term) := read .free pattern

example : (compile ("^/[^/]+/a.b$".toList.map Char.toNat)).map
    (test · ("/1/a-b".toList.map Char.toNat)) = some true := by decide

theorem read_cons {mode mode' : Mode} {u : ℕ} {ts : List Term}
    (h : step mode u = some (ts, mode')) (us : List ℕ) :
    read mode (u :: us) = (read mode' us).map (ts ++ ·) := by
  cases mode <;> rw [read, h]

theorem read_cons_none {mode : Mode} {u : ℕ} (h : step mode u = none) (us : List ℕ) :
    read mode (u :: us) = none := by
  cases mode <;> rw [read, h]

/-! ## §3  Literal text and classes -/

/-- A unit that stands for itself. -/
def Plain (u : ℕ) : Prop :=
  u ∉ '^'.toNat :: '$'.toNat :: '.'.toNat :: '['.toNat :: reserved

instance (u : ℕ) : Decidable (Plain u) := inferInstanceAs (Decidable (_ ∉ _))

def literal (us : List ℕ) : List Term := us.map fun u => .atom (.unit u) .once

/-- No quantifier stands in front. -/
def Unquantified (us : List ℕ) : Prop := us.head? ≠ some '+'.toNat ∧ us.head? ≠ some '*'.toNat

theorem step_plain {u : ℕ} (hu : Plain u) : step .free u = some ([], .behind (.unit u)) := by
  simp only [Plain, List.mem_cons, not_or] at hu
  obtain ⟨hstart, hstop, hdot, hopen, hreserved⟩ := hu
  rw [step, stepFree, if_neg hstart, if_neg hstop, if_neg hdot, if_neg hopen, if_neg hreserved]

/-- All that can stand where a term may begin. -/
theorem step_free_cases {u : ℕ} {ts : List Term} {mode : Mode}
    (h : step .free u = some (ts, mode)) :
    (ts = [.start] ∨ ts = [.stop]) ∧ mode = .free ∨ ts = [] ∧ mode = .behind .dot ∨
      u = '['.toNat ∧ mode = .bracket ∨ Plain u ∧ ts = [] ∧ mode = .behind (.unit u) := by
  by_cases hu : Plain u
  · rw [step_plain hu] at h
    cases h
    exact Or.inr (Or.inr (Or.inr ⟨hu, rfl, rfl⟩))
  · simp only [Plain, List.mem_cons, not_not] at hu
    rcases hu with rfl | rfl | rfl | rfl | hreserved
    · cases h
      exact Or.inl ⟨Or.inl rfl, rfl⟩
    · cases h
      exact Or.inl ⟨Or.inr rfl, rfl⟩
    · cases h
      exact Or.inr (Or.inl ⟨rfl, rfl⟩)
    · cases h
      exact Or.inr (Or.inr (Or.inl ⟨rfl, rfl⟩))
    · have hnone : ∀ v ∈ reserved, (stepFree v).isNone = true := by decide
      rw [step, Option.isNone_iff_eq_none.mp (hnone u hreserved)] at h
      cases h

theorem Plain.unquantified {u : ℕ} (hu : Plain u) (us : List ℕ) : Unquantified (u :: us) := by
  constructor
  · intro h
    cases h
    exact hu (by decide)
  · intro h
    cases h
    exact hu (by decide)

theorem read_behind (a : Atom) {us : List ℕ} (h : Unquantified us) :
    read (.behind a) us = (read .free us).map (.atom a .once :: ·) := by
  cases us with
  | nil => rfl
  | cons u us =>
      have hplus : u ≠ '+'.toNat := fun hu => h.1 (congrArg some hu)
      have hstar : u ≠ '*'.toNat := fun hu => h.2 (congrArg some hu)
      have hstep : step (.behind a) u =
          (step .free u).map fun p => (.atom a .once :: p.1, p.2) :=
        (if_neg hplus).trans (if_neg hstar)
      rcases hfree : step .free u with _ | ⟨ts, mode⟩
      · rw [hfree] at hstep
        rw [read_cons_none hstep, read_cons_none hfree]
        rfl
      · rw [hfree] at hstep
        rw [read_cons hstep, read_cons hfree, Option.map_map]
        rfl

theorem read_literal {us : List ℕ} (hus : ∀ u ∈ us, Plain u) {rest : List ℕ}
    (hrest : Unquantified rest) :
    read .free (us ++ rest) = (read .free rest).map (literal us ++ ·) := by
  induction us with
  | nil =>
      rw [List.nil_append]
      exact (congrFun Option.map_id (read .free rest)).symm
  | cons u us ih =>
      obtain ⟨hu, hus⟩ := List.forall_mem_cons.mp hus
      have hnext : Unquantified (us ++ rest) := by
        cases us with
        | nil => exact hrest
        | cons v us => exact (hus v List.mem_cons_self).unquantified (us ++ rest)
      rw [List.cons_append, read_cons (step_plain hu), read_behind _ hnext,
        ih hus, Option.map_map, Option.map_map]
      rfl

/-- `[^u]+` -/
theorem read_noneOf_plus {u : ℕ} (hu : Plain u) (hdash : u ≠ '-'.toNat) (rest : List ℕ) :
    read .free ('['.toNat :: '^'.toNat :: u :: ']'.toNat :: '+'.toNat :: rest) =
      (read .free rest).map (.atom (.noneOf [u]) .plus :: ·) := by
  have hbracket : u ≠ ']'.toNat := fun h => hu (h ▸ by decide)
  have hslash : u ≠ '\\'.toNat := fun h => hu (h ▸ by decide)
  have hunit : step (.noneOf []) u = some ([], .noneOf [u]) := by
    rw [step, if_neg hbracket, if_neg (not_or.mpr ⟨hdash, hslash⟩)]
    rfl
  have hopen : step .free '['.toNat = some ([], .bracket) := rfl
  have hnegated : step .bracket '^'.toNat = some ([], .noneOf []) := rfl
  have hclose : step (.noneOf [u]) ']'.toNat = some ([], .behind (.noneOf [u])) := rfl
  have hplus : step (.behind (.noneOf [u])) '+'.toNat =
      some ([.atom (.noneOf [u]) .plus], .free) := rfl
  rw [read_cons hopen, read_cons hnegated, read_cons hunit, read_cons hclose, read_cons hplus]
  simp only [Option.map_map]
  rfl

theorem run_literal (us : List ℕ) (ts : List Term) (ws : List ℕ) :
    run (literal us ++ ts) false ws = true ↔ ∃ rest, ws = us ++ rest ∧ run ts false rest = true := by
  induction us generalizing ws with
  | nil => simp [literal]
  | cons u us ih =>
      show run (.atom (.unit u) .once :: (literal us ++ ts)) false ws = true ↔ _
      cases ws with
      | nil => simp [run]
      | cons w ws =>
          rw [run]
          simp only [Atom.accepts, Bool.and_eq_true, beq_iff_eq, ih, List.cons_append,
            List.cons.injEq]
          constructor
          · rintro ⟨rfl, rest, rfl, hrest⟩
            exact ⟨rest, ⟨rfl, rfl⟩, hrest⟩
          · rintro ⟨rest, ⟨rfl, rfl⟩, hrest⟩
            exact ⟨rfl, rest, rfl, hrest⟩

theorem oneOrMore_iff {a : Atom} {k : List ℕ → Bool} {us : List ℕ} :
    oneOrMore a k us = true ↔
      ∃ v w, us = v ++ w ∧ v ≠ [] ∧ (∀ u ∈ v, a.accepts u = true) ∧ k w = true := by
  induction us with
  | nil =>
      refine ⟨nofun, ?_⟩
      rintro ⟨v, w, h, hne, -⟩
      exact absurd (List.append_eq_nil_iff.mp h.symm).1 hne
  | cons u us ih =>
      rw [oneOrMore, Bool.and_eq_true, Bool.or_eq_true, ih]
      constructor
      · rintro ⟨hu, hk | ⟨v, w, rfl, -, hv, hk⟩⟩
        · exact ⟨[u], us, rfl, List.cons_ne_nil _ _, by simpa using hu, hk⟩
        · exact ⟨u :: v, w, rfl, List.cons_ne_nil _ _, List.forall_mem_cons.mpr ⟨hu, hv⟩, hk⟩
      · rintro ⟨v, w, h, hne, hv, hk⟩
        obtain ⟨x, v, rfl⟩ := List.exists_cons_of_ne_nil hne
        obtain ⟨rfl, rfl⟩ := List.cons.inj h
        obtain ⟨hu, hv⟩ := List.forall_mem_cons.mp hv
        refine ⟨hu, ?_⟩
        cases v with
        | nil => exact Or.inl hk
        | cons y v => exact Or.inr ⟨y :: v, w, rfl, List.cons_ne_nil _ _, hv, hk⟩

/-- What begins with `^` matches from the start. -/
theorem test_start (ts : List Term) (us : List ℕ) : test (.start :: ts) us = run ts true us := by
  have hlater : (us.tails.tail.any fun ws => run (.start :: ts) false ws) = false :=
    List.any_eq_false.mpr fun ws _ => Bool.false_ne_true
  rw [test, hlater, Bool.or_false]
  rfl

/-! ## §4  Replaced units -/

/-- The atom accepts whatever its units are replaced by. -/
def Atom.Closed (f : ℕ → ℕ) (a : Atom) : Prop := ∀ u, a.accepts u = true → a.accepts (f u) = true

section

variable {f : ℕ → ℕ}

theorem oneOrMore_map {a : Atom} (ha : a.Closed f) {k : List ℕ → Bool}
    (hk : ∀ us, k us = true → k (us.map f) = true) {us : List ℕ} (h : oneOrMore a k us = true) :
    oneOrMore a k (us.map f) = true := by
  obtain ⟨v, w, rfl, hne, hv, hw⟩ := oneOrMore_iff.mp h
  refine oneOrMore_iff.mpr ⟨v.map f, w.map f, List.map_append, by simpa using hne, ?_, hk w hw⟩
  intro x hx
  obtain ⟨u, hu, rfl⟩ := List.mem_map.mp hx
  exact ha u (hv u hu)

theorem run_map {ts : List Term} (h : ∀ a q, .atom a q ∈ ts → a.Closed f) {first : Bool}
    {us : List ℕ} (hrun : run ts first us = true) : run ts first (us.map f) = true := by
  induction ts generalizing first us with
  | nil => rfl
  | cons t ts ih =>
      have hts : ∀ a q, .atom a q ∈ ts → a.Closed f := fun a q ht =>
        h a q (List.mem_cons_of_mem t ht)
      cases t with
      | start =>
          obtain ⟨hfirst, hrest⟩ := Bool.and_eq_true_iff.mp hrun
          exact Bool.and_eq_true_iff.mpr ⟨hfirst, ih hts hrest⟩
      | stop =>
          obtain ⟨hempty, hrest⟩ := Bool.and_eq_true_iff.mp hrun
          exact Bool.and_eq_true_iff.mpr ⟨by simpa using hempty, ih hts hrest⟩
      | atom a q =>
          have ha := h a q List.mem_cons_self
          cases q with
          | once =>
              cases us with
              | nil => exact absurd hrun Bool.false_ne_true
              | cons u us =>
                  obtain ⟨hu, hrest⟩ := Bool.and_eq_true_iff.mp hrun
                  exact Bool.and_eq_true_iff.mpr ⟨ha u hu, ih hts hrest⟩
          | plus => exact oneOrMore_map ha (fun _ h => ih hts h) hrun
          | star =>
              rcases Bool.or_eq_true_iff.mp hrun with hnone | hsome
              · exact Bool.or_eq_true_iff.mpr (Or.inl (ih hts hnone))
              · exact Bool.or_eq_true_iff.mpr (Or.inr (oneOrMore_map ha (fun _ h => ih hts h) hsome))

theorem test_map {ts : List Term} (h : ∀ a q, .atom a q ∈ ts → a.Closed f) {us : List ℕ}
    (htest : test ts us = true) : test ts (us.map f) = true := by
  rcases Bool.or_eq_true_iff.mp htest with hhere | hlater
  · exact Bool.or_eq_true_iff.mpr (Or.inl (run_map h hhere))
  · refine Bool.or_eq_true_iff.mpr (Or.inr ?_)
    obtain ⟨ws, hws, hrun⟩ := List.any_eq_true.mp hlater
    have htails : (us.map f).tails = us.tails.map (List.map f) := by
      clear htest hlater hws
      induction us with
      | nil => rfl
      | cons u us ih => simp [ih]
    rw [List.any_eq_true, htails, ← List.map_tail]
    exact ⟨ws.map f, List.mem_map_of_mem hws, run_map h hrun⟩

end

/-- The atoms that a pattern has from a place where no class is open. -/
def AtomsOnly (P : Atom → Prop) (us : List ℕ) : Prop :=
  ∀ mode, mode = .free ∨ (∃ a, mode = .behind a ∧ P a) →
    ∀ ts, read mode us = some ts → ∀ a q, .atom a q ∈ ts → P a

section

variable {P : Atom → Prop} {us : List ℕ}

theorem atomsOnly_nil : AtomsOnly P [] := by
  rintro mode (rfl | ⟨a, rfl, ha⟩) ts hts b q hb
  · cases hts
    cases hb
  · cases hts
    cases List.mem_singleton.mp hb
    exact ha

/-- A unit that opens no class. -/
theorem AtomsOnly.cons (h : AtomsOnly P us) {u : ℕ} (hopen : u ≠ '['.toNat) (hdot : P .dot)
    (hunit : Plain u → P (.unit u)) : AtomsOnly P (u :: us) := by
  have hfree : ∀ ts, read .free (u :: us) = some ts → ∀ a q, .atom a q ∈ ts → P a := by
    intro ts hts a q ha
    rcases hstep : step .free u with _ | ⟨front, mode⟩
    · rw [read_cons_none hstep] at hts
      cases hts
    · rw [read_cons hstep] at hts
      obtain ⟨rest, hrest, rfl⟩ := Option.map_eq_some_iff.mp hts
      rcases step_free_cases hstep with ⟨hfront, rfl⟩ | ⟨rfl, rfl⟩ | ⟨hu, -⟩ | ⟨hu, rfl, rfl⟩
      · refine h _ (Or.inl rfl) rest hrest a q ((List.mem_append.mp ha).resolve_left ?_)
        rcases hfront with rfl | rfl <;> exact fun h => nomatch List.mem_singleton.mp h
      · exact h _ (Or.inr ⟨_, rfl, hdot⟩) rest hrest a q ha
      · exact absurd hu hopen
      · exact h _ (Or.inr ⟨_, rfl, hunit hu⟩) rest hrest a q ha
  rintro mode (rfl | ⟨b, rfl, hb⟩) ts hts a q ha
  · exact hfree ts hts a q ha
  · by_cases hquantified : Unquantified (u :: us)
    · rw [read_behind b hquantified] at hts
      obtain ⟨rest, hrest, rfl⟩ := Option.map_eq_some_iff.mp hts
      rcases List.mem_cons.mp ha with heq | ha
      · cases heq
        exact hb
      · exact hfree rest hrest a q ha
    · -- a quantifier completes the atom in front of it
      have hstep : ∃ q, step (.behind b) u = some ([.atom b q], .free) := by
        rw [Unquantified, not_and_or, not_not, not_not] at hquantified
        rcases hquantified with hu | hu
        · cases hu
          exact ⟨_, rfl⟩
        · cases hu
          exact ⟨_, rfl⟩
      obtain ⟨q', hstep⟩ := hstep
      rw [read_cons hstep] at hts
      obtain ⟨rest, hrest, rfl⟩ := Option.map_eq_some_iff.mp hts
      rcases List.mem_append.mp ha with heq | ha
      · cases List.mem_singleton.mp heq
        exact hb
      · exact h _ (Or.inl rfl) rest hrest a q ha

/-- `[^u]+` -/
theorem AtomsOnly.noneOf_plus (h : AtomsOnly P us) {u : ℕ} (hu : Plain u) (hdash : u ≠ '-'.toNat)
    (hclass : P (.noneOf [u])) :
    AtomsOnly P ('['.toNat :: '^'.toNat :: u :: ']'.toNat :: '+'.toNat :: us) := by
  have hfree : ∀ ts, read .free ('['.toNat :: '^'.toNat :: u :: ']'.toNat :: '+'.toNat :: us) =
      some ts → ∀ a q, .atom a q ∈ ts → P a := by
    intro ts hts a q ha
    rw [read_noneOf_plus hu hdash] at hts
    obtain ⟨rest, hrest, rfl⟩ := Option.map_eq_some_iff.mp hts
    rcases List.mem_cons.mp ha with heq | ha
    · cases heq
      exact hclass
    · exact h _ (Or.inl rfl) rest hrest a q ha
  rintro mode (rfl | ⟨b, rfl, hb⟩) ts hts a q ha
  · exact hfree ts hts a q ha
  · have hbracket : Unquantified ('['.toNat :: '^'.toNat :: u :: ']'.toNat :: '+'.toNat :: us) :=
      ⟨fun h => absurd (Option.some.inj h) (by decide),
        fun h => absurd (Option.some.inj h) (by decide)⟩
    rw [read_behind b hbracket] at hts
    obtain ⟨rest, hrest, rfl⟩ := Option.map_eq_some_iff.mp hts
    rcases List.mem_cons.mp ha with heq | ha
    · cases heq
      exact hb
    · exact hfree rest hrest a q ha

end

end SpecForge.Lib.RegExp
