import Mathlib.Data.List.Infix
import SpecForge.Lib.Spans

/-!
# Probe paths (`verify.rs`, `profiler.rs`)

The verifier and the profiler send requests to the paths of a document. Each has a function of its
own that replaces the placeholders of a path by dummy values.
-/

namespace SpecForge

open Lib Lib.Spans

/-- `str::contains`. -/
def contains (part s : List Char) : Bool := decide (part <:+: s)

/-- The loop over the path: placeholders are replaced until there is none. -/
def substituteWith (dummy : List Char → List Char) (fuel : ℕ) (path : String) : Option String :=
  (replaceSpans '\x7b' '\x7d' dummy fuel path.toList).map String.ofList

namespace Verify

def dummy (param : List Char) : List Char :=
  if contains "id".toList param || contains "Id".toList param then "1".toList else "test".toList

def substitutePathParams : ℕ → String → Option String := substituteWith dummy

end Verify

namespace Profiler

def dummy (param : List Char) : List Char :=
  if contains "id".toList param || contains "Id".toList param then "1".toList else "test".toList

def substitutePathParams : ℕ → String → Option String := substituteWith dummy

end Profiler

theorem substituteWith_stable (dummy : List Char → List Char) (path : String) :
    Stable (substituteWith dummy · path) := by
  intro n url h
  obtain ⟨cs, hcs, rfl⟩ := Option.map_eq_some_iff.mp h
  exact Option.map_eq_some_iff.mpr ⟨cs, replaceSpans_stable _ n cs hcs, rfl⟩

/-- What the loop returns is its only result. -/
theorem returns_substituteWith_iff {dummy : List Char → List Char} {path : String}
    {cs : List Char}
    (h : Returns (fun n => replaceSpans '\x7b' '\x7d' dummy n path.toList) cs) (url : String) :
    Returns (substituteWith dummy · path) url ↔ url = String.ofList cs :=
  Returns.iff_eq (substituteWith_stable dummy path) (h.map String.ofList)

theorem notMem_dummy (param : List Char) : '\x7b' ∉ Verify.dummy param := by
  unfold Verify.dummy
  split <;> decide

/-- The text of a path between and behind its placeholders, and the placeholders. -/
def placeholders (spans : List (Span Char)) (tail : List Char) : String :=
  String.ofList (written '\x7b' '\x7d' spans ++ tail)

/-- The same text with dummy values in place of the placeholders. -/
def probed (spans : List (Span Char)) (tail : List Char) : String :=
  String.ofList (replaced Verify.dummy spans ++ tail)

/-- **Every path has one probe path, which verifier and profiler agree on**: the path is a row of
placeholders and a rest, the probe path is the same row with dummy values and the same rest, and no
brace in it opens a placeholder. -/
theorem substitutePathParams_returns (path : String) : ∃ spans tail,
    path = placeholders spans tail ∧ (∀ s ∈ spans, s.First '\x7b' '\x7d') ∧
      (∀ url, Returns (Verify.substitutePathParams · path) url ↔ url = probed spans tail) ∧
      (∀ url, Returns (Profiler.substitutePathParams · path) url ↔ url = probed spans tail) ∧
      ¬ HasSpan '\x7b' '\x7d' (probed spans tail).toList := by
  obtain ⟨spans, tail, hpath, hfirst, hret, hspan⟩ :=
    replaceSpans_returns (r := '\x7d') notMem_dummy path.toList
  refine ⟨spans, tail, ?_, hfirst, ?_, ?_, ?_⟩
  · rw [placeholders, ← hpath, String.ofList_toList]
  · exact returns_substituteWith_iff hret
  · exact returns_substituteWith_iff hret
  · rw [probed, String.toList_ofList]
    exact hspan

example : Verify.substitutePathParams 3 "/orgs/\x7borgId\x7d/repos/\x7brepo\x7d\x7d" =
    some "/orgs/1/repos/test\x7d" := by
  decide +kernel

end SpecForge
