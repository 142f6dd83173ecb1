import SpecForge.Lib.Text

/-!
# Marked text

A text in pieces, some of which carry a mark: what that part of the text stands for. The
marks say nothing about the text itself; `erase` forgets them. What a program writes is
stated on the erased text, and where it wrote a given thing on the marks.
-/

namespace SpecForge.Lib

universe u

inductive Piece (α : Type u) where
  | plain (s : String)
  | mark (a : α) (s : String)

namespace Piece

variable {α : Type u}

def text : Piece α → String
  | plain s => s
  | mark _ s => s

def marks : Piece α → List (α × String)
  | plain _ => []
  | mark a s => [(a, s)]

end Piece

abbrev Marked (α : Type u) := List (Piece α)

namespace Marked

variable {α : Type u}

/-- A text without marks. -/
def plain (s : String) : Marked α := [.plain s]

/-- A text that is one mark. -/
def mark (a : α) (s : String) : Marked α := [.mark a s]

/-- The text. -/
def erase : Marked α → String
  | [] => ""
  | p :: m => p.text ++ erase m

/-- Each mark with what is written for it. -/
def marks (m : Marked α) : List (α × String) := m.flatMap Piece.marks

/-- `slice::join`. -/
def join (sep : String) : List (Marked α) → Marked α
  | [] => []
  | [m] => m
  | m :: m' :: rest => m ++ plain sep ++ join sep (m' :: rest)

@[simp] theorem erase_nil : erase ([] : Marked α) = "" := rfl

@[simp] theorem erase_plain (s : String) : erase (plain s : Marked α) = s := String.append_empty

@[simp] theorem erase_mark (a : α) (s : String) : erase (mark a s) = s := String.append_empty

@[simp] theorem erase_append (m m' : Marked α) : erase (m ++ m') = erase m ++ erase m' := by
  induction m with
  | nil => exact String.empty_append.symm
  | cons p m ih =>
      show p.text ++ erase (m ++ m') = p.text ++ erase m ++ erase m'
      rw [ih, String.append_assoc]

theorem erase_join (sep : String) : ∀ ms : List (Marked α),
    erase (join sep ms) = Text.join sep (ms.map erase)
  | [] => String.intercalate_nil.symm
  | [m] => String.intercalate_singleton.symm
  | m :: m' :: rest => by
      have ih := erase_join sep (m' :: rest)
      unfold Text.join at ih ⊢
      rw [join, erase_append, erase_append, erase_plain, ih]
      exact String.intercalate_cons_cons.symm

theorem marks_append (m m' : Marked α) : marks (m ++ m') = marks m ++ marks m' :=
  List.flatMap_append

/-! ## A property of all marks -/

def AllMarks (P : α × String → Prop) (m : Marked α) : Prop := ∀ y ∈ m.marks, P y

variable {P : α × String → Prop}

@[simp] theorem allMarks_nil : AllMarks P [] ↔ True := by simp [AllMarks, marks]

@[simp] theorem allMarks_plain (s : String) : AllMarks P (plain s) ↔ True := by
  simp [AllMarks, marks, plain, Piece.marks]

@[simp] theorem allMarks_mark (a : α) (s : String) : AllMarks P (mark a s) ↔ P (a, s) := by
  simp [AllMarks, marks, mark, Piece.marks]

@[simp] theorem allMarks_append (m m' : Marked α) :
    AllMarks P (m ++ m') ↔ AllMarks P m ∧ AllMarks P m' := by
  unfold AllMarks
  rw [marks_append]
  exact List.forall_mem_append

@[simp] theorem allMarks_flatMap {β : Type*} (l : List β) (f : β → Marked α) :
    AllMarks P (l.flatMap f) ↔ ∀ x ∈ l, AllMarks P (f x) := by
  induction l with
  | nil => simp
  | cons x l ih => rw [List.flatMap_cons, allMarks_append, ih, List.forall_mem_cons]

@[simp] theorem allMarks_join (sep : String) : ∀ ms : List (Marked α),
    AllMarks P (join sep ms) ↔ ∀ m ∈ ms, AllMarks P m
  | [] => by simp [join]
  | [m] => by simp [join]
  | m :: m' :: rest => by
      rw [join, allMarks_append, allMarks_append, allMarks_plain, and_true,
        allMarks_join sep (m' :: rest), ← List.forall_mem_cons]

end Marked

end SpecForge.Lib
