import SpecForge.Core.DiffChanges
import SpecForge.Lib.Affixes

/-!
# Reading a finding back

Every message is the tag of its kind of change and then its subject
(`Change.message_finding`), and the tags are told apart by their beginnings
(`tags_apart`). So a program that looks at how a message starts learns the kind of
change and what it is about: `Change.of_message`.
-/

namespace SpecForge

open Lib.Text

/-! ## §1  Messages -/

/-- The words a message of this kind starts with. -/
def Change.tag : Change → String
  | irVersion _ _ => "IR version changed: "
  | operationRemoved _ => "operation removed: "
  | operationAdded _ => "operation added: "
  | operation _ (.newRequiredParameter _) => "new required parameter: "
  | operation _ (.parameterRemoved _) => "parameter removed: "
  | operation _ .newRequiredRequestBody => "new required request body"
  | operation _ (.responseRemoved _) => "response removed: "
  | schemaRemoved _ => "schema removed: "
  | schemaAdded _ => "schema added: "
  | property _ ⟨_, .added _⟩ => "new optional property: "
  | property _ ⟨_, .addedRequired _⟩ => "new required property: "
  | property _ ⟨_, .removed _⟩ => "property removed: "
  | property _ ⟨_, .typeChanged _ _⟩ => "type changed for property: "
  | property _ ⟨_, .requiredChanged _ _⟩ => "required changed for property: "

def tags : List String :=
  ["IR version changed: ", "operation removed: ", "operation added: ",
    "new required parameter: ", "parameter removed: ", "new required request body",
    "response removed: ", "schema removed: ", "schema added: ", "new optional property: ",
    "new required property: ", "property removed: ", "type changed for property: ",
    "required changed for property: "]

theorem Change.tag_mem (c : Change) : c.tag ∈ tags := by
  unfold tags
  cases c with
  | operation id c => cases c <;> simp [tag]
  | property n c =>
      obtain ⟨p, change⟩ := c
      cases change <;> simp [tag]
  | _ => simp [tag]

theorem tags_apart : ∀ s ∈ tags, ∀ t ∈ tags, s ≠ t → Apart s t := by
  have hbytes : ∀ s ∈ tags, ∀ t ∈ tags, s ≠ t → ¬ Lib.Utf8.bytes s <+: Lib.Utf8.bytes t := by
    decide +kernel
  exact fun s hs t ht hne => Apart.of_bytes (hbytes s hs t ht hne) (hbytes t ht s hs hne.symm)

/-- What follows the tag, where that is the name the change is about. -/
def Change.subject : Change → String
  | irVersion old new =>
      if irMajorVersion old ≠ irMajorVersion new then
        old ++ " → " ++ new ++ " (major version bump indicates breaking IR schema changes)"
      else old ++ " → " ++ new
  | operationRemoved id => id
  | operationAdded id => id
  | operation _ (.newRequiredParameter name) => name
  | operation _ (.parameterRemoved name) => name
  | operation _ .newRequiredRequestBody => ""
  | operation _ (.responseRemoved status) => status
  | schemaRemoved name => name
  | schemaAdded name => name
  | property _ ⟨p, .requiredChanged old new⟩ =>
      p ++ " (" ++ requiredWord old ++ " → " ++ requiredWord new ++ ")"
  | property _ ⟨p, _⟩ => p

theorem Change.message_finding (c : Change) : c.finding.message = c.tag ++ c.subject := by
  cases c with
  | irVersion old new =>
      unfold Change.finding irVersionFinding Change.tag Change.subject
      by_cases h : irMajorVersion old ≠ irMajorVersion new
      · simp only [if_pos h, String.append_assoc]
      · simp only [if_neg h, String.append_assoc]
  | operation id c =>
      cases c with
      | newRequiredRequestBody => exact String.append_empty.symm
      | _ => rfl
  | property n c =>
      obtain ⟨p, change⟩ := c
      cases change with
      | requiredChanged old new =>
          show "required changed for property: " ++ p ++ " (" ++ requiredWord old ++ " → "
            ++ requiredWord new ++ ")" = "required changed for property: "
              ++ (p ++ " (" ++ requiredWord old ++ " → " ++ requiredWord new ++ ")")
          simp only [String.append_assoc]
      | _ => rfl
  | _ => rfl

/-- **A message tells its kind and its subject.** -/
theorem Change.of_message {c : Change} {tag subject : String} (htag : tag ∈ tags)
    (h : c.finding.message = tag ++ subject) : c.tag = tag ∧ c.subject = subject := by
  rw [c.message_finding] at h
  -- two tags that both start a message are one
  by_cases heq : c.tag = tag
  · rw [heq] at h
    exact ⟨heq, append_inj_left h⟩
  · exact absurd h ((tags_apart _ c.tag_mem _ htag heq).append_ne _ _)

theorem Change.startsWith_message {c : Change} {tag : String} (htag : tag ∈ tags) :
    startsWith tag c.finding.message = true ↔ c.tag = tag := by
  constructor
  · intro h
    obtain ⟨r, hr⟩ := startsWith_iff.mp h
    exact (Change.of_message htag hr).1
  · rintro rfl
    rw [c.message_finding]
    exact startsWith_append _ _

/-- The kinds of change that are about a whole operation or schema. -/
inductive NamedChange where
  | operationRemoved
  | operationAdded
  | schemaRemoved
  | schemaAdded

namespace NamedChange

def tag : NamedChange → String
  | operationRemoved => "operation removed: "
  | operationAdded => "operation added: "
  | schemaRemoved => "schema removed: "
  | schemaAdded => "schema added: "

def change : NamedChange → String → Change
  | operationRemoved => .operationRemoved
  | operationAdded => .operationAdded
  | schemaRemoved => .schemaRemoved
  | schemaAdded => .schemaAdded

theorem tag_mem (k : NamedChange) : k.tag ∈ tags := by
  cases k <;> decide

theorem eq_change_of_tag {k : NamedChange} {c : Change} (h : c.tag = k.tag) :
    c = k.change c.subject := by
  cases c with
  | operation id c => cases c <;> cases k <;> simp [Change.tag, tag] at h
  | property n c =>
      obtain ⟨p, change⟩ := c
      cases change <;> cases k <;> simp [Change.tag, tag] at h
  | irVersion old new => cases k <;> simp [Change.tag, tag] at h
  | operationRemoved id => cases k <;> first | rfl | simp [Change.tag, tag] at h
  | operationAdded id => cases k <;> first | rfl | simp [Change.tag, tag] at h
  | schemaRemoved n => cases k <;> first | rfl | simp [Change.tag, tag] at h
  | schemaAdded n => cases k <;> first | rfl | simp [Change.tag, tag] at h

/-- No other message starts with the tag. -/
theorem startsWith_eq_false {k : NamedChange} {c : Change}
    (h : ∀ name, c ≠ k.change name) : startsWith k.tag c.finding.message = false := by
  rw [Bool.eq_false_iff]
  intro hstarts
  exact h c.subject (eq_change_of_tag ((Change.startsWith_message k.tag_mem).mp hstarts))

/-- Only a change of the kind has its message. -/
theorem message_iff {k : NamedChange} {c : Change} {name : String} :
    c.finding.message = k.tag ++ name ↔ c = k.change name := by
  constructor
  · intro h
    obtain ⟨htag, hsubject⟩ := Change.of_message k.tag_mem h
    rw [← hsubject]
    exact eq_change_of_tag htag
  · rintro rfl
    cases k <;> rfl

end NamedChange

/-! ## §2  Severities and paths -/

/-- A property change that breaks clients. -/
def PropertyChangeKind.breaking : PropertyChangeKind → Bool
  | .added _ => false
  | .requiredChanged _ newRequired => newRequired
  | _ => true

theorem PropertyChange.severity_finding (path : String) (c : PropertyChange) :
    (c.finding path).severity = .breaking ↔ c.change.breaking = true := by
  obtain ⟨p, change⟩ := c
  cases change with
  | requiredChanged old new => cases new <;> simp [finding, PropertyChangeKind.breaking]
  | _ => simp [finding, PropertyChangeKind.breaking]

theorem PropertyChange.path_finding (path : String) (c : PropertyChange) :
    (c.finding path).path = path ++ "." ++ c.property := by
  obtain ⟨p, change⟩ := c
  cases change <;> rfl

theorem OpChange.severity_finding (path : String) (c : OpChange) :
    (c.finding path).severity = .breaking := by
  cases c <;> rfl

/-- The findings of an operation lie below its path. -/
theorem OpChange.path_finding (path : String) (c : OpChange) :
    ∃ rest, (c.finding path).path = path ++ "." ++ rest := by
  -- each literal is split behind the dot that ends the operation's own path
  cases c with
  | newRequiredParameter name =>
      have hsplit : ".params." = "." ++ "params." := by decide
      exact ⟨"params." ++ name, append_split hsplit path name⟩
  | parameterRemoved name =>
      have hsplit : ".params." = "." ++ "params." := by decide
      exact ⟨"params." ++ name, append_split hsplit path name⟩
  | newRequiredRequestBody =>
      have hsplit : ".requestBody" = "." ++ "requestBody" := by decide
      refine ⟨"requestBody", ?_⟩
      show path ++ ".requestBody" = _
      rw [hsplit, String.append_assoc]
  | responseRemoved status =>
      have hsplit : ".responses." = "." ++ "responses." := by decide
      exact ⟨"responses." ++ status, append_split hsplit path status⟩

theorem path_irVersionFinding (old new : String) :
    (irVersionFinding old new).path = "ir_version" ++ "" := by
  unfold irVersionFinding
  split <;> rfl

theorem path_operation_change (c : Change) (hid : c.operationId?.isSome) :
    ∃ s, c.finding.path = "operations." ++ s := by
  cases c with
  | operationRemoved id => exact ⟨id, rfl⟩
  | operationAdded id => exact ⟨id, rfl⟩
  | operation id c =>
      obtain ⟨rest, hrest⟩ := c.path_finding ("operations." ++ id)
      refine ⟨id ++ ("." ++ rest), ?_⟩
      rw [Change.finding, hrest, String.append_assoc, String.append_assoc]
  | _ => exact absurd hid (by simp [Change.operationId?])

theorem path_property (m : String) (c : PropertyChange) :
    (Change.property m c).finding.path = "schemas." ++ (m ++ "." ++ c.property) := by
  rw [Change.finding, PropertyChange.path_finding, String.append_assoc, String.append_assoc,
    String.append_assoc]

end SpecForge
