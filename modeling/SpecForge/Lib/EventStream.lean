import Mathlib.Data.List.Basic
import Mathlib.Data.List.Infix
import SpecForge.Lib.Infix

/-!
# Event streams

A text of lines, `name: value` each, in which a blank line ends an event. A text is the
list of its characters; a line ends in a line feed, with or without a carriage return
before it.

- §1 lines; §2 what a line adds to the event under way; §3 the events of a text; §4 reading
  several events as if they were one; §5 reading line by line.
-/

namespace SpecForge.Lib.EventStream

abbrev Text := List Char

/-! ## §1  Lines -/

def stripCr (l : Text) : Text := if l.getLast? = some '\r' then l.dropLast else l

def lines (t : Text) : List Text := (t.splitOn '\n').map stripCr

/-- The lines that a line feed ends. -/
def terminated (t : Text) : List Text := (t.splitOn '\n').dropLast.map stripCr

/-- What stands behind the last line feed. -/
def remainder (t : Text) : Text := (t.splitOn '\n').getLast (List.splitOn_ne_nil '\n' t)

/-- What stands before and after the first occurrence of a separator. -/
def splitFirst (sep : Text) : Text → Option (Text × Text)
  | [] => none
  | c :: t =>
      if sep.isPrefixOf (c :: t) then some ([], (c :: t).drop sep.length)
      else (splitFirst sep t).map fun (before, after) => (c :: before, after)

theorem stripCr_concat (l : Text) : stripCr (l ++ ['\r']) = l := by
  rw [stripCr, List.getLast?_concat, if_pos rfl, List.dropLast_concat]

theorem stripCr_of_getLast? {l : Text} (h : l.getLast? ≠ some '\r') : stripCr l = l :=
  if_neg h

theorem lines_append (t u : Text) : lines (t ++ '\n' :: u) = lines t ++ lines u := by
  rw [lines, List.splitOn_append_cons_self, List.map_append]
  rfl

theorem lines_of_notMem {t : Text} (h : '\n' ∉ t) : lines t = [stripCr t] := by
  rw [lines, List.splitOn_eq_singleton h]
  rfl

theorem lines_eq_concat (t : Text) : lines t = terminated t ++ [stripCr (remainder t)] := by
  have hparts := List.dropLast_append_getLast (List.splitOn_ne_nil '\n' t)
  rw [lines, ← hparts, List.map_append]
  rfl

/-- A text is one line that nothing ends, or its first line and a text. -/
theorem line_induction {P : Text → Prop} (last : ∀ l, '\n' ∉ l → P l)
    (line : ∀ l t, '\n' ∉ l → P t → P (l ++ '\n' :: t)) (t : Text) : P t := by
  induction hn : t.length using Nat.strong_induction_on generalizing t with
  | _ n ih =>
      by_cases h : '\n' ∈ t
      · obtain ⟨l, u, rfl, hl⟩ := List.eq_append_cons_of_mem h
        have hlt : u.length < n := by
          rw [← hn, List.length_append, List.length_cons]
          omega
        exact line l u hl (ih u.length hlt u rfl)
      · exact last t h

theorem terminated_of_notMem {t : Text} (h : '\n' ∉ t) : terminated t = [] := by
  rw [terminated, List.splitOn_eq_singleton h]
  rfl

theorem remainder_of_notMem {t : Text} (h : '\n' ∉ t) : remainder t = t := by
  simp [remainder, List.splitOn_eq_singleton h]

theorem terminated_line {l : Text} (hl : '\n' ∉ l) (t : Text) :
    terminated (l ++ '\n' :: t) = stripCr l :: terminated t := by
  rw [terminated, List.splitOn_append_cons_self_of_not_mem hl,
    List.dropLast_cons_of_ne_nil (List.splitOn_ne_nil '\n' t)]
  rfl

theorem remainder_line {l : Text} (hl : '\n' ∉ l) (t : Text) :
    remainder (l ++ '\n' :: t) = remainder t := by
  simp only [remainder, List.splitOn_append_cons_self_of_not_mem hl]
  exact List.getLast_cons (List.splitOn_ne_nil '\n' t)

theorem notMem_remainder (t : Text) : '\n' ∉ remainder t := by
  induction t using line_induction with
  | last t ht =>
      rw [remainder_of_notMem ht]
      exact ht
  | line l t hl ih =>
      rw [remainder_line hl]
      exact ih

/-- What nothing ended goes on with the text that follows. -/
theorem terminated_append (t u : Text) :
    terminated (t ++ u) = terminated t ++ terminated (remainder t ++ u) := by
  induction t using line_induction with
  | last t ht =>
      rw [terminated_of_notMem ht, remainder_of_notMem ht]
      rfl
  | line l t hl ih =>
      rw [List.append_assoc, List.cons_append, terminated_line hl, terminated_line hl,
        remainder_line hl, ih]
      rfl

theorem remainder_append (t u : Text) : remainder (t ++ u) = remainder (remainder t ++ u) := by
  induction t using line_induction with
  | last t ht => rw [remainder_of_notMem ht]
  | line l t hl ih =>
      rw [List.append_assoc, List.cons_append, remainder_line hl, remainder_line hl, ih]

/-- A line that something follows is followed by a line feed. -/
theorem infix_of_mem_dropLast (t : Text) :
    ∀ l ∈ (t.splitOn '\n').dropLast, l ++ ['\n'] <:+: t := by
  induction t using line_induction with
  | last t ht =>
      rw [List.splitOn_eq_singleton ht]
      exact fun l hl => absurd hl List.not_mem_nil
  | line m u hm ih =>
      rw [List.splitOn_append_cons_self_of_not_mem hm,
        List.dropLast_cons_of_ne_nil (List.splitOn_ne_nil '\n' u), List.forall_mem_cons]
      constructor
      · exact ⟨[], u, by simp⟩
      · intro l hl
        exact (ih l hl).trans (List.IsSuffix.isInfix ⟨m ++ ['\n'], by simp⟩)

theorem eq_of_splitFirst {sep : Text} : ∀ {t before after : Text},
    splitFirst sep t = some (before, after) → t = before ++ sep ++ after
  | c :: t, before, after, h => by
      rw [splitFirst] at h
      split at h
      · next hpre =>
          obtain ⟨r, hr⟩ := List.isPrefixOf_iff_prefix.mp hpre
          obtain ⟨rfl, rfl⟩ := Prod.mk.inj (Option.some.inj h)
          rw [← hr, List.drop_left, List.nil_append]
      · obtain ⟨⟨b, a⟩, hba, heq⟩ := Option.map_eq_some_iff.mp h
        obtain ⟨rfl, rfl⟩ := Prod.mk.inj heq
        rw [eq_of_splitFirst hba]
        rfl

/-! ## §2  The event under way -/

def messageName : Text := "message".toList

structure Event (ι : Type) where
  event : Text
  data : Text
  id : ι
deriving DecidableEq

def Event.mapId {ι κ : Type} (f : ι → κ) (e : Event ι) : Event κ :=
  { event := e.event, data := e.data, id := f e.id }

/-- What the lines since the last blank one have said. -/
structure Pending where
  event : Text := messageName
  data : List Text := []
  id : Option Text := none
deriving DecidableEq

/-- A value without the one blank that may stand before it. -/
def dropBlank : Text → Text
  | ' ' :: v => v
  | v => v

/-- `name: value`; without a colon the whole line is the name. -/
def fieldOf (l : Text) : Text × Text :=
  (l.takeWhile (· != ':'), dropBlank (l.dropWhile (· != ':')).tail)

/-- One line: a blank line and a comment say nothing, nor does a field of another name. -/
def Pending.read (p : Pending) (l : Text) : Pending :=
  if l = [] ∨ l.head? = some ':' then p
  else
    let (field, value) := fieldOf l
    if field = "event".toList then { p with event := value }
    else if field = "data".toList then { p with data := p.data ++ [value] }
    else if field = "id".toList then { p with id := some value }
    else p

theorem read_nil (p : Pending) : p.read [] = p := rfl

def Pending.event? (p : Pending) : Option (Event (Option Text)) :=
  if p.data = [] ∧ p.event = messageName then none
  else some { event := p.event, data := ['\n'].intercalate p.data, id := p.id }

def readAll (ls : List Text) : Pending := ls.foldl Pending.read {}

/-- The value that a line gives to a field. -/
def valueIn (name : Text) (l : Text) : Option Text :=
  if l = [] ∨ l.head? = some ':' then none
  else if (fieldOf l).1 = name then some (fieldOf l).2 else none

def given (name : Text) (ls : List Text) : List Text := ls.filterMap (valueIn name)

theorem given_append (name : Text) (ls ms : List Text) :
    given name (ls ++ ms) = given name ls ++ given name ms :=
  List.filterMap_append

theorem given_concat (name : Text) (ls : List Text) (l : Text) :
    given name (ls ++ [l]) = given name ls ++ (valueIn name l).toList := by
  rw [given_append]
  simp only [given, List.filterMap_cons, List.filterMap_nil]
  cases valueIn name l <;> rfl

theorem getLast?_append_toList {α : Type} (xs : List α) (x : Option α) :
    (xs ++ x.toList).getLast? = x.or xs.getLast? := by
  cases x with
  | none => simp
  | some x => simp

theorem read_eq (p : Pending) (l : Text) :
    p.read l =
      { event := (valueIn "event".toList l).getD p.event
        data := p.data ++ (valueIn "data".toList l).toList
        id := (valueIn "id".toList l).or p.id } := by
  by_cases hl : l = [] ∨ l.head? = some ':'
  · simp [Pending.read, valueIn, hl]
  · simp only [Pending.read, valueIn, if_neg hl]
    generalize fieldOf l = fv
    obtain ⟨field, value⟩ := fv
    by_cases hevent : field = "event".toList
    · subst hevent
      simp
    by_cases hdata : field = "data".toList
    · subst hdata
      simp
    by_cases hid : field = "id".toList
    · subst hid
      simp
    · rw [if_neg hevent, if_neg hdata, if_neg hid, if_neg hevent, if_neg hdata, if_neg hid]
      simp

/-- **What a block of lines says**: the last name, all of the data, the last id. -/
theorem readAll_eq (ls : List Text) :
    readAll ls =
      { event := (given "event".toList ls).getLast?.getD messageName
        data := given "data".toList ls
        id := (given "id".toList ls).getLast? } := by
  induction ls using List.reverseRecOn with
  | nil => rfl
  | append_singleton ls l ih =>
      rw [readAll, List.foldl_concat, ← readAll, ih, read_eq, given_concat, given_concat,
        given_concat, getLast?_append_toList, getLast?_append_toList]
      cases valueIn "event".toList l <;> rfl

/-! ## §3  The events of a text -/

/-- The lines between blank ones. -/
def parts (ls : List Text) : List (List Text) := ls.splitOnP List.isEmpty

def events (ls : List Text) : List (Event (Option Text)) :=
  (parts ls).filterMap fun part => (readAll part).event?

/-- A blank line closes what is under way. -/
theorem events_append_blank (xs ys : List Text) :
    events (xs ++ [] :: ys) = events xs ++ events ys := by
  have hblank : List.isEmpty ([] : Text) = true := rfl
  rw [events, parts, List.splitOnP_append_cons xs ys hblank, List.filterMap_append]
  rfl

theorem events_nil : events [] = [] := rfl

theorem events_concat_blank (xs : List Text) : events (xs ++ [[]]) = events xs := by
  rw [events_append_blank, events_nil, List.append_nil]

/-- Blank lines say nothing. -/
theorem flatMap_parts (name : Text) (ls : List Text) :
    (parts ls).flatMap (given name) = given name ls := by
  induction ls with
  | nil => rfl
  | cons l ls ih =>
      rw [parts, List.splitOnP_cons_eq_if_modifyHead]
      rw [parts] at ih
      have hcons : given name (l :: ls) = (valueIn name l).toList ++ given name ls := by
        simp only [given, List.filterMap_cons]
        cases valueIn name l <;> rfl
      split
      · next hblank =>
          have hl : l = [] := List.isEmpty_iff.mp hblank
          rw [List.flatMap_cons, ih, hcons, hl]
          rfl
      · obtain ⟨part, rest, hparts⟩ :=
          List.exists_cons_of_ne_nil (List.splitOnP_ne_nil List.isEmpty ls)
        rw [hparts, List.flatMap_cons] at ih
        rw [hparts, List.modifyHead_cons, List.flatMap_cons, hcons, ← ih, ← List.append_assoc]
        congr 1
        simp only [given, List.filterMap_cons]
        cases valueIn name l <;> rfl

/-! ## §4  Several events read as one -/

theorem event?_eq_some_iff {p : Pending} {e : Event (Option Text)} :
    p.event? = some e ↔ ¬(p.data = [] ∧ p.event = messageName) ∧
      e = { event := p.event, data := ['\n'].intercalate p.data, id := p.id } := by
  rw [Pending.event?]
  split
  · next h => exact ⟨fun hn => absurd hn.symm (by simp), fun hs => absurd h hs.1⟩
  · next h => exact ⟨fun he => ⟨h, (Option.some.inj he).symm⟩, fun hs => congrArg some hs.2.symm⟩

theorem event?_eq_none_iff {p : Pending} :
    p.event? = none ↔ p.data = [] ∧ p.event = messageName := by
  rw [Pending.event?]
  split <;> simp_all

/-- The last name of a block is one that some part of it ends with. -/
theorem exists_part_of_name {ls : List Text} {v : Text}
    (h : (given "event".toList ls).getLast? = some v) :
    ∃ part ∈ parts ls, (given "event".toList part).getLast? = some v := by
  rw [← flatMap_parts, List.getLast?_flatMap] at h
  obtain ⟨part, hpart, hv⟩ := List.exists_of_findSome?_eq_some h
  exact ⟨part, List.mem_reverse.mp hpart, hv⟩

theorem data_eq_nil_of_silent {ls : List Text} (h : (readAll ls).event? = none) :
    given "data".toList ls = [] := by
  have hdata := (event?_eq_none_iff.mp h).1
  rwa [readAll_eq] at hdata

/-- Where no part is an event, the block is none. -/
theorem event?_eq_none_of_events {ls : List Text} (h : events ls = []) :
    (readAll ls).event? = none := by
  have hsilent := List.filterMap_eq_nil_iff.mp h
  rw [event?_eq_none_iff, readAll_eq]
  constructor
  · show given "data".toList ls = []
    rw [← flatMap_parts]
    exact List.flatMap_eq_nil_iff.mpr fun part hpart => data_eq_nil_of_silent (hsilent part hpart)
  · show (given "event".toList ls).getLast?.getD messageName = messageName
    cases hlast : (given "event".toList ls).getLast? with
    | none => rfl
    | some v =>
        obtain ⟨part, hpart, hv⟩ := exists_part_of_name hlast
        have hname := (event?_eq_none_iff.mp (hsilent part hpart)).2
        rw [readAll_eq, hv] at hname
        exact hname

/-- A block read as one event has one in it. -/
theorem length_event?_le (ls : List Text) :
    (readAll ls).event?.toList.length ≤ (events ls).length := by
  cases hev : events ls with
  | nil => rw [event?_eq_none_of_events hev]; simp
  | cons e es => cases (readAll ls).event? <;> simp

/-- The data of a block with one event is that event's. -/
theorem data_of_events_eq_singleton {ls : List Text} {e : Event (Option Text)}
    (h : events ls = [e]) :
    ∃ part, (readAll part).event? = some e ∧ given "data".toList ls = given "data".toList part := by
  obtain ⟨before, part, after, hparts, hbefore, hpart, hafter⟩ :=
    List.filterMap_eq_cons_iff.mp h
  refine ⟨part, hpart, ?_⟩
  have hnil : ∀ l : List (List Text), (∀ x ∈ l, (readAll x).event? = none) →
      l.flatMap (given "data".toList) = [] := fun l hl =>
    List.flatMap_eq_nil_iff.mpr fun x hx => data_eq_nil_of_silent (hl x hx)
  rw [← flatMap_parts, hparts, List.flatMap_append, List.flatMap_cons, hnil before hbefore,
    hnil after (List.filterMap_eq_nil_iff.mp hafter), List.nil_append, List.append_nil]

/-- At most one event, and no other part of the block renames it or gives it an id. Ids
are compared by `f`. -/
def Single {κ : Type} (f : Option Text → κ) (ls : List Text) : Prop :=
  (events ls).length ≤ 1 ∧
    ∀ e ∈ events ls, e.event = (readAll ls).event ∧ f e.id = f (readAll ls).id

instance {κ : Type} [DecidableEq κ] (f : Option Text → κ) (ls : List Text) :
    Decidable (Single f ls) :=
  inferInstanceAs (Decidable (_ ∧ _))

/-- **A block may be read as one event exactly where it is a single one.** -/
theorem event?_eq_events_iff {κ : Type} {f : Option Text → κ} {ls : List Text} :
    (readAll ls).event?.toList.map (Event.mapId f) = (events ls).map (Event.mapId f) ↔
      Single f ls := by
  constructor
  · intro h
    have hlen := congrArg List.length h
    rw [List.length_map, List.length_map] at hlen
    constructor
    · rw [← hlen]
      cases (readAll ls).event? <;> simp
    · intro e he
      have hmem : e.mapId f ∈ (readAll ls).event?.toList.map (Event.mapId f) := by
        rw [h]
        exact List.mem_map_of_mem he
      obtain ⟨m, hm, heq⟩ := List.mem_map.mp hmem
      obtain ⟨-, rfl⟩ := event?_eq_some_iff.mp (Option.mem_toList.mp hm)
      exact ⟨(congrArg Event.event heq).symm, (congrArg Event.id heq).symm⟩
  · rintro ⟨hle, hsame⟩
    rcases hev : events ls with _ | ⟨e, _ | ⟨e', es⟩⟩
    · rw [event?_eq_none_of_events hev]
      rfl
    · obtain ⟨hname, hid⟩ := hsame e (by rw [hev]; exact List.mem_cons_self)
      obtain ⟨part, hpart, hgiven⟩ := data_of_events_eq_singleton hev
      obtain ⟨hspeaks, rfl⟩ := event?_eq_some_iff.mp hpart
      have hdata : (readAll part).data = (readAll ls).data := by
        rw [readAll_eq, readAll_eq ls]
        exact hgiven.symm
      dsimp only at hname hid
      have hall := event?_eq_some_iff.mpr ⟨hdata ▸ hname ▸ hspeaks, rfl⟩
      rw [hall, hname, hdata]
      simp only [Option.toList_some, List.map_cons, List.map_nil, Event.mapId, hid]
    · rw [hev] at hle
      simp at hle

/-- **A text cut into blocks of lines is read rightly, each block as one event, exactly
where every block is a single one.** -/
theorem flatMap_event?_eq_iff {κ β : Type} {f : Option Text → κ} {ls : β → List Text}
    {blocks : List β} :
    ((blocks.flatMap fun b => (readAll (ls b)).event?.toList).map (Event.mapId f) =
      (blocks.flatMap fun b => events (ls b)).map (Event.mapId f)) ↔
      ∀ b ∈ blocks, Single f (ls b) := by
  rw [List.map_flatMap, List.map_flatMap]
  constructor
  · intro h b hb
    refine event?_eq_events_iff.mp ?_
    refine (Infix.eq_parts_of_flatMap_eq ?_ h.symm b hb).symm
    intro x _
    rw [List.length_map, List.length_map]
    exact length_event?_le (ls x)
  · intro h
    exact List.flatMap_congr fun b hb => event?_eq_events_iff.mpr (h b hb)

/-! ## §5  Line by line -/

/-- A blank line hands out the event under way, if there is one. -/
def Pending.next (p : Pending) (l : Text) : Option (Event (Option Text)) × Pending :=
  if l = [] then (p.event?, {}) else (none, p.read l)

/-- The events that blank lines have ended, and what is under way then. -/
def run (p : Pending) : List Text → List (Event (Option Text)) × Pending
  | [] => ([], p)
  | l :: ls =>
      let (ev, p') := p.next l
      let (evs, q) := run p' ls
      (ev.toList ++ evs, q)

theorem run_cons_blank (p : Pending) (ls : List Text) :
    run p ([] :: ls) = (p.event?.toList ++ (run {} ls).1, (run {} ls).2) := rfl

theorem run_cons_line (p : Pending) {l : Text} (hl : l ≠ []) (ls : List Text) :
    run p (l :: ls) = run (p.read l) ls := by
  simp [run, Pending.next, hl]

theorem run_concat_line (p : Pending) (ls : List Text) {l : Text} (hl : l ≠ []) :
    run p (ls ++ [l]) = ((run p ls).1, (run p ls).2.read l) := by
  induction ls generalizing p with
  | nil => rw [List.nil_append, run_cons_line p hl]; rfl
  | cons m ls ih => simp [run, ih]

theorem run_flush_parts {ls : List Text} {part : List Text} {rest : List (List Text)} (p : Pending)
    (h : parts ls = part :: rest) :
    (run p ls).1 ++ (run p ls).2.event?.toList =
      (part.foldl Pending.read p).event?.toList ++
        rest.filterMap fun part => (readAll part).event? := by
  induction ls generalizing p part rest with
  | nil =>
      obtain ⟨rfl, rfl⟩ := List.cons.inj h
      exact (List.append_nil _).symm
  | cons l ls ih =>
      obtain ⟨first, others, hparts⟩ :=
        List.exists_cons_of_ne_nil (List.splitOnP_ne_nil List.isEmpty ls)
      rw [parts, List.splitOnP_cons_eq_if_modifyHead, hparts] at h
      by_cases hl : l = []
      · subst hl
        obtain ⟨rfl, rfl⟩ := List.cons.inj h
        rw [run_cons_blank, List.append_assoc, ih {} hparts, List.filterMap_cons]
        show _ = p.event?.toList ++ _
        rw [← readAll]
        cases (readAll first).event? <;> rfl
      · have hblank : l.isEmpty = false := by simpa using hl
        rw [hblank, if_neg Bool.false_ne_true] at h
        obtain ⟨rfl, rfl⟩ := List.cons.inj h
        rw [run_cons_line p hl, ih (p.read l) hparts]
        rfl

/-- **Reading line by line finds the events of the lines**, the last one unfinished. -/
theorem events_eq_run (ls : List Text) :
    events ls = (run {} ls).1 ++ (run {} ls).2.event?.toList := by
  obtain ⟨part, rest, hparts⟩ :=
    List.exists_cons_of_ne_nil (List.splitOnP_ne_nil List.isEmpty ls)
  rw [run_flush_parts {} hparts, events, parts, hparts, List.filterMap_cons, ← readAll]
  cases (readAll part).event? <;> rfl

/-- What is under way at the end of a text. -/
def unfinished (t : Text) : Pending := (run {} (terminated t)).2.read (stripCr (remainder t))

theorem events_lines (t : Text) :
    events (lines t) = (run {} (terminated t)).1 ++ (unfinished t).event?.toList := by
  rw [lines_eq_concat, unfinished]
  by_cases hlast : stripCr (remainder t) = []
  · rw [hlast, events_concat_blank, events_eq_run, read_nil]
  · rw [events_eq_run, run_concat_line {} _ hlast]

end SpecForge.Lib.EventStream
