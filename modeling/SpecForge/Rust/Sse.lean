import SpecForge.Lib.EventStream
import SpecForge.Lib.Fuel
import SpecForge.Lib.Utf8

/-!
# The event stream of the Rust client (`emit_streaming`)

`SseStream` collects chunks in a text buffer and cuts blocks out of it, each up to a blank
line. Three things can go wrong on the way: a chunk is decoded by itself, so a character that
two chunks share is lost; after a block without an event the loop waits for a chunk before it
cuts again; and at the end of the stream what is left is one block, whatever blank lines it has.

- §1 the client; §2 the blocks it cuts; §3 what it delivers; §4 when that is right.
-/

namespace SpecForge.Rust

open Lib Lib.EventStream

/-! ## §1  The client -/

/-- `ServerSentEvent`. -/
abbrev ServerSentEvent := Event (Option Text)

/-- `str::lines`: a carriage return at the end of a text is no part of a line ending. -/
def strLines (t : Text) : List Text :=
  let ls := t.splitOn '\n'
  ls.dropLast.map stripCr ++ (ls.getLast?.filter (· ≠ [])).toList

/-- `char::is_whitespace`. -/
def isWhitespace (c : Char) : Bool :=
  let n := c.toNat
  (9 ≤ n && n ≤ 13) || n == 0x20 || n == 0x85 || n == 0xA0 || n == 0x1680 ||
    (0x2000 ≤ n && n ≤ 0x200A) || n == 0x2028 || n == 0x2029 || n == 0x202F || n == 0x205F ||
    n == 0x3000

def parseSseBlock (block : Text) : Option ServerSentEvent :=
  ((strLines block).foldl (fun (p : Pending) line => p.read (stripCr line)) {}).event?

/-- The searches of `drain_one`: a blank line after a bare line feed first, wherever it is. -/
def cut (buffer : Text) : Option (Text × Text) :=
  (splitFirst ['\n', '\n'] buffer).or (splitFirst ['\r', '\n', '\r', '\n'] buffer)

/-- `drain_one`, with the buffer it leaves. -/
def drainOne (buffer : Text) : Option ServerSentEvent × Text :=
  match cut buffer with
  | some (block, rest) => (parseSseBlock block, rest)
  | none => (none, buffer)

/-- `drain_one_force`. -/
def drainOneForce (buffer : Text) : Option ServerSentEvent × Text :=
  if buffer.all isWhitespace then (none, buffer) else (parseSseBlock buffer, [])

/-- `SseStream`; `inner` is what the body has yet to send. Nothing sets `pending`. -/
structure SseStream (ε : Type) where
  inner : List (Except ε (List UInt8))
  buffer : Text := []
  pending : Option ServerSentEvent := none
  done : Bool := false

variable {ε : Type}

def SseStream.new (inner : List (Except ε (List UInt8))) : SseStream ε := { inner := inner }

/-- The loop of `next_event`. -/
def nextLoop (buffer : Text) :
    List (Except ε (List UInt8)) → Except ε (Option ServerSentEvent) × SseStream ε
  | [] =>
      match drainOne buffer with
      | (some ev, rest) => (.ok (some ev), { inner := [], buffer := rest })
      | (none, rest) =>
          let (ev, rest') := drainOneForce rest
          (.ok ev, { inner := [], buffer := rest', done := true })
  | item :: inner =>
      match drainOne buffer with
      | (some ev, rest) => (.ok (some ev), { inner := item :: inner, buffer := rest })
      | (none, rest) =>
          match item with
          | .ok chunk => nextLoop (rest ++ Utf8.decodeLossy chunk) inner
          | .error e => (.error e, { inner := inner, buffer := rest })

def nextEvent (s : SseStream ε) : Except ε (Option ServerSentEvent) × SseStream ε :=
  match s.pending with
  | some ev => (.ok (some ev), { s with pending := none })
  | none => if s.done then (.ok none, s) else nextLoop s.buffer s.inner

/-- `next_event` until it returns `None` or fails. -/
def collect : ℕ → SseStream ε → Option (Except ε (List ServerSentEvent))
  | 0, _ => none
  | n + 1, s =>
      match nextEvent s with
      | (.ok (some ev), s') => (collect n s').map fun r => r.map (ev :: ·)
      | (.ok none, _) => some (.ok [])
      | (.error e, _) => some (.error e)

/-! ## §2  The blocks -/

theorem eq_of_cut {buffer block rest : Text} (h : cut buffer = some (block, rest)) :
    buffer = block ++ ['\n', '\n'] ++ rest ∨ buffer = block ++ ['\r', '\n', '\r', '\n'] ++ rest := by
  rw [cut] at h
  cases hlf : splitFirst ['\n', '\n'] buffer with
  | some p =>
      rw [hlf, Option.some_or] at h
      obtain rfl := Option.some.inj h
      exact Or.inl (eq_of_splitFirst hlf)
  | none =>
      rw [hlf, Option.none_or] at h
      exact Or.inr (eq_of_splitFirst h)

theorem length_rest_lt {buffer block rest : Text} (h : cut buffer = some (block, rest)) :
    rest.length < buffer.length := by
  rcases eq_of_cut h with rfl | rfl <;> simp <;> omega

/-- The blocks that are cut out of a buffer while the pieces of the text come in: the next
one right after an event, but a piece later after a block without one, and whatever is left
at the end as one block. -/
def blocks (pieces : List Text) (buffer : Text) : List Text :=
  match _h : cut buffer with
  | some (block, rest) =>
      if (parseSseBlock block).isSome then block :: blocks pieces rest
      else
        match pieces with
        | [] => [block, rest]
        | piece :: pieces => block :: blocks pieces (rest ++ piece)
  | none =>
      match pieces with
      | [] => [buffer]
      | piece :: pieces => blocks pieces (buffer ++ piece)
termination_by (pieces.length, buffer.length)
decreasing_by
  · exact Prod.Lex.right _ (length_rest_lt ‹_›)
  · exact Prod.Lex.left _ _ (Nat.lt_succ_self _)
  · exact Prod.Lex.left _ _ (Nat.lt_succ_self _)

theorem infix_of_cut {buffer block rest : Text} (h : cut buffer = some (block, rest)) :
    block <:+: buffer := by
  rcases eq_of_cut h with rfl | rfl
  · exact ⟨[], _, by simp; rfl⟩
  · exact ⟨[], _, by simp; rfl⟩

theorem suffix_of_cut {buffer block rest : Text} (h : cut buffer = some (block, rest)) (t : Text) :
    rest ++ t <:+ buffer ++ t := by
  rcases eq_of_cut h with rfl | rfl
  · exact ⟨block ++ ['\n', '\n'], by simp⟩
  · exact ⟨block ++ ['\r', '\n', '\r', '\n'], by simp⟩

theorem infix_of_mem_blocks (pieces : List Text) (buffer : Text) :
    ∀ b ∈ blocks pieces buffer, b <:+: buffer ++ pieces.flatten := by
  fun_induction blocks pieces buffer with
  | case1 pieces buffer block rest hcut hev ih =>
      rw [List.forall_mem_cons]
      exact ⟨(infix_of_cut hcut).trans (List.prefix_append _ _).isInfix,
        fun b hb => (ih b hb).trans (suffix_of_cut hcut _).isInfix⟩
  | case2 buffer block rest hcut hev =>
      have hrest := (suffix_of_cut hcut []).isInfix
      simp only [List.append_nil] at hrest
      simpa using ⟨infix_of_cut hcut, hrest⟩
  | case3 buffer block rest hcut hev piece pieces ih =>
      rw [List.forall_mem_cons]
      refine ⟨(infix_of_cut hcut).trans (List.prefix_append _ _).isInfix, fun b hb => ?_⟩
      rw [List.append_assoc] at ih
      exact (ih b hb).trans (suffix_of_cut hcut _).isInfix
  | case4 buffer hcut => simp
  | case5 buffer hcut piece pieces ih =>
      rwa [List.flatten_cons, ← List.append_assoc]

/-- No line ends in two carriage returns. -/
def OneCr (t : Text) : Prop := ¬['\r', '\r', '\n'] <:+: t

theorem OneCr.of_infix {t u : Text} (h : OneCr u) (htu : t <:+: u) : OneCr t :=
  fun ht => h (ht.trans htu)

/-- Only the first of two carriage returns is part of a line. -/
theorem stripCr_stripCr {t l : Text} (h : OneCr t) (hl : l ∈ (t.splitOn '\n').dropLast) :
    stripCr (stripCr l) = stripCr l := by
  by_cases hcr : l.getLast? = some '\r'
  · obtain ⟨m, rfl⟩ := List.getLast?_eq_some_iff.mp hcr
    rw [stripCr_concat]
    refine stripCr_of_getLast? fun hm => ?_
    obtain ⟨k, rfl⟩ := List.getLast?_eq_some_iff.mp hm
    refine h (List.IsInfix.trans ?_ (infix_of_mem_dropLast t _ hl))
    exact ⟨k, [], by simp⟩
  · rw [stripCr_of_getLast? hcr, stripCr_of_getLast? hcr]

theorem lines_concat_cr {t : Text} (h : t.getLast? ≠ some '\r') :
    lines (t ++ ['\r']) = lines t := by
  induction t using line_induction with
  | last t ht =>
      have ht' : '\n' ∉ t ++ ['\r'] := by simp [ht]
      rw [lines_of_notMem ht', lines_of_notMem ht, stripCr_concat, stripCr_of_getLast? h]
  | line l u hl ih =>
      rw [List.append_assoc, List.cons_append, lines_append, lines_append, ih]
      intro hu
      apply h
      rw [List.getLast?_append, List.getLast?_cons, hu]
      rfl

/-- The lines of a block are those of the text there. -/
theorem parseSseBlock_eq {block : Text} (h : OneCr block) :
    parseSseBlock block = (readAll (lines block)).event? := by
  have hstrip : ∀ l ∈ (block.splitOn '\n').dropLast, stripCr (stripCr l) = stripCr l :=
    fun l hl => stripCr_stripCr h hl
  rw [parseSseBlock, strLines, readAll, lines]
  obtain ⟨init, last, hls⟩ : ∃ init last, block.splitOn '\n' = init ++ [last] :=
    ⟨_, _, (List.dropLast_append_getLast (List.splitOn_ne_nil '\n' block)).symm⟩
  rw [hls, List.dropLast_concat] at hstrip
  have hinit : (init.map stripCr).map stripCr = init.map stripCr := by
    rw [List.map_map]
    exact List.map_congr_left hstrip
  have hfold : ∀ (ls : List Text) (p : Pending),
      ls.foldl (fun p line => p.read (stripCr line)) p = (ls.map stripCr).foldl Pending.read p :=
    fun ls p => List.foldl_map.symm
  rw [hls]
  simp only [List.dropLast_concat, List.getLast?_concat]
  rw [hfold, List.map_append, List.map_append, hinit, List.foldl_append, List.foldl_append]
  by_cases hlast : last = []
  · subst hlast
    rfl
  · rw [Option.filter_some_pos (by simpa using hlast)]
    rfl

/-- A blank line that ends a block is one of the text. -/
theorem events_of_cut {buffer block rest t : Text} (h : cut buffer = some (block, rest))
    (hcr : OneCr (buffer ++ t)) :
    events (lines (buffer ++ t)) = events (lines block) ++ events (lines (rest ++ t)) := by
  rcases eq_of_cut h with rfl | rfl
  · have hlines : lines (block ++ ['\n', '\n'] ++ rest ++ t) =
        lines block ++ [] :: lines (rest ++ t) := by
      rw [show block ++ ['\n', '\n'] ++ rest ++ t = block ++ '\n' :: ([] ++ '\n' :: (rest ++ t)) by
        simp, lines_append, lines_append]
      rfl
    rw [hlines, events_append_blank]
  · have hblock : block.getLast? ≠ some '\r' := by
      intro hlast
      obtain ⟨b, rfl⟩ := List.getLast?_eq_some_iff.mp hlast
      exact hcr ⟨b, ['\r', '\n'] ++ rest ++ t, by simp⟩
    have hlines : lines (block ++ ['\r', '\n', '\r', '\n'] ++ rest ++ t) =
        lines block ++ [] :: lines (rest ++ t) := by
      rw [show block ++ ['\r', '\n', '\r', '\n'] ++ rest ++ t =
        (block ++ ['\r']) ++ '\n' :: (['\r'] ++ '\n' :: (rest ++ t)) by simp, lines_append,
        lines_append, lines_concat_cr hblock]
      rfl
    rw [hlines, events_append_blank]

/-- **The blocks hold the events of the text.** -/
theorem events_blocks (pieces : List Text) (buffer : Text) (hcr : OneCr (buffer ++ pieces.flatten)) :
    events (lines (buffer ++ pieces.flatten)) =
      (blocks pieces buffer).flatMap fun b => events (lines b) := by
  fun_induction blocks pieces buffer with
  | case1 pieces buffer block rest hcut hev ih =>
      have hcr' : OneCr (rest ++ pieces.flatten) :=
        hcr.of_infix (suffix_of_cut hcut _).isInfix
      rw [events_of_cut hcut hcr, ih hcr', List.flatMap_cons]
  | case2 buffer block rest hcut hev =>
      rw [events_of_cut hcut hcr]
      simp
  | case3 buffer block rest hcut hev piece pieces ih =>
      rw [List.append_assoc] at ih
      have hcr' : OneCr (rest ++ (piece ++ pieces.flatten)) :=
        hcr.of_infix (suffix_of_cut hcut _).isInfix
      rw [events_of_cut hcut hcr, List.flatten_cons, ih hcr', List.flatMap_cons]
  | case4 buffer hcut => simp
  | case5 buffer hcut piece pieces ih =>
      rw [List.flatten_cons, ← List.append_assoc] at hcr ⊢
      exact ih hcr

/-! ## §3  Delivery -/

theorem mem_of_mem_splitOn {t l : Text} {c : Char} (hl : l ∈ t.splitOn '\n') (hc : c ∈ l) :
    c ∈ t := by
  induction t using line_induction with
  | last t ht =>
      rw [List.splitOn_eq_singleton ht, List.mem_singleton] at hl
      exact hl ▸ hc
  | line m u hm ih =>
      rw [List.splitOn_append_cons_self_of_not_mem hm, List.mem_cons] at hl
      rcases hl with rfl | hl
      · exact List.mem_append_left _ hc
      · exact List.mem_append_right m (List.mem_cons_of_mem _ (ih hl))

theorem mem_of_mem_stripCr {l : Text} {c : Char} (h : c ∈ stripCr l) : c ∈ l := by
  rw [stripCr] at h
  split at h
  · exact List.mem_of_mem_dropLast h
  · exact h

theorem mem_of_mem_strLines {t l : Text} {c : Char} (hl : l ∈ strLines t) (hc : c ∈ l) :
    c ∈ t := by
  rw [strLines, List.mem_append] at hl
  rcases hl with hl | hl
  · obtain ⟨m, hm, rfl⟩ := List.mem_map.mp hl
    exact mem_of_mem_splitOn (List.dropLast_subset _ hm) (mem_of_mem_stripCr hc)
  · obtain ⟨hlast, -⟩ := Option.filter_eq_some_iff.mp (Option.mem_toList.mp hl)
    exact mem_of_mem_splitOn (List.mem_of_getLast? hlast) hc

/-- The name of a field has letters in it. -/
theorem valueIn_of_whitespace {name l : Text} {c : Char} (hc : c ∈ name)
    (hletter : isWhitespace c = false) (hl : ∀ c ∈ l, isWhitespace c) : valueIn name l = none := by
  rw [valueIn]
  split
  · rfl
  · refine if_neg fun hname => ?_
    rw [← hname] at hc
    have hmem : c ∈ l := (List.takeWhile_prefix _).subset hc
    rw [hl c hmem] at hletter
    cases hletter

/-- Nothing is lost where the end of the stream finds only blanks. -/
theorem parseSseBlock_of_whitespace {t : Text} (h : ∀ c ∈ t, isWhitespace c) :
    parseSseBlock t = none := by
  have hread : ∀ l, (∀ c ∈ l, isWhitespace c) → Pending.read {} l = {} := by
    intro l hl
    rw [read_eq, valueIn_of_whitespace (c := 'e') (by decide) (by decide) hl,
      valueIn_of_whitespace (c := 'd') (by decide) (by decide) hl,
      valueIn_of_whitespace (c := 'i') (by decide) (by decide) hl]
    rfl
  have hfold : ∀ ls : List Text, (∀ l ∈ ls, ∀ c ∈ l, isWhitespace c) →
      ls.foldl (fun (p : Pending) line => p.read (stripCr line)) {} = {} := by
    intro ls hls
    induction ls with
    | nil => rfl
    | cons l ls ih =>
        rw [List.forall_mem_cons] at hls
        rw [List.foldl_cons, hread _ fun c hc => hls.1 c (mem_of_mem_stripCr hc), ih hls.2]
  rw [parseSseBlock, hfold _ fun l hl c hc => h c (mem_of_mem_strLines hl hc)]
  rfl

theorem drainOneForce_fst (buffer : Text) : (drainOneForce buffer).1 = parseSseBlock buffer := by
  rw [drainOneForce]
  split
  · next h => rw [parseSseBlock_of_whitespace (List.all_eq_true.mp h)]
  · rfl

theorem drainOne_of_cut {buffer block rest : Text} (h : cut buffer = some (block, rest)) :
    drainOne buffer = (parseSseBlock block, rest) := by
  rw [drainOne, h]

theorem nextLoop_of_event {buffer rest : Text} {ev : ServerSentEvent}
    (h : drainOne buffer = (some ev, rest)) (inner : List (Except ε (List UInt8))) :
    nextLoop buffer inner = (.ok (some ev), { inner := inner, buffer := rest }) := by
  cases inner <;> simp [nextLoop, h]

theorem nextLoop_of_chunk {buffer rest : Text} (h : drainOne buffer = (none, rest))
    (chunk : List UInt8) (inner : List (Except ε (List UInt8))) :
    nextLoop buffer (.ok chunk :: inner) = nextLoop (rest ++ Utf8.decodeLossy chunk) inner := by
  simp [nextLoop, h]

theorem nextLoop_of_end {buffer rest : Text} (h : drainOne buffer = (none, rest)) :
    nextLoop (ε := ε) buffer [] =
      (.ok (parseSseBlock rest),
        { inner := [], buffer := (drainOneForce rest).2, done := true }) := by
  simp [nextLoop, h, drainOneForce_fst]

theorem collect_congr {buffer buffer' : Text} {inner inner' : List (Except ε (List UInt8))}
    (h : nextLoop buffer inner = nextLoop buffer' inner') (n : ℕ) :
    collect n { inner := inner, buffer := buffer } =
      collect n { inner := inner', buffer := buffer' } := by
  cases n with
  | zero => rfl
  | succ n =>
      have hnext : nextEvent { inner := inner, buffer := buffer } =
          nextEvent { inner := inner', buffer := buffer' } := h
      rw [collect, collect, hnext]

theorem collect_of_event {buffer rest : Text} {ev : ServerSentEvent}
    (h : drainOne buffer = (some ev, rest)) (inner : List (Except ε (List UInt8))) (n : ℕ) :
    collect (n + 1) { inner := inner, buffer := buffer } =
      (collect n { inner := inner, buffer := rest }).map fun r => r.map (ev :: ·) := by
  have hnext : nextEvent { inner := inner, buffer := buffer } =
      (.ok (some ev), { inner := inner, buffer := rest }) := nextLoop_of_event h inner
  rw [collect, hnext]

/-- What is left at the end of the stream is one block. -/
theorem returns_collect_end {buffer rest : Text} (h : drainOne buffer = (none, rest)) :
    Returns (fun n => collect n ({ inner := [], buffer := buffer } : SseStream ε))
      (.ok (parseSseBlock rest).toList) := by
  have hnext : nextEvent ({ inner := [], buffer := buffer } : SseStream ε) = _ := nextLoop_of_end h
  cases hev : parseSseBlock rest with
  | none =>
      refine ⟨1, ?_⟩
      show collect 1 _ = _
      rw [collect, hnext, hev]
      rfl
  | some ev =>
      refine ⟨2, ?_⟩
      show collect 2 _ = _
      rw [collect, hnext, hev]
      rfl

/-- **The client delivers the events of its blocks**, and stops. -/
theorem returns_collect (chunks : List (List UInt8)) (buffer : Text) :
    Returns (fun n => collect n ({ inner := chunks.map .ok, buffer := buffer } : SseStream ε))
      (.ok ((blocks (chunks.map Utf8.decodeLossy) buffer).flatMap
        fun b => (parseSseBlock b).toList)) := by
  generalize hp : chunks.map Utf8.decodeLossy = pieces
  fun_induction blocks pieces buffer generalizing chunks with
  | case1 pieces buffer block rest hcut hev ih =>
      obtain ⟨ev, hev'⟩ := Option.isSome_iff_exists.mp hev
      have hdrain : drainOne buffer = (some ev, rest) := by rw [drainOne_of_cut hcut, hev']
      obtain ⟨n, hn⟩ := ih chunks hp
      refine ⟨n + 1, ?_⟩
      dsimp only at hn ⊢
      rw [collect_of_event hdrain, hn, List.flatMap_cons, hev']
      rfl
  | case2 buffer block rest hcut hev =>
      have hnone := Option.not_isSome_iff_eq_none.mp hev
      have hdrain : drainOne buffer = (none, rest) := by rw [drainOne_of_cut hcut, hnone]
      obtain rfl := List.map_eq_nil_iff.mp hp
      simpa [hnone] using returns_collect_end hdrain
  | case3 buffer block rest hcut hev piece pieces ih =>
      have hnone := Option.not_isSome_iff_eq_none.mp hev
      have hdrain : drainOne buffer = (none, rest) := by rw [drainOne_of_cut hcut, hnone]
      obtain ⟨chunk, chunks, rfl, rfl, hchunks⟩ := List.map_eq_cons_iff.mp hp
      rw [List.flatMap_cons, hnone, Option.toList_none, List.nil_append]
      obtain ⟨n, hn⟩ := ih chunks hchunks
      exact ⟨n, (collect_congr (nextLoop_of_chunk hdrain chunk _) n).trans hn⟩
  | case4 buffer hcut =>
      have hdrain : drainOne buffer = (none, buffer) := by rw [drainOne, hcut]
      obtain rfl := List.map_eq_nil_iff.mp hp
      simpa using returns_collect_end hdrain
  | case5 buffer hcut piece pieces ih =>
      have hdrain : drainOne buffer = (none, buffer) := by rw [drainOne, hcut]
      obtain ⟨chunk, chunks, rfl, rfl, hchunks⟩ := List.map_eq_cons_iff.mp hp
      obtain ⟨n, hn⟩ := ih chunks hchunks
      exact ⟨n, (collect_congr (nextLoop_of_chunk hdrain chunk _) n).trans hn⟩

/-! ## §4  When that is right -/

/-- `next_event` returns these events, one after the other, and then `None`. -/
def Delivers (s : SseStream ε) (evs : List ServerSentEvent) : Prop :=
  Returns (fun n => collect n s) (.ok evs)

/-- A body that fails nowhere. -/
def stream (ε : Type) (chunks : List (List UInt8)) : SseStream ε :=
  SseStream.new (chunks.map .ok)

/-- What the bytes say, however they are cut into chunks. -/
def eventsOf (bytes : List UInt8) : List ServerSentEvent :=
  events (lines (Utf8.decodeLossy bytes))

/-- No character is in two chunks. -/
def Whole (chunks : List (List UInt8)) : Prop := ∀ c ∈ chunks, ∃ t, c = Utf8.encode t

theorem stable_collect (s : SseStream ε) : Stable fun n => collect n s := by
  intro n
  induction n generalizing s with
  | zero => exact fun b hb => by cases hb
  | succ n ih =>
      intro b hb
      dsimp only at hb ⊢
      rw [collect] at hb ⊢
      split at hb
      · next ev s' hnext =>
          obtain ⟨r, hr, rfl⟩ := Option.map_eq_some_iff.mp hb
          have hmore : collect (n + 1) s' = some r := ih s' r hr
          rw [hmore]
          rfl
      · exact hb
      · exact hb

theorem delivers_iff {chunks : List (List UInt8)} {evs : List ServerSentEvent} :
    Delivers (stream ε chunks) evs ↔
      (blocks (chunks.map Utf8.decodeLossy) []).flatMap (fun b => (parseSseBlock b).toList) = evs := by
  have hrun := returns_collect (ε := ε) chunks []
  constructor
  · intro h
    exact Except.ok.inj (Returns.unique (stable_collect _) hrun h)
  · rintro rfl
    exact hrun

theorem decode_flatten {chunks : List (List UInt8)} (h : Whole chunks) :
    Utf8.decodeLossy chunks.flatten = (chunks.map Utf8.decodeLossy).flatten := by
  have hencode : chunks.flatten = Utf8.encode (chunks.map Utf8.decodeLossy).flatten := by
    induction chunks with
    | nil => rfl
    | cons c chunks ih =>
        rw [Whole, List.forall_mem_cons] at h
        obtain ⟨⟨t, rfl⟩, hrest⟩ := h
        rw [List.flatten_cons, List.map_cons, List.flatten_cons, Utf8.encode_append,
          Utf8.decodeLossy_encode, ih hrest]
  rw [hencode, Utf8.decodeLossy_encode]

/-- **The client reads a stream rightly exactly where every block it cuts is a single event**,
if no chunk ends inside a character and no line in two carriage returns. -/
theorem sse_reads_iff {chunks : List (List UInt8)} (hw : Whole chunks)
    (hcr : OneCr (Utf8.decodeLossy chunks.flatten)) :
    Delivers (stream ε chunks) (eventsOf chunks.flatten) ↔
      ∀ b ∈ blocks (chunks.map Utf8.decodeLossy) [], Single id (lines b) := by
  have hid : ∀ l : List ServerSentEvent, l.map (Event.mapId id) = l := fun l => List.map_id l
  rw [decode_flatten hw] at hcr
  have hblocks := events_blocks (chunks.map Utf8.decodeLossy) [] hcr
  have hparse : ∀ b ∈ blocks (chunks.map Utf8.decodeLossy) [],
      (parseSseBlock b).toList = (readAll (lines b)).event?.toList := fun b hb => by
    rw [parseSseBlock_eq (hcr.of_infix (infix_of_mem_blocks _ _ b hb))]
  rw [delivers_iff, eventsOf, decode_flatten hw, ← List.nil_append (List.flatten _), hblocks,
    List.flatMap_congr hparse, ← flatMap_event?_eq_iff, hid, hid]

/-- A separator may fall between two chunks, and line endings may be mixed. -/
theorem sse_reads_two_chunks :
    Delivers (stream Empty [Utf8.encode "id: 7\ndata: é\n".toList,
      Utf8.encode "\ndata: b\r\n\r\n".toList])
      (eventsOf (Utf8.encode "id: 7\ndata: é\n\ndata: b\r\n\r\n".toList)) ∧
    ∀ b ∈ blocks ([Utf8.encode "id: 7\ndata: é\n".toList,
      Utf8.encode "\ndata: b\r\n\r\n".toList].map Utf8.decodeLossy) [], Single id (lines b) := by
  have hrun : Delivers (stream Empty [Utf8.encode "id: 7\ndata: é\n".toList,
      Utf8.encode "\ndata: b\r\n\r\n".toList])
      (eventsOf [Utf8.encode "id: 7\ndata: é\n".toList,
        Utf8.encode "\ndata: b\r\n\r\n".toList].flatten) := ⟨3, by decide⟩
  refine ⟨⟨3, by decide⟩, (sse_reads_iff ?_ ?_).mp hrun⟩
  · intro c hc
    rcases List.mem_pair.mp hc with rfl | rfl <;> exact ⟨_, rfl⟩
  · show ¬['\r', '\r', '\n'] <:+: _
    decide

/-- Two events behind a comment are merged where all of it is one chunk. -/
theorem comment_chunk_merges :
    ¬∀ (t : Text) (chunks chunks' : List (List UInt8)) (evs evs' : List ServerSentEvent),
      chunks.flatten = Utf8.encode t → chunks'.flatten = Utf8.encode t →
      Delivers (stream Empty chunks) evs → Delivers (stream Empty chunks') evs' → evs = evs' := by
  intro h
  have heq := h ":\n\ndata: a\n\ndata: b\n\n".toList
    [Utf8.encode ":\n\ndata: a\n\ndata: b\n\n".toList]
    [Utf8.encode ":\n\n".toList, Utf8.encode "data: a\n\ndata: b\n\n".toList]
    [{ event := "message".toList, data := "a\nb".toList, id := none }]
    [{ event := "message".toList, data := "a".toList, id := none },
      { event := "message".toList, data := "b".toList, id := none }]
    (by decide) (by decide) ⟨3, by decide⟩ ⟨4, by decide⟩
  exact absurd heq (by decide)

end SpecForge.Rust
