import SpecForge.Rust.Sse

/-!
# Event streams in the three clients (`emit_streaming`, `streaming_source`)

`streamSse` (TypeScript) and `SseIterator` (Go) go through a body line by line, `SseStream`
(Rust) block by block. TypeScript drops what no blank line ends, and a byte order mark; Go fails
on a line of 1 MiB; Rust takes some blocks for one.

- §1 TypeScript; §2 Go; §3 where the three agree.
-/

namespace SpecForge

open Lib Lib.EventStream

/-! ## §1  TypeScript -/

namespace Ts

/-- `TextDecoder`: the first character of a stream is dropped if it is a byte order mark. -/
structure TextDecoder where
  decoder : Utf8.Decoder := {}
  started : Bool := false

def byteOrderMark : Char := Char.ofNat 0xFEFF

/-- The decoded characters, behind the mark. -/
def TextDecoder.accept (d : TextDecoder) (cs : Text) : Text :=
  if d.started then cs
  else
    match cs with
    | [] => []
    | c :: cs => if c = byteOrderMark then cs else c :: cs

/-- `decode(chunk, { stream: true })`. -/
def TextDecoder.decode (d : TextDecoder) (chunk : List UInt8) : Text × TextDecoder :=
  let (cs, decoder) := Utf8.run d.decoder chunk
  (d.accept cs, { decoder := decoder, started := d.started || !cs.isEmpty })

/-- `decode()`. -/
def TextDecoder.flush (d : TextDecoder) : Text := d.accept (Utf8.finish d.decoder)

/-- `streamLines`, from the chunks that `streamBytes` yields. -/
def streamLinesFrom (d : TextDecoder) (buffer : Text) : List (List UInt8) → List Text
  | [] =>
      let buffer := buffer ++ d.flush
      if buffer.length > 0 then [buffer] else []
  | chunk :: chunks =>
      let (text, d') := d.decode chunk
      let buffer := buffer ++ text
      terminated buffer ++ streamLinesFrom d' (remainder buffer) chunks

def streamLines (chunks : List (List UInt8)) : List Text := streamLinesFrom {} [] chunks

def streamSseFrom (p : Pending) : List Text → List (Event (Option Text))
  | [] => []
  | line :: lines =>
      if line = [] then
        match p.event? with
        | some ev => ev :: streamSseFrom {} lines
        | none => streamSseFrom {} lines
      else streamSseFrom (p.read line) lines

def streamSse (chunks : List (List UInt8)) : List (Event (Option Text)) :=
  streamSseFrom {} (streamLines chunks)

/-- What no blank line ends is not yielded. -/
theorem streamSseFrom_eq (p : Pending) (lines : List Text) :
    streamSseFrom p lines = (run p lines).1 := by
  induction lines generalizing p with
  | nil => rfl
  | cons line lines ih =>
      rw [streamSseFrom]
      by_cases hline : line = []
      · subst hline
        rw [if_pos rfl, run_cons_blank, ih]
        cases p.event? <;> rfl
      · rw [if_neg hline, run_cons_line p hline, ih]

theorem accept_nil (d : TextDecoder) : d.accept [] = [] := by
  rw [TextDecoder.accept]
  split <;> rfl

theorem decode_encode {t : Text} (h : t.head? ≠ some byteOrderMark) :
    TextDecoder.decode {} (Utf8.encode t) = (t, { decoder := {}, started := !t.isEmpty }) := by
  rw [TextDecoder.decode, Utf8.run_encode]
  cases t with
  | nil => rfl
  | cons c t =>
      have hc : c ≠ byteOrderMark := fun hc => h (congrArg some hc)
      simp [TextDecoder.accept, hc]

theorem streamLines_singleton {t : Text} (h : t.head? ≠ some byteOrderMark) :
    streamLines [Utf8.encode t] =
      terminated t ++ if remainder t = [] then [] else [remainder t] := by
  rw [streamLines, streamLinesFrom, decode_encode h]
  show terminated t ++ streamLinesFrom _ (remainder t) [] = _
  rw [streamLinesFrom, TextDecoder.flush, Utf8.finish_start, accept_nil, List.append_nil]
  by_cases hlast : remainder t = []
  · rw [hlast]
    rfl
  · rw [if_neg hlast]
    exact congrArg _ (if_pos (List.length_pos_iff.mpr hlast))

theorem streamSse_singleton {t : Text} (h : t.head? ≠ some byteOrderMark) :
    streamSse [Utf8.encode t] = (run {} (terminated t)).1 := by
  rw [streamSse, streamSseFrom_eq, streamLines_singleton h]
  split
  · rw [List.append_nil]
  · next hlast => rw [run_concat_line {} _ hlast]

end Ts

/-! ## §2  Go -/

namespace Go

/-- `ServerSentEvent`; an id that is not given is empty. -/
abbrev ServerSentEvent := Event Text

/-- The variables of `Next`. -/
structure SseFields where
  event : Text := messageName
  data : List Text := []
  id : Text := []

def SseFields.read (s : SseFields) (line : Text) : SseFields :=
  if line.head? = some ':' then s
  else
    let (field, value) := fieldOf line
    if field = "event".toList then { s with event := value }
    else if field = "data".toList then { s with data := s.data ++ [value] }
    else if field = "id".toList then { s with id := value }
    else s

def SseFields.speaks (s : SseFields) : Bool := !s.data.isEmpty || s.event != messageName

def SseFields.toEvent (s : SseFields) : ServerSentEvent :=
  { event := s.event, data := ['\n'].intercalate s.data, id := s.id }

/-- A `bufio.Scanner` over lines: the lines that are left, with what ends them. -/
abbrev Scanner := List Text

/-- `bufio.NewScanner`: nothing is left behind a last line feed. -/
def newScanner (body : Text) : Scanner :=
  (body.splitOn '\n').dropLast ++ if remainder body = [] then [] else [remainder body]

/-- `bufio.ErrTooLong`: the buffer of 1 MiB is full, and there is no line feed in it. -/
def tooLong (raw : Text) : Bool := 1024 * 1024 ≤ (Utf8.encode raw).length

structure SseIterator where
  sc : Scanner
  cur : ServerSentEvent := { event := [], data := [], id := [] }
  err : Option String := none
  done : Bool := false

def newSseIterator (body : Text) : SseIterator := { sc := newScanner body }

/-- The loop of `Next`. -/
def nextLoop (cur : ServerSentEvent) (s : SseFields) : Scanner → Bool × SseIterator
  | [] =>
      if s.speaks then (true, { sc := [], cur := s.toEvent, done := true })
      else (false, { sc := [], cur := cur, done := true })
  | raw :: rest =>
      if tooLong raw then
        (false, { sc := [], cur := cur, err := some "bufio.Scanner: token too long", done := true })
      else if stripCr raw = [] then
        if s.speaks then (true, { sc := rest, cur := s.toEvent }) else nextLoop cur {} rest
      else nextLoop cur (s.read (stripCr raw)) rest

/-- `Next`. -/
def SseIterator.next (it : SseIterator) : Bool × SseIterator :=
  if it.done then (false, it) else nextLoop it.cur {} it.sc

/-- What `Event` returns after each `Next`, until that is false. -/
def SseIterator.drain : ℕ → SseIterator → Option (List ServerSentEvent)
  | 0, _ => none
  | n + 1, it =>
      match it.next with
      | (true, it') => (it'.drain n).map (it'.cur :: ·)
      | (false, _) => some []

/-- The iterator hands out these events and stops. -/
def Delivers (it : SseIterator) (evs : List ServerSentEvent) : Prop :=
  Returns (fun n => it.drain n) evs

def toServerSentEvent (ev : Event (Option Text)) : ServerSentEvent := ev.mapId (·.getD [])

/-- What Go knows of the event under way. -/
def SseFields.ofPending (p : Pending) : SseFields :=
  { event := p.event, data := p.data, id := p.id.getD [] }

theorem read_ofPending (p : Pending) {line : Text} (h : line ≠ []) :
    (SseFields.ofPending p).read line = SseFields.ofPending (p.read line) := by
  simp only [SseFields.read, Pending.read, h, false_or]
  by_cases hcomment : line.head? = some ':'
  · rw [if_pos hcomment, if_pos hcomment]
  · rw [if_neg hcomment, if_neg hcomment]
    generalize fieldOf line = fv
    obtain ⟨field, value⟩ := fv
    dsimp only
    split_ifs <;> rfl

theorem event?_map (p : Pending) :
    p.event?.map toServerSentEvent =
      if (SseFields.ofPending p).speaks then some (SseFields.ofPending p).toEvent else none := by
  rw [Pending.event?]
  by_cases hsilent : p.data = [] ∧ p.event = messageName
  · obtain ⟨hdata, hname⟩ := hsilent
    simp [SseFields.speaks, SseFields.ofPending, hdata, hname]
  · have hspeaks : (SseFields.ofPending p).speaks = true := by
      rw [not_and_or] at hsilent
      simpa [SseFields.speaks, SseFields.ofPending] using hsilent
    rw [if_neg hsilent, if_pos hspeaks]
    rfl

/-- A call of `Next`, and the calls after it. -/
def resume (n : ℕ) : Bool × SseIterator → Option (List ServerSentEvent)
  | (true, it) => (it.drain n).map (it.cur :: ·)
  | (false, _) => some []

theorem drain_succ (n : ℕ) (it : SseIterator) : it.drain (n + 1) = resume n it.next := by
  rw [SseIterator.drain]
  rcases it.next with ⟨_ | _, it'⟩ <;> rfl

theorem exists_resume (cur : ServerSentEvent) (p : Pending) :
    ∀ {sc : Scanner}, (∀ raw ∈ sc, tooLong raw = false) →
    ∃ n, resume n (nextLoop cur (SseFields.ofPending p) sc) = some
      (((run p (sc.map stripCr)).1 ++ (run p (sc.map stripCr)).2.event?.toList).map
        toServerSentEvent) := by
  intro sc hshort
  have hevent := event?_map p
  induction sc generalizing p cur with
  | nil =>
      rw [nextLoop]
      show ∃ n, _ = some (p.event?.toList.map _)
      rw [← Option.toList_map, hevent]
      split
      · exact ⟨1, rfl⟩
      · exact ⟨0, rfl⟩
  | cons raw rest ih =>
      rw [List.forall_mem_cons] at hshort
      obtain ⟨hraw, hrest⟩ := hshort
      rw [nextLoop, hraw, if_neg Bool.false_ne_true, List.map_cons]
      by_cases hblank : stripCr raw = []
      · rw [if_pos hblank, hblank, run_cons_blank, List.append_assoc, List.map_append,
          ← Option.toList_map, hevent]
        split
        · obtain ⟨n, hn⟩ := ih (SseFields.ofPending p).toEvent {} hrest (event?_map {})
          refine ⟨n + 1, ?_⟩
          rw [resume, drain_succ]
          show (resume n (nextLoop _ (SseFields.ofPending {}) rest)).map _ = _
          rw [hn]
          rfl
        · exact ih cur {} hrest (event?_map {})
      · rw [if_neg hblank, run_cons_line p hblank, read_ofPending p hblank]
        exact ih cur (p.read (stripCr raw)) hrest (event?_map _)

theorem stable_drain (it : SseIterator) : Stable fun n => it.drain n := by
  intro n
  induction n generalizing it with
  | zero => exact fun b hb => by cases hb
  | succ n ih =>
      intro evs hevs
      dsimp only at hevs ⊢
      rw [drain_succ] at hevs ⊢
      rcases hnext : it.next with ⟨_ | _, it'⟩
      · rw [hnext] at hevs
        exact hevs
      · rw [hnext, resume] at hevs
        obtain ⟨evs', hevs', rfl⟩ := Option.map_eq_some_iff.mp hevs
        have hmore : it'.drain (n + 1) = some evs' := ih it' evs' hevs'
        rw [resume, hmore]
        rfl

theorem map_stripCr_newScanner (body : Text) :
    events ((newScanner body).map stripCr) = events (lines body) := by
  rw [newScanner, lines_eq_concat, List.map_append]
  by_cases hlast : remainder body = []
  · rw [hlast]
    show events (terminated body ++ []) = events (terminated body ++ [[]])
    rw [List.append_nil, events_concat_blank]
  · rw [if_neg hlast]
    rfl

/-- **The iterator reads every event of a body with lines of less than 1 MiB.** -/
theorem newSseIterator_delivers {body : Text}
    (hshort : ∀ raw ∈ body.splitOn '\n', tooLong raw = false) :
    Delivers (newSseIterator body) ((events (lines body)).map toServerSentEvent) := by
  have hsc : ∀ raw ∈ newScanner body, tooLong raw = false := by
    intro raw hraw
    rw [newScanner, List.mem_append] at hraw
    rcases hraw with hraw | hraw
    · exact hshort raw (List.dropLast_subset _ hraw)
    · split at hraw
      · cases hraw
      · rw [List.mem_singleton.mp hraw]
        exact hshort _ (List.getLast_mem _)
  obtain ⟨n, hn⟩ := exists_resume { event := [], data := [], id := [] } {} hsc
  rw [← events_eq_run, map_stripCr_newScanner] at hn
  exact ⟨n + 1, (drain_succ n _).trans hn⟩

end Go

/-! ## §3  Agreement -/

/-- The triples of the three clients for one chunk, a missing id as an empty one. -/
def Alike (t : Text) : Prop :=
  ∃ evs evs',
    Go.Delivers (Go.newSseIterator t) evs ∧
    Rust.Delivers (Rust.stream Empty [Utf8.encode t]) evs' ∧
    (Ts.streamSse [Utf8.encode t]).map Go.toServerSentEvent = evs ∧
    evs'.map Go.toServerSentEvent = evs

theorem rust_delivers_iff {t : Text} (hcr : Rust.OneCr t) {evs : List Rust.ServerSentEvent} :
    Rust.Delivers (Rust.stream Empty [Utf8.encode t]) evs ↔
      (Rust.blocks [t] []).flatMap (fun b => (readAll (lines b)).event?.toList) = evs := by
  have hparse : ∀ b ∈ Rust.blocks [t] [],
      (Rust.parseSseBlock b).toList = (readAll (lines b)).event?.toList := fun b hb => by
    have hinfix := Rust.infix_of_mem_blocks [t] [] b hb
    rw [List.flatten_singleton, List.nil_append] at hinfix
    rw [Rust.parseSseBlock_eq (hcr.of_infix hinfix)]
  rw [Rust.delivers_iff, List.map_singleton, Utf8.decodeLossy_encode, List.flatMap_congr hparse]

theorem alike_iff_streams {t : Text} (hmark : t.head? ≠ some Ts.byteOrderMark)
    (hcr : Rust.OneCr t) (hshort : ∀ raw ∈ t.splitOn '\n', Go.tooLong raw = false) :
    Alike t ↔
      ((run {} (terminated t)).1.map Go.toServerSentEvent =
        (events (lines t)).map Go.toServerSentEvent) ∧
      (((Rust.blocks [t] []).flatMap fun b => (readAll (lines b)).event?.toList).map
        Go.toServerSentEvent = (events (lines t)).map Go.toServerSentEvent) := by
  have hgo := Go.newSseIterator_delivers hshort
  constructor
  · rintro ⟨evs, evs', hevs, hrust, hts, hmap⟩
    obtain rfl := Returns.unique (Go.stable_drain _) hgo hevs
    obtain rfl := (rust_delivers_iff hcr).mp hrust
    rw [Ts.streamSse_singleton hmark] at hts
    exact ⟨hts, hmap⟩
  · rintro ⟨hts, hrust⟩
    rw [← Ts.streamSse_singleton hmark] at hts
    exact ⟨_, _, hgo, (rust_delivers_iff hcr).mpr rfl, hts, hrust⟩

/-- **The three clients agree on a text exactly where nothing is under way at its end and
Rust cuts single events out of it**: a text without a byte order mark, of lines that end in
one carriage return at most and are shorter than 1 MiB with it. -/
theorem eventStreams_alike_iff {t : Text} (hmark : t.head? ≠ some Ts.byteOrderMark)
    (hcr : Rust.OneCr t) (hshort : ∀ raw ∈ t.splitOn '\n', Go.tooLong raw = false) :
    Alike t ↔ (unfinished t).event? = none ∧
      ∀ b ∈ Rust.blocks [t] [], Single (·.getD []) (lines b) := by
  have hwhole : [] ++ [t].flatten = t := List.append_nil t
  have hblocks := Rust.events_blocks [t] [] (hwhole.symm ▸ hcr)
  rw [hwhole] at hblocks
  rw [alike_iff_streams hmark hcr hshort]
  apply and_congr
  · rw [events_lines, List.map_append, List.self_eq_append_right, List.map_eq_nil_iff]
    exact Option.toList_eq_nil_iff
  · rw [hblocks]
    exact @flatMap_event?_eq_iff _ _ (·.getD []) lines (Rust.blocks [t] [])

def mixedStream : Text := ": hello\r\nid: 7\r\ndata: é\ndata\n\n".toList

/-- Line endings may be mixed within an event, and a field may have no value. -/
theorem eventStreams_alike_mixed :
    Alike mixedStream ∧ (unfinished mixedStream).event? = none ∧
      ∀ b ∈ Rust.blocks [mixedStream] [], Single (·.getD []) (lines b) := by
  have halike : Alike mixedStream :=
    ⟨[{ event := messageName, data := "é\n".toList, id := "7".toList }],
      [{ event := messageName, data := "é\n".toList, id := some "7".toList }],
      ⟨2, by decide +kernel⟩, ⟨2, by decide +kernel⟩, by decide +kernel,
      by decide +kernel⟩
  have hcr : Rust.OneCr mixedStream := by
    show ¬['\r', '\r', '\n'] <:+: _
    decide
  exact ⟨halike, (eventStreams_alike_iff (by decide) hcr (by decide)).mp halike⟩

/-- The lines of the streams that the clients promise to read. -/
def StreamText (t : Text) : Prop :=
  ∀ raw ∈ t.splitOn '\n', (Utf8.encode raw).length < 1024 * 1024 ∧ '\r' ∉ stripCr raw

/-- TypeScript loses an event that no blank line ends. -/
theorem unterminated_event_lost : ¬∀ t, StreamText t → Alike t := by
  intro h
  obtain ⟨evs, evs', hgo, -, hts, -⟩ := h "data: a\n".toList (by unfold StreamText; decide)
  have hgo' : Go.Delivers (Go.newSseIterator "data: a\n".toList)
      [{ event := messageName, data := "a".toList, id := [] }] := ⟨2, by decide⟩
  have heq := Returns.unique (Go.stable_drain _) hgo hgo'
  rw [heq] at hts
  exact absurd hts (by decide)

end SpecForge
