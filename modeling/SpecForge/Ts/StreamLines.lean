import SpecForge.Sdk.EventStreams

/-!
# Chunks of a stream

`streamLines` decodes one chunk at a time and cuts the lines off a buffer that it carries along, so
where the network cuts the body makes no difference.

- §1 the loops; §2 one chunk; §3 a whole stream.
-/

namespace SpecForge.Ts

open Lib Lib.EventStream

/-! ## §1  The loops -/

/-- The inner loop: `buffer.indexOf`, `buffer.slice` and `yield`, and the buffer that is left. -/
def cutLines (buffer : Text) : List Text × Text :=
  if buffer.idxOf '\n' < buffer.length then
    let (lines, rest) := cutLines (buffer.drop (buffer.idxOf '\n' + 1))
    (stripCr (buffer.take (buffer.idxOf '\n')) :: lines, rest)
  else ([], buffer)
termination_by buffer.length

def readLinesFrom (d : TextDecoder) (buffer : Text) : List (List UInt8) → List Text
  | [] =>
      let buffer := buffer ++ d.flush
      if buffer.length > 0 then [buffer] else []
  | chunk :: chunks =>
      let (text, d') := d.decode chunk
      let (lines, buffer) := cutLines (buffer ++ text)
      lines ++ readLinesFrom d' buffer chunks

/-- `streamLines`, with its inner loop. -/
def readLines (chunks : List (List UInt8)) : List Text := readLinesFrom {} [] chunks

/-- `streamSse` over these lines. -/
def readSse (chunks : List (List UInt8)) : List (Event (Option Text)) :=
  streamSseFrom {} (readLines chunks)

/-! ## §2  One chunk -/

theorem cutLines_of_notMem {t : Text} (h : '\n' ∉ t) : cutLines t = ([], t) := by
  rw [cutLines, List.idxOf_eq_length h, if_neg (lt_irrefl _)]

theorem cutLines_line {l : Text} (hl : '\n' ∉ l) (t : Text) :
    cutLines (l ++ '\n' :: t) = (stripCr l :: (cutLines t).1, (cutLines t).2) := by
  have hidx : (l ++ '\n' :: t).idxOf '\n' = l.length := by
    rw [List.idxOf_append_of_notMem hl, List.idxOf_cons_self, Nat.add_zero]
  have hdrop : (l ++ '\n' :: t).drop (l.length + 1) = t := by
    rw [← List.drop_drop, List.drop_left]
    rfl
  rw [cutLines, hidx, if_pos, List.take_left, hdrop]
  rw [List.length_append, List.length_cons]
  omega

/-- The loop yields the lines that a line feed ends and keeps the rest. -/
theorem cutLines_eq (t : Text) : cutLines t = (terminated t, remainder t) := by
  induction t using line_induction with
  | last t ht => rw [cutLines_of_notMem ht, terminated_of_notMem ht, remainder_of_notMem ht]
  | line l t hl ih => rw [cutLines_line hl, terminated_line hl, remainder_line hl, ih]

/-- The loop does to each buffer what `streamLines` says of it. -/
theorem readLinesFrom_eq_streamLinesFrom (d : TextDecoder) (buffer : Text)
    (chunks : List (List UInt8)) :
    readLinesFrom d buffer chunks = streamLinesFrom d buffer chunks := by
  induction chunks generalizing d buffer with
  | nil => rfl
  | cons chunk chunks ih =>
      rw [readLinesFrom, streamLinesFrom]
      simp only [cutLines_eq, ih]

theorem readSse_eq_streamSse (chunks : List (List UInt8)) : readSse chunks = streamSse chunks := by
  rw [readSse, readLines, readLinesFrom_eq_streamLinesFrom]
  rfl

theorem accept_append (d : TextDecoder) (t u : Text) :
    d.accept (t ++ u) =
      d.accept t ++ TextDecoder.accept { d with started := d.started || !t.isEmpty } u := by
  cases t with
  | nil => simp [TextDecoder.accept]
  | cons c t =>
      cases hd : d.started with
      | true => simp [TextDecoder.accept, hd]
      | false =>
          by_cases hc : c = byteOrderMark
          · simp [TextDecoder.accept, hd, hc]
          · simp [TextDecoder.accept, hd, hc]

theorem decode_nil (d : TextDecoder) : d.decode [] = ([], d) := by
  simp [TextDecoder.decode, accept_nil]

/-- Two calls decode what one call on both chunks does. -/
theorem decode_append (d : TextDecoder) (bs cs : List UInt8) :
    d.decode (bs ++ cs) =
      ((d.decode bs).1 ++ ((d.decode bs).2.decode cs).1, ((d.decode bs).2.decode cs).2) := by
  simp only [TextDecoder.decode, Utf8.run_append, accept_append]
  have hstarted : (d.started || !((Utf8.run d.decoder bs).1 ++
        (Utf8.run (Utf8.run d.decoder bs).2 cs).1).isEmpty) =
      (d.started || !(Utf8.run d.decoder bs).1.isEmpty ||
        !(Utf8.run (Utf8.run d.decoder bs).2 cs).1.isEmpty) := by
    cases (Utf8.run d.decoder bs).1 <;> simp
  rw [hstarted]
  rfl

/-! ## §3  A whole stream -/

/-- What the decoder makes of a body. -/
def TextDecoder.text (d : TextDecoder) (body : List UInt8) : Text :=
  (d.decode body).1 ++ (d.decode body).2.flush

/-- The lines that a line feed ends, and what stands behind the last one. -/
def yielded (t : Text) : List Text :=
  terminated t ++ if remainder t = [] then [] else [remainder t]

theorem notMem_flush (d : TextDecoder) : '\n' ∉ d.flush := by
  have hmark : '\n' ∉ [Char.ofNat 0xFFFD] := by decide
  rw [TextDecoder.flush, Utf8.finish]
  split
  · rw [accept_nil]
    exact List.not_mem_nil
  · rw [TextDecoder.accept]
    split
    · exact hmark
    · show '\n' ∉ if Char.ofNat 0xFFFD = byteOrderMark then [] else [Char.ofNat 0xFFFD]
      split
      · exact List.not_mem_nil
      · exact hmark

theorem yielded_append (t u : Text) :
    yielded (t ++ u) = terminated t ++ yielded (remainder t ++ u) := by
  rw [yielded, yielded, terminated_append, remainder_append, List.append_assoc]

/-- Between two chunks the buffer holds no line feed. -/
theorem readLinesFrom_eq (d : TextDecoder) {buffer : Text} (h : '\n' ∉ buffer)
    (chunks : List (List UInt8)) :
    readLinesFrom d buffer chunks = yielded (buffer ++ d.text chunks.flatten) := by
  induction chunks generalizing d buffer with
  | nil =>
      have hlast : '\n' ∉ buffer ++ d.flush := by
        rw [List.mem_append, not_or]
        exact ⟨h, notMem_flush d⟩
      rw [readLinesFrom, List.flatten_nil, TextDecoder.text, decode_nil, List.nil_append, yielded,
        terminated_of_notMem hlast, remainder_of_notMem hlast, List.nil_append]
      simp only [List.length_pos_iff, ite_not]
  | cons chunk chunks ih =>
      have htext : d.text (chunk ++ chunks.flatten) =
          (d.decode chunk).1 ++ (d.decode chunk).2.text chunks.flatten := by
        rw [TextDecoder.text, decode_append, List.append_assoc]
        rfl
      rw [List.flatten_cons, htext, ← List.append_assoc, yielded_append,
        ← ih (d.decode chunk).2 (notMem_remainder _), readLinesFrom]
      simp only [cutLines_eq]

/-- **Chunking makes no difference.** Whatever the chunks, the lines are those of the decoded
body, and two ways to cut a body give the same events. -/
theorem readLines_eq (chunks : List (List UInt8)) :
    readLines chunks = yielded (TextDecoder.text {} chunks.flatten) ∧
      ∀ others, others.flatten = chunks.flatten → readSse others = readSse chunks := by
  have hlines : ∀ cs, readLines cs = yielded (TextDecoder.text {} cs.flatten) :=
    fun cs => readLinesFrom_eq {} List.not_mem_nil cs
  refine ⟨hlines chunks, ?_⟩
  intro others h
  rw [readSse, readSse, hlines, hlines, h]

end SpecForge.Ts
