import SpecForge.Go.Retry
import SpecForge.Lib.Utf8

/-!
# Retries after an error response

`isRetriable` looks for `timeout` and `connection reset` in the text of an error before it asks
what the error is, and the text of an error response holds the URL and the start of the body.

- §1 words in texts that are put together; §2 what an error response says; §3 which responses are
  followed by another request.
-/

namespace SpecForge.Go

open Lib.Attempts

/-! ## §1  Words in texts -/

section Words

variable {α : Type*} {w xs ys : List α} {c : α}

/-- What stands in front cannot hold the start of a word. -/
theorem infix_append_right_iff (hw : w.head? = some c) (hc : c ∉ xs) :
    w <:+: xs ++ ys ↔ w <:+: ys := by
  constructor
  · intro h
    rcases List.infix_append_iff.mp h with h | h | ⟨l₁, l₂, rfl, hsuffix, hprefix⟩
    · exact absurd (h.subset (List.mem_of_mem_head? hw)) hc
    · exact h
    · cases l₁ with
      | nil => exact hprefix.isInfix
      | cons d l₁ =>
          obtain rfl := Option.some.inj hw
          exact absurd (hsuffix.subset List.mem_cons_self) hc
  · exact fun h => h.trans List.infix_append_right

/-- Nor can what stands behind hold its end. -/
theorem infix_append_left_iff (hw : w.getLast? = some c) (hc : c ∉ ys) :
    w <:+: xs ++ ys ↔ w <:+: xs := by
  rw [← List.reverse_infix, List.reverse_append,
    infix_append_right_iff (List.head?_reverse.trans hw) (fun h => hc (List.mem_reverse.mp h)),
    List.reverse_infix]

/-- A word without the separator is on one of its sides. -/
theorem infix_separated_iff (hc : c ∉ w) : w <:+: xs ++ c :: ys ↔ w <:+: xs ∨ w <:+: ys := by
  have hfront : ∀ {l : List α}, c ∉ l → l <+: c :: ys → l = [] := by
    intro l hl hprefix
    rcases List.prefix_cons_iff.mp hprefix with h | ⟨t, rfl, -⟩
    · exact h
    · exact absurd List.mem_cons_self hl
  constructor
  · intro h
    rcases List.infix_append_iff.mp h with h | h | ⟨l₁, l₂, rfl, hsuffix, hprefix⟩
    · exact Or.inl h
    · rcases List.infix_cons_iff.mp h with hprefix | hrest
      · rw [hfront hc hprefix]
        exact Or.inl List.nil_infix
      · exact Or.inr hrest
    · rw [List.mem_append, not_or] at hc
      rw [hfront hc.2 hprefix, List.append_nil]
      exact Or.inl hsuffix.isInfix
  · rintro (h | h)
    · exact h.trans List.infix_append_left
    · exact h.trans ((List.suffix_cons c ys).isInfix.trans List.infix_append_right)

end Words

/-! ## §2  What an error response says -/

def timeoutWords : List Bytes := [bytes "timeout", bytes "connection reset"]

/-- A word of `isRetriable` is in the URL, or in the part of the body that is shown. -/
def MentionsTimeout (u body : Bytes) : Prop :=
  ∃ w ∈ timeoutWords, w <:+: u ∨ w <:+: body.take 200

theorem bytes_append (s t : String) : bytes (s ++ t) = bytes s ++ bytes t := by
  rw [bytes, Lib.Utf8.toList_toUTF8, String.toList_append, Lib.Utf8.encode_append,
    ← Lib.Utf8.toList_toUTF8, ← Lib.Utf8.toList_toUTF8]
  rfl

/-- A decimal has no bytes but those of digits. -/
theorem le_of_mem_bytes_toString {n : ℕ} {b : UInt8} (h : b ∈ bytes (toString n)) : b ≤ 57 := by
  rw [bytes, Lib.Utf8.toList_toUTF8, Lib.Utf8.encode, List.mem_flatMap] at h
  obtain ⟨c, hc, hb⟩ := h
  have hmem : c ∈ Nat.toDigits 10 n := by simpa using hc
  have hdigit : c.isDigit = true := Nat.isDigit_of_mem_toDigits (by decide) (by decide) hmem
  have hval : '0'.val ≤ c.val ∧ c.val ≤ '9'.val := by simpa [Char.isDigit] using hdigit
  have hle : c.val.toNat ≤ 57 := UInt32.le_iff_toNat_le.mp hval.2
  have hsize : c.utf8Size = 1 := by
    rw [Char.utf8Size_eq_one_iff, UInt32.le_iff_toNat_le]
    show c.val.toNat ≤ 127
    omega
  rw [String.utf8EncodeChar_eq_singleton hsize] at hb
  obtain rfl := List.mem_singleton.mp hb
  rw [UInt8.le_iff_toNat_le, UInt32.toNat_toUInt8, Nat.mod_eq_of_lt (by omega)]
  exact hle

theorem infix_truncate_iff {w body : Bytes} (hw : w.getLast? = some 116) :
    w <:+: truncate body 200 ↔ w <:+: body.take 200 := by
  rw [truncate]
  split
  · next h => rw [List.take_of_length_le h]
  · exact infix_append_left_iff hw (by decide)

/-- A word that cannot start in front of the URL and has no colon. -/
theorem infix_text_iff {status : ℕ} {body u w : Bytes} {c : UInt8} (hw : w.head? = some c)
    (hc : 57 < c ∧ c ∉ bytes "HTTP " ∧ c ∉ bytes " from ") (hcolon : 58 ∉ w)
    (hlast : w.getLast? = some 116) :
    w <:+: GoError.text (.api status body u) ↔ w <:+: u ∨ w <:+: body.take 200 := by
  have hfront : c ∉ bytes s!"HTTP {status} from " := by
    show c ∉ bytes ("HTTP " ++ toString status ++ " from ")
    rw [bytes_append, bytes_append, List.mem_append, List.mem_append, not_or, not_or]
    refine ⟨⟨hc.2.1, fun h => ?_⟩, hc.2.2⟩
    exact UInt8.not_le.mpr hc.1 (le_of_mem_bytes_toString h)
  have htext : GoError.text (.api status body u) =
      (bytes s!"HTTP {status} from " ++ u) ++ 58 :: ([32] ++ truncate body 200) := by
    rw [GoError.text, List.append_assoc _ (bytes ": ")]
    rfl
  have hspace : c ∉ [32] := by
    rw [List.mem_singleton]
    rintro rfl
    exact absurd hc.1 (by decide)
  rw [htext, infix_separated_iff hcolon, infix_append_right_iff hw hfront,
    infix_append_right_iff hw hspace, infix_truncate_iff hlast]

/-- **The text of an error response speaks of a timeout** exactly if its URL or the start of its
body does. -/
theorem saysTimeout_api_iff {status : ℕ} {body u : Bytes} :
    GoError.saysTimeout (.api status body u) = true ↔ MentionsTimeout u body := by
  have hword : ∀ w ∈ timeoutWords, (w <:+: GoError.text (.api status body u) ↔
      w <:+: u ∨ w <:+: body.take 200) := by
    rw [timeoutWords, List.forall_mem_cons, List.forall_mem_singleton]
    constructor
    · exact infix_text_iff (c := 116) (by decide) (by decide) (by decide) (by decide)
    · exact infix_text_iff (c := 99) (by decide) (by decide) (by decide) (by decide)
  rw [GoError.saysTimeout, Bool.or_eq_true, contains, contains, decide_eq_true_iff,
    decide_eq_true_iff, MentionsTimeout]
  constructor
  · rintro (h | h)
    · exact ⟨_, List.mem_cons_self, (hword _ List.mem_cons_self).mp h⟩
    · exact ⟨_, List.mem_cons_of_mem _ List.mem_cons_self,
        (hword _ (List.mem_cons_of_mem _ List.mem_cons_self)).mp h⟩
  · rintro ⟨w, hmem, h⟩
    rw [← hword w hmem] at h
    rcases List.mem_cons.mp hmem with rfl | hmem
    · exact Or.inl h
    · obtain rfl := List.mem_singleton.mp hmem
      exact Or.inr h

/-! ## §3  Another request -/

/-- A request is sent after this response has come. -/
def SendsAfter (opts : RetryOptions) (call : Call) (r : Response) : Prop :=
  ∃ (n m : ℕ) (a : Answer), n < m ∧ (doWithRetry opts call).1[n]? = some (.response r) ∧
    (doWithRetry opts call).1[m]? = some a ∧ a.isDispatched = true

/-- The method is safe to replay, and the status is one that is retried. -/
def ByStatus (opts : RetryOptions) (method : String) (r : Response) : Prop :=
  isRetriableMethod method = true ∧ r.statusCode ∈ opts.effective.retryOnStatuses

section Sends

variable {opts : RetryOptions} {method : String} {u : Bytes} {r : Response}

/-- What is made are the attempts that are reached. -/
theorem getElem?_doWithRetry {call : Call} {j : ℕ} {a : Answer} :
    (doWithRetry opts call).1[j]? = some a ↔
      call.Reaches opts.effective j ∧ call.answers j = a := by
  have hlt : j < (opts.effective.maxRetries + 1).toNat ↔ (j : ℤ) ≤ opts.effective.maxRetries := by
    omega
  rw [doWithRetry, getElem?_run (fun j hj => absurd hj (Nat.not_lt_zero j)), Nat.zero_add,
    hlt, reaches_iff]
  by_cases hwaited : call.Waited j
  · rw [(attempt_of_waited opts.effective hwaited).1, Option.some.injEq]
    simp only [hwaited, and_true, and_assoc]
  · obtain ⟨e, he⟩ := attempt_of_interrupted opts.effective hwaited
    rw [he]
    exact iff_of_false (fun h => by cases h.2.2) fun h => hwaited h.1.2.2

theorem doOnce_of_failure (h : r.isSuccess = false) (h304 : r.statusCode ≠ 304) :
    doOnce u (.response r) = .error (.api r.statusCode r.body u) := by
  have hpass : ¬(r.isSuccess || r.statusCode == 304) = true := by simpa [h] using h304
  rw [doOnce, if_neg hpass]

theorem isRetriable_response_iff :
    isRetriable method (.api r.statusCode r.body u) opts.effective = true ↔
      MentionsTimeout u r.body ∨ ByStatus opts method r := by
  rw [isRetriable_api, Bool.or_eq_true, saysTimeout_api_iff, Bool.and_eq_true,
    List.contains_iff_mem]
  rfl

/-- A server that always answers so is asked again. -/
theorem sendsAfter_always (hfailure : r.isSuccess = false) (h304 : r.statusCode ≠ 304)
    (hretriable : isRetriable method (.api r.statusCode r.body u) opts.effective = true)
    (hmax : 0 < opts.effective.maxRetries) :
    SendsAfter opts ⟨method, u, fun _ => .response r, fun _ => none⟩ r := by
  have hreaches : ∀ j ≤ 1, Call.Reaches ⟨method, u, fun _ => .response r, fun _ => none⟩
      opts.effective j := by
    intro j hj
    exact ⟨by omega, fun _ _ _ => rfl, fun _ _ => ⟨_, doOnce_of_failure hfailure h304, hretriable⟩⟩
  refine ⟨0, 1, .response r, Nat.zero_lt_one, ?_, ?_, rfl⟩
  · exact getElem?_doWithRetry.mpr ⟨hreaches 0 (Nat.zero_le 1), rfl⟩
  · exact getElem?_doWithRetry.mpr ⟨hreaches 1 (Nat.le_refl 1), rfl⟩

/-- **An error response is followed by another request for its status only** exactly if neither
its URL nor the start of its body mentions a timeout or a reset, or the status is a reason anyway,
or no retries are allowed. -/
theorem sendsAfter_byStatus_iff (opts : RetryOptions) (method : String) (u : Bytes) (r : Response)
    (hfailure : r.isSuccess = false) (h304 : r.statusCode ≠ 304) :
    (∀ call : Call, call.method = method → call.url = u → SendsAfter opts call r →
        ByStatus opts method r) ↔
      ¬MentionsTimeout u r.body ∨ ByStatus opts method r ∨ opts.effective.maxRetries ≤ 0 := by
  constructor
  · intro h
    by_contra hnot
    simp only [not_or, not_not, not_le] at hnot
    obtain ⟨hmentions, hstatus, hmax⟩ := hnot
    have hretriable : isRetriable method (.api r.statusCode r.body u) opts.effective = true :=
      isRetriable_response_iff.mpr (Or.inl hmentions)
    exact hstatus (h _ rfl rfl (sendsAfter_always hfailure h304 hretriable hmax))
  · rintro hcond call rfl rfl ⟨n, m, a, hnm, hn, hm, -⟩
    obtain ⟨-, hanswer⟩ := getElem?_doWithRetry.mp hn
    obtain ⟨hreaches, -⟩ := getElem?_doWithRetry.mp hm
    obtain ⟨err, herr, hretriable⟩ := hreaches.retried n hnm
    rw [hanswer, doOnce_of_failure hfailure h304] at herr
    obtain rfl := Except.error.inj herr
    have hreason := isRetriable_response_iff.mp hretriable
    rcases hcond with hnone | hstatus | hmax
    · exact hreason.resolve_left hnone
    · exact hstatus
    · have hle := hreaches.le_max
      omega

end Sends

/-- A proxy that gives up on a charge. -/
def gatewayTimeout : Response := ⟨500, "", bytes "upstream timeout"⟩

theorem sendsAfter_byStatus_charge : ¬MentionsTimeout (bytes "/charges") (bytes "broken") ∧
    ∀ call : Call, call.method = "POST" → call.url = bytes "/charges" →
      SendsAfter defaultRetryOptions call ⟨500, "", bytes "broken"⟩ →
        ByStatus defaultRetryOptions "POST" ⟨500, "", bytes "broken"⟩ := by
  have hquiet : ¬MentionsTimeout (bytes "/charges") (bytes "broken") := by
    unfold MentionsTimeout
    decide
  exact ⟨hquiet, (sendsAfter_byStatus_iff defaultRetryOptions "POST" (bytes "/charges")
    ⟨500, "", bytes "broken"⟩ (by decide) (by decide)).mpr (.inl hquiet)⟩

/-- The charge is made again. -/
theorem charge_replayed : ¬∀ (opts : RetryOptions) (method : String) (u : Bytes) (r : Response)
    (call : Call), r.isSuccess = false → r.statusCode ≠ 304 → call.method = method →
    call.url = u → SendsAfter opts call r → ByStatus opts method r := by
  intro h
  have hsends : SendsAfter defaultRetryOptions
      ⟨"POST", bytes "/charges", fun _ => .response gatewayTimeout, fun _ => none⟩ gatewayTimeout :=
    sendsAfter_always (by decide) (by decide) (by decide) (by decide)
  obtain ⟨hmethod, -⟩ := h defaultRetryOptions "POST" (bytes "/charges") gatewayTimeout _
    (by decide) (by decide) rfl rfl hsends
  exact absurd hmethod (by decide)

end SpecForge.Go
