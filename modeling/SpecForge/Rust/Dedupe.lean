import SpecForge.Lib.IndexMap
import SpecForge.Lib.Threads
import SpecForge.Rust.Retry

/-!
# Deduplication of the Rust client

`RequestDeduper` keeps a broadcast channel for each key in flight. A caller that finds one
subscribes to it, any other opens one, and sends its outcome and removes the key when its
request is done; whatever it awaits, its future may be dropped there (§1). §2 says what the map
and the channels are to the callers, §3 when no key is stranded and no caller finds its channel
closed.
-/

namespace SpecForge.Rust

open Lib Lib.Program

universe u

/-! ## §1  `dedupe` -/

/-- A broadcast channel, with the call that opened it. A receiver gets what is sent after it has
subscribed; without a sender left the channel is closed. -/
structure Channel (V : Type u) where
  leader : ℕ
  sent : List (Except String V)
  senders : ℕ

structure RequestDeduper (V : Type u) where
  inflight : IndexMap String ℕ
  channels : List (Channel V)

namespace RequestDeduper

variable {V : Type u}

/-- Where a caller is. Two of the stages are a leader's: `f` runs, or its outcome is sent and the
lock is awaited to remove the key. -/
inductive Stage (V : Type u) where
  | entering
  | running (channel : ℕ)
  | removing (channel : ℕ) (result : Except Error V)
  | waiting (channel position : ℕ)
  | led (channel : ℕ) (result : Except Error V)
  /-- Nothing is received of a channel that is closed. -/
  | joined (channel : ℕ) (received : Option (Except String V))
  | dropped

structure Caller (V : Type u) where
  key : String
  stage : Stage V

/-- What the caller is done with. -/
inductive Action (V : Type u) where
  | enter
  | complete (result : Except Error V)
  | remove
  | receive
  | drop

/-- What a joined caller returns. -/
def outcome : Option (Except String V) → Except Error V
  | some (.ok v) => .ok v
  | some (.error msg) => .error (.message msg)
  | none => .error (.message "dedupe channel closed")

/-- What is sent of an outcome; `display` is `to_string` of an error. -/
def wire (display : Error → String) : Except Error V → Except String V
  | .ok v => .ok v
  | .error e => .error (display e)

def send (s : RequestDeduper V) (c : ℕ) (w : Except String V) : RequestDeduper V :=
  { s with channels := s.channels.modify c fun ch => { ch with sent := ch.sent ++ [w] } }

def dropSenders (s : RequestDeduper V) (c n : ℕ) : RequestDeduper V :=
  { s with channels := s.channels.modify c fun ch => { ch with senders := ch.senders - n } }

/-- One of the two senders of a new channel is in the map. -/
def enter (s : RequestDeduper V) (i : ℕ) (key : String) : RequestDeduper V × Stage V :=
  match s.inflight.get key with
  | some c => (s, .waiting c ((s.channels[c]?.map fun ch => ch.sent.length).getD 0))
  | none =>
      (⟨s.inflight.insert key s.channels.length, s.channels ++ [⟨i, [], 2⟩]⟩,
        .running s.channels.length)

/-- What a receiver gets, unless it has to wait. -/
def receive (s : RequestDeduper V) (c position : ℕ) : Option (Option (Except String V)) :=
  match s.channels[c]? with
  | none => none
  | some ch =>
      match ch.sent[position]? with
      | some w => some (some w)
      | none => if ch.senders = 0 then some none else none

def step (display : Error → String) (i : ℕ) (key : String) (a : Action V) (s : RequestDeduper V)
    (stage : Stage V) : Option (RequestDeduper V × Stage V) :=
  match a, stage with
  | .enter, .entering => some (s.enter i key)
  | .complete result, .running c => some (s.send c (wire display result), .removing c result)
  | .remove, .removing c result =>
      some ({ s.dropSenders c 2 with inflight := s.inflight.erase key }, .led c result)
  | .receive, .waiting c position => (s.receive c position).map fun r => (s, .joined c r)
  | .drop, .entering => some (s, .dropped)
  | .drop, .running c => some (s.dropSenders c 1, .dropped)
  | .drop, .removing c _ => some (s.dropSenders c 1, .dropped)
  | .drop, .waiting _ _ => some (s, .dropped)
  | _, _ => none

/-- All calls of `dedupe` on one deduper, by their keys. -/
def dedupes (display : Error → String) : Program (RequestDeduper V) (Caller V) String (Action V) where
  init := ⟨.empty, []⟩
  start key := ⟨key, .entering⟩
  step i a s caller :=
    (step display i caller.key a s caller.stage).map fun e => (e.1, { caller with stage := e.2 })

/-! ## §2  Leaders and channels -/

/-- The caller leads the request of the channel. -/
def Stage.Leads (c : ℕ) : Stage V → Prop
  | .running c' => c' = c
  | .removing c' _ => c' = c
  | _ => False

section Steps

variable {display : Error → String} {i : ℕ} {key : String} {s s' : RequestDeduper V}
  {stage stage' : Stage V}

/-- What the actions do. -/
inductive Steps (display : Error → String) (i : ℕ) (key : String) (s : RequestDeduper V) :
    Action V → Stage V → RequestDeduper V → Stage V → Prop where
  | join {c : ℕ} : s.inflight.get key = some c →
      Steps display i key s .enter .entering s
        (.waiting c ((s.channels[c]?.map fun ch => ch.sent.length).getD 0))
  | lead : s.inflight.get key = none →
      Steps display i key s .enter .entering
        ⟨s.inflight.insert key s.channels.length, s.channels ++ [⟨i, [], 2⟩]⟩
        (.running s.channels.length)
  | complete (c : ℕ) (result : Except Error V) :
      Steps display i key s (.complete result) (.running c) (s.send c (wire display result))
        (.removing c result)
  | remove (c : ℕ) (result : Except Error V) :
      Steps display i key s .remove (.removing c result)
        { s.dropSenders c 2 with inflight := s.inflight.erase key } (.led c result)
  | receive {c position : ℕ} {r : Option (Except String V)} : s.receive c position = some r →
      Steps display i key s .receive (.waiting c position) s (.joined c r)
  | leave {stage : Stage V} : (∀ c, ¬stage.Leads c) → (∀ c r, stage ≠ .joined c r) →
      Steps display i key s .drop stage s .dropped
  | abandon {stage : Stage V} {c : ℕ} : stage.Leads c →
      Steps display i key s .drop stage (s.dropSenders c 1) .dropped

theorem steps_of_step {a : Action V}
    (h : step display i key a s stage = some (s', stage')) :
    Steps display i key s a stage s' stage' := by
  unfold step at h
  split at h
  · obtain ⟨rfl, rfl⟩ := Prod.ext_iff.mp (Option.some.inj h)
    rcases hget : s.inflight.get key with _ | c
    · rw [enter, hget]
      exact .lead hget
    · rw [enter, hget]
      exact .join hget
  · cases h
    exact .complete _ _
  · cases h
    exact .remove _ _
  · obtain ⟨r, hr, heq⟩ := Option.map_eq_some_iff.mp h
    cases heq
    exact .receive hr
  · cases h
    exact .leave (fun c hc => hc) (by simp)
  · cases h
    exact .abandon rfl
  · cases h
    exact .abandon rfl
  · cases h
    exact .leave (fun c hc => hc) (by simp)
  · cases h

end Steps

/-- The channel of a caller, as far as it has come. -/
def Placed (display : Error → String) (s : RequestDeduper V) (i : ℕ) (key : String) :
    Stage V → Prop
  | .running c => s.inflight.get key = some c ∧
      ∃ ch, s.channels[c]? = some ch ∧ ch.leader = i ∧ ch.sent = []
  | .removing c result => s.inflight.get key = some c ∧
      ∃ ch, s.channels[c]? = some ch ∧ ch.leader = i ∧ ch.sent = [wire display result]
  | .led c result => ∃ ch, s.channels[c]? = some ch ∧ ch.leader = i ∧
      ch.sent = [wire display result]
  | .waiting c position => ∃ ch : Channel V, s.channels[c]? = some ch ∧ position ≤ ch.sent.length
  | .joined c (some w) => ∃ ch : Channel V, s.channels[c]? = some ch ∧ ch.sent = [w]
  | _ => True

/-- The channels in the map are open ones, and each is sent on once. -/
structure MapHolds (s : RequestDeduper V) : Prop where
  lt : ∀ k c, s.inflight.get k = some c → c < s.channels.length
  sent_le : ∀ (c : ℕ) (ch : Channel V), s.channels[c]? = some ch → ch.sent.length ≤ 1

section Keeps

variable {display : Error → String} {i : ℕ} {key : String} {s s' : RequestDeduper V}
  {stage stage' : Stage V}

/-- The channels are still there, with the same leaders, and nothing more is sent on them. -/
def Continues (s s' : RequestDeduper V) : Prop :=
  ∀ (c : ℕ) (ch : Channel V), s.channels[c]? = some ch →
    ∃ ch' : Channel V, s'.channels[c]? = some ch' ∧ ch'.leader = ch.leader ∧ ch'.sent = ch.sent

theorem continues_dropSenders (s : RequestDeduper V) (c n : ℕ) :
    Continues s (s.dropSenders c n) := by
  intro c' ch hch
  show ∃ ch', (s.channels.modify c _)[c']? = some ch' ∧ _
  by_cases hc : c = c'
  · subst hc
    rw [List.getElem?_modify_eq, hch]
    exact ⟨_, rfl, rfl, rfl⟩
  · rw [List.getElem?_modify_ne _ _ hc, hch]
    exact ⟨ch, rfl, rfl, rfl⟩

theorem getElem?_send {c : ℕ} {ch : Channel V} (hch : s.channels[c]? = some ch)
    (w : Except String V) :
    (s.send c w).channels[c]? = some { ch with sent := ch.sent ++ [w] } := by
  show (s.channels.modify c _)[c]? = _
  rw [List.getElem?_modify_eq, hch]
  rfl

theorem getElem?_send_of_ne {c c' : ℕ} (h : c' ≠ c) (w : Except String V) :
    (s.send c w).channels[c']? = s.channels[c']? := by
  exact List.getElem?_modify_ne _ _ (Ne.symm h)

/-- What is known of the channel of a caller outlasts a step that sends nothing, as long as a
leader's key stays in the map. -/
theorem Placed.continue (h : Placed display s i key stage) (hchannels : Continues s s')
    (hget : ∀ c, s.inflight.get key = some c → stage.Leads c → s'.inflight.get key = some c) :
    Placed display s' i key stage := by
  cases stage with
  | entering => exact trivial
  | running c =>
      obtain ⟨hkey, ch, hch, hleader, hsent⟩ := h
      obtain ⟨ch', hch', hleader', hsent'⟩ := hchannels c ch hch
      exact ⟨hget c hkey rfl, ch', hch', hleader'.trans hleader, hsent'.trans hsent⟩
  | removing c result =>
      obtain ⟨hkey, ch, hch, hleader, hsent⟩ := h
      obtain ⟨ch', hch', hleader', hsent'⟩ := hchannels c ch hch
      exact ⟨hget c hkey rfl, ch', hch', hleader'.trans hleader, hsent'.trans hsent⟩
  | waiting c position =>
      obtain ⟨ch, hch, hle⟩ := h
      obtain ⟨ch', hch', -, hsent'⟩ := hchannels c ch hch
      exact ⟨ch', hch', hsent' ▸ hle⟩
  | led c result =>
      obtain ⟨ch, hch, hleader, hsent⟩ := h
      obtain ⟨ch', hch', hleader', hsent'⟩ := hchannels c ch hch
      exact ⟨ch', hch', hleader'.trans hleader, hsent'.trans hsent⟩
  | joined c r =>
      cases r with
      | none => exact trivial
      | some w =>
          obtain ⟨ch, hch, hsent⟩ := h
          obtain ⟨ch', hch', -, hsent'⟩ := hchannels c ch hch
          exact ⟨ch', hch', hsent'.trans hsent⟩
  | dropped => exact trivial

/-- What a leader sends does not concern those who lead or have received. -/
theorem Placed.send {j c : ℕ} {key' : String} {ch : Channel V} (h : Placed display s j key' stage)
    (hch : s.channels[c]? = some ch) (hleader : ch.leader ≠ j) (hsent : ch.sent = [])
    (w : Except String V) : Placed display (s.send c w) j key' stage := by
  have hother : ∀ (c' : ℕ) (ch' : Channel V), s.channels[c']? = some ch' →
      ch'.leader = j ∨ ch'.sent ≠ [] → (s.send c w).channels[c']? = some ch' := by
    intro c' ch' hch' hor
    rw [getElem?_send_of_ne, hch']
    rintro rfl
    obtain rfl := Option.some.inj (hch.symm.trans hch')
    rcases hor with hor | hor
    · exact hleader hor
    · exact hor hsent
  cases stage with
  | entering => exact trivial
  | running c' =>
      obtain ⟨hkey, ch', hch', hleader', hsent'⟩ := h
      exact ⟨hkey, ch', hother c' ch' hch' (Or.inl hleader'), hleader', hsent'⟩
  | removing c' result =>
      obtain ⟨hkey, ch', hch', hleader', hsent'⟩ := h
      exact ⟨hkey, ch', hother c' ch' hch' (Or.inl hleader'), hleader', hsent'⟩
  | waiting c' position =>
      obtain ⟨ch', hch', hle⟩ := h
      by_cases hc : c' = c
      · subst hc
        obtain rfl := Option.some.inj (hch.symm.trans hch')
        refine ⟨_, getElem?_send hch w, hle.trans ?_⟩
        rw [List.length_append]
        exact Nat.le_add_right _ _
      · exact ⟨ch', (getElem?_send_of_ne hc w).trans hch', hle⟩
  | led c' result =>
      obtain ⟨ch', hch', hleader', hsent'⟩ := h
      exact ⟨ch', hother c' ch' hch' (Or.inl hleader'), hleader', hsent'⟩
  | joined c' r =>
      cases r with
      | none => exact trivial
      | some w' =>
          obtain ⟨ch', hch', hsent'⟩ := h
          exact ⟨ch', hother c' ch' hch' (Or.inr (by simp [hsent'])), hsent'⟩
  | dropped => exact trivial

/-- A leader's key is in the map, with the channel that it has opened. -/
theorem Placed.leads {c : ℕ} (h : Placed display s i key stage) (hleads : stage.Leads c) :
    s.inflight.get key = some c ∧
      ∃ ch : Channel V, s.channels[c]? = some ch ∧ ch.leader = i := by
  cases stage with
  | running c' =>
      obtain rfl : c' = c := hleads
      exact ⟨h.1, h.2.imp fun ch hch => ⟨hch.1, hch.2.1⟩⟩
  | removing c' result =>
      obtain rfl : c' = c := hleads
      exact ⟨h.1, h.2.imp fun ch hch => ⟨hch.1, hch.2.1⟩⟩
  | entering => cases hleads
  | waiting _ _ => cases hleads
  | led _ _ => cases hleads
  | joined _ _ => cases hleads
  | dropped => cases hleads

theorem mem_of_receive {c position : ℕ} {w : Except String V}
    (hr : s.receive c position = some (some w)) :
    ∃ ch : Channel V, s.channels[c]? = some ch ∧ w ∈ ch.sent := by
  rw [receive] at hr
  split at hr
  · cases hr
  · next ch hch =>
      split at hr
      · next w' hw =>
          cases hr
          exact ⟨ch, hch, List.mem_of_getElem? hw⟩
      · split at hr
        · cases hr
        · cases hr

/-- What is received is all that was sent. -/
theorem sent_of_receive (h : MapHolds s) {c position : ℕ} {w : Except String V}
    (hr : s.receive c position = some (some w)) :
    ∃ ch : Channel V, s.channels[c]? = some ch ∧ ch.sent = [w] := by
  obtain ⟨ch, hch, hmem⟩ := mem_of_receive hr
  have hle := h.sent_le c ch hch
  have hpos := List.length_pos_of_mem hmem
  obtain ⟨w', hsent⟩ := List.length_eq_one_iff.mp (show ch.sent.length = 1 by omega)
  rw [hsent, List.mem_singleton] at hmem
  exact ⟨ch, hch, hmem ▸ hsent⟩

theorem sent_of_getElem?_dropSenders {c n c' : ℕ} {ch' : Channel V}
    (h : (s.dropSenders c n).channels[c']? = some ch') :
    ∃ ch : Channel V, s.channels[c']? = some ch ∧ ch'.sent = ch.sent := by
  have hlt : c' < s.channels.length := by
    have hlt' : c' < (s.channels.modify c _).length := (List.getElem?_eq_some_iff.mp h).1
    rwa [List.length_modify] at hlt'
  have hch := List.getElem?_eq_getElem hlt
  obtain ⟨ch'', hch'', -, hsent⟩ := continues_dropSenders s c n c' _ hch
  obtain rfl := Option.some.inj (h.symm.trans hch'')
  exact ⟨_, hch, hsent⟩

theorem MapHolds.dropSenders (h : MapHolds s) (c n : ℕ) : MapHolds (s.dropSenders c n) := by
  constructor
  · intro k c' hget
    show c' < (s.channels.modify c _).length
    rw [List.length_modify]
    exact h.lt k c' hget
  · intro c' ch' hch'
    obtain ⟨ch, hch, hsent⟩ := sent_of_getElem?_dropSenders hch'
    rw [hsent]
    exact h.sent_le c' ch hch

/-- What an action keeps, of the map and the channels, of its own caller and of the others. -/
theorem steps_keeps {a : Action V} (h : Steps display i key s a stage s' stage')
    (hshared : MapHolds s) (hplaced : Placed display s i key stage) :
    MapHolds s' ∧ Placed display s' i key stage' ∧
      ∀ j key' u, j ≠ i → Placed display s j key' u → Placed display s' j key' u := by
  cases h with
  | join hget =>
      obtain ⟨ch, hch⟩ : ∃ ch, s.channels[_]? = some ch :=
        ⟨_, List.getElem?_eq_getElem (hshared.lt key _ hget)⟩
      refine ⟨hshared, ⟨ch, hch, ?_⟩, fun j key' u _ hu => hu⟩
      rw [hch]
      exact le_rfl
  | lead hget =>
      refine ⟨⟨?_, ?_⟩, ⟨IndexMap.get_insert_self _ _ _, _, List.getElem?_concat_length, rfl, rfl⟩,
        ?_⟩
      · intro k c hk
        rw [List.length_append, List.length_singleton]
        rw [IndexMap.get_insert] at hk
        split at hk
        · cases hk
          exact Nat.lt_succ_self _
        · exact Nat.lt_succ_of_lt (hshared.lt k c hk)
      · intro c ch hch
        rcases getElem?_concat_iff.mp hch with ⟨-, rfl⟩ | hch
        · exact Nat.zero_le 1
        · exact hshared.sent_le c ch hch
      · intro j key' u _ hu
        refine hu.continue (fun c ch hch => ?_) fun c hc _ => ?_
        · exact ⟨ch, getElem?_concat_iff.mpr (Or.inr hch), rfl, rfl⟩
        · rw [IndexMap.get_insert, if_neg, hc]
          rintro rfl
          rw [hget] at hc
          cases hc
  | complete c result =>
      obtain ⟨hkey, ch, hch, hleader, hsent⟩ := hplaced
      refine ⟨⟨?_, ?_⟩, ⟨hkey, _, getElem?_send hch _, hleader, ?_⟩, ?_⟩
      · intro k c hk
        show c < (s.channels.modify _ _).length
        rw [List.length_modify]
        exact hshared.lt k c hk
      · intro c' ch' hch'
        by_cases hc : c' = c
        · subst hc
          rw [getElem?_send hch] at hch'
          cases hch'
          rw [hsent]
          exact le_rfl
        · rw [getElem?_send_of_ne hc] at hch'
          exact hshared.sent_le c' ch' hch'
      · rw [hsent]
        rfl
      · intro j key' u hji hu
        exact hu.send hch (fun hj => hji (hj.symm.trans hleader)) hsent _
  | remove c result =>
      obtain ⟨hkey, ch, hch, hleader, hsent⟩ := hplaced
      have hcontinues := continues_dropSenders s c 2
      refine ⟨⟨?_, (hshared.dropSenders _ 2).sent_le⟩, ?_, ?_⟩
      · intro k c hk
        rw [IndexMap.get_erase] at hk
        split at hk
        · cases hk
        · exact (hshared.dropSenders _ 2).lt k c hk
      · obtain ⟨ch', hch', hleader', hsent'⟩ := hcontinues _ ch hch
        exact ⟨ch', hch', hleader'.trans hleader, hsent'.trans hsent⟩
      · intro j key' u hji hu
        refine hu.continue hcontinues fun c' hc' hleads => ?_
        rw [IndexMap.get_erase, if_neg, hc']
        rintro rfl
        obtain ⟨-, ch', hch', hleader'⟩ := hu.leads hleads
        obtain rfl := Option.some.inj (hc'.symm.trans hkey)
        obtain rfl := Option.some.inj (hch'.symm.trans hch)
        exact hji (hleader'.symm.trans hleader)
  | @receive c position r hr =>
      refine ⟨hshared, ?_, fun j key' u _ hu => hu⟩
      cases r with
      | none => exact trivial
      | some w => exact sent_of_receive hshared hr
  | leave hnot hjoined => exact ⟨hshared, trivial, fun j key' u _ hu => hu⟩
  | abandon hleads =>
      refine ⟨hshared.dropSenders _ 1, trivial, fun j key' u _ hu => ?_⟩
      exact hu.continue (continues_dropSenders s _ 1) fun c hc _ => hc

end Keeps

/-! ## §3  Strands and closed channels -/

/-- Every key in the map has a leader that is alive, and every caller that has joined a request
has received what its leader sent. -/
structure Sound (s : Threads (RequestDeduper V) (Caller V)) : Prop where
  led : ∀ k c, s.shared.inflight.get k = some c → ∃ (i : ℕ) (caller : Caller V),
    s.threads[i]? = some caller ∧ caller.key = k ∧ caller.stage.Leads c
  received : ∀ (i : ℕ) (caller : Caller V) (c : ℕ) (r : Option (Except String V)),
    s.threads[i]? = some caller → caller.stage = .joined c r →
      ∃ (w : Except String V) (ch : Channel V), r = some w ∧
        s.shared.channels[c]? = some ch ∧ ch.sent = [w]

/-- No leader's future is dropped, and no caller receives that has joined when its leader had
sent already. -/
def Attended (s : Threads (RequestDeduper V) (Caller V)) : Move String (Action V) → Prop
  | .act i .drop => ∀ caller : Caller V, s.threads[i]? = some caller →
      ∀ c, ¬caller.stage.Leads c
  | .act i .receive => ∀ caller : Caller V, s.threads[i]? = some caller →
      ∀ c position, caller.stage = .waiting c position →
        ∀ ch : Channel V, s.shared.channels[c]? = some ch → position < ch.sent.length
  | _ => True

section Runs

variable {display : Error → String} {moves : List (Move String (Action V))}
  {s s' : Threads (RequestDeduper V) (Caller V)}

theorem placed_of_run (hrun : (dedupes display).machine.run moves = some s) :
    Holds (fun shared _ => MapHolds shared)
      (fun shared i caller => Placed display shared i caller.key caller.stage) s := by
  refine holds_of_run ?_ ?_ ?_ hrun
  · constructor
    · intro k c h
      cases h
    · intro c ch h
      cases h
  · exact fun shared n key h => ⟨h, trivial⟩
  · intro s i a caller shared caller' h hcaller hstep
    obtain ⟨⟨s', stage⟩, hstep', heq⟩ := Option.map_eq_some_iff.mp hstep
    cases heq
    obtain ⟨hshared, hown, hothers⟩ :=
      steps_keeps (steps_of_step hstep') h.shared (h.thread i caller hcaller)
    exact ⟨hshared, hown, fun j u hji _ hu => hothers j u.key u.stage hji hu⟩

/-- No caller has found its channel closed. -/
def NoneClosed (s : Threads (RequestDeduper V) (Caller V)) : Prop :=
  ∀ (i : ℕ) (caller : Caller V), s.threads[i]? = some caller →
    ∀ c, caller.stage ≠ .joined c none

/-- Every key in the map has a leader that is alive. -/
def AllLed (s : Threads (RequestDeduper V) (Caller V)) : Prop :=
  ∀ k c, s.shared.inflight.get k = some c → ∃ (i : ℕ) (caller : Caller V),
    s.threads[i]? = some caller ∧ caller.key = k ∧ caller.stage.Leads c

theorem sound_iff (hrun : (dedupes display).machine.run moves = some s) :
    Sound s ↔ AllLed s ∧ NoneClosed s := by
  constructor
  · intro h
    refine ⟨h.led, fun i caller hcaller c hstage => ?_⟩
    obtain ⟨w, ch, hr, -, -⟩ := h.received i caller c none hcaller hstage
    cases hr
  · rintro ⟨hled, hclosed⟩
    refine ⟨hled, fun i caller c r hcaller hstage => ?_⟩
    have hplaced := (placed_of_run hrun).thread i caller hcaller
    rw [hstage] at hplaced
    cases r with
    | none => exact absurd hstage (hclosed i caller hcaller c)
    | some w =>
        obtain ⟨ch, hch, hsent⟩ := hplaced
        exact ⟨w, ch, rfl, hch, hsent⟩

/-- An action that is not the end of a leader's future leaves the keys in the map as well led as
they were. -/
theorem allLed_act_iff {i : ℕ} {caller : Caller V} {a : Action V} {shared : RequestDeduper V}
    {stage : Stage V} (h : Holds (fun shared _ => MapHolds shared)
      (fun shared i caller => Placed display shared i caller.key caller.stage) s)
    (hcaller : s.threads[i]? = some caller)
    (hsteps : Steps display i caller.key s.shared a caller.stage shared stage)
    (hstays : a = .drop → ∀ c, ¬caller.stage.Leads c) :
    AllLed ⟨shared, s.threads.set i { caller with stage := stage }⟩ ↔ AllLed s := by
  have hplaced := h.thread i caller hcaller
  obtain ⟨key, at_⟩ := caller
  -- the map is as it was, and the caller leads what it has led
  have hsame : ∀ (shared : RequestDeduper V) (stage : Stage V),
      shared.inflight = s.shared.inflight → (∀ c, stage.Leads c ↔ at_.Leads c) →
        (AllLed ⟨shared, s.threads.set i ⟨key, stage⟩⟩ ↔ AllLed s) := by
    intro shared stage hinflight hleads
    rw [AllLed, AllLed]
    rw [hinflight]
    refine forall₃_congr fun k c _ => ?_
    exact exists_set_iff hcaller (and_congr_right fun _ => hleads c)
  -- the map differs for the key of the caller only
  have hothers : ∀ (stage : Stage V) (k : String) (c : ℕ), k ≠ key →
      ((∃ (j : ℕ) (u : Caller V), (s.threads.set i ⟨key, stage⟩)[j]? = some u ∧ u.key = k ∧
          u.stage.Leads c) ↔
        ∃ (j : ℕ) (u : Caller V), s.threads[j]? = some u ∧ u.key = k ∧ u.stage.Leads c) := by
    intro stage k c hk
    refine exists_set_iff hcaller ?_
    exact iff_of_false (fun hand => hk hand.1.symm) fun hand => hk hand.1.symm
  cases hsteps with
  | join hget => exact hsame _ _ rfl fun c => Iff.rfl
  | lead hget =>
      constructor
      · intro hled k c hc
        have hk : k ≠ key := by
          rintro rfl
          rw [hget] at hc
          cases hc
        refine (hothers _ k c hk).mp (hled k c ?_)
        rw [IndexMap.get_insert, if_neg hk, hc]
      · intro hled k c hc
        rw [IndexMap.get_insert] at hc
        split at hc
        · next hk =>
            cases hc
            exact ⟨i, _, (getElem?_set_iff hcaller).mpr (Or.inl ⟨rfl, rfl⟩), hk.symm, rfl⟩
        · next hk => exact (hothers _ k c hk).mpr (hled k c hc)
  | complete c result => exact hsame _ _ rfl fun c' => Iff.rfl
  | remove c result =>
      constructor
      · intro hled k c' hc'
        by_cases hk : k = key
        · subst hk
          obtain rfl := Option.some.inj (hc'.symm.trans hplaced.1)
          exact ⟨i, _, hcaller, rfl, rfl⟩
        · refine (hothers _ k c' hk).mp (hled k c' ?_)
          rw [IndexMap.get_erase, if_neg hk, hc']
      · intro hled k c' hc'
        rw [IndexMap.get_erase] at hc'
        split at hc'
        · cases hc'
        · next hk => exact (hothers _ k c' hk).mpr (hled k c' hc')
  | receive hr => exact hsame _ _ rfl fun c' => Iff.rfl
  | leave hnot hjoined => exact hsame _ _ rfl fun c' => iff_of_false id (hnot c')
  | abandon hleads => exact absurd hleads (hstays rfl _)

/-- The key of a leader whose future is dropped stays in the map. -/
theorem not_allLed_of_abandon {i c : ℕ} {caller : Caller V}
    (h : Holds (fun shared _ => MapHolds shared)
      (fun shared i caller => Placed display shared i caller.key caller.stage) s)
    (hcaller : s.threads[i]? = some caller) (hleads : caller.stage.Leads c) :
    ¬AllLed ⟨s.shared.dropSenders c 1, s.threads.set i { caller with stage := .dropped }⟩ := by
  intro hled
  obtain ⟨hget, ch, hch, hleader⟩ := (h.thread i caller hcaller).leads hleads
  obtain ⟨j, u, hu, -, hleads'⟩ := hled caller.key c hget
  rcases (getElem?_set_iff hcaller).mp hu with ⟨-, rfl⟩ | ⟨hji, hu⟩
  · exact hleads'
  · obtain ⟨-, ch', hch', hleader'⟩ := (h.thread j u hu).leads hleads'
    obtain rfl := Option.some.inj (hch'.symm.trans hch)
    exact hji (hleader'.symm.trans hleader)

/-- A caller that receives has its channel closed unless something was sent since it joined. -/
theorem received_ne_none_iff {c position : ℕ} {r : Option (Except String V)}
    {deduper : RequestDeduper V} (hr : deduper.receive c position = some r) :
    r ≠ none ↔ ∀ ch : Channel V, deduper.channels[c]? = some ch → position < ch.sent.length := by
  rw [receive] at hr
  split at hr
  · cases hr
  · next ch hch =>
      rw [hch]
      split at hr
      · next w hw =>
          cases hr
          refine iff_of_true (by simp) ?_
          rintro ch' heq
          cases heq
          exact (List.getElem?_eq_some_iff.mp hw).1
      · next hw =>
          split at hr
          · cases hr
            refine iff_of_false (by simp) fun h => ?_
            exact absurd (h ch rfl) (Nat.not_lt.mpr (List.getElem?_eq_none_iff.mp hw))
          · cases hr

/-- An action other than a receipt closes no channel for its caller. -/
theorem stage_ne_joined {i : ℕ} {key : String} {a : Action V} {deduper deduper' : RequestDeduper V}
    {at_ stage : Stage V} (hsteps : Steps display i key deduper a at_ deduper' stage)
    (ha : a ≠ .receive) (c : ℕ) : stage ≠ .joined c none := by
  intro hstage
  cases hsteps with
  | receive hr => exact ha rfl
  | join hget => cases hstage
  | lead hget => cases hstage
  | complete c result => cases hstage
  | remove c result => cases hstage
  | leave hnot hjoined => cases hstage
  | abandon hleads => cases hstage

/-- Who acts has not found its channel closed. -/
theorem ne_joined_of_steps {i : ℕ} {key : String} {a : Action V}
    {deduper deduper' : RequestDeduper V} {at_ stage : Stage V}
    (hsteps : Steps display i key deduper a at_ deduper' stage) (c : ℕ) :
    at_ ≠ .joined c none := by
  intro hstage
  cases hsteps with
  | leave hnot hjoined => exact hjoined c none hstage
  | abandon hleads =>
      rw [hstage] at hleads
      exact hleads
  | receive hr => cases hstage
  | join hget => cases hstage
  | lead hget => cases hstage
  | complete c result => cases hstage
  | remove c result => cases hstage

/-- What one action does to the promise. -/
theorem sound_act_iff {i : ℕ} {caller : Caller V} {a : Action V} {shared : RequestDeduper V}
    {stage : Stage V} (h : Holds (fun shared _ => MapHolds shared)
      (fun shared i caller => Placed display shared i caller.key caller.stage) s)
    (hcaller : s.threads[i]? = some caller)
    (hsteps : Steps display i caller.key s.shared a caller.stage shared stage) :
    (AllLed ⟨shared, s.threads.set i { caller with stage := stage }⟩ ∧
        NoneClosed ⟨shared, s.threads.set i { caller with stage := stage }⟩) ↔
      (AllLed s ∧ NoneClosed s) ∧ Attended s (.act i a) := by
  have hclosed : NoneClosed ⟨shared, s.threads.set i { caller with stage := stage }⟩ ↔
      NoneClosed s ∧ ∀ c, stage ≠ .joined c none :=
    forall_set_iff (P := fun u : Caller V => ∀ c, u.stage ≠ .joined c none) hcaller
      (ne_joined_of_steps hsteps)
  have hled := allLed_act_iff h hcaller hsteps
  cases a with
  | enter =>
      rw [hled (fun hdrop => by cases hdrop), hclosed, and_iff_left (stage_ne_joined hsteps nofun)]
      exact (and_iff_left trivial).symm
  | complete result =>
      rw [hled (fun hdrop => by cases hdrop), hclosed, and_iff_left (stage_ne_joined hsteps nofun)]
      exact (and_iff_left trivial).symm
  | remove =>
      rw [hled (fun hdrop => by cases hdrop), hclosed, and_iff_left (stage_ne_joined hsteps nofun)]
      exact (and_iff_left trivial).symm
  | receive =>
      rw [hled (fun hdrop => by cases hdrop), hclosed, ← and_assoc]
      refine and_congr_right fun _ => ?_
      obtain ⟨key, at_⟩ := caller
      cases hsteps with
      | @receive c position r hr =>
          have hne : (∀ c', Stage.joined c r ≠ .joined c' none) ↔ r ≠ none := by simp
          rw [hne, received_ne_none_iff hr]
          constructor
          · intro h caller hcaller' c' position' hstage
            obtain rfl := Option.some.inj (hcaller.symm.trans hcaller')
            cases hstage
            exact h
          · exact fun h => h _ hcaller c position rfl
  | drop =>
      by_cases hstays : ∀ c, ¬caller.stage.Leads c
      · rw [hled (fun _ => hstays), hclosed, and_iff_left (stage_ne_joined hsteps nofun)]
        refine (and_iff_left fun u hu => ?_).symm
        obtain rfl := Option.some.inj (hcaller.symm.trans hu)
        exact hstays
      · refine iff_of_false (fun hand => ?_) fun hand => hstays (hand.2 caller hcaller)
        obtain ⟨key, at_⟩ := caller
        cases hsteps with
        | leave hnot hjoined => exact hstays hnot
        | abandon hleads => exact not_allLed_of_abandon h hcaller hleads hand.1

end Runs

/-- **No key is stranded and no caller finds its channel closed exactly if no leader's future is
dropped and every caller that receives had joined before its leader sent.** -/
theorem sound_iff_throughout (display : Error → String) (moves : List (Move String (Action V)))
    (s : Threads (RequestDeduper V) (Caller V))
    (hrun : (dedupes display).machine.run moves = some s) :
    Sound s ↔ (dedupes display).machine.Throughout Attended moves := by
  rw [sound_iff hrun]
  refine Machine.holds_iff_throughout (Q := fun s => AllLed s ∧ NoneClosed s) ?_ ?_ hrun
  · constructor
    · intro k c h
      cases h
    · intro i caller h
      cases h
  · intro moves m t s ht hs
    rcases m with key | ⟨i, a⟩
    · obtain rfl := Option.some.inj hs
      refine Iff.trans (and_congr ?_ ?_) (and_iff_left trivial).symm
      · refine forall₃_congr fun k c _ => ?_
        exact exists_spawn_iff fun hand => hand.2
      · refine forall_spawn_iff.trans (and_iff_left ?_)
        exact nofun
    · obtain ⟨caller, shared, caller', hcaller, hstep, rfl⟩ := next_act_iff.mp hs
      obtain ⟨⟨shared', stage⟩, hstep', heq⟩ := Option.map_eq_some_iff.mp hstep
      cases heq
      exact sound_act_iff (placed_of_run ht) hcaller (steps_of_step hstep')

/-- A leader whose future is dropped before its request is done. -/
def abandoned : List (Move String (Action ℕ)) :=
  [.spawn "GET /pets", .act 0 .enter, .act 0 .drop]

/-- A caller joins between what the leader sends and the removal of the key. -/
def joinedLate : List (Move String (Action ℕ)) :=
  [.spawn "GET /pets", .act 0 .enter, .act 0 (.complete (.ok 200)), .spawn "GET /pets",
    .act 1 .enter, .act 0 .remove, .act 1 .receive]

/-- A caller joins before the leader sends. -/
def joinedInTime : List (Move String (Action ℕ)) :=
  [.spawn "GET /pets", .act 0 .enter, .spawn "GET /pets", .act 1 .enter,
    .act 0 (.complete (.ok 200)), .act 1 .receive, .act 0 .remove]

theorem stranded_or_closed :
    (∃ s, (dedupes fun _ => "").machine.run abandoned = some s ∧ ¬Sound s) ∧
      ∃ s, (dedupes fun _ => "").machine.run joinedLate = some s ∧ ¬Sound s := by
  constructor
  · obtain ⟨s, hs, hget, hthreads⟩ : ∃ s, (dedupes fun _ => "").machine.run abandoned = some s ∧
        s.shared.inflight.get "GET /pets" = some 0 ∧ s.threads = [⟨"GET /pets", .dropped⟩] :=
      ⟨_, rfl, rfl, rfl⟩
    refine ⟨s, hs, fun h => ?_⟩
    obtain ⟨i, caller, hcaller, -, hleads⟩ := h.led _ _ hget
    rw [hthreads, List.getElem?_singleton] at hcaller
    split at hcaller
    · cases hcaller
      exact hleads
    · cases hcaller
  · obtain ⟨s, hs, hcaller⟩ : ∃ s, (dedupes fun _ => "").machine.run joinedLate = some s ∧
        s.threads[1]? = some ⟨"GET /pets", .joined 0 none⟩ := ⟨_, rfl, rfl⟩
    refine ⟨s, hs, fun h => ?_⟩
    obtain ⟨w, ch, hr, -, -⟩ := h.received 1 _ 0 none hcaller rfl
    cases hr

theorem sound_iff_throughout_joined :
    ∃ s, (dedupes fun _ => "").machine.run joinedInTime = some s ∧
      (Sound s ↔ (dedupes fun _ => "").machine.Throughout Attended joinedInTime) := by
  obtain ⟨s, hs⟩ : ∃ s, (dedupes fun _ => "").machine.run joinedInTime = some s := ⟨_, rfl⟩
  exact ⟨s, hs, sound_iff_throughout _ _ s hs⟩

end RequestDeduper

end SpecForge.Rust
