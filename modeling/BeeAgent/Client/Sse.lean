import BeeAgent.Data.Stringify
import BeeAgent.Decoding.Framing

/-! Server-sent events between the items route and the client: the route writes a frame for each
event and a comment for each heartbeat, the client cuts the frames out of a growing buffer. -/
namespace BeeAgent.Client
open Data
open Framing

/-- One parsed frame. -/
structure SseFrame where
  id : Option String
  event : Option String
  data : String
  deriving DecidableEq, Repr

/-- The boundary of two that begins earlier. -/
def earlierBoundary : Option ℕ → Option ℕ → Option (ℕ × ℕ)
  | none, none => none
  | some unix, none => some (unix, unix + 2)
  | some unix, some windows =>
    if unix < windows then some (unix, unix + 2) else some (windows, windows + 4)
  | none, some windows => some (windows, windows + 4)

def findFrameBoundary (buffer : List Char) : Option (ℕ × ℕ) :=
  earlierBoundary (indexOf ['\n', '\n'] buffer) (indexOf ['\r', '\n', '\r', '\n'] buffer)

/-- The fields of a frame as they are collected. -/
structure Fields where
  id : Option (List Char) := none
  event : Option (List Char) := none
  data : List (List Char) := []

/-- The name of a line's field and its value, without a space behind the colon. -/
def lineField (line : List Char) : List Char × List Char :=
  match indexOf [':'] line with
  | none => (line, [])
  | some separator =>
    let value := line.drop (separator + 1)
    (line.take separator, if value.head? = some ' ' then value.drop 1 else value)

def readLine (fields : Fields) (line : List Char) : Fields :=
  if line = [] ∨ line.head? = some ':' then fields
  else
    let (field, value) := lineField line
    if field = ['i', 'd'] then { fields with id := some value }
    else if field = ['e', 'v', 'e', 'n', 't'] then { fields with event := some value }
    else if field = ['d', 'a', 't', 'a'] then { fields with data := fields.data ++ [value] }
    else fields

def parseFrame (raw : List Char) : Option SseFrame :=
  let fields := (splitLines raw).foldl readLine {}
  if fields.id.isNone && fields.event.isNone && fields.data.isEmpty then none
  else some ⟨fields.id.map String.ofList, fields.event.map String.ofList,
    String.ofList (['\n'].intercalate fields.data)⟩

/-- The frames that the client yields for a body that comes in the given chunks. -/
def parseSseStream (chunks : List (List UInt8)) : List SseFrame :=
  let (raws, rest) := readAll findFrameBoundary {} chunks
  raws.filterMap parseFrame ++ (parseFrame rest).toList

/-! ### What the route writes -/

inductive ThreadEventType where
  | threadCreated | threadRenamed | turnStarted | turnCompleted | turnFailed | turnCancelled
  | itemStarted | itemDelta | itemCompleted | itemFailed | agentCheckpoint | agentRecoveryFailed
  | contextCompacted
  deriving DecidableEq, Repr

def ThreadEventType.text : ThreadEventType → String
  | .threadCreated => "thread.created"
  | .threadRenamed => "thread.renamed"
  | .turnStarted => "turn.started"
  | .turnCompleted => "turn.completed"
  | .turnFailed => "turn.failed"
  | .turnCancelled => "turn.cancelled"
  | .itemStarted => "item.started"
  | .itemDelta => "item.delta"
  | .itemCompleted => "item.completed"
  | .itemFailed => "item.failed"
  | .agentCheckpoint => "agent.checkpoint"
  | .agentRecoveryFailed => "agent.recovery_failed"
  | .contextCompacted => "context.compacted"

/-- A thread event on the wire, an object with its sequence and its type among the fields. A field
that is `undefined` is left out. -/
structure WireEvent where
  sequence : ℕ
  event : ThreadEventType
  fields : List (String × Value)
  sequence_mem : ("sequence", .number (.ofNat sequence)) ∈ fields
  event_mem : ("event", .string event.text) ∈ fields
  json : (Value.object fields).IsJson

namespace WireEvent

def value (e : WireEvent) : Value := .object e.fields

def idLine (e : WireEvent) : List Char :=
  ['i', 'd', ':', ' '] ++ (Number.ofNat e.sequence).text.toList

def eventLine (e : WireEvent) : List Char :=
  ['e', 'v', 'e', 'n', 't', ':', ' '] ++ e.event.text.toList

def dataLine (e : WireEvent) : List Char :=
  ['d', 'a', 't', 'a', ':', ' '] ++ stringifyText e.value

end WireEvent

inductive Written where
  | event (e : WireEvent)
  | heartbeat

namespace Written

def event? : Written → Option WireEvent
  | event e => some e
  | heartbeat => none

/-- `send` and the heartbeat. -/
def text : Written → List Char
  | event e => e.idLine ++ '\n' :: (e.eventLine ++ '\n' :: (e.dataLine ++ ['\n', '\n']))
  | heartbeat => [':', ' ', 'h', 'e', 'a', 'r', 't', 'b', 'e', 'a', 't', '\n', '\n']

end Written

/-- The frame carries the event: its sequence as id, its type, and data that parses back to it. -/
def Carries (frame : SseFrame) (e : WireEvent) : Prop :=
  frame.id = some (Number.ofNat e.sequence).text ∧ frame.event = some e.event.text ∧
    ∃ v, parseJson frame.data = some v ∧ v.Equal e.value

/-! ### Boundaries -/

/-- A boundary of either kind begins here. -/
def atBoundary (buffer : List Char) : Bool :=
  ['\n', '\n'].isPrefixOf buffer || ['\r', '\n', '\r', '\n'].isPrefixOf buffer

def boundaryLength (buffer : List Char) : ℕ := if ['\n', '\n'].isPrefixOf buffer then 2 else 4

theorem earlierBoundary_shift (unix windows : Option ℕ) :
    earlierBoundary (unix.map (· + 1)) (windows.map (· + 1)) =
      (earlierBoundary unix windows).map fun found => (found.1 + 1, found.2 + 1) := by
  cases unix <;> cases windows <;> simp only [Option.map_none, Option.map_some, earlierBoundary]
  split <;> split <;> first | rfl | omega

theorem findFrameBoundary_eq (buffer : List Char) :
    findFrameBoundary buffer =
      (search atBoundary buffer).map fun i => (i, i + boundaryLength (buffer.drop i)) := by
  induction buffer with
  | nil => rfl
  | cons c cs ih =>
    have hindex : ∀ needle, indexOf needle (c :: cs) =
        if needle.isPrefixOf (c :: cs) then some 0 else (indexOf needle cs).map (· + 1) :=
      fun _ => rfl
    have hsearch : search atBoundary (c :: cs) =
        if atBoundary (c :: cs) then some 0 else (search atBoundary cs).map (· + 1) := rfl
    rw [findFrameBoundary, hindex, hindex, hsearch]
    by_cases hunix : ['\n', '\n'].isPrefixOf (c :: cs)
    · have hwindows : ¬ ['\r', '\n', '\r', '\n'].isPrefixOf (c :: cs) := by
        rw [List.isPrefixOf, Bool.and_eq_true, beq_iff_eq] at hunix
        obtain ⟨rfl, -⟩ := hunix
        exact Bool.false_ne_true
      have hat : atBoundary (c :: cs) := by simp [atBoundary, hunix]
      rw [if_pos hunix, if_neg hwindows, if_pos hat, Option.map_some, List.drop_zero, boundaryLength,
        if_pos hunix]
      cases indexOf ['\r', '\n', '\r', '\n'] cs <;> rfl
    by_cases hwindows : ['\r', '\n', '\r', '\n'].isPrefixOf (c :: cs)
    · have hat : atBoundary (c :: cs) := by simp [atBoundary, hwindows]
      rw [if_neg hunix, if_pos hwindows, if_pos hat, Option.map_some, List.drop_zero, boundaryLength,
        if_neg hunix]
      cases indexOf ['\n', '\n'] cs <;> rfl
    · have hnot : ¬ atBoundary (c :: cs) := by simp [atBoundary, hunix, hwindows]
      rw [if_neg hunix, if_neg hwindows, if_neg hnot, earlierBoundary_shift, ← findFrameBoundary, ih,
        Option.map_map, Option.map_map]
      congr 1
      funext i
      simp only [Function.comp_apply, List.drop_succ_cons, Prod.mk.injEq, true_and]
      omega

theorem atBoundary_append {buffer : List Char} (more : List Char) (h : atBoundary buffer) :
    atBoundary (buffer ++ more) ∧ boundaryLength (buffer ++ more) = boundaryLength buffer ∧
      boundaryLength buffer ≤ buffer.length := by
  simp only [atBoundary, Bool.or_eq_true, List.isPrefixOf_iff_prefix] at h
  rcases h with ⟨rest, rfl⟩ | ⟨rest, rfl⟩
  · simp [atBoundary, boundaryLength]
  · simp [atBoundary, boundaryLength]

theorem not_atBoundary_append {c : Char} {cs : List Char} {i : ℕ} (more : List Char)
    (hi : search atBoundary cs = some i) (h : atBoundary (c :: cs) = false) :
    atBoundary (c :: (cs ++ more)) = false := by
  match cs with
  | [] => cases hi
  | [a] => simp [search, atBoundary] at hi
  | [a, b] =>
    have hab : a = '\n' ∧ b = '\n' := by
      simp [search, atBoundary] at hi
      tauto
    obtain ⟨rfl, rfl⟩ := hab
    simpa [atBoundary, List.isPrefixOf] using h
  | a :: b :: d :: cs => simpa [atBoundary, List.isPrefixOf] using h

theorem boundary_steady : Steady findFrameBoundary fun _ => True where
  within := by
    intro buffer stop next _ h
    rw [findFrameBoundary_eq, Option.map_eq_some_iff] at h
    obtain ⟨i, hi, heq⟩ := h
    obtain ⟨rfl, rfl⟩ := Prod.mk.inj heq
    obtain ⟨hlt, hat⟩ := search_lt rfl hi
    have hlength := (atBoundary_append [] hat).2.2
    rw [List.length_drop] at hlength
    have hpos : 0 < boundaryLength (buffer.drop i) := by
      rw [boundaryLength]
      split <;> decide
    omega
  append := by
    intro buffer found more _ h
    rw [findFrameBoundary_eq, Option.map_eq_some_iff] at h ⊢
    obtain ⟨i, hi, rfl⟩ := h
    obtain ⟨hlt, hat⟩ := search_lt rfl hi
    refine ⟨i, search_append rfl (fun _ more h => (atBoundary_append more h).1)
      (fun _ _ more _ => not_atBoundary_append more) hi more, ?_⟩
    rw [List.drop_append_of_le_length hlt.le, (atBoundary_append more hat).2.1]
  initial := fun _ => trivial
  rest := fun _ _ => trivial

/-- The frames do not depend on how the bytes are cut into chunks. -/
theorem parseSseStream_chunks {chunks chunks' : List (List UInt8)}
    (h : chunks.flatten = chunks'.flatten) : parseSseStream chunks = parseSseStream chunks' := by
  have hread := fun chunks => readAll_eq boundary_steady {} chunks rfl trivial
  simp only [parseSseStream, hread, h]

/-! ### Reading what is written -/

theorem plain_of_printable {line : List Char} (h : Printable line) : Plain line := by
  intro c hc
  have := h c hc
  constructor <;> rintro rfl <;> exact absurd this (by decide)

theorem search_line {line : List Char} (h : Plain line) (rest : List Char) :
    search atBoundary (line ++ rest) = (search atBoundary rest).map (· + line.length) := by
  refine search_append_of_not rest fun c hc cs => ?_
  obtain ⟨hn, hr⟩ := h c hc
  simp [atBoundary, List.isPrefixOf, hn.symm, hr.symm]

theorem search_lineEnd {c : Char} (hc : c ≠ '\n') (rest : List Char) :
    search atBoundary ('\n' :: c :: rest) = (search atBoundary (c :: rest)).map (· + 1) :=
  search_cons_of_not (by simp [atBoundary, List.isPrefixOf, hc.symm])

theorem find_block (raw rest : List Char)
    (h : search atBoundary (raw ++ '\n' :: '\n' :: rest) = some raw.length) :
    findFrameBoundary (raw ++ '\n' :: '\n' :: rest) = some (raw.length, raw.length + 2) := by
  rw [findFrameBoundary_eq, h, Option.map_some, List.drop_left]
  rfl

namespace Written

/-- What is written without the empty line behind it. -/
def raw : Written → List Char
  | event e => e.idLine ++ '\n' :: (e.eventLine ++ '\n' :: e.dataLine)
  | heartbeat => [':', ' ', 'h', 'e', 'a', 'r', 't', 'b', 'e', 'a', 't']

theorem text_eq (w : Written) : w.text = w.raw ++ ['\n', '\n'] := by
  cases w with
  | event e => simp [text, raw]
  | heartbeat => rfl

end Written

theorem WireEvent.plain (e : WireEvent) :
    Plain e.idLine ∧ Plain e.eventLine ∧ Plain e.dataLine := by
  have hnumber : (Number.ofNat e.sequence).Normal := fieldsJson_iff.mp e.json.1 _ e.sequence_mem
  have htype : Printable e.event.text.toList := by
    cases e.event <;> decide +kernel
  exact ⟨plain_of_printable (.append (by simp [Printable]) (printable_number hnumber)),
    plain_of_printable (.append (by simp [Printable]) htype),
    plain_of_printable (.append (by simp [Printable]) (printable_stringify _ e.json))⟩

/-- The first boundary behind what is written is the empty line. -/
theorem search_written (w : Written) (rest : List Char) :
    search atBoundary (w.raw ++ '\n' :: '\n' :: rest) = some w.raw.length := by
  have hempty : search atBoundary ('\n' :: '\n' :: rest) = some 0 := rfl
  cases w with
  | heartbeat =>
    have hplain : Plain Written.heartbeat.raw := plain_of_printable (by simp [Printable, Written.raw])
    rw [search_line hplain, hempty]
    simp
  | event e =>
    obtain ⟨hid, hevent, hdata⟩ := e.plain
    have heventLine : ∀ rest, search atBoundary ('\n' :: (e.eventLine ++ rest)) =
        (search atBoundary (e.eventLine ++ rest)).map (· + 1) := fun rest =>
      search_lineEnd (by decide) _
    have hdataLine : ∀ rest, search atBoundary ('\n' :: (e.dataLine ++ rest)) =
        (search atBoundary (e.dataLine ++ rest)).map (· + 1) := fun rest =>
      search_lineEnd (by decide) _
    simp only [Written.raw, List.append_assoc, List.cons_append]
    rw [search_line hid, heventLine, search_line hevent, hdataLine, search_line hdata, hempty]
    simp
    omega

theorem frames_written (written : List Written) :
    frames findFrameBoundary (written.flatMap Written.text) = (written.map Written.raw, []) := by
  induction written with
  | nil => rfl
  | cons w ws ih =>
    have htext : (w :: ws).flatMap Written.text =
        w.raw ++ '\n' :: '\n' :: ws.flatMap Written.text := by
      rw [List.flatMap_cons, w.text_eq, List.append_assoc]
      rfl
    have hdrop : (w.raw ++ '\n' :: '\n' :: ws.flatMap Written.text).drop (w.raw.length + 2) =
        ws.flatMap Written.text := by simp [List.drop_append]
    rw [htext, frames_some boundary_steady trivial (find_block _ _ (search_written w _)),
      List.take_left, hdrop, ih]
    rfl

theorem lineField_value (name value : List Char) (h : ':' ∉ name) :
    lineField (name ++ ':' :: ' ' :: value) = (name, value) := by
  have hsearch : indexOf [':'] (name ++ ':' :: ' ' :: value) = some name.length := by
    rw [indexOf, search_append_of_not]
    · simp [search, List.isPrefixOf]
    · intro c hc cs
      have : c ≠ ':' := fun heq => h (heq ▸ hc)
      simp [List.isPrefixOf, this.symm]
  have hvalue : (name ++ ':' :: ' ' :: value).drop (name.length + 1) = ' ' :: value := by
    rw [← List.drop_drop, List.drop_left]
    rfl
  simp only [lineField, hsearch, hvalue, List.take_left]
  rfl

def frameOf (e : WireEvent) : SseFrame :=
  ⟨some (Number.ofNat e.sequence).text, some e.event.text, stringify e.value⟩

theorem parseFrame_event (e : WireEvent) :
    parseFrame (Written.event e).raw = some (frameOf e) := by
  obtain ⟨hid, hevent, hdata⟩ := e.plain
  have hlines : splitLines (Written.event e).raw = [e.idLine, e.eventLine, e.dataLine] := by
    rw [Written.raw, splitLines_plain_append hid, splitLines_plain_append hevent,
      splitLines_plain hdata]
  have hidField : lineField e.idLine = (['i', 'd'], (Number.ofNat e.sequence).text.toList) :=
    lineField_value ['i', 'd'] _ (by decide)
  have heventField : lineField e.eventLine =
      (['e', 'v', 'e', 'n', 't'], e.event.text.toList) :=
    lineField_value ['e', 'v', 'e', 'n', 't'] _ (by decide)
  have hdataField : lineField e.dataLine = (['d', 'a', 't', 'a'], stringifyText e.value) :=
    lineField_value ['d', 'a', 't', 'a'] _ (by decide)
  have hfields : (splitLines (Written.event e).raw).foldl readLine {} =
      { id := some (Number.ofNat e.sequence).text.toList, event := some e.event.text.toList
        data := [stringifyText e.value] } := by
    have hlive : (e.idLine ≠ [] ∧ e.idLine.head? ≠ some ':') ∧
        (e.eventLine ≠ [] ∧ e.eventLine.head? ≠ some ':') ∧
        (e.dataLine ≠ [] ∧ e.dataLine.head? ≠ some ':') := by
      simp [WireEvent.idLine, WireEvent.eventLine, WireEvent.dataLine]
    simp only [hlines, List.foldl_cons, List.foldl_nil, readLine, hlive, hidField, heventField,
      hdataField, or_self, if_false]
    rfl
  rw [parseFrame, hfields]
  simp [frameOf, stringifyText]

theorem parseFrame_heartbeat : parseFrame Written.heartbeat.raw = none := by decide +kernel

theorem filterMap_parseFrame (written : List Written) :
    (written.map Written.raw).filterMap parseFrame =
      (written.filterMap Written.event?).map frameOf := by
  induction written with
  | nil => rfl
  | cons w ws ih =>
    cases w with
    | event e => simp [parseFrame_event, Written.event?, ih]
    | heartbeat =>
      rw [List.map_cons, List.filterMap_cons_none parseFrame_heartbeat, ih]
      rfl

theorem frameOf_carries (e : WireEvent) : Carries (frameOf e) e :=
  ⟨rfl, rfl, e.value.reread, parseJson_stringify e.json, equal_reread _ e.json⟩

/-- However the bytes of what the route writes are cut into chunks, the client yields one frame for
each event, in order, that carries it; and for any bytes the frames do not depend on the chunks. -/
theorem parseSseStream_inverts {written : List Written} {chunks : List (List UInt8)}
    (h : chunks.flatten = Utf8.encode (written.flatMap Written.text)) :
    List.Forall₂ Carries (parseSseStream chunks) (written.filterMap Written.event?) ∧
    ∀ bytes bytes' : List (List UInt8), bytes.flatten = bytes'.flatten →
      parseSseStream bytes = parseSseStream bytes' := by
  refine ⟨?_, fun _ _ => parseSseStream_chunks⟩
  have hmark : (written.flatMap Written.text).head? ≠ some Utf8.byteOrderMark := by
    cases written with
    | nil => simp
    | cons w ws =>
      have hi : 'i' ≠ Utf8.byteOrderMark ∧ ':' ≠ Utf8.byteOrderMark := by decide
      cases w with
      | event e => simpa [Written.text, WireEvent.idLine] using hi.1
      | heartbeat => simpa [Written.text] using hi.2
  obtain ⟨hread, hfinish⟩ := Utf8.TextDecoder.read_encode hmark
  have hframes : parseSseStream chunks = (written.filterMap Written.event?).map frameOf := by
    rw [parseSseStream, readAll_eq boundary_steady {} chunks rfl trivial, h, hread, hfinish,
      List.nil_append, frames_written, ← filterMap_parseFrame]
    exact List.append_nil _
  rw [hframes, List.forall₂_map_left_iff]
  exact List.forall₂_same.mpr fun e _ => frameOf_carries e

def sampleEvent : WireEvent where
  sequence := 1
  event := .itemDelta
  fields := [("sequence", .number (.ofNat 1)), ("event", .string "item.delta"),
    ("delta", .string "a line\n\nand a line of é")]
  sequence_mem := by simp
  event_mem := by simp [ThreadEventType.text]
  json := ⟨⟨by unfold Value.IsJson; decide, trivial, trivial, trivial⟩, by decide⟩

/-- Every byte in a chunk of its own. -/
theorem parseSseStream_inverts_sample :
    List.Forall₂ Carries (parseSseStream ((Utf8.encode ([Written.heartbeat, .event sampleEvent].flatMap
      Written.text)).map fun b => [b])) [sampleEvent] :=
  (parseSseStream_inverts (by rw [← List.flatMap_def, List.flatMap_singleton'])).1

end BeeAgent.Client
