import BeeAgent.Runtime.ModelRequests
import Mathlib.Data.List.Forall2

/-! A model request is rebuilt from what was recorded of it, whatever else the service does. -/
namespace BeeAgent.Runtime.ModelRequests
open Data Context Chronicle

/-! ### What a request is described by -/

def ContextBundle.parts (bundle : ContextBundle) : List Part :=
  bundle.messages.zipIdx.map (fun p => messagePart p.1 p.2) ++
    bundle.tools.zipIdx.map (fun p => toolPart p.1 p.2) ++
    (bundle.decisionSchema.map decisionPart).toList

theorem describeBundle_eq (bundle : ContextBundle) :
    describeBundle bundle = bundle.parts.foldl Described.add {} := by
  rw [describeBundle, ContextBundle.parts, List.foldl_append, List.foldl_append, List.foldl_map,
    List.foldl_map]
  cases bundle.decisionSchema <;> rfl

theorem toString_injective : Function.Injective fun n : ℕ => toString n := by
  intro m n h
  have hdigits := congrArg (fun s : String => Nat.ofDigitChars 10 s.toList 0) h
  simpa only [toList_toString, Nat.ofDigitChars_ten_toDigits] using hdigits

theorem nodup_numbered {α : Type} (label : String) (as : List α) :
    (as.zipIdx.map fun p => label ++ toString p.2).Nodup := by
  have hsplit : (as.zipIdx.map fun p => label ++ toString p.2) =
      (as.zipIdx.map Prod.snd).map fun n => label ++ toString n := by
    rw [List.map_map]
    rfl
  rw [hsplit, List.zipIdx_map_snd]
  exact (List.nodup_range' 1).map fun _ _ h => toString_injective ((String.append_right_inj _).mp h)

theorem head?_append {label rest : String} {c : Char} (h : label.toList.head? = some c) :
    (label ++ rest).toList.head? = some c := by
  rw [String.toList_append, List.head?_append, h]
  rfl

theorem nodup_sourceIds (bundle : ContextBundle) : (bundle.parts.map Part.sourceId).Nodup := by
  have hmessage : ∀ id ∈ bundle.messages.zipIdx.map fun p => "message:" ++ toString p.2,
      id.toList.head? = some 'm' := by
    intro id hid
    obtain ⟨p, -, rfl⟩ := List.mem_map.mp hid
    exact head?_append rfl
  have htool : ∀ id ∈ bundle.tools.zipIdx.map fun p => "tool:" ++ toString p.2,
      id.toList.head? = some 't' := by
    intro id hid
    obtain ⟨p, -, rfl⟩ := List.mem_map.mp hid
    exact head?_append rfl
  have hdecision : ∀ id ∈ (bundle.decisionSchema.map fun _ => "decision:0").toList,
      id.toList.head? = some 'd' := by
    intro id hid
    obtain ⟨_, -, rfl⟩ := Option.map_eq_some_iff.mp (Option.mem_toList.mp hid)
    rfl
  have hids : bundle.parts.map Part.sourceId =
      (bundle.messages.zipIdx.map fun p => "message:" ++ toString p.2) ++
        (bundle.tools.zipIdx.map fun p => "tool:" ++ toString p.2) ++
        (bundle.decisionSchema.map fun _ => "decision:0").toList := by
    rw [ContextBundle.parts, List.map_append, List.map_append, List.map_map, List.map_map]
    cases bundle.decisionSchema <;> rfl
  rw [hids]
  refine List.nodup_append.mpr ⟨List.nodup_append.mpr ⟨nodup_numbered _ _, nodup_numbered _ _,
    fun a ha b hb heq => ?_⟩, ?_, fun a ha b hb heq => ?_⟩
  · have hheads := (hmessage a ha).symm.trans (heq ▸ htool b hb)
    cases hheads
  · cases bundle.decisionSchema <;> simp
  · rcases List.mem_append.mp ha with ha | ha
    · have hheads := (hmessage a ha).symm.trans (heq ▸ hdecision b hb)
      cases hheads
    · have hheads := (htool a ha).symm.trans (heq ▸ hdecision b hb)
      cases hheads

def Part.draft (part : Part) (priority : ℕ) : ContextSectionDraft where
  kind := part.kind
  sourceIds := [part.sourceId]
  rendererVersion := part.rendererVersion
  priority := priority
  content := canonicalJson part.value

theorem sections_foldl (parts : List Part) (d : Described) :
    (parts.foldl Described.add d).sections =
      d.sections ++ (parts.zipIdx d.priority).map fun p => p.1.draft p.2 := by
  induction parts generalizing d with
  | nil => simp
  | cons part parts ih =>
    rw [List.foldl_cons, ih]
    simp [Described.add, Part.draft]

theorem get_sources_of_notMem {parts : List Part} {id : String}
    (h : id ∉ parts.map Part.sourceId) (d : Described) :
    (parts.foldl Described.add d).sources.get id = d.sources.get id := by
  induction parts generalizing d with
  | nil => rfl
  | cons part parts ih =>
    simp only [List.map_cons, List.mem_cons, not_or] at h
    rw [List.foldl_cons, ih h.2]
    exact OrderedMap.get_set_of_ne h.1 _ _

theorem get_sources {parts : List Part} (hnodup : (parts.map Part.sourceId).Nodup) {part : Part}
    (h : part ∈ parts) (d : Described) :
    (parts.foldl Described.add d).sources.get part.sourceId = some (canonicalJson part.value) := by
  induction parts generalizing d with
  | nil => cases h
  | cons first parts ih =>
    obtain ⟨hfirst, hrest⟩ := List.nodup_cons.mp hnodup
    rw [List.foldl_cons]
    rcases List.mem_cons.mp h with rfl | h
    · rw [get_sources_of_notMem hfirst]
      exact OrderedMap.get_set_self ..
    · exact ih hrest h _

/-! ### Rebuilding a described bundle -/

theorem identityRenderer_get {version : String}
    (h : version = messageRenderer ∨ version = toolRenderer ∨ version = decisionRenderer) :
    renderers.get version = some (identityRenderer version) := by
  rcases h with rfl | rfl | rfl <;> rfl

def ContextBundle.drafts (bundle : ContextBundle) : List ContextSectionDraft :=
  bundle.parts.zipIdx.map fun p => p.1.draft p.2

theorem rendererVersion_of_mem {bundle : ContextBundle} {part : Part} (h : part ∈ bundle.parts) :
    part.rendererVersion = messageRenderer ∨ part.rendererVersion = toolRenderer ∨
      part.rendererVersion = decisionRenderer := by
  simp only [ContextBundle.parts, List.mem_append, List.mem_map, Option.mem_toList,
    Option.map_eq_some_iff] at h
  rcases h with (⟨_, -, rfl⟩ | ⟨_, -, rfl⟩) | ⟨_, -, rfl⟩
  · exact .inl rfl
  · exact .inr (.inl rfl)
  · exact .inr (.inr rfl)

theorem drafts_sorted (bundle : ContextBundle) :
    bundle.drafts.Pairwise fun a b => a.priority ≤ b.priority := by
  have hnumbers : (bundle.parts.zipIdx.map Prod.snd).Pairwise (· < ·) := by
    rw [List.zipIdx_map_snd]
    exact List.pairwise_lt_range' 1
  exact List.pairwise_map.mpr ((List.pairwise_map.mp hnumbers).imp le_of_lt)

/-- The sections of a recorded bundle come back in their order, with their contents. -/
theorem rebuildContextInput_describeBundle {sha256 : String → String} {bundle : ContextBundle}
    {manifest : ContextManifest}
    (h : manifest.sections = (describeBundle bundle).sections.map (·.toSection sha256)) :
    rebuildContextInput sha256 manifest (describeBundle bundle).sources renderers =
      .ok (bundle.drafts.map fun draft => ⟨draft.toSection sha256, draft.content⟩) := by
  have hsections : (describeBundle bundle).sections = bundle.drafts := by
    rw [describeBundle_eq, sections_foldl]
    rfl
  refine rebuildContextInput_of_sorted (h.trans (by rw [hsections])) (drafts_sorted bundle) ?_
  intro draft hdraft
  obtain ⟨⟨part, n⟩, hpart, rfl⟩ := List.mem_map.mp hdraft
  have hmem : part ∈ bundle.parts := List.fst_mem_of_mem_zipIdx hpart
  refine ⟨_, identityRenderer_get (rendererVersion_of_mem hmem), ?_⟩
  have hsource := get_sources (nodup_sourceIds bundle) hmem {}
  rw [← describeBundle_eq] at hsource
  simp [identityRenderer, Part.draft, hsource]

theorem parseText_canonicalJson {v : Value} (h : v.IsJson) :
    parseText (canonicalJson v) = .ok v.ordered := by
  rw [parseText, parseJson_canonicalJson h]

def ContextBundle.collectParts (bundle : ContextBundle) (parts : List Part) :
    Except RebuildError ContextBundle :=
  parts.foldlM (fun bundle part => bundle.collect part.rendererVersion (canonicalJson part.value))
    bundle

theorem foldlM_drafts {sha256 : String → String} (parts : List Part) (n : ℕ)
    (bundle : ContextBundle) :
    (((parts.zipIdx n).map fun p => p.1.draft p.2).map fun draft =>
      (⟨draft.toSection sha256, draft.content⟩ : RebuiltSection)).foldlM
        (fun bundle r => bundle.collect r.section_.rendererVersion r.text) bundle =
    bundle.collectParts parts := by
  induction parts generalizing n bundle with
  | nil => rfl
  | cons part parts ih =>
    rw [List.zipIdx_cons, List.map_cons, List.map_cons, List.foldlM_cons,
      ContextBundle.collectParts, List.foldlM_cons]
    exact congrArg _ (funext fun bundle => ih (n + 1) bundle)

theorem collect_messages {messages : List Value} (h : ∀ message ∈ messages, message.IsJson)
    (n : ℕ) (bundle : ContextBundle) :
    bundle.collectParts ((messages.zipIdx n).map fun p => messagePart p.1 p.2) =
      .ok { bundle with messages := bundle.messages ++ messages.map Value.ordered } := by
  induction messages generalizing n bundle with
  | nil => simp [ContextBundle.collectParts, pure, Except.pure]
  | cons message messages ih =>
    have hfirst : bundle.collect messageRenderer (canonicalJson message) =
        .ok { bundle with messages := bundle.messages ++ [message.ordered] } := by
      rw [ContextBundle.collect, if_pos rfl,
        parseText_canonicalJson (h message (List.mem_cons_self ..))]
      rfl
    rw [List.zipIdx_cons, List.map_cons, ContextBundle.collectParts, List.foldlM_cons]
    refine (congrArg (· >>= _) hfirst).trans ((ih (fun m hm => h m (List.mem_cons_of_mem _ hm))
      (n + 1) _).trans ?_)
    simp

theorem collect_tools {tools : List Value} (h : ∀ tool ∈ tools, tool.IsJson)
    (n : ℕ) (bundle : ContextBundle) :
    bundle.collectParts ((tools.zipIdx n).map fun p => toolPart p.1 p.2) =
      .ok { bundle with tools := bundle.tools ++ tools.map Value.ordered } := by
  induction tools generalizing n bundle with
  | nil => simp [ContextBundle.collectParts, pure, Except.pure]
  | cons tool tools ih =>
    have hfirst : bundle.collect toolRenderer (canonicalJson tool) =
        .ok { bundle with tools := bundle.tools ++ [tool.ordered] } := by
      rw [ContextBundle.collect, if_neg (by decide), if_pos rfl,
        parseText_canonicalJson (h tool (List.mem_cons_self ..))]
      rfl
    rw [List.zipIdx_cons, List.map_cons, ContextBundle.collectParts, List.foldlM_cons]
    refine (congrArg (· >>= _) hfirst).trans ((ih (fun t ht => h t (List.mem_cons_of_mem _ ht))
      (n + 1) _).trans ?_)
    simp

/-- A bundle with the fields of every object in the order of their keys. -/
def ContextBundle.ordered (bundle : ContextBundle) : ContextBundle where
  messages := bundle.messages.map Value.ordered
  tools := bundle.tools.map Value.ordered
  decisionSchema := bundle.decisionSchema.map Value.ordered

theorem collect_parts {bundle : ContextBundle} (h : bundle.IsJson) :
    ContextBundle.collectParts ⟨[], [], none⟩ bundle.parts = .ok bundle.ordered := by
  rw [ContextBundle.collectParts, ContextBundle.parts, List.foldlM_append, List.foldlM_append]
  refine (congrArg (fun b => (b >>= _) >>= _) (collect_messages h.messages 0 _)).trans ?_
  refine (congrArg (· >>= _) (collect_tools h.tools 0 _)).trans ?_
  cases hschema : bundle.decisionSchema with
  | none => simp [ContextBundle.ordered, hschema, bind, Except.bind, pure, Except.pure]
  | some schema =>
    have hcollect : ∀ b : ContextBundle, b.collect decisionRenderer (canonicalJson schema) =
        .ok { b with decisionSchema := some schema.ordered } := by
      intro b
      rw [ContextBundle.collect, if_neg (by decide), if_neg (by decide), if_pos rfl,
        parseText_canonicalJson (h.decisionSchema schema hschema)]
      rfl
    simp [ContextBundle.ordered, hschema, decisionPart, hcollect, bind, Except.bind, pure,
      Except.pure]

theorem canonicalJson_array_ordered (vs : List Value) :
    canonicalJson (.array (vs.map Value.ordered)) = canonicalJson (.array vs) := by
  rw [← orderedItems_eq]
  exact canonicalJson_ordered (.array vs)

theorem digest_ordered (sha256 : String → String) (bundle : ContextBundle) :
    digest sha256 bundle.ordered = digest sha256 bundle := by
  have htext : canonicalJson bundle.ordered.toValue = canonicalJson bundle.toValue := by
    have hfields : canonicalFields
        ([("messages", .array bundle.ordered.messages), ("tools", .array bundle.ordered.tools)] ++
          optionalField "decisionSchema" bundle.ordered.decisionSchema) =
        canonicalFields ([("messages", .array bundle.messages), ("tools", .array bundle.tools)] ++
          optionalField "decisionSchema" bundle.decisionSchema) := by
      rw [canonicalFields_eq_map, canonicalFields_eq_map]
      cases hschema : bundle.decisionSchema <;>
        simp [ContextBundle.ordered, hschema, optionalField, canonicalJson_array_ordered,
          canonicalJson_ordered]
    exact congrArg (fun fields => joinFields (sortByKey fields)) hfields
  rw [digest, digest, htext]

theorem ContextBundle.equal_ordered {bundle : ContextBundle} (h : bundle.IsJson) :
    bundle.ordered.Equal bundle where
  messages := List.forall₂_map_left_iff.mpr
    (List.forall₂_same.mpr fun message hm => Data.equal_ordered message (h.messages message hm))
  tools := List.forall₂_map_left_iff.mpr
    (List.forall₂_same.mpr fun tool ht => Data.equal_ordered tool (h.tools tool ht))
  decisionSchema := by
    cases hschema : bundle.decisionSchema with
    | none =>
      rw [ordered, hschema]
      exact .none
    | some schema =>
      rw [ordered, hschema]
      exact .some (Data.equal_ordered schema (h.decisionSchema schema hschema))

/-- What `generate` records of a request. -/
structure Records (sha256 : String → String) (bundle : ContextBundle) (manifest : ContextManifest)
    (requested : RequestedPayload) : Prop where
  sections : manifest.sections = (describeBundle bundle).sections.map (·.toSection sha256)
  sources : requested.sources = (describeBundle bundle).sources
  inputDigest : requested.inputDigest = digest sha256 bundle
  valid : requested.issues = []

/-- An event that ends a request. -/
def ModelEvent.Terminal : ModelEvent → Prop
  | .completed _ | .failed .. => True
  | .manifest _ | .requested _ => False

theorem read_terminal {events : List (ChronicleEvent ModelEvent)}
    (h : ∀ event ∈ events, event.payload.Terminal) (read : Read) :
    events.foldlM (fun read event => read.event event.payload) read = .ok read := by
  induction events with
  | nil => rfl
  | cons event events ih =>
    have hevent : read.event event.payload = .ok read := by
      have hterminal := h event (List.mem_cons_self ..)
      cases hpayload : event.payload with
      | manifest | requested => simp [hpayload, ModelEvent.Terminal] at hterminal
      | completed | failed => rfl
    rw [List.foldlM_cons, hevent]
    exact ih fun e he => h e (List.mem_cons_of_mem _ he)

/-- A stream that holds the records of a request, and after them its end. -/
def Holds (sha256 : String → String) (stream : List (ChronicleEvent ModelEvent))
    (bundle : ContextBundle) : Prop :=
  ∃ manifest requested m r rest, Records sha256 bundle manifest requested ∧
    stream = ⟨m, .manifest manifest⟩ :: ⟨r, .requested requested⟩ :: rest ∧
    ∀ event ∈ rest, event.payload.Terminal

theorem rebuildModelRequest_of_holds {sha256 : String → String} {streams : Streams}
    {requestId : ℕ} {bundle : ContextBundle}
    (h : Holds sha256 (streams (modelRequestStreamId requestId)) bundle) (hjson : bundle.IsJson) :
    ∃ manifest, rebuildModelRequest sha256 streams requestId =
      .ok ⟨requestId, manifest, bundle.ordered⟩ := by
  obtain ⟨manifest, requested, m, r, rest, hrecords, hstream, hrest⟩ := h
  have hrequested : (parse RequestedPayload.issues requested).mapError RebuildError.payload =
      .ok requested := by
    rw [parse, if_pos hrecords.valid]
    rfl
  have hread : (streams (modelRequestStreamId requestId)).foldlM
      (fun read event => read.event event.payload) ({} : Read) =
      .ok ⟨some manifest, some requested⟩ := by
    rw [hstream, List.foldlM_cons, Read.event]
    refine Eq.trans ?_ (read_terminal hrest _)
    simp only [Read.event, List.foldlM_cons, hrequested, bind, Except.bind, pure, Except.pure]
  have hrebuilt : (rebuildContextInput sha256 manifest requested.sources renderers).mapError
      RebuildError.context =
      .ok (bundle.drafts.map fun draft => ⟨draft.toSection sha256, draft.content⟩) := by
    rw [hrecords.sources, rebuildContextInput_describeBundle hrecords.sections]
    rfl
  have hcollect : (bundle.drafts.map fun draft =>
      (⟨draft.toSection sha256, draft.content⟩ : RebuiltSection)).foldlM
        (fun bundle r => bundle.collect r.section_.rendererVersion r.text) ⟨[], [], none⟩ =
      Except.ok bundle.ordered :=
    (foldlM_drafts bundle.parts 0 _).trans (collect_parts hjson)
  refine ⟨manifest, ?_⟩
  rw [rebuildModelRequest, hread]
  simp only [bind, Except.bind, hrebuilt, hcollect, digest_ordered, hrecords.inputDigest]
  exact if_neg (not_not_intro rfl)

/-! ### Runs -/

section Runs
variable {o : ModelRequestServiceOptions} {w w' : World}

theorem recordedEvents_ok {requestId manifestId : ℕ} {input : ModelRequestInput}
    {events : List ModelEvent} (h : recordedEvents o requestId manifestId input = .ok events) :
    ∃ manifest requested, Records o.sha256 input.bundle manifest requested ∧
      events = [.manifest manifest, .requested requested] := by
  simp only [recordedEvents, bind, Except.bind] at h
  split at h
  · cases h
  next manifest hmanifest =>
  split at h
  · cases h
  next requested hrequested =>
  split at h
  · cases h
  next event hevent =>
  obtain ⟨-, rfl⟩ := parse_eq_ok.mp hmanifest
  obtain ⟨hvalid, rfl⟩ := parse_eq_ok.mp hrequested
  rw [contextManifestEvent, parse] at hevent
  split at hevent
  · cases hevent
    exact ⟨_, _, ⟨rfl, rfl, rfl, hvalid⟩, (Except.ok.inj h).symm⟩
  · cases hevent

theorem World.generate_ok {input : ModelRequestInput} (h : w.generate o input = .ok w') :
    ∃ manifest requested stream, Records o.sha256 input.bundle manifest requested ∧
      append (w.streams (modelRequestStreamId w.draws))
        [⟨w.draws + 2, .manifest manifest⟩, ⟨w.draws + 3, .requested requested⟩] 1 = .ok stream ∧
      w' = {
        streams := Function.update w.streams (modelRequestStreamId w.draws) stream
        draws := w.draws + 4
        sent := (w.draws, input.bundle) :: w.sent } := by
  simp only [generate, bind, Except.bind] at h
  cases hevents : recordedEvents o w.draws (w.draws + 1) input with
  | error issues => simp [hevents, Except.mapError] at h
  | ok events =>
    obtain ⟨manifest, requested, hrecords, rfl⟩ := recordedEvents_ok hevents
    simp only [hevents, Except.mapError] at h
    split at h
    · cases h
    next stream hstream =>
    split at hstream
    · cases hstream
    next stream happend =>
    cases hstream
    exact ⟨manifest, requested, _, hrecords, happend, (Except.ok.inj h).symm⟩

theorem World.appendTerminal_ok {requestId expectedSequence : ℕ} {outcome : Outcome}
    (h : w.appendTerminal requestId expectedSequence outcome = .ok w') :
    ∃ stream, append (w.streams (modelRequestStreamId requestId))
        [⟨w.draws, outcome.event requestId⟩] expectedSequence = .ok stream ∧
      w' = { w with
        streams := Function.update w.streams (modelRequestStreamId requestId) stream
        draws := w.draws + 1 } := by
  simp only [appendTerminal, bind, Except.bind] at h
  split at h
  · cases h
  next stream hstream => exact ⟨stream, hstream, (Except.ok.inj h).symm⟩

theorem Outcome.terminal_event (requestId : ℕ) (outcome : Outcome) :
    (outcome.event requestId).Terminal := by
  cases outcome <;> trivial

theorem Holds.append {sha256 : String → String} {stream stream' : List (ChronicleEvent ModelEvent)}
    {bundle : ContextBundle} {event : ChronicleEvent ModelEvent} {expectedSequence : ℕ}
    (h : Holds sha256 stream bundle) (hterminal : event.payload.Terminal)
    (happend : Chronicle.append stream [event] expectedSequence = .ok stream') :
    Holds sha256 stream' bundle := by
  rcases append_ok happend with rfl | rfl
  · exact h
  · obtain ⟨manifest, requested, m, r, rest, hrecords, rfl, hrest⟩ := h
    refine ⟨manifest, requested, m, r, rest ++ [event], hrecords, by simp, fun e he => ?_⟩
    rcases List.mem_append.mp he with he | he
    · exact hrest e he
    · rwa [List.mem_singleton.mp he]

/-- Every bundle that was sent is recorded, and event ids are drawn before they are stored. -/
structure Sound (o : ModelRequestServiceOptions) (w : World) : Prop where
  recorded : ∀ p ∈ w.sent, Holds o.sha256 (w.streams (modelRequestStreamId p.1)) p.2
  drawn : ∀ streamId, ∀ event ∈ w.streams streamId, event.eventId < w.draws

theorem Sound.idle (h : Sound o w) (n : ℕ) : Sound o { w with draws := w.draws + n } where
  recorded := h.recorded
  drawn := fun streamId event he => (h.drawn streamId event he).trans_le (Nat.le_add_right ..)

theorem Sound.generate {input : ModelRequestInput} (h : Sound o w)
    (hgenerate : w.generate o input = .ok w') : Sound o w' := by
  obtain ⟨manifest, requested, stream, hrecords, happend, rfl⟩ := World.generate_ok hgenerate
  have hfresh : ∀ e ∈ w.streams (modelRequestStreamId w.draws),
      ∀ e' ∈ [(⟨w.draws + 2, .manifest manifest⟩ : ChronicleEvent ModelEvent),
        ⟨w.draws + 3, .requested requested⟩], e.eventId ≠ e'.eventId := by
    intro e he e' he'
    have hdrawn := h.drawn _ e he
    simp only [List.mem_cons, List.not_mem_nil, or_false] at he'
    rcases he' with rfl | rfl <;> simp only <;> omega
  obtain ⟨hlength, rfl⟩ := append_fresh_all (List.cons_ne_nil _ _) hfresh happend
  -- The stream of a new request is empty.
  have hnil : w.streams (modelRequestStreamId w.draws) = [] :=
    List.length_eq_zero_iff.mp (by omega)
  rw [hnil, List.nil_append]
  refine ⟨fun p hp => ?_, fun streamId event he => ?_⟩
  · rcases List.mem_cons.mp hp with rfl | hp
    · simp only [Function.update_self]
      exact ⟨manifest, requested, _, _, [], hrecords, rfl, by simp⟩
    · have hholds := h.recorded p hp
      have hne : modelRequestStreamId p.1 ≠ modelRequestStreamId w.draws := by
        intro heq
        obtain ⟨_, _, _, _, _, -, hstream, -⟩ := hholds
        rw [heq, hnil] at hstream
        cases hstream
      simpa only [Function.update_of_ne hne] using hholds
  · by_cases heq : streamId = modelRequestStreamId w.draws
    · subst heq
      simp only [Function.update_self, List.mem_cons, List.not_mem_nil, or_false] at he
      rcases he with rfl | rfl <;> simp only <;> omega
    · simp only [Function.update_of_ne heq] at he
      exact (h.drawn streamId event he).trans_le (Nat.le_add_right ..)

theorem Sound.appendTerminal {requestId expectedSequence : ℕ} {outcome : Outcome} (h : Sound o w)
    (hterminal : w.appendTerminal requestId expectedSequence outcome = .ok w') : Sound o w' := by
  obtain ⟨stream, happend, rfl⟩ := World.appendTerminal_ok hterminal
  refine ⟨fun p hp => ?_, fun streamId event he => ?_⟩
  · by_cases heq : modelRequestStreamId p.1 = modelRequestStreamId requestId
    · rw [← heq] at happend
      simp only [heq, Function.update_self]
      exact (h.recorded p hp).append (outcome.terminal_event requestId) happend
    · simpa only [Function.update_of_ne heq] using h.recorded p hp
  · by_cases heq : streamId = modelRequestStreamId requestId
    · subst heq
      simp only [Function.update_self] at he
      rcases append_ok happend with rfl | rfl
      · exact (h.drawn _ event he).trans (Nat.lt_succ_self _)
      · rcases List.mem_append.mp he with he | he
        · exact (h.drawn _ event he).trans (Nat.lt_succ_self _)
        · rw [List.mem_singleton.mp he]
          exact Nat.lt_succ_self _
    · simp only [Function.update_of_ne heq] at he
      exact (h.drawn streamId event he).trans (Nat.lt_succ_self _)

theorem Sound.step (h : Sound o w) (action : Action) : Sound o (w.step o action) := by
  cases action with
  | generate input =>
    rw [World.step]
    split
    · next hgenerate => exact h.generate hgenerate
    · exact h.idle 4
  | appendTerminal requestId expectedSequence outcome =>
    rw [World.step]
    split
    · next hterminal => exact h.appendTerminal hterminal
    · exact h.idle 1

theorem Sound.of_reachable (h : Reachable o w) : Sound o w := by
  induction h with
  | init => exact ⟨by simp, by simp⟩
  | step action _ ih => exact ih.step action

/-- In every state of the service, every bundle of JSON values that was sent to the provider is
rebuilt from the records of its request. -/
theorem rebuildModelRequest_sent (h : Reachable o w) {requestId : ℕ} {bundle : ContextBundle}
    (hsent : (requestId, bundle) ∈ w.sent) (hjson : bundle.IsJson) :
    ∃ rebuilt, rebuildModelRequest o.sha256 w.streams requestId = .ok rebuilt ∧
      rebuilt.requestId = requestId ∧ rebuilt.bundle.Equal bundle := by
  obtain ⟨manifest, hrebuilt⟩ :=
    rebuildModelRequest_of_holds ((Sound.of_reachable h).recorded _ hsent) hjson
  exact ⟨_, hrebuilt, rfl, ContextBundle.equal_ordered hjson⟩

end Runs

def sampleMessage : Value := .object [("role", .string "user"), ("content", .string "hi")]

def sampleInput : ModelRequestInput where
  stepIndex := 0
  attempt := 0
  bundle := ⟨[sampleMessage], [], none⟩

def sampleOptions : ModelRequestServiceOptions where
  sha256 text :=
    if text = "\x7b\"messages\":[\x7b\"content\":\"hi\",\"role\":\"user\"\x7d],\"tools\":[]\x7d" then
      "8afae19f0f586d0fdeac4f9e7dc4e3d2c931b044fdeffe90d7ec21f9fe4c7a73"
    else "18bbe7357bc6dc44912c6c3aee6babb5c4df3e78485dbb5c12641b3f12d479b1"
  model := "deepseek-chat"
  maxContextTokens := 65536
  promptVersion := "agent-loop@1"
  structureVersion := "structure@1"

theorem rebuildModelRequest_sent_sample : ∃ rebuilt,
    rebuildModelRequest sampleOptions.sha256
      (World.step sampleOptions {} (.generate sampleInput)).streams 0 = .ok rebuilt ∧
    rebuilt.requestId = 0 ∧ rebuilt.bundle.Equal sampleInput.bundle := by
  have hsent : (World.step sampleOptions {} (.generate sampleInput)).sent =
      [(0, sampleInput.bundle)] := by rfl
  refine rebuildModelRequest_sent (.step (.generate sampleInput) .init)
    (hsent ▸ List.mem_singleton_self _) ⟨?_, ?_, ?_⟩
  · simp [sampleInput, sampleMessage, Value.IsJson, FieldsJson]
  · simp [sampleInput]
  · simp [sampleInput]

end BeeAgent.Runtime.ModelRequests
