import BeeAgent.Data.Shedding
import BeeAgent.Data.Units
import BeeAgent.Runtime.History

/-! The projection of tool results under the token budget: what the policy asks to elide, and when
`projectHistory` comes to it. -/
namespace BeeAgent.Runtime
open Data Data.Shedding

variable (sha256 : String → String) (policy : ToolResultCompactionPolicy)
  (history : List LlmMessage)

def tokensAt (index : ℕ) : ℕ :=
  estimateMessageTokens ((history[index]?.map LlmMessage.content).getD "")

def messageTokens (message : LlmMessage) : ℕ :=
  if message.isTool then estimateMessageTokens message.content else 0

def toolTokens (messages : List LlmMessage) : ℕ := load messageTokens messages

def isErrorAt (index : ℕ) : Bool :=
  match history[index]? with
  | some (.tool _ _ _ isError) => isError = some true
  | _ => false

def mostRecent {α : Type} (n : ℕ) (xs : List α) : List α := xs.drop (xs.length - n)

/-- The tool results that are neither errors nor among the most recent ones, oldest first. -/
def unprotected : List ℕ :=
  (toolIndexes history).filter fun index =>
    index ∉ mostRecent policy.keepRecentToolResults (toolIndexes history) ∧ !isErrorAt history index

/-- The run of results that has to go. -/
def elidedRun : List ℕ :=
  shed (tokensAt history) policy.toolResultBudgetTokens (toolTokens history)
    (unprotected policy history)

/-- The tokens of the text that stands for an elided result. -/
def placeholderTokens (index : ℕ) : ℕ :=
  match history[index]? with
  | some (.tool _ toolId content _) =>
    estimateMessageTokens (elisionPlaceholder (elisionOf sha256 index toolId content))
  | _ => 0

def ProjectedHistory.elided (projected : ProjectedHistory) : List ℕ :=
  projected.elisions.map ContextElision.messageIndex

/-- What a projection is to be: the shortest oldest-first run of unprotected results gives way to
placeholders, nothing else changes, and the results take no more room than before, within the budget
if it can be reached. -/
structure Projects (projected : ProjectedHistory) : Prop where
  run : IsShortestRun (tokensAt history) policy.toolResultBudgetTokens (toolTokens history)
    (unprotected policy history) projected.elided
  length : projected.messages.length = history.length
  others : ∀ index, index ∉ projected.elided → projected.messages[index]? = history[index]?
  replaced : ∀ index ∈ projected.elided, ∃ callId toolId content isError placeholder,
    history[index]? = some (.tool callId toolId content isError) ∧
      projected.messages[index]? = some (.tool callId toolId placeholder isError)
  shrinks : toolTokens projected.messages ≤ toolTokens history
  within : toolTokens projected.messages ≤ policy.toolResultBudgetTokens ∨
    projected.elided = unprotected policy history

/-- The condition: the policy keeps a recent result or nothing has to go; the placeholders of what
has to go are no longer than the results, and leave the rest within the budget if anything else is
left to elide. -/
structure Projectable : Prop where
  keeps : policy.keepRecentToolResults = 0 → elidedRun policy history = []
  shorter : load (placeholderTokens sha256 history) (elidedRun policy history) ≤
    load (tokensAt history) (elidedRun policy history)
  enough : toolTokens history + load (placeholderTokens sha256 history) (elidedRun policy history) ≤
      policy.toolResultBudgetTokens + load (tokensAt history) (elidedRun policy history) ∨
    elidedRun policy history = unprotected policy history

variable {sha256 policy history}

theorem mem_toolIndexes {index : ℕ} : index ∈ toolIndexes history ↔
    ∃ callId toolId content isError, history[index]? = some (.tool callId toolId content isError) := by
  simp only [toolIndexes, List.mem_filterMap, Prod.exists, List.mem_zipIdx_iff_getElem?]
  constructor
  · rintro ⟨message, i, hmessage, hsome⟩
    split at hsome <;> cases hsome
    next htool =>
    cases message <;> cases htool
    exact ⟨_, _, _, _, hmessage⟩
  · rintro ⟨callId, toolId, content, isError, hmessage⟩
    exact ⟨_, index, hmessage, rfl⟩

theorem toolIndexes_nodup (history : List LlmMessage) : (toolIndexes history).Nodup := by
  have hzip : ((history.zipIdx).map Prod.snd).Nodup := by
    rw [List.zipIdx_map_snd]
    exact List.nodup_range'
  have hsub : (toolIndexes history).Sublist (history.zipIdx.map Prod.snd) := by
    rw [toolIndexes, ← List.filterMap_eq_map]
    generalize history.zipIdx = messages
    induction messages with
    | nil => exact .slnil
    | cons m messages ih =>
      rw [List.filterMap_cons, List.filterMap_cons]
      by_cases htool : m.1.isTool
      · simpa [htool] using ih
      · simpa [htool] using ih.cons _
  exact hzip.sublist hsub

theorem load_toolIndexes (history : List LlmMessage) (weight : ℕ → ℕ) :
    load (fun m : LlmMessage × ℕ => if m.1.isTool then weight m.2 else 0) history.zipIdx =
      load weight (toolIndexes history) := by
  rw [toolIndexes]
  generalize history.zipIdx = messages
  induction messages with
  | nil => rfl
  | cons m messages ih =>
    rw [load_cons, ih, List.filterMap_cons]
    by_cases htool : m.1.isTool <;> simp [htool]

theorem toolTokens_eq (history : List LlmMessage) :
    toolTokens history = load (tokensAt history) (toolIndexes history) := by
  rw [← load_toolIndexes, toolTokens, load, load]
  conv_lhs => rw [← List.zipIdx_map_fst 0 history, List.map_map]
  congr 1
  refine List.map_congr_left fun m hm => ?_
  rw [Function.comp_apply, messageTokens, tokensAt,
    (List.mem_zipIdx_iff_getElem? (x := m)).mp hm]
  rfl

/-- The indexes that the projection elides. -/
def elideSet (policy : ToolResultCompactionPolicy) (history : List LlmMessage) : List ℕ :=
  elideIndexes policy history (lastN policy.keepRecentToolResults (toolIndexes history))
    (toolTokens history) (toolIndexes history)

theorem projectHistory_eq (sha256 : String → String) (history : List LlmMessage)
    (policy : ToolResultCompactionPolicy) :
    projectHistory sha256 history policy =
      { messages := history.zipIdx.map (elideMessage sha256 (elideSet policy history))
        elisions := history.zipIdx.filterMap (elisionOf? sha256 (elideSet policy history)) } := by
  rw [elideSet, toolTokens_eq]
  rfl

/-- The loop over the tool results sheds those that it may elide. -/
theorem elideIndexes_eq_shed (recent : List ℕ) (total : ℕ) {indexes : List ℕ}
    (htools : ∀ index ∈ indexes, index ∈ toolIndexes history) :
    elideIndexes policy history recent total indexes =
      shed (tokensAt history) policy.toolResultBudgetTokens total
        (indexes.filter fun index => index ∉ recent ∧ !isErrorAt history index) := by
  induction indexes generalizing total with
  | nil => rfl
  | cons index indexes ih =>
    obtain ⟨callId, toolId, content, isError, hmessage⟩ :=
      mem_toolIndexes.mp (htools index (List.mem_cons_self ..))
    have htokens : tokensAt history index = estimateMessageTokens content := by
      simp [tokensAt, hmessage, LlmMessage.content]
    have ih := fun total => ih total fun i hi => htools i (List.mem_cons_of_mem _ hi)
    have hwithin : ∀ xs, total ≤ policy.toolResultBudgetTokens →
        shed (tokensAt history) policy.toolResultBudgetTokens total xs = [] := by
      intro xs hle
      cases xs with
      | nil => rfl
      | cons x xs => rw [shed, if_pos hle]
    rw [elideIndexes]
    split
    · next hle => rw [hwithin _ hle]
    next hover =>
    simp only [hmessage]
    by_cases hprotected : index ∈ recent ∨ isError = some true
    · have hdrop : ¬ (index ∉ recent ∧ !isErrorAt history index) := by
        simpa [isErrorAt, hmessage, or_iff_not_imp_left] using hprotected
      rw [if_pos hprotected, List.filter_cons_of_neg (by simpa using hdrop)]
      exact ih total
    · have hkeep : index ∉ recent ∧ !isErrorAt history index := by
        simpa [isErrorAt, hmessage, not_or] using hprotected
      rw [if_neg hprotected, List.filter_cons_of_pos (by simpa using hkeep), shed, if_neg hover,
        htokens, ih]

theorem mostRecent_eq_lastN {α : Type} {n : ℕ} (h : n ≠ 0) (xs : List α) :
    lastN n xs = mostRecent n xs := by
  rw [lastN, if_neg h, mostRecent]

/-- What is elided is the run that has to go, unless no recent result is kept: then it is nothing. -/
theorem elideSet_eq : elideSet policy history =
    if policy.keepRecentToolResults = 0 then [] else elidedRun policy history := by
  rw [elideSet, elideIndexes_eq_shed _ _ fun _ h => h]
  split
  · next hzero =>
    have hnone : (toolIndexes history).filter (fun index =>
        index ∉ lastN policy.keepRecentToolResults (toolIndexes history) ∧
          !isErrorAt history index) = [] := by
      refine List.filter_eq_nil_iff.mpr fun index hindex => ?_
      simp [lastN, hzero, hindex]
    rw [hnone, shed]
  · next hkeep =>
    rw [elidedRun, unprotected, mostRecent_eq_lastN hkeep]

theorem elideSet_sublist : (elideSet policy history).Sublist (toolIndexes history) := by
  rw [elideSet_eq]
  split
  · exact List.nil_sublist _
  · exact (shed_isShortestRun ..).front.sublist.trans List.filter_sublist

theorem getElem?_messages (index : ℕ) :
    (projectHistory sha256 history policy).messages[index]? =
      history[index]?.map fun message =>
        elideMessage sha256 (elideSet policy history) (message, index) := by
  rw [projectHistory_eq, List.getElem?_map, List.getElem?_zipIdx, Option.map_map, Nat.zero_add]
  rfl

theorem elided_eq (sha256 : String → String) :
    (projectHistory sha256 history policy).elided = elideSet policy history := by
  have hindexes : (projectHistory sha256 history policy).elided =
      (toolIndexes history).filter (· ∈ elideSet policy history) := by
    rw [projectHistory_eq, ProjectedHistory.elided, toolIndexes, List.map_filterMap,
      ← List.filterMap_eq_filter, List.filterMap_filterMap]
    refine List.filterMap_congr fun m _ => ?_
    obtain ⟨message, index⟩ := m
    cases message with
    | tool callId toolId content isError =>
      by_cases h : index ∈ elideSet policy history <;>
        simp [elisionOf?, LlmMessage.isTool, LlmMessage.answeredCallId?, elisionOf, h,
          Option.guard]
    | _ => simp [elisionOf?, LlmMessage.isTool, LlmMessage.answeredCallId?]
  rw [hindexes, filter_mem_of_sublist elideSet_sublist (toolIndexes_nodup history)]

theorem toolTokens_messages (sha256 : String → String) (policy : ToolResultCompactionPolicy)
    (history : List LlmMessage) :
    toolTokens (projectHistory sha256 history policy).messages +
        load (tokensAt history) (elideSet policy history) =
      toolTokens history + load (placeholderTokens sha256 history) (elideSet policy history) := by
  rw [toolTokens_eq history,
    ← load_replace (placeholderTokens sha256 history) elideSet_sublist (toolIndexes_nodup history),
    ← load_toolIndexes, projectHistory_eq, toolTokens, load, List.map_map]
  congr 2
  refine List.map_congr_left fun m hm => ?_
  have hmessage := List.mem_zipIdx_iff_getElem?.mp hm
  obtain ⟨message, index⟩ := m
  cases message with
  | tool callId toolId content isError =>
    by_cases h : index ∈ elideSet policy history <;>
      simp [elideMessage, messageTokens, LlmMessage.isTool, LlmMessage.answeredCallId?,
        LlmMessage.content, placeholderTokens, tokensAt, hmessage, h]
  | _ => simp [elideMessage, messageTokens, LlmMessage.isTool, LlmMessage.answeredCallId?]

theorem messages_others {index : ℕ} (h : index ∉ elideSet policy history) :
    (projectHistory sha256 history policy).messages[index]? = history[index]? := by
  have hkeep : ∀ message, elideMessage sha256 (elideSet policy history) (message, index) =
      message := by
    intro message
    cases message <;> simp [elideMessage, h]
  rw [getElem?_messages]
  simp [hkeep]

theorem messages_replaced {index : ℕ} (h : index ∈ elideSet policy history) :
    ∃ callId toolId content isError placeholder,
      history[index]? = some (.tool callId toolId content isError) ∧
        (projectHistory sha256 history policy).messages[index]? =
          some (.tool callId toolId placeholder isError) := by
  obtain ⟨callId, toolId, content, isError, hmessage⟩ :=
    mem_toolIndexes.mp (elideSet_sublist.subset h)
  refine ⟨callId, toolId, content, isError,
    elisionPlaceholder (elisionOf sha256 index toolId content), hmessage, ?_⟩
  rw [getElem?_messages, hmessage, Option.map_some, elideMessage]
  simp only [if_pos h]

/-- The projection does what the policy asks for exactly where a recent result is kept or nothing has
to go, and the placeholders of what has to go are short enough. -/
theorem projectHistory_projects_iff (sha256 : String → String) (history : List LlmMessage)
    (policy : ToolResultCompactionPolicy) :
    Projects policy history (projectHistory sha256 history policy) ↔
      Projectable sha256 policy history := by
  have htokens := toolTokens_messages sha256 policy history
  constructor
  · intro h
    have hrun : elideSet policy history = elidedRun policy history := by
      rw [← elided_eq sha256]
      exact h.run.unique (shed_isShortestRun ..)
    rw [hrun] at htokens
    refine ⟨fun hzero => ?_, ?_, ?_⟩
    · rw [← hrun, elideSet_eq, if_pos hzero]
    · have := h.shrinks
      omega
    · refine h.within.imp (fun hle => ?_) fun hall => ?_
      · omega
      · rw [← hrun, ← elided_eq sha256, hall]
  · intro h
    have hrun : elideSet policy history = elidedRun policy history := by
      rw [elideSet_eq]
      split
      · next hzero => exact (h.keeps hzero).symm
      · rfl
    refine ⟨?_, ?_, fun index hindex => ?_, fun index hindex => ?_, ?_, ?_⟩
    · rw [elided_eq, hrun]
      exact shed_isShortestRun ..
    · rw [projectHistory_eq, List.length_map, List.length_zipIdx]
    · exact messages_others (elided_eq sha256 ▸ hindex)
    · exact messages_replaced (elided_eq sha256 ▸ hindex)
    · have := h.shorter
      rw [hrun] at htokens
      omega
    · rw [elided_eq]
      refine h.enough.imp (fun hle => ?_) fun hall => hrun.trans hall
      rw [hrun] at htokens
      omega

theorem length_around {a b c d : String} (n t s : String) (ha : 28 ≤ (utf16 a).length)
    (hb : 24 ≤ (utf16 b).length) (hc : 3 ≤ (utf16 c).length) (hd : 60 ≤ (utf16 d).length) :
    115 ≤ (utf16 (a ++ n ++ b ++ t ++ c ++ s ++ d)).length := by
  simp only [length_utf16_append]
  omega

/-- Whatever it stands for, a placeholder takes at least 29 tokens. -/
theorem placeholder_long (elision : ContextElision) :
    29 ≤ estimateMessageTokens (elisionPlaceholder elision) := by
  have hlength : 115 ≤ (utf16 (elisionPlaceholder elision)).length :=
    length_around _ _ _ (by decide +kernel) (by decide +kernel) (by decide +kernel)
      (by decide +kernel)
  rw [estimateMessageTokens]
  omega

theorem placeholderTokens_long {index : ℕ} (h : index ∈ toolIndexes history) :
    29 ≤ placeholderTokens sha256 history index := by
  obtain ⟨callId, toolId, content, isError, hmessage⟩ := mem_toolIndexes.mp h
  simp only [placeholderTokens, hmessage]
  exact placeholder_long _

/-- Where only results of less than 29 tokens give way, the history gets longer. -/
theorem projectHistory_grows (helided : (projectHistory sha256 history policy).elided ≠ [])
    (hshort : ∀ index ∈ (projectHistory sha256 history policy).elided,
      tokensAt history index < 29) :
    toolTokens history < toolTokens (projectHistory sha256 history policy).messages := by
  have htokens := toolTokens_messages sha256 policy history
  rw [elided_eq] at helided hshort
  have hlt : load (tokensAt history) (elideSet policy history) <
      load (placeholderTokens sha256 history) (elideSet policy history) :=
    load_lt_load helided fun index hindex => Nat.lt_of_lt_of_le (hshort index hindex)
      (placeholderTokens_long (elideSet_sublist.subset hindex))
  omega

def sampleResult (callId content : String) : LlmMessage := .tool callId "t" content

theorem projectHistory_grows_sample : toolTokens [sampleResult "a" "A", sampleResult "b" "B"] <
    toolTokens (projectHistory id [sampleResult "a" "A", sampleResult "b" "B"]
      { toolResultBudgetTokens := 1, keepRecentToolResults := 1 }).messages :=
  projectHistory_grows (by decide +kernel) (by decide +kernel)

/-- Two short results, no room for the older one: its placeholder is longer than it was. -/
theorem placeholder_grows :
    ¬ Projects { toolResultBudgetTokens := 1, keepRecentToolResults := 1 }
      [sampleResult "a" "A", sampleResult "b" "B"]
      (projectHistory id [sampleResult "a" "A", sampleResult "b" "B"]
        { toolResultBudgetTokens := 1, keepRecentToolResults := 1 }) :=
  fun h => absurd h.shrinks (by decide +kernel)

-- a policy that keeps no recent result elides nothing
example : (projectHistory id [sampleResult "a" "A"]
    { toolResultBudgetTokens := 0, keepRecentToolResults := 0 }).elided = [] := by
  decide +kernel

end BeeAgent.Runtime
