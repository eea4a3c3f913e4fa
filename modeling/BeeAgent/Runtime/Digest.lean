import BeeAgent.Data.Canonical
import BeeAgent.Runtime.Owed

/-! What the digest of a history determines: who asks for which call ids, and who answers them. -/
namespace BeeAgent.Runtime
open BeeAgent.Data BeeAgent.Thread Pairing

theorem toolCall_callId_of_canonicalJson (call call' : ToolCall)
    (h : canonicalJson (toolCallValue call) = canonicalJson (toolCallValue call')) :
    call.callId = call'.callId := by
  obtain ⟨w, hw, htext⟩ := exists_field_of_canonicalJson h (k := "callId") (List.mem_cons_self ..)
  have hstring : w = .string call'.callId := by
    cases hinputError : call'.inputError <;> simpa [optionalField, hinputError] using hw
  rw [hstring] at htext
  exact (string_of_canonicalJson htext).symm

def LlmMessage.role : LlmMessage → String
  | .system _ => "system"
  | .user _ => "user"
  | .assistant .. => "assistant"
  | .tool .. => "tool"

theorem LlmMessage.toValue_eq (message : LlmMessage) : ∃ fields,
    message.toValue = .object (("role", .string message.role) :: fields) ∧
      ∀ v, ("role", v) ∉ fields := by
  cases message with
  | system | user => exact ⟨_, rfl, by simp⟩
  | assistant content toolCalls => exact ⟨_, rfl, by cases toolCalls <;> simp [optionalField]⟩
  | tool callId toolId content isError => exact ⟨_, rfl, by cases isError <;> simp [optionalField]⟩

theorem LlmMessage.isObject_toValue (message : LlmMessage) : IsObject message.toValue := by
  obtain ⟨fields, hvalue, -⟩ := message.toValue_eq
  exact ⟨_, hvalue⟩

theorem role_of_canonicalJson {m m' : LlmMessage}
    (h : canonicalJson m.toValue = canonicalJson m'.toValue) : m.role = m'.role := by
  obtain ⟨fields, hvalue, -⟩ := m.toValue_eq
  obtain ⟨fields', hvalue', hrole⟩ := m'.toValue_eq
  rw [hvalue, hvalue'] at h
  obtain ⟨w, hw, htext⟩ := exists_field_of_canonicalJson h (k := "role") (List.mem_cons_self ..)
  obtain heq | hw := List.mem_cons.mp hw
  · obtain ⟨-, rfl⟩ := Prod.mk.inj heq
    exact (string_of_canonicalJson htext).symm
  · exact absurd hw (hrole w)

/-- The text of a message determines the call ids that it asks for or answers. -/
theorem kind_of_canonicalJson (m m' : LlmMessage)
    (h : canonicalJson m.toValue = canonicalJson m'.toValue) : m.kind = m'.kind := by
  have hrole := role_of_canonicalJson h
  cases m with
  | system content =>
    cases m' with
    | system => rfl
    | user | assistant | tool => simp [LlmMessage.role] at hrole
  | user content =>
    cases m' with
    | user => rfl
    | system | assistant | tool => simp [LlmMessage.role] at hrole
  | tool callId toolId content isError =>
    cases m' with
    | system | user | assistant => simp [LlmMessage.role] at hrole
    | tool callId' toolId' content' isError' =>
      obtain ⟨w, hw, htext⟩ := exists_field_of_canonicalJson h (k := "callId")
        (v := .string callId) (by simp)
      have hstring : w = .string callId' := by
        cases isError' <;> simpa [optionalField] using hw
      rw [hstring] at htext
      rw [LlmMessage.kind, LlmMessage.kind, string_of_canonicalJson htext]
  | assistant content toolCalls =>
    cases m' with
    | system | user | tool => simp [LlmMessage.role] at hrole
    | assistant content' toolCalls' =>
      have hcalls : (toolCalls.getD []).map ToolCall.callId =
          (toolCalls'.getD []).map ToolCall.callId := by
        cases toolCalls with
        | none =>
          cases toolCalls' with
          | none => rfl
          | some calls' =>
            obtain ⟨w, hw, -⟩ := exists_field_of_canonicalJson h.symm (k := "toolCalls")
              (v := .array (calls'.map toolCallValue)) (by simp [optionalField])
            simp [optionalField] at hw
        | some calls =>
          obtain ⟨w, hw, htext⟩ := exists_field_of_canonicalJson h (k := "toolCalls")
            (v := .array (calls.map toolCallValue)) (by simp [optionalField])
          cases toolCalls' with
          | none => simp [optionalField] at hw
          | some calls' =>
            have harray : w = .array (calls'.map toolCallValue) := by
              simpa [optionalField] using hw
            rw [harray] at htext
            exact map_eq_of_canonicalJson_array (fun _ => ⟨_, rfl⟩)
              toolCall_callId_of_canonicalJson htext.symm
      by_cases hnone : toolCalls.getD [] = []
      · rw [hnone] at hcalls
        have hnone' := List.map_eq_nil_iff.mp hcalls.symm
        simp [LlmMessage.kind, LlmMessage.calls, hnone, hnone']
      · have hsome' : toolCalls'.getD [] ≠ [] := fun hnone' =>
          hnone (List.map_eq_nil_iff.mp (hcalls.trans (by rw [hnone', List.map_nil])))
        rw [LlmMessage.kind_of_calls (show (LlmMessage.assistant content toolCalls).calls ≠ []
            from hnone),
          LlmMessage.kind_of_calls (show (LlmMessage.assistant content' toolCalls').calls ≠ []
            from hsome')]
        exact congrArg Kind.ask hcalls

/-- Histories with one digest ask for and answer the same call ids, place by place. -/
theorem kinds_of_digest {sha256 : String → String} (hsha : Function.Injective sha256)
    {history history' : List LlmMessage} (h : digest sha256 history = digest sha256 history') :
    kinds history = kinds history' :=
  map_eq_of_canonicalJson_array LlmMessage.isObject_toValue kind_of_canonicalJson
    (hsha ((String.append_right_inj _).mp h))

end BeeAgent.Runtime
