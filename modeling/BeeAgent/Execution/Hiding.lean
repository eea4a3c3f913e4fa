import BeeAgent.Data.Overlap
import BeeAgent.Data.Units
import BeeAgent.Execution.Redaction

/-! The secrets that no text a broker has redacted holds, whatever other secrets are live. -/
namespace BeeAgent.Execution
open BeeAgent.Data

/-- The broker of the Linux secret service is written out with the same fields and methods. -/
abbrev LinuxSecretServiceBroker := KeychainSecretBroker

def LinuxSecretServiceBroker.redact (broker : LinuxSecretServiceBroker) (value : String) : String :=
  KeychainSecretBroker.redact broker value

namespace KeychainSecretBroker

/-- The secret and the replacement text share a piece at which one can go on from the other. -/
def Overlaps (secret : String) : Prop := Replacement.Overlaps secret.toList marker.toList

/-- Whatever else is live and whatever the text is, no broker leaves the secret in it. -/
def Hides (secret : String) : Prop :=
  ∀ (broker : KeychainSecretBroker) (value : String), secret ∈ broker.secrets →
    (∀ other ∈ broker.secrets, other ≠ "") →
    ¬ Occurs secret (broker.redact value) ∧
      ¬ Occurs secret (LinuxSecretServiceBroker.redact broker value)

variable {secret : String}

theorem not_occurs_redact {broker : KeychainSecretBroker} (hsecret : secret ∈ broker.secrets)
    (hne : secret ≠ "") (hover : ¬ Overlaps secret) (value : String) :
    ¬ Occurs secret (broker.redact value) := by
  have hkey : secret.toList ≠ [] := by rwa [ne_eq, String.toList_eq_nil_iff]
  have hmem : secret.toList ∈ broker.secrets.map String.toList := List.mem_map_of_mem hsecret
  have hhides := Replacement.replaced_hides (by decide) hkey hover hmem value.toList
  rw [List.foldl_map] at hhides
  rwa [Occurs, redact, String.toList_ofList]

def holding (first second : String) : KeychainSecretBroker :=
  ((initial.materialize 0 "request").resolve 0 first).resolve 0 second

theorem secrets_holding {first second : String} (hne : first ≠ second)
    (hle : (utf16 second).length ≤ (utf16 first).length) :
    (holding first second).secrets = [first, second] := by
  have hresolved : (holding first second).materialized.values.flatMap
      (holding first second).resolved = [first, second] := by
    simp [holding, materialize, resolve, initial, OrderedMap.set, OrderedMap.empty,
      OrderedMap.values, OrderedMap.keys]
  have hdups : [first, second].eraseDups = [first, second] := by
    simp [List.eraseDups_cons, Ne.symm hne]
  rw [secrets, hresolved, hdups]
  simp [List.insertionSort, hle]

theorem length_utf16_ge (cs : List Char) : cs.length ≤ (utf16 (String.ofList cs)).length := by
  induction cs with
  | nil => exact Nat.zero_le _
  | cons c cs ih =>
    rw [length_utf16_cons, List.length_cons]
    split <;> omega

theorem length_utf16_replicate {a : Char} (ha : a.toNat < 0x10000) (n : ℕ) :
    (utf16 (String.ofList (List.replicate n a))).length = n := by
  induction n with
  | zero => rfl
  | succ n ih =>
    rw [List.replicate_succ, length_utf16_cons, if_pos ha, ih]
    omega

/-- A secret is never left in a redacted text exactly when it does not overlap the replacement
text. -/
theorem hides_iff : Hides secret ↔ ¬ Overlaps secret := by
  constructor
  · intro hhides hover
    obtain ⟨a, text, hletter, hnot, hspelled⟩ :=
      hover.exists_spelled 'a' 'b' (by decide) (by decide) (by decide)
    obtain ⟨ha, hmarker⟩ : a.toNat < 0x10000 ∧ a ∉ marker.toList := by
      obtain rfl | rfl := hletter <;> decide
    let other := String.ofList (List.replicate secret.toList.length a)
    have hlist : other.toList = List.replicate secret.toList.length a := String.toList_ofList
    obtain ⟨c, hc, hcmarker⟩ := hover.exists_mem
    have hne : secret ≠ other := by
      rintro heq
      rw [heq, hlist] at hc
      exact hmarker (List.eq_of_mem_replicate hc ▸ hcmarker)
    have hle : (utf16 other).length ≤ (utf16 secret).length := by
      have hge := length_utf16_ge secret.toList
      rw [String.ofList_toList] at hge
      exact (length_utf16_replicate ha _).trans_le hge
    have hsecrets := secrets_holding hne hle
    refine (hhides (holding secret other) (String.ofList text) ?_ ?_).1 ?_
    · rw [hsecrets]
      exact List.mem_cons_self
    · have hlength : secret.toList.length ≠ 0 := (List.length_pos_of_mem hc).ne'
      rw [hsecrets]
      refine List.forall_mem_cons.mpr ⟨?_, List.forall_mem_singleton.mpr ?_⟩ <;>
        rw [ne_eq, ← String.toList_eq_nil_iff]
      · exact List.ne_nil_of_mem hc
      · rw [hlist, List.replicate_eq_nil_iff]
        exact hlength
    · rw [Occurs, redact, hsecrets, String.toList_ofList, String.toList_ofList]
      show secret.toList <:+: Replacement.replaceAll other.toList marker.toList
        (Replacement.replaceAll secret.toList marker.toList text)
      rw [Replacement.replaceAll_eq_self hnot, hlist]
      exact hspelled
  · intro hover broker value hsecret hnonempty
    have hhidden := not_occurs_redact hsecret (hnonempty secret hsecret) hover value
    exact ⟨hhidden, hhidden⟩

/-- A secret that is a piece of the replacement text is put in its own place. -/
theorem marker_spells_secret : ¬∀ (broker : KeychainSecretBroker) (value : String),
    (∀ secret ∈ broker.secrets, secret ≠ "") →
      ∀ secret ∈ broker.secrets, ¬ Occurs secret (broker.redact value) := by
  intro h
  have hsecrets : ((initial.materialize 0 "request").resolve 0 "RED").secrets = ["RED"] := by
    decide +kernel
  refine h ((initial.materialize 0 "request").resolve 0 "RED") "RED" ?_ "RED" ?_ (by decide +kernel)
  · simp [hsecrets]
  · simp [hsecrets]

end KeychainSecretBroker

end BeeAgent.Execution
