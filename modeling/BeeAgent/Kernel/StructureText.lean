import BeeAgent.Kernel.Bundles

/-! A structure as JSON: it is read back from its own text, and keeps its digest there as long as
its plugins are configured by what JSON can carry. -/
namespace BeeAgent.Bundles
open BeeAgent.Data

/-! ### The schemas read back what is theirs -/

@[simp] theorem parseName_string (name : Name) : parseName (.string name) = some name := by
  simp [parseName, parseString, name.2]

@[simp] theorem StructureRefSchema_toValue (ref : StructureRef) :
    StructureRefSchema ref.toValue = some ref := by
  simp [StructureRefSchema, StructureRef.toValue, field?]

@[simp] theorem BundleSourceSchema_toValue (source : BundleSource) :
    BundleSourceSchema source.toValue = some source := by
  simp [BundleSourceSchema, BundleSource.toValue, field?]

@[simp] theorem BudgetValueSchema_toValue (value : BudgetValue) :
    BudgetValueSchema value.toValue = some value := by
  cases value with
  | string s => rfl
  | number x => exact dif_pos x.2
  | boolean b => rfl

@[simp] theorem EffectiveSlotSchema_toValue (slot : EffectiveSlot) :
    EffectiveSlotSchema slot.toValue = some slot := by
  simp [EffectiveSlotSchema, EffectiveSlot.toValue, field?]

@[simp] theorem EffectivePermissionSchema_toValue (permission : EffectivePermission) :
    EffectivePermissionSchema permission.toValue = some permission := by
  simp [EffectivePermissionSchema, EffectivePermission.toValue, field?]

@[simp] theorem EffectiveBudgetSchema_toValue (budget : EffectiveBudget) :
    EffectiveBudgetSchema budget.toValue = some budget := by
  simp [EffectiveBudgetSchema, EffectiveBudget.toValue, field?]

@[simp] theorem EffectivePluginSchema_toValue (plugin : EffectivePlugin) :
    EffectivePluginSchema plugin.toValue = some plugin := by
  obtain ⟨⟨id, ref, enabled, config⟩, source⟩ := plugin
  cases config with
  | none => simp [EffectivePluginSchema, EffectivePlugin.toValue, field?, optionalField,
      parseEnabled, parseUnknown]
  | some v => simp [EffectivePluginSchema, EffectivePlugin.toValue, field?, optionalField,
      parseEnabled, parseUnknown, v.2]

theorem parseArray_map {α : Type} {parse : Value → Option α} {toValue : α → Value}
    (h : ∀ a, parse (toValue a) = some a) (l : List α) :
    parseArray parse (.array (l.map toValue)) = some l := by
  show (l.map toValue).mapM parse = some l
  induction l with
  | nil => rfl
  | cons a l ih => rw [List.map_cons, List.mapM_cons, h a, ih]; rfl

theorem EffectiveStructureSchema_toValue (effective : EffectiveStructure)
    (hdigest : isStructureDigest effective.digest) :
    EffectiveStructureSchema effective.toValue = some effective := by
  simp [EffectiveStructureSchema, EffectiveStructure.toValue, DigestInput.fields, field?,
    parseString, parseArray_map, hdigest, guard]

/-! ### Over JSON -/

theorem StructureRef.isJson (ref : StructureRef) : ref.toValue.IsJson := by
  simp [StructureRef.toValue, Value.IsJson, FieldsJson]

theorem BundleSource.isJson (source : BundleSource) : source.toValue.IsJson := by
  simp [BundleSource.toValue, Value.IsJson, FieldsJson]

theorem BudgetValue.isJson (value : BudgetValue) : value.toValue.IsJson := by
  cases value with
  | string | boolean => trivial
  | number x => exact x.2

theorem EffectiveSlot.isJson (slot : EffectiveSlot) : slot.toValue.IsJson := by
  simp [EffectiveSlot.toValue, Value.IsJson, FieldsJson, slot.ref.isJson, slot.source.isJson]

theorem EffectivePermission.isJson (permission : EffectivePermission) :
    permission.toValue.IsJson := by
  simp [EffectivePermission.toValue, Value.IsJson, FieldsJson, permission.source.isJson]

theorem EffectiveBudget.isJson (budget : EffectiveBudget) : budget.toValue.IsJson := by
  simp [EffectiveBudget.toValue, Value.IsJson, FieldsJson, budget.value.isJson,
    budget.source.isJson]

/-- The configuration is one that JSON can carry. -/
def BundlePlugin.Json (plugin : BundlePlugin) : Prop := ∀ v, plugin.config = some v → v.1.IsJson

theorem EffectivePlugin.isJson_iff (plugin : EffectivePlugin) :
    plugin.toValue.IsJson ↔ plugin.Json := by
  obtain ⟨⟨id, ref, enabled, config⟩, source⟩ := plugin
  cases config with
  | none => simp [EffectivePlugin.toValue, Value.IsJson, FieldsJson, optionalField, ref.isJson,
      source.isJson, BundlePlugin.Json]
  | some v => simp [EffectivePlugin.toValue, Value.IsJson, FieldsJson, optionalField, ref.isJson,
      source.isJson, BundlePlugin.Json]

theorem EffectivePlugin.isProper (plugin : EffectivePlugin) : plugin.toValue.Proper := by
  obtain ⟨⟨id, ref, enabled, config⟩, source⟩ := plugin
  have href := ref.toValue.proper_of_isJson ref.isJson
  have hsource := source.toValue.proper_of_isJson source.isJson
  cases config with
  | none => simp [EffectivePlugin.toValue, Value.Proper, FieldsProper, optionalField, href, hsource]
  | some v => simp [EffectivePlugin.toValue, Value.Proper, FieldsProper, optionalField, href,
      hsource, v.2]

theorem itemsJson_map {α : Type} {toValue : α → Value} {l : List α}
    (h : ∀ a, (toValue a).IsJson) : ItemsJson (l.map toValue) :=
  itemsJson_iff.mpr fun v hv => by
    obtain ⟨a, -, rfl⟩ := List.mem_map.mp hv
    exact h a

theorem DigestInput.isJson_iff (input : DigestInput) :
    input.toValue.IsJson ↔ ∀ plugin ∈ input.plugins, plugin.Json := by
  have hplugins : ItemsJson (input.plugins.map EffectivePlugin.toValue) ↔
      ∀ plugin ∈ input.plugins, plugin.Json := by
    simp [itemsJson_iff, EffectivePlugin.isJson_iff]
  simp [DigestInput.toValue, DigestInput.fields, Value.IsJson, FieldsJson, EffectiveSlot.isJson,
    hplugins, itemsJson_map BundleSource.isJson, itemsJson_map EffectiveSlot.isJson,
    itemsJson_map EffectivePermission.isJson, itemsJson_map EffectiveBudget.isJson]

theorem itemsProper_map {α : Type} {toValue : α → Value} {l : List α}
    (h : ∀ a, (toValue a).Proper) : ItemsProper (l.map toValue) :=
  itemsProper_iff.mpr fun v hv => by
    obtain ⟨a, -, rfl⟩ := List.mem_map.mp hv
    exact h a

theorem DigestInput.isProper (input : DigestInput) : input.toValue.Proper := by
  simp [DigestInput.toValue, DigestInput.fields, Value.Proper, FieldsProper,
    fun slot : EffectiveSlot => slot.toValue.proper_of_isJson slot.isJson,
    itemsProper_map fun source : BundleSource => source.toValue.proper_of_isJson source.isJson,
    itemsProper_map fun slot : EffectiveSlot => slot.toValue.proper_of_isJson slot.isJson,
    itemsProper_map EffectivePlugin.isProper,
    itemsProper_map fun p : EffectivePermission => p.toValue.proper_of_isJson p.isJson,
    itemsProper_map fun b : EffectiveBudget => b.toValue.proper_of_isJson b.isJson]

/-- What an unknown value is after it was written and read back. -/
def Unknown.reread (v : Unknown) : Option Unknown :=
  if h : v.1.isUndefined then none
  else
    have hne : v.1 ≠ .undefined := fun heq => h (Value.isUndefined_iff.mpr heq)
    some ⟨v.1.written.reread, Value.proper_of_isJson _
      (Value.reread_isJson _ (v.1.written_isJson v.2 hne))⟩

def BudgetValue.reread : BudgetValue → BudgetValue
  | .number x => .number ⟨x.1.canonical, Number.normal_canonical x.2⟩
  | value => value

def EffectivePlugin.reread (plugin : EffectivePlugin) : EffectivePlugin :=
  { plugin with config := plugin.config.bind Unknown.reread }

def EffectiveBudget.reread (budget : EffectiveBudget) : EffectiveBudget :=
  { budget with value := budget.value.reread }

def DigestInput.reread (input : DigestInput) : DigestInput :=
  { input with
    plugins := input.plugins.map EffectivePlugin.reread
    budgets := input.budgets.map EffectiveBudget.reread }

def EffectiveStructure.reread (effective : EffectiveStructure) : EffectiveStructure :=
  { effective with toDigestInput := effective.toDigestInput.reread }

@[simp] theorem BundleSource.reread_toValue (source : BundleSource) :
    source.toValue.written.reread = source.toValue := rfl

@[simp] theorem EffectiveSlot.reread_toValue (slot : EffectiveSlot) :
    slot.toValue.written.reread = slot.toValue := rfl

@[simp] theorem EffectivePermission.reread_toValue (permission : EffectivePermission) :
    permission.toValue.written.reread = permission.toValue := rfl

@[simp] theorem EffectiveBudget.reread_toValue (budget : EffectiveBudget) :
    budget.toValue.written.reread = budget.reread.toValue := by
  obtain ⟨name, value, source⟩ := budget
  cases value <;> rfl

@[simp] theorem EffectivePlugin.reread_toValue (plugin : EffectivePlugin) :
    plugin.toValue.written.reread = plugin.reread.toValue := by
  obtain ⟨⟨id, ref, enabled, config⟩, source⟩ := plugin
  cases config with
  | none => rfl
  | some v =>
    by_cases hundefined : v.1.isUndefined
    · have hv := Value.isUndefined_iff.mp hundefined
      simp only [EffectivePlugin.toValue, EffectivePlugin.reread, Unknown.reread, hv,
        Option.map_some, Option.bind_some, optionalField]
      rfl
    · have hv : v.1 ≠ .undefined := fun heq => hundefined (Value.isUndefined_iff.mpr heq)
      have hfields : ∀ f ∈ [("id", Value.string id), ("ref", ref.toValue),
          ("enabled", .boolean enabled)] ++ optionalField "config" (some v.1) ++
          [("source", source.toValue)], f.2 ≠ .undefined := by
        simp [optionalField, hv, StructureRef.toValue, BundleSource.toValue]
      simp only [EffectivePlugin.toValue, EffectivePlugin.reread, Unknown.reread, hundefined,
        Option.map_some, Option.bind_some]
      rw [reread_written_object hfields]
      rfl

theorem DigestInput.fields_ne_undefined (input : DigestInput) :
    ∀ f ∈ input.fields, f.2 ≠ .undefined := by
  simp [DigestInput.fields, EffectiveSlot.toValue]

theorem DigestInput.reread_fields (input : DigestInput) :
    input.fields.map (fun f => (f.1, f.2.written.reread)) = input.reread.fields := by
  have hslots : ∀ slots : List EffectiveSlot,
      (Value.array (slots.map EffectiveSlot.toValue)).written.reread =
        .array (slots.map EffectiveSlot.toValue) := by
    intro slots
    rw [reread_written_array fun slot _ =>
      ⟨slot.toValue.proper_of_isJson slot.isJson, by simp [EffectiveSlot.toValue]⟩]
    simp
  have hsources : (Value.array (input.bundles.map BundleSource.toValue)).written.reread =
      .array (input.bundles.map BundleSource.toValue) := by
    rw [reread_written_array fun source _ =>
      ⟨source.toValue.proper_of_isJson source.isJson, by simp [BundleSource.toValue]⟩]
    simp
  have hplugins : (Value.array (input.plugins.map EffectivePlugin.toValue)).written.reread =
      .array (input.reread.plugins.map EffectivePlugin.toValue) := by
    rw [reread_written_array fun plugin _ => ⟨plugin.isProper, by simp [EffectivePlugin.toValue]⟩]
    simp [DigestInput.reread, Function.comp_def]
  have hpermissions : (Value.array
      (input.permissions.map EffectivePermission.toValue)).written.reread =
      .array (input.permissions.map EffectivePermission.toValue) := by
    rw [reread_written_array fun permission _ => ⟨permission.toValue.proper_of_isJson
      permission.isJson, by simp [EffectivePermission.toValue]⟩]
    simp
  have hbudgets : (Value.array (input.budgets.map EffectiveBudget.toValue)).written.reread =
      .array (input.reread.budgets.map EffectiveBudget.toValue) := by
    rw [reread_written_array fun budget _ => ⟨budget.toValue.proper_of_isJson budget.isJson,
      by simp [EffectiveBudget.toValue]⟩]
    simp [DigestInput.reread, Function.comp_def]
  simp only [DigestInput.fields, List.map_cons, List.map_nil, hslots, hsources, hplugins,
    hpermissions, hbudgets, EffectiveSlot.reread_toValue]
  rfl

theorem DigestInput.reread_toValue (input : DigestInput) :
    input.toValue.written.reread = input.reread.toValue := by
  rw [DigestInput.toValue, reread_written_object input.fields_ne_undefined, input.reread_fields]
  rfl

theorem EffectiveStructure.parseJson_stringify (effective : EffectiveStructure) :
    parseJson (stringify effective.toValue) = some effective.reread.toValue := by
  have hne : ∀ f ∈ effective.fields ++ [("digest", Value.string effective.digest)],
      f.2 ≠ .undefined := by
    intro f hf
    obtain hf | rfl := List.mem_append.mp hf |>.imp_right List.mem_singleton.mp
    · exact effective.toDigestInput.fields_ne_undefined f hf
    · simp
  have hproper : effective.toValue.Proper := by
    have hinput := effective.toDigestInput.isProper
    refine ⟨fieldsProper_iff.mpr fun f hf => ?_, ?_⟩
    · obtain hf | rfl := List.mem_append.mp hf |>.imp_right List.mem_singleton.mp
      · exact fieldsProper_iff.mp hinput.1 f hf
      · trivial
    · simp [DigestInput.fields]
  rw [parseJson_stringify_written hproper (by simp [EffectiveStructure.toValue]),
    EffectiveStructure.toValue, reread_written_object hne, List.map_append,
    effective.toDigestInput.reread_fields]
  rfl

section Verify
variable {sha256 : String → String} {effective : EffectiveStructure}

theorem verify_toValue (hhex : isStructureDigest effective.digest)
    (hdigest : effective.digest = computeStructureDigest sha256 effective.toDigestInput) :
    verifyEffectiveStructure sha256 effective.toValue = some effective := by
  simp [verifyEffectiveStructure, EffectiveStructureSchema_toValue effective hhex, ← hdigest, guard]

theorem canonicalJson_reread_iff (input : DigestInput) :
    canonicalJson input.reread.toValue = canonicalJson input.toValue ↔
      ∀ plugin ∈ input.plugins, plugin.Json := by
  rw [← input.reread_toValue, canonicalJson_reread,
    canonicalJson_written_iff input.isProper (by simp [DigestInput.toValue]), input.isJson_iff]

/-- Over JSON it is accepted if its plugins are configured by what JSON can carry; and if it is,
they are, unless the two texts it has then have one digest. -/
theorem verify_reread_iff (hhex : isStructureDigest effective.digest)
    (hdigest : effective.digest = computeStructureDigest sha256 effective.toDigestInput)
    (hsha : sha256 (canonicalJson effective.toDigestInput.reread.toValue) =
      sha256 (canonicalJson effective.toDigestInput.toValue) →
      canonicalJson effective.toDigestInput.reread.toValue =
        canonicalJson effective.toDigestInput.toValue) :
    (verifyEffectiveStructure sha256 effective.reread.toValue).isSome ↔
      ∀ plugin ∈ effective.plugins, plugin.Json := by
  have hverify : verifyEffectiveStructure sha256 effective.reread.toValue =
      if effective.digest = computeStructureDigest sha256 effective.toDigestInput.reread then
        some effective.reread
      else none := by
    simp only [verifyEffectiveStructure, EffectiveStructureSchema_toValue effective.reread hhex]
    change ((guard (effective.digest =
      computeStructureDigest sha256 effective.toDigestInput.reread) : Option Unit).bind
      fun _ => some effective.reread) = _
    split
    · next heq =>
      rw [guard, if_pos heq]
      rfl
    · next hne =>
      rw [guard, if_neg hne]
      rfl
  have hsame : effective.digest = computeStructureDigest sha256 effective.toDigestInput.reread ↔
      canonicalJson effective.toDigestInput.reread.toValue =
        canonicalJson effective.toDigestInput.toValue := by
    rw [hdigest, computeStructureDigest, computeStructureDigest]
    constructor
    · intro h
      have hchars := congrArg String.toList h
      rw [String.toList_append, String.toList_append] at hchars
      exact hsha (String.toList_inj.mp (List.append_cancel_left hchars)).symm
    · intro h
      rw [h]
  rw [← canonicalJson_reread_iff, ← hsame, hverify]
  split
  · next heq => exact iff_of_true rfl heq
  · next hne => exact iff_of_false (by simp) hne

end Verify

end BeeAgent.Bundles
