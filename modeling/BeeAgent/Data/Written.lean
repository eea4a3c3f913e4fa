import BeeAgent.Data.Access
import BeeAgent.Data.Stringify

/-! What JSON keeps of a value, and when its canonical text shows that something was lost. -/
namespace BeeAgent.Data

mutual
/-- A value as a program holds it: each number has one form, and an object has one field to a
key. -/
def Value.Proper : Value → Prop
  | .undefined | .null | .boolean _ | .string _ => True
  | .number x => x.Normal
  | .array items => ItemsProper items
  | .object fields => FieldsProper fields ∧ (fields.map Prod.fst).Nodup

def ItemsProper : List Value → Prop
  | [] => True
  | v :: vs => v.Proper ∧ ItemsProper vs

def FieldsProper : List (String × Value) → Prop
  | [] => True
  | (_, v) :: fs => v.Proper ∧ FieldsProper fs
end

mutual
def Value.decProper : (v : Value) → Decidable v.Proper
  | .undefined | .null | .boolean _ | .string _ => .isTrue trivial
  | .number x => inferInstanceAs (Decidable (x.digits % 10 ≠ 0 ∨ x.digits = 0 ∧ x.exponent = 0))
  | .array items => decItemsProper items
  | .object fields => @instDecidableAnd _ _ (decFieldsProper fields) inferInstance

def decItemsProper : (vs : List Value) → Decidable (ItemsProper vs)
  | [] => .isTrue trivial
  | v :: vs => @instDecidableAnd _ _ (Value.decProper v) (decItemsProper vs)

def decFieldsProper : (fs : List (String × Value)) → Decidable (FieldsProper fs)
  | [] => .isTrue trivial
  | (_, v) :: fs => @instDecidableAnd _ _ (Value.decProper v) (decFieldsProper fs)
end

instance : DecidablePred Value.Proper := Value.decProper

mutual
/-- The value whose text is written: an item that is `undefined` becomes `null`, a field that is
one is left out. -/
def Value.written : Value → Value
  | .array items => .array (writtenItems items)
  | .object fields => .object (writtenFields fields)
  | v => v

def writtenItems : List Value → List Value
  | [] => []
  | v :: vs => v.written.orElse .null :: writtenItems vs

def writtenFields : List (String × Value) → List (String × Value)
  | [] => []
  | (k, v) :: fs =>
    match v.written with
    | .undefined => writtenFields fs
    | w => (k, w) :: writtenFields fs
end

def Value.isUndefined : Value → Bool
  | .undefined => true
  | _ => false

theorem Value.isUndefined_iff {v : Value} : v.isUndefined ↔ v = .undefined := by
  cases v <;> simp [Value.isUndefined]

theorem Value.written_eq_undefined {v : Value} : v.written = .undefined ↔ v = .undefined := by
  cases v <;> simp [Value.written]

theorem mem_writtenFields {fs : List (String × Value)} {k : String} {w : Value} :
    (k, w) ∈ writtenFields fs ↔ ∃ v, (k, v) ∈ fs ∧ v ≠ .undefined ∧ v.written = w := by
  induction fs with
  | nil => simp [writtenFields]
  | cons f fs ih =>
    obtain ⟨k', v'⟩ := f
    unfold writtenFields
    split
    · next hundefined =>
      rw [Value.written_eq_undefined] at hundefined
      subst hundefined
      rw [ih]
      constructor
      · rintro ⟨v, hmem, hv⟩
        exact ⟨v, List.mem_cons_of_mem _ hmem, hv⟩
      · rintro ⟨v, hmem, hne, rfl⟩
        obtain heq | hmem := List.mem_cons.mp hmem
        · exact absurd (Prod.mk.inj heq).2 hne
        · exact ⟨v, hmem, hne, rfl⟩
    · next w' hw' =>
      have hne : v' ≠ .undefined := fun heq => hw' (by rw [heq]; rfl)
      rw [List.mem_cons, ih]
      constructor
      · rintro (heq | ⟨v, hmem, hv⟩)
        · obtain ⟨rfl, rfl⟩ := Prod.mk.inj heq
          exact ⟨v', List.mem_cons_self, hne, rfl⟩
        · exact ⟨v, List.mem_cons_of_mem _ hmem, hv⟩
      · rintro ⟨v, hmem, hv, rfl⟩
        obtain heq | hmem := List.mem_cons.mp hmem
        · obtain ⟨rfl, rfl⟩ := Prod.mk.inj heq
          exact .inl rfl
        · exact .inr ⟨v, hmem, hv, rfl⟩

theorem writtenFields_sublist (fs : List (String × Value)) :
    ((writtenFields fs).map Prod.fst).Sublist (fs.map Prod.fst) := by
  induction fs with
  | nil => exact List.Sublist.refl _
  | cons f fs ih =>
    obtain ⟨k, v⟩ := f
    unfold writtenFields
    split
    · exact ih.cons _
    · exact ih.cons_cons _

theorem itemsProper_iff {vs : List Value} : ItemsProper vs ↔ ∀ v ∈ vs, v.Proper := by
  induction vs with
  | nil => simp [ItemsProper]
  | cons v vs ih => simp [ItemsProper, ih]

theorem fieldsProper_iff {fs : List (String × Value)} : FieldsProper fs ↔ ∀ f ∈ fs, f.2.Proper := by
  induction fs with
  | nil => simp [FieldsProper]
  | cons f fs ih => simp [FieldsProper, ih]

theorem Value.orElse_null {v : Value} (h : v.IsJson) : v.orElse .null = v := by
  cases v with
  | undefined => exact absurd h id
  | null | boolean | number | string | array | object => rfl

mutual
theorem Value.written_isJson : (v : Value) → v.Proper → v ≠ .undefined → v.written.IsJson
  | .undefined, _, hne => absurd rfl hne
  | .null, _, _ | .boolean _, _, _ | .string _, _, _ => trivial
  | .number _, h, _ => h
  | .array vs, h, _ => writtenItems_json vs h
  | .object fs, h, _ => ⟨writtenFields_json fs h.1, h.2.sublist (writtenFields_sublist fs)⟩

theorem writtenItems_json : (vs : List Value) → ItemsProper vs → ItemsJson (writtenItems vs)
  | [], _ => trivial
  | v :: vs, h => by
    refine ⟨?_, writtenItems_json vs h.2⟩
    by_cases hundefined : v = .undefined
    · rw [hundefined]
      trivial
    · have hjson := Value.written_isJson v h.1 hundefined
      rwa [Value.orElse_null hjson]

theorem writtenFields_json : (fs : List (String × Value)) → FieldsProper fs →
    FieldsJson (writtenFields fs)
  | [], _ => trivial
  | (k, v) :: fs, h => by
    have htail := writtenFields_json fs h.2
    unfold writtenFields
    split
    · exact htail
    · next w hw =>
      have hne : v ≠ .undefined := fun heq => hw (by rw [heq]; rfl)
      exact ⟨Value.written_isJson v h.1 hne, htail⟩
end

mutual
theorem stringify?_written : (v : Value) → stringify? v.written = stringify? v
  | .undefined | .null | .boolean _ | .number _ | .string _ => rfl
  | .array vs => by rw [Value.written, stringify?, stringifyItems_written vs, stringify?]
  | .object fs => by rw [Value.written, stringify?, stringifyFields_written fs, stringify?]

theorem stringifyItems_written : (vs : List Value) →
    stringifyItems (writtenItems vs) = stringifyItems vs
  | [] => rfl
  | v :: vs => by
    have hhead : (stringify? (v.written.orElse .null)).getD "null" =
        (stringify? v).getD "null" := by
      rw [← stringify?_written v]
      cases v.written <;> rfl
    rw [writtenItems, stringifyItems, hhead, stringifyItems_written vs, stringifyItems]

theorem stringifyFields_written : (fs : List (String × Value)) →
    stringifyFields (writtenFields fs) = stringifyFields fs
  | [] => rfl
  | (k, v) :: fs => by
    have htail := stringifyFields_written fs
    have hv := stringify?_written v
    cases hw : v.written with
    | undefined =>
      rw [hw] at hv
      rw [writtenFields, hw, stringifyFields, ← hv]
      exact htail
    | null | boolean | number | string | array | object =>
      rw [hw] at hv
      rw [writtenFields, hw, stringifyFields, stringifyFields, hv, htail]
end

mutual
theorem Value.written_eq : (v : Value) → v.IsJson → v.written = v
  | .null, _ | .boolean _, _ | .number _, _ | .string _, _ => rfl
  | .array vs, h => congrArg Value.array (writtenItems_eq vs h)
  | .object fs, h => congrArg Value.object (writtenFields_eq fs h.1)

theorem writtenItems_eq : (vs : List Value) → ItemsJson vs → writtenItems vs = vs
  | [], _ => rfl
  | v :: vs, h => by
    rw [writtenItems, Value.written_eq v h.1, writtenItems_eq vs h.2, Value.orElse_null h.1]

theorem writtenFields_eq : (fs : List (String × Value)) → FieldsJson fs → writtenFields fs = fs
  | [], _ => rfl
  | (k, v) :: fs, h => by
    rw [writtenFields, Value.written_eq v h.1, writtenFields_eq fs h.2]
    cases v with
    | undefined => exact absurd h.1 id
    | null | boolean | number | string | array | object => rfl
end

mutual
theorem Value.proper_of_isJson : (v : Value) → v.IsJson → v.Proper
  | .null, _ | .boolean _, _ | .string _, _ => trivial
  | .number _, h => h
  | .array vs, h => itemsProper_of_json vs h
  | .object fs, h => ⟨fieldsProper_of_json fs h.1, h.2⟩

theorem itemsProper_of_json : (vs : List Value) → ItemsJson vs → ItemsProper vs
  | [], _ => trivial
  | v :: vs, h => ⟨Value.proper_of_isJson v h.1, itemsProper_of_json vs h.2⟩

theorem fieldsProper_of_json : (fs : List (String × Value)) → FieldsJson fs → FieldsProper fs
  | [], _ => trivial
  | (_, v) :: fs, h => ⟨Value.proper_of_isJson v h.1, fieldsProper_of_json fs h.2⟩
end

theorem Number.normal_canonical {x : Number} (h : x.Normal) : x.canonical.Normal := by
  unfold Number.canonical
  split
  · exact .inr ⟨rfl, rfl⟩
  · exact h

mutual
theorem Value.reread_isJson : (v : Value) → v.IsJson → v.reread.IsJson
  | .null, _ | .boolean _, _ | .string _, _ => trivial
  | .number _, h => Number.normal_canonical h
  | .array vs, h => rereadItems_json vs h
  | .object fs, h => by
    refine ⟨rereadFields_json fs h.1, ?_⟩
    rw [rereadFields_eq, List.map_map]
    exact h.2

theorem rereadItems_json : (vs : List Value) → ItemsJson vs → ItemsJson (rereadItems vs)
  | [], _ => trivial
  | v :: vs, h => ⟨Value.reread_isJson v h.1, rereadItems_json vs h.2⟩

theorem rereadFields_json : (fs : List (String × Value)) → FieldsJson fs →
    FieldsJson (rereadFields fs)
  | [], _ => trivial
  | (_, v) :: fs, h => ⟨Value.reread_isJson v h.1, rereadFields_json fs h.2⟩
end

theorem parseJson_stringify_written {v : Value} (h : v.Proper) (hne : v ≠ .undefined) :
    parseJson (stringify v) = some v.written.reread := by
  have htext : stringify v = stringify v.written := by rw [stringify, stringify, stringify?_written]
  rw [htext]
  exact parseJson_stringify (v.written_isJson h hne)

mutual
theorem canonicalJson?_reread : (v : Value) → canonicalJson? v.reread = canonicalJson? v
  | .undefined | .null | .boolean _ | .string _ => rfl
  | .number x => congrArg some x.canonical_text
  | .array vs => by rw [Value.reread, canonicalJson?, canonicalItems_reread vs, canonicalJson?]
  | .object fs => by rw [Value.reread, canonicalJson?, canonicalFields_reread fs, canonicalJson?]

theorem canonicalItems_reread : (vs : List Value) →
    canonicalItems (rereadItems vs) = canonicalItems vs
  | [] => rfl
  | v :: vs => by
    rw [rereadItems, canonicalItems, canonicalJson?_reread v, canonicalItems_reread vs,
      canonicalItems]

theorem canonicalFields_reread : (fs : List (String × Value)) →
    canonicalFields (rereadFields fs) = canonicalFields fs
  | [] => rfl
  | (k, v) :: fs => by
    rw [rereadFields, canonicalFields, canonicalJson?_reread v, canonicalFields_reread fs,
      canonicalFields]
end

theorem canonicalJson_reread (v : Value) : canonicalJson v.reread = canonicalJson v :=
  congrArg (Option.getD · _) (canonicalJson?_reread v)

theorem writtenItems_eq_map (vs : List Value) :
    writtenItems vs = vs.map fun v => v.written.orElse .null := by
  induction vs with
  | nil => rfl
  | cons v vs ih => rw [writtenItems, ih]; rfl

theorem reread_written_array {α : Type} {toValue : α → Value} {l : List α}
    (h : ∀ a ∈ l, (toValue a).Proper ∧ toValue a ≠ .undefined) :
    (Value.array (l.map toValue)).written.reread =
      .array (l.map fun a => (toValue a).written.reread) := by
  rw [Value.written, Value.reread, rereadItems_eq, writtenItems_eq_map, List.map_map, List.map_map]
  refine congrArg Value.array (List.map_congr_left fun a ha => ?_)
  obtain ⟨hproper, hne⟩ := h a ha
  simp only [Function.comp_apply, Value.orElse_null ((toValue a).written_isJson hproper hne)]

theorem writtenFields_eq_map {fs : List (String × Value)} (h : ∀ f ∈ fs, f.2 ≠ .undefined) :
    writtenFields fs = fs.map fun f => (f.1, f.2.written) := by
  induction fs with
  | nil => rfl
  | cons f fs ih =>
    obtain ⟨k, v⟩ := f
    have hv : v.written ≠ .undefined := fun hw =>
      h (k, v) List.mem_cons_self (Value.written_eq_undefined.mp hw)
    unfold writtenFields
    split
    · next hw => exact absurd hw hv
    · rw [ih fun f hf => h f (List.mem_cons_of_mem _ hf), List.map_cons]

theorem reread_written_object {fs : List (String × Value)} (h : ∀ f ∈ fs, f.2 ≠ .undefined) :
    (Value.object fs).written.reread = .object (fs.map fun f => (f.1, f.2.written.reread)) := by
  rw [Value.written, Value.reread, rereadFields_eq, writtenFields_eq_map h, List.map_map]
  rfl

/-! ### What is lost shows -/

theorem canonicalItems_inj {v w : Value} {vs ws : List Value}
    (h : canonicalJson (.array (v :: vs)) = canonicalJson (.array (w :: ws))) :
    canonicalItems (v :: vs) = canonicalItems (w :: ws) := by
  have hall := canonicalItems_text (v :: vs)
  have hall' := canonicalItems_text (w :: ws)
  have htext : ∀ (v : Value) (vs : List Value), (canonicalJson (.array (v :: vs))).toList =
      '[' :: (((canonicalJson? v).getD "").toList ++
        (tailText ((canonicalItems vs).map String.toList) ++ [']'])) := by
    intro v vs
    simp only [canonicalJson, canonicalJson?, canonicalItems, Option.getD_some,
      String.toList_append, String.toList_intercalate, List.map_cons]
    rw [show "[".toList = ['['] from rfl, show "]".toList = [']'] from rfl,
      show ",".toList = [','] from rfl, intercalate_eq]
    simp only [List.append_assoc, List.cons_append, List.nil_append]
  have hchars := congrArg String.toList h
  rw [htext, htext] at hchars
  obtain ⟨hhead, htail⟩ := (hall _ List.mem_cons_self).unique (hall' _ List.mem_cons_self) _ _
    (closed_tail rfl) (closed_tail rfl) (List.cons.inj hchars).2
  obtain ⟨hrest, -⟩ := tailText_unique rfl (by decide) (fun t ht t' ht' => by
    obtain ⟨s, hs, rfl⟩ := List.mem_map.mp ht
    obtain ⟨s', hs', rfl⟩ := List.mem_map.mp ht'
    exact (hall s (List.mem_cons_of_mem _ hs)).unique (hall' s' (List.mem_cons_of_mem _ hs')))
    htail
  rw [canonicalItems, canonicalItems, String.toList_inj.mp hhead,
    List.map_injective_iff.mpr (fun _ _ => String.toList_injective) hrest]

mutual
/-- Where the canonical text of what is written is that of the value, nothing was lost. -/
theorem Value.isJson_of_written : (v : Value) → v.Proper → v ≠ .undefined →
    canonicalJson v.written = canonicalJson v → v.IsJson
  | .undefined, _, hne, _ => absurd rfl hne
  | .null, _, _, _ | .boolean _, _, _, _ | .string _, _, _, _ => trivial
  | .number _, h, _, _ => h
  | .array [], _, _, _ => trivial
  | .array (v :: vs), h, _, heq => by
    have hitems := canonicalItems_inj heq
    exact itemsJson_of_written (v :: vs) h hitems
  | .object fs, h, _, heq => by
    refine ⟨fieldsJson_of_written fs h.1 fun k v hmem => ?_, h.2⟩
    obtain ⟨w, hw, htext⟩ := exists_field_of_canonicalJson heq.symm hmem
    obtain ⟨v', hmem', hne, rfl⟩ := mem_writtenFields.mp hw
    have hsame := List.inj_on_of_nodup_map h.2 hmem' hmem rfl
    obtain rfl : v' = v := (Prod.mk.inj hsame).2
    exact ⟨hne, htext⟩

theorem itemsJson_of_written : (vs : List Value) → ItemsProper vs →
    canonicalItems (writtenItems vs) = canonicalItems vs → ItemsJson vs
  | [], _, _ => trivial
  | v :: vs, h, heq => by
    obtain ⟨hhead, htail⟩ := List.cons.inj heq
    have hne : v ≠ .undefined := fun hundefined => by
      rw [hundefined] at hhead
      exact absurd hhead (by decide)
    have hjson := v.written_isJson h.1 hne
    have hsome : v.written ≠ .undefined := fun hw => hne (Value.written_eq_undefined.mp hw)
    refine ⟨Value.isJson_of_written v h.1 hne ?_, itemsJson_of_written vs h.2 htail⟩
    rw [Value.orElse_null hjson] at hhead
    cases v with
    | undefined => exact absurd rfl hne
    | null | boolean | number | string | array | object => exact hhead

theorem fieldsJson_of_written : (fs : List (String × Value)) → FieldsProper fs →
    (∀ k v, (k, v) ∈ fs → v ≠ .undefined ∧ canonicalJson v.written = canonicalJson v) →
    FieldsJson fs
  | [], _, _ => trivial
  | (k, v) :: fs, h, hall => by
    obtain ⟨hne, htext⟩ := hall k v List.mem_cons_self
    exact ⟨Value.isJson_of_written v h.1 hne htext,
      fieldsJson_of_written fs h.2 fun k v hmem => hall k v (List.mem_cons_of_mem _ hmem)⟩
end

/-- A value keeps its canonical text over JSON exactly when JSON can carry it. -/
theorem canonicalJson_written_iff {v : Value} (h : v.Proper) (hne : v ≠ .undefined) :
    canonicalJson v.written = canonicalJson v ↔ v.IsJson :=
  ⟨v.isJson_of_written h hne, fun hjson => by rw [v.written_eq hjson]⟩

end BeeAgent.Data
