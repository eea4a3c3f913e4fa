import BeeAgent.Data.RoundTrip

/-! `JSON.stringify` of a JSON value: `JSON.parse` reads it back, and it is one line. -/
namespace BeeAgent.Data

mutual
/-- The value as it is read back: a negative zero comes without its sign. -/
def Value.reread : Value → Value
  | .number x => .number x.canonical
  | .array items => .array (rereadItems items)
  | .object fields => .object (rereadFields fields)
  | v => v

def rereadItems : List Value → List Value
  | [] => []
  | v :: vs => v.reread :: rereadItems vs

def rereadFields : List (String × Value) → List (String × Value)
  | [] => []
  | (k, v) :: fs => (k, v.reread) :: rereadFields fs
end

theorem rereadItems_eq (vs : List Value) : rereadItems vs = vs.map Value.reread := by
  induction vs with
  | nil => rfl
  | cons v vs ih => rw [rereadItems, ih]; rfl

theorem rereadFields_eq (fs : List (String × Value)) :
    rereadFields fs = fs.map fun f => (f.1, f.2.reread) := by
  induction fs with
  | nil => rfl
  | cons f fs ih => obtain ⟨k, v⟩ := f; rw [rereadFields, ih]; rfl

def stringifyText (v : Value) : List Char := (stringify v).toList

theorem stringify?_of_isJson {v : Value} (h : v.IsJson) : stringify? v = some (stringify v) := by
  cases v with
  | undefined => cases h
  | null | boolean | number | string | array | object => rfl

theorem stringifyItems_eq {vs : List Value} (h : ItemsJson vs) :
    stringifyItems vs = vs.map stringify := by
  induction vs with
  | nil => rfl
  | cons v vs ih => rw [stringifyItems, stringify?_of_isJson h.1, ih h.2]; rfl

theorem stringifyFields_eq {fs : List (String × Value)} (h : FieldsJson fs) :
    stringifyFields fs = fs.map fun f => quote f.1 ++ ":" ++ stringify f.2 := by
  induction fs with
  | nil => rfl
  | cons f fs ih =>
    obtain ⟨k, v⟩ := f
    rw [stringifyFields, stringify?_of_isJson h.1, ih h.2]
    rfl

theorem stringifyText_array {vs : List Value} (h : ItemsJson vs) :
    stringifyText (.array vs) = '[' :: ([','].intercalate (vs.map stringifyText) ++ [']']) := by
  simp only [stringifyText, stringify, stringify?, Option.getD_some, String.toList_append,
    String.toList_intercalate, stringifyItems_eq h, List.map_map]
  rfl

theorem stringifyText_object {fs : List (String × Value)} (h : FieldsJson fs) :
    stringifyText (.object fs) = '{' :: ([','].intercalate
      (fs.map fun f => fieldText (f.1, stringifyText f.2)) ++ ['}']) := by
  have hfields : (stringifyFields fs).map String.toList =
      fs.map fun f => fieldText (f.1, stringifyText f.2) := by
    rw [stringifyFields_eq h, List.map_map]
    exact List.map_congr_left fun f _ => by simp [fieldText, stringifyText]
  have htext : stringify (.object fs) = "\x7b" ++ ",".intercalate (stringifyFields fs) ++ "\x7d" := rfl
  rw [stringifyText, htext, String.toList_append, String.toList_append, String.toList_intercalate,
    hfields]
  rfl

theorem stringifyText_beginning {v : Value} (h : v.IsJson) : HasBeginning (stringifyText v) := by
  cases v with
  | undefined => cases h
  | null => exact ⟨_, _, rfl, by decide⟩
  | boolean b => cases b <;> exact ⟨_, _, rfl, by decide⟩
  | number x =>
    obtain ⟨c, cs, htext, hc⟩ := number_head x h
    exact ⟨c, cs, htext, hc.begins⟩
  | string s => exact ⟨_, _, quote_toList s, by decide⟩
  | array vs => exact ⟨_, _, stringifyText_array h, by decide⟩
  | object fs => exact ⟨_, _, stringifyText_object h.1, by decide⟩

mutual
theorem readAs_stringify : (v : Value) → v.IsJson → ReadAs (stringifyText v) v.reread
  | .null, _ => readAs_null
  | .boolean b, _ => readAs_boolean b
  | .number _, h => readAs_number h
  | .string s, _ => readAs_string s
  | .array vs, h => by
    have hread := readAs_array (vs.map fun v => (stringifyText v, v.reread)) ?_ ?_
    · rw [List.map_map, List.map_map] at hread
      rw [stringifyText_array h, Value.reread, rereadItems_eq]
      exact hread
    · exact List.forall_mem_map.mpr fun v hv => stringifyText_beginning (itemsJson_iff.mp h v hv)
    · exact List.forall_mem_map.mpr fun v hv => readAs_stringifyItems vs h v hv
  | .object fs, h => by
    have hread := readAs_object
      (fs.map fun f => (f.1, stringifyText f.2, f.2.reread)) ?_ ?_
    · rw [List.map_map, List.map_map] at hread
      rw [stringifyText_object h.1, Value.reread, rereadFields_eq]
      exact hread
    · rw [List.map_map]
      exact h.2
    · exact List.forall_mem_map.mpr fun f hf => readAs_stringifyFields fs h.1 f hf

theorem readAs_stringifyItems : (vs : List Value) → ItemsJson vs →
    ∀ v ∈ vs, ReadAs (stringifyText v) v.reread
  | [], _ => by simp
  | v :: vs, h => List.forall_mem_cons.mpr ⟨readAs_stringify v h.1, readAs_stringifyItems vs h.2⟩

theorem readAs_stringifyFields : (fs : List (String × Value)) → FieldsJson fs →
    ∀ f ∈ fs, ReadAs (stringifyText f.2) f.2.reread
  | [], _ => by simp
  | (_, v) :: fs, h =>
    List.forall_mem_cons.mpr ⟨readAs_stringify v h.1, readAs_stringifyFields fs h.2⟩
end

theorem parseJson_stringify {v : Value} (h : v.IsJson) : parseJson (stringify v) = some v.reread :=
  (readAs_stringify v h).parseJson

theorem Number.canonical_canonical (x : Number) : x.canonical.canonical = x.canonical := by
  unfold Number.canonical
  split <;> simp_all

mutual
theorem equal_reread : (v : Value) → v.IsJson → v.reread.Equal v
  | .null, _ => .null
  | .boolean b, _ => .boolean b
  | .number x, _ => .number x.canonical_canonical
  | .string s, _ => .string s
  | .array vs, h => .array (equal_rereadItems vs h)
  | .object fs, h => by
    rw [Value.reread, rereadFields_eq]
    refine .object (fun k => by simp) ?_
    intro f hf g hg hkey
    obtain ⟨f, hmem, rfl⟩ := List.mem_map.mp hf
    -- an object has one field to a key
    obtain rfl : f = g := List.inj_on_of_nodup_map h.2 hmem hg hkey
    exact equal_rereadFields fs h.1 f hmem

theorem equal_rereadItems : (vs : List Value) → ItemsJson vs →
    List.Forall₂ Value.Equal (rereadItems vs) vs
  | [], _ => .nil
  | v :: vs, h => .cons (equal_reread v h.1) (equal_rereadItems vs h.2)

theorem equal_rereadFields : (fs : List (String × Value)) → FieldsJson fs →
    ∀ f ∈ fs, f.2.reread.Equal f.2
  | [], _ => by simp
  | (_, v) :: fs, h => List.forall_mem_cons.mpr ⟨equal_reread v h.1, equal_rereadFields fs h.2⟩
end

/-! ### Control characters -/

def Printable (text : List Char) : Prop := ∀ c ∈ text, 32 ≤ c.toNat

instance (text : List Char) : Decidable (Printable text) :=
  List.decidableBAll (fun c : Char => 32 ≤ c.toNat) text

theorem Printable.append {s t : List Char} (hs : Printable s) (ht : Printable t) :
    Printable (s ++ t) := List.forall_mem_append.mpr ⟨hs, ht⟩

theorem Printable.cons {c : Char} {t : List Char} (hc : 32 ≤ c.toNat) (ht : Printable t) :
    Printable (c :: t) := List.forall_mem_cons.mpr ⟨hc, ht⟩

theorem printable_intercalate {texts : List (List Char)} (h : ∀ t ∈ texts, Printable t) :
    Printable ([','].intercalate texts) := by
  induction texts with
  | nil => simp [Printable]
  | cons t ts ih =>
    have ht := h t (List.mem_cons_self ..)
    cases ts with
    | nil => simpa using ht
    | cons u us =>
      rw [List.intercalate_cons_cons]
      exact .append (.append ht (.cons (by decide) (by simp [Printable])))
        (ih fun v hv => h v (List.mem_cons_of_mem _ hv))

theorem printable_hexDigit : ∀ n < 16, 32 ≤ (hexDigit n).toNat := by decide

theorem printable_escape (c : Char) : Printable (escape c) := by
  unfold escape
  split_ifs with hquote hslash hb hf hn hr ht hcontrol
  iterate 7 decide
  · have hhigh := printable_hexDigit (c.toNat / 16) (by omega)
    have hlow := printable_hexDigit (c.toNat % 16) (by omega)
    simp [Printable, hhigh, hlow]
  · simpa [Printable] using hcontrol

theorem printable_quote (s : String) : Printable (quote s).toList := by
  rw [quote_toList]
  refine .cons (by decide) (.append (fun c hc => ?_) (.cons (by decide) (by simp [Printable])))
  obtain ⟨d, -, hd⟩ := List.mem_flatMap.mp hc
  exact printable_escape d c hd

theorem printable_digits {ds : List Char} (h : ∀ c ∈ ds, c.isDigit) : Printable ds := by
  intro c hc
  have hdigit := h c hc
  simp only [Char.isDigit, Bool.and_eq_true, decide_eq_true_eq, ge_iff_le,
    UInt32.le_iff_toNat_le] at hdigit
  exact le_trans (by decide) hdigit.1

theorem ExponentText.printable {e : ℤ} {t : List Char} (h : ExponentText e t) : Printable t := by
  cases h with
  | none => simp [Printable]
  | positive n | negative n =>
    exact .cons (by decide) (.cons (by decide) (printable_digits (isDigit_toDigits n)))

theorem Literal.printable {ds fs t : List Char} {e : ℤ} (h : Literal ds fs e t)
    (hds : ∀ c ∈ ds, c.isDigit) (hfs : ∀ c ∈ fs, c.isDigit) : Printable t := by
  cases h with
  | integer h => exact .append (printable_digits hds) h.printable
  | fraction _ h =>
    exact .append (.append (printable_digits hds) (.cons (by decide) (printable_digits hfs)))
      h.printable

theorem printable_number {x : Number} (hx : x.Normal) : Printable x.text.toList := by
  have hmagnitude : Printable x.magnitude.toList := by
    rcases hx with hx | ⟨hdigits, -⟩
    · obtain ⟨ds, fs, e, j, hliteral, hreads⟩ := magnitude_reads hx
      exact hliteral.printable hreads.integer hreads.fraction
    · simp [Number.magnitude, hdigits, Printable]
  rw [Number.text]
  split
  · rw [String.toList_append]
    exact .cons (by decide) hmagnitude
  · exact hmagnitude

mutual
theorem printable_stringify : (v : Value) → v.IsJson → Printable (stringifyText v)
  | .null, _ => by decide
  | .boolean b, _ => by cases b <;> decide
  | .number _, h => printable_number h
  | .string s, _ => printable_quote s
  | .array vs, h => by
    rw [stringifyText_array h]
    exact .cons (by decide) (.append
      (printable_intercalate (List.forall_mem_map.mpr (printable_items vs h)))
      (by decide))
  | .object fs, h => by
    rw [stringifyText_object h.1]
    refine .cons (by decide) (.append (printable_intercalate ?_) (by decide))
    refine List.forall_mem_map.mpr fun f hf => ?_
    exact .append (printable_quote f.1) (.cons (by decide) (printable_fields fs h.1 f hf))

theorem printable_items : (vs : List Value) → ItemsJson vs → ∀ v ∈ vs, Printable (stringifyText v)
  | [], _ => by simp
  | v :: vs, h => List.forall_mem_cons.mpr ⟨printable_stringify v h.1, printable_items vs h.2⟩

theorem printable_fields : (fs : List (String × Value)) → FieldsJson fs →
    ∀ f ∈ fs, Printable (stringifyText f.2)
  | [], _ => by simp
  | (_, v) :: fs, h => List.forall_mem_cons.mpr ⟨printable_stringify v h.1, printable_fields fs h.2⟩
end

end BeeAgent.Data
