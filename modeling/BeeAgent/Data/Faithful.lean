import BeeAgent.Data.Written
import Mathlib.Data.List.Nodup

/-! What canonical JSON tells of a value: it is read back, it tells unequal values apart, and it
stays the same over JSON where nothing is `undefined`. -/
namespace BeeAgent.Data

/-! ### The order of the keys -/

def charUnits (c : Char) : List ℕ :=
  if c.toNat < 0x10000 then [c.toNat]
  else [0xD800 + (c.toNat - 0x10000) / 0x400, 0xDC00 + (c.toNat - 0x10000) % 0x400]

theorem charUnits_unique {c d : Char} {x y : List ℕ} (h : charUnits c ++ x = charUnits d ++ y) :
    c = d ∧ x = y := by
  have hvalid : ∀ c : Char, c.toNat < 0xD800 ∨ 0xDFFF < c.toNat ∧ c.toNat < 0x110000 :=
    fun c => c.valid
  have hc := hvalid c
  have hd := hvalid d
  unfold charUnits at h
  split at h <;> split at h <;>
    simp only [List.cons_append, List.nil_append, List.cons.injEq] at h
  · exact ⟨Char.toNat_inj.mp h.1, h.2⟩
  · omega
  · omega
  · exact ⟨Char.toNat_inj.mp (by omega), h.2.2⟩

theorem utf16_injective : Function.Injective utf16 := by
  suffices h : ∀ cs ds : List Char, cs.flatMap charUnits = ds.flatMap charUnits → cs = ds from
    fun s t heq => String.toList_inj.mp (h s.toList t.toList heq)
  have hne : ∀ c, charUnits c ≠ [] := fun c => by unfold charUnits; split <;> simp
  intro cs
  induction cs with
  | nil =>
    intro ds h
    cases ds with
    | nil => rfl
    | cons d ds => exact absurd h.symm (by simp [hne])
  | cons c cs ih =>
    intro ds h
    cases ds with
    | nil => exact absurd h (by simp [hne])
    | cons d ds =>
      obtain ⟨rfl, hrest⟩ := charUnits_unique h
      rw [ih ds hrest]

instance : Std.Total fun a b : String × String => keyLe a.1 b.1 :=
  ⟨fun a b => le_total (utf16 a.1) (utf16 b.1)⟩

instance : IsTrans (String × String) fun a b => keyLe a.1 b.1 :=
  ⟨fun _ _ _ hab hbc => le_trans hab hbc⟩

theorem sortByKey_eq_of_perm {fs gs : List (String × String)} (h : fs.Perm gs)
    (hnodup : (fs.map Prod.fst).Nodup) : sortByKey fs = sortByKey gs := by
  have hfs : (sortByKey fs).Perm fs := List.perm_insertionSort ..
  have hgs : (sortByKey gs).Perm gs := List.perm_insertionSort ..
  refine List.Perm.eq_of_pairwise (fun a b ha hb hab hba => ?_)
    (List.pairwise_insertionSort (fun a b : String × String => keyLe a.1 b.1) fs)
    (List.pairwise_insertionSort (fun a b : String × String => keyLe a.1 b.1) gs)
    (hfs.trans (h.trans hgs.symm))
  have hkey : a.1 = b.1 := utf16_injective (le_antisymm hab hba)
  exact List.inj_on_of_nodup_map hnodup (hfs.subset ha) (h.symm.subset (hgs.subset hb)) hkey

theorem map_fst_canonicalFields (fs : List (String × Value)) :
    (canonicalFields fs).map Prod.fst = fs.map Prod.fst := by
  rw [canonicalFields_eq_map, List.map_map]
  rfl

/-! ### Equal values -/

mutual
theorem canonicalJson?_of_equal : (v w : Value) → v.IsJson → w.IsJson → v.Equal w →
    canonicalJson? v = canonicalJson? w
  | .null, _, _, _, .null => rfl
  | .boolean _, _, _, _, .boolean _ => rfl
  | .number x, .number y, _, _, .number h => by
    rw [canonicalJson?, canonicalJson?, ← x.canonical_text, ← y.canonical_text, h]
  | .string _, _, _, _, .string _ => rfl
  | .array vs, .array ws, hv, hw, .array h => by
    rw [canonicalJson?, canonicalJson?, canonicalItems_of_equal vs ws hv hw h]
  | .object fs, .object gs, hv, hw, .object hkeys h => by
    have hfields := canonicalFields_of_equal fs gs hv.1 hw.1 h
    have hnodup : ((canonicalFields fs).map Prod.fst).Nodup := by
      rw [map_fst_canonicalFields]
      exact hv.2
    have hnodup' : ((canonicalFields gs).map Prod.fst).Nodup := by
      rw [map_fst_canonicalFields]
      exact hw.2
    have hperm : (canonicalFields fs).Perm (canonicalFields gs) := by
      refine (List.perm_ext_iff_of_nodup (.of_map _ hnodup) (.of_map _ hnodup')).mpr fun f => ?_
      obtain ⟨k, t⟩ := f
      rw [mem_canonicalFields, mem_canonicalFields]
      constructor
      · rintro ⟨v, hmem, rfl⟩
        obtain ⟨g, hg, rfl⟩ := List.mem_map.mp ((hkeys k).mp (List.mem_map_of_mem hmem))
        exact ⟨g.2, hg, congrArg (Option.getD · _) (hfields _ hmem g hg rfl).symm⟩
      · rintro ⟨w, hmem, rfl⟩
        obtain ⟨f, hf, rfl⟩ := List.mem_map.mp ((hkeys k).mpr (List.mem_map_of_mem hmem))
        exact ⟨f.2, hf, congrArg (Option.getD · _) (hfields f hf _ hmem rfl)⟩
    rw [canonicalJson?, canonicalJson?, sortByKey_eq_of_perm hperm hnodup]

theorem canonicalItems_of_equal : (vs ws : List Value) → ItemsJson vs → ItemsJson ws →
    List.Forall₂ Value.Equal vs ws → canonicalItems vs = canonicalItems ws
  | [], _, _, _, .nil => rfl
  | v :: vs, w :: ws, hv, hw, .cons h hrest => by
    rw [canonicalItems, canonicalItems, canonicalJson?_of_equal v w hv.1 hw.1 h,
      canonicalItems_of_equal vs ws hv.2 hw.2 hrest]

theorem canonicalFields_of_equal : (fs gs : List (String × Value)) → FieldsJson fs →
    FieldsJson gs → (∀ f ∈ fs, ∀ g ∈ gs, f.1 = g.1 → Value.Equal f.2 g.2) →
    ∀ f ∈ fs, ∀ g ∈ gs, f.1 = g.1 → canonicalJson? f.2 = canonicalJson? g.2
  | [], _, _, _, _ => by simp
  | (k, v) :: fs, gs, hf, hg, h => by
    refine List.forall_mem_cons.mpr ⟨fun g hmem hkey => ?_, ?_⟩
    · exact canonicalJson?_of_equal v g.2 hf.1 (fieldsJson_iff.mp hg g hmem)
        (h (k, v) List.mem_cons_self g hmem hkey)
    · exact canonicalFields_of_equal fs gs hf.2 hg fun f hmem =>
        h f (List.mem_cons_of_mem _ hmem)
end

mutual
/-- Values that are the same up to the order of their keys are equal. -/
theorem equal_of_ordered : (v w : Value) → v.IsJson → w.IsJson → v.ordered = w.ordered → v.Equal w
  | .null, w, _, _, h => by cases w <;> simp_all [Value.ordered, Value.Equal.null]
  | .boolean b, w, _, _, h => by cases w <;> simp_all [Value.ordered, Value.Equal.boolean]
  | .string s, w, _, _, h => by cases w <;> simp_all [Value.ordered, Value.Equal.string]
  | .number x, w, _, _, h => by
    cases w with
    | number y => exact .number (Value.number.inj h)
    | _ => simp [Value.ordered] at h
  | .array vs, w, hv, hw, h => by
    cases w with
    | array ws => exact .array (equal_of_orderedItems vs ws hv hw (Value.array.inj h))
    | _ => simp [Value.ordered] at h
  | .object fs, w, hv, hw, h => by
    cases w with
    | object gs =>
      have hsame : sortFields (orderedFields fs) = sortFields (orderedFields gs) :=
        Value.object.inj h
      have hfs : (sortFields (orderedFields fs)).Perm (orderedFields fs) :=
        List.perm_insertionSort ..
      have hgs : (sortFields (orderedFields gs)).Perm (orderedFields gs) :=
        List.perm_insertionSort ..
      have hperm := hfs.symm.trans (hsame ▸ hgs)
      rw [orderedFields_eq, orderedFields_eq] at hperm
      refine .object (fun k => ?_) (equal_of_orderedFields fs gs hv.1 hw.1 fun f hf g hg hkey => ?_)
      · have hkeys := (hperm.map Prod.fst).mem_iff (a := k)
        rwa [List.map_map, List.map_map] at hkeys
      · obtain ⟨g', hg', heq⟩ := List.mem_map.mp (hperm.subset (List.mem_map_of_mem hf))
        obtain ⟨hkey', hordered⟩ := Prod.mk.inj heq
        obtain rfl : g' = g := List.inj_on_of_nodup_map hw.2 hg' hg (hkey'.trans hkey)
        exact hordered.symm
    | _ => simp [Value.ordered] at h

theorem equal_of_orderedItems : (vs ws : List Value) → ItemsJson vs → ItemsJson ws →
    orderedItems vs = orderedItems ws → List.Forall₂ Value.Equal vs ws
  | [], [], _, _, _ => .nil
  | [], _ :: _, _, _, h => by cases h
  | _ :: _, [], _, _, h => by cases h
  | v :: vs, w :: ws, hv, hw, h => by
    obtain ⟨hhead, htail⟩ := List.cons.inj h
    exact .cons (equal_of_ordered v w hv.1 hw.1 hhead)
      (equal_of_orderedItems vs ws hv.2 hw.2 htail)

theorem equal_of_orderedFields : (fs gs : List (String × Value)) → FieldsJson fs →
    FieldsJson gs → (∀ f ∈ fs, ∀ g ∈ gs, f.1 = g.1 → f.2.ordered = g.2.ordered) →
    ∀ f ∈ fs, ∀ g ∈ gs, f.1 = g.1 → f.2.Equal g.2
  | [], _, _, _, _ => by simp
  | (k, v) :: fs, gs, hf, hg, h => by
    refine List.forall_mem_cons.mpr ⟨fun g hmem hkey => ?_, ?_⟩
    · exact equal_of_ordered v g.2 hf.1 (fieldsJson_iff.mp hg g hmem)
        (h (k, v) List.mem_cons_self g hmem hkey)
    · exact equal_of_orderedFields fs gs hf.2 hg fun f hmem =>
        h f (List.mem_cons_of_mem _ hmem)
end

/-- Two values have one text exactly when they are equal up to the order of their keys. -/
theorem canonicalJson_eq_iff {v w : Value} (hv : v.IsJson) (hw : w.IsJson) :
    canonicalJson v = canonicalJson w ↔ v.Equal w := by
  constructor
  · intro h
    have hparse := parseJson_canonicalJson hv
    rw [h, parseJson_canonicalJson hw] at hparse
    exact equal_of_ordered v w hv hw (Option.some.inj hparse).symm
  · intro h
    rw [canonicalJson, canonicalJson, canonicalJson?_of_equal v w hv hw h]

/-- Canonical JSON is read back as an equal value and tells unequal values apart; a value keeps its
text over JSON exactly when nothing in it is `undefined`. -/
theorem canonicalJson_faithful (v : Value) :
    (v.IsJson → ∃ w, parseJson (canonicalJson v) = some w ∧ w.Equal v) ∧
      (∀ w : Value, v.IsJson → w.IsJson → (canonicalJson v = canonicalJson w ↔ v.Equal w)) ∧
      (v.Proper → v ≠ .undefined →
        ((∃ w, parseJson (stringify v) = some w ∧ canonicalJson w = canonicalJson v) ↔
          v.IsJson)) := by
  refine ⟨fun hv => ⟨v.ordered, parseJson_canonicalJson hv, equal_ordered v hv⟩,
    fun w hv hw => canonicalJson_eq_iff hv hw, fun hv hne => ?_⟩
  rw [parseJson_stringify_written hv hne, ← canonicalJson_written_iff hv hne]
  simp [canonicalJson_reread]

/-- A field that is `undefined` is spelled out, and left out in what is stored. -/
theorem undefined_field_lost : ¬∀ v : Value, v.Proper → v ≠ .undefined →
    ∃ w, parseJson (stringify v) = some w ∧ canonicalJson w = canonicalJson v := by
  intro h
  obtain ⟨w, hparse, htext⟩ := h (.object [("a", .undefined)]) (by decide) (by simp)
  have hread : parseJson (stringify (.object [("a", .undefined)])) = some (.object []) := rfl
  rw [hread] at hparse
  obtain rfl := Option.some.inj hparse
  exact absurd htext (by decide +kernel)

end BeeAgent.Data
