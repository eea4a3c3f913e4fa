import BeeAgent.Data.Value
import Mathlib.Tactic.SplitIfs

/-! Canonical JSON is unambiguous: its texts delimit themselves, so equal texts have equal parts. -/
namespace BeeAgent.Data

/-- The characters that end an array item or an object field. -/
def ends (c : Char) : Bool := c = ',' || c = ']' || c = '}'

/-- The characters of a text that is not quoted and has no parts. -/
def plain (c : Char) : Bool := !(ends c || c = '"' || c = '[' || c = '{')

def Closed (rest : List Char) : Prop := ∀ c cs, rest = c :: cs → ends c

def Unique (t t' : List Char) : Prop :=
  ∀ r r', Closed r → Closed r' → t ++ r = t' ++ r' → t = t' ∧ r = r'

theorem closed_cons {c : Char} {rest : List Char} (h : ends c) : Closed (c :: rest) := by
  rintro _ _ ⟨⟩
  exact h

theorem closed_nil : Closed [] := fun _ _ h => nomatch h

section Quote

def hexValue (c : Char) : ℕ := if c.toNat < 58 then c.toNat - 48 else c.toNat - 87

/-- The character that an escape stands for, and what follows it. -/
def unescape : List Char → Option (Char × List Char)
  | '\\' :: 'u' :: '0' :: '0' :: a :: b :: rest =>
    some (Char.ofNat (hexValue a * 16 + hexValue b), rest)
  | '\\' :: c :: rest =>
    some (if c = 'b' then Char.ofNat 8 else if c = 'f' then Char.ofNat 12
      else if c = 'n' then Char.ofNat 10 else if c = 'r' then Char.ofNat 13
      else if c = 't' then Char.ofNat 9 else c, rest)
  | c :: rest => some (c, rest)
  | [] => none

theorem hexValue_hexDigit : ∀ n < 32, hexValue (hexDigit (n / 16)) * 16 +
    hexValue (hexDigit (n % 16)) = n := by decide

theorem eq_ofNat_of_toNat {c : Char} {n : ℕ} (h : c.toNat = n) : c = Char.ofNat n := by
  rw [← h, Char.ofNat_toNat]

theorem unescape_escape (c : Char) (rest : List Char) :
    unescape (escape c ++ rest) = some (c, rest) := by
  unfold escape
  split_ifs with h₁ h₂ h₃ h₄ h₅ h₆ h₇ h₈
  · subst h₁
    rfl
  · subst h₂
    rfl
  · rw [eq_ofNat_of_toNat h₃]
    rfl
  · rw [eq_ofNat_of_toNat h₄]
    rfl
  · rw [eq_ofNat_of_toNat h₅]
    rfl
  · rw [eq_ofNat_of_toNat h₆]
    rfl
  · rw [eq_ofNat_of_toNat h₇]
    rfl
  · simp only [List.cons_append, List.nil_append, unescape, hexValue_hexDigit _ h₈,
      Char.ofNat_toNat]
  · simp only [List.singleton_append]
    unfold unescape
    split <;> simp_all

theorem escape_unique {c d : Char} {x y : List Char} (h : escape c ++ x = escape d ++ y) :
    c = d ∧ x = y := by
  have heq := congrArg unescape h
  rw [unescape_escape, unescape_escape, Option.some.injEq, Prod.mk.injEq] at heq
  exact heq

theorem escape_head (c : Char) : ∃ d ds, escape c = d :: ds ∧ d ≠ '"' := by
  unfold escape
  split_ifs with h₁
  all_goals first
    | exact ⟨_, _, rfl, h₁⟩
    | exact ⟨_, _, rfl, by decide⟩

/-- The closing quote is the first that no escape covers. -/
theorem flatMap_escape_unique {s s' r r' : List Char}
    (h : s.flatMap escape ++ '"' :: r = s'.flatMap escape ++ '"' :: r') : s = s' ∧ r = r' := by
  induction s generalizing s' with
  | nil =>
    cases s' with
    | nil => exact ⟨rfl, (List.cons.inj h).2⟩
    | cons c s' =>
      obtain ⟨d, ds, hd, hne⟩ := escape_head c
      rw [List.flatMap_cons, hd] at h
      exact absurd (List.cons.inj h).1.symm hne
  | cons c s ih =>
    cases s' with
    | nil =>
      obtain ⟨d, ds, hd, hne⟩ := escape_head c
      rw [List.flatMap_cons, hd] at h
      exact absurd (List.cons.inj h).1 hne
    | cons c' s' =>
      rw [List.flatMap_cons, List.flatMap_cons, List.append_assoc, List.append_assoc] at h
      obtain ⟨rfl, hrest⟩ := escape_unique h
      obtain ⟨rfl, rfl⟩ := ih hrest
      exact ⟨rfl, rfl⟩

theorem quote_toList (s : String) :
    (quote s).toList = '"' :: (s.toList.flatMap escape ++ ['"']) := String.toList_ofList ..

theorem quote_unique {s s' : String} {r r' : List Char}
    (h : (quote s).toList ++ r = (quote s').toList ++ r') : s = s' ∧ r = r' := by
  rw [quote_toList, quote_toList, List.cons_append, List.cons_append, List.append_assoc,
    List.append_assoc] at h
  obtain ⟨heq, hr⟩ := flatMap_escape_unique (List.cons.inj h).2
  exact ⟨String.toList_inj.mp heq, hr⟩

theorem quote_injective : Function.Injective quote := by
  intro s s' h
  have htext : (quote s).toList ++ [] = (quote s').toList ++ [] := by rw [h]
  exact (quote_unique htext).1

end Quote

def fieldText (f : String × List Char) : List Char := (quote f.1).toList ++ ':' :: f.2

def tailText (ts : List (List Char)) : List Char := ts.flatMap fun t => ',' :: t

/-- The texts of canonical JSON, and those that stand in for `undefined`. An array without items
is one with an empty item. -/
inductive Text : List Char → Prop where
  | atom {t} (h : ∀ c ∈ t, plain c) : Text t
  | quoted (s : String) : Text (quote s).toList
  | array {t ts} (ht : Text t) (hts : ∀ u ∈ ts, Text u) : Text ('[' :: (t ++ (tailText ts ++ [']'])))
  | empty : Text ['{', '}']
  | object {f : String × List Char} {fs : List (String × List Char)} (hf : Text f.2) (hfs : ∀ g ∈ fs, Text g.2) :
    Text ('{' :: (fieldText f ++ (tailText (fs.map fieldText) ++ ['}'])))

theorem closed_tail {ts : List (List Char)} {close : Char} {rest : List Char} (hclose : ends close) :
    Closed (tailText ts ++ close :: rest) := by
  cases ts with
  | nil => exact closed_cons hclose
  | cons t ts => exact closed_cons rfl

theorem tailText_unique {ts ts' : List (List Char)} {close : Char} {r r' : List Char}
    (hclose : ends close) (hcomma : close ≠ ',')
    (hunique : ∀ t ∈ ts, ∀ t' ∈ ts', Unique t t')
    (h : tailText ts ++ close :: r = tailText ts' ++ close :: r') : ts = ts' ∧ r = r' := by
  induction ts generalizing ts' with
  | nil =>
    cases ts' with
    | nil => exact ⟨rfl, (List.cons.inj h).2⟩
    | cons t' ts' => exact absurd (List.cons.inj h).1 hcomma
  | cons t ts ih =>
    cases ts' with
    | nil => exact absurd (List.cons.inj h).1.symm hcomma
    | cons t' ts' =>
      have hrest : t ++ (tailText ts ++ close :: r) = t' ++ (tailText ts' ++ close :: r') := by
        simpa [tailText] using h
      obtain ⟨rfl, htail⟩ := hunique t (List.mem_cons_self ..) t' (List.mem_cons_self ..) _ _
        (closed_tail hclose) (closed_tail hclose) hrest
      obtain ⟨rfl, rfl⟩ := ih (fun u hu u' hu' => hunique u (List.mem_cons_of_mem _ hu) u'
        (List.mem_cons_of_mem _ hu')) htail
      exact ⟨rfl, rfl⟩

theorem fieldText_unique {f g : String × List Char} (h : Unique f.2 g.2) :
    Unique (fieldText f) (fieldText g) := by
  intro r r' hr hr' heq
  rw [fieldText, fieldText, List.append_assoc, List.append_assoc] at heq
  obtain ⟨hkey, hrest⟩ := quote_unique heq
  obtain ⟨htext, hrest⟩ := h r r' hr hr' (List.cons.inj hrest).2
  exact ⟨by rw [fieldText, fieldText, hkey, htext], hrest⟩

theorem plain_unique {t t' r r' : List Char} (ht : ∀ c ∈ t, plain c) (ht' : ∀ c ∈ t', plain c)
    (hr : Closed r) (hr' : Closed r') (h : t ++ r = t' ++ r') : t = t' ∧ r = r' := by
  have hstop : ∀ {c : Char}, plain c → ends c → False := by
    intro c hplain hends
    simp [plain, hends] at hplain
  induction t generalizing t' with
  | nil =>
    cases t' with
    | nil => exact ⟨rfl, h⟩
    | cons c t' => exact (hstop (ht' c (List.mem_cons_self ..)) (hr c _ h)).elim
  | cons c t ih =>
    cases t' with
    | nil => exact (hstop (ht c (List.mem_cons_self ..)) (hr' c _ h.symm)).elim
    | cons c' t' =>
      obtain ⟨rfl, hrest⟩ := List.cons.inj h
      obtain ⟨rfl, rfl⟩ := ih (fun d hd => ht d (List.mem_cons_of_mem _ hd))
        (fun d hd => ht' d (List.mem_cons_of_mem _ hd)) hrest
      exact ⟨rfl, rfl⟩

theorem plain_ne_cons {t r s : List Char} {c : Char} (ht : ∀ d ∈ t, plain d) (hr : Closed r)
    (hplain : plain c = false) (hends : ends c = false) : t ++ r ≠ c :: s := by
  intro h
  cases t with
  | nil =>
    rw [hr c s h] at hends
    cases hends
  | cons d t =>
    obtain ⟨rfl, -⟩ := List.cons.inj h
    rw [ht d (List.mem_cons_self ..)] at hplain
    cases hplain

theorem Text.unique {t t' : List Char} (h : Text t) (h' : Text t') : Unique t t' := by
  induction h generalizing t' with
  | atom ht =>
    intro r r' hr hr' heq
    cases h' with
    | atom ht' => exact plain_unique ht ht' hr hr' heq
    | quoted s =>
      rw [quote_toList] at heq
      exact absurd heq (plain_ne_cons ht hr (by decide) (by decide))
    | array | empty | object => exact absurd heq (plain_ne_cons ht hr (by decide) (by decide))
  | quoted s =>
    intro r r' hr hr' heq
    cases h' with
    | atom ht' =>
      rw [quote_toList] at heq
      exact absurd heq.symm (plain_ne_cons ht' hr' (by decide) (by decide))
    | quoted s' =>
      obtain ⟨rfl, rfl⟩ := quote_unique heq
      exact ⟨rfl, rfl⟩
    | array | empty | object =>
      rw [quote_toList] at heq
      exact absurd (List.cons.inj heq).1 (by decide)
  | @array t ts ht hts iht ihts =>
    intro r r' hr hr' heq
    cases h' with
    | atom ht' => exact absurd heq.symm (plain_ne_cons ht' hr' (by decide) (by decide))
    | quoted s =>
      rw [quote_toList] at heq
      exact absurd (List.cons.inj heq).1 (by decide)
    | empty | object => exact absurd (List.cons.inj heq).1 (by decide)
    | @array t' ts' ht' hts' =>
      have hrest : t ++ (tailText ts ++ ']' :: r) = t' ++ (tailText ts' ++ ']' :: r') := by
        simpa using heq
      obtain ⟨rfl, htail⟩ := iht ht' _ _ (closed_tail rfl) (closed_tail rfl) hrest
      obtain ⟨rfl, rfl⟩ := tailText_unique rfl (by decide)
        (fun u hu u' hu' => ihts u hu (hts' u' hu')) htail
      exact ⟨rfl, rfl⟩
  | empty =>
    intro r r' hr hr' heq
    cases h' with
    | atom ht' => exact absurd heq.symm (plain_ne_cons ht' hr' (by decide) (by decide))
    | quoted s =>
      rw [quote_toList] at heq
      exact absurd (List.cons.inj heq).1 (by decide)
    | array => exact absurd (List.cons.inj heq).1 (by decide)
    | empty => exact ⟨rfl, (List.cons.inj (List.cons.inj heq).2).2⟩
    | object =>
      rw [fieldText, quote_toList] at heq
      exact absurd (List.cons.inj (List.cons.inj heq).2).1 (by decide)
  | @object f fs hf hfs ihf ihfs =>
    intro r r' hr hr' heq
    cases h' with
    | atom ht' => exact absurd heq.symm (plain_ne_cons ht' hr' (by decide) (by decide))
    | quoted s =>
      rw [quote_toList] at heq
      exact absurd (List.cons.inj heq).1 (by decide)
    | array => exact absurd (List.cons.inj heq).1 (by decide)
    | empty =>
      rw [fieldText, quote_toList] at heq
      exact absurd (List.cons.inj (List.cons.inj heq).2).1 (by decide)
    | @object f' fs' hf' hfs' =>
      have hrest : fieldText f ++ (tailText (fs.map fieldText) ++ '}' :: r) =
          fieldText f' ++ (tailText (fs'.map fieldText) ++ '}' :: r') := by
        simpa using heq
      obtain ⟨hfirst, hrest⟩ := fieldText_unique (ihf hf') _ _ (closed_tail rfl) (closed_tail rfl)
        hrest
      obtain ⟨htail, rfl⟩ := tailText_unique rfl (by decide) (fun u hu u' hu' => by
        obtain ⟨g, hg, rfl⟩ := List.mem_map.mp hu
        obtain ⟨g', hg', rfl⟩ := List.mem_map.mp hu'
        exact fieldText_unique (ihfs g hg (hfs' g' hg'))) hrest
      exact ⟨by rw [hfirst, htail], rfl⟩

section Numbers

theorem plain_of_isDigit {c : Char} (h : c.isDigit) : plain c := by
  have hne : ∀ d : Char, d.isDigit = false → c ≠ d := by
    rintro d hd rfl
    rw [h] at hd
    cases hd
  simp [plain, ends, hne ',' (by decide), hne ']' (by decide), hne '}' (by decide),
    hne '"' (by decide), hne '[' (by decide), hne '{' (by decide)]

def Plain (s : String) : Prop := ∀ c ∈ s.toList, plain c

instance : DecidablePred Plain := fun s =>
  decidable_of_iff (s.toList.all plain) List.all_eq_true

theorem Plain.append {a b : String} (ha : Plain a) (hb : Plain b) : Plain (a ++ b) := by
  intro c hc
  rw [String.toList_append, List.mem_append] at hc
  exact hc.elim (ha c) (hb c)

theorem Plain.ite {p : Prop} [Decidable p] {a b : String} (ha : Plain a) (hb : Plain b) :
    Plain (if p then a else b) := by
  split
  · exact ha
  · exact hb

theorem plain_ofList {cs : List Char} (h : ∀ c ∈ cs, plain c) : Plain (String.ofList cs) := by
  intro c hc
  rw [String.toList_ofList] at hc
  exact h c hc

theorem plain_zeros (n : ℕ) : Plain (String.ofList (List.replicate n '0')) :=
  plain_ofList fun _ hc => List.eq_of_mem_replicate hc ▸ rfl

theorem plain_natText (n : ℕ) : Plain (toString n) := by
  intro c hc
  refine plain_of_isDigit (Nat.isDigit_of_mem_toDigits (b := 10) (n := n) (by decide) (by decide) ?_)
  simpa [toString, Nat.repr] using hc

theorem plain_take (n k : ℕ) : Plain (String.ofList ((toString n).toList.take k)) :=
  plain_ofList fun c hc => plain_natText n c (List.mem_of_mem_take hc)

theorem plain_drop (n k : ℕ) : Plain (String.ofList ((toString n).toList.drop k)) :=
  plain_ofList fun c hc => plain_natText n c (List.mem_of_mem_drop hc)

theorem Number.plain_magnitude (x : Number) : Plain x.magnitude := by
  have hpower : ∀ n : ℤ, Plain ((if 0 < n - 1 then "+" else "-") ++ toString (n - 1).natAbs) :=
    fun n => (Plain.ite (by decide) (by decide)).append (plain_natText _)
  refine .ite (by decide) (.ite ?_ (.ite ?_ (.ite ?_ (.ite ?_ ?_))))
  · exact (plain_natText _).append (plain_zeros _)
  · exact ((plain_take _ _).append (by decide)).append (plain_drop _ _)
  · exact (Plain.append (by decide) (plain_zeros _)).append (plain_natText _)
  · exact ((plain_natText _).append (by decide)).append (hpower _)
  · exact ((((plain_take _ _).append (by decide)).append (plain_drop _ _)).append
      (by decide)).append (hpower _)

theorem Number.plain_text (x : Number) : Plain x.text :=
  .ite (.append (by decide) x.plain_magnitude) x.plain_magnitude

end Numbers

theorem intercalate_eq (t : List Char) (ts : List (List Char)) :
    [','].intercalate (t :: ts) = t ++ tailText ts := by
  induction ts generalizing t with
  | nil => simp [tailText]
  | cons u ts ih => simp [List.intercalate_cons_cons, ih, tailText]

theorem arrayText (ts : List String) (hts : ∀ t ∈ ts, Text t.toList) :
    Text ("[" ++ ",".intercalate ts ++ "]").toList := by
  rw [String.toList_append, String.toList_append, String.toList_intercalate]
  cases ts with
  | nil =>
    have hempty : Text ('[' :: ([] ++ (tailText [] ++ [']']))) := .array (.atom (by simp)) (by simp)
    exact hempty
  | cons t ts =>
    rw [List.map_cons]
    show Text (_ ++ [','].intercalate _ ++ _)
    rw [intercalate_eq, List.append_assoc, List.append_assoc]
    refine .array (hts t (List.mem_cons_self ..)) fun u hu => ?_
    obtain ⟨v, hv, rfl⟩ := List.mem_map.mp hu
    exact hts v (List.mem_cons_of_mem _ hv)

def charField (f : String × String) : String × List Char := (f.1, f.2.toList)

theorem joinFields_toList (fields : List (String × String)) :
    (joinFields fields).toList =
      '{' :: ([','].intercalate ((fields.map charField).map fieldText) ++ ['}']) := by
  have hfield : ∀ g : String × String,
      (quote g.1 ++ ":" ++ g.2).toList = fieldText (charField g) := by
    intro g
    simp [fieldText, charField]
  rw [joinFields, String.toList_append, String.toList_append, String.toList_intercalate,
    List.map_map, List.map_map]
  exact congrArg (fun ts => '{' :: ([','].intercalate ts ++ ['}']))
    (List.map_congr_left fun g _ => hfield g)

theorem joinFields_text (fields : List (String × String)) (h : ∀ f ∈ fields, Text f.2.toList) :
    Text (joinFields fields).toList := by
  rw [joinFields_toList]
  cases fields with
  | nil => exact .empty
  | cons f fields =>
    rw [List.map_cons, List.map_cons, intercalate_eq, List.append_assoc]
    refine .object (h f (List.mem_cons_self ..)) fun g hg => ?_
    obtain ⟨g', hg', rfl⟩ := List.mem_map.mp hg
    exact h g' (List.mem_cons_of_mem _ hg')

theorem joinFields_inj {fields fields' : List (String × String)}
    (h : ∀ f ∈ fields, Text f.2.toList) (h' : ∀ f ∈ fields', Text f.2.toList)
    (heq : joinFields fields = joinFields fields') : fields = fields' := by
  have hchars := congrArg String.toList heq
  rw [joinFields_toList, joinFields_toList] at hchars
  have hinner := (List.cons.inj hchars).2
  have hfield : ∀ {f g : String × String} {r r' : List Char}, Text f.2.toList → Text g.2.toList →
      Closed r → Closed r' → fieldText (charField f) ++ r = fieldText (charField g) ++ r' →
      f = g ∧ r = r' := by
    intro f g r r' hf hg hr hr' heq
    rw [fieldText, fieldText, List.append_assoc, List.append_assoc] at heq
    obtain ⟨hkey, hrest⟩ := quote_unique heq
    obtain ⟨htext, hrest⟩ := hf.unique hg r r' hr hr' (List.cons.inj hrest).2
    exact ⟨Prod.ext hkey (String.toList_injective htext), hrest⟩
  have htail : ∀ {fs gs : List (String × String)}, (∀ f ∈ fs, Text f.2.toList) →
      (∀ g ∈ gs, Text g.2.toList) →
      tailText ((fs.map charField).map fieldText) ++ ['}'] =
        tailText ((gs.map charField).map fieldText) ++ ['}'] → fs = gs := by
    intro fs
    induction fs with
    | nil =>
      rintro (- | ⟨g, gs⟩) _ _ heq
      · rfl
      · exact absurd (List.cons.inj heq).1 (by decide)
    | cons f fs ih =>
      rintro (- | ⟨g, gs⟩) hfs hgs heq
      · exact absurd (List.cons.inj heq).1 (by decide)
      have hrest : fieldText (charField f) ++ (tailText ((fs.map charField).map fieldText) ++ ['}']) =
          fieldText (charField g) ++ (tailText ((gs.map charField).map fieldText) ++ ['}']) := by
        simpa [tailText] using heq
      obtain ⟨hfirst, hrest⟩ := hfield (hfs f (List.mem_cons_self ..))
        (hgs g (List.mem_cons_self ..)) (closed_tail rfl) (closed_tail rfl) hrest
      rw [hfirst, ih (fun f hf => hfs f (List.mem_cons_of_mem _ hf))
        (fun g hg => hgs g (List.mem_cons_of_mem _ hg)) hrest]
  have hcons : ∀ (f : String × String) (fs : List (String × String)),
      tailText (((f :: fs).map charField).map fieldText) =
        ',' :: [','].intercalate (((f :: fs).map charField).map fieldText) := by
    intro f fs
    rw [List.map_cons, List.map_cons, intercalate_eq]
    rfl
  have hstart : ∀ (f : String × String) (fs : List (String × String)),
      ∃ cs, [','].intercalate (((f :: fs).map charField).map fieldText) = '"' :: cs := by
    intro f fs
    rw [List.map_cons, List.map_cons, intercalate_eq, fieldText, quote_toList]
    exact ⟨_, rfl⟩
  cases fields with
  | nil =>
    cases fields' with
    | nil => rfl
    | cons g gs =>
      obtain ⟨cs, hcs⟩ := hstart g gs
      rw [hcs] at hinner
      exact absurd (List.cons.inj hinner).1 (by decide)
  | cons f fs =>
    cases fields' with
    | nil =>
      obtain ⟨cs, hcs⟩ := hstart f fs
      rw [hcs] at hinner
      exact absurd (List.cons.inj hinner).1 (by decide)
    | cons g gs =>
      refine htail h h' ?_
      rw [hcons, hcons, List.cons_append, List.cons_append, hinner]

theorem mem_sortByKey {fields : List (String × String)} {f : String × String} :
    f ∈ sortByKey fields ↔ f ∈ fields := List.mem_insertionSort _

theorem text_getD {t? : Option String} {d : String} (h : ∀ t, t? = some t → Text t.toList)
    (hd : Plain d) : Text (t?.getD d).toList := by
  cases t? with
  | none => exact .atom hd
  | some t => exact h t rfl

mutual
theorem canonicalJson?_text : ∀ (v : Value) (t : String), canonicalJson? v = some t → Text t.toList
  | .undefined, _, h => by cases h
  | .null, _, h => by
    cases h
    exact .atom (show Plain "null" by decide)
  | .boolean b, _, h => by
    cases h
    have hplain : Plain (if b then "true" else "false") := .ite (by decide) (by decide)
    exact .atom hplain
  | .number n, _, h => by
    cases h
    exact .atom n.plain_text
  | .string s, _, h => by
    cases h
    exact .quoted s
  | .array items, _, h => by
    cases h
    exact arrayText _ (canonicalItems_text items)
  | .object fields, _, h => by
    cases h
    exact joinFields_text _ fun f hf => canonicalFields_text fields f (mem_sortByKey.mp hf)

theorem canonicalItems_text : ∀ (vs : List Value), ∀ t ∈ canonicalItems vs, Text t.toList
  | [], _, h => by cases h
  | v :: vs, t, h => by
    obtain rfl | h := List.mem_cons.mp h
    · exact text_getD (canonicalJson?_text v) (by decide)
    · exact canonicalItems_text vs t h

theorem canonicalFields_text :
    ∀ (fs : List (String × Value)), ∀ f ∈ canonicalFields fs, Text f.2.toList
  | [], _, h => by cases h
  | (k, v) :: fs, f, h => by
    obtain rfl | h := List.mem_cons.mp h
    · exact text_getD (canonicalJson?_text v) (by decide)
    · exact canonicalFields_text fs f h
end

theorem arrayText_inj {ts ts' : List String} (h : ∀ t ∈ ts, Text t.toList)
    (h' : ∀ t ∈ ts', Text t.toList) (hne : "" ∉ ts) (hne' : "" ∉ ts')
    (heq : "[" ++ ",".intercalate ts ++ "]" = "[" ++ ",".intercalate ts' ++ "]") : ts = ts' := by
  -- an array without items reads like one with an empty item
  have hparts : ∀ ts : List String, ∃ u us, [','].intercalate (ts.map String.toList) =
      u ++ tailText us ∧ (ts = [] ∧ u = [] ∧ us = [] ∨ u :: us = ts.map String.toList) := by
    intro ts
    cases ts with
    | nil => exact ⟨[], [], rfl, .inl ⟨rfl, rfl, rfl⟩⟩
    | cons t ts => exact ⟨t.toList, ts.map String.toList, intercalate_eq .., .inr rfl⟩
  have htext : ∀ {ts : List String} {u : List Char} {us : List (List Char)},
      (∀ t ∈ ts, Text t.toList) → (ts = [] ∧ u = [] ∧ us = [] ∨ u :: us = ts.map String.toList) →
      Text u ∧ ∀ v ∈ us, Text v := by
    rintro ts u us hts (⟨-, rfl, rfl⟩ | hmap)
    · exact ⟨.atom (by simp), by simp⟩
    · have hall : ∀ v ∈ u :: us, Text v := by
        intro v hv
        rw [hmap] at hv
        obtain ⟨t, ht, rfl⟩ := List.mem_map.mp hv
        exact hts t ht
      exact ⟨hall u (List.mem_cons_self ..), fun v hv => hall v (List.mem_cons_of_mem _ hv)⟩
  obtain ⟨u, us, hsplit, hu⟩ := hparts ts
  obtain ⟨u', us', hsplit', hu'⟩ := hparts ts'
  have hchars := congrArg String.toList heq
  simp only [String.toList_append, String.toList_intercalate] at hchars
  have hjoined : u ++ (tailText us ++ ']' :: []) = u' ++ (tailText us' ++ ']' :: []) := by
    rw [← List.append_assoc, ← List.append_assoc, ← hsplit, ← hsplit']
    exact (List.cons.inj hchars).2
  obtain ⟨rfl, htail⟩ := (htext h hu).1.unique (htext h' hu').1 _ _ (closed_tail rfl)
    (closed_tail rfl) hjoined
  obtain ⟨rfl, -⟩ := tailText_unique rfl (by decide)
    (fun v hv v' hv' => ((htext h hu).2 v hv).unique ((htext h' hu').2 v' hv')) htail
  have hmem : ∀ {ts : List String}, [] :: ([] : List (List Char)) = ts.map String.toList → "" ∈ ts := by
    intro ts hts
    obtain ⟨t, ht, hnil⟩ := List.mem_map.mp (hts ▸ List.mem_cons_self (a := ([] : List Char)))
    rwa [← String.toList_eq_nil_iff.mp hnil]
  obtain ⟨rfl, rfl, rfl⟩ | hmap := hu <;> obtain ⟨rfl, hnil, hnil'⟩ | hmap' := hu'
  · rfl
  · exact absurd (hmem hmap') hne'
  · rw [hnil, hnil'] at hmap
    exact absurd (hmem hmap) hne
  · exact List.map_injective_iff.mpr (fun _ _ => String.toList_injective) (hmap.symm.trans hmap')

theorem canonicalJson_array_inj {vs ws : List Value} (hne : "" ∉ canonicalItems vs)
    (hne' : "" ∉ canonicalItems ws) (h : canonicalJson (.array vs) = canonicalJson (.array ws)) :
    canonicalItems vs = canonicalItems ws :=
  arrayText_inj (canonicalItems_text vs) (canonicalItems_text ws) hne hne' h

theorem canonicalJson_object_inj {fs gs : List (String × Value)}
    (h : canonicalJson (.object fs) = canonicalJson (.object gs)) (f : String × String) :
    f ∈ canonicalFields fs ↔ f ∈ canonicalFields gs := by
  have hsorted := joinFields_inj
    (fun f hf => canonicalFields_text fs f (mem_sortByKey.mp hf))
    (fun f hf => canonicalFields_text gs f (mem_sortByKey.mp hf)) h
  rw [← mem_sortByKey, hsorted, mem_sortByKey]

def IsObject (v : Value) : Prop := ∃ fields, v = .object fields

theorem canonicalItems_of_isObject {vs : List Value} (h : ∀ v ∈ vs, IsObject v) :
    canonicalItems vs = vs.map canonicalJson := by
  induction vs with
  | nil => rfl
  | cons v vs ih =>
    obtain ⟨fields, rfl⟩ := h v (List.mem_cons_self ..)
    rw [canonicalItems, ih fun w hw => h w (List.mem_cons_of_mem _ hw), List.map_cons]
    rfl

theorem empty_notMem_canonicalItems {vs : List Value} (h : ∀ v ∈ vs, IsObject v) :
    "" ∉ canonicalItems vs := by
  rw [canonicalItems_of_isObject h]
  intro hmem
  obtain ⟨v, hv, htext⟩ := List.mem_map.mp hmem
  obtain ⟨fields, rfl⟩ := h v hv
  have hchars := congrArg String.toList htext
  rw [show canonicalJson (.object fields) = joinFields (sortByKey (canonicalFields fields)) from rfl,
    joinFields_toList] at hchars
  cases hchars

theorem map_eq_of_canonicalJson_array {α β : Type} {value : α → Value} {read : α → β}
    (hobject : ∀ a, IsObject (value a))
    (hread : ∀ a b, canonicalJson (value a) = canonicalJson (value b) → read a = read b)
    {as bs : List α}
    (h : canonicalJson (.array (as.map value)) = canonicalJson (.array (bs.map value))) :
    as.map read = bs.map read := by
  have hobjects : ∀ as : List α, ∀ v ∈ as.map value, IsObject v := by
    intro as v hv
    obtain ⟨a, -, rfl⟩ := List.mem_map.mp hv
    exact hobject a
  have hitems := canonicalJson_array_inj (empty_notMem_canonicalItems (hobjects as))
    (empty_notMem_canonicalItems (hobjects bs)) h
  rw [canonicalItems_of_isObject (hobjects as), canonicalItems_of_isObject (hobjects bs),
    List.map_map, List.map_map] at hitems
  clear h
  induction as generalizing bs with
  | nil =>
    cases bs with
    | nil => rfl
    | cons => cases hitems
  | cons a as ih =>
    cases bs with
    | nil => cases hitems
    | cons b bs =>
      obtain ⟨hfirst, hrest⟩ := List.cons.inj hitems
      rw [List.map_cons, List.map_cons, hread a b hfirst, ih hrest]

theorem mem_canonicalFields {fs : List (String × Value)} {k t : String} :
    (k, t) ∈ canonicalFields fs ↔ ∃ v, (k, v) ∈ fs ∧ canonicalJson v = t := by
  induction fs with
  | nil => simp [canonicalFields]
  | cons f fs ih =>
    obtain ⟨k', v'⟩ := f
    simp only [canonicalFields, List.mem_cons, Prod.mk.injEq, ih, or_and_right, exists_or]
    refine or_congr_left ⟨?_, ?_⟩
    · rintro ⟨rfl, rfl⟩
      exact ⟨v', ⟨rfl, rfl⟩, rfl⟩
    · rintro ⟨_, ⟨rfl, rfl⟩, rfl⟩
      exact ⟨rfl, rfl⟩

theorem exists_field_of_canonicalJson {fs gs : List (String × Value)}
    (h : canonicalJson (.object fs) = canonicalJson (.object gs)) {k : String} {v : Value}
    (hmem : (k, v) ∈ fs) : ∃ w, (k, w) ∈ gs ∧ canonicalJson w = canonicalJson v :=
  mem_canonicalFields.mp ((canonicalJson_object_inj h _).mp (mem_canonicalFields.mpr ⟨v, hmem, rfl⟩))

theorem string_of_canonicalJson {s t : String}
    (h : canonicalJson (.string s) = canonicalJson (.string t)) : s = t :=
  quote_injective h

theorem canonicalItems_strings (ss : List String) :
    canonicalItems (ss.map Value.string) = ss.map quote := by
  induction ss with
  | nil => rfl
  | cons s ss ih =>
    rw [List.map_cons, canonicalItems, ih]
    rfl

theorem strings_inj {ss ts : List String}
    (h : canonicalJson (strings ss) = canonicalJson (strings ts)) : ss = ts := by
  have hempty : ∀ ss : List String, "" ∉ canonicalItems (ss.map Value.string) := by
    intro ss hmem
    rw [canonicalItems_strings] at hmem
    obtain ⟨s, -, hs⟩ := List.mem_map.mp hmem
    have hchars := congrArg String.toList hs
    simp [quote] at hchars
  have hitems := canonicalJson_array_inj (hempty ss) (hempty ts) h
  rw [canonicalItems_strings, canonicalItems_strings] at hitems
  exact List.map_injective_iff.mpr quote_injective hitems

theorem optionalStrings_inj {ss ts : Option (List String)}
    (h : canonicalJson (ss.elim .undefined strings) = canonicalJson (ts.elim .undefined strings)) :
    ss = ts := by
  have hbracket : ∀ ts : List String, canonicalJson .undefined ≠ canonicalJson (strings ts) := by
    intro ts heq
    have hchars := congrArg String.toList heq
    simp [canonicalJson, canonicalJson?, strings] at hchars
  cases ss with
  | none =>
    cases ts with
    | none => rfl
    | some ts => exact absurd h (hbracket ts)
  | some ss =>
    cases ts with
    | none => exact absurd h.symm (hbracket ss)
    | some ts => exact congrArg some (strings_inj h)

end BeeAgent.Data
