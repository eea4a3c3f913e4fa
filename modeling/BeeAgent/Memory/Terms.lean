import BeeAgent.Data.Units
import BeeAgent.Memory.Embedded

/-! The terms of a text: each run of letters and digits is a word, or characters and pairs of
characters where it is all Han. -/
namespace BeeAgent.Memory
open Data

/-- The maximal runs of a text, in their order. -/
inductive Runs (word : Char → Bool) : List Char → List (List Char) → Prop where
  | nil : Runs word [] []
  | gap {c : Char} {cs : List Char} {runs : List (List Char)} (hc : word c = false)
    (hrest : Runs word cs runs) : Runs word (c :: cs) runs
  | run {run cs : List Char} {runs : List (List Char)} (hne : run ≠ []) (hrun : ∀ c ∈ run, word c)
    (hend : ∀ c ∈ cs.head?, word c = false) (hrest : Runs word cs runs) :
    Runs word (run ++ cs) (run :: runs)

/-- The term of a text is the text itself, by its code units. -/
def term (cs : List Char) : List ℕ := utf16 (String.ofList cs)

/-- What a run of letters and digits is to be found under. -/
def termsOf (u : Unicode) (run : List Char) : List (List ℕ) :=
  if run.all u.han then
    run.map (fun c => term [c]) ++ run.zipWith (fun a b => term [a, b]) run.tail
  else if String.ofList run ∉ stopwords then [term run]
  else []

/-- Both texts have a run that is all Han, with the one character next to the other. -/
def ShareHanPair (u : Unicode) (text other : String) : Prop :=
  ∃ a b, ∀ t ∈ [text, other], ∃ runs run, Runs u.word (u.lower t).toList runs ∧ run ∈ runs ∧
    run.all u.han ∧ [a, b] <:+: run

/-- The terms are those of the runs of the lower-cased text, and texts that share a pair of Han
characters share a term. -/
structure Tokenizes (u : Unicode) (text : String) : Prop where
  terms : ∀ runs, Runs u.word (u.lower text).toList runs →
    tokenizeMemoryText u text = runs.flatMap (termsOf u)
  shared : ∀ other, ShareHanPair u text other →
    ∃ t, t ∈ tokenizeMemoryText u text ∧ t ∈ tokenizeMemoryText u other

/-- The pieces between what is neither a letter nor a digit. -/
def runsOf (word : Char → Bool) (cs : List Char) : List (List Char) :=
  (cs.splitOnP fun c => !word c).filter (· ≠ [])

/-- What the code makes of a run. -/
def codeTerms (u : Unicode) (token : List Char) : List (List ℕ) :=
  let units := utf16 (String.ofList token)
  if token.all u.han then
    token.map (fun c => utf16 (String.singleton c)) ++ units.zipWith (fun a b => [a, b]) units.tail
  else if String.ofList token ∉ stopwords then [units]
  else []

variable {word : Char → Bool} {cs : List Char} {runs : List (List Char)} {u : Unicode}
  {text : String} {run : List Char}

theorem tokenizeMemoryText_eq (u : Unicode) (text : String) : tokenizeMemoryText u text =
    (runsOf u.word (u.lower text).toList).flatMap (codeTerms u) := rfl

/-! ### Runs -/

theorem Runs.eq_runsOf (h : Runs word cs runs) : runs = runsOf word cs := by
  induction h with
  | nil => rfl
  | gap hc _ ih => simp [runsOf, List.splitOnP_cons_eq_if_modifyHead, hc, ih]
  | @run run cs runs hne hrun hend _ ih =>
    have hpieces : ∀ c ∈ run, (!word c) = false := fun c hc => by simp [hrun c hc]
    cases cs with
    | nil => simp [runsOf, List.splitOnP_eq_singleton hpieces, hne, ih]
    | cons d cs =>
      have hd : word d = false := hend d rfl
      have hsplit : (run ++ d :: cs).splitOnP (fun c => !word c) =
          run :: cs.splitOnP fun c => !word c :=
        List.splitOnP_append_cons_of_forall_mem hpieces d (by simp [hd]) cs
      simp [runsOf, hsplit, hne, ih, List.splitOnP_cons_eq_if_modifyHead, hd]

/-! ### Terms -/

theorem length_units (cs : List Char) : cs.length ≤ (utf16 (String.ofList cs)).length ∧
    ((utf16 (String.ofList cs)).length = cs.length → ∀ c ∈ cs, c.toNat < 0x10000) := by
  induction cs with
  | nil => exact ⟨Nat.zero_le _, by simp⟩
  | cons c cs ih =>
    rw [length_utf16_cons, List.length_cons]
    split
    · next hc =>
      refine ⟨by omega, fun hlength => List.forall_mem_cons.mpr ⟨hc, ih.2 (by omega)⟩⟩
    · exact ⟨by omega, fun hlength => by omega⟩

theorem units_eq_map (h : ∀ c ∈ cs, c.toNat < 0x10000) :
    utf16 (String.ofList cs) = cs.map Char.toNat := by
  induction cs with
  | nil => rfl
  | cons c cs ih =>
    obtain ⟨hc, hcs⟩ := List.forall_mem_cons.mp h
    have hrest := ih hcs
    simp only [utf16, String.toList_ofList, List.flatMap_cons, if_pos hc, List.map_cons] at hrest ⊢
    rw [hrest]
    rfl

theorem zipWith_eq_of_mem {α β γ : Type*} {f g : α → β → γ} {as : List α} {bs : List β}
    (h : ∀ a ∈ as, ∀ b ∈ bs, f a b = g a b) : as.zipWith f bs = as.zipWith g bs := by
  induction as generalizing bs with
  | nil => rfl
  | cons a as ih =>
    cases bs with
    | nil => rfl
    | cons b bs =>
      obtain ⟨ha, has⟩ := List.forall_mem_cons.mp h
      simp only [List.zipWith_cons_cons, ha b (List.mem_cons_self ..),
        ih fun a ha b hb => has a ha b (List.mem_cons_of_mem _ hb)]

theorem codeTerms_eq (h : run.all u.han → ∀ c ∈ run, c.toNat < 0x10000) :
    codeTerms u run = termsOf u run := by
  unfold codeTerms termsOf
  dsimp only
  split
  · next hhan =>
    have hplain := h hhan
    rw [units_eq_map hplain]
    refine congrArg₂ (· ++ ·) rfl ?_
    rw [← List.map_tail, List.zipWith_map]
    refine zipWith_eq_of_mem fun a ha b hb => ?_
    rw [term, units_eq_map]
    · rfl
    · simp [hplain a ha, hplain b (List.mem_of_mem_tail hb)]
  · rfl

theorem length_termsOf_le (u : Unicode) (run : List Char) :
    (termsOf u run).length ≤ (codeTerms u run).length := by
  unfold codeTerms termsOf
  dsimp only
  split
  · have hlength := (length_units run).1
    simp only [List.length_append, List.length_map, List.length_zipWith, List.length_tail]
    omega
  · exact Nat.le_refl _

/-- With as many terms as there should be, no Han character takes two units. -/
theorem plain_of_length (hne : run ≠ []) (h : (codeTerms u run).length = (termsOf u run).length)
    (hhan : run.all u.han) : ∀ c ∈ run, c.toNat < 0x10000 := by
  have hlength := length_units run
  have hpos := List.length_pos_of_ne_nil hne
  refine hlength.2 ?_
  simp only [codeTerms, termsOf, if_pos hhan, List.length_append, List.length_map,
    List.length_zipWith, List.length_tail] at h
  omega

/-- Lists put together of parts that are no shorter have parts of the same length when they are the
same. -/
theorem length_eq_of_flatMap_eq {α β : Type*} {f g : α → List β} {xs : List α}
    (hle : ∀ x, (g x).length ≤ (f x).length) (h : xs.flatMap f = xs.flatMap g) :
    ∀ x ∈ xs, (f x).length = (g x).length := by
  have hlength := congrArg List.length h
  clear h
  induction xs with
  | nil => simp
  | cons x xs ih =>
    have hparts : ∀ ys : List α, (ys.flatMap g).length ≤ (ys.flatMap f).length := fun ys => by
      induction ys with
      | nil => exact Nat.le_refl _
      | cons y ys ihys =>
        simp only [List.flatMap_cons, List.length_append]
        exact Nat.add_le_add (hle y) ihys
    simp only [List.flatMap_cons, List.length_append] at hlength
    have hx := hle x
    have hxs := hparts xs
    exact List.forall_mem_cons.mpr ⟨by omega, ih (by omega)⟩

theorem mem_termsOf_of_pair {a b : Char} (hhan : run.all u.han) (h : [a, b] <:+: run) :
    utf16 (String.singleton a) ∈ codeTerms u run := by
  have ha : a ∈ run := h.subset (List.mem_cons_self ..)
  simp only [codeTerms, if_pos hhan]
  exact List.mem_append_left _ (List.mem_map.mpr ⟨a, ha, rfl⟩)

theorem share_term {other : String} (h : ShareHanPair u text other) :
    ∃ t, t ∈ tokenizeMemoryText u text ∧ t ∈ tokenizeMemoryText u other := by
  obtain ⟨a, b, hpair⟩ := h
  have hmem : ∀ t ∈ [text, other], utf16 (String.singleton a) ∈ tokenizeMemoryText u t := by
    intro t ht
    obtain ⟨runs, run, hruns, hrun, hhan, hinfix⟩ := hpair t ht
    rw [tokenizeMemoryText_eq, ← hruns.eq_runsOf]
    exact List.mem_flatMap.mpr ⟨run, hrun, mem_termsOf_of_pair hhan hinfix⟩
  exact ⟨_, hmem text (by simp), hmem other (by simp)⟩

theorem tokenizes_iff (u : Unicode) (text : String) : Tokenizes u text ↔
    ∀ runs, Runs u.word (u.lower text).toList runs → ∀ run ∈ runs, run.all u.han →
      ∀ c ∈ run, c.toNat < 0x10000 := by
  constructor
  · intro h runs hruns run hrun hhan
    have hterms := h.terms runs hruns
    rw [tokenizeMemoryText_eq, ← hruns.eq_runsOf] at hterms
    have hlength := length_eq_of_flatMap_eq (length_termsOf_le u) hterms run hrun
    have hne : run ≠ [] := by
      rw [hruns.eq_runsOf] at hrun
      simpa using (List.mem_filter.mp hrun).2
    exact plain_of_length hne hlength hhan
  · intro h
    refine ⟨fun runs hruns => ?_, fun other => share_term⟩
    rw [tokenizeMemoryText_eq, ← hruns.eq_runsOf]
    exact List.flatMap_congr fun run hrun => codeTerms_eq (h runs hruns run hrun)

/-- The tables' entries for the ASCII letters and for two blocks of Han. -/
def hanTables : Unicode where
  lower text := String.ofList (text.toList.map Char.toLower)
  word c := c.isAlphanum || (0x4E00 ≤ c.toNat && c.toNat < 0xA000) ||
    (0x20000 ≤ c.toNat && c.toNat < 0x2A6E0)
  han c := (0x4E00 ≤ c.toNat && c.toNat < 0xA000) || (0x20000 ≤ c.toNat && c.toNat < 0x2A6E0)
  localeCompare := compare

theorem pair_of_one_character : ¬ Tokenizes hanTables "𠮷" := by
  rintro ⟨hterms, -⟩
  have hword : ∀ c ∈ ['𠮷'], hanTables.word c = true :=
    List.forall_mem_singleton.mpr (by decide +kernel)
  have hlower : (hanTables.lower "𠮷").toList = ['𠮷'] ++ [] := by decide +kernel
  have hruns : Runs hanTables.word (hanTables.lower "𠮷").toList [['𠮷']] :=
    hlower ▸ .run (List.cons_ne_nil '𠮷' []) hword (by simp) .nil
  have hlength := congrArg List.length (hterms _ hruns)
  exact absurd hlength (by decide +kernel)

end BeeAgent.Memory
