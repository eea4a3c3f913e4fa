import BeeAgent.ModelProviders.OpenAiChat

/-! The frames of a provider's stream: blocks of lines with either line end. Each is cut out of the
buffer whole, whatever the chunks, and gives the text of its data line. -/
namespace BeeAgent.ModelProviders
open Data Framing

inductive LineEnd where
  | lf | crlf
  deriving DecidableEq

def LineEnd.chars : LineEnd → List Char
  | .lf => ['\n']
  | .crlf => ['\r', '\n']

/-- A frame: lines, none of them empty. -/
structure Block where
  lineEnd : LineEnd
  lines : List (List Char)
  nonempty : lines ≠ []
  plain : ∀ line ∈ lines, Plain line ∧ line ≠ []

namespace Block

/-- The lines of a text, which no lines do not make up. -/
def joined : List (List Char) → Option (List Char)
  | [] => none
  | lines => some (['\n'].intercalate lines)

def raw (b : Block) : List Char := b.lineEnd.chars.intercalate b.lines

def text (b : Block) : List Char := b.raw ++ (b.lineEnd.chars ++ b.lineEnd.chars)

/-- A line is no data line, or it gives the text behind the white space. -/
inductive LineCarries : List Char → Option (List Char) → Prop
  | other {line : List Char} (h : ¬ dataPrefix <+: line) : LineCarries line none
  | data {white data : List Char} (hwhite : ∀ c ∈ white, isWhite c.toNat)
      (hdata : ∀ c ∈ data.head?, isWhite c.toNat = false) :
      LineCarries (dataPrefix ++ (white ++ data)) (some data)

/-- The texts of a frame's data lines, one under the other; comments and other fields stand among
them. -/
def Carries (b : Block) (data : Option (List Char)) : Prop :=
  ∃ parts, List.Forall₂ LineCarries b.lines parts ∧ data = joined (parts.filterMap id)

end Block

/-! ### Separators -/

theorem atSeparator_plain {c : Char} (h : c ≠ '\n' ∧ c ≠ '\r') (cs : List Char) :
    atSeparator (c :: cs) = false := by
  simp [atSeparator, List.isPrefixOf, h.1.symm, h.2.symm]

theorem atSeparator_append {cs : List Char} (more : List Char) (h : atSeparator cs) :
    atSeparator (cs ++ more) ∧ separatorLength (cs ++ more) = separatorLength cs := by
  simp only [atSeparator, Bool.or_eq_true, List.isPrefixOf_iff_prefix] at h
  rcases h with ((⟨rest, rfl⟩ | ⟨rest, rfl⟩) | ⟨rest, rfl⟩) | ⟨rest, rfl⟩ <;>
    simp [atSeparator, separatorLength]

theorem not_atSeparator_append {c : Char} {cs : List Char} {i : ℕ} (more : List Char)
    (hi : search atSeparator cs = some i) (h : atSeparator (c :: cs) = false) :
    atSeparator (c :: (cs ++ more)) = false := by
  match cs with
  | [] => cases hi
  | [a] => simp [search, atSeparator, List.isPrefixOf] at hi
  | [a, b] =>
    have hab : a = '\n' ∧ b = '\n' := by
      simp [search, atSeparator, List.isPrefixOf] at hi
      tauto
    obtain ⟨rfl, rfl⟩ := hab
    simpa [atSeparator, List.isPrefixOf] using h
  | a :: b :: d :: cs => simpa [atSeparator, List.isPrefixOf] using h

theorem search_separator_append {cs : List Char} {i : ℕ} (h : search atSeparator cs = some i)
    (more : List Char) : search atSeparator (cs ++ more) = some i :=
  search_append rfl (fun _ more h => (atSeparator_append more h).1)
    (fun _ _ more _ => not_atSeparator_append more) h more

theorem search_plain {line : List Char} (h : Plain line) (rest : List Char) :
    search atSeparator (line ++ rest) = (search atSeparator rest).map (· + line.length) :=
  search_append_of_not rest fun c hc => atSeparator_plain (h c hc)

theorem search_lineEnd (e : LineEnd) {line : List Char} (h : Plain line ∧ line ≠ [])
    (rest : List Char) :
    search atSeparator (e.chars ++ (line ++ rest)) =
      (search atSeparator (line ++ rest)).map (· + e.chars.length) := by
  obtain ⟨c, cs, rfl⟩ := List.exists_cons_of_ne_nil h.2
  obtain ⟨hn, hr⟩ := h.1 c (List.mem_cons_self ..)
  have hnewline : atSeparator ('\n' :: c :: (cs ++ rest)) = false := by
    simp [atSeparator, List.isPrefixOf, hn.symm, hr.symm]
  have hreturn : atSeparator ('\r' :: '\n' :: c :: (cs ++ rest)) = false := by
    simp [atSeparator, List.isPrefixOf, hn.symm, hr.symm]
  cases e with
  | lf => exact search_cons_of_not hnewline
  | crlf =>
    rw [LineEnd.chars, List.cons_append, List.cons_append, List.nil_append, List.cons_append,
      search_cons_of_not hreturn, search_cons_of_not hnewline, Option.map_map]
    rfl

theorem search_lines (e : LineEnd) {lines : List (List Char)} (hne : lines ≠ [])
    (h : ∀ line ∈ lines, Plain line ∧ line ≠ []) (rest : List Char) :
    search atSeparator (e.chars.intercalate lines ++ (e.chars ++ (e.chars ++ rest))) =
      some (e.chars.intercalate lines).length := by
  have hempty : search atSeparator (e.chars ++ (e.chars ++ rest)) = some 0 := by cases e <;> rfl
  induction lines with
  | nil => exact absurd rfl hne
  | cons line lines ih =>
    have hline := h line (List.mem_cons_self ..)
    cases lines with
    | nil =>
      rw [List.intercalate_singleton, search_plain hline.1, hempty]
      simp
    | cons next lines =>
      have hnext := h next (List.mem_cons_of_mem _ (List.mem_cons_self ..))
      have htail := ih (List.cons_ne_nil _ _) fun l hl => h l (List.mem_cons_of_mem _ hl)
      have hbegin : ∃ more, e.chars.intercalate (next :: lines) = next ++ more := by
        cases lines with
        | nil => exact ⟨[], by simp⟩
        | cons l ls => exact ⟨_, by rw [List.intercalate_cons_cons, List.append_assoc]⟩
      obtain ⟨more, hmore⟩ := hbegin
      rw [hmore] at htail
      rw [List.intercalate_cons_cons, hmore, List.append_assoc, List.append_assoc,
        search_plain hline.1, List.append_assoc, search_lineEnd e hnext, ← List.append_assoc next,
        htail]
      simp only [Option.map_some, List.length_append, Option.some.injEq]
      omega

theorem find_block (b : Block) (rest : List Char) :
    findSeparator (b.text ++ rest) = some (b.raw.length, b.text.length) := by
  have hsearch := search_lines b.lineEnd b.nonempty b.plain rest
  have hlength : separatorLength (b.lineEnd.chars ++ (b.lineEnd.chars ++ rest)) =
      (b.lineEnd.chars ++ b.lineEnd.chars).length := by
    cases b.lineEnd <;> rfl
  rw [findSeparator, Block.text, List.append_assoc, List.append_assoc, Block.raw, hsearch,
    Option.map_some, List.drop_left, hlength, ← List.length_append]

theorem not_atSeparator_short {e : LineEnd} {found more : List Char}
    (h : found ++ more = e.chars ++ e.chars) (hmore : more ≠ []) : ¬ atSeparator found := by
  intro hat
  cases e with
  | lf =>
    match found with
    | [] | [a] => simp [atSeparator, List.isPrefixOf] at hat
    | a :: c :: rest =>
      simp only [LineEnd.chars, List.cons_append, List.nil_append, List.cons.injEq,
        List.append_eq_nil_iff] at h
      exact hmore h.2.2.2
  | crlf =>
    match found with
    | [] | [a] => simp [atSeparator, List.isPrefixOf] at hat
    | [a, c] | [a, c, d] =>
      simp only [LineEnd.chars, List.cons_append, List.nil_append, List.cons.injEq] at h
      simp [atSeparator, List.isPrefixOf, h] at hat
    | a :: c :: d :: g :: rest =>
      simp only [LineEnd.chars, List.cons_append, List.nil_append, List.cons.injEq,
        List.append_eq_nil_iff] at h
      exact hmore h.2.2.2.2.2

theorem find_short {b : Block} {buffer more : List Char} (h : buffer ++ more = b.text)
    (hmore : more ≠ []) : findSeparator buffer = none := by
  rw [findSeparator, Option.map_eq_none_iff]
  cases hi : search atSeparator buffer with
  | none => rfl
  | some i =>
    have hb := search_lines b.lineEnd b.nonempty b.plain []
    have hi' := search_separator_append hi more
    obtain ⟨hlt, hat⟩ := search_lt rfl hi
    rw [h, Block.text, ← List.append_nil (b.lineEnd.chars ++ b.lineEnd.chars), List.append_assoc,
      Block.raw, hb] at hi'
    have hraw : i = b.raw.length := (Option.some.inj hi').symm
    have hrest : buffer.drop i ++ more = b.lineEnd.chars ++ b.lineEnd.chars := by
      rw [← List.drop_append_of_le_length hlt.le, h, hraw, Block.text, List.drop_left]
    exact absurd hat (not_atSeparator_short hrest hmore)

/-! ### Buffers -/

def blocksText (blocks : List Block) : List Char := blocks.flatMap Block.text

def Begun (buffer : List Char) : Prop := ∃ blocks, buffer <+: blocksText blocks

theorem begun_cases {buffer : List Char} (h : Begun buffer) :
    findSeparator buffer = none ∨ ∃ (b : Block) (blocks : List Block) (rest : List Char),
      buffer = b.text ++ rest ∧ rest <+: blocksText blocks := by
  obtain ⟨blocks, more, hmore⟩ := h
  cases blocks with
  | nil =>
    have hnil : buffer = [] := (List.append_eq_nil_iff.mp hmore).1
    exact .inl (hnil ▸ rfl)
  | cons b blocks =>
    rw [blocksText, List.flatMap_cons, List.append_eq_append_iff] at hmore
    rcases hmore with ⟨part, htext, hrest⟩ | ⟨part, hbuffer, hrest⟩
    · by_cases hpart : part = []
      · refine .inr ⟨b, blocks, [], ?_, List.nil_prefix⟩
        rw [htext, hpart, List.append_nil, List.append_nil]
      · exact .inl (find_short htext.symm hpart)
    · exact .inr ⟨b, blocks, part, hbuffer, more, hrest.symm⟩

theorem separator_steady : Steady findSeparator Begun where
  within := by
    intro buffer stop next hok hf
    rcases begun_cases hok with hnone | ⟨b, blocks, rest, rfl, -⟩
    · rw [hnone] at hf
      cases hf
    · rw [find_block] at hf
      cases hf
      have hlength : b.text.length = b.raw.length + (b.lineEnd.chars ++ b.lineEnd.chars).length :=
        List.length_append
      have hpos : 0 < (b.lineEnd.chars ++ b.lineEnd.chars).length := by cases b.lineEnd <;> decide
      rw [List.length_append]
      omega
  append := by
    intro buffer found more hok hf
    rw [findSeparator, Option.map_eq_some_iff] at hf ⊢
    obtain ⟨i, hi, rfl⟩ := hf
    obtain ⟨hlt, hat⟩ := search_lt rfl hi
    refine ⟨i, search_separator_append hi more, ?_⟩
    rw [List.drop_append_of_le_length hlt.le, (atSeparator_append more hat).2]
  initial := fun ⟨blocks, hblocks⟩ => ⟨blocks, (List.prefix_append _ _).trans hblocks⟩
  rest := by
    intro buffer stop next hok hf
    rcases begun_cases hok with hnone | ⟨b, blocks, rest, rfl, hrest⟩
    · rw [hnone] at hf
      cases hf
    · rw [find_block] at hf
      cases hf
      rw [List.drop_left]
      exact ⟨blocks, hrest⟩

/-- The last frame, when nothing stands behind it or only the end of its last line. -/
def tailText : Option (Block × Bool) → List Char
  | none => []
  | some (b, closed) => b.raw ++ if closed then b.lineEnd.chars else []

theorem tailText_begun (tail : Option (Block × Bool)) :
    findSeparator (tailText tail) = none ∧ Begun (tailText tail) := by
  cases tail with
  | none => exact ⟨rfl, [], List.nil_prefix⟩
  | some last =>
    obtain ⟨b, closed⟩ := last
    have hne : b.lineEnd.chars ≠ [] := by cases b.lineEnd <;> decide
    have hmore : ∃ more, tailText (some (b, closed)) ++ more = b.text ∧ more ≠ [] := by
      cases closed with
      | true => exact ⟨b.lineEnd.chars, by simp [tailText, Block.text], hne⟩
      | false =>
        exact ⟨b.lineEnd.chars ++ b.lineEnd.chars, by simp [tailText, Block.text], by simp [hne]⟩
    obtain ⟨more, htext, hmore⟩ := hmore
    refine ⟨find_short htext hmore, [b], more, ?_⟩
    rw [htext]
    exact (List.append_nil _).symm

theorem begun_append (blocks : List Block) {rest : List Char} (h : Begun rest) :
    Begun (blocksText blocks ++ rest) := by
  obtain ⟨others, hothers⟩ := h
  refine ⟨blocks ++ others, ?_⟩
  rw [blocksText, blocksText, List.flatMap_append]
  exact (List.prefix_append_right_inj _).mpr hothers

theorem frames_blocks (blocks : List Block) (tail : Option (Block × Bool)) :
    frames findSeparator (blocksText blocks ++ tailText tail) =
      (blocks.map Block.raw, tailText tail) := by
  induction blocks with
  | nil => exact frames_none (tailText_begun tail).1
  | cons b blocks ih =>
    have htext : blocksText (b :: blocks) ++ tailText tail =
        b.text ++ (blocksText blocks ++ tailText tail) := by
      rw [blocksText, List.flatMap_cons, List.append_assoc]
      rfl
    have hok : Begun (b.text ++ (blocksText blocks ++ tailText tail)) := by
      rw [← htext]
      exact begun_append _ (tailText_begun tail).2
    have hraw : (b.text ++ (blocksText blocks ++ tailText tail)).take b.raw.length = b.raw := by
      rw [Block.text, List.append_assoc, List.take_left]
    rw [htext, frames_some separator_steady hok (find_block b _), List.drop_left, hraw, ih]
    rfl

/-! ### The text of a frame -/

theorem splitLines_lineEnd (e : LineEnd) {line : List Char} (h : Plain line) (rest : List Char) :
    splitLines (line ++ (e.chars ++ rest)) = line :: splitLines rest := by
  cases e with
  | lf => exact splitLines_plain_append h rest
  | crlf =>
    induction line with
    | nil =>
      rw [List.nil_append, LineEnd.chars, List.cons_append, List.cons_append, List.nil_append,
        splitLines]
    | cons c cs ih =>
      obtain ⟨hn, hr⟩ := h c (List.mem_cons_self ..)
      have htail := ih fun d hd => h d (List.mem_cons_of_mem _ hd)
      rw [List.cons_append, splitLines, htail]
      · exact fun hc => hn hc
      · exact fun ds hc => absurd hc hr

theorem splitLines_raw (e : LineEnd) {lines : List (List Char)} (hne : lines ≠ [])
    (h : ∀ line ∈ lines, Plain line ∧ line ≠ []) :
    splitLines (e.chars.intercalate lines) = lines ∧
      splitLines (e.chars.intercalate lines ++ e.chars) = lines ++ [[]] := by
  induction lines with
  | nil => exact absurd rfl hne
  | cons line lines ih =>
    have hline := (h line (List.mem_cons_self ..)).1
    cases lines with
    | nil =>
      rw [List.intercalate_singleton]
      refine ⟨splitLines_plain hline, ?_⟩
      rw [← List.append_nil e.chars, splitLines_lineEnd e hline]
      rfl
    | cons next lines =>
      have htail := ih (List.cons_ne_nil _ _) fun l hl => h l (List.mem_cons_of_mem _ hl)
      rw [List.intercalate_cons_cons, List.append_assoc, List.append_assoc, List.append_assoc,
        splitLines_lineEnd e hline, splitLines_lineEnd e hline, htail.1, htail.2]
      exact ⟨rfl, rfl⟩

theorem lineData?_none {line : List Char} (h : ¬ dataPrefix <+: line) : lineData? line = none := by
  rw [lineData?, if_neg (by rwa [List.isPrefixOf_iff_prefix])]

theorem trimStart_append {white data : List Char} (hwhite : ∀ c ∈ white, isWhite c.toNat)
    (hdata : ∀ c ∈ data.head?, isWhite c.toNat = false) : trimStart (white ++ data) = data := by
  rw [trimStart, List.dropWhile_append_of_pos hwhite]
  cases data with
  | nil => rfl
  | cons c cs => exact List.dropWhile_cons_of_neg (by simp [hdata c rfl])

theorem Block.LineCarries.lineData? {line : List Char} {part : Option (List Char)}
    (h : LineCarries line part) : lineData? line = part := by
  cases h with
  | other h => exact lineData?_none h
  | data hwhite hdata =>
    rw [ModelProviders.lineData?, if_pos (List.isPrefixOf_iff_prefix.mpr (List.prefix_append _ _)),
      show 5 = dataPrefix.length from rfl, List.drop_left, trimStart_append hwhite hdata]

theorem Block.filterMap_lineData {lines : List (List Char)} {parts : List (Option (List Char))}
    (h : List.Forall₂ LineCarries lines parts) :
    lines.filterMap lineData? = parts.filterMap id := by
  induction h with
  | nil => rfl
  | cons hline _ ih => rw [List.filterMap_cons, List.filterMap_cons, hline.lineData?, ih]; rfl

theorem sseEventData_of_lines {rawEvent : List Char} {b : Block} {data : Option (List Char)}
    (h : b.Carries data)
    (hlines : (splitLines rawEvent).filterMap lineData? = b.lines.filterMap lineData?) :
    sseEventData rawEvent = data := by
  obtain ⟨parts, hparts, rfl⟩ := h
  rw [sseEventData, hlines, Block.filterMap_lineData hparts]
  cases parts.filterMap id <;> rfl

theorem sseEventData_raw {b : Block} {data : Option (List Char)} (h : b.Carries data) :
    sseEventData b.raw = data := by
  refine sseEventData_of_lines h ?_
  rw [Block.raw, (splitLines_raw b.lineEnd b.nonempty b.plain).1]

theorem sseEventData_tail {b : Block} {data : Option (List Char)} (h : b.Carries data)
    (closed : Bool) : sseEventData (tailText (some (b, closed))) = data := by
  cases closed with
  | false =>
    rw [tailText, if_neg Bool.false_ne_true, List.append_nil]
    exact sseEventData_raw h
  | true =>
    refine sseEventData_of_lines h ?_
    rw [tailText, if_pos rfl, Block.raw, (splitLines_raw b.lineEnd b.nonempty b.plain).2,
      List.filterMap_append]
    exact List.append_nil _

end BeeAgent.ModelProviders
