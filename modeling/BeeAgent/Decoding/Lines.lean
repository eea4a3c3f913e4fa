import BeeAgent.Decoding.Utf8

/-! Lines cut out of chunks: the lines that end in each chunk, with the pieces in which they came,
and what is read when every chunk is decoded by itself. -/
namespace Lines

variable {α β : Type} [DecidableEq α] [DecidableEq β]

/-- The closed lines, without their separators, and the open end. -/
def cut (sep : α) : List α → List (List α) × List α
  | [] => ([], [])
  | c :: cs =>
    if c = sep then ([] :: (cut sep cs).1, (cut sep cs).2)
    else
      match cut sep cs with
      | ([], open_) => ([], c :: open_)
      | (line :: ls, open_) => ((c :: line) :: ls, open_)

theorem line_induction (sep : α) {motive : List α → Prop}
    (open_ : ∀ cs, sep ∉ cs → motive cs)
    (line : ∀ l cs, sep ∉ l → motive cs → motive (l ++ sep :: cs)) (cs : List α) : motive cs := by
  suffices h : ∀ l, sep ∉ l → motive (l ++ cs) by simpa using h [] (List.not_mem_nil)
  induction cs with
  | nil =>
    intro l hl
    rw [List.append_nil]
    exact open_ l hl
  | cons c cs ih =>
    intro l hl
    by_cases hc : c = sep
    · subst hc
      exact line l cs hl (ih [] List.not_mem_nil)
    · have hsnoc : sep ∉ l ++ [c] := by simp [hl, Ne.symm hc]
      simpa using ih (l ++ [c]) hsnoc

theorem cut_open {sep : α} {cs : List α} (h : sep ∉ cs) : cut sep cs = ([], cs) := by
  induction cs with
  | nil => rfl
  | cons c cs ih =>
    rw [List.mem_cons, not_or] at h
    rw [cut, if_neg (Ne.symm h.1), ih h.2]

theorem cut_line {sep : α} {l : List α} (h : sep ∉ l) (cs : List α) :
    cut sep (l ++ sep :: cs) = (l :: (cut sep cs).1, (cut sep cs).2) := by
  induction l with
  | nil => rw [List.nil_append, cut, if_pos rfl]
  | cons c l ih =>
    rw [List.mem_cons, not_or] at h
    rw [List.cons_append, cut, if_neg (Ne.symm h.1), ih h.2]

theorem notMem_open (sep : α) (cs : List α) : sep ∉ (cut sep cs).2 := by
  induction cs using line_induction sep with
  | open_ cs h => rwa [cut_open h]
  | line l cs hl ih => rwa [cut_line hl]

/-- A text after an open end continues its line. -/
def continued (open_ : List α) : List (List α) × List α → List (List α) × List α
  | ([], rest) => ([], open_ ++ rest)
  | (line :: ls, rest) => ((open_ ++ line) :: ls, rest)

theorem cut_append {sep : α} {open_ : List α} (h : sep ∉ open_) (cs : List α) :
    cut sep (open_ ++ cs) = continued open_ (cut sep cs) := by
  induction cs using line_induction sep with
  | open_ cs hcs =>
    have happend : sep ∉ open_ ++ cs := by simp [h, hcs]
    rw [cut_open happend, cut_open hcs, continued]
  | line l cs hl =>
    have happend : sep ∉ open_ ++ l := by simp [h, hl]
    rw [← List.append_assoc, cut_line happend, cut_line hl, continued]

theorem cut_lines {sep : α} {ls : List (List α)} (h : ∀ l ∈ ls, sep ∉ l) (cs : List α) :
    cut sep (ls.flatMap (· ++ [sep]) ++ cs) = (ls ++ (cut sep cs).1, (cut sep cs).2) := by
  induction ls with
  | nil => rfl
  | cons l ls ih =>
    have htail := ih fun m hm => h m (List.mem_cons_of_mem _ hm)
    rw [List.flatMap_cons, List.append_assoc, List.append_assoc, List.singleton_append,
      cut_line (h l List.mem_cons_self), htail]
    rfl

/-- Nothing is lost: the lines with their separators and the open end are the text. -/
theorem flatten_cut (sep : α) (cs : List α) :
    (cut sep cs).1.flatMap (· ++ [sep]) ++ (cut sep cs).2 = cs := by
  induction cs using line_induction sep with
  | open_ cs h => rw [cut_open h]; rfl
  | line l cs hl ih =>
    rw [cut_line hl, List.flatMap_cons, List.append_assoc, ih, List.append_assoc,
      List.singleton_append]

theorem notMem_closed (sep : α) (cs : List α) : ∀ l ∈ (cut sep cs).1, sep ∉ l := by
  induction cs using line_induction sep with
  | open_ cs h => simp [cut_open h]
  | line l cs hl ih =>
    rw [cut_line hl]
    exact List.forall_mem_cons.mpr ⟨hl, ih⟩

theorem cut_more (sep : α) (cs ds : List α) :
    cut sep (cs ++ ds) = ((cut sep cs).1 ++ (cut sep ((cut sep cs).2 ++ ds)).1,
      (cut sep ((cut sep cs).2 ++ ds)).2) := by
  rw [← cut_lines (notMem_closed sep cs), ← List.append_assoc, flatten_cut]

/-! ### Chunks -/

/-- The lines that end in a chunk that was cut, each as the pieces in which it came, and the pieces
of the line that is open after it; `pieces` are those of the line that is open before it. -/
def arrive (pieces : List (List α)) :
    List (List α) × List α → List (List (List α)) × List (List α)
  | ([], rest) => ([], pieces ++ [rest])
  | (line :: ls, rest) => ((pieces ++ [line]) :: ls.map fun l => [l], [rest])

/-- The lines that end in each chunk. -/
def arrivals (sep : α) : List (List α) → List (List α) → List (List (List (List α)))
  | _, [] => []
  | pieces, chunk :: chunks =>
    (arrive pieces (cut sep chunk)).1 :: arrivals sep (arrive pieces (cut sep chunk)).2 chunks

omit [DecidableEq α] [DecidableEq β] in
theorem continued_read (read : List α → List β) (pieces : List (List α))
    (chunk : List (List α) × List α) :
    continued (pieces.flatMap read) (chunk.1.map read, read chunk.2) =
      ((arrive pieces chunk).1.map fun line => line.flatMap read,
        (arrive pieces chunk).2.flatMap read) := by
  obtain ⟨_ | ⟨line, ls⟩, rest⟩ := chunk
  · simp [continued, arrive]
  · simp [continued, arrive, Function.comp_def]

omit [DecidableEq α] in
theorem continued_pieces (pieces : List (List α)) (chunk : List (List α) × List α) :
    continued pieces.flatten chunk =
      ((arrive pieces chunk).1.map List.flatten, (arrive pieces chunk).2.flatten) := by
  simpa [List.flatMap_id'] using continued_read id pieces chunk

theorem arrivals_lines (sep : α) {pieces : List (List α)} (h : sep ∉ pieces.flatten)
    (chunks : List (List α)) :
    (arrivals sep pieces chunks).flatten.map List.flatten =
      (cut sep (pieces.flatten ++ chunks.flatten)).1 := by
  induction chunks generalizing pieces with
  | nil => simp [arrivals, cut_open h]
  | cons chunk chunks ih =>
    have hcut : cut sep (pieces.flatten ++ chunk) = _ :=
      (cut_append h chunk).trans (continued_pieces pieces (cut sep chunk))
    have hrest := notMem_open sep (pieces.flatten ++ chunk)
    rw [hcut] at hrest
    rw [arrivals, List.flatten_cons, List.map_append, ih hrest, List.flatten_cons,
      ← List.append_assoc, cut_more sep (pieces.flatten ++ chunk), hcut]

omit [DecidableEq β] in
theorem arrivals_apart {sep : α} {read : List α → List β} (hnil : read [] = [])
    {ls : List (List α)} (h : ∀ l ∈ ls, sep ∉ l) {rest : List α} (hrest : sep ∉ rest)
    {pieces : List (List α)} (hpieces : pieces.flatMap read = []) :
    (arrivals sep pieces (ls.map (· ++ [sep]) ++ [rest])).map
        (fun group => group.map fun line => line.flatMap read) =
      ls.map (fun l => [read l]) ++ [[]] := by
  induction ls generalizing pieces with
  | nil => simp [arrivals, cut_open hrest, arrive]
  | cons l ls ih =>
    have hstart : ([[]] : List (List α)).flatMap read = [] := by simp [hnil]
    have htail := ih (fun m hm => h m (List.mem_cons_of_mem _ hm)) hstart
    have hcut : cut sep (l ++ [sep]) = ([l], []) := cut_line (h l List.mem_cons_self) []
    rw [List.map_cons, List.cons_append, arrivals, hcut, arrive]
    simp [htail, hpieces]

/-! ### Decoding by chunk -/

/-- What is read of a text keeps the separators where they are. -/
structure KeepsLines (sep : α) (sep' : β) (read : List α → List β) : Prop where
  line {l : List α} (h : sep ∉ l) (cs : List α) : read (l ++ sep :: cs) = read l ++ sep' :: read cs
  plain {l : List α} (h : sep ∉ l) : sep' ∉ read l

theorem cut_read {sep : α} {sep' : β} {read : List α → List β} (hread : KeepsLines sep sep' read)
    (cs : List α) : cut sep' (read cs) = ((cut sep cs).1.map read, read (cut sep cs).2) := by
  induction cs using line_induction sep with
  | open_ cs h => rw [cut_open h, cut_open (hread.plain h), List.map_nil]
  | line l cs hl ih => rw [cut_line hl, hread.line hl, cut_line (hread.plain hl), ih, List.map_cons]

theorem cut_chunk {sep : α} {sep' : β} {read : List α → List β} (hread : KeepsLines sep sep' read)
    {pieces : List (List α)} (h : sep ∉ pieces.flatten) (chunk : List α) :
    cut sep' (pieces.flatMap read ++ read chunk) =
      ((arrive pieces (cut sep chunk)).1.map fun line => line.flatMap read,
        (arrive pieces (cut sep chunk)).2.flatMap read) := by
  have hopen : sep' ∉ pieces.flatMap read := by
    intro hmem
    obtain ⟨piece, hpiece, hsep⟩ := List.mem_flatMap.mp hmem
    refine hread.plain (fun hin => h ?_) hsep
    exact List.mem_flatten.mpr ⟨piece, hpiece, hin⟩
  rw [cut_append hopen, cut_read hread, continued_read]

theorem notMem_arrive {sep : α} {pieces : List (List α)} (h : sep ∉ pieces.flatten)
    (chunk : List α) : sep ∉ (arrive pieces (cut sep chunk)).2.flatten := by
  have hrest := notMem_open sep (pieces.flatten ++ chunk)
  rwa [cut_append h, continued_pieces] at hrest

end Lines

/-- Chunks of UTF-8 that are decoded each by itself keep their lines, if not their characters. -/
theorem Utf8.keepsLines : Lines.KeepsLines (10 : UInt8) '\n' Utf8.decodeWhole where
  line _ cs := Utf8.decodeWhole_ascii (by decide) _ cs
  plain h := Utf8.notMem_decodeWhole (by decide) (by decide) h
