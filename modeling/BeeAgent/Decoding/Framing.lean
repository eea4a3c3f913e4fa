import BeeAgent.Decoding.Utf8

/-! Frames cut out of a growing buffer: a finder tells where the first frame of a buffer ends and
where the next one begins. When what it finds does not change as the buffer grows, the frames do not
depend on how the input is cut into chunks. -/
namespace Framing
open Utf8 (TextDecoder)

variable {α : Type}

/-! ### Search -/

/-- The first position from which the rest meets the test. -/
def search (p : List α → Bool) : List α → Option ℕ
  | [] => if p [] then some 0 else none
  | c :: cs => if p (c :: cs) then some 0 else (search p cs).map (· + 1)

def indexOf [DecidableEq α] (needle : List α) : List α → Option ℕ := search needle.isPrefixOf

theorem search_cons_of_not {p : List α → Bool} {c : α} {cs : List α} (h : p (c :: cs) = false) :
    search p (c :: cs) = (search p cs).map (· + 1) := by
  rw [search, h]
  rfl

theorem search_append_of_not {p : List α → Bool} {as : List α} (bs : List α)
    (h : ∀ a ∈ as, ∀ cs, p (a :: cs) = false) :
    search p (as ++ bs) = (search p bs).map (· + as.length) := by
  induction as with
  | nil => simp
  | cons a as ih =>
    rw [List.cons_append, search_cons_of_not (h a (List.mem_cons_self ..) _),
      ih fun b hb => h b (List.mem_cons_of_mem _ hb), Option.map_map]
    rfl

theorem search_lt {p : List α → Bool} (hnil : p [] = false) {cs : List α} {i : ℕ}
    (h : search p cs = some i) : i < cs.length ∧ p (cs.drop i) := by
  induction cs generalizing i with
  | nil => simp [search, hnil] at h
  | cons c cs ih =>
    rw [search] at h
    split at h
    · next hp =>
      cases h
      exact ⟨Nat.zero_lt_succ _, hp⟩
    · obtain ⟨j, hj, rfl⟩ := Option.map_eq_some_iff.mp h
      exact ⟨Nat.succ_lt_succ (ih hj).1, (ih hj).2⟩

/-- What is found first stays first when more comes, if a match is not undone by what comes, and no
match begins before one that is there already. -/
theorem search_append {p : List α → Bool} (hnil : p [] = false)
    (hkeep : ∀ cs ds, p cs → p (cs ++ ds))
    (hfinal : ∀ c cs ds i, search p cs = some i → p (c :: cs) = false → p (c :: (cs ++ ds)) = false)
    {cs : List α} {i : ℕ} (h : search p cs = some i) (ds : List α) :
    search p (cs ++ ds) = some i := by
  induction cs generalizing i with
  | nil => simp [search, hnil] at h
  | cons c cs ih =>
    rw [search] at h
    split at h
    · next hp =>
      cases h
      rw [List.cons_append, search, ← List.cons_append, hkeep _ _ hp]
      rfl
    · next hp =>
      obtain ⟨j, hj, rfl⟩ := Option.map_eq_some_iff.mp h
      rw [List.cons_append, search_cons_of_not (hfinal c cs ds j hj (Bool.not_eq_true _ ▸ hp)),
        ih hj]
      rfl

/-! ### Lines -/

/-- `split(/\r?\n/)` -/
def splitLines : List Char → List (List Char)
  | [] => [[]]
  | '\n' :: cs => [] :: splitLines cs
  | '\r' :: '\n' :: cs => [] :: splitLines cs
  | c :: cs =>
    match splitLines cs with
    | [] => [[c]]
    | line :: lines => (c :: line) :: lines

def Plain (line : List Char) : Prop := ∀ c ∈ line, c ≠ '\n' ∧ c ≠ '\r'

instance (line : List Char) : Decidable (Plain line) :=
  List.decidableBAll (fun c : Char => c ≠ '\n' ∧ c ≠ '\r') line

theorem splitLines_plain {line : List Char} (h : Plain line) : splitLines line = [line] := by
  induction line with
  | nil => rfl
  | cons c cs ih =>
    obtain ⟨hn, hr⟩ := h c (List.mem_cons_self ..)
    have htail := ih fun d hd => h d (List.mem_cons_of_mem _ hd)
    rw [splitLines, htail]
    · exact fun hc => hn hc
    · exact fun ds hc => absurd hc hr

theorem splitLines_plain_append {line : List Char} (h : Plain line) (rest : List Char) :
    splitLines (line ++ '\n' :: rest) = line :: splitLines rest := by
  induction line with
  | nil => rw [List.nil_append, splitLines]
  | cons c cs ih =>
    obtain ⟨hn, hr⟩ := h c (List.mem_cons_self ..)
    have htail := ih fun d hd => h d (List.mem_cons_of_mem _ hd)
    rw [List.cons_append, splitLines, htail]
    · exact fun hc => hn hc
    · exact fun ds hc => absurd hc hr

/-! ### Frames -/

/-- Where the first frame ends, and where the next one begins. -/
abbrev Finder (α : Type) := List α → Option (ℕ × ℕ)

/-- The whole frames of a buffer, at most so many, and what is left. -/
def drain (find : Finder α) : ℕ → List α → List (List α) × List α
  | 0, buffer => ([], buffer)
  | fuel + 1, buffer =>
    match find buffer with
    | none => ([], buffer)
    | some (stop, next) =>
      let (frames, rest) := drain find fuel (buffer.drop next)
      (buffer.take stop :: frames, rest)

def frames (find : Finder α) (buffer : List α) : List (List α) × List α :=
  drain find buffer.length buffer

/-- On the buffers of a set, a frame is found inside the buffer and stays when more comes. -/
structure Steady (find : Finder α) (ok : List α → Prop) : Prop where
  within : ∀ {buffer stop next}, ok buffer → find buffer = some (stop, next) →
    0 < next ∧ next ≤ buffer.length ∧ stop ≤ next
  append : ∀ {buffer found} more, ok (buffer ++ more) → find buffer = some found →
    find (buffer ++ more) = some found
  initial : ∀ {buffer more}, ok (buffer ++ more) → ok buffer
  rest : ∀ {buffer stop next}, ok buffer → find buffer = some (stop, next) → ok (buffer.drop next)

section
variable {find : Finder α} {ok : List α → Prop} (hfind : Steady find ok)
include hfind

theorem drain_eq_frames {fuel : ℕ} {buffer : List α} (hok : ok buffer)
    (hfuel : buffer.length ≤ fuel) : drain find fuel buffer = frames find buffer := by
  suffices ∀ n m (buffer : List α), ok buffer → buffer.length ≤ n → buffer.length ≤ m →
      drain find n buffer = drain find m buffer from
    this _ _ buffer hok hfuel (Nat.le_refl _)
  intro n
  induction n with
  | zero =>
    intro m buffer hok hn hm
    obtain rfl := List.length_eq_zero_iff.mp (Nat.le_zero.mp hn)
    cases m with
    | zero => rfl
    | succ m =>
      cases hf : find [] with
      | none => simp only [drain, hf]
      | some found =>
        have := hfind.within hok hf
        simp at this
        omega
  | succ n ih =>
    intro m buffer hok hn hm
    cases hf : find buffer with
    | none => cases m <;> simp only [drain, hf]
    | some found =>
      obtain ⟨stop, next⟩ := found
      have hin := hfind.within hok hf
      obtain ⟨m, rfl⟩ : ∃ k, m = k + 1 := ⟨m - 1, by omega⟩
      have hdrop : (buffer.drop next).length = buffer.length - next := List.length_drop
      simp only [drain, hf, ih m (buffer.drop next) (hfind.rest hok hf) (by omega) (by omega)]

theorem frames_some {buffer : List α} {stop next : ℕ} (hok : ok buffer)
    (hf : find buffer = some (stop, next)) :
    frames find buffer = (buffer.take stop :: (frames find (buffer.drop next)).1,
      (frames find (buffer.drop next)).2) := by
  have hin := hfind.within hok hf
  obtain ⟨n, hn⟩ : ∃ k, buffer.length = k + 1 := ⟨buffer.length - 1, by omega⟩
  have hdrop : (buffer.drop next).length = buffer.length - next := List.length_drop
  rw [frames, hn, drain, hf]
  simp only [drain_eq_frames hfind (hfind.rest hok hf) (show (buffer.drop next).length ≤ n by omega)]

omit hfind in
theorem frames_none {buffer : List α} (hf : find buffer = none) :
    frames find buffer = ([], buffer) := by
  rw [frames]
  cases buffer.length <;> simp only [drain, hf]

theorem frames_append {buffer : List α} (more : List α) (hok : ok (buffer ++ more)) :
    frames find (buffer ++ more) =
      ((frames find buffer).1 ++ (frames find ((frames find buffer).2 ++ more)).1,
        (frames find ((frames find buffer).2 ++ more)).2) := by
  induction hlength : buffer.length using Nat.strongRecOn generalizing buffer with
  | ind n ih =>
    cases hf : find buffer with
    | none => simp only [frames_none hf, List.nil_append]
    | some found =>
      obtain ⟨stop, next⟩ := found
      have hin := hfind.within (hfind.initial hok) hf
      have hmore := hfind.append more hok hf
      have hdrop : (buffer ++ more).drop next = buffer.drop next ++ more :=
        List.drop_append_of_le_length hin.2.1
      have htake : (buffer ++ more).take stop = buffer.take stop :=
        List.take_append_of_le_length (Nat.le_trans hin.2.2 hin.2.1)
      have hrest := hfind.rest hok hmore
      rw [hdrop] at hrest
      have hshort : (buffer.drop next).length < n := by
        rw [List.length_drop]
        omega
      rw [frames_some hfind hok hmore, frames_some hfind (hfind.initial hok) hf, hdrop, htake,
        ih _ hshort hrest rfl]
      rfl

theorem frames_rest {buffer : List α} (more : List α) (hok : ok (buffer ++ more)) :
    find (frames find buffer).2 = none ∧ ok ((frames find buffer).2 ++ more) := by
  induction hlength : buffer.length using Nat.strongRecOn generalizing buffer with
  | ind n ih =>
    cases hf : find buffer with
    | none => exact (frames_none hf).symm ▸ ⟨hf, hok⟩
    | some found =>
      obtain ⟨stop, next⟩ := found
      have hin := hfind.within (hfind.initial hok) hf
      have hrest := hfind.rest hok (hfind.append more hok hf)
      rw [List.drop_append_of_le_length hin.2.1] at hrest
      have hshort : (buffer.drop next).length < n := by
        rw [List.length_drop]
        omega
      rw [frames_some hfind (hfind.initial hok) hf]
      exact ih _ hshort hrest rfl

end

/-! ### Chunks of bytes -/

/-- A reader of text: the open end of the input, as bytes and as characters. -/
structure Reader where
  decoder : TextDecoder := {}
  buffer : List Char := []

def Reader.read (find : Finder Char) (s : Reader) (chunk : List UInt8) : List (List Char) × Reader :=
  let (cs, decoder) := s.decoder.read chunk
  let (fs, buffer) := frames find (s.buffer ++ cs)
  (fs, ⟨decoder, buffer⟩)

/-- The frames that are cut out while the chunks are read, and what is left at their end. -/
def readAll (find : Finder Char) : Reader → List (List UInt8) → List (List Char) × List Char
  | s, [] => ([], s.buffer ++ s.decoder.finish)
  | s, chunk :: chunks =>
    let (fs, s') := s.read find chunk
    let (gs, rest) := readAll find s' chunks
    (fs ++ gs, rest)

/-- The frames are those of the whole text, whatever the chunks. -/
theorem readAll_eq {find : Finder Char} {ok : List Char → Prop} (hfind : Steady find ok) (s : Reader)
    (chunks : List (List UInt8)) (hbuffer : find s.buffer = none)
    (hok : ok (s.buffer ++ (s.decoder.read chunks.flatten).1)) :
    readAll find s chunks =
      ((frames find (s.buffer ++ (s.decoder.read chunks.flatten).1)).1,
        (frames find (s.buffer ++ (s.decoder.read chunks.flatten).1)).2 ++
          (s.decoder.read chunks.flatten).2.finish) := by
  induction chunks generalizing s with
  | nil =>
    have hread : s.decoder.read [].flatten = ([], s.decoder) := s.decoder.read_nil
    rw [readAll, hread, List.append_nil, frames_none hbuffer]
  | cons chunk chunks ih =>
    rw [List.flatten_cons, TextDecoder.read_append] at hok ⊢
    simp only [← List.append_assoc] at hok ⊢
    obtain ⟨hnone, hrest⟩ := frames_rest hfind _ hok
    rw [frames_append hfind _ hok, readAll]
    have htail := ih ⟨(s.decoder.read chunk).2,
      (frames find (s.buffer ++ (s.decoder.read chunk).1)).2⟩ hnone hrest
    simp only [Reader.read, htail]

end Framing
