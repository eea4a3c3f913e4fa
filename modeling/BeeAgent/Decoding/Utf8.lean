import Mathlib.Data.List.Basic

/-! UTF-8 as a stream: a decoder that takes bytes one at a time and keeps what is still open, so
that it does not see where chunks end. A byte that does not continue an open sequence ends it with a
replacement character and is read again from the start; the text decoder drops a leading byte order
mark. -/
namespace Utf8

def replacement : Char := Char.ofNat 0xFFFD

def byteOrderMark : Char := Char.ofNat 0xFEFF

/-- An open sequence: its code point so far, how many bytes are missing, and the bounds of the
next one. -/
structure Decoder where
  codePoint : ℕ
  missing : ℕ
  lower : ℕ
  upper : ℕ
  deriving DecidableEq, Repr

def idle : Decoder := ⟨0, 0, 0x80, 0xBF⟩

/-- The first byte of a sequence. -/
def lead (b : ℕ) : List Char × Decoder :=
  if b ≤ 0x7F then ([Char.ofNat b], idle)
  else if 0xC2 ≤ b ∧ b ≤ 0xDF then ([], ⟨b % 0x20, 1, 0x80, 0xBF⟩)
  else if 0xE0 ≤ b ∧ b ≤ 0xEF then
    ([], ⟨b % 0x10, 2, if b = 0xE0 then 0xA0 else 0x80, if b = 0xED then 0x9F else 0xBF⟩)
  else if 0xF0 ≤ b ∧ b ≤ 0xF4 then
    ([], ⟨b % 0x08, 3, if b = 0xF0 then 0x90 else 0x80, if b = 0xF4 then 0x8F else 0xBF⟩)
  else ([replacement], idle)

def push (s : Decoder) (b : ℕ) : List Char × Decoder :=
  if s.missing = 0 then lead b
  else if b < s.lower ∨ s.upper < b then
    let (cs, s') := lead b
    (replacement :: cs, s')
  else
    let codePoint := s.codePoint * 64 + b % 64
    if s.missing = 1 then ([Char.ofNat codePoint], idle)
    else ([], ⟨codePoint, s.missing - 1, 0x80, 0xBF⟩)

def decode : Decoder → List UInt8 → List Char × Decoder
  | s, [] => ([], s)
  | s, b :: bs =>
    let (cs, s') := push s b.toNat
    let (ds, s'') := decode s' bs
    (cs ++ ds, s'')

/-- What the end of the input leaves of an open sequence. -/
def flush (s : Decoder) : List Char := if s.missing = 0 then [] else [replacement]

def encode (cs : List Char) : List UInt8 := cs.flatMap String.utf8EncodeChar

theorem decode_append (s : Decoder) (bs bs' : List UInt8) :
    decode s (bs ++ bs') =
      ((decode s bs).1 ++ (decode (decode s bs).2 bs').1, (decode (decode s bs).2 bs').2) := by
  induction bs generalizing s with
  | nil => rfl
  | cons b bs ih => simp only [List.cons_append, decode, ih, List.append_assoc]

theorem ofNat_eq {c : Char} {n : ℕ} (h : n = c.toNat) : Char.ofNat n = c := by
  rw [h, Char.ofNat_toNat]

theorem toNat_lt (c : Char) : c.toNat < 0x110000 ∧ (c.toNat < 0xD800 ∨ 0xDFFF < c.toNat) := by
  have h : c.toNat < 0xD800 ∨ 0xDFFF < c.toNat ∧ c.toNat < 0x110000 := c.valid
  omega

theorem push_inner {codePoint n lower upper b : ℕ} (hb : lower ≤ b ∧ b ≤ upper) :
    push ⟨codePoint, n + 2, lower, upper⟩ b =
      ([], ⟨codePoint * 64 + b % 64, n + 1, 0x80, 0xBF⟩) := by
  have hin : ¬ (b < lower ∨ upper < b) := by omega
  have hmissing : ¬ n + 2 = 0 ∧ ¬ n + 2 = 1 := by omega
  simp only [push, hin, hmissing, if_false]
  rfl

theorem push_last {codePoint lower upper b : ℕ} (hb : lower ≤ b ∧ b ≤ upper) :
    push ⟨codePoint, 1, lower, upper⟩ b = ([Char.ofNat (codePoint * 64 + b % 64)], idle) := by
  have hin : ¬ (b < lower ∨ upper < b) := by omega
  simp only [push, hin, if_false, if_true, Nat.one_ne_zero]

theorem push_idle (b : ℕ) : push idle b = lead b := rfl

theorem decode_cons {s : Decoder} {b : ℕ} {bs : List UInt8} (hb : b < 256) :
    decode s (UInt8.ofNat b :: bs) =
      ((push s b).1 ++ (decode (push s b).2 bs).1, (decode (push s b).2 bs).2) := by
  have hbyte : (UInt8.ofNat b).toNat = b := Nat.mod_eq_of_lt hb
  rw [decode, hbyte]

theorem decode_encodeChar (c : Char) : decode idle (String.utf8EncodeChar c) = ([c], idle) := by
  have hc := toNat_lt c
  have hval : c.val.toNat = c.toNat := rfl
  simp only [String.utf8EncodeChar, hval]
  generalize hv : c.toNat = v at hc ⊢
  split
  · have hlead : lead v = ([c], idle) := by rw [lead, if_pos (by omega), ofNat_eq hv.symm]
    rw [decode_cons (by omega), push_idle, hlead]
    rfl
  split
  · have hlead : lead (v / 64 % 32 + 192) = ([], ⟨v / 64, 1, 0x80, 0xBF⟩) := by
      rw [lead, if_neg (by omega), if_pos (by omega), show (v / 64 % 32 + 192) % 32 = v / 64 by omega]
    rw [decode_cons (by omega), push_idle, hlead, decode_cons (by omega),
      push_last (by omega), ofNat_eq (c := c) (by omega)]
    rfl
  split
  · have hlead : lead (v / 4096 % 16 + 224) = ([], ⟨v / 4096, 2,
        if v / 4096 = 0 then 0xA0 else 0x80, if v / 4096 = 13 then 0x9F else 0xBF⟩) := by
      rw [lead, if_neg (by omega), if_neg (by omega), if_pos (by omega),
        show (v / 4096 % 16 + 224) % 16 = v / 4096 by omega]
      congr 2 <;> congr 1 <;> rw [eq_iff_iff] <;> omega
    have hinner : push ⟨v / 4096, 2, if v / 4096 = 0 then 0xA0 else 0x80,
        if v / 4096 = 13 then 0x9F else 0xBF⟩ (v / 64 % 64 + 128) =
        ([], ⟨v / 64, 1, 0x80, 0xBF⟩) := by
      rw [push_inner (by split <;> split <;> omega)]
      congr 2
      omega
    rw [decode_cons (by omega), push_idle, hlead, decode_cons (by omega), hinner,
      decode_cons (by omega), push_last (by omega),
      ofNat_eq (c := c) (by omega)]
    rfl
  · have hlead : lead (v / 262144 % 8 + 240) = ([], ⟨v / 262144, 3,
        if v / 262144 = 0 then 0x90 else 0x80, if v / 262144 = 4 then 0x8F else 0xBF⟩) := by
      rw [lead, if_neg (by omega), if_neg (by omega), if_neg (by omega), if_pos (by omega),
        show (v / 262144 % 8 + 240) % 8 = v / 262144 by omega]
      congr 2 <;> congr 1 <;> rw [eq_iff_iff] <;> omega
    have hsecond : push ⟨v / 262144, 3, if v / 262144 = 0 then 0x90 else 0x80,
        if v / 262144 = 4 then 0x8F else 0xBF⟩ (v / 4096 % 64 + 128) =
        ([], ⟨v / 4096, 2, 0x80, 0xBF⟩) := by
      rw [push_inner (by split <;> split <;> omega)]
      congr 2
      omega
    have hthird : push ⟨v / 4096, 2, 0x80, 0xBF⟩ (v / 64 % 64 + 128) =
        ([], ⟨v / 64, 1, 0x80, 0xBF⟩) := by
      rw [push_inner (by omega)]
      congr 2
      omega
    rw [decode_cons (by omega), push_idle, hlead, decode_cons (by omega), hsecond,
      decode_cons (by omega), hthird, decode_cons (by omega), push_last (by omega),
      ofNat_eq (c := c) (by omega)]
    rfl

theorem decode_encode (cs : List Char) : decode idle (encode cs) = (cs, idle) := by
  induction cs with
  | nil => rfl
  | cons c cs ih =>
    rw [encode, List.flatMap_cons, decode_append, decode_encodeChar, ← encode, ih]
    rfl

/-! ### Bytes of ASCII -/

/-- Bytes read by themselves, with nothing before them and nothing after. -/
def decodeWhole (bs : List UInt8) : List Char := (decode idle bs).1 ++ flush (decode idle bs).2

/-- What holds of every decoder that is reached: an open sequence takes only bytes beyond ASCII and
will stand for a character beyond ASCII. -/
structure Reached (s : Decoder) : Prop where
  lower : 0x80 ≤ s.lower
  upper : s.upper ≤ 0xBF
  wide : s.missing = 0 ∨ 2 ≤ s.codePoint ∨ 2 ≤ s.missing ∧ (1 ≤ s.codePoint ∨ 0x90 ≤ s.lower)

theorem reached_idle : Reached idle := ⟨Nat.le_refl _, Nat.le_refl _, .inl rfl⟩

def Beyond (b : ℕ) (cs : List Char) : Prop := ∀ c ∈ cs, c.toNat = b ∨ c.toNat = 0 ∨ 0x80 ≤ c.toNat

theorem toNat_ofNat {n : ℕ} (h : n.isValidChar) : (Char.ofNat n).toNat = n := by
  rw [Char.ofNat, dif_pos h]
  rfl

theorem toNat_ofNat_or (n : ℕ) : (Char.ofNat n).toNat = n ∨ (Char.ofNat n).toNat = 0 := by
  by_cases h : n.isValidChar
  · exact .inl (toNat_ofNat h)
  · right
    rw [Char.ofNat, dif_neg h]
    rfl

theorem toNat_ascii {n : ℕ} (h : n ≤ 0x7F) : (Char.ofNat n).toNat = n :=
  toNat_ofNat (.inl (by omega))

theorem beyond_ofNat {b n : ℕ} (h : n = b ∨ 0x80 ≤ n) : Beyond b [Char.ofNat n] := by
  intro c hc
  obtain rfl := List.mem_singleton.mp hc
  rcases toNat_ofNat_or n with heq | heq <;> omega

theorem beyond_replacement (b : ℕ) : Beyond b [replacement] :=
  beyond_ofNat (.inr (by decide))

theorem Beyond.append {b : ℕ} {cs ds : List Char} (hc : Beyond b cs) (hd : Beyond b ds) :
    Beyond b (cs ++ ds) := fun c h => (List.mem_append.mp h).elim (hc c) (hd c)

theorem lead_beyond (b : ℕ) : Beyond b (lead b).1 ∧ Reached (lead b).2 := by
  unfold lead
  split
  · exact ⟨beyond_ofNat (.inl rfl), reached_idle⟩
  split
  · exact ⟨by simp [Beyond], ⟨Nat.le_refl _, Nat.le_refl _, .inr (.inl (by dsimp only; omega))⟩⟩
  split
  · refine ⟨by simp [Beyond], ⟨?_, ?_, ?_⟩⟩ <;> dsimp only <;> split <;> omega
  split
  · refine ⟨by simp [Beyond], ⟨?_, ?_, ?_⟩⟩ <;> dsimp only <;> split <;> omega
  · exact ⟨beyond_replacement b, reached_idle⟩

theorem push_beyond {s : Decoder} (hs : Reached s) (b : ℕ) :
    Beyond b (push s b).1 ∧ Reached (push s b).2 := by
  have hlower := hs.lower
  have hupper := hs.upper
  have hwide := hs.wide
  unfold push
  split
  · exact lead_beyond b
  split
  · exact ⟨(beyond_replacement b).append (lead_beyond b).1, (lead_beyond b).2⟩
  · split
    · exact ⟨beyond_ofNat (.inr (by omega)), reached_idle⟩
    · exact ⟨by simp [Beyond], ⟨Nat.le_refl _, Nat.le_refl _, .inr (.inl (by dsimp only; omega))⟩⟩

theorem decode_reached {s : Decoder} (hs : Reached s) (bs : List UInt8) :
    Reached (decode s bs).2 := by
  induction bs generalizing s with
  | nil => exact hs
  | cons b bs ih => exact ih (push_beyond hs b.toNat).2

theorem push_ascii {s : Decoder} (hs : Reached s) {b : ℕ} (hb : b ≤ 0x7F) :
    push s b = (flush s ++ [Char.ofNat b], idle) := by
  have hlead : lead b = ([Char.ofNat b], idle) := by rw [lead, if_pos hb]
  have hlower := hs.lower
  unfold push flush
  split
  · rw [hlead, List.nil_append]
  · rw [if_pos (by omega), hlead, List.singleton_append]

theorem decodeWhole_nil : decodeWhole [] = [] := rfl

theorem decodeWhole_ascii {b : UInt8} (hb : b.toNat ≤ 0x7F) (bs bs' : List UInt8) :
    decodeWhole (bs ++ b :: bs') = decodeWhole bs ++ Char.ofNat b.toNat :: decodeWhole bs' := by
  have hpush := push_ascii (decode_reached reached_idle bs) hb
  simp only [decodeWhole, decode_append, decode, hpush, List.append_assoc, List.cons_append,
    List.nil_append]

theorem notMem_decode {s : Decoder} (hs : Reached s) {b : UInt8} (hpos : 0 < b.toNat)
    (hb : b.toNat ≤ 0x7F) {bs : List UInt8} (h : b ∉ bs) :
    Char.ofNat b.toNat ∉ (decode s bs).1 := by
  induction bs generalizing s with
  | nil => simp [decode]
  | cons b' bs ih =>
    rw [List.mem_cons, not_or] at h
    obtain ⟨hbeyond, hreached⟩ := push_beyond hs b'.toNat
    rw [decode, List.mem_append, not_or]
    refine ⟨fun hmem => ?_, ih hreached h.2⟩
    have hne : b.toNat ≠ b'.toNat := fun heq => h.1 (UInt8.toNat_inj.mp heq)
    have hcases := hbeyond _ hmem
    rw [toNat_ascii hb] at hcases
    omega

theorem notMem_decodeWhole {b : UInt8} (hpos : 0 < b.toNat) (hb : b.toNat ≤ 0x7F)
    {bs : List UInt8} (h : b ∉ bs) : Char.ofNat b.toNat ∉ decodeWhole bs := by
  rw [decodeWhole, List.mem_append, not_or]
  refine ⟨notMem_decode reached_idle hpos hb h, fun hmem => ?_⟩
  have hflush : Beyond 0 (flush (decode idle bs).2) := by
    unfold flush
    split
    · simp [Beyond]
    · exact beyond_replacement 0
  have hcases := hflush _ hmem
  rw [toNat_ascii hb] at hcases
  omega

/-! ### The text decoder -/

structure TextDecoder where
  decoder : Decoder := idle
  bomSeen : Bool := false

/-- The first character is dropped when it is the mark. -/
def dropMark : Bool → List Char → List Char × Bool
  | true, cs => (cs, true)
  | false, [] => ([], false)
  | false, c :: cs => (if c = byteOrderMark then cs else c :: cs, true)

theorem dropMark_append (seen : Bool) (cs ds : List Char) :
    dropMark seen (cs ++ ds) =
      ((dropMark seen cs).1 ++ (dropMark (dropMark seen cs).2 ds).1,
        (dropMark (dropMark seen cs).2 ds).2) := by
  cases seen with
  | true => rfl
  | false =>
    cases cs with
    | nil => rfl
    | cons c cs =>
      simp only [List.cons_append, dropMark]
      split <;> rfl

namespace TextDecoder

/-- `decode(chunk, { stream: true })` -/
def read (t : TextDecoder) (chunk : List UInt8) : List Char × TextDecoder :=
  let (cs, decoder) := decode t.decoder chunk
  let (cs, bomSeen) := dropMark t.bomSeen cs
  (cs, ⟨decoder, bomSeen⟩)

/-- `decode()` -/
def finish (t : TextDecoder) : List Char := (dropMark t.bomSeen (flush t.decoder)).1

theorem read_nil (t : TextDecoder) : t.read [] = ([], t) := by
  obtain ⟨decoder, bomSeen⟩ := t
  cases bomSeen <;> rfl

theorem read_append (t : TextDecoder) (bs bs' : List UInt8) :
    t.read (bs ++ bs') = ((t.read bs).1 ++ ((t.read bs).2.read bs').1, ((t.read bs).2.read bs').2) := by
  simp only [read, decode_append, dropMark_append]

theorem read_encode {cs : List Char} (h : cs.head? ≠ some byteOrderMark) :
    (read {} (encode cs)).1 = cs ∧ (read {} (encode cs)).2.finish = [] := by
  have hread : read {} (encode cs) = ((dropMark false cs).1, ⟨idle, (dropMark false cs).2⟩) := by
    simp only [read, decode_encode]
  rw [hread]
  cases cs with
  | nil => exact ⟨rfl, rfl⟩
  | cons c cs =>
    have hc : c ≠ byteOrderMark := by simpa using h
    simp only [dropMark, if_neg hc, true_and]
    rfl

end TextDecoder

end Utf8
