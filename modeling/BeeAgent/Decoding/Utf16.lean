import BeeAgent.Decoding.Utf8

/-! Texts as UTF-16 code units, cut anywhere, and what they measure in UTF-8: a pair of surrogates
is one character of four bytes, a surrogate alone is replaced. -/
namespace Utf16

def isHigh (u : UInt16) : Bool := 0xD800 ≤ u.toNat && u.toNat < 0xDC00

def isLow (u : UInt16) : Bool := 0xDC00 ≤ u.toNat && u.toNat < 0xE000

def unitLength (u : UInt16) : ℕ :=
  if u.toNat < 0x80 then 1 else if u.toNat < 0x800 then 2 else 3

def utf8Length : List UInt16 → ℕ
  | [] => 0
  | [u] => unitLength u
  | u :: v :: units =>
    if isHigh u ∧ isLow v then 4 + utf8Length units else unitLength u + utf8Length (v :: units)

theorem unitLength_pos (u : UInt16) : 1 ≤ unitLength u := by
  unfold unitLength
  split
  · exact Nat.le_refl 1
  · split <;> decide

theorem length_le (units : List UInt16) : units.length ≤ utf8Length units := by
  induction units using utf8Length.induct with
  | case1 => exact Nat.le_refl 0
  | case2 u => exact unitLength_pos u
  | case3 u v units h ih =>
    rw [utf8Length, if_pos h, List.length_cons, List.length_cons]
    omega
  | case4 u v units h ih =>
    have hu := unitLength_pos u
    rw [utf8Length, if_neg h, List.length_cons]
    omega

/-- What does not begin with the second half of a pair adds its own length. -/
theorem utf8Length_append {more : List UInt16} (h : ∀ u ∈ more.head?, isLow u = false)
    (units : List UInt16) : utf8Length (units ++ more) = utf8Length units + utf8Length more := by
  induction units using utf8Length.induct with
  | case1 => rw [List.nil_append, utf8Length, Nat.zero_add]
  | case2 u =>
    cases more with
    | nil => simp [utf8Length]
    | cons v more =>
      have hv : ¬(isHigh u ∧ isLow v) := by simp [h v rfl]
      rw [List.singleton_append, utf8Length, utf8Length, if_neg hv]
  | case3 u v units hpair ih =>
    rw [List.cons_append, List.cons_append, utf8Length, if_pos hpair, utf8Length, if_pos hpair, ih]
    omega
  | case4 u v units hpair ih =>
    rw [List.cons_append, List.cons_append, utf8Length, if_neg hpair, utf8Length, if_neg hpair,
      ← List.cons_append, ih]
    omega

/-! ### Characters -/

def ofChar (c : Char) : List UInt16 :=
  if c.toNat < 0x10000 then [.ofNat c.toNat]
  else [.ofNat (0xD800 + (c.toNat - 0x10000) / 0x400),
    .ofNat (0xDC00 + (c.toNat - 0x10000) % 0x400)]

def encode (cs : List Char) : List UInt16 := cs.flatMap ofChar

theorem isLow_ofChar (c : Char) : ∀ u ∈ (ofChar c).head?, isLow u = false := by
  have hc := Utf8.toNat_lt c
  intro u hu
  unfold ofChar at hu
  split at hu
  all_goals
    obtain rfl := Option.some.inj hu
    simp only [isLow, UInt16.toNat_ofNat', Bool.and_eq_false_iff, decide_eq_false_iff_not]
    omega

theorem isLow_encode (cs : List Char) : ∀ u ∈ (encode cs).head?, isLow u = false := by
  cases cs with
  | nil => simp [encode]
  | cons c cs =>
    have hne : ofChar c ≠ [] := by unfold ofChar; split <;> simp
    rw [encode, List.flatMap_cons, List.head?_append_of_ne_nil _ hne]
    exact isLow_ofChar c

theorem utf8Length_ofChar (c : Char) :
    utf8Length (ofChar c) = (String.utf8EncodeChar c).length := by
  have hc := Utf8.toNat_lt c
  have hval : c.val.toNat = c.toNat := rfl
  have hunit : ∀ n, n < 0x10000 → (UInt16.ofNat n).toNat = n := fun n hn => by
    rw [UInt16.toNat_ofNat', Nat.mod_eq_of_lt hn]
  rw [String.length_utf8EncodeChar]
  unfold ofChar
  split
  · next hsmall =>
    rw [utf8Length, unitLength, hunit _ hsmall]
    simp only [Char.utf8Size, UInt32.le_iff_toNat_le, hval, UInt32.toNat_ofNatLT]
    repeat' split
    all_goals omega
  · next hlarge =>
    have hhigh : isHigh (.ofNat (0xD800 + (c.toNat - 0x10000) / 0x400)) := by
      rw [isHigh, hunit _ (by omega)]
      simp only [Bool.and_eq_true, decide_eq_true_eq]
      omega
    have hlow : isLow (.ofNat (0xDC00 + (c.toNat - 0x10000) % 0x400)) := by
      rw [isLow, hunit _ (by omega)]
      simp only [Bool.and_eq_true, decide_eq_true_eq]
      omega
    rw [utf8Length, if_pos ⟨hhigh, hlow⟩, utf8Length]
    simp only [Char.utf8Size, UInt32.le_iff_toNat_le, hval, UInt32.toNat_ofNatLT]
    rw [if_neg (by omega), if_neg (by omega), if_neg (by omega)]

/-- The last position at which the needle starts. -/
def lastIndexOf {α : Type} [DecidableEq α] (needle : List α) : List α → Option ℕ
  | [] => if needle = [] then some 0 else none
  | c :: cs =>
    match lastIndexOf needle cs with
    | some i => some (i + 1)
    | none => if needle <+: c :: cs then some 0 else none

theorem lastIndexOf_head {α : Type} [DecidableEq α] {a : α} {more cs : List α} {i : ℕ}
    (h : lastIndexOf (a :: more) cs = some i) : ∃ j, lastIndexOf [a] cs = some j ∧ i ≤ j := by
  induction cs generalizing i with
  | nil => simp [lastIndexOf] at h
  | cons c cs ih =>
    rw [lastIndexOf] at h ⊢
    cases htail : lastIndexOf (a :: more) cs with
    | some k =>
      rw [htail] at h
      obtain rfl := Option.some.inj h
      obtain ⟨j, hj, hle⟩ := ih htail
      exact ⟨j + 1, by rw [hj], Nat.succ_le_succ hle⟩
    | none =>
      rw [htail] at h
      dsimp only at h
      split at h
      · next hprefix =>
        obtain rfl := Option.some.inj h
        have ha : a = c := (List.cons_prefix_cons.mp hprefix).1
        cases lastIndexOf [a] cs with
        | some j => exact ⟨j + 1, rfl, Nat.zero_le _⟩
        | none => exact ⟨0, by simp [ha], Nat.le_refl _⟩
      · cases h

end Utf16
