import BeeAgent.Data.Value

/-! Texts by their UTF-16 code units: how long they are and what is cut off them. -/
namespace BeeAgent.Data

/-- The first code units of a text; a pair that the cut splits leaves a replacement character. -/
def takeUnits : ℕ → List Char → List Char
  | 0, _ | _, [] => []
  | n + 1, c :: cs =>
    if c.toNat < 0x10000 then c :: takeUnits n cs
    else if n = 0 then [Char.ofNat 0xFFFD]
    else c :: takeUnits (n - 1) cs

/-- `slice(0, end)`, by code units. -/
def sliceText (text : String) (end_ : ℤ) : String :=
  let length : ℤ := (utf16 text).length
  String.ofList (takeUnits (if end_ < 0 then length + end_ else end_).toNat text.toList)

theorem length_utf16_cons (c : Char) (cs : List Char) :
    (utf16 (String.ofList (c :: cs))).length =
      (if c.toNat < 0x10000 then 1 else 2) + (utf16 (String.ofList cs)).length := by
  simp only [utf16, String.toList_ofList, List.flatMap_cons, List.length_append]
  split <;> rfl

theorem length_takeUnits (n : ℕ) (cs : List Char) :
    (utf16 (String.ofList (takeUnits n cs))).length =
      min n (utf16 (String.ofList cs)).length := by
  induction cs generalizing n with
  | nil => cases n <;> simp [takeUnits, utf16]
  | cons c cs ih =>
    cases n with
    | zero => simp [takeUnits, utf16]
    | succ n =>
      rw [takeUnits, length_utf16_cons]
      split
      · rw [length_utf16_cons, ih, if_pos ‹_›]
        omega
      · next hpair =>
        split
        · next hn =>
          subst hn
          have hone : (utf16 (String.ofList [Char.ofNat 0xFFFD])).length = 1 := by decide +kernel
          omega
        · rw [length_utf16_cons, ih, if_neg hpair]
          omega

theorem length_utf16_append (a b : String) :
    (utf16 (a ++ b)).length = (utf16 a).length + (utf16 b).length := by
  simp [utf16]

theorem length_utf16_eq_zero {text : String} : (utf16 text).length = 0 ↔ text = "" := by
  constructor
  · intro h
    cases htext : text.toList with
    | nil => exact String.toList_eq_nil_iff.mp htext
    | cons c cs =>
      rw [← String.ofList_toList (s := text), htext, length_utf16_cons] at h
      split at h <;> omega
  · rintro rfl
    rfl

end BeeAgent.Data
