import BeeAgent.Data.Value
import Mathlib.Algebra.Order.Field.Basic
import Mathlib.Algebra.Order.Field.Rat
import Mathlib.Tactic.IntervalCases
import Mathlib.Tactic.Linarith

/-! ISO date-times in UTC: their texts, the instants that they name, and when the order of the texts
is that of the instants. -/
namespace BeeAgent.Data

/-! ### The calendar -/

def isLeapYear (year : ℕ) : Bool := year % 4 = 0 && (year % 100 ≠ 0 || year % 400 = 0)

def daysInMonth (year : ℕ) : ℕ → ℕ
  | 2 => if isLeapYear year then 29 else 28
  | 4 | 6 | 9 | 11 => 30
  | 1 | 3 | 5 | 7 | 8 | 10 | 12 => 31
  | _ => 0

def daysBeforeMonth (year : ℕ) : ℕ → ℕ
  | 0 => 0
  | month + 1 => daysBeforeMonth year month + daysInMonth year month

def daysBeforeYear : ℕ → ℕ
  | 0 => 0
  | year + 1 => daysBeforeYear year + daysBeforeMonth year 13

structure CivilDate where
  year : ℕ
  month : ℕ
  day : ℕ
  year_lt : year < 10000
  day_pos : 0 < day
  day_le : day ≤ daysInMonth year month

namespace CivilDate

/-- Days since the first of January of the year 0. -/
def dayNumber (date : CivilDate) : ℕ :=
  daysBeforeYear date.year + daysBeforeMonth date.year date.month + (date.day - 1)

def Before (a b : CivilDate) : Prop :=
  a.year < b.year ∨ a.year = b.year ∧ (a.month < b.month ∨ a.month = b.month ∧ a.day < b.day)

end CivilDate

theorem daysBeforeMonth_le {year month month' : ℕ} (h : month ≤ month') :
    daysBeforeMonth year month ≤ daysBeforeMonth year month' := by
  induction month', h using Nat.le_induction with
  | base => exact le_rfl
  | succ n _ ih => exact ih.trans (Nat.le_add_right ..)

theorem daysBeforeYear_le {year year' : ℕ} (h : year ≤ year') :
    daysBeforeYear year ≤ daysBeforeYear year' := by
  induction year', h using Nat.le_induction with
  | base => exact le_rfl
  | succ n _ ih => exact ih.trans (Nat.le_add_right ..)

namespace CivilDate

variable {a b : CivilDate}

theorem month_bounds (a : CivilDate) : 1 ≤ a.month ∧ a.month ≤ 12 := by
  by_contra h
  have hzero : daysInMonth a.year a.month = 0 := by
    rw [daysInMonth.eq_def]
    split <;> omega
  have := a.day_pos
  have := a.day_le
  omega

theorem day_lt (a : CivilDate) : a.day < 100 := by
  have := a.day_le
  have hle : daysInMonth a.year a.month ≤ 31 := by
    rw [daysInMonth.eq_def]
    split
    · split <;> omega
    all_goals omega
  omega

theorem dayNumber_lt_of_before (h : a.Before b) : a.dayNumber < b.dayNumber := by
  have hmonths : daysBeforeMonth a.year a.month + a.day ≤ daysBeforeMonth a.year (a.month + 1) := by
    rw [daysBeforeMonth]
    exact Nat.add_le_add_left a.day_le _
  have hpos := a.day_pos
  have hpos' := b.day_pos
  rw [dayNumber, dayNumber]
  obtain hyear | ⟨hyear, hmonth | ⟨hmonth, hday⟩⟩ := h
  · have hlast := a.month_bounds
    have hdays : daysBeforeMonth a.year (a.month + 1) ≤ daysBeforeMonth a.year 13 :=
      daysBeforeMonth_le (by omega)
    have hyears : daysBeforeYear (a.year + 1) ≤ daysBeforeYear b.year := daysBeforeYear_le hyear
    rw [daysBeforeYear] at hyears
    omega
  · have hdays : daysBeforeMonth a.year (a.month + 1) ≤ daysBeforeMonth a.year b.month :=
      daysBeforeMonth_le hmonth
    rw [← hyear]
    omega
  · rw [← hyear, ← hmonth]
    omega

theorem ext_of (hyear : a.year = b.year) (hmonth : a.month = b.month) (hday : a.day = b.day) :
    a = b := by
  cases a
  cases b
  simp only at hyear hmonth hday
  subst hyear hmonth hday
  rfl

theorem trichotomy (a b : CivilDate) : a.Before b ∨ a = b ∨ b.Before a := by
  obtain hyear | hyear | hyear := lt_trichotomy a.year b.year
  · exact .inl (.inl hyear)
  · obtain hmonth | hmonth | hmonth := lt_trichotomy a.month b.month
    · exact .inl (.inr ⟨hyear, .inl hmonth⟩)
    · obtain hday | hday | hday := lt_trichotomy a.day b.day
      · exact .inl (.inr ⟨hyear, .inr ⟨hmonth, hday⟩⟩)
      · exact .inr (.inl (ext_of hyear hmonth hday))
      · exact .inr (.inr (.inr ⟨hyear.symm, .inr ⟨hmonth.symm, hday⟩⟩))
    · exact .inr (.inr (.inr ⟨hyear.symm, .inl hmonth⟩))
  · exact .inr (.inr (.inl hyear))

end CivilDate

/-! ### Texts and instants -/

/-- The seconds of a time, with the digits of their fraction. -/
structure Seconds where
  whole : ℕ
  fraction : List (Fin 10)
  whole_lt : whole < 60

/-- A date-time as the schemas accept it: the seconds may be missing, their fraction is of any
precision, and it is in UTC. -/
structure IsoDateTime where
  date : CivilDate
  hour : ℕ
  minute : ℕ
  seconds : Option Seconds
  hour_lt : hour < 24
  minute_lt : minute < 60

def digit (n : ℕ) : Char := Char.ofNat (48 + n % 10)

def twoDigits (n : ℕ) : List Char := [digit (n / 10), digit n]

def fourDigits (n : ℕ) : List Char := twoDigits (n / 100) ++ twoDigits (n % 100)

def fractionDigits (fraction : List (Fin 10)) : List Char := fraction.map fun d => digit d.val

def Seconds.text (seconds : Seconds) : List Char :=
  ':' :: twoDigits seconds.whole ++
    if seconds.fraction = [] then [] else '.' :: fractionDigits seconds.fraction

/-- The value of digits behind the point. -/
def fractionValue : List (Fin 10) → ℚ
  | [] => 0
  | d :: ds => (d.val + fractionValue ds) / 10

def Seconds.value (seconds : Seconds) : ℚ := seconds.whole + fractionValue seconds.fraction

namespace IsoDateTime

def minuteText (t : IsoDateTime) : List Char :=
  fourDigits t.date.year ++ '-' :: (twoDigits t.date.month ++ '-' :: (twoDigits t.date.day ++
    'T' :: (twoDigits t.hour ++ ':' :: twoDigits t.minute)))

def secondsText (t : IsoDateTime) : List Char := (t.seconds.map Seconds.text).getD []

/-- The text without the `Z` that ends it. -/
def stem (t : IsoDateTime) : List Char := t.minuteText ++ t.secondsText

def text (t : IsoDateTime) : String := String.ofList (t.stem ++ ['Z'])

def minuteNumber (t : IsoDateTime) : ℕ := (t.date.dayNumber * 24 + t.hour) * 60 + t.minute

/-- Seconds since the start of the year 0. -/
def instant (t : IsoDateTime) : ℚ :=
  t.minuteNumber * 60 + (t.seconds.map Seconds.value).getD 0

end IsoDateTime

/-- The second does not go on where the first ends, and the first goes on where the second ends with
nothing but zeros. -/
def Aligned (a b : List Char) : Prop :=
  (a <+: b → a = b) ∧ ∀ rest, a = b ++ rest → ∀ c ∈ rest, c = '0' ∨ c = ':' ∨ c = '.'

/-! ### The order of the texts -/

/-- The order of two texts by their code units, where each is ended by a `Z`. -/
def TextLe (a b : List Char) : Prop :=
  (a ++ ['Z']).map Char.toNat ≤ (b ++ ['Z']).map Char.toNat

def Parts (a b : List Char) : Prop :=
  ∃ p c d r s, a = p ++ c :: r ∧ b = p ++ d :: s ∧ Char.toNat c < Char.toNat d

variable {a b : List Char}

theorem units_le_cons {m n : ℕ} {xs ys : List ℕ} :
    m :: xs ≤ n :: ys ↔ m < n ∨ m = n ∧ xs ≤ ys := by
  rw [← not_lt, List.cons_lt_cons_iff, ← not_lt]
  obtain h | h | h := lt_trichotomy m n
  · simp [h, h.not_gt, h.ne']
  · simp [h]
  · simp [h, h.not_gt, h.ne']

@[simp] theorem textLe_nil : TextLe [] [] := le_refl _

theorem textLe_nil_cons {c : Char} (h : c.toNat < 'Z'.toNat) : ¬ TextLe [] (c :: b) := by
  rintro hle
  have := units_le_cons.mp hle
  omega

theorem textLe_cons_nil {c : Char} (h : c.toNat < 'Z'.toNat) : TextLe (c :: a) [] :=
  units_le_cons.mpr (.inl h)

theorem textLe_cons_cons {c d : Char} :
    TextLe (c :: a) (d :: b) ↔ c.toNat < d.toNat ∨ c.toNat = d.toNat ∧ TextLe a b :=
  units_le_cons

theorem textLe_append (p : List Char) : TextLe (p ++ a) (p ++ b) ↔ TextLe a b := by
  induction p with
  | nil => rfl
  | cons c p ih => simp [textLe_cons_cons, ih]

theorem aligned_append (p : List Char) : Aligned (p ++ a) (p ++ b) ↔ Aligned a b := by
  simp only [Aligned, List.prefix_append_right_inj, List.append_cancel_left_eq,
    List.append_assoc]

theorem Parts.cons (c : Char) (h : Parts a b) : Parts (c :: a) (c :: b) := by
  obtain ⟨p, d, e, r, s, rfl, rfl, hlt⟩ := h
  exact ⟨c :: p, d, e, r, s, rfl, rfl, hlt⟩

theorem Parts.append_left (p : List Char) (h : Parts a b) : Parts (p ++ a) (p ++ b) := by
  induction p with
  | nil => exact h
  | cons c p ih => exact ih.cons c

theorem Parts.append (h : Parts a b) (x y : List Char) : Parts (a ++ x) (b ++ y) := by
  obtain ⟨p, c, d, r, s, rfl, rfl, hlt⟩ := h
  exact ⟨p, c, d, r ++ x, s ++ y, by simp, by simp, hlt⟩

theorem Parts.textLe (h : Parts a b) : TextLe a b ∧ ¬ TextLe b a := by
  obtain ⟨p, c, d, r, s, rfl, rfl, hlt⟩ := h
  rw [textLe_append, textLe_append, textLe_cons_cons, textLe_cons_cons]
  omega

theorem Parts.aligned (h : Parts a b) : Aligned a b ∧ Aligned b a := by
  obtain ⟨p, c, d, r, s, rfl, rfl, hlt⟩ := h
  have hne : c ≠ d := by
    rintro rfl
    omega
  rw [aligned_append, aligned_append]
  refine ⟨⟨fun hp => ?_, fun rest hr => ?_⟩, ⟨fun hp => ?_, fun rest hr => ?_⟩⟩
  · exact absurd (List.cons_prefix_cons.mp hp).1 hne
  · exact absurd (List.cons.inj hr).1 hne
  · exact absurd (List.cons_prefix_cons.mp hp).1 hne.symm
  · exact absurd (List.cons.inj hr).1 hne.symm

/-- The order of the texts is that of the values exactly when the texts are aligned. -/
def Follows (a b : List Char) (x y : ℚ) : Prop := (TextLe a b ↔ x ≤ y) ↔ Aligned a b

section Follows
variable {x y : ℚ}

theorem follows_append (p : List Char) : Follows (p ++ a) (p ++ b) x y ↔ Follows a b x y := by
  rw [Follows, textLe_append, aligned_append, Follows]

theorem follows_cons (c : Char) : Follows (c :: a) (c :: b) x y ↔ Follows a b x y :=
  follows_append [c]

theorem Parts.follows (h : Parts a b) (hlt : x < y) : Follows a b x y ∧ Follows b a y x := by
  simp [Follows, h.textLe.1, h.textLe.2, h.aligned.1, h.aligned.2, hlt.le, not_le.mpr hlt]

theorem follows_nil_nil : Follows [] [] x x := by
  simp [Follows, Aligned]

theorem follows_nil_cons {c : Char} (hc : c.toNat < 'Z'.toNat) (h : x ≤ y) :
    Follows [] (c :: b) x y := by
  simp [Follows, textLe_nil_cons hc, h, Aligned]

theorem follows_cons_nil {c : Char} (hc : c.toNat < 'Z'.toNat)
    (h : x ≤ y ↔ ∀ d ∈ c :: a, d = '0' ∨ d = ':' ∨ d = '.') : Follows (c :: a) [] x y := by
  have haligned : Aligned (c :: a) [] ↔ ∀ d ∈ c :: a, d = '0' ∨ d = ':' ∨ d = '.' := by
    simp only [Aligned, List.prefix_nil, List.nil_append, reduceCtorEq, imp_self, true_and]
    exact ⟨fun h => h _ rfl, fun h rest heq => heq ▸ h⟩
  rw [Follows, haligned, h]
  simp [textLe_cons_nil hc]

end Follows

theorem toNat_digit (n : ℕ) : (digit n).toNat = 48 + n % 10 := by
  have h : n % 10 < 10 := Nat.mod_lt _ (by decide)
  rw [digit]
  generalize n % 10 = k at h
  interval_cases k <;> rfl

theorem parts_digit {m n : ℕ} (h : m % 10 < n % 10) (x y : List Char) :
    Parts (digit m :: x) (digit n :: y) :=
  ⟨[], digit m, digit n, x, y, rfl, rfl, by rw [toNat_digit, toNat_digit]; omega⟩

theorem digit_congr {m n : ℕ} (h : m % 10 = n % 10) : digit m = digit n := by
  rw [digit, digit, h]

theorem parts_twoDigits {m n : ℕ} (h : m < n) (hn : n < 100) :
    Parts (twoDigits m) (twoDigits n) := by
  by_cases htens : m / 10 < n / 10
  · exact parts_digit (by omega) _ _
  · rw [twoDigits, twoDigits, digit_congr (m := m / 10) (n := n / 10) (by omega)]
    exact (parts_digit (by omega) [] []).cons _

theorem parts_fourDigits {m n : ℕ} (h : m < n) (hn : n < 10000) :
    Parts (fourDigits m) (fourDigits n) := by
  by_cases hhundreds : m / 100 < n / 100
  · exact (parts_twoDigits hhundreds (by omega)).append _ _
  · have heq : m / 100 = n / 100 := by omega
    rw [fourDigits, fourDigits, heq]
    exact (parts_twoDigits (by omega) (by omega)).append_left _

theorem digit_lt (n : ℕ) : (digit n).toNat < 'Z'.toNat := by
  have h : n % 10 < 10 := Nat.mod_lt _ (by decide)
  rw [toNat_digit]
  exact lt_of_lt_of_le (Nat.add_lt_add_left h 48) (by decide)

theorem digit_neutral (n : ℕ) : (digit n = '0' ∨ digit n = ':' ∨ digit n = '.') ↔ n % 10 = 0 := by
  have h : n % 10 < 10 := Nat.mod_lt _ (by decide)
  rw [digit]
  generalize n % 10 = k at h
  interval_cases k <;> decide

/-! ### The fraction and the seconds -/

section Fractions
variable {ds es : List (Fin 10)}

theorem fractionValue_nonneg (ds : List (Fin 10)) : 0 ≤ fractionValue ds := by
  induction ds with
  | nil => exact le_rfl
  | cons d ds ih =>
    exact div_nonneg (add_nonneg (Nat.cast_nonneg _) ih) (by norm_num)

theorem fractionValue_lt_one (ds : List (Fin 10)) : fractionValue ds < 1 := by
  induction ds with
  | nil => exact one_pos
  | cons d ds ih =>
    have hd : (d.val : ℚ) ≤ 9 := by exact_mod_cast Nat.le_of_lt_succ d.isLt
    rw [fractionValue, div_lt_one (by norm_num)]
    linarith

theorem fractionValue_le_zero : fractionValue ds ≤ 0 ↔ ∀ d ∈ ds, d.val = 0 := by
  induction ds with
  | nil => simp [fractionValue]
  | cons d ds ih =>
    have hnonneg := fractionValue_nonneg ds
    have hd : (0 : ℚ) ≤ d.val := Nat.cast_nonneg _
    rw [List.forall_mem_cons, ← ih, fractionValue, div_le_iff₀ (by norm_num), zero_mul]
    constructor
    · intro h
      have hzero : (d.val : ℚ) = 0 := by linarith
      exact ⟨by exact_mod_cast hzero, by linarith⟩
    · rintro ⟨hzero, h⟩
      rw [hzero, Nat.cast_zero, zero_add]
      exact h

theorem fractionDigits_neutral :
    (∀ c ∈ fractionDigits ds, c = '0' ∨ c = ':' ∨ c = '.') ↔ ∀ d ∈ ds, d.val = 0 := by
  rw [fractionDigits, List.forall_mem_map]
  refine forall₂_congr fun d _ => ?_
  rw [digit_neutral, Nat.mod_eq_of_lt d.isLt]

theorem follows_fraction (ds es : List (Fin 10)) :
    Follows (fractionDigits ds) (fractionDigits es) (fractionValue ds) (fractionValue es) := by
  induction ds generalizing es with
  | nil =>
    cases es with
    | nil => exact follows_nil_nil
    | cons e es => exact follows_nil_cons (digit_lt _) (fractionValue_nonneg _)
  | cons d ds ih =>
    cases es with
    | nil =>
      refine follows_cons_nil (digit_lt _) ?_
      exact fractionValue_le_zero.trans fractionDigits_neutral.symm
    | cons e es =>
      have hd := d.isLt
      have he := e.isLt
      have hless : ∀ {d e : Fin 10} {ds es : List (Fin 10)}, d.val < e.val →
          fractionValue (d :: ds) < fractionValue (e :: es) := by
        intro d e ds es h
        have hcast : (d.val : ℚ) + 1 ≤ e.val := by exact_mod_cast h
        have := fractionValue_lt_one ds
        have := fractionValue_nonneg es
        rw [fractionValue, fractionValue]
        exact div_lt_div_of_pos_right (by linarith) (by norm_num)
      obtain h | h | h := lt_trichotomy d.val e.val
      · exact ((parts_digit (by omega) _ _).follows (hless h)).1
      · obtain rfl : d = e := Fin.ext h
        have htail : fractionValue (d :: ds) ≤ fractionValue (d :: es) ↔
            fractionValue ds ≤ fractionValue es := by
          rw [fractionValue, fractionValue, div_le_div_iff_of_pos_right (by norm_num),
            add_le_add_iff_left]
        have hfollows := (follows_cons (digit d.val)).mpr (ih es)
        rw [Follows, ← htail] at hfollows
        exact hfollows
      · exact ((parts_digit (by omega) _ _).follows (hless h)).2

end Fractions

namespace Seconds

theorem value_nonneg (s : Seconds) : 0 ≤ s.value :=
  add_nonneg (Nat.cast_nonneg _) (fractionValue_nonneg _)

theorem value_lt (s : Seconds) : s.value < 60 := by
  have hwhole : (s.whole : ℚ) + 1 ≤ 60 := by exact_mod_cast s.whole_lt
  have := fractionValue_lt_one s.fraction
  rw [value]
  linarith

theorem value_lt_of_whole {s t : Seconds} (h : s.whole < t.whole) : s.value < t.value := by
  have hwhole : (s.whole : ℚ) + 1 ≤ t.whole := by exact_mod_cast h
  have := fractionValue_lt_one s.fraction
  have := fractionValue_nonneg t.fraction
  rw [value, value]
  linarith

theorem text_neutral (s : Seconds) :
    (∀ c ∈ s.text, c = '0' ∨ c = ':' ∨ c = '.') ↔ s.value ≤ 0 := by
  have hnonneg := fractionValue_nonneg s.fraction
  have hvalue : s.value ≤ 0 ↔ s.whole = 0 ∧ fractionValue s.fraction ≤ 0 := by
    have hwhole : (0 : ℚ) ≤ s.whole := Nat.cast_nonneg _
    rw [value]
    constructor
    · intro h
      have hzero : (s.whole : ℚ) = 0 := by linarith
      exact ⟨by exact_mod_cast hzero, by linarith⟩
    · rintro ⟨hzero, h⟩
      rw [hzero, Nat.cast_zero, zero_add]
      exact h
  have hlt := s.whole_lt
  have htwo : (∀ c ∈ twoDigits s.whole, c = '0' ∨ c = ':' ∨ c = '.') ↔ s.whole = 0 := by
    simp only [twoDigits, List.forall_mem_cons, digit_neutral]
    simp only [List.not_mem_nil, false_implies, implies_true, and_true]
    omega
  rw [hvalue, ← htwo, fractionValue_le_zero, ← fractionDigits_neutral, text]
  split
  · next hnil => simp [hnil, fractionDigits]
  · simp only [List.cons_append, List.forall_mem_cons, List.forall_mem_append]
    simp

end Seconds

theorem follows_fractionText (fs gs : List (Fin 10)) :
    Follows (if fs = [] then [] else '.' :: fractionDigits fs)
      (if gs = [] then [] else '.' :: fractionDigits gs) (fractionValue fs) (fractionValue gs) := by
  cases fs with
  | nil =>
    cases gs with
    | nil => exact follows_nil_nil
    | cons e es => exact follows_nil_cons (by decide) (fractionValue_nonneg _)
  | cons d ds =>
    cases gs with
    | nil =>
      refine follows_cons_nil (by decide) ?_
      rw [List.forall_mem_cons, fractionDigits_neutral, ← fractionValue_le_zero]
      simp only [fractionValue, or_true, true_and]
    | cons e es => exact (follows_cons '.').mpr (follows_fraction _ _)

theorem follows_seconds (s t : Option Seconds) :
    Follows ((s.map Seconds.text).getD []) ((t.map Seconds.text).getD [])
      ((s.map Seconds.value).getD 0) ((t.map Seconds.value).getD 0) := by
  rcases s with _ | s <;> rcases t with _ | t
  · exact follows_nil_nil
  · exact follows_nil_cons (by decide) t.value_nonneg
  · exact follows_cons_nil (by decide) s.text_neutral.symm
  · have hs := s.whole_lt
    have ht := t.whole_lt
    have hparts : ∀ {s t : Seconds}, s.whole < t.whole → Parts s.text t.text := fun {s t} h =>
      (((parts_twoDigits h (by have := t.whole_lt; omega)).append _ _).cons ':')
    show Follows s.text t.text s.value t.value
    obtain h | h | h := lt_trichotomy s.whole t.whole
    · exact ((hparts h).follows (Seconds.value_lt_of_whole h)).1
    · have hvalue : s.value ≤ t.value ↔ fractionValue s.fraction ≤ fractionValue t.fraction := by
        rw [Seconds.value, Seconds.value, h, add_le_add_iff_left]
      have hfollows := (follows_append (':' :: twoDigits t.whole)).mpr
        (follows_fractionText s.fraction t.fraction)
      rw [Follows, ← hvalue] at hfollows
      rw [Follows, Seconds.text, Seconds.text, h]
      exact hfollows
    · exact ((hparts h).follows (Seconds.value_lt_of_whole h)).2

namespace IsoDateTime

variable {a b : IsoDateTime}

def MinuteBefore (a b : IsoDateTime) : Prop :=
  a.date.Before b.date ∨ a.date = b.date ∧ (a.hour < b.hour ∨ a.hour = b.hour ∧ a.minute < b.minute)

theorem minuteNumber_lt (h : a.MinuteBefore b) : a.minuteNumber < b.minuteNumber := by
  have := a.hour_lt
  have := a.minute_lt
  rw [minuteNumber, minuteNumber]
  obtain h | ⟨hdate, h⟩ := h
  · have := CivilDate.dayNumber_lt_of_before h
    omega
  · rw [hdate]
    omega

theorem parts_date {x y : List Char} {d e : CivilDate} (h : d.Before e) :
    Parts (fourDigits d.year ++ '-' :: (twoDigits d.month ++ '-' :: (twoDigits d.day ++ x)))
      (fourDigits e.year ++ '-' :: (twoDigits e.month ++ '-' :: (twoDigits e.day ++ y))) := by
  obtain hyear | ⟨hyear, h⟩ := h
  · exact (parts_fourDigits hyear e.year_lt).append _ _
  · rw [hyear]
    refine Parts.append_left _ (Parts.cons _ ?_)
    obtain hmonth | ⟨hmonth, hday⟩ := h
    · exact (parts_twoDigits hmonth (by have := e.month_bounds; omega)).append _ _
    · rw [hmonth]
      exact Parts.append_left _ (((parts_twoDigits hday e.day_lt).append _ _).cons _)

theorem parts_minuteText (h : a.MinuteBefore b) : Parts a.minuteText b.minuteText := by
  obtain h | ⟨hdate, h⟩ := h
  · exact parts_date h
  · rw [minuteText, minuteText, hdate]
    refine Parts.append_left _ (Parts.cons _ (Parts.append_left _ (Parts.cons _
      (Parts.append_left _ (Parts.cons _ ?_)))))
    have := b.hour_lt
    have := b.minute_lt
    obtain hhour | ⟨hhour, hminute⟩ := h
    · exact (parts_twoDigits hhour (by omega)).append _ _
    · rw [hhour]
      exact Parts.append_left _ ((parts_twoDigits hminute (by omega)).cons _)

theorem minute_trichotomy (a b : IsoDateTime) :
    a.MinuteBefore b ∨ (a.date = b.date ∧ a.hour = b.hour ∧ a.minute = b.minute) ∨
      b.MinuteBefore a := by
  obtain hdate | hdate | hdate := a.date.trichotomy b.date
  · exact .inl (.inl hdate)
  · obtain hhour | hhour | hhour := lt_trichotomy a.hour b.hour
    · exact .inl (.inr ⟨hdate, .inl hhour⟩)
    · obtain hminute | hminute | hminute := lt_trichotomy a.minute b.minute
      · exact .inl (.inr ⟨hdate, .inr ⟨hhour, hminute⟩⟩)
      · exact .inr (.inl ⟨hdate, hhour, hminute⟩)
      · exact .inr (.inr (.inr ⟨hdate.symm, .inr ⟨hhour.symm, hminute⟩⟩))
    · exact .inr (.inr (.inr ⟨hdate.symm, .inl hhour⟩))
  · exact .inr (.inr (.inl hdate))

theorem instant_lt (h : a.MinuteBefore b) : a.instant < b.instant := by
  have hminutes : (a.minuteNumber : ℚ) + 1 ≤ b.minuteNumber := by
    exact_mod_cast minuteNumber_lt h
  have hbelow : (a.seconds.map Seconds.value).getD 0 < 60 := by
    cases a.seconds with
    | none => norm_num
    | some s => exact s.value_lt
  have habove : 0 ≤ (b.seconds.map Seconds.value).getD 0 := by
    cases b.seconds with
    | none => exact le_rfl
    | some s => exact s.value_nonneg
  rw [instant, instant]
  linarith

/-- The order of the stems follows that of the instants exactly where the stems are aligned. -/
theorem follows_stem (a b : IsoDateTime) : Follows a.stem b.stem a.instant b.instant := by
  obtain h | ⟨hdate, hhour, hminute⟩ | h := a.minute_trichotomy b
  · exact (((parts_minuteText h).append _ _).follows (instant_lt h)).1
  · have htext : a.minuteText = b.minuteText := by
      rw [minuteText, minuteText, hdate, hhour, hminute]
    have hinstant : a.instant ≤ b.instant ↔
        (a.seconds.map Seconds.value).getD 0 ≤ (b.seconds.map Seconds.value).getD 0 := by
      rw [instant, instant, minuteNumber, minuteNumber, hdate, hhour, hminute, add_le_add_iff_left]
    have hfollows := (follows_append b.minuteText).mpr (follows_seconds a.seconds b.seconds)
    rw [Follows, ← hinstant] at hfollows
    rw [Follows, stem, stem, htext]
    exact hfollows
  · exact (((parts_minuteText h).append _ _).follows (instant_lt h)).2

def SingleUnit (c : Char) : Prop := c.toNat < 0x10000

instance : DecidablePred SingleUnit := fun c => inferInstanceAs (Decidable (c.toNat < 0x10000))

theorem singleUnit_digit (n : ℕ) : SingleUnit (digit n) := lt_trans (digit_lt n) (by decide)

theorem singleUnit_twoDigits (n : ℕ) : ∀ c ∈ twoDigits n, SingleUnit c := by
  simp [twoDigits, singleUnit_digit]

theorem singleUnit_seconds (s : Seconds) : ∀ c ∈ s.text, SingleUnit c := by
  have hcolon : SingleUnit ':' := by decide
  have hpoint : SingleUnit '.' := by decide
  rw [Seconds.text]
  split
  · simpa [hcolon] using singleUnit_twoDigits s.whole
  · simpa [hcolon, hpoint, or_imp, forall_and, fractionDigits, singleUnit_digit] using
      singleUnit_twoDigits s.whole

theorem singleUnit_text (t : IsoDateTime) : ∀ c ∈ t.stem ++ ['Z'], SingleUnit c := by
  have hdash : SingleUnit '-' := by decide
  have hcolon : SingleUnit ':' := by decide
  have htime : SingleUnit 'T' := by decide
  have hend : SingleUnit 'Z' := by decide
  have hseconds : ∀ c ∈ t.secondsText, SingleUnit c := by
    rw [secondsText]
    cases t.seconds with
    | none => exact fun c hc => absurd hc List.not_mem_nil
    | some s => exact singleUnit_seconds s
  have hminutes : ∀ c ∈ t.minuteText, SingleUnit c := by
    simp only [minuteText, fourDigits, List.forall_mem_append, List.forall_mem_cons, hdash, hcolon,
      htime, true_and]
    exact ⟨⟨singleUnit_twoDigits _, singleUnit_twoDigits _⟩, singleUnit_twoDigits _,
      singleUnit_twoDigits _, singleUnit_twoDigits _, singleUnit_twoDigits _⟩
  rw [stem, List.forall_mem_append, List.forall_mem_append, List.forall_mem_singleton]
  exact ⟨⟨hminutes, hseconds⟩, hend⟩

theorem utf16_text (t : IsoDateTime) : utf16 t.text = (t.stem ++ ['Z']).map Char.toNat := by
  rw [utf16, text, String.toList_ofList, List.map_eq_flatMap]
  refine List.flatMap_congr fun c hc => ?_
  have hsmall : c.toNat < 0x10000 := singleUnit_text t c hc
  rw [if_pos hsmall]

/-- Exactly for aligned texts, their order is that of the instants. -/
theorem keyLe_iff (a b : IsoDateTime) :
    (keyLe a.text b.text ↔ a.instant ≤ b.instant) ↔ Aligned a.stem b.stem := by
  have hfollows := follows_stem a b
  rw [Follows, TextLe] at hfollows
  rw [keyLe, utf16_text, utf16_text]
  exact hfollows

end IsoDateTime

end BeeAgent.Data
