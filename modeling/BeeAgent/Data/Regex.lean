import Mathlib.Data.List.Basic
import Mathlib.Data.List.Forall2
import Mathlib.Tactic.Cases

/-! Regular expressions as a backtracking matcher runs them: where each can end, in the order in
which the ends are tried. -/
namespace Regex
variable {α : Type*}

inductive Pattern (α : Type*) where
  | one (accepts : α → Bool)
  | empty
  /-- Between a unit of a word and one that is none, or an end of the text. -/
  | edge (isWord : α → Bool)
  | seq (first second : Pattern α)
  | alt (first second : Pattern α)
  | many (greedy : Bool) (body : Pattern α)
  | group (n : ℕ) (body : Pattern α)
  | again (n : ℕ)

namespace Pattern

/-- `p?` -/
def opt (p : Pattern α) : Pattern α := .alt p .empty

/-- `p+` -/
def plus (p : Pattern α) : Pattern α := .seq p (.many true p)

def all : List (Pattern α) → Pattern α
  | [] => .empty
  | p :: ps => .seq p (all ps)

def any : List (Pattern α) → Pattern α
  | [] => .one fun _ => false
  | [p] => p
  | p :: ps => .alt p (any ps)

/-- A word, by what its units are the same as. -/
def word (same : α → α → Bool) (text : List α) : Pattern α :=
  all (text.map fun u => .one (same u))

end Pattern

/-- A place in a text, and what the groups have matched before it. -/
structure Place (α : Type*) where
  previous : Option α
  rest : List α
  groups : ℕ → Option (List α) := fun _ => none

namespace Place
variable (p q : Place α)

def advance (n : ℕ) : Place α :=
  { p with previous := (p.rest.take n).getLast? <|> p.previous, rest := p.rest.drop n }

def upTo : List α := p.rest.take (p.rest.length - q.rest.length)

def record (n : ℕ) : Place α :=
  { q with groups := fun m => if m = n then some (p.upTo q) else q.groups m }

end Place

/-- Repetitions that each take something of the text, up to a number of them. -/
def repeated (step : Place α → List (Place α)) (greedy : Bool) : ℕ → Place α → List (Place α)
  | 0, p => [p]
  | n + 1, p =>
    let more := ((step p).filter fun q => q.rest.length < p.rest.length).flatMap
      (repeated step greedy n)
    if greedy then more ++ [p] else p :: more

/-! ### What a pattern spells -/

/-- The texts of a pattern that looks at nothing else than the text it takes. -/
inductive Spells : Pattern α → List α → Prop
  | one {accepts : α → Bool} {u : α} (h : accepts u = true) : Spells (.one accepts) [u]
  | empty : Spells .empty []
  | seq {first second : Pattern α} {u v : List α} (hu : Spells first u) (hv : Spells second v) :
    Spells (.seq first second) (u ++ v)
  | left {first second : Pattern α} {u : List α} (h : Spells first u) : Spells (.alt first second) u
  | right {first second : Pattern α} {u : List α} (h : Spells second u) :
    Spells (.alt first second) u
  | stop {greedy : Bool} {body : Pattern α} : Spells (.many greedy body) []
  | more {greedy : Bool} {body : Pattern α} {u v : List α} (hu : Spells body u)
    (hv : Spells (.many greedy body) v) : Spells (.many greedy body) (u ++ v)

/-- Without edges and groups. -/
def Plain : Pattern α → Prop
  | .one _ | .empty => True
  | .edge _ | .group _ _ | .again _ => False
  | .seq first second | .alt first second => Plain first ∧ Plain second
  | .many _ body => Plain body

theorem spells_one {accepts : α → Bool} {u : List α} :
    Spells (.one accepts) u ↔ ∃ a, accepts a = true ∧ u = [a] :=
  ⟨fun | .one h => ⟨_, h, rfl⟩, fun ⟨_, h, hu⟩ => hu ▸ .one h⟩

theorem spells_empty {u : List α} : Spells .empty u ↔ u = [] :=
  ⟨fun | .empty => rfl, fun h => h ▸ .empty⟩

theorem spells_seq {first second : Pattern α} {u : List α} :
    Spells (.seq first second) u ↔ ∃ v w, Spells first v ∧ Spells second w ∧ u = v ++ w :=
  ⟨fun | .seq hv hw => ⟨_, _, hv, hw, rfl⟩, fun ⟨_, _, hv, hw, hu⟩ => hu ▸ .seq hv hw⟩

theorem spells_alt {first second : Pattern α} {u : List α} :
    Spells (.alt first second) u ↔ Spells first u ∨ Spells second u :=
  ⟨fun | .left h => .inl h | .right h => .inr h, fun h => h.elim .left .right⟩

theorem spells_many_one {greedy : Bool} {accepts : α → Bool} {u : List α} :
    Spells (.many greedy (.one accepts)) u ↔ ∀ a ∈ u, accepts a = true := by
  constructor
  · intro h
    generalize hpattern : Pattern.many greedy (.one accepts) = pattern at h
    induction h with
    | stop => simp
    | more hu hv ihu ihv =>
      cases hpattern
      obtain ⟨a, ha, rfl⟩ := spells_one.mp hu
      simpa [ha] using ihv rfl
    | _ => cases hpattern
  · intro h
    induction u with
    | nil => exact .stop
    | cons a u ih =>
      have ⟨ha, hu⟩ := List.forall_mem_cons.mp h
      exact .more (u := [a]) (.one ha) (ih hu)

theorem spells_plus_one {accepts : α → Bool} {u : List α} :
    Spells (.plus (.one accepts)) u ↔ u ≠ [] ∧ ∀ a ∈ u, accepts a = true := by
  simp only [Pattern.plus, spells_seq, spells_one, spells_many_one]
  constructor
  · rintro ⟨_, w, ⟨a, ha, rfl⟩, hw, rfl⟩
    simpa [ha] using hw
  · rintro ⟨hne, h⟩
    obtain ⟨a, w, rfl⟩ := List.exists_cons_of_ne_nil hne
    have ⟨ha, hw⟩ := List.forall_mem_cons.mp h
    exact ⟨[a], w, ⟨a, ha, rfl⟩, hw, rfl⟩

theorem spells_word {same : α → α → Bool} {text u : List α} :
    Spells (.word same text) u ↔ List.Forall₂ (fun a b => same a b = true) text u := by
  induction text generalizing u with
  | nil => simp [Pattern.word, Pattern.all, spells_empty]
  | cons a text ih =>
    have hcons : Pattern.word same (a :: text) = .seq (.one (same a)) (.word same text) := rfl
    simp only [hcons, spells_seq, spells_one, ih, List.forall₂_cons_left_iff]
    constructor
    · rintro ⟨_, w, ⟨b, hb, rfl⟩, hw, rfl⟩
      exact ⟨b, w, hb, hw, rfl⟩
    · rintro ⟨b, w, hb, hw, rfl⟩
      exact ⟨[b], w, ⟨b, hb, rfl⟩, hw, rfl⟩

theorem plain_word (same : α → α → Bool) (text : List α) : Plain (.word same text) := by
  induction text with
  | nil => trivial
  | cons a text ih => exact ⟨trivial, ih⟩

theorem spells_opt {pattern : Pattern α} {u : List α} :
    Spells pattern.opt u ↔ Spells pattern u ∨ u = [] := by
  simp [Pattern.opt, spells_alt, spells_empty]

namespace Place
variable {p q r : Place α} {u v : List α}

/-- From one place to another over a text. -/
structure Over (p q : Place α) (u : List α) : Prop where
  rest : p.rest = u ++ q.rest
  groups : q.groups = p.groups

theorem Over.refl (p : Place α) : Over p p [] := ⟨rfl, rfl⟩

theorem Over.trans (h : Over p q u) (h' : Over q r v) : Over p r (u ++ v) where
  rest := by rw [h.rest, h'.rest, List.append_assoc]
  groups := h'.groups.trans h.groups

theorem Over.upTo (h : p.rest = u ++ q.rest) : p.upTo q = u := by
  simp [Place.upTo, h]

theorem advance_over (h : u <+: p.rest) : Over p (p.advance u.length) u := by
  obtain ⟨t, ht⟩ := h
  exact ⟨by simp [advance, ← ht], rfl⟩

end Place

theorem mem_repeated {step : Place α → List (Place α)} {greedy : Bool} {n : ℕ} {p q : Place α} :
    q ∈ repeated step greedy (n + 1) p ↔
      q = p ∨ ∃ r ∈ step p, r.rest.length < p.rest.length ∧ q ∈ repeated step greedy n r := by
  cases greedy <;> simp [repeated, List.mem_flatMap, and_assoc, or_comm]

theorem repeated_mono {step : Place α → List (Place α)} {greedy : Bool} {n m : ℕ} (hn : n ≤ m)
    {p q : Place α} (h : q ∈ repeated step greedy n p) : q ∈ repeated step greedy m p := by
  induction n generalizing m p with
  | zero =>
    have hq : q = p := by simpa [repeated] using h
    cases m with
    | zero => exact h
    | succ m => exact mem_repeated.mpr (.inl hq)
  | succ n ih =>
    obtain ⟨m, rfl⟩ : ∃ m', m = m' + 1 := ⟨m - 1, by omega⟩
    rcases mem_repeated.mp h with hq | ⟨r, hr, hlt, hq⟩
    · exact mem_repeated.mpr (.inl hq)
    · exact mem_repeated.mpr (.inr ⟨r, hr, hlt, ih (by omega) hq⟩)

section Ends
variable [DecidableEq α]

/-- Where a pattern can end, the end that is preferred first. -/
def ends : Pattern α → Place α → List (Place α)
  | .one accepts, p => if (p.rest.head?.map accepts).getD false then [p.advance 1] else []
  | .empty, p => [p]
  | .edge isWord, p =>
    if (p.previous.map isWord).getD false ≠ (p.rest.head?.map isWord).getD false then [p] else []
  | .seq first second, p => (ends first p).flatMap (ends second)
  | .alt first second, p => ends first p ++ ends second p
  | .many greedy body, p => repeated (ends body) greedy p.rest.length p
  | .group n body, p => (ends body p).map fun q => p.record q n
  | .again n, p =>
    let text := (p.groups n).getD []
    if text <+: p.rest then [p.advance text.length] else []

structure Found (α : Type*) where
  text : List α
  groups : ℕ → Option (List α)

def matchAt (pattern : Pattern α) (p : Place α) : Option (Found α) :=
  (ends pattern p).head?.map fun q => ⟨p.upTo q, q.groups⟩

inductive Piece (α : Type*) where
  | plain (unit : α)
  | matched (found : Found α)

/-- The matches in a text, none overlapping another, and what lies between them, for a pattern that
does not match the empty text; the first `skip` units belong to a match already. -/
def piecesFrom (pattern : Pattern α) : ℕ → Option α → List α → List (Piece α)
  | _, _, [] => []
  | skip + 1, _, u :: text => piecesFrom pattern skip (some u) text
  | 0, previous, u :: text =>
    match matchAt pattern { previous, rest := u :: text } with
    | some found => .matched found :: piecesFrom pattern (found.text.length - 1) (some u) text
    | none => .plain u :: piecesFrom pattern 0 (some u) text

def pieces (pattern : Pattern α) (text : List α) : List (Piece α) := piecesFrom pattern 0 none text

def Piece.found? : Piece α → Option (Found α)
  | .plain _ => none
  | .matched found => some found

/-- `text.matchAll(pattern)` -/
def matchAll (pattern : Pattern α) (text : List α) : List (Found α) :=
  (pieces pattern text).filterMap Piece.found?

/-- `pattern.exec(text)` -/
def exec (pattern : Pattern α) (text : List α) : Option (Found α) := (matchAll pattern text).head?

/-- `text.search(pattern)`, where there is a match. -/
def search (pattern : Pattern α) (text : List α) : Option ℕ :=
  (pieces pattern text).findIdx? fun piece => piece.found?.isSome

/-- `text.replace(pattern, f)`, of all matches. -/
def replaceAll (pattern : Pattern α) (f : Found α → List α) (text : List α) : List α :=
  (pieces pattern text).flatMap fun
    | .plain u => [u]
    | .matched found => f found

/-- Two parts of a text, of which the first fails before the second is computed. -/
def glue {ε : Type*} (first second : Except ε (List α)) : Except ε (List α) :=
  first.bind fun u => second.map fun v => u ++ v

def assembled {ε : Type*} (f : Found α → Except ε (List α)) : List (Piece α) → Except ε (List α)
  | [] => .ok []
  | .plain u :: pieces => glue (.ok [u]) (assembled f pieces)
  | .matched found :: pieces => glue (f found) (assembled f pieces)

/-- `text.replace(pattern, f)` where `f` can throw. -/
def replaceM {ε : Type*} (pattern : Pattern α) (f : Found α → Except ε (List α))
    (text : List α) : Except ε (List α) :=
  assembled f (pieces pattern text)

/-! ### Matches -/

theorem repeated_spells {body : Pattern α} {greedy : Bool}
    (hbody : ∀ {p q}, q ∈ ends body p → ∃ u, Spells body u ∧ p.Over q u) {n : ℕ} {p q : Place α}
    (h : q ∈ repeated (ends body) greedy n p) :
    ∃ u, Spells (.many greedy body) u ∧ p.Over q u := by
  induction n generalizing p with
  | zero =>
    have : q = p := by simpa [repeated] using h
    exact ⟨[], .stop, this ▸ .refl p⟩
  | succ n ih =>
    rcases mem_repeated.mp h with rfl | ⟨r, hr, -, hq⟩
    · exact ⟨[], .stop, .refl q⟩
    · obtain ⟨u, hu, hpr⟩ := hbody hr
      obtain ⟨v, hv, hrq⟩ := ih hq
      exact ⟨u ++ v, .more hu hv, hpr.trans hrq⟩

theorem ends_spells {pattern : Pattern α} (hplain : Plain pattern) {p q : Place α}
    (h : q ∈ ends pattern p) : ∃ u, Spells pattern u ∧ p.Over q u := by
  induction pattern generalizing p q with
  | one accepts =>
    cases hrest : p.rest with
    | nil => simp [ends, hrest] at h
    | cons u t =>
      simp only [ends, hrest, List.head?_cons, Option.map_some, Option.getD_some,
        List.mem_ite_nil_right, List.mem_singleton] at h
      obtain ⟨hu, rfl⟩ := h
      exact ⟨[u], .one hu, Place.advance_over (p := p) (u := [u]) (hrest ▸ ⟨t, rfl⟩)⟩
  | empty =>
    have : q = p := by simpa [ends] using h
    exact ⟨[], .empty, this ▸ .refl p⟩
  | edge isWord => exact hplain.elim
  | seq first second hfirst hsecond =>
    obtain ⟨r, hr, hq⟩ := List.mem_flatMap.mp h
    obtain ⟨u, hu, hpr⟩ := hfirst hplain.1 hr
    obtain ⟨v, hv, hrq⟩ := hsecond hplain.2 hq
    exact ⟨u ++ v, .seq hu hv, hpr.trans hrq⟩
  | alt first second hfirst hsecond =>
    rcases List.mem_append.mp h with h | h
    · obtain ⟨u, hu, hpq⟩ := hfirst hplain.1 h
      exact ⟨u, .left hu, hpq⟩
    · obtain ⟨u, hu, hpq⟩ := hsecond hplain.2 h
      exact ⟨u, .right hu, hpq⟩
  | many greedy body ih => exact repeated_spells (fun h => ih hplain h) h
  | group n body => exact hplain.elim
  | again n => exact hplain.elim

theorem Spells.ends {pattern : Pattern α} {u t : List α} (h : Spells pattern u) {p : Place α}
    (hrest : p.rest = u ++ t) : ∃ q ∈ ends pattern p, q.rest = t ∧ p.Over q u := by
  induction h generalizing p t with
  | @one accepts u h =>
    refine ⟨p.advance 1, by simp [Regex.ends, hrest, h], by simp [Place.advance, hrest], ?_⟩
    exact Place.advance_over (u := [u]) (hrest ▸ ⟨t, rfl⟩)
  | empty => exact ⟨p, by simp [Regex.ends], hrest, .refl p⟩
  | seq hu hv ihu ihv =>
    obtain ⟨r, hr, hrt, hpr⟩ := ihu (p := p) (by simpa using hrest)
    obtain ⟨q, hq, hqt, hrq⟩ := ihv (p := r) hrt
    exact ⟨q, List.mem_flatMap.mpr ⟨r, hr, hq⟩, hqt, hpr.trans hrq⟩
  | left h ih =>
    obtain ⟨q, hq, hqt, hpq⟩ := ih (p := p) hrest
    exact ⟨q, List.mem_append_left _ hq, hqt, hpq⟩
  | right h ih =>
    obtain ⟨q, hq, hqt, hpq⟩ := ih (p := p) hrest
    exact ⟨q, List.mem_append_right _ hq, hqt, hpq⟩
  | stop =>
    exact ⟨p, repeated_mono (Nat.zero_le _) (by simp [repeated]), hrest, .refl p⟩
  | @more greedy body u v hu hv ihu ihv =>
    by_cases hnil : u = []
    · subst hnil
      exact ihv hrest
    · rw [List.append_assoc] at hrest
      obtain ⟨r, hr, hrt, hpr⟩ := ihu hrest
      obtain ⟨q, hq, hqt, hrq⟩ := ihv hrt
      have hlength : r.rest.length < p.rest.length := by
        have := List.length_pos_iff.mpr hnil
        rw [hpr.rest, List.length_append]
        omega
      obtain ⟨n, hn⟩ : ∃ n, p.rest.length = n + 1 := ⟨p.rest.length - 1, by omega⟩
      refine ⟨q, ?_, hqt, hpr.trans hrq⟩
      rw [Regex.ends, hn]
      exact mem_repeated.mpr (.inr ⟨r, hr, hlength, repeated_mono (by omega) hq⟩)

theorem matchAt_eq_none {pattern : Pattern α} {p : Place α} :
    matchAt pattern p = none ↔ ends pattern p = [] := by
  simp [matchAt]

theorem matchAt_eq_some {pattern : Pattern α} {p : Place α} {found : Found α}
    (h : matchAt pattern p = some found) : ∃ q ∈ ends pattern p, found = ⟨p.upTo q, q.groups⟩ := by
  obtain ⟨q, hq, rfl⟩ := Option.map_eq_some_iff.mp h
  exact ⟨q, List.mem_of_head? hq, rfl⟩

theorem matchAt_plain {pattern : Pattern α} (hplain : Plain pattern) {p : Place α}
    {found : Found α} (h : matchAt pattern p = some found) :
    Spells pattern found.text ∧ found.text <+: p.rest := by
  obtain ⟨q, hq, rfl⟩ := matchAt_eq_some h
  obtain ⟨u, hu, hpq⟩ := ends_spells hplain hq
  rw [Place.Over.upTo hpq.rest]
  exact ⟨hu, hpq.rest ▸ List.prefix_append u q.rest⟩

theorem Spells.matchAt {pattern : Pattern α} {u t : List α} (h : Spells pattern u) {p : Place α}
    (hrest : p.rest = u ++ t) : matchAt pattern p ≠ none := by
  obtain ⟨q, hq, -⟩ := h.ends hrest
  intro hnone
  simp [matchAt_eq_none.mp hnone] at hq

/-! ### A group between two plain patterns -/

section Group
variable {first body last : Pattern α} {n : ℕ} {p : Place α}

theorem matchAt_group (hfirst : Plain first) (hbody : Plain body) (hlast : Plain last)
    {found : Found α} (h : matchAt (.all [first, .group n body, last]) p = some found) :
    ∃ u v w t, Spells first u ∧ Spells body v ∧ Spells last w ∧
      p.rest = u ++ v ++ w ++ t ∧ found.text = u ++ v ++ w ∧ found.groups n = some v := by
  obtain ⟨q, hq, rfl⟩ := matchAt_eq_some h
  simp only [Pattern.all, ends, List.mem_flatMap, List.mem_map, List.mem_singleton] at hq
  obtain ⟨r, hr, _, ⟨r', hr', rfl⟩, _, hw, rfl⟩ := hq
  obtain ⟨u, hu, hpr⟩ := ends_spells hfirst hr
  obtain ⟨v, hv, hrr'⟩ := ends_spells hbody hr'
  obtain ⟨w, hw, hlast⟩ := ends_spells hlast hw
  have hrest : p.rest = u ++ v ++ w ++ q.rest := by
    have : r'.rest = w ++ q.rest := hlast.rest
    rw [hpr.rest, hrr'.rest, this, List.append_assoc, List.append_assoc]
  refine ⟨u, v, w, q.rest, hu, hv, hw, hrest, Place.Over.upTo hrest, ?_⟩
  rw [hlast.groups]
  simp [Place.record, Place.Over.upTo hrr'.rest]

theorem matchAt_group_ne_none {u v w t : List α} (hu : Spells first u) (hv : Spells body v)
    (hw : Spells last w) (hrest : p.rest = u ++ v ++ w ++ t) :
    matchAt (.all [first, .group n body, last]) p ≠ none := by
  simp only [List.append_assoc] at hrest
  obtain ⟨r, hr, hrt, -⟩ := hu.ends hrest
  obtain ⟨r', hr', hrt', -⟩ := hv.ends hrt
  obtain ⟨q, hq, -⟩ := hw.ends (p := r.record r' n) hrt'
  have hmem : q ∈ ends (.all [first, .group n body, last]) p := by
    simp only [Pattern.all, ends, List.mem_flatMap, List.mem_map, List.mem_singleton]
    exact ⟨r, hr, _, ⟨r', hr', rfl⟩, q, hq, rfl⟩
  intro hnone
  simp [matchAt_eq_none.mp hnone] at hmem

end Group

/-! ### Replacing -/

section Replace
variable {ε : Type*} {pattern : Pattern α} {f : Found α → Except ε (List α)}

/-- The text before a place makes no difference. -/
def Steady (pattern : Pattern α) (f : Found α → Except ε (List α)) : Prop :=
  ∀ previous rest, (matchAt pattern { previous, rest }).map (fun found =>
    (found.text.length, f found)) =
      (matchAt pattern { previous := none, rest }).map fun found => (found.text.length, f found)

theorem assembled_from (hsteady : Steady pattern f) (text : List α) (skip : ℕ)
    (previous : Option α) :
    assembled f (piecesFrom pattern skip previous text) = replaceM pattern f (text.drop skip) := by
  induction text generalizing skip previous with
  | nil => simp [piecesFrom, replaceM, pieces]
  | cons u text ih =>
    cases skip with
    | succ skip => exact ih skip (some u)
    | zero =>
      have h := hsteady previous (u :: text)
      simp only [List.drop_zero, replaceM, pieces, piecesFrom]
      cases hfound : matchAt pattern { previous, rest := u :: text } with
      | none =>
        have hnone : matchAt pattern { previous := none, rest := u :: text } = none := by
          simpa [hfound] using h.symm
        simp only [hnone]
      | some found =>
        obtain ⟨found', hfound', hsame⟩ : ∃ found', matchAt pattern
            { previous := none, rest := u :: text } = some found' ∧
              (found'.text.length, f found') = (found.text.length, f found) := by
          simpa [hfound] using h.symm
        simp only [Prod.mk.injEq] at hsame
        simp only [hfound', assembled, hsame]

theorem replaceM_nil : replaceM pattern f [] = .ok [] := rfl

theorem replaceM_plain (hsteady : Steady pattern f) {u : α} {text : List α}
    (h : matchAt pattern { previous := none, rest := u :: text } = none) :
    replaceM pattern f (u :: text) = glue (.ok [u]) (replaceM pattern f text) := by
  rw [replaceM, pieces, piecesFrom]
  simp only [h, assembled]
  rw [assembled_from hsteady, List.drop_zero]

theorem replaceM_matched (hsteady : Steady pattern f) {text : List α} {found : Found α}
    (h : matchAt pattern { previous := none, rest := text } = some found)
    (hfound : found.text ≠ []) (hbegins : found.text <+: text) :
    replaceM pattern f text =
      glue (f found) (replaceM pattern f (text.drop found.text.length)) := by
  obtain ⟨rest, rfl⟩ := hbegins
  obtain ⟨u, tail, hcons⟩ := List.exists_cons_of_ne_nil hfound
  rw [hcons, List.cons_append] at h ⊢
  rw [replaceM, pieces, piecesFrom]
  simp only [h, assembled]
  rw [assembled_from hsteady, hcons]
  rfl

theorem replaceM_ok (pattern : Pattern α) (f : Found α → List α) (text : List α) :
    replaceM (ε := ε) pattern (fun found => .ok (f found)) text =
      .ok (replaceAll pattern f text) := by
  rw [replaceM, replaceAll]
  induction pieces pattern text with
  | nil => rfl
  | cons piece rest ih =>
    cases piece <;> simp only [assembled, ih] <;> rfl

end Replace

end Ends

end Regex
