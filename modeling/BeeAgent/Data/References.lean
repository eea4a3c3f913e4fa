import BeeAgent.Data.Regex

/-! References in a text, each between a unit that opens it and one that closes it, and decoders
that replace them as they read the text from its beginning. -/
namespace References
open Regex (Pattern Found matchAt glue)
variable {α ε : Type*}

structure Marks (α : Type*) where
  opening : α
  closing : α
  IsBody : List α → Prop
  opening_ne_closing : opening ≠ closing
  opening_notMem {body : List α} : IsBody body → opening ∉ body
  closing_notMem {body : List α} : IsBody body → closing ∉ body

namespace Marks
variable (S : Marks α)

def reference (body : List α) : List α := S.opening :: (body ++ [S.closing])

def Opened (text : List α) : Prop := ∃ body after, S.IsBody body ∧ text = body ++ S.closing :: after

/-- A reference in a text, with what stands around it. -/
structure Stands (text before body after : List α) : Prop where
  isBody : S.IsBody body
  text_eq : text = before ++ S.reference body ++ after

variable {S} {before body after text body' after' : List α} {u : α}

theorem Stands.append (h : S.Stands text before body after) (first : List α) :
    S.Stands (first ++ text) (first ++ before) body after :=
  ⟨h.isBody, by rw [h.text_eq]; simp⟩

theorem reference_append :
    S.reference body ++ after = S.opening :: (body ++ S.closing :: after) := by
  simp [reference]

theorem body_unique (h : S.IsBody body) (h' : S.IsBody body')
    (heq : body ++ S.closing :: after = body' ++ S.closing :: after') :
    body = body' ∧ after = after' := by
  rcases List.append_eq_append_iff.mp heq with ⟨w, hw, hrest⟩ | ⟨w, hw, hrest⟩
  · cases w with
    | nil => exact ⟨by simpa using hw.symm, (List.cons.inj hrest).2⟩
    | cons v w => exact absurd (by simp [hw, (List.cons.inj hrest).1]) (S.closing_notMem h')
  · cases w with
    | nil => exact ⟨by simpa using hw, (List.cons.inj hrest).2.symm⟩
    | cons v w => exact absurd (by simp [hw, (List.cons.inj hrest).1]) (S.closing_notMem h)

theorem body_before (h : S.IsBody body)
    (heq : before ++ S.opening :: text = body ++ S.closing :: after) :
    ∃ rest, before = body ++ S.closing :: rest ∧ after = rest ++ S.opening :: text := by
  rcases List.append_eq_append_iff.mp heq with ⟨w, hw, hrest⟩ | ⟨w, hw, hrest⟩
  · cases w with
    | nil => exact absurd (List.cons.inj hrest).1 S.opening_ne_closing
    | cons v w =>
      have hv := (List.cons.inj hrest).1
      exact absurd (by simp [hw, hv]) (S.opening_notMem h)
  · cases w with
    | nil => exact absurd (List.cons.inj hrest).1.symm S.opening_ne_closing
    | cons v w =>
      have ⟨hv, hafter⟩ := List.cons.inj hrest
      exact ⟨w, hv ▸ hw, hafter⟩

end Marks

/-! ### Decoders -/

theorem glue_ok (u v : List α) : glue (ε := ε) (.ok u) (.ok v) = .ok (u ++ v) := rfl

theorem glue_eq_ok {x y : Except ε (List α)} {w : List α} :
    glue x y = .ok w ↔ ∃ u v, x = .ok u ∧ y = .ok v ∧ w = u ++ v := by
  cases x with
  | error e => simp [glue, Except.bind]
  | ok u =>
    cases y with
    | error e => simp [glue, Except.bind, Except.map]
    | ok v => simp [glue, Except.bind, Except.map, eq_comm]

theorem glue_assoc (x y z : Except ε (List α)) : glue (glue x y) z = glue x (glue y z) := by
  cases x <;> cases y <;> cases z <;> simp [glue, Except.bind, Except.map]

theorem glue_nil (x : Except ε (List α)) : glue (.ok []) x = x := by
  cases x <;> rfl

theorem glue_cancel {x y a b : Except ε (List α)} {w : List α}
    (ha : glue x (glue a y) = .ok w) (hb : glue x (glue b y) = .ok w) : a = b := by
  obtain ⟨u, _, rfl, hay, rfl⟩ := glue_eq_ok.mp ha
  obtain ⟨v, t, rfl, rfl, rfl⟩ := glue_eq_ok.mp hay
  obtain ⟨_, _, hu, hby, heq⟩ := glue_eq_ok.mp hb
  obtain ⟨v', _, rfl, ht, rfl⟩ := glue_eq_ok.mp hby
  cases hu
  cases ht
  rw [List.append_cancel_right (List.append_cancel_left heq)]

/-- A decoder that reads a text from its beginning: it gives a value for each reference and leaves
the other units as they are. -/
structure Scans (S : Marks α) (decode value : List α → Except ε (List α)) : Prop where
  nil : decode [] = .ok []
  unit {u : α} {text : List α} : u ≠ S.opening → decode (u :: text) = glue (.ok [u]) (decode text)
  reference {body after : List α} : S.IsBody body →
    decode (S.reference body ++ after) = glue (value body) (decode after)
  lone {text : List α} : ¬S.Opened text →
    decode (S.opening :: text) = glue (.ok [S.opening]) (decode text)

/-- Every reference in a text is replaced by what is right for it, and the rest of the text is
decoded as it would be on its own. -/
structure Faithful (S : Marks α) (right : List α → List α)
    (decode : List α → Except ε (List α)) (text : List α) : Prop where
  returns : ∃ decoded, decode text = .ok decoded
  replaced {before body after : List α} : S.Stands text before body after →
    decode text = glue (decode before) (glue (.ok (right body)) (decode after))

section Texts
variable (S : Marks α)

theorem cases_text (u : α) (text : List α) :
    u ≠ S.opening ∨ u = S.opening ∧ ¬S.Opened text ∨
      ∃ body after, S.IsBody body ∧ u :: text = S.reference body ++ after := by
  by_cases hu : u = S.opening
  · by_cases hopened : S.Opened text
    · obtain ⟨body, after, hbody, rfl⟩ := hopened
      exact .inr (.inr ⟨body, after, hbody, by rw [hu, Marks.reference_append]⟩)
    · exact .inr (.inl ⟨hu, hopened⟩)
  · exact .inl hu

theorem scan_induction {motive : List α → Prop} (nil : motive [])
    (unit : ∀ u text, u ≠ S.opening → motive text → motive (u :: text))
    (lone : ∀ text, ¬S.Opened text → motive text → motive (S.opening :: text))
    (reference : ∀ body after, S.IsBody body → motive after → motive (S.reference body ++ after))
    (text : List α) : motive text := by
  induction hn : text.length using Nat.strongRecOn generalizing text with
  | ind n ih =>
    cases text with
    | nil => exact nil
    | cons u text =>
      have htext : motive text := ih text.length (by simp [← hn]) text rfl
      rcases cases_text S u text with hu | ⟨rfl, hlone⟩ | ⟨body, after, hbody, heq⟩
      · exact unit u text hu htext
      · exact lone text hlone htext
      · have hlength : after.length < n := by
          rw [← hn, heq]
          simp [Marks.reference]
          omega
        rw [heq]
        exact reference body after hbody (ih _ hlength after rfl)

theorem copy_of_unit {S : Marks α} {decode : List α → Except ε (List α)} {before after : List α}
    (hunit : ∀ u text, u ≠ S.opening → decode (u :: text) = glue (.ok [u]) (decode text))
    (hnot : S.opening ∉ before) : decode (before ++ after) = glue (.ok before) (decode after) := by
  induction before with
  | nil => exact (glue_nil _).symm
  | cons u before ih =>
    have ⟨hu, hbefore⟩ := List.ne_and_not_mem_of_not_mem_cons hnot
    rw [List.cons_append, hunit u _ (Ne.symm hu), ih hbefore, ← glue_assoc, glue_ok]
    rfl

end Texts

namespace Scans
variable {S : Marks α} {decode value : List α → Except ε (List α)} {right : List α → List α}
  {text before after body : List α}

theorem copy (h : Scans S decode value) (hnot : S.opening ∉ before) :
    decode (before ++ after) = glue (.ok before) (decode after) :=
  copy_of_unit (fun _ _ => h.unit) hnot

theorem append_opening (h : Scans S decode value) (before text : List α) :
    decode (before ++ S.opening :: text) = glue (decode before) (decode (S.opening :: text)) := by
  induction before using scan_induction S with
  | nil => rw [h.nil, glue_nil, List.nil_append]
  | unit u before hu ih => rw [List.cons_append, h.unit hu, h.unit hu, ih, glue_assoc]
  | lone before hlone ih =>
    have hlone' : ¬S.Opened (before ++ S.opening :: text) := by
      rintro ⟨body, after, hbody, heq⟩
      obtain ⟨rest, rfl, -⟩ := Marks.body_before hbody heq
      exact hlone ⟨body, rest, hbody, rfl⟩
    rw [List.cons_append, h.lone hlone', h.lone hlone, ih, glue_assoc]
  | reference body after hbody ih =>
    rw [List.append_assoc, h.reference hbody, h.reference hbody, ih, glue_assoc]

theorem around (h : Scans S decode value) (hstands : S.Stands text before body after) :
    decode text = glue (decode before) (glue (value body) (decode after)) := by
  rw [hstands.text_eq, List.append_assoc, Marks.reference_append, h.append_opening,
    ← Marks.reference_append, h.reference hstands.isBody]

/-- A decoder fails only where the value of a reference does. -/
theorem total (h : Scans S decode value)
    (hvalue : ∀ before body after, S.Stands text before body after → ∃ v, value body = .ok v) :
    ∃ decoded, decode text = .ok decoded := by
  induction text using scan_induction S with
  | nil => exact ⟨[], h.nil⟩
  | unit u text hu ih =>
    obtain ⟨decoded, heq⟩ := ih fun before body after hs => hvalue _ body after (hs.append [u])
    exact ⟨u :: decoded, by rw [h.unit hu, heq, glue_ok]; rfl⟩
  | lone text hlone ih =>
    obtain ⟨decoded, heq⟩ := ih fun before body after hs => hvalue _ body after (hs.append [_])
    exact ⟨S.opening :: decoded, by rw [h.lone hlone, heq, glue_ok]; rfl⟩
  | reference body after hbody ih =>
    obtain ⟨decoded, heq⟩ := ih fun before body' after' hs =>
      hvalue _ body' after' (hs.append (S.reference body))
    obtain ⟨v, hv⟩ := hvalue [] body after ⟨hbody, rfl⟩
    exact ⟨v ++ decoded, by rw [h.reference hbody, hv, heq, glue_ok]⟩

theorem faithful_iff (h : Scans S decode value) :
    Faithful S right decode text ↔
      ∀ before body after, S.Stands text before body after → value body = .ok (right body) := by
  constructor
  · intro hfaithful before body after hs
    obtain ⟨decoded, hdecoded⟩ := hfaithful.returns
    exact glue_cancel ((h.around hs).symm.trans hdecoded)
      ((hfaithful.replaced hs).symm.trans hdecoded)
  · intro hvalue
    refine ⟨h.total fun before body after hs => ⟨_, hvalue before body after hs⟩, ?_⟩
    intro before body after hs
    rw [h.around hs, hvalue before body after hs]

end Scans

/-! ### Passes -/

/-- A pass that puts one unit in the place of some references. -/
structure Rewrites (S : Marks α) (pass : List α → List α) (names : List α → Prop) (unit : α) :
    Prop where
  nil : pass [] = []
  plain {u : α} {text : List α} : u ≠ S.opening → pass (u :: text) = u :: pass text
  named {body after : List α} : S.IsBody body → names body →
    pass (S.reference body ++ after) = unit :: pass after
  other {body after : List α} : S.IsBody body → ¬names body →
    pass (S.reference body ++ after) = S.reference body ++ pass after
  lone {text : List α} : ¬S.Opened text → pass (S.opening :: text) = S.opening :: pass text

section Passes
variable {S : Marks α} {pass : List α → List α} {names : List α → Prop} {unit : α}
  {text before after body : List α}

namespace Rewrites

theorem scans (h : Rewrites S pass names unit) [DecidablePred names] :
    Scans (ε := ε) S (fun text => .ok (pass text))
      (fun body => .ok (if names body then [unit] else S.reference body)) where
  nil := by rw [h.nil]
  unit hu := by rw [h.plain hu]; rfl
  reference {body after} hbody := by
    by_cases hnames : names body
    · rw [h.named hbody hnames, if_pos hnames]; rfl
    · rw [h.other hbody hnames, if_neg hnames]; rfl
  lone hlone := by rw [h.lone hlone]; rfl

theorem copy (h : Rewrites S pass names unit) (hnot : S.opening ∉ before) :
    pass (before ++ after) = before ++ pass after := by
  classical
  have hcopy := @Scans.copy _ Empty S _ _ before after h.scans hnot
  simpa [glue_ok] using hcopy

theorem around (h : Rewrites S pass names unit) (hs : S.Stands text before body after)
    (hnames : ¬names body) : pass text = pass before ++ S.reference body ++ pass after := by
  classical
  simpa [glue_ok, hnames] using (h.scans (ε := Empty)).around hs

theorem around_named (h : Rewrites S pass names unit) (hs : S.Stands text before body after)
    (hnames : names body) : pass text = pass before ++ unit :: pass after := by
  classical
  simpa [glue_ok, hnames] using (h.scans (ε := Empty)).around hs

theorem of_begins (h : Rewrites S pass names unit) (hopening : S.opening ∉ before)
    (hunit : unit ∉ before) (heq : pass text = before ++ after) :
    ∃ rest, text = before ++ rest ∧ pass rest = after := by
  induction before generalizing text with
  | nil => exact ⟨text, rfl, heq⟩
  | cons a before ih =>
    have ⟨ha, hopening'⟩ := List.ne_and_not_mem_of_not_mem_cons hopening
    have ⟨ha', hunit'⟩ := List.ne_and_not_mem_of_not_mem_cons hunit
    cases text with
    | nil => simp [h.nil] at heq
    | cons u text =>
      rcases cases_text S u text with hu | ⟨rfl, hlone⟩ | ⟨body, rest, hbody, htext⟩
      · rw [h.plain hu] at heq
        have ⟨hua, htail⟩ := List.cons.inj heq
        obtain ⟨rest, rfl, hrest⟩ := ih hopening' hunit' htail
        exact ⟨rest, by rw [hua]; rfl, hrest⟩
      · rw [h.lone hlone] at heq
        exact absurd (List.cons.inj heq).1 ha
      · rw [htext] at heq
        by_cases hnames : names body
        · rw [h.named hbody hnames] at heq
          exact absurd (List.cons.inj heq).1 ha'
        · rw [h.other hbody hnames] at heq
          exact absurd (List.cons.inj heq).1 ha

theorem opened_iff (h : Rewrites S pass names unit) (hunit : ∀ body, S.IsBody body → unit ∉ body)
    (hclosing : unit ≠ S.closing) : S.Opened (pass text) ↔ S.Opened text := by
  constructor
  · rintro ⟨body, after, hbody, heq⟩
    rw [List.append_cons] at heq
    have hopening : S.opening ∉ body ++ [S.closing] := by
      simp [S.opening_notMem hbody, S.opening_ne_closing]
    obtain ⟨rest, rfl, -⟩ := h.of_begins hopening (by simp [hunit body hbody, hclosing]) heq
    exact ⟨body, rest, hbody, by simp⟩
  · rintro ⟨body, after, hbody, rfl⟩
    rw [List.append_cons, h.copy (by simp [S.opening_notMem hbody, S.opening_ne_closing])]
    exact ⟨body, pass after, hbody, by simp⟩

end Rewrites

variable {decode value : List α → Except ε (List α)} {right : List α → List α}

theorem Scans.comp (h : Scans S decode value) (hpass : Rewrites S pass names unit)
    [DecidablePred names] (hunit : ∀ body, S.IsBody body → unit ∉ body)
    (hclosing : unit ≠ S.closing) (hopening : unit ≠ S.opening) :
    Scans S (fun text => decode (pass text))
      (fun body => if names body then .ok [unit] else value body) where
  nil := by rw [hpass.nil, h.nil]
  unit hu := by rw [hpass.plain hu, h.unit hu]
  reference {body after} hbody := by
    by_cases hnames : names body
    · rw [hpass.named hbody hnames, if_pos hnames, h.unit hopening]
    · rw [hpass.other hbody hnames, if_neg hnames, h.reference hbody]
  lone hlone := by
    rw [hpass.lone hlone, h.lone (mt (hpass.opened_iff hunit hclosing).mp hlone)]

theorem Scans.after_opening (h : Scans S decode value) (hpass : Rewrites S pass names S.opening)
    (hafter : ∀ body' after', S.IsBody body' → after = body' ++ S.closing :: after' →
      value body' = .ok (S.reference body')) :
    decode (S.opening :: pass after) = glue (.ok [S.opening]) (decode (pass after)) := by
  by_cases hopened : S.Opened after
  · obtain ⟨body', after', hbody, heq⟩ := hopened
    have hcopy : S.opening ∉ body' ++ [S.closing] := by
      simp [S.opening_notMem hbody, S.opening_ne_closing]
    have hpassed : pass after = (body' ++ [S.closing]) ++ pass after' := by
      rw [heq, List.append_cons, hpass.copy hcopy]
    have hreference : S.opening :: pass after = S.reference body' ++ pass after' := by
      rw [hpassed]; rfl
    rw [hreference, h.reference hbody, hafter body' after' hbody heq, hpassed, h.copy hcopy,
      ← glue_assoc, glue_ok]
    rfl
  · have hunit : ∀ body, S.IsBody body → S.opening ∉ body := fun _ => S.opening_notMem
    exact h.lone (mt (hpass.opened_iff hunit S.opening_ne_closing).mp hopened)

/-- A decoder after a pass that puts in opening units: what follows one can make a reference of it,
which is replaced as well. -/
theorem Scans.faithful_iff_of_opening (h : Scans S decode value)
    (hpass : Rewrites S pass names S.opening)
    (hright : ∀ body, S.IsBody body → names body → right body = [S.opening]) (text : List α) :
    Faithful S right (fun text => decode (pass text)) text ↔
      ∀ before body after, S.Stands text before body after →
        (names body → ∀ body' after', S.IsBody body' → after = body' ++ S.closing :: after' →
          value body' = .ok (S.reference body')) ∧
        (¬names body → value body = .ok (right body)) := by
  constructor
  · intro hfaithful before body after hs
    obtain ⟨decoded, hdecoded⟩ := hfaithful.returns
    have hreplaced := (hfaithful.replaced hs).symm.trans hdecoded
    constructor
    · intro hnames body' after' hbody heq
      have hcopy : S.opening ∉ body' ++ [S.closing] := by
        simp [S.opening_notMem hbody, S.opening_ne_closing]
      have hpassed : pass after = (body' ++ [S.closing]) ++ pass after' := by
        rw [heq, List.append_cons, hpass.copy hcopy]
      have hreference : S.opening :: pass after = S.reference body' ++ pass after' := by
        rw [hpassed]; rfl
      simp only [hpass.around_named hs hnames] at hdecoded
      rw [h.append_opening, hreference, h.reference hbody] at hdecoded
      simp only [hright body hs.isBody hnames, hpassed] at hreplaced
      rw [h.copy hcopy, ← glue_assoc (.ok [S.opening]), glue_ok] at hreplaced
      exact glue_cancel hdecoded hreplaced
    · intro hnames
      simp only [hpass.around hs hnames] at hdecoded
      rw [h.around ⟨hs.isBody, rfl⟩] at hdecoded
      exact glue_cancel hdecoded hreplaced
  · intro hgood
    constructor
    · induction text using scan_induction S with
      | nil => exact ⟨[], by rw [hpass.nil, h.nil]⟩
      | unit u text hu ih =>
        obtain ⟨decoded, heq⟩ := ih fun before body after hs => hgood _ body after (hs.append [u])
        exact ⟨u :: decoded, by rw [hpass.plain hu, h.unit hu, heq, glue_ok]; rfl⟩
      | lone text hlone ih =>
        obtain ⟨decoded, heq⟩ := ih fun before body after hs => hgood _ body after (hs.append [_])
        have hunit : ∀ body, S.IsBody body → S.opening ∉ body := fun _ => S.opening_notMem
        have hlone' := mt (hpass.opened_iff hunit S.opening_ne_closing).mp hlone
        exact ⟨S.opening :: decoded, by rw [hpass.lone hlone, h.lone hlone', heq, glue_ok]; rfl⟩
      | reference body after hbody ih =>
        obtain ⟨decoded, heq⟩ := ih fun before body' after' hs =>
          hgood _ body' after' (hs.append (S.reference body))
        obtain ⟨hamp, hother⟩ := hgood [] body after ⟨hbody, rfl⟩
        by_cases hnames : names body
        · refine ⟨S.opening :: decoded, ?_⟩
          rw [hpass.named hbody hnames, h.after_opening hpass (hamp hnames), heq, glue_ok]
          rfl
        · refine ⟨right body ++ decoded, ?_⟩
          rw [hpass.other hbody hnames, h.reference hbody, hother hnames, heq, glue_ok]
    · intro before body after hs
      obtain ⟨hamp, hother⟩ := hgood before body after hs
      by_cases hnames : names body
      · simp only [hpass.around_named hs hnames, hright body hs.isBody hnames]
        rw [h.append_opening, h.after_opening hpass (hamp hnames)]
      · simp only [hpass.around hs hnames]
        rw [h.around ⟨hs.isBody, rfl⟩, hother hnames]

end Passes

/-! ### Patterns -/

/-- A pattern that matches the references with some of the bodies, and nothing else. -/
structure Finds [DecidableEq α] (S : Marks α) (pattern : Pattern α)
    (f : Found α → Except ε (List α)) (reads : List α → Prop)
    (value : List α → Except ε (List α)) : Prop where
  isBody {body : List α} : reads body → S.IsBody body
  succeeds {body : List α} (previous : Option α) (after : List α) : reads body →
    matchAt pattern { previous, rest := S.reference body ++ after } ≠ none
  only {previous : Option α} {rest : List α} {found : Found α} :
    matchAt pattern { previous, rest } = some found →
      ∃ body after, reads body ∧ rest = S.reference body ++ after ∧
        found.text = S.reference body ∧ f found = value body

section Patterns
variable [DecidableEq α] {S : Marks α} {pattern : Pattern α} {f : Found α → Except ε (List α)}
  {reads : List α → Prop} {value : List α → Except ε (List α)} {body after : List α}

namespace Finds

theorem found (h : Finds S pattern f reads value) (hreads : reads body) (previous : Option α)
    (after : List α) : ∃ found, matchAt pattern { previous, rest := S.reference body ++ after } =
      some found ∧ found.text = S.reference body ∧ f found = value body := by
  obtain ⟨found, hfound⟩ := Option.ne_none_iff_exists'.mp (h.succeeds previous after hreads)
  obtain ⟨body', after', hreads', heq, htext, hf⟩ := h.only hfound
  simp only [Marks.reference_append, List.cons.injEq, true_and] at heq
  obtain ⟨rfl, -⟩ := Marks.body_unique (h.isBody hreads) (h.isBody hreads') heq
  exact ⟨found, hfound, htext, hf⟩

theorem fails (h : Finds S pattern f reads value) {previous : Option α} {rest : List α}
    (hnot : ¬∃ body after, reads body ∧ rest = S.reference body ++ after) :
    matchAt pattern { previous, rest } = none := by
  by_contra hsome
  obtain ⟨found, hfound⟩ := Option.ne_none_iff_exists'.mp hsome
  obtain ⟨body, after, hreads, heq, -⟩ := h.only hfound
  exact hnot ⟨body, after, hreads, heq⟩

theorem steady (h : Finds S pattern f reads value) : Regex.Steady pattern f := by
  intro previous rest
  by_cases hreads : ∃ body after, reads body ∧ rest = S.reference body ++ after
  · obtain ⟨body, after, hreads, rfl⟩ := hreads
    obtain ⟨found, hfound, htext, hf⟩ := h.found hreads previous after
    obtain ⟨found', hfound', htext', hf'⟩ := h.found hreads none after
    simp [hfound, hfound', htext, htext', hf, hf']
  · rw [h.fails hreads, h.fails hreads]

/-- What a pattern replaces is read from the beginning of the text. -/
theorem scans (h : Finds S pattern f reads value) [DecidablePred reads] :
    Scans S (Regex.replaceM pattern f)
      (fun body => if reads body then value body else .ok (S.reference body)) := by
  have hunit : ∀ {u : α} {text : List α}, u ≠ S.opening →
      Regex.replaceM pattern f (u :: text) = glue (.ok [u]) (Regex.replaceM pattern f text) := by
    intro u text hu
    refine Regex.replaceM_plain h.steady (h.fails ?_)
    rintro ⟨body, after, -, heq⟩
    exact hu (List.cons.inj heq).1
  refine ⟨Regex.replaceM_nil, hunit, ?_, ?_⟩
  · intro body after hbody
    by_cases hreads : reads body
    · obtain ⟨found, hfound, htext, hf⟩ := h.found hreads none after
      rw [Regex.replaceM_matched h.steady hfound (by simp [htext, Marks.reference])
        (htext ▸ List.prefix_append _ _), htext, hf, if_pos hreads, List.drop_left]
    · have hnone : matchAt pattern
          { previous := none, rest := S.opening :: (body ++ S.closing :: after) } = none := by
        refine h.fails ?_
        rintro ⟨body', after', hreads', heq⟩
        simp only [Marks.reference_append, List.cons.injEq, true_and] at heq
        obtain ⟨rfl, -⟩ := Marks.body_unique hbody (h.isBody hreads') heq
        exact hreads hreads'
      rw [Marks.reference_append, Regex.replaceM_plain h.steady hnone, List.append_cons,
        copy_of_unit (fun _ _ => hunit) (by simp [S.opening_notMem hbody, S.opening_ne_closing]),
        if_neg hreads, ← glue_assoc, glue_ok]
      rfl
  · intro text hlone
    refine Regex.replaceM_plain h.steady (h.fails ?_)
    rintro ⟨body, after, hreads, heq⟩
    simp only [Marks.reference_append, List.cons.injEq, true_and] at heq
    exact hlone ⟨body, after, h.isBody hreads, heq⟩

end Finds

theorem Finds.rewrites {unit : α}
    (h : Finds (ε := Empty) S pattern (fun _ => .ok [unit]) reads fun _ => .ok [unit]) :
    Rewrites S (Regex.replaceAll pattern fun _ => [unit]) reads unit := by
  classical
  have hscans := h.scans
  have hok (text : List α) := Regex.replaceM_ok (ε := Empty) pattern (fun _ => [unit]) text
  constructor
  · simpa [hok] using hscans.nil
  · intro u text hu
    simpa [hok, glue_ok] using @Scans.unit _ _ _ _ _ hscans u text hu
  · intro body after hbody hreads
    simpa [hok, hreads, glue_ok] using @Scans.reference _ _ _ _ _ hscans body after hbody
  · intro body after hbody hreads
    simpa [hok, hreads, glue_ok] using @Scans.reference _ _ _ _ _ hscans body after hbody
  · intro text hlone
    simpa [hok, glue_ok] using hscans.lone hlone

end Patterns

end References
