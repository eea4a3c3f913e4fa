import Mathlib.Data.List.Basic

/-! Conversations with a partner that is answered line by line: a script says which line is waited
for next and what is said when it comes. What is said is compared when the lines come one by one and
when they come in groups of which only the first line that is waited for is heard. -/
namespace Conversation

/-- What is waited for, and what is said when it has come. -/
structure Exchange (Wait Action : Type) where
  wait : Wait
  replies : List Action
  replies_ne : replies ≠ []

/-- A line of the partner, and what was read of it. -/
structure Arrival (Line : Type) where
  line : Line
  reading : Line

variable {Wait Action Line : Type} (answers : Wait → Line → Bool)

/-- What is said, each time with the number of lines that have come. -/
def converse : List (Exchange Wait Action) → ℕ → List Line → List (ℕ × Action)
  | _, _, [] => []
  | [], _, _ => []
  | e :: es, n, line :: lines =>
    if answers e.wait line then e.replies.map (n + 1, ·) ++ converse es (n + 1) lines
    else converse (e :: es) (n + 1) lines

/-- A group of lines, of which nothing is heard after the first one that is waited for. -/
def hearGroup : List (Exchange Wait Action) → ℕ → List Line →
    List (ℕ × Action) × List (Exchange Wait Action)
  | es, _, [] => ([], es)
  | [], _, _ => ([], [])
  | e :: es, n, line :: lines =>
    if answers e.wait line then (e.replies.map (n + 1, ·), es)
    else hearGroup (e :: es) (n + 1) lines

def hear : List (Exchange Wait Action) → ℕ → List (List Line) → List (ℕ × Action)
  | _, _, [] => []
  | es, n, group :: groups =>
    (hearGroup answers es n group).1 ++
      hear (hearGroup answers es n group).2 (n + group.length) groups

/-- What is still waited for after the lines. -/
def awaiting : List Wait → List Line → List Wait
  | ws, [] => ws
  | [], _ => []
  | w :: ws, line :: lines =>
    if answers w line then awaiting ws lines else awaiting (w :: ws) lines

/-- Up to the first line of the group that is waited for, each line is taken for what it is; after
it, no line of the group is waited for. -/
def HeardGroup : List Wait → List (Arrival Line) → Prop
  | _, [] => True
  | [], _ => True
  | w :: ws, a :: group =>
    (answers w a.reading ↔ answers w a.line) ∧
      if answers w a.line then ∀ next ∈ ws.head?, ∀ b ∈ group, ¬answers next b.line
      else HeardGroup (w :: ws) group

def Heard : List Wait → List (List (Arrival Line)) → Prop
  | _, [] => True
  | ws, group :: groups =>
    HeardGroup answers ws group ∧ Heard (awaiting answers ws (group.map Arrival.line)) groups

variable {answers}

@[simp] theorem converse_nil (n : ℕ) (lines : List Line) :
    converse answers ([] : List (Exchange Wait Action)) n lines = [] := by
  cases lines <;> rfl

@[simp] theorem hearGroup_nil (n : ℕ) (lines : List Line) :
    hearGroup answers ([] : List (Exchange Wait Action)) n lines = ([], []) := by
  cases lines <;> rfl

@[simp] theorem hear_nil (n : ℕ) (groups : List (List Line)) :
    hear answers ([] : List (Exchange Wait Action)) n groups = [] := by
  induction groups generalizing n with
  | nil => rfl
  | cons group groups ih => simp [hear, ih]

theorem hear_singletons (es : List (Exchange Wait Action)) (n : ℕ) (lines : List Line) :
    hear answers es n (lines.map fun line => [line]) = converse answers es n lines := by
  induction lines generalizing es n with
  | nil => rfl
  | cons line lines ih =>
    cases es with
    | nil => simp
    | cons e es =>
      rw [List.map_cons, hear, converse, hearGroup]
      split
      · rw [ih, List.length_singleton]
      · rw [ih, hearGroup, List.nil_append, List.length_singleton]

theorem hear_snoc_nil (es : List (Exchange Wait Action)) (n : ℕ) (groups : List (List Line)) :
    hear answers es n (groups ++ [[]]) = hear answers es n groups := by
  induction groups generalizing es n with
  | nil => cases es <;> rfl
  | cons group groups ih => rw [List.cons_append, hear, hear, ih]

theorem awaiting_wait (es : List (Exchange Wait Action)) (lines : List Line) :
    (awaiting (fun e : Exchange Wait Action => answers e.wait) es lines).map Exchange.wait =
      awaiting answers (es.map Exchange.wait) lines := by
  induction lines generalizing es with
  | nil => cases es <;> rfl
  | cons line lines ih =>
    cases es with
    | nil => rfl
    | cons e es =>
      rw [List.map_cons, awaiting, awaiting]
      split
      · exact ih es
      · exact ih (e :: es)

theorem converse_append (es : List (Exchange Wait Action)) (n : ℕ) (lines more : List Line) :
    converse answers es n (lines ++ more) = converse answers es n lines ++
      converse answers (awaiting (fun e => answers e.wait) es lines) (n + lines.length) more := by
  induction lines generalizing es n with
  | nil => cases es <;> rfl
  | cons line lines ih =>
    have hlength : n + (line :: lines).length = n + 1 + lines.length := by
      rw [List.length_cons]
      omega
    cases es with
    | nil => simp [awaiting]
    | cons e es =>
      rw [List.cons_append, converse, converse, awaiting, hlength]
      split
      · rw [ih, List.append_assoc]
      · rw [ih]

theorem position_converse {es : List (Exchange Wait Action)} {n : ℕ} {lines : List Line}
    {said : ℕ × Action} (h : said ∈ converse answers es n lines) :
    n < said.1 ∧ said.1 ≤ n + lines.length := by
  induction lines generalizing es n with
  | nil => cases es <;> simp [converse] at h
  | cons line lines ih =>
    rw [List.length_cons]
    cases es with
    | nil => simp at h
    | cons e es =>
      rw [converse] at h
      split at h
      · rcases List.mem_append.mp h with h | h
        · obtain ⟨action, -, rfl⟩ := List.mem_map.mp h
          dsimp only
          omega
        · have := ih h
          omega
      · have := ih h
        omega

theorem position_hearGroup {es : List (Exchange Wait Action)} {n : ℕ} {lines : List Line}
    {said : ℕ × Action} (h : said ∈ (hearGroup answers es n lines).1) :
    n < said.1 ∧ said.1 ≤ n + lines.length := by
  induction lines generalizing n with
  | nil => cases es <;> simp [hearGroup] at h
  | cons line lines ih =>
    rw [List.length_cons]
    cases es with
    | nil => simp at h
    | cons e es =>
      rw [hearGroup] at h
      split at h
      · obtain ⟨action, -, rfl⟩ := List.mem_map.mp h
        dsimp only
        omega
      · have := ih h
        omega

theorem position_hear {es : List (Exchange Wait Action)} {n : ℕ} {groups : List (List Line)}
    {said : ℕ × Action} (h : said ∈ hear answers es n groups) : n < said.1 := by
  induction groups generalizing es n with
  | nil => simp [hear] at h
  | cons group groups ih =>
    rw [hear] at h
    rcases List.mem_append.mp h with h | h
    · exact (position_hearGroup h).1
    · have := ih h
      omega

theorem converse_eq_nil (e : Exchange Wait Action) (es : List (Exchange Wait Action)) (n : ℕ)
    (lines : List Line) :
    converse answers (e :: es) n lines = [] ↔ ∀ line ∈ lines, ¬answers e.wait line := by
  induction lines generalizing n with
  | nil => simp [converse]
  | cons line lines ih =>
    rw [converse, List.forall_mem_cons]
    split
    · next h => simp [h, e.replies_ne]
    · next h => simp [h, ih]

/-- Two conversations agree if and only if they agree up to every point. -/
theorem append_inj_position {m : ℕ} {before before' after after' : List (ℕ × Action)}
    (hb : ∀ said ∈ before, said.1 ≤ m) (hb' : ∀ said ∈ before', said.1 ≤ m)
    (ha : ∀ said ∈ after, m < said.1) (ha' : ∀ said ∈ after', m < said.1) :
    before ++ after = before' ++ after' ↔ before = before' ∧ after = after' := by
  constructor
  · intro h
    have hfilter : ∀ {xs ys : List (ℕ × Action)}, (∀ said ∈ xs, said.1 ≤ m) →
        (∀ said ∈ ys, m < said.1) → (xs ++ ys).filter (fun said => decide (said.1 ≤ m)) = xs := by
      intro xs ys hxs hys
      rw [List.filter_append, List.filter_eq_self.mpr (by simpa using hxs),
        List.filter_eq_nil_iff.mpr (by simpa using hys), List.append_nil]
    have hbefore : before = before' := by rw [← hfilter hb ha, h, hfilter hb' ha']
    subst hbefore
    exact ⟨rfl, List.append_cancel_left h⟩
  · rintro ⟨rfl, rfl⟩
    rfl

theorem awaiting_eq_self {es : List (Exchange Wait Action)} {lines : List Line}
    (h : ∀ next ∈ (es.map Exchange.wait).head?, ∀ line ∈ lines, ¬answers next line) :
    awaiting (fun e : Exchange Wait Action => answers e.wait) es lines = es := by
  induction lines with
  | nil => cases es <;> rfl
  | cons line lines ih =>
    cases es with
    | nil => rfl
    | cons e es =>
      have hline := h e.wait rfl line List.mem_cons_self
      rw [awaiting, if_neg hline]
      exact ih fun next hnext l hl => h next hnext l (List.mem_cons_of_mem _ hl)

theorem converse_silent (es : List (Exchange Wait Action)) (n : ℕ) (lines : List Line) :
    converse answers es n lines = [] ↔
      ∀ next ∈ (es.map Exchange.wait).head?, ∀ line ∈ lines, ¬answers next line := by
  cases es with
  | nil => simp
  | cons e es => simpa using converse_eq_nil e es n lines

theorem replies_ne_later (e : Exchange Wait Action) {n : ℕ} (more : List (ℕ × Action))
    {later : List (ℕ × Action)} (hlater : ∀ said ∈ later, n + 1 < said.1) :
    e.replies.map (n + 1, ·) ++ more ≠ later := by
  intro heq
  obtain ⟨action, hmem⟩ := List.exists_mem_of_ne_nil _ e.replies_ne
  have hin : (n + 1, action) ∈ later := by
    rw [← heq]
    exact List.mem_append_left _ (List.mem_map_of_mem hmem)
  exact Nat.lt_irrefl _ (hlater _ hin)

theorem hearGroup_iff (es : List (Exchange Wait Action)) (n : ℕ) (group : List (Arrival Line)) :
    (hearGroup answers es n (group.map Arrival.reading)).1 =
        converse answers es n (group.map Arrival.line) ↔
      HeardGroup answers (es.map Exchange.wait) group := by
  induction group generalizing n with
  | nil => cases es <;> simp [hearGroup, converse, HeardGroup]
  | cons a group ih =>
    cases es with
    | nil => simp [HeardGroup]
    | cons e es =>
      simp only [List.map_cons, hearGroup, converse, HeardGroup]
      cases hread : answers e.wait a.reading with
      | true =>
        cases hline : answers e.wait a.line with
        | true => simp [converse_silent]
        | false =>
          have hlater : ∀ said ∈ converse answers (e :: es) (n + 1) (group.map Arrival.line),
              n + 1 < said.1 := fun said hsaid => (position_converse hsaid).1
          simpa using replies_ne_later e [] hlater
      | false =>
        cases hline : answers e.wait a.line with
        | true =>
          have hlater : ∀ said ∈
              (hearGroup answers (e :: es) (n + 1) (group.map Arrival.reading)).1,
              n + 1 < said.1 := fun said hsaid => (position_hearGroup hsaid).1
          have hne := replies_ne_later e
            (converse answers es (n + 1) (group.map Arrival.line)) hlater
          simpa using hne.symm
        | false => simpa using ih (n + 1)

theorem hearGroup_left {es : List (Exchange Wait Action)} {group : List (Arrival Line)}
    (h : HeardGroup answers (es.map Exchange.wait) group) (n : ℕ) :
    (hearGroup answers es n (group.map Arrival.reading)).2 =
      awaiting (fun e => answers e.wait) es (group.map Arrival.line) := by
  induction group generalizing n with
  | nil => cases es <;> rfl
  | cons a group ih =>
    cases es with
    | nil => simp [awaiting]
    | cons e es =>
      simp only [List.map_cons, HeardGroup] at h
      simp only [List.map_cons, hearGroup, awaiting]
      obtain ⟨hread, hrest⟩ := h
      split
      · next hr =>
        rw [if_pos (hread.mp hr)] at hrest ⊢
        refine (awaiting_eq_self fun next hnext line hmem => ?_).symm
        obtain ⟨b, hb, rfl⟩ := List.mem_map.mp hmem
        exact hrest next hnext b hb
      · next hr =>
        have hline : ¬answers e.wait a.line = true := fun hl => hr (hread.mpr hl)
        rw [if_neg hline] at hrest ⊢
        exact ih hrest (n + 1)

/-- Groups are heard as their lines one by one exactly when each line is taken for what it is as
long as the group is heard, and none is waited for after that. -/
theorem hear_iff (es : List (Exchange Wait Action)) (n : ℕ) (groups : List (List (Arrival Line))) :
    hear answers es n (groups.map fun group => group.map Arrival.reading) =
        converse answers es n (groups.flatten.map Arrival.line) ↔
      Heard answers (es.map Exchange.wait) groups := by
  induction groups generalizing es n with
  | nil => simp [hear, converse, Heard]
  | cons group groups ih =>
    rw [List.map_cons, hear, List.flatten_cons, List.map_append, converse_append, Heard,
      append_inj_position (m := n + group.length), hearGroup_iff]
    · constructor
      · rintro ⟨hgroup, hrest⟩
        rw [hearGroup_left hgroup, List.length_map, List.length_map, ih, awaiting_wait] at hrest
        exact ⟨hgroup, hrest⟩
      · rintro ⟨hgroup, hrest⟩
        rw [← awaiting_wait, ← ih _ (n + group.length)] at hrest
        refine ⟨hgroup, ?_⟩
        rwa [hearGroup_left hgroup, List.length_map, List.length_map]
    · intro said hsaid
      simpa using (position_hearGroup hsaid).2
    · intro said hsaid
      simpa using (position_converse hsaid).2
    · intro said hsaid
      simpa using position_hear hsaid
    · intro said hsaid
      simpa using (position_converse hsaid).1

end Conversation
