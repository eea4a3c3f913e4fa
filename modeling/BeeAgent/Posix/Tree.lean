import BeeAgent.Posix.Paths

/-! Trees of directories, files and symbolic links, and the walk that resolves a path in one. -/
namespace Posix

inductive Errno where
  | ENOENT
  | ENOTDIR
  | ELOOP
  deriving DecidableEq, Repr

inductive Node where
  | file
  | directory (entries : List (String × Node))
  | link (target : String)

def Node.child : Node → String → Option Node
  | .directory entries, name => (entries.find? fun entry => entry.1 == name).map Prod.snd
  | _, _ => none

def Node.entry (tree : Node) (location : Location) : Option Node := location.foldlM Node.child tree

def Node.isDirectory : Node → Bool
  | .directory _ => true
  | _ => false

def Node.isLink : Node → Bool
  | .link _ => true
  | _ => false

/-- A location that a path leads to, or why there is none. -/
abbrev Walk := Except Errno Location

section Walk
variable (tree : Node) (onMissing : Location → String → List String → Walk)

/-- The walk up to the next link. -/
def walkWith (onLink : Location → List String → Walk) : Location → List String → Walk
  | location, [] => .ok location
  | location, name :: names =>
    if !(tree.entry location).any Node.isDirectory then .error .ENOTDIR
    else if name = "." then walkWith onLink location names
    else if name = ".." then walkWith onLink location.dropLast names
    else match tree.entry (location ++ [name]) with
      | none => onMissing location name names
      | some (.link target) =>
        onLink (if isAbsolute target then [] else location) (components target ++ names)
      | some _ => walkWith onLink (location ++ [name]) names

/-- The walk along a list of names; it follows `n` links and no more. -/
def walk : ℕ → Location → List String → Walk
  | 0 => walkWith tree onMissing fun _ _ => .error .ELOOP
  | n + 1 => walkWith tree onMissing (walk n)

end Walk

def missing (_ : Location) (_ : String) (_ : List String) : Walk := .error .ENOENT

def realpath (tree : Node) (n : ℕ) (names : List String) : Walk :=
  walk tree missing n [] names

def create (location : Location) (name : String) (names : List String) : Walk :=
  if ∀ n ∈ name :: names, Proper n then .ok (location ++ name :: names) else .error .ENOENT

def locate (tree : Node) (n : ℕ) (names : List String) : Walk := walk tree create n [] names

section Lemmas
variable {tree : Node} {onMissing : Location → String → List String → Walk} {n m : ℕ}
  {location real : Location} {name : String} {names rest : List String}

@[simp] theorem entry_nil : tree.entry [] = some tree := rfl

theorem entry_append : tree.entry (location ++ names) =
    (tree.entry location).bind fun node => node.entry names := by
  rw [Node.entry, List.foldlM_append]
  rfl

theorem isDirectory_of_entry {node : Node}
    (h : tree.entry (location ++ name :: names) = some node) :
    (tree.entry location).any Node.isDirectory := by
  rw [entry_append] at h
  obtain ⟨parent, hparent, hnode⟩ := Option.bind_eq_some_iff.mp h
  rw [hparent, Option.any_some]
  cases parent with
  | directory => rfl
  | file | link => cases hnode

def Node.Holds (tree : Node) (location : Location) : Prop :=
  ∃ node, tree.entry location = some node ∧ node.isLink = false

theorem holds_of_append (h : tree.Holds (location ++ names)) : tree.Holds location := by
  cases names with
  | nil => simpa using h
  | cons name names =>
    obtain ⟨node, hnode, -⟩ := h
    have hdirectory := isDirectory_of_entry hnode
    cases hentry : tree.entry location with
    | none => simp [hentry] at hdirectory
    | some parent =>
      cases parent with
      | directory entries => exact ⟨_, hentry, rfl⟩
      | file | link => simp [hentry, Node.isDirectory] at hdirectory

section WalkWith
variable {onLink onLink' : Location → List String → Walk}

theorem walkWith_holds (hproper : ∀ name ∈ names, Proper name)
    (h : tree.Holds (location ++ names)) :
    walkWith tree onMissing onLink location (names ++ rest) =
      walkWith tree onMissing onLink (location ++ names) rest := by
  induction names generalizing location with
  | nil => simp
  | cons name names ih =>
    obtain ⟨-, hdot, hdots, -⟩ := hproper name (.head _)
    have happend : location ++ name :: names = (location ++ [name]) ++ names := by simp
    rw [happend] at h ⊢
    obtain ⟨node, hnode, hlink⟩ := holds_of_append h
    rw [List.cons_append, walkWith, isDirectory_of_entry hnode, if_neg (by simp), if_neg hdot,
      if_neg hdots, hnode]
    cases node with
    | link => cases hlink
    | file | directory => exact ih (fun n hn => hproper n (.tail _ hn)) h

theorem walkWith_mono
    (hlink : ∀ location names, onLink location names ≠ .error .ELOOP →
      onLink' location names = onLink location names)
    (h : walkWith tree onMissing onLink location names ≠ .error .ELOOP) :
    walkWith tree onMissing onLink' location names =
      walkWith tree onMissing onLink location names := by
  induction names generalizing location with
  | nil => rfl
  | cons name names ih =>
    rw [walkWith] at h ⊢
    rw [walkWith]
    split
    · rfl
    · next hdirectory =>
      rw [if_neg hdirectory] at h
      split
      · next hdot => exact ih (by rwa [if_pos hdot] at h)
      · next hdot =>
        rw [if_neg hdot] at h
        split
        · next hdots => exact ih (by rwa [if_pos hdots] at h)
        · next hdots =>
          rw [if_neg hdots] at h
          cases hentry : tree.entry (location ++ [name]) with
          | none => rfl
          | some node =>
            rw [hentry] at h
            cases node with
            | link target => exact hlink _ _ h
            | file | directory => exact ih h

end WalkWith

/-- What a walk does at a link. -/
def follow (tree : Node) (onMissing : Location → String → List String → Walk) :
    ℕ → Location → List String → Walk
  | 0 => fun _ _ => .error .ELOOP
  | n + 1 => walk tree onMissing n

theorem walk_eq : walk tree onMissing n = walkWith tree onMissing (follow tree onMissing n) := by
  cases n <;> rfl

theorem walk_holds (hproper : ∀ name ∈ names, Proper name) (h : tree.Holds (location ++ names)) :
    walk tree onMissing n location (names ++ rest) =
      walk tree onMissing n (location ++ names) rest := by
  rw [walk_eq]
  exact walkWith_holds hproper h

theorem walk_mono (hle : n ≤ m) (h : walk tree onMissing n location names ≠ .error .ELOOP) :
    walk tree onMissing m location names = walk tree onMissing n location names := by
  induction n generalizing m location names with
  | zero =>
    rw [walk_eq] at h ⊢
    exact walkWith_mono (fun _ _ hne => absurd rfl hne) h
  | succ n ih =>
    obtain ⟨m, rfl⟩ := Nat.exists_eq_succ_of_ne_zero (by omega : m ≠ 0)
    rw [walk_eq] at h ⊢
    exact walkWith_mono (fun _ _ hne => ih (by omega) hne) h

theorem walk_cons : walk tree onMissing n location (name :: names) =
    if !(tree.entry location).any Node.isDirectory then .error .ENOTDIR
    else if name = "." then walk tree onMissing n location names
    else if name = ".." then walk tree onMissing n location.dropLast names
    else match tree.entry (location ++ [name]) with
      | none => onMissing location name names
      | some (.link target) => follow tree onMissing n
          (if isAbsolute target then [] else location) (components target ++ names)
      | some _ => walk tree onMissing n (location ++ [name]) names := by
  rw [walk_eq, walkWith]

@[simp] theorem walk_nil : walk tree onMissing n location [] = .ok location := by
  rw [walk_eq, walkWith]

/-- Induction along a walk: on the links that may be followed, and on the names in between. -/
theorem walk_induction {P : ℕ → Location → List String → Prop}
    (nil : ∀ n location, P n location [])
    (cons : ∀ n location name names, (∀ location', P n location' names) →
      (∀ m, n = m + 1 → ∀ location' names', P m location' names') → P n location (name :: names))
    (n : ℕ) (location : Location) (names : List String) : P n location names := by
  induction n generalizing location names with
  | zero =>
    induction names generalizing location with
    | nil => exact nil 0 location
    | cons name names ih => exact cons 0 location name names ih fun _ h => by omega
  | succ n ihn =>
    induction names generalizing location with
    | nil => exact nil (n + 1) location
    | cons name names ih =>
      exact cons (n + 1) location name names ih fun m h location names => by
        obtain rfl : n = m := by omega
        exact ihn location names

theorem walk_append_error {e : Errno} (h : walk tree missing n location names = .error e) :
    walk tree missing n location (names ++ rest) = .error e := by
  induction n, location, names using walk_induction with
  | nil n location => simp at h
  | cons n location name names ih ihn =>
    rw [walk_cons] at h
    rw [List.cons_append, walk_cons]
    split
    · next hdirectory => rwa [if_pos hdirectory] at h
    · next hdirectory =>
      rw [if_neg hdirectory] at h
      split
      · next hdot => exact ih _ (by rwa [if_pos hdot] at h)
      · next hdot =>
        rw [if_neg hdot] at h
        split
        · next hdots => exact ih _ (by rwa [if_pos hdots] at h)
        · next hdots =>
          rw [if_neg hdots] at h
          cases hentry : tree.entry (location ++ [name]) with
          | none =>
            rw [hentry] at h
            exact h
          | some node =>
            rw [hentry] at h
            cases node with
            | link target =>
              simp only at h ⊢
              cases n with
              | zero => exact h
              | succ n =>
                rw [← List.append_assoc]
                exact ihn n rfl _ _ h
            | file | directory => exact ih _ h

/-- Behind what is found a walk goes on with what is left of its links. -/
theorem walk_append_ok (h : walk tree missing n location names = .ok real) :
    ∃ m ≤ n, ∀ (onMissing : Location → String → List String → Walk) (rest : List String),
      walk tree onMissing n location (names ++ rest) = walk tree onMissing m real rest := by
  induction n, location, names using walk_induction with
  | nil n location =>
    rw [walk_nil] at h
    cases h
    exact ⟨n, Nat.le_refl n, fun _ _ => rfl⟩
  | cons n location name names ih ihn =>
    rw [walk_cons] at h
    split at h
    · cases h
    next hdirectory =>
    split at h
    · next hdot =>
      obtain ⟨m, hm, hrest⟩ := ih _ h
      refine ⟨m, hm, fun onMissing rest => ?_⟩
      rw [List.cons_append, walk_cons, if_neg hdirectory, if_pos hdot, hrest]
    next hdot =>
    split at h
    · next hdots =>
      obtain ⟨m, hm, hrest⟩ := ih _ h
      refine ⟨m, hm, fun onMissing rest => ?_⟩
      rw [List.cons_append, walk_cons, if_neg hdirectory, if_neg hdot, if_pos hdots, hrest]
    next hdots =>
    cases hentry : tree.entry (location ++ [name]) with
    | none => simp [hentry, missing] at h
    | some node =>
      rw [hentry] at h
      cases node with
      | link target =>
        cases n with
        | zero => cases h
        | succ n =>
          obtain ⟨m, hm, hrest⟩ := ihn n rfl _ _ h
          refine ⟨m, by omega, fun onMissing rest => ?_⟩
          rw [List.cons_append, walk_cons, if_neg hdirectory, if_neg hdot, if_neg hdots, hentry]
          simp only
          rw [← List.append_assoc]
          exact hrest onMissing rest
      | file | directory =>
        obtain ⟨m, hm, hrest⟩ := ih _ h
        refine ⟨m, hm, fun onMissing rest => ?_⟩
        rw [List.cons_append, walk_cons, if_neg hdirectory, if_neg hdot, if_neg hdots, hentry]
        exact hrest onMissing rest

theorem walk_append_create {e : Errno} (h : walk tree missing n location names = .error e)
    (hrest : ∀ name ∈ rest, Proper name) :
    walk tree create n location (names ++ rest) =
      (walk tree create n location names).map (· ++ rest) := by
  induction n, location, names using walk_induction with
  | nil n location => simp at h
  | cons n location name names ih ihn =>
    rw [walk_cons] at h
    rw [List.cons_append, walk_cons, walk_cons]
    split
    · rfl
    · next hdirectory =>
      rw [if_neg hdirectory] at h
      split
      · next hdot => exact ih _ (by rwa [if_pos hdot] at h)
      · next hdot =>
        rw [if_neg hdot] at h
        split
        · next hdots => exact ih _ (by rwa [if_pos hdots] at h)
        · next hdots =>
          rw [if_neg hdots] at h
          cases hentry : tree.entry (location ++ [name]) with
          | none =>
            have hproper : (∀ n ∈ name :: (names ++ rest), Proper n) ↔
                ∀ n ∈ name :: names, Proper n := by
              constructor
              · exact fun hall n hn => hall n (by
                  obtain rfl | hn := List.mem_cons.mp hn
                  · exact .head _
                  · exact .tail _ (List.mem_append_left _ hn))
              · intro hall n hn
                obtain rfl | hn := List.mem_cons.mp hn
                · exact hall n (.head _)
                · obtain hn | hn := List.mem_append.mp hn
                  · exact hall n (.tail _ hn)
                  · exact hrest n hn
            simp only [create, hproper]
            split
            · simp [Except.map]
            · rfl
          | some node =>
            rw [hentry] at h
            cases node with
            | link target =>
              simp only at h ⊢
              cases n with
              | zero => rfl
              | succ n =>
                rw [← List.append_assoc]
                exact ihn n rfl _ _ h
            | file | directory => exact ih _ h

/-- What a walk finds is there, under proper names and behind no link. -/
theorem walk_found (h : walk tree missing n location names = .ok real)
    (hlocation : tree.Holds location) (hproper : ∀ name ∈ location, Proper name)
    (hnames : ∀ name ∈ names, name ≠ "." → name ≠ ".." → Proper name) :
    tree.Holds real ∧ ∀ name ∈ real, Proper name := by
  induction n, location, names using walk_induction with
  | nil n location =>
    rw [walk_nil] at h
    cases h
    exact ⟨hlocation, hproper⟩
  | cons n location name names ih ihn =>
    have hrest := fun n hn => hnames n (.tail _ hn)
    rw [walk_cons] at h
    split at h
    · cases h
    split at h
    · exact ih _ h hlocation hproper hrest
    next hdot =>
    split at h
    · refine ih _ h ?_ (fun n hn => hproper n (List.dropLast_subset _ hn)) hrest
      obtain rfl | ⟨above, last, rfl⟩ := List.eq_nil_or_concat' location
      · exact hlocation
      · rw [List.dropLast_concat]
        exact holds_of_append hlocation
    next hdots =>
    cases hentry : tree.entry (location ++ [name]) with
    | none => simp [hentry, missing] at h
    | some node =>
      rw [hentry] at h
      cases node with
      | link target =>
        cases n with
        | zero => cases h
        | succ n =>
          refine ihn n rfl _ _ h ?_ ?_ fun name hname => ?_
          · split
            · exact @holds_of_append tree [] location (by simpa using hlocation)
            · exact hlocation
          · split
            · simp
            · exact hproper
          · obtain hname | hname := List.mem_append.mp hname
            · exact fun hdot hdots => proper_components hname hdot hdots
            · exact hrest name hname
      | file | directory =>
        refine ih _ h ⟨_, hentry, rfl⟩ (fun n hn => ?_) hrest
        obtain hn | hn := List.mem_append.mp hn
        · exact hproper n hn
        · rw [List.mem_singleton.mp hn]
          exact hnames name (.head _) hdot hdots

end Lemmas

end Posix
