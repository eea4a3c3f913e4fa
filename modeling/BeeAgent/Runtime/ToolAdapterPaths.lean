import BeeAgent.Data.Folds
import BeeAgent.Execution.Request
import BeeAgent.Posix.Tree

/-! Paths of tool adapters: what is accepted for a workspace and canonicalized with a request, and
where it leads in the file tree. -/
namespace BeeAgent.Runtime.Workspace
open Posix Execution

def errnoText : Errno → String
  | .ENOENT => "ENOENT"
  | .ENOTDIR => "ENOTDIR"
  | .ELOOP => "ELOOP"

section Paths
variable (tree : Node) (n : ℕ)

/-- `canonicalPath`, on the names from the last one up. -/
def canonicalFrom : List String → Walk
  | [] =>
    match realpath tree n [] with
    | .ok path => .ok path
    | .error e => if e ≠ .ENOENT ∧ e ≠ .ENOTDIR then .error e else .ok []
  | name :: parents =>
    match realpath tree n (name :: parents).reverse with
    | .ok path => .ok path
    | .error e =>
      if e ≠ .ENOENT ∧ e ≠ .ENOTDIR then .error e
      else (canonicalFrom parents).map fun parent => push parent name

/-- Resolves existing links; what is behind a path that does not exist is joined by its text. -/
def canonicalPath (path : Location) : Walk := canonicalFrom tree n path.reverse

/-- `canonicalPath` on texts. -/
def canonicalText (path : String) : Except String String :=
  ((canonicalPath tree n (components path)).map text).mapError errnoText

/-- Resolves existing links and missing ancestors, then rejects what leads out of the root. -/
def resolveWorkspacePath (root : Location) (input label : String) : Except String String :=
  match canonicalPath tree n (resolve root input) with
  | .error e => .error (errnoText e)
  | .ok candidate =>
    if (relative root candidate).head? = some ".." then
      .error (label ++ " escapes the configured workspace")
    else .ok (text candidate)

end Paths

/-- A canonical root: a directory, named by its location. -/
structure WorkspaceRoot (tree : Node) where
  root : Location
  proper : ∀ name ∈ root, Proper name
  directory : (tree.entry root).any Node.isDirectory

theorem holds_of_directory {tree : Node} {location : Location}
    (h : (tree.entry location).any Node.isDirectory) : tree.Holds location := by
  cases hentry : tree.entry location with
  | none => simp [hentry] at h
  | some node =>
    cases node with
    | directory entries => exact ⟨_, hentry, rfl⟩
    | file | link => simp [hentry, Node.isDirectory] at h

theorem holds_nil {tree : Node} {location : Location} (h : tree.Holds location) :
    tree.Holds [] := @holds_of_append tree [] location (by simpa using h)

theorem proper_realpath {tree : Node} {n : ℕ} {path : String} {root : Location}
    (h : realpath tree n (components path) = .ok root)
    (hdirectory : (tree.entry root).any Node.isDirectory) : ∀ name ∈ root, Proper name :=
  (walk_found h (holds_nil (holds_of_directory hdirectory)) (by simp)
    fun _ hname => proper_components hname).2

def canonicalWorkspaceRoot (tree : Node) (n : ℕ) (path label : String) :
    Except String (WorkspaceRoot tree) :=
  if !Posix.isAbsolute path then .error (label ++ " must be absolute")
  else match h : realpath tree n (components path) with
    | .error _ => .error (label ++ " does not exist")
    | .ok root =>
      if hdirectory : (tree.entry root).any Node.isDirectory then
        .ok ⟨root, proper_realpath h hdirectory, hdirectory⟩
      else .error (label ++ " must be a directory")

section Canonical
variable {tree : Node} {n : ℕ} {path real rest : Location} {name : String}

def Unresolved (tree : Node) (n : ℕ) (path : Location) : Prop :=
  ∃ e, realpath tree n path = .error e ∧ ¬ (e ≠ .ENOENT ∧ e ≠ .ENOTDIR)

/-- A path whose first names are there, and of which the next one is not resolved. -/
def Behind (tree : Node) (n : ℕ) (path : Location) : Prop :=
  ∃ real name rest, path = real ++ name :: rest ∧ tree.Holds real ∧
    (∀ name ∈ path, Proper name) ∧ Unresolved tree n (real ++ [name])

theorem realpath_holds (hreal : tree.Holds real) (hproper : ∀ name ∈ real, Proper name) :
    realpath tree n real = .ok real := by
  have h := @walk_holds tree missing n [] real [] hproper (by simpa using hreal)
  simpa [realpath] using h

theorem unresolved_of_parent (hroot : tree.Holds []) (hpath : ∀ name ∈ path, Proper name)
    (hreal : realpath tree n path = .ok real) (hname : Unresolved tree n (path ++ [name])) :
    Unresolved tree n (real ++ [name]) := by
  obtain ⟨e, he, hloop⟩ := hname
  obtain ⟨hholds, hproper⟩ := walk_found hreal hroot (by simp) fun n hn _ _ => hpath n hn
  obtain ⟨m, hm, hrest⟩ := walk_append_ok hreal
  refine ⟨e, ?_, hloop⟩
  have hshort : walk tree missing m real [name] = .error e := (hrest missing [name]).symm.trans he
  have hlong := walk_mono hm (by
    rw [hshort]
    rintro ⟨⟩
    exact hloop ⟨nofun, nofun⟩)
  have hthere := @walk_holds tree missing n [] real [name] hproper (by simpa using hholds)
  rw [realpath, hthere, List.nil_append, hlong, hshort]

theorem canonicalFrom_found {names : List String} {p : Location}
    (h : realpath tree n names.reverse = .ok p) : canonicalFrom tree n names = .ok p := by
  cases names with
  | nil =>
    rw [List.reverse_nil] at h
    rw [canonicalFrom, h]
  | cons name parents => rw [canonicalFrom, h]

theorem canonicalFrom_unresolved {parents : List String} {parent : Location}
    (h : Unresolved tree n (name :: parents).reverse)
    (hparent : canonicalFrom tree n parents = .ok parent) :
    canonicalFrom tree n (name :: parents) = .ok (push parent name) := by
  obtain ⟨e, he, hmissing⟩ := h
  rw [canonicalFrom, he]
  simp only
  rw [if_neg hmissing, hparent]
  rfl

theorem push_proper {location : Location} (h : Proper name) :
    push location name = location ++ [name] := by
  rw [push, if_neg h.2.2.1, if_neg h.2.1]

/-- What `canonicalFrom` returns is there, or lies behind what is not resolved. -/
theorem canonicalFrom_cases (hroot : tree.Holds []) {names : List String}
    (hnames : ∀ name ∈ names, Proper name) {p : Location} (h : canonicalFrom tree n names = .ok p) :
    realpath tree n names.reverse = .ok p ∨ Behind tree n p := by
  induction names generalizing p with
  | nil =>
    have hnil : realpath tree n [] = .ok [] := walk_nil
    rw [canonicalFrom, hnil] at h
    cases h
    exact .inl hnil
  | cons name parents ih =>
    have hname := hnames name (.head _)
    have hparents := fun n hn => hnames n (.tail _ hn)
    have hreversed : ∀ n ∈ parents.reverse, Proper n := fun n hn =>
      hparents n (List.mem_reverse.mp hn)
    cases hpath : realpath tree n (name :: parents).reverse with
    | ok found =>
      rw [canonicalFrom, hpath] at h
      cases h
      exact .inl rfl
    | error e =>
      rw [canonicalFrom, hpath] at h
      simp only at h
      split at h
      · cases h
      next hmissing =>
      cases hparent : canonicalFrom tree n parents with
      | error e => simp [hparent, Except.map] at h
      | ok parent =>
        rw [hparent, Except.map, push_proper hname] at h
        cases h
        obtain hfound | ⟨real, first, rest, rfl, hreal, hproper, hfirst⟩ := ih hparents hparent
        · have hunresolved : Unresolved tree n (parents.reverse ++ [name]) :=
            ⟨e, by rwa [List.reverse_cons] at hpath, hmissing⟩
          obtain ⟨hholds, hproper⟩ := walk_found hfound hroot (by simp) fun n hn _ _ =>
            hreversed n hn
          refine .inr ⟨parent, name, [], rfl, hholds, fun n hn => ?_,
            unresolved_of_parent hroot hreversed hfound hunresolved⟩
          obtain hn | hn := List.mem_append.mp hn
          · exact hproper n hn
          · rwa [List.mem_singleton.mp hn]
        · refine .inr ⟨real, first, rest ++ [name], by simp, hreal, fun n hn => ?_, hfirst⟩
          obtain hn | hn := List.mem_append.mp hn
          · exact hproper n hn
          · rwa [List.mem_singleton.mp hn]

/-- Canonicalizing what is canonical changes nothing. -/
theorem canonicalPath_behind (h : Behind tree n path) : canonicalPath tree n path = .ok path := by
  obtain ⟨real, name, rest, rfl, hreal, hproper, e, he, hmissing⟩ := h
  have hrealProper : ∀ n ∈ real, Proper n := fun n hn => hproper n (List.mem_append_left _ hn)
  have hthere : realpath tree n real = .ok real := realpath_holds hreal hrealProper
  have hback : ∀ tail : List String, (∀ n ∈ tail, Proper n) →
      canonicalFrom tree n (tail ++ name :: real.reverse) =
        .ok (real ++ name :: tail.reverse) := by
    intro tail htail
    induction tail with
    | nil =>
      rw [List.nil_append, canonicalFrom_unresolved ⟨e, by simpa using he, hmissing⟩
        (canonicalFrom_found (by rwa [List.reverse_reverse])),
        push_proper (hproper name (by simp))]
      rfl
    | cons last tail ih =>
      have hunresolved : Unresolved tree n (last :: (tail ++ name :: real.reverse)).reverse := by
        refine ⟨e, ?_, hmissing⟩
        have hlong := @walk_append_error tree n [] (real ++ [name]) (tail.reverse ++ [last]) e he
        simpa [realpath] using hlong
      rw [List.cons_append, canonicalFrom_unresolved hunresolved
        (ih fun n hn => htail n (.tail _ hn)), push_proper (htail last (.head _))]
      simp
  have hrest := hback rest.reverse fun n hn => hproper n (by
    simp [List.mem_reverse.mp hn])
  rw [canonicalPath, List.reverse_append, List.reverse_cons, List.append_assoc]
  simpa using hrest

def paths (r : ResourceRequirements) : List String :=
  r.readPaths ++ r.writePaths ++ r.workingDirectory.toList

/-- What is accepted for the workspace and canonicalized with a request leads into the workspace. -/
def Confined (tree : Node) (n : ℕ) (workspace : WorkspaceRoot tree) : Prop :=
  ∀ candidate request : ActionRequest,
    (∀ path ∈ paths candidate.requirements, ∃ input label,
      resolveWorkspacePath tree n workspace.root input label = .ok path) →
    canonicalizeActionRequest (canonicalText tree n) candidate = .ok request →
    ∀ path ∈ paths request.requirements, ∀ location,
      locate tree n (components path) = .ok location → workspace.root <+: location

/-- No link in the workspace that is not resolved leads out of it. -/
def LinksStayInside (tree : Node) (n : ℕ) (workspace : WorkspaceRoot tree) : Prop :=
  ∀ link, (∀ name ∈ link, Proper name) → workspace.root <+: link →
    (tree.entry link).any Node.isLink → Unresolved tree n link →
    ∀ location, locate tree n link = .ok location → workspace.root <+: location

theorem canonicalText_text {p : Location} (hproper : ∀ name ∈ path, Proper name)
    (h : canonicalPath tree n path = .ok p) : canonicalText tree n (text path) = .ok (text p) := by
  rw [canonicalText, components_text hproper, h]
  rfl

theorem accepted_cases {root : Location} (hroot : tree.Holds [])
    (hproper : ∀ name ∈ root, Proper name) {input label accepted : String}
    (h : resolveWorkspacePath tree n root input label = .ok accepted) :
    ∃ p, accepted = text p ∧ (∀ name ∈ p, Proper name) ∧ root <+: p ∧
      (tree.Holds p ∨ Behind tree n p) ∧ canonicalText tree n accepted = .ok accepted := by
  unfold resolveWorkspacePath at h
  split at h
  · cases h
  next p hp =>
  split at h
  · cases h
  next hinside =>
  cases h
  have hresolved : ∀ name ∈ resolve root input, Proper name := proper_resolve hproper
  have hreversed : ∀ name ∈ (resolve root input).reverse, Proper name := fun name hname =>
    hresolved name (List.mem_reverse.mp hname)
  obtain hfound | hbehind := canonicalFrom_cases hroot hreversed hp
  · rw [List.reverse_reverse] at hfound
    obtain ⟨hholds, hfoundProper⟩ :=
      walk_found hfound hroot (by simp) fun name hname _ _ => hresolved name hname
    refine ⟨p, rfl, hfoundProper, (relative_head hfoundProper).mp hinside, .inl hholds, ?_⟩
    refine canonicalText_text hfoundProper (canonicalFrom_found ?_)
    rw [List.reverse_reverse]
    exact realpath_holds hholds hfoundProper
  · have hbehindProper : ∀ name ∈ p, Proper name := by
      obtain ⟨real, name, rest, -, -, hall, -⟩ := hbehind
      exact hall
    exact ⟨p, rfl, hbehindProper, (relative_head hbehindProper).mp hinside, .inr hbehind,
      canonicalText_text hbehindProper (canonicalPath_behind hbehind)⟩

theorem locate_holds (hreal : tree.Holds real) (hproper : ∀ name ∈ real, Proper name) :
    locate tree n real = .ok real := by
  have h := @walk_holds tree create n [] real [] hproper (by simpa using hreal)
  simpa [locate] using h

/-- Where a path leads whose next name is not resolved: to itself, or on from a link. -/
theorem locate_behind {name : String} {rest location : List String} (hreal : tree.Holds real)
    (hproper : ∀ n ∈ real ++ name :: rest, Proper n) (hname : Unresolved tree n (real ++ [name]))
    (h : locate tree n (real ++ name :: rest) = .ok location) :
    location = real ++ name :: rest ∨ (tree.entry (real ++ [name])).any Node.isLink ∧
      ∃ target, locate tree n (real ++ [name]) = .ok target ∧ location = target ++ rest := by
  have hrealProper : ∀ n ∈ real, Proper n := fun n hn => hproper n (List.mem_append_left _ hn)
  have hnil : tree.Holds ([] ++ real) := by simpa using hreal
  obtain ⟨e, he, -⟩ := hname
  have hfails : walk tree missing n real [name] = .error e := by
    have hthere := @walk_holds tree missing n [] real [name] hrealProper hnil
    rw [List.nil_append] at hthere
    exact hthere.symm.trans he
  have hlocate : ∀ names, locate tree n (real ++ names) = walk tree create n real names := by
    intro names
    have hthere := @walk_holds tree create n [] real names hrealProper hnil
    rwa [List.nil_append] at hthere
  have hrest : walk tree create n real ([name] ++ rest) =
      (walk tree create n real [name]).map (· ++ rest) :=
    walk_append_create hfails fun n hn => hproper n (by simp [hn])
  rw [hlocate, ← List.singleton_append, hrest] at h
  cases hone : walk tree create n real [name] with
  | error e => simp [hone, Except.map] at h
  | ok target =>
    rw [hone] at h
    cases h
    by_cases hlink : (tree.entry (real ++ [name])).any Node.isLink
    · exact .inr ⟨hlink, target, (hlocate [name]).trans hone, rfl⟩
    · refine .inl ?_
      obtain ⟨-, hdot, hdots, -⟩ := hproper name (by simp)
      rw [walk_cons] at hone hfails
      by_cases hdirectory : (!(tree.entry real).any Node.isDirectory) = true
      · rw [if_pos hdirectory] at hone
        cases hone
      rw [if_neg hdirectory] at hone
      rw [if_neg hdirectory] at hfails
      simp only [if_neg hdot, if_neg hdots] at hone hfails
      cases hentry : tree.entry (real ++ [name]) with
      | none =>
        rw [hentry] at hone
        simp only [create] at hone
        split at hone
        · cases hone
          simp
        · cases hone
      | some node =>
        rw [hentry] at hfails
        cases node with
        | link => simp [hentry, Node.isLink] at hlink
        | file | directory => simp at hfails

theorem prefix_of_unresolved {root : Location} {name : String} {rest : List String}
    (hdirectory : (tree.entry root).any Node.isDirectory) (hproper : ∀ n ∈ root, Proper n)
    (hinside : root <+: real ++ name :: rest) (hname : Unresolved tree n (real ++ [name])) :
    root <+: real ++ [name] := by
  have hpath : real ++ [name] <+: real ++ name :: rest := ⟨rest, by simp⟩
  obtain hle | hlt := Nat.lt_or_ge (real ++ [name]).length root.length |>.symm
  · exact List.prefix_of_prefix_length_le hinside hpath hle
  · obtain ⟨below, rfl⟩ := List.prefix_of_prefix_length_le hpath hinside hlt.le
    obtain ⟨e, he, -⟩ := hname
    have hholds := holds_of_append (holds_of_directory hdirectory)
    rw [realpath_holds hholds fun n hn => hproper n (List.mem_append_left _ hn)] at he
    cases he

theorem path_of_mapped {canonicalPath : String → Except String String} {r : ResourceRequirements}
    {reads writes : List String} {directory : Option String}
    (hreads : r.readPaths.mapM canonicalPath = .ok reads)
    (hwrites : r.writePaths.mapM canonicalPath = .ok writes)
    (hdirectory : r.workingDirectory.mapM canonicalPath = .ok directory) {path : String}
    (h : path ∈ reads.eraseDups ++ writes.eraseDups ++ directory.toList) :
    ∃ p ∈ paths r, canonicalPath p = .ok path := by
  simp only [List.mem_append, List.mem_eraseDups, Option.mem_toList] at h
  obtain (hread | hwrite) | hworking := h
  · obtain ⟨p, hp, hcanonical⟩ := Data.exists_of_mapM hreads path hread
    exact ⟨p, by simp [paths, hp], hcanonical⟩
  · obtain ⟨p, hp, hcanonical⟩ := Data.exists_of_mapM hwrites path hwrite
    exact ⟨p, by simp [paths, hp], hcanonical⟩
  · cases hp : r.workingDirectory with
    | none =>
      rw [hp] at hdirectory
      cases hdirectory
      cases hworking
    | some p =>
      rw [hp] at hdirectory
      obtain ⟨q, hq, rfl⟩ := Data.exists_of_map_ok hdirectory
      cases hworking
      exact ⟨p, by simp [paths, hp], hq⟩

theorem path_of_canonicalize {canonicalPath : String → Except String String}
    {candidate request : ActionRequest}
    (h : canonicalizeActionRequest canonicalPath candidate = .ok request) {path : String}
    (hpath : path ∈ paths request.requirements) :
    ∃ p ∈ paths candidate.requirements, canonicalPath p = .ok path := by
  simp only [canonicalizeActionRequest, bind, Except.bind, pure, Except.pure] at h
  split at h
  · cases h
  split at h
  · cases h
  split at h
  · cases h
  split at h
  · cases h
  next reads hreads =>
  split at h
  · cases h
  next writes hwrites =>
  split at h
  · cases h
  split at h
  · cases h
  next directory hdirectory =>
  cases h
  exact path_of_mapped hreads hwrites hdirectory hpath

/-- A request that reads one path. -/
def readRequest (path : String) : ActionRequest where
  id := "0f1e2d3c-4b5a-4000-8000-000000000001"
  idempotencyKey := "tool:1"
  capability := "tool:command"
  subject := ⟨.tool, "command"⟩
  input := .null
  requirements := { readPaths := [path] }
  expectedEffects := []
  verification := []
  scope := ⟨"thread", "turn", none⟩
  structureVersion := none

theorem canonicalize_readRequest (hroot : canonicalText tree n (text path) = .ok (text path)) :
    canonicalizeActionRequest (canonicalText tree n) (readRequest (text path)) =
      .ok (readRequest (text path)) := by
  have habsolute : absolutePath (text path) = true := by
    simp [absolutePath, Execution.isAbsolute, text, String.ext_iff]
  have haccepted : (readRequest (text path)).accepted = true := by
    simp [ActionRequest.accepted, ResourceRequirements.accepted, readRequest, habsolute]
  simp only [canonicalizeActionRequest, haccepted]
  simp [readRequest, hroot, bind, Except.bind, pure, Except.pure, List.eraseDups_cons]

/-- What is accepted leads into the workspace exactly when its links that are not resolved do. -/
theorem workspace_confined_iff (tree : Node) (n : ℕ) (workspace : WorkspaceRoot tree) :
    Confined tree n workspace ↔ LinksStayInside tree n workspace := by
  have hroot : tree.Holds [] := holds_nil (holds_of_directory workspace.directory)
  constructor
  · intro hconfined link hproper hinside hlink hunresolved location hlocation
    have hbehind : Behind tree n link := by
      obtain rfl | ⟨above, last, rfl⟩ := List.eq_nil_or_concat' link
      · obtain ⟨node, hnode, hnot⟩ := hroot
        simp [hnode, hnot] at hlink
      · obtain ⟨node, hnode, -⟩ := Option.any_eq_true .. |>.mp hlink
        exact ⟨above, last, [], rfl, holds_of_directory (isDirectory_of_entry hnode), hproper,
          hunresolved⟩
    have hcanonical := canonicalText_text hproper (canonicalPath_behind hbehind)
    have haccepted : resolveWorkspacePath tree n workspace.root (text link) "" =
        .ok (text link) := by
      rw [resolveWorkspacePath, resolve_text hproper, canonicalPath_behind hbehind]
      exact if_neg ((relative_head hproper).mpr hinside)
    refine hconfined (readRequest (text link)) _ (fun path hpath => ?_)
      (canonicalize_readRequest hcanonical) (text link) (.head _) location
      (by rwa [components_text hproper])
    have hpath : path = text link := by simpa [paths, readRequest] using hpath
    exact ⟨text link, "", by rw [hpath, haccepted]⟩
  · intro hlinks candidate request haccepted hcanonical path hpath location hlocation
    obtain ⟨accepted, hmem, hcanonicalized⟩ := path_of_canonicalize hcanonical hpath
    obtain ⟨input, label, hresolve⟩ := haccepted accepted hmem
    obtain ⟨p, rfl, hproper, hinside, hcases, hsame⟩ :=
      accepted_cases hroot workspace.proper hresolve
    obtain rfl : text p = path := Except.ok.inj (hsame.symm.trans hcanonicalized)
    rw [components_text hproper] at hlocation
    obtain hholds | ⟨real, name, rest, rfl, hreal, -, hname⟩ := hcases
    · rw [locate_holds hholds hproper] at hlocation
      cases hlocation
      exact hinside
    · obtain rfl | ⟨hlink, target, htarget, rfl⟩ := locate_behind hreal hproper hname hlocation
      · exact hinside
      · have hlinkInside :=
          prefix_of_unresolved workspace.directory workspace.proper hinside hname
        have hlinkProper : ∀ n ∈ real ++ [name], Proper n := fun n hn => hproper n (by
          obtain hn | hn := List.mem_append.mp hn
          · exact List.mem_append_left _ hn
          · exact List.mem_append_right _ (by simpa using .inl (List.mem_singleton.mp hn)))
        exact (hlinks _ hlinkProper hlinkInside hlink hname target htarget).trans
          (List.prefix_append _ _)

end Canonical

/-! ### A dangling link -/

def danglingTree : Node :=
  .directory [("ws", .directory [("out", .link "../outside/new")]), ("outside", .directory [])]

def danglingRoot : WorkspaceRoot danglingTree := ⟨["ws"], by simp [Proper], rfl⟩

/-- The link is accepted as a path of the workspace, and what is written through it is created
outside. -/
theorem written_outside :
    resolveWorkspacePath danglingTree 40 danglingRoot.root "out" "Command writePath" =
      .ok "/ws/out" ∧
    canonicalText danglingTree 40 "/ws/out" = .ok "/ws/out" ∧
    locate danglingTree 40 (components "/ws/out") = .ok ["outside", "new"] ∧
    ¬ Confined danglingTree 40 danglingRoot := by
  have haccepted :
      resolveWorkspacePath danglingTree 40 danglingRoot.root "out" "Command writePath" =
        .ok "/ws/out" := by decide +kernel
  have hlocated : locate danglingTree 40 (components "/ws/out") = .ok ["outside", "new"] := by
    decide +kernel
  have htext : text ["ws", "out"] = "/ws/out" := by decide +kernel
  have hcanonical : canonicalText danglingTree 40 "/ws/out" = .ok "/ws/out" := by decide +kernel
  refine ⟨haccepted, hcanonical, hlocated, fun hconfined => ?_⟩
  have hinside := hconfined (readRequest (text ["ws", "out"])) _ (fun path hpath => ?_)
    (canonicalize_readRequest (by rwa [htext])) (text ["ws", "out"]) (.head _)
    ["outside", "new"] hlocated
  · simp [danglingRoot, List.cons_prefix_cons] at hinside
  · have hpath : path = text ["ws", "out"] := by simpa [paths, readRequest] using hpath
    exact ⟨"out", "Command writePath", by rw [haccepted, hpath, htext]⟩

end BeeAgent.Runtime.Workspace
