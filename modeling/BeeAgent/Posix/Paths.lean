import Mathlib.Data.List.Basic

/-! Absolute paths by the names that they consist of, and the operations on their texts. -/
namespace Posix

abbrev Location := List String

def Proper (name : String) : Prop := name ≠ "" ∧ name ≠ "." ∧ name ≠ ".." ∧ '/' ∉ name.toList

def isAbsolute (path : String) : Bool := path.toList.head? == some '/'

def components (path : String) : List String :=
  ((path.toList.splitOn '/').filter fun name => !name.isEmpty).map String.ofList

def text (location : Location) : String :=
  String.ofList ('/' :: ['/'].intercalate (location.map String.toList))

/-- A name is joined to a location, by the text alone. -/
def push (location : Location) (name : String) : Location :=
  if name = ".." then location.dropLast
  else if name = "." then location
  else location ++ [name]

def join (location : Location) (names : List String) : Location := names.foldl push location

/-- A path is resolved against a location, by the text alone. -/
def resolve (location : Location) (path : String) : Location :=
  join (if isAbsolute path then [] else location) (components path)

/-- The names that lead from one location to another. -/
def relative : Location → Location → List String
  | [], target => target
  | base, [] => base.map fun _ => ".."
  | b :: base, t :: target =>
    if b = t then relative base target else ".." :: base.map (fun _ => "..") ++ t :: target

instance (name : String) : Decidable (Proper name) := inferInstanceAs (Decidable (_ ∧ _ ∧ _ ∧ _))

section Lemmas
variable {location base target : Location} {name path : String} {names : List String}

theorem components_text (h : ∀ name ∈ location, Proper name) :
    components (text location) = location := by
  have hnonempty : ∀ name ∈ location.map String.toList, (!name.isEmpty) = true := by
    intro name hname
    obtain ⟨s, hs, rfl⟩ := List.mem_map.mp hname
    simpa using (h s hs).1
  have hsplit : ('/' :: ['/'].intercalate (location.map String.toList)).splitOn '/' =
      [] :: if location = [] then [[]] else location.map String.toList := by
    cases location with
    | nil => rfl
    | cons name rest =>
      have hfree : ∀ l ∈ [] :: (name :: rest).map String.toList, '/' ∉ l := by
        intro l hl
        obtain rfl | hl := List.mem_cons.mp hl
        · simp
        · obtain ⟨s, hs, rfl⟩ := List.mem_map.mp hl
          exact (h s hs).2.2.2
      have hcons : '/' :: ['/'].intercalate ((name :: rest).map String.toList) =
          ['/'].intercalate ([] :: (name :: rest).map String.toList) := by
        simp [List.intercalate]
      rw [hcons, List.splitOn_intercalate '/' hfree (by simp), if_neg (by simp)]
  rw [components, text, String.toList_ofList, hsplit]
  cases location with
  | nil => rfl
  | cons name rest =>
    rw [if_neg (by simp), List.filter_cons_of_neg (by simp), List.filter_eq_self.mpr hnonempty,
      List.map_map]
    simp

theorem notMem_of_mem_splitOn {α : Type*} [BEq α] [LawfulBEq α] {a : α} {l part : List α}
    (h : part ∈ l.splitOn a) : a ∉ part := by
  induction l generalizing part with
  | nil =>
    rw [List.splitOn_nil, List.mem_singleton] at h
    simp [h]
  | cons x l ih =>
    rw [List.splitOn_cons_eq_if_modifyHead] at h
    split at h
    · obtain rfl | h := List.mem_cons.mp h
      · simp
      · exact ih h
    · next hx =>
      cases hsplit : l.splitOn a with
      | nil => simp [hsplit] at h
      | cons first rest =>
        rw [hsplit, List.modifyHead_cons] at h
        obtain rfl | h := List.mem_cons.mp h
        · have hfirst := @ih first (by simp [hsplit])
          have hne : a ≠ x := fun heq => hx (by simp [heq])
          simp [hne, hfirst]
        · exact ih (by simp [hsplit, h])

theorem proper_components (h : name ∈ components path) (hdot : name ≠ ".") (hdots : name ≠ "..") :
    Proper name := by
  obtain ⟨part, hpart, rfl⟩ := List.mem_map.mp h
  obtain ⟨hpart, hne⟩ := List.mem_filter.mp hpart
  refine ⟨?_, hdot, hdots, ?_⟩
  · simpa [String.ext_iff] using hne
  · rw [String.toList_ofList]
    exact notMem_of_mem_splitOn hpart

theorem join_proper (h : ∀ name ∈ names, Proper name) :
    join location names = location ++ names := by
  induction names generalizing location with
  | nil => simp [join]
  | cons name names ih =>
    obtain ⟨-, hdot, hdots, -⟩ := h name (.head _)
    have hrest := @ih (location ++ [name]) fun n hn => h n (.tail _ hn)
    simpa [join, push, hdot, hdots] using hrest

theorem proper_join (hlocation : ∀ name ∈ location, Proper name)
    (hnames : ∀ name ∈ names, name ≠ "." → name ≠ ".." → Proper name) :
    ∀ name ∈ join location names, Proper name := by
  induction names generalizing location with
  | nil => exact hlocation
  | cons name names ih =>
    refine ih (fun n hn => ?_) fun n hn => hnames n (.tail _ hn)
    unfold push at hn
    split at hn
    · exact hlocation n (List.dropLast_subset _ hn)
    split at hn
    · exact hlocation n hn
    · next hdots hdot =>
      obtain hn | hn := List.mem_append.mp hn
      · exact hlocation n hn
      · rw [List.mem_singleton.mp hn]
        exact hnames name (.head _) hdot hdots

theorem proper_resolve (h : ∀ name ∈ location, Proper name) :
    ∀ name ∈ resolve location path, Proper name := by
  refine proper_join ?_ fun name hname hdot hdots => proper_components hname hdot hdots
  split
  · simp
  · exact h

theorem isAbsolute_text : isAbsolute (text location) := by
  simp [isAbsolute, text]

theorem resolve_text (h : ∀ name ∈ location, Proper name) :
    resolve base (text location) = location := by
  rw [resolve, if_pos isAbsolute_text, components_text h, join_proper h, List.nil_append]

/-- A location lies below another one exactly when the way there does not lead upwards. -/
theorem relative_head (h : ∀ name ∈ target, Proper name) :
    (relative base target).head? ≠ some ".." ↔ base <+: target := by
  induction base generalizing target with
  | nil =>
    cases target with
    | nil => simp [relative]
    | cons t target => simpa [relative] using (h t (.head _)).2.2.1
  | cons b base ih =>
    cases target with
    | nil => simp [relative]
    | cons t target =>
      by_cases heq : b = t
      · subst heq
        rw [relative, if_pos rfl, ih fun n hn => h n (.tail _ hn), List.prefix_cons_inj]
      · simp [relative, heq, List.cons_prefix_cons]

end Lemmas

end Posix
