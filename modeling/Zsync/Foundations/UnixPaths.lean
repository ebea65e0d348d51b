import Mathlib.Tactic.Common
import Mathlib.Algebra.Group.Nat.Defs
import Mathlib.Data.List.Basic

/-! # Unix paths as bytes

`components`, `fileName` and `join` follow `std::path` on Unix: a path is any byte string, `/` is the only separator,
and empty and `.` segments count for nothing, except a `.` in front.

* `Plain` : the names of single entries.
* `components_join` : a plain name is added as one component, whatever the directory.
* `fileName_plain` : and it is its own file name.
-/

namespace Foundations.UnixPaths
set_option autoImplicit false
set_option maxHeartbeats 250000

abbrev PathBytes := List UInt8

def slash : UInt8 := 47
def dot : UInt8 := 46

inductive Component
  | rootDir
  | curDir
  | parentDir
  | normal (name : PathBytes)
  deriving DecidableEq, Repr

/-- The component of a segment that is not the first one. -/
def component? (seg : PathBytes) : Option Component :=
  if seg = [] ∨ seg = [dot] then none
  else if seg = [dot, dot] then some .parentDir
  else some (.normal seg)

/-- What stands in front of the segments. -/
def leading (p : PathBytes) : List Component :=
  if p.head? = some slash then [.rootDir]
  else if (p.splitOn slash).head? = some [dot] then [.curDir]
  else []

/-- `Path::components`. -/
def components (p : PathBytes) : List Component := leading p ++ (p.splitOn slash).filterMap component?

/-- `Path::file_name`: the last component, when it is a name. -/
def fileName (p : PathBytes) : Option PathBytes :=
  match (components p).getLast? with
  | some (.normal name) => some name
  | _ => none

/-- `Path::join`. -/
def join (p name : PathBytes) : PathBytes :=
  if name.head? = some slash then name
  else if p = [] ∨ p.getLast? = some slash then p ++ name
  else p ++ slash :: name

/-- `child` is the entry `name` of the directory `dir`. -/
def DirectChild (dir child name : PathBytes) : Prop := components child = components dir ++ [.normal name]

structure Plain (name : PathBytes) : Prop where
  nonempty : name ≠ []
  slash_notMem : slash ∉ name
  ne_dot : name ≠ [dot]
  ne_dotdot : name ≠ [dot, dot]

variable {name : PathBytes}

theorem Plain.component (h : Plain name) : component? name = some (.normal name) := by
  rw [component?, if_neg (not_or.mpr ⟨h.nonempty, h.ne_dot⟩), if_neg h.ne_dotdot]

theorem head_ne_slash (h : slash ∉ name) : name.head? ≠ some slash :=
  fun hh => h (List.mem_of_mem_head? hh)

theorem components_plain (h : Plain name) : components name = [.normal name] := by
  have hsplit : name.splitOn slash = [name] := List.splitOn_eq_singleton h.slash_notMem
  have hdot : ([name] : List PathBytes).head? ≠ some [dot] := fun hd => h.ne_dot (Option.some.inj hd)
  rw [components, leading, hsplit, if_neg (head_ne_slash h.slash_notMem), if_neg hdot, List.nil_append,
    List.filterMap_cons_some h.component, List.filterMap_nil]

theorem fileName_plain (h : Plain name) : fileName name = some name := by
  rw [fileName, components_plain h]
  rfl

/-- A file name is never empty, nor one of the special segments. -/
theorem fileName_special {p : PathBytes} (h : fileName p = some name) :
    name ≠ [] ∧ name ≠ [dot] ∧ name ≠ [dot, dot] := by
  have hmem : Component.normal name ∈ components p := by
    unfold fileName at h
    cases hlast : (components p).getLast? with
    | none =>
      rw [hlast] at h
      cases h
    | some c =>
      rw [hlast] at h
      cases c with
      | normal n =>
        obtain rfl := Option.some.inj h
        exact List.mem_of_getLast? hlast
      | rootDir => cases h
      | curDir => cases h
      | parentDir => cases h
  obtain hlead | hseg := List.mem_append.mp hmem
  · unfold leading at hlead
    split_ifs at hlead
    · cases List.mem_singleton.mp hlead
    · cases List.mem_singleton.mp hlead
    · cases hlead
  · obtain ⟨seg, _, hseg⟩ := List.mem_filterMap.mp hseg
    unfold component? at hseg
    split_ifs at hseg with hnoop hup
    · cases hseg
    · obtain rfl := Component.normal.inj (Option.some.inj hseg)
      exact ⟨fun h => hnoop (.inl h), fun h => hnoop (.inr h), hup⟩

theorem components_append (p : PathBytes) (h : Plain name) (hp : p ≠ []) :
    components (p ++ slash :: name) = components p ++ [.normal name] := by
  have hsplit : (p ++ slash :: name).splitOn slash = p.splitOn slash ++ [name] := by
    rw [List.splitOn_append_cons_self, List.splitOn_eq_singleton h.slash_notMem]
  have hhead : (p ++ slash :: name).head? = p.head? := List.head?_append_of_ne_nil p hp
  have hfirst : (p.splitOn slash ++ [name]).head? = (p.splitOn slash).head? :=
    List.head?_append_of_ne_nil _ (List.splitOn_ne_nil slash p)
  rw [components, components, leading, leading, hsplit, hhead, hfirst, List.filterMap_append,
    List.filterMap_cons_some h.component, List.filterMap_nil, List.append_assoc]

theorem components_concat_slash (p : PathBytes) (h : Plain name) :
    components (p ++ [slash] ++ name) = components (p ++ [slash]) ++ [.normal name] := by
  have hname : (p ++ slash :: name).splitOn slash = p.splitOn slash ++ [name] := by
    rw [List.splitOn_append_cons_self, List.splitOn_eq_singleton h.slash_notMem]
  have hend : (p ++ [slash]).splitOn slash = p.splitOn slash ++ [[]] := by
    rw [List.splitOn_append_cons_self, List.splitOn_nil]
  have hhead : (p ++ slash :: name).head? = (p ++ [slash]).head? := by
    cases p with
    | nil => rfl
    | cons b p => rfl
  have hne := List.splitOn_ne_nil slash p
  have hempty : component? [] = none := rfl
  rw [List.append_assoc, List.singleton_append, components, components, leading, leading, hname, hend, hhead,
    List.head?_append_of_ne_nil _ hne, List.head?_append_of_ne_nil _ hne, List.filterMap_append,
    List.filterMap_append, List.filterMap_cons_some h.component, List.filterMap_cons_none hempty,
    List.filterMap_nil, List.append_nil, List.append_assoc]

/-- A plain name leads to an entry of the directory. -/
theorem components_join (p : PathBytes) (h : Plain name) : DirectChild p (join p name) name := by
  unfold DirectChild join
  rw [if_neg (head_ne_slash h.slash_notMem)]
  by_cases hnil : p = []
  · subst hnil
    rw [if_pos (.inl rfl), List.nil_append, components_plain h]
    rfl
  · by_cases hlast : p.getLast? = some slash
    · obtain ⟨q, rfl⟩ := List.getLast?_eq_some_iff.mp hlast
      rw [if_pos (.inr hlast)]
      exact components_concat_slash q h
    · rw [if_neg (not_or.mpr ⟨hnil, hlast⟩)]
      exact components_append p h hnil

end Foundations.UnixPaths
