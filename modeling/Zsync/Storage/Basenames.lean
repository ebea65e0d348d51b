import Zsync.Foundations.Json
import Zsync.Foundations.UnixPaths

/-! # `clipboard/mod.rs`: `sanitize_basename`

The name of a clip comes from another device and becomes the name of a file. `sanitize_basename` takes the last
component, looks whether it is `.` or `..`, and then takes separators and NULs out of it.

* `SafeName` : what `write_clip_file` relies on.
* `safe_iff` : the result is a safe name exactly when the last component does not become `.` or `..` by losing its
  backslashes and NULs.
-/

namespace Zsync
set_option autoImplicit false
set_option maxHeartbeats 250000
open Foundations.Json Foundations.UnixPaths

namespace Basename

/-- `Path::new(name).file_name()?.to_str()?` -/
def base (name : String) : Option (List Char) := (fileName (utf8 name.toList)).bind ofUtf8

/-- What the filter of `sanitize_basename` keeps. -/
def kept (c : Char) : Bool := c ≠ '/' && c ≠ '\\' && c ≠ '\x00'

def sanitizeBasename (name : String) : Option String :=
  match base name with
  | none => none
  | some base =>
    if base = [] ∨ base = ['.'] ∨ base = ['.', '.'] then none
    else
      let cleaned := (base.filter kept).take 255
      if cleaned = [] then none else some (String.ofList cleaned)

/-- A single component that can stand in any directory, and that is not changed again. -/
structure SafeName (s : String) : Prop where
  nonempty : s ≠ ""
  ne_dot : s ≠ "."
  ne_dotdot : s ≠ ".."
  kept : ∀ c ∈ s.toList, kept c = true
  child : ∀ dir, DirectChild dir (join dir (utf8 s.toList)) (utf8 s.toList)
  again : sanitizeBasename s = some s

/-- The last component of `name` is there, and what is left of it is one of the two special names. -/
def Dotted (name : String) : Prop :=
  ∃ b, base name = some b ∧ (b.filter kept = ['.'] ∨ b.filter kept = ['.', '.'])

/-! ## Names of characters and of bytes -/

theorem plain_utf8 {s : List Char} (hne : s ≠ []) (hdot : s ≠ ['.']) (hdots : s ≠ ['.', '.'])
    (hkept : ∀ c ∈ s, kept c = true) : Plain (utf8 s) where
  nonempty := fun h => hne (utf8_injective h)
  slash_notMem := by
    intro h
    obtain ⟨c, hc, hval⟩ := ascii_mem_utf8 (by decide) h
    have hslash : c = '/' := Char.ext (UInt32.toNat_inj.mp hval)
    have hk := hkept c hc
    rw [hslash] at hk
    exact absurd hk (by decide)
  ne_dot := fun h => hdot (utf8_injective h)
  ne_dotdot := fun h => hdots (utf8_injective h)

theorem filter_kept_self {s : List Char} (h : ∀ c ∈ s, kept c = true) : s.filter kept = s :=
  List.filter_eq_self.mpr h

theorem base_special {name : String} {b : List Char} (h : base name = some b) :
    ¬ (b = [] ∨ b = ['.'] ∨ b = ['.', '.']) := by
  unfold base at h
  obtain ⟨bytes, hname, hb⟩ := Option.bind_eq_some_iff.mp h
  obtain rfl := utf8_of_ofUtf8 hb
  obtain ⟨hempty, hdot, hdots⟩ := fileName_special hname
  rintro (rfl | rfl | rfl)
  · exact hempty rfl
  · exact hdot rfl
  · exact hdots rfl

/-- A name that needs no cleaning is its own result. -/
theorem sanitize_plain {s : List Char} (hne : s ≠ []) (hdot : s ≠ ['.']) (hdots : s ≠ ['.', '.'])
    (hkept : ∀ c ∈ s, kept c = true) (hlen : s.length ≤ 255) :
    sanitizeBasename (String.ofList s) = some (String.ofList s) := by
  have hbase : base (String.ofList s) = some s := by
    rw [base, String.toList_ofList, fileName_plain (plain_utf8 hne hdot hdots hkept), Option.bind_some, ofUtf8_utf8]
  have hspecial : ¬ (s = [] ∨ s = ['.'] ∨ s = ['.', '.']) := by
    simp [hne, hdot, hdots]
  rw [sanitizeBasename, hbase]
  dsimp only
  rw [if_neg hspecial, filter_kept_self hkept, List.take_of_length_le hlen, if_neg hne]

/-! ## The result -/

theorem sanitize_some {name s : String} (h : sanitizeBasename name = some s) :
    ∃ b, base name = some b ∧ (b.filter kept).take 255 ≠ [] ∧ s = String.ofList ((b.filter kept).take 255) := by
  unfold sanitizeBasename at h
  cases hb : base name with
  | none =>
    rw [hb] at h
    cases h
  | some b =>
    rw [hb] at h
    dsimp only at h
    split_ifs at h with hspecial hempty
    exact ⟨b, rfl, hempty, (Option.some.inj h).symm⟩

/-- Truncation neither makes nor unmakes a short name. -/
theorem take_eq_short {l t : List Char} (h : t.length < 255) : l.take 255 = t ↔ l = t := by
  constructor
  · intro heq
    have hlen := congrArg List.length heq
    rw [List.length_take] at hlen
    rwa [List.take_of_length_le (by omega)] at heq
  · rintro rfl
    exact List.take_of_length_le (Nat.le_of_lt h)

theorem safe_of_undotted {name s : String} (hd : ¬ Dotted name) (h : sanitizeBasename name = some s) :
    SafeName s := by
  obtain ⟨b, hb, hne, rfl⟩ := sanitize_some h
  have hdot : (b.filter kept).take 255 ≠ ['.'] := fun heq =>
    hd ⟨b, hb, .inl ((take_eq_short (by decide)).mp heq)⟩
  have hdots : (b.filter kept).take 255 ≠ ['.', '.'] := fun heq =>
    hd ⟨b, hb, .inr ((take_eq_short (by decide)).mp heq)⟩
  have hkept : ∀ c ∈ (b.filter kept).take 255, kept c = true := fun c hc =>
    (List.mem_filter.mp (List.mem_of_mem_take hc)).2
  have hlen : ((b.filter kept).take 255).length ≤ 255 := List.length_take_le _ _
  generalize (b.filter kept).take 255 = l at hne hdot hdots hkept hlen
  exact {
    nonempty := fun heq => hne (by simpa using congrArg String.toList heq)
    ne_dot := fun heq => hdot (by simpa using congrArg String.toList heq)
    ne_dotdot := fun heq => hdots (by simpa using congrArg String.toList heq)
    kept := by rwa [String.toList_ofList]
    child := by
      intro dir
      rw [String.toList_ofList]
      exact components_join dir (plain_utf8 hne hdot hdots hkept)
    again := sanitize_plain hne hdot hdots hkept hlen }

/-- The result for a name is safe exactly when its last component does not turn into `.` or `..`. -/
theorem safe_iff (name : String) : (∀ s, sanitizeBasename name = some s → SafeName s) ↔ ¬ Dotted name := by
  constructor
  · rintro h ⟨b, hb, hdots⟩
    have hspecial := base_special hb
    have hresult : sanitizeBasename name =
        if (b.filter kept).take 255 = [] then none else some (String.ofList ((b.filter kept).take 255)) := by
      rw [sanitizeBasename, hb]
      exact if_neg hspecial
    obtain hdot | hdot := hdots
    · rw [hdot] at hresult
      exact (h "." hresult).ne_dot rfl
    · rw [hdot] at hresult
      exact (h ".." hresult).ne_dotdot rfl
  · intro hd s hs
    exact safe_of_undotted hd hs

/-! ### Dots and a backslash -/

theorem base_dotsBackslash : base "..\\" = some ['.', '.', '\\'] := by
  have hname : fileName (utf8 ['.', '.', '\\']) = some (utf8 ['.', '.', '\\']) := by decide
  have hchars : ("..\\" : String).toList = ['.', '.', '\\'] := by decide
  rw [base, hchars, hname, Option.bind_some, ofUtf8_utf8]

/-- A clip that is named so is written to the parent of the directory. -/
theorem dotsBackslash_unsafe :
    sanitizeBasename "..\\" = some ".." ∧ ¬ SafeName ".." ∧
    components (join (utf8 ['/', 't', 'm', 'p']) (utf8 ['.', '.'])) =
      components (utf8 ['/', 't', 'm', 'p']) ++ [.parentDir] := by
  refine ⟨?_, fun h => h.ne_dotdot rfl, by decide⟩
  rw [sanitizeBasename, base_dotsBackslash]
  decide

end Basename
end Zsync
