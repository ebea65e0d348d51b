import Mathlib.Data.List.DropRight
import Zsync.Model.Suppress

/-! # What the echo table remembers

`Suppress` keeps a map from hashes to times and a ring of hashes, and trims them at different moments. Over a whole
history of additions both come to something simple.

* `ring_run` : the ring is the end of the list of additions.
* `recent_run` : an entry that was trimmed from the map was too old for every later look.
* `history_exact` : `has` is "added at most `ttl` ago, or among the last `max`", and the map holds nothing else as of the
  latest addition that named a hash. An addition of the empty hash returns at once and trims nothing.
-/

namespace Zsync
set_option autoImplicit false
set_option maxHeartbeats 250000

namespace Suppress

/-! ## Histories -/

/-- The table after the additions, each with its time. -/
def run (ttl max : ℕ) (adds : List (ℕ × String)) : Suppress :=
  adds.foldl (fun s a => s.add a.1 a.2) (new ttl max)

/-- Time does not run backwards. -/
def InOrder (adds : List (ℕ × String)) : Prop := adds.Pairwise fun a b => a.1 ≤ b.1

instance (adds : List (ℕ × String)) : Decidable (InOrder adds) := inferInstanceAs (Decidable (List.Pairwise _ _))

/-- The time of the latest addition of `h`. -/
def lastAdd (h : String) (adds : List (ℕ × String)) : Option ℕ :=
  (adds.reverse.find? fun a => a.2 = h).map Prod.fst

/-- The time of the latest addition that named a hash. -/
def lastNamed (adds : List (ℕ × String)) : Option ℕ :=
  (adds.reverse.find? fun a => a.2 ≠ "").map Prod.fst

def AddedWithin (ttl : ℕ) (adds : List (ℕ × String)) (now : ℕ) (h : String) : Prop :=
  ∃ t, lastAdd h adds = some t ∧ now - t ≤ ttl

/-- The last `max` hashes that were added, and at least eight. -/
def window (max : ℕ) (adds : List (ℕ × String)) : List String :=
  (named (adds.map Prod.snd)).rtake (Nat.max max 8)

variable {ttl max : ℕ} {adds : List (ℕ × String)}

theorem run_concat (a : ℕ × String) : run ttl max (adds ++ [a]) = (run ttl max adds).add a.1 a.2 := by
  unfold run
  rw [List.foldl_append]
  rfl

theorem lastAdd_concat (a : ℕ × String) (h : String) :
    lastAdd h (adds ++ [a]) = if a.2 = h then some a.1 else lastAdd h adds := by
  unfold lastAdd
  rw [List.reverse_concat, List.find?_cons]
  by_cases heq : a.2 = h
  · simp [heq]
  · simp [heq]

theorem lastNamed_concat (a : ℕ × String) :
    lastNamed (adds ++ [a]) = if a.2 = "" then lastNamed adds else some a.1 := by
  unfold lastNamed
  rw [List.reverse_concat, List.find?_cons]
  by_cases heq : a.2 = ""
  · simp [heq]
  · simp [heq]

theorem InOrder.concat {a : ℕ × String} (h : InOrder (adds ++ [a])) :
    InOrder adds ∧ ∀ b ∈ adds, b.1 ≤ a.1 := by
  obtain ⟨hadds, _, hle⟩ := List.pairwise_append.mp h
  exact ⟨hadds, fun b hb => hle b hb a (List.mem_singleton_self a)⟩

@[simp] theorem run_ttl : (run ttl max adds).ttl = ttl := by
  induction adds using List.reverseRecOn with
  | nil => rfl
  | append_singleton adds a ih => rw [run_concat, add_ttl, ih]

@[simp] theorem run_max : (run ttl max adds).max = Nat.max max 8 := by
  induction adds using List.reverseRecOn with
  | nil => rfl
  | append_singleton adds a ih => rw [run_concat, add_max, ih]

/-! ## The ring -/

theorem named_concat (hashes : List String) {h : String} (hne : h ≠ "") :
    named (hashes ++ [h]) = named hashes ++ [h] := by
  unfold named
  rw [List.filter_append, List.filter_singleton]
  simp [hne]

/-- Adding to a window that is full pushes its first entry out. -/
theorem rtake_concat_drop (l : List String) (x : String) (n : ℕ) :
    (l.rtake n ++ [x]).drop ((l.rtake n).length + 1 - n) = (l ++ [x]).rtake n := by
  have hcut : l.length - n ≤ l.length := Nat.sub_le _ _
  unfold List.rtake
  rw [← List.drop_append_of_le_length hcut, List.drop_drop, List.length_drop, List.length_append,
    List.length_singleton]
  congr 1
  omega

theorem ring_run : (run ttl max adds).ring = window max adds := by
  induction adds using List.reverseRecOn with
  | nil => exact (List.rtake_nil _).symm
  | append_singleton adds a ih =>
    rw [run_concat, window, List.map_append]
    by_cases hne : a.2 = ""
    · have hsame : named (adds.map Prod.snd ++ [a].map Prod.snd) = named (adds.map Prod.snd) := by
        unfold named
        rw [List.filter_append]
        simp [hne]
      rw [hne, add_empty, ih, hsame]
      rfl
    · have hcons := named_concat (adds.map Prod.snd) hne
      rw [List.map_singleton, hcons, add_ring _ _ hne, ih, run_max]
      exact rtake_concat_drop _ _ _

/-! ## The map -/

theorem add_items_self (s : Suppress) (now : ℕ) {h : String} (hne : h ≠ "") :
    (s.add now h).items h = some now := by
  have hring := mem_ring_add s now hne
  rw [add, if_neg hne] at hring ⊢
  dsimp only at hring ⊢
  obtain hev | ⟨_, hexp⟩ :=
    evict_items s.ttl s.max now (Function.update s.items h (some now)) (s.ring ++ [h]) h
  · rw [gc, if_pos (.inr hring), hev, Function.update_self]
  · rw [expired, Function.update_self] at hexp
    have := of_decide_eq_true hexp
    omega

/-- What an addition leaves in the map is in the ring or recent. -/
theorem add_trimmed (s : Suppress) (now : ℕ) {h x : String} {t : ℕ} (hne : h ≠ "")
    (hx : (s.add now h).items x = some t) : x ∈ (s.add now h).ring ∨ (s.add now h).Recent now x := by
  have hkept := hx
  rw [add, if_neg hne] at hkept
  dsimp only at hkept
  rw [gc] at hkept
  split_ifs at hkept with hk
  obtain hexp | hring := hk
  · rw [expired, hkept] at hexp
    have := of_decide_eq_false hexp
    refine .inr ⟨t, hx, ?_⟩
    rw [add_ttl]
    omega
  · left
    rw [add, if_neg hne]
    exact hring

theorem run_items_empty : (run ttl max adds).items "" = none := by
  induction adds using List.reverseRecOn with
  | nil => rfl
  | append_singleton adds a ih =>
    rw [run_concat]
    by_cases hne : a.2 = ""
    · rw [hne, add_empty, ih]
    · cases hx : ((run ttl max adds).add a.1 a.2).items "" with
      | none => rfl
      | some t =>
        obtain hold | ⟨heq, _⟩ := add_items hx
        · rw [ih] at hold
          cases hold
        · exact absurd heq.symm hne

/-- No look after the history misses an entry that was trimmed. -/
theorem recent_run (hs : InOrder adds) {later : ℕ} (hlater : ∀ a ∈ adds, a.1 ≤ later) {h : String} (hne : h ≠ "") :
    (run ttl max adds).Recent later h ↔ AddedWithin ttl adds later h := by
  induction adds using List.reverseRecOn with
  | nil =>
    constructor
    · rintro ⟨t, ht, _⟩
      cases ht
    · rintro ⟨t, ht, _⟩
      cases ht
  | append_singleton adds a ih =>
    have hle : a.1 ≤ later := hlater a (List.mem_append_right _ (List.mem_singleton_self a))
    have ih := ih hs.concat.1 fun b hb => hlater b (List.mem_append_left _ hb)
    rw [run_concat, AddedWithin, lastAdd_concat]
    by_cases heq : a.2 = h
    · subst heq
      rw [if_pos rfl, Recent, add_items_self _ _ hne, add_ttl, run_ttl]
    · rw [if_neg heq, add_recent _ hle fun h' => heq h'.symm]
      exact ih

/-! ## The table is what it is for -/

/-- The map holds what is in the ring, and what was added at most `ttl` before the latest addition that named a hash. -/
theorem trimmed_run (hs : InOrder adds) {x : String} {t : ℕ} (hx : (run ttl max adds).items x = some t) :
    x ∈ (run ttl max adds).ring ∨ ∃ now, lastNamed adds = some now ∧ AddedWithin ttl adds now x := by
  have hname : x ≠ "" := by
    rintro rfl
    rw [run_items_empty] at hx
    cases hx
  induction adds using List.reverseRecOn with
  | nil => cases hx
  | append_singleton adds a ih =>
    by_cases hne : a.2 = ""
    · have hother : a.2 ≠ x := fun h => hname (h.symm.trans hne)
      rw [run_concat, hne, add_empty] at hx ⊢
      obtain hring | ⟨now, hnow, hadded⟩ := ih hs.concat.1 hx
      · exact .inl hring
      · refine .inr ⟨now, ?_, ?_⟩
        · rwa [lastNamed_concat, if_pos hne]
        · rwa [AddedWithin, lastAdd_concat, if_neg hother]
    · rw [lastNamed_concat, if_neg hne]
      have hrun := @run_concat ttl max adds a
      rw [hrun] at hx ⊢
      obtain hring | hrecent := add_trimmed _ _ hne hx
      · exact .inl hring
      · right
        refine ⟨a.1, rfl, ?_⟩
        rw [← hrun] at hrecent
        refine (recent_run hs ?_ hname).mp hrecent
        intro b hb
        obtain hb | hb := List.mem_append.mp hb
        · exact hs.concat.2 b hb
        · rw [List.mem_singleton.mp hb]

/-- After any history of additions, `has` says what was added at most `ttl` ago or is among the last `max`. -/
theorem history_exact (ttl max : ℕ) (adds : List (ℕ × String)) (hs : InOrder adds) :
    (∀ now, (∀ a ∈ adds, a.1 ≤ now) → ∀ h, (run ttl max adds).has now h = true ↔
      h ≠ "" ∧ (AddedWithin ttl adds now h ∨ h ∈ window max adds)) ∧
    (run ttl max adds).ring.length ≤ Nat.max max 8 ∧
    ∀ x t, (run ttl max adds).items x = some t →
      x ∈ (run ttl max adds).ring ∨ ∃ now, lastNamed adds = some now ∧ AddedWithin ttl adds now x := by
  refine ⟨fun now hnow h => ?_, ?_, fun x t hx => trimmed_run hs hx⟩
  · rw [has_iff, ring_run]
    by_cases hne : h = ""
    · simp [hne]
    · rw [recent_run hs hnow hne]
  · have hle := (run ttl max adds).ring_le
    rwa [run_max] at hle

theorem history_added : (run 5 32 [(0, "aa"), (1, "bb")]).has 5 "aa" = true :=
  ((history_exact 5 32 [(0, "aa"), (1, "bb")] (by decide)).1 5 (by decide) "aa").mpr
    ⟨by decide, .inl ⟨0, by decide, by decide⟩⟩

/-! ### An addition that trims nothing -/

/-- The map holds what is in the ring or was added at most `ttl` before `now`. -/
def Trimmed (ttl max : ℕ) (adds : List (ℕ × String)) (now : ℕ) : Prop :=
  ∀ x t, (run ttl max adds).items x = some t → x ∈ (run ttl max adds).ring ∨ AddedWithin ttl adds now x

/-- Eight hashes push the first one out of the ring, and the empty one comes much later. -/
def emptyLater : List (ℕ × String) :=
  [(0, "aa"), (1, "b1"), (1, "b2"), (1, "b3"), (1, "b4"), (1, "b5"), (1, "b6"), (1, "b7"), (1, "b8"), (100, "")]

theorem emptyLater_untrimmed : InOrder emptyLater ∧ ¬ Trimmed 5 8 emptyLater 100 := by
  refine ⟨by decide, fun h => ?_⟩
  obtain hring | ⟨t, ht, hage⟩ := h "aa" 0 (by decide)
  · exact absurd hring (by decide)
  · have hzero : lastAdd "aa" emptyLater = some 0 := by decide
    rw [hzero] at ht
    obtain rfl := Option.some.inj ht
    exact absurd hage (by decide)

end Suppress
end Zsync
