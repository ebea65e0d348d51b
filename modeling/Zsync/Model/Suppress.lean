import Mathlib.Tactic.Common
import Mathlib.Data.List.GetD
import Mathlib.Logic.Function.Basic

/-! # `suppress.rs`: the echo table and the highest sequence per origin

Instants are natural numbers (ticks of the monotonic clock) and `t.elapsed()` is `now - t`, which
saturates at `0` as in the standard library. A `HashMap` is the function of its entries. The bounds
that `Suppress::new` and the eviction loop of `add` establish are fields, so every `Suppress` value
has at most `max ≥ 8` ring entries.
-/

namespace Zsync
set_option autoImplicit false
set_option maxHeartbeats 250000

/-! ## `Suppress` -/

structure Suppress where
  ttl : ℕ
  max : ℕ
  items : String → Option ℕ
  ring : List String
  eight_le : 8 ≤ max
  ring_le : ring.length ≤ max

namespace Suppress

def new (ttl max : ℕ) : Suppress where
  ttl := ttl
  max := Nat.max max 8
  items := fun _ => none
  ring := []
  eight_le := Nat.le_max_right max 8
  ring_le := Nat.zero_le _

/-- `t.elapsed() > ttl` for the entry of `h`. -/
def expired (ttl now : ℕ) (items : String → Option ℕ) (h : String) : Bool :=
  match items h with
  | some t => decide (ttl < now - t)
  | none => false

/-- The `while self.ring.len() > self.max` loop of `add`. -/
def evict (ttl max now : ℕ) (items : String → Option ℕ) :
    List String → (String → Option ℕ) × List String
  | [] => (items, [])
  | old :: rest =>
    if max < (old :: rest).length then
      evict ttl max now
        (if expired ttl now items old then Function.update items old none else items) rest
    else (items, old :: rest)

def gc (ttl now : ℕ) (ring : List String) (items : String → Option ℕ) : String → Option ℕ :=
  fun h => if expired ttl now items h = false ∨ h ∈ ring then items h else none

theorem evict_ring (ttl max now : ℕ) (items : String → Option ℕ) (ring : List String) :
    (evict ttl max now items ring).2 = ring.drop (ring.length - max) := by
  induction ring generalizing items with
  | nil => rw [evict, List.drop_nil]
  | cons old rest ih =>
    unfold evict
    split_ifs with h h'
    · rw [ih, List.length_cons, Nat.succ_sub (by rw [List.length_cons] at h; omega),
        List.drop_succ_cons]
    · rw [ih, List.length_cons, Nat.succ_sub (by rw [List.length_cons] at h; omega),
        List.drop_succ_cons]
    · rw [Nat.sub_eq_zero_of_le (Nat.not_lt.mp h), List.drop_zero]

theorem evict_ring_length (ttl max now : ℕ) (items : String → Option ℕ) (ring : List String) :
    (evict ttl max now items ring).2.length ≤ max := by
  rw [evict_ring, List.length_drop]
  omega

def add (s : Suppress) (now : ℕ) (hash : String) : Suppress :=
  if hash = "" then s
  else
    let items := Function.update s.items hash (some now)
    let kept := evict s.ttl s.max now items (s.ring ++ [hash])
    { s with
      items := gc s.ttl now kept.2 kept.1
      ring := kept.2
      ring_le := evict_ring_length s.ttl s.max now items (s.ring ++ [hash]) }

def has (s : Suppress) (now : ℕ) (hash : String) : Bool :=
  if hash = "" then false
  else
    match s.items hash with
    | some t => decide (now - t ≤ s.ttl) || s.ring.contains hash
    | none => s.ring.contains hash

/-! ### What `add` does to the ring and to `has` -/

@[simp] theorem add_empty (s : Suppress) (now : ℕ) : s.add now "" = s := rfl

@[simp] theorem add_ttl (s : Suppress) (now : ℕ) (h : String) : (s.add now h).ttl = s.ttl := by
  unfold add; split_ifs <;> rfl

@[simp] theorem add_max (s : Suppress) (now : ℕ) (h : String) : (s.add now h).max = s.max := by
  unfold add; split_ifs <;> rfl

theorem add_ring (s : Suppress) (now : ℕ) {h : String} (hne : h ≠ "") :
    (s.add now h).ring = (s.ring ++ [h]).drop (s.ring.length + 1 - s.max) := by
  rw [add, if_neg hne]
  simp only [evict_ring, List.length_append, List.length_cons, List.length_nil, Nat.zero_add]

/-- The newest entry is in the ring. -/
theorem mem_ring_add (s : Suppress) (now : ℕ) {h : String} (hne : h ≠ "") :
    h ∈ (s.add now h).ring := by
  rw [add_ring s now hne]
  have hle : s.ring.length + 1 - s.max ≤ s.ring.length := by
    have := s.eight_le
    omega
  rw [List.drop_append_of_le_length hle]
  exact List.mem_append_right _ (List.mem_singleton_self h)

/-- The entry of `h` is at most `ttl` old. -/
def Recent (s : Suppress) (now : ℕ) (h : String) : Prop :=
  ∃ t, s.items h = some t ∧ now - t ≤ s.ttl

theorem has_iff (s : Suppress) (now : ℕ) (h : String) :
    s.has now h = true ↔ h ≠ "" ∧ (s.Recent now h ∨ h ∈ s.ring) := by
  unfold has Recent
  by_cases hne : h = ""
  · simp [hne]
  · rw [if_neg hne]
    cases s.items h with
    | none => simp [hne]
    | some t => simp [hne]

theorem has_of_mem_ring (s : Suppress) (now : ℕ) {h : String} (hne : h ≠ "") (hm : h ∈ s.ring) :
    s.has now h = true :=
  (s.has_iff now h).mpr ⟨hne, .inr hm⟩

/-! ### Several additions at one instant -/

def adds (s : Suppress) (now : ℕ) (hashes : List String) : Suppress :=
  hashes.foldl (fun s h => s.add now h) s

/-- The additions that count. -/
def named (hashes : List String) : List String := hashes.filter fun h => h ≠ ""

theorem adds_ring (s : Suppress) (now : ℕ) (hashes : List String) :
    (s.adds now hashes).ring =
      (s.ring ++ named hashes).drop (s.ring.length + (named hashes).length - s.max) := by
  induction hashes generalizing s with
  | nil =>
    have := s.ring_le
    change s.ring = (s.ring ++ []).drop (s.ring.length + 0 - s.max)
    rw [List.append_nil, Nat.sub_eq_zero_of_le (by omega), List.drop_zero]
  | cons h hs ih =>
    change ((s.add now h).adds now hs).ring = _
    by_cases hne : h = ""
    · rw [hne, add_empty]
      exact ih s
    · have hcons : named (h :: hs) = h :: named hs := List.filter_cons_of_pos (by simpa using hne)
      have hring := add_ring s now hne
      have hlen := s.ring_le
      have hlen' : (s.add now h).ring.length =
          s.ring.length + 1 - (s.ring.length + 1 - s.max) := by
        rw [hring, List.length_drop, List.length_append, List.length_singleton]
      have hcut : s.ring.length + 1 - s.max ≤ (s.ring ++ [h]).length := by
        rw [List.length_append, List.length_singleton]
        omega
      have hsum : s.ring.length + 1 - s.max +
          ((s.add now h).ring.length + (named hs).length - s.max) =
          s.ring.length + (h :: named hs).length - s.max := by
        rw [List.length_cons]
        omega
      rw [ih, add_max, hcons, ← hsum, ← List.drop_drop, hring]
      rw [← List.drop_append_of_le_length hcut, List.append_assoc, List.singleton_append]

/-- The entries of the ring that these additions do not push out. -/
def spares (s : Suppress) (hashes : List String) : List String :=
  s.ring.drop (s.ring.length + (named hashes).length - s.max)

theorem mem_ring_adds_iff (s : Suppress) (now : ℕ) {hashes : List String} (hfew : hashes.length ≤ 8)
    {x : String} (hne : x ≠ "") : x ∈ (s.adds now hashes).ring ↔ x ∈ hashes ∨ x ∈ s.spares hashes := by
  have hnamed : (named hashes).length ≤ hashes.length := List.length_filter_le _ _
  have hcut : s.ring.length + (named hashes).length - s.max ≤ s.ring.length := by
    have := s.eight_le
    omega
  have hmem : x ∈ named hashes ↔ x ∈ hashes := by simp [named, hne]
  rw [adds_ring, List.drop_append_of_le_length hcut, List.mem_append, hmem, or_comm, spares]

/-- Up to eight additions are all still in the ring afterwards. -/
theorem mem_ring_adds (s : Suppress) (now : ℕ) {hashes : List String} (hfew : hashes.length ≤ 8)
    {x : String} (hx : x ∈ hashes) (hne : x ≠ "") : x ∈ (s.adds now hashes).ring :=
  (s.mem_ring_adds_iff now hfew hne).mpr (.inl hx)

theorem evict_items (ttl max now : ℕ) (items : String → Option ℕ) (ring : List String) (x : String) :
    (evict ttl max now items ring).1 x = items x ∨
      (evict ttl max now items ring).1 x = none ∧ expired ttl now items x = true := by
  induction ring generalizing items with
  | nil => exact .inl rfl
  | cons old rest ih =>
    unfold evict
    split_ifs with h he
    · by_cases hx : x = old
      · subst hx
        refine .inr ⟨?_, he⟩
        obtain hk | hk := ih (Function.update items x none)
        · rw [hk, Function.update_self]
        · exact hk.1
      · obtain hk | hk := ih (Function.update items old none)
        · rw [Function.update_of_ne hx] at hk
          exact .inl hk
        · refine .inr ⟨hk.1, ?_⟩
          have hk := hk.2
          rwa [expired, Function.update_of_ne hx] at hk
    · exact ih items
    · exact .inl rfl

/-- An entry is as old as its last addition. -/
theorem add_items {s : Suppress} {now t : ℕ} {h x : String} (hx : (s.add now h).items x = some t) :
    s.items x = some t ∨ x = h ∧ t = now := by
  by_cases hne : h = ""
  · rw [hne, add_empty] at hx
    exact .inl hx
  · rw [add, if_neg hne] at hx
    dsimp only at hx
    rw [gc] at hx
    split_ifs at hx
    obtain hev | hev := evict_items s.ttl s.max now (Function.update s.items h (some now))
      (s.ring ++ [h]) x
    · rw [hev, Function.update_apply] at hx
      split_ifs at hx with hxh
      · exact .inr ⟨hxh, (Option.some.inj hx).symm⟩
      · exact .inl hx
    · rw [hev.1] at hx
      cases hx

theorem adds_items {s : Suppress} {now t : ℕ} {hashes : List String} {x : String}
    (hx : (s.adds now hashes).items x = some t) : s.items x = some t ∨ x ∈ hashes ∧ t = now := by
  induction hashes generalizing s with
  | nil => exact .inl hx
  | cons h hs ih =>
    obtain hold | ⟨hmem, ht⟩ := ih hx
    · obtain hold | ⟨rfl, ht⟩ := add_items hold
      · exact .inl hold
      · exact .inr ⟨List.mem_cons_self, ht⟩
    · exact .inr ⟨List.mem_cons_of_mem h hmem, ht⟩

@[simp] theorem adds_ttl (s : Suppress) (now : ℕ) (hashes : List String) :
    (s.adds now hashes).ttl = s.ttl := by
  induction hashes generalizing s with
  | nil => rfl
  | cons h hs ih => exact (ih (s.add now h)).trans (add_ttl s now h)

/-- A later look at an entry other than the added one sees what it would have seen before. -/
theorem add_recent (s : Suppress) {now later : ℕ} (hle : now ≤ later) {h x : String} (hx : x ≠ h) :
    (s.add now h).Recent later x ↔ s.Recent later x := by
  by_cases hne : h = ""
  · rw [hne, add_empty]
  have hitems : (s.add now h).items x = s.items x ∨
      (s.add now h).items x = none ∧ expired s.ttl now s.items x = true := by
    rw [add, if_neg hne]
    dsimp only
    have hupd : Function.update s.items h (some now) x = s.items x := Function.update_of_ne hx ..
    have hexp : expired s.ttl now (Function.update s.items h (some now)) x =
        expired s.ttl now s.items x := by
      rw [expired, hupd]
      rfl
    have hev := evict_items s.ttl s.max now (Function.update s.items h (some now)) (s.ring ++ [h]) x
    rw [hupd, hexp] at hev
    rw [gc]
    split_ifs with hk
    · exact hev
    · simp only [not_or, Bool.not_eq_false] at hk
      obtain hev | hev := hev
      · refine .inr ⟨rfl, ?_⟩
        have := hk.1
        rwa [expired, hev] at this
      · exact .inr ⟨rfl, hev.2⟩
  rw [Recent, Recent, add_ttl]
  obtain hi | ⟨hi, he⟩ := hitems
  · rw [hi]
  · rw [hi]
    constructor
    · rintro ⟨t, ht, _⟩
      cases ht
    · rintro ⟨t, ht, hold⟩
      rw [expired, ht] at he
      have := of_decide_eq_true he
      omega

theorem adds_recent (s : Suppress) {now later : ℕ} (hle : now ≤ later) {hashes : List String}
    {x : String} (hx : x ∉ hashes) : (s.adds now hashes).Recent later x ↔ s.Recent later x := by
  induction hashes generalizing s with
  | nil => exact Iff.rfl
  | cons h hs ih =>
    rw [List.mem_cons, not_or] at hx
    exact (ih (s.add now h) hx.2).trans (add_recent s hle hx.1)

/-- What is suppressed after a few additions: what was added, what is still recent, and the ring
entries that the additions did not push out. -/
theorem has_adds (s : Suppress) {now later : ℕ} (hle : now ≤ later) {hashes : List String}
    (hfew : hashes.length ≤ 8) (x : String) :
    (s.adds now hashes).has later x = true ↔ x ≠ "" ∧ (x ∈ hashes ∨ s.Recent later x ∨
      x ∈ s.ring.drop (s.ring.length + (named hashes).length - s.max)) := by
  have hnamed : (named hashes).length ≤ hashes.length := List.length_filter_le _ _
  have hcut : s.ring.length + (named hashes).length - s.max ≤ s.ring.length := by
    have := s.eight_le
    omega
  rw [has_iff, adds_ring, List.drop_append_of_le_length hcut, List.mem_append]
  constructor
  · rintro ⟨hx, h⟩
    refine ⟨hx, ?_⟩
    by_cases hm : x ∈ hashes
    · exact .inl hm
    · rw [adds_recent s hle hm] at h
      obtain h | h | h := h
      · exact .inr (.inl h)
      · exact .inr (.inr h)
      · exact absurd (List.mem_filter.mp h).1 hm
  · rintro ⟨hx, h⟩
    refine ⟨hx, ?_⟩
    have hn : x ∈ hashes → x ∈ named hashes := fun hm =>
      List.mem_filter.mpr ⟨hm, by simpa using hx⟩
    by_cases hm : x ∈ hashes
    · exact .inr (.inr (hn hm))
    · rw [adds_recent s hle hm]
      obtain h | h | h := h
      · exact absurd h hm
      · exact .inl h
      · exact .inr (.inl h)

end Suppress

/-! ## `SeenSeq` -/

/-- Highest applied sequence per origin. -/
structure SeenSeq where
  last : String → Option ℕ

namespace SeenSeq

def empty : SeenSeq := ⟨fun _ => none⟩

/-- The test of `accept`: no entry of the origin is as high as `seq`. -/
def fresh (s : SeenSeq) (origin : String) (seq : ℕ) : Bool :=
  match s.last origin with
  | some prev => decide (prev < seq)
  | none => true

def accept (s : SeenSeq) (origin : String) (seq : ℕ) : Bool × SeenSeq :=
  match s.last origin with
  | some prev =>
    if seq ≤ prev then (false, s) else (true, ⟨Function.update s.last origin (some seq)⟩)
  | none => (true, ⟨Function.update s.last origin (some seq)⟩)

theorem accept_of_fresh {s : SeenSeq} {origin : String} {seq : ℕ} (h : s.fresh origin seq = true) :
    s.accept origin seq = (true, ⟨Function.update s.last origin (some seq)⟩) := by
  unfold fresh at h
  unfold accept
  cases hl : s.last origin with
  | none => rfl
  | some prev =>
    rw [hl] at h
    simp only [decide_eq_true_eq] at h
    simp only [if_neg (Nat.not_le.mpr h)]

theorem accept_of_not_fresh {s : SeenSeq} {origin : String} {seq : ℕ}
    (h : s.fresh origin seq = false) : s.accept origin seq = (false, s) := by
  unfold fresh at h
  unfold accept
  cases hl : s.last origin with
  | none => rw [hl] at h; cases h
  | some prev =>
    rw [hl] at h
    simp only [decide_eq_false_iff_not, Nat.not_lt] at h
    simp only [if_pos h]

/-- A number of at least `seq` was accepted from the origin. -/
def UpTo (s : SeenSeq) (origin : String) (seq : ℕ) : Prop := ∃ n, s.last origin = some n ∧ seq ≤ n

theorem UpTo.stale {s : SeenSeq} {origin : String} {seq m : ℕ} (h : s.UpTo origin m)
    (hle : seq ≤ m) : s.fresh origin seq = false := by
  obtain ⟨n, hn, hm⟩ := h
  rw [fresh, hn]
  exact decide_eq_false (Nat.not_lt.mpr (Nat.le_trans hle hm))

theorem upTo_of_not_fresh {s : SeenSeq} {origin : String} {seq : ℕ}
    (h : s.fresh origin seq = false) : s.UpTo origin seq := by
  unfold fresh at h
  cases hl : s.last origin with
  | none =>
    rw [hl] at h
    cases h
  | some prev =>
    rw [hl] at h
    exact ⟨prev, hl, Nat.not_lt.mp (of_decide_eq_false h)⟩

theorem UpTo.lt_of_fresh {s : SeenSeq} {origin : String} {seq m : ℕ} (h : s.UpTo origin m)
    (hf : s.fresh origin seq = true) : m < seq := by
  by_contra hle
  exact Bool.noConfusion (hf.symm.trans (h.stale (Nat.not_lt.mp hle)))

/-- Accepting a fresh number. -/
theorem UpTo.update {s : SeenSeq} {o origin : String} {seq m : ℕ} (h : s.UpTo origin m)
    (hf : s.fresh o seq = true) : UpTo ⟨Function.update s.last o (some seq)⟩ origin m := by
  by_cases ho : origin = o
  · subst ho
    exact ⟨seq, Function.update_self _ _ _, Nat.le_of_lt (h.lt_of_fresh hf)⟩
  · obtain ⟨n, hn, hle⟩ := h
    exact ⟨n, (Function.update_of_ne ho _ _).trans hn, hle⟩

theorem upTo_update (s : SeenSeq) (origin : String) (seq : ℕ) :
    UpTo ⟨Function.update s.last origin (some seq)⟩ origin seq :=
  ⟨seq, Function.update_self _ _ _, Nat.le_refl seq⟩

end SeenSeq
end Zsync
