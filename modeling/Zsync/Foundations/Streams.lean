import Mathlib.Algebra.GroupWithZero.Nat
import Zsync.Foundations.Reader

/-! # Reading whole streams of frames

`read` takes one frame from the front of a stream at once, as a reader that nothing interrupts does,
and `readAll` goes on until a read fails. What comes out is the list of frames and the failure.

* `readChunks_flatten` : a reader that gets the stream piece by piece reads what it reads of the whole.
* `feedAll_fresh` : the reader that takes one symbol at a time computes `read`, so chunks do not matter.
* `readAll_take` : a stream cut anywhere yields the frames wholly before the cut and then the end of
  the stream, whatever the payloads look like.
-/

namespace Foundations
set_option autoImplicit false
set_option maxHeartbeats 250000

universe u v
variable {α τ : Type u} {ε : Type v}

/-! ## What lies before a cut -/

/-- The entries that end at or before `k`, when they stand one after the other. -/
def wholeBefore (size : α → ℕ) : ℕ → List α → List α
  | _, [] => []
  | k, x :: xs => if size x ≤ k then x :: wholeBefore size (k - size x) xs else []

theorem wholeBefore_map {β : Type v} (size : β → ℕ) (g : α → β) (k : ℕ) (xs : List α) :
    wholeBefore size k (xs.map g) = (wholeBefore (fun x => size (g x)) k xs).map g := by
  induction xs generalizing k with
  | nil => rfl
  | cons x xs ih =>
    rw [List.map_cons, wholeBefore, wholeBefore]
    split_ifs
    · rw [ih, List.map_cons]
    · rfl

/-! ## One read -/

/-- The next `n` symbols, and what is left. -/
def readExact (eof : ε) (n : ℕ) (s : List α) : Except ε (List α × List α) :=
  if s.length < n then .error eof else .ok (s.take n, s.drop n)

theorem readExact_append (eof : ε) (s rest : List α) :
    readExact eof s.length (s ++ rest) = .ok (s, rest) := by
  have hlen : ¬ (s ++ rest).length < s.length := by
    rw [List.length_append]
    omega
  rw [readExact, if_neg hlen, List.take_left, List.drop_left]

theorem readExact_short (eof : ε) {n : ℕ} {s : List α} (h : s.length < n) :
    readExact eof n s = .error eof :=
  if_pos h

theorem readExact_length {eof : ε} {n : ℕ} {s : List α} {p : List α × List α}
    (h : readExact eof n s = .ok p) : p.1.length = n := by
  unfold readExact at h
  split_ifs at h with hshort
  obtain rfl := Except.ok.inj h
  rw [List.length_take]
  omega

theorem readExact_rest {eof : ε} {n : ℕ} {s : List α} {p : List α × List α}
    (h : readExact eof n s = .ok p) : p.2 = s.drop n ∧ n ≤ s.length := by
  unfold readExact at h
  split_ifs at h with hshort
  obtain rfl := Except.ok.inj h
  exact ⟨rfl, Nat.not_lt.mp hshort⟩

/-! ## Streams that come in pieces -/

/-- `read_exact` on a stream that hands out its symbols piece by piece; what is left of a piece is handed out
next, and an empty piece is nothing. -/
def readChunks (eof : ε) : ℕ → List (List α) → Except ε (List α × List (List α))
  | 0, s => .ok ([], s)
  | _ + 1, [] => .error eof
  | n + 1, piece :: s =>
    if n + 1 ≤ piece.length then .ok (piece.take (n + 1), piece.drop (n + 1) :: s)
    else (readChunks eof (n + 1 - piece.length) s).map fun p => (piece ++ p.1, p.2)

/-- How the stream is cut into pieces does not matter. -/
theorem readChunks_flatten (eof : ε) (n : ℕ) (s : List (List α)) :
    (readChunks eof n s).map (fun p => (p.1, p.2.flatten)) = readExact eof n s.flatten := by
  induction s generalizing n with
  | nil =>
    cases n with
    | zero => rfl
    | succ n => rfl
  | cons piece s ih =>
    cases n with
    | zero => rfl
    | succ n =>
      rw [readChunks, readExact, List.flatten_cons, List.length_append]
      split_ifs with hfits hshort hshort
      · omega
      · rw [List.take_append_of_le_length hfits, List.drop_append_of_le_length hfits]
        rfl
      · have hrest := ih (n + 1 - piece.length)
        rw [readExact, if_pos (by omega)] at hrest
        revert hrest
        cases readChunks eof (n + 1 - piece.length) s with
        | error e => exact fun hrest => hrest
        | ok p => exact fun hrest => nomatch hrest
      · have hlen := Nat.le_of_lt (Nat.not_le.mp hfits)
        have hrest := ih (n + 1 - piece.length)
        rw [readExact, if_neg (by omega)] at hrest
        revert hrest
        cases readChunks eof (n + 1 - piece.length) s with
        | error e => exact fun hrest => nomatch hrest
        | ok p =>
          intro hrest
          obtain ⟨hgot, hleft⟩ := Prod.mk.inj (Except.ok.inj hrest)
          rw [List.take_append, List.drop_append, List.take_of_length_le hlen, List.drop_of_length_le hlen,
            List.nil_append, ← hgot, ← hleft]
          rfl

namespace Codec
variable (c : Codec α τ ε) (eof : ε)

def read (s : List α) : Except ε ((τ × List α) × List α) := do
  let (head, s) ← readExact eof c.headerLen s
  let (typ, n) ← c.parse head
  let (payload, s) ← readExact eof n s
  .ok ((typ, payload), s)

theorem read_header {s : List α} (h : s.length < c.headerLen) : c.read eof s = .error eof := by
  rw [read, readExact_short eof h]
  rfl

/-- Past the header. -/
theorem read_payload {head s : List α} (hhead : head.length = c.headerLen) :
    c.read eof (head ++ s) =
      (c.parse head).bind fun p =>
        (readExact eof p.2 s).bind fun q => .ok ((p.1, q.1), q.2) := by
  rw [read, ← hhead, readExact_append]
  rfl

theorem read_append (f : Frame c) (rest : List α) :
    c.read eof (f.symbols ++ rest) = .ok (f.content, rest) := by
  rw [Frame.symbols, List.append_assoc, read_payload c eof f.length_head, f.parse_head]
  change (readExact eof f.payload.length (f.payload ++ rest)).bind _ = _
  rw [readExact_append]
  rfl

/-- A frame of which the end is missing. -/
theorem read_cut (f : Frame c) {k : ℕ} (h : k < f.symbols.length) :
    c.read eof (f.symbols.take k) = .error eof := by
  rw [Frame.symbols, List.length_append, f.length_head] at h
  by_cases hk : k < c.headerLen
  · apply read_header
    rw [List.length_take]
    omega
  · have hk := Nat.not_lt.mp hk
    have htake : f.symbols.take k = f.head ++ f.payload.take (k - c.headerLen) := by
      rw [Frame.symbols, List.take_append, f.length_head, List.take_of_length_le]
      rwa [f.length_head]
    rw [htake, read_payload c eof f.length_head, f.parse_head]
    change (readExact eof f.payload.length (f.payload.take (k - c.headerLen))).bind _ = _
    rw [readExact_short eof]
    · rfl
    · rw [List.length_take]
      omega

theorem read_shorter {s rest : List α} {p : τ × List α} (h : c.read eof s = .ok (p, rest)) :
    rest.length < s.length := by
  by_cases hs : s.length < c.headerLen
  · rw [read_header c eof hs] at h
    cases h
  · have hpos := c.pos
    have hhead : (s.take c.headerLen).length = c.headerLen := by
      rw [List.length_take]
      omega
    rw [← List.take_append_drop c.headerLen s, read_payload c eof hhead] at h
    cases hparse : c.parse (s.take c.headerLen) with
    | error e =>
      rw [hparse] at h
      cases h
    | ok q =>
      rw [hparse] at h
      simp only [Except.bind, readExact] at h
      split_ifs at h
      obtain ⟨-, rfl⟩ := Prod.mk.inj (Except.ok.inj h)
      rw [List.length_drop, List.length_drop]
      omega

/-! ## Reading until a read fails -/

def readAll (s : List α) : List (τ × List α) × ε :=
  match _h : c.read eof s with
  | .error e => ([], e)
  | .ok (p, rest) => (p :: (readAll rest).1, (readAll rest).2)
termination_by s.length
decreasing_by all_goals exact read_shorter c eof _h

theorem readAll_error {s : List α} {e : ε} (h : c.read eof s = .error e) :
    c.readAll eof s = ([], e) := by
  rw [readAll]
  split
  · next e' h' => rw [Except.error.inj (h'.symm.trans h)]
  · next p rest h' => cases h'.symm.trans h

theorem readAll_ok {s rest : List α} {p : τ × List α} (h : c.read eof s = .ok (p, rest)) :
    c.readAll eof s = (p :: (c.readAll eof rest).1, (c.readAll eof rest).2) := by
  rw [readAll]
  split
  · next e h' => cases h'.symm.trans h
  · next p' rest' h' =>
    obtain ⟨rfl, rfl⟩ := Prod.mk.inj (Except.ok.inj (h'.symm.trans h))
    rfl

/-- The frames wholly before the cut, and then the end of the stream. -/
theorem readAll_take (fs : List (Frame c)) (k : ℕ) :
    c.readAll eof ((fs.flatMap Frame.symbols).take k) =
      ((wholeBefore (fun f => f.symbols.length) k fs).map Frame.content, eof) := by
  induction fs generalizing k with
  | nil =>
    rw [List.flatMap_nil, List.take_nil]
    exact readAll_error c eof (read_header c eof c.pos)
  | cons f fs ih =>
    rw [List.flatMap_cons, wholeBefore]
    split_ifs with hle
    · have hread : c.read eof ((f.symbols ++ fs.flatMap Frame.symbols).take k) =
          .ok (f.content, (fs.flatMap Frame.symbols).take (k - f.symbols.length)) := by
        rw [List.take_append, List.take_of_length_le hle, read_append]
      rw [readAll_ok c eof hread, ih]
      rfl
    · have hlt := Nat.not_le.mp hle
      rw [List.take_append_of_le_length (Nat.le_of_lt hlt)]
      exact readAll_error c eof (read_cut c eof f hlt)

theorem readAll_symbols (fs : List (Frame c)) :
    c.readAll eof (fs.flatMap Frame.symbols) = (fs.map Frame.content, eof) := by
  induction fs with
  | nil => exact readAll_error c eof (read_header c eof c.pos)
  | cons f fs ih =>
    rw [List.flatMap_cons, readAll_ok c eof (read_append c eof f _), ih]
    rfl

/-! ## Symbol by symbol -/

def feedAll : Reading α τ → List α → Except ε ((τ × List α) × List α)
  | _, [] => .error eof
  | r, b :: s =>
    match r.feed c b with
    | .more r => feedAll r s
    | .frame typ payload => .ok ((typ, payload), s)
    | .failed e => .error e

theorem feedAll_payload (typ : τ) (n : ℕ) (s : List α) :
    ∀ got : List α, got.length < n → c.feedAll eof (.payload typ n got) s =
      (readExact eof n (got ++ s)).bind fun q => .ok ((typ, q.1), q.2) := by
  induction s with
  | nil =>
    intro got hgot
    rw [List.append_nil, readExact_short eof hgot]
    rfl
  | cons b s ih =>
    intro got hgot
    rw [feedAll, Reading.feed, List.append_cons got b s]
    by_cases hmore : (got ++ [b]).length < n
    · rw [if_pos hmore]
      exact ih (got ++ [b]) hmore
    · have hn : n = (got ++ [b]).length := by
        rw [List.length_append, List.length_singleton] at hmore ⊢
        omega
      rw [if_neg hmore, hn, readExact_append]
      rfl

theorem feedAll_header (s : List α) :
    ∀ got : List α, got.length < c.headerLen →
      c.feedAll eof (.header got) s = c.read eof (got ++ s) := by
  induction s with
  | nil =>
    intro got hgot
    rw [List.append_nil, read_header c eof hgot]
    rfl
  | cons b s ih =>
    intro got hgot
    rw [feedAll, Reading.feed, List.append_cons got b s]
    by_cases hmore : (got ++ [b]).length < c.headerLen
    · rw [if_pos hmore]
      exact ih (got ++ [b]) hmore
    · have hlen : (got ++ [b]).length = c.headerLen := by
        rw [List.length_append, List.length_singleton] at hmore ⊢
        omega
      rw [if_neg hmore, read_payload c eof hlen]
      cases c.parse (got ++ [b]) with
      | error e => rfl
      | ok p =>
        obtain ⟨typ, n⟩ := p
        cases n with
        | zero => rfl
        | succ n => exact feedAll_payload c eof typ (n + 1) s [] (Nat.succ_pos n)

/-- A reader that is fed a stream symbol by symbol reads what `read` reads. -/
theorem feedAll_fresh (s : List α) : c.feedAll eof .fresh s = c.read eof s :=
  feedAll_header c eof s [] c.pos

end Codec
end Foundations
