import Mathlib.Tactic.Common
import Mathlib.Data.List.Basic

/-! # A Unix file tree, and programs that work on it one operation at a time

* `Path` is an absolute path as it is written: a list of raw segments, among which `""`, `"."` and
  `".."` may occur. `join`, `fileName` and `withFileName` follow `std::path`.
* `Place` is where a path leads: the names from the root. `lexFrom` resolves `".."` on paper, and
  `walk` does it the way the kernel does, through directories that exist. When the walk succeeds it
  agrees with the paper (`walk_eq_lex`). There are no symbolic links.
* No system call takes a path with a NUL in it (`Path.NulFree`): `std` refuses it as `InvalidInput`.
* `Disk` holds the nodes, the verdict the operating system gives on each operation (`allow`,
  `refuse`, or `tear n`: a write that fails after `n` bytes), and a journal of every place an
  operation created, overwrote or removed.
* `Prog` is a program over these operations; `FileIO` adds the error path of the `?` operator.
* `Keeps r p` is the frame rule: whatever the disk answers, `p` changes nothing outside `r`.
-/

namespace Foundations.Files
set_option autoImplicit false
set_option maxHeartbeats 250000

/-! ## Paths -/

abbrev Place := List String

structure Path where
  segs : List String
  deriving DecidableEq, Repr

def NulFree (seg : String) : Prop := '\x00' ∉ seg.toList

instance (seg : String) : Decidable (NulFree seg) := inferInstanceAs (Decidable (¬ _))

/-- What can be handed to a system call. -/
def Path.NulFree (p : Path) : Prop := ∀ seg ∈ p.segs, Files.NulFree seg

instance (p : Path) : Decidable p.NulFree := inferInstanceAs (Decidable (∀ seg ∈ p.segs, _))

def splitSegs (cs : List Char) : List String := (cs.splitOn '/').map String.ofList

namespace Path

/-- `Path::join`: an absolute argument replaces the path. -/
def join (p : Path) (name : String) : Path :=
  if name.toList.head? = some '/' then ⟨splitSegs name.toList.tail⟩
  else ⟨p.segs ++ splitSegs name.toList⟩

/-- `DirEntry::path`: the name of an entry is one segment. -/
def entry (p : Path) (name : String) : Path := ⟨p.segs ++ [name]⟩

def noop (seg : String) : Bool := seg == "" || seg == "."

def comps (p : Path) : List String := p.segs.filter fun seg => !noop seg

/-- `Path::file_name`: the last component, unless it is `..`. -/
def fileName (p : Path) : Option String :=
  match p.comps.getLast? with
  | some seg => if seg = ".." then none else some seg
  | none => none

/-- `Path::with_file_name`: pops only a path that has a file name. -/
def withFileName (p : Path) (name : String) : Path :=
  match p.fileName with
  | some _ => ⟨p.comps.dropLast ++ [name]⟩
  | none => ⟨p.segs ++ [name]⟩

def toText (p : Path) : String := String.join (p.segs.map fun seg => "/" ++ seg)

/-- `PathBuf::from`: the text of an absolute path starts with an empty segment. -/
def ofText (text : String) : Path := ⟨splitSegs text.toList⟩

end Path

/-! ## Where a path leads -/

def lexStep (cur : Place) (seg : String) : Place :=
  if Path.noop seg then cur else if seg = ".." then cur.dropLast else cur ++ [seg]

def lexFrom (cur : Place) (segs : List String) : Place := segs.foldl lexStep cur

def Path.place (p : Path) : Place := lexFrom [] p.segs

/-- The kernel's walk: every name it enters must be a directory. -/
def walk (isDir : Place → Bool) : Place → List String → Option Place
  | cur, [] => some cur
  | cur, seg :: rest =>
    if Path.noop seg then walk isDir cur rest
    else if seg = ".." then walk isDir cur.dropLast rest
    else if isDir (cur ++ [seg]) then walk isDir (cur ++ [seg]) rest
    else none

/-- The directories that the walk enters. -/
def entered : Place → List String → List Place
  | _, [] => []
  | cur, seg :: rest =>
    if Path.noop seg then entered cur rest
    else if seg = ".." then entered cur.dropLast rest
    else (cur ++ [seg]) :: entered (cur ++ [seg]) rest

def Path.parents (p : Path) : List Place := entered [] p.segs.dropLast

theorem walk_eq_lex {isDir : Place → Bool} {cur q : Place} {segs : List String}
    (h : walk isDir cur segs = some q) : q = lexFrom cur segs := by
  induction segs generalizing cur with
  | nil =>
    simp only [walk, Option.some.injEq] at h
    exact h.symm
  | cons seg rest ih =>
    unfold walk at h
    rw [lexFrom, List.foldl_cons, lexStep]
    split_ifs at h ⊢ with h1 h2 h3
    · exact ih h
    · exact ih h
    · exact ih h

/-- The walk succeeds when every directory it enters is there. -/
theorem walk_isSome_iff {isDir : Place → Bool} {cur : Place} {segs : List String} :
    (walk isDir cur segs).isSome = true ↔ ∀ q ∈ entered cur segs, isDir q = true := by
  induction segs generalizing cur with
  | nil => simp [walk, entered]
  | cons seg rest ih =>
    unfold walk entered
    split_ifs with h1 h2 h3
    · exact ih
    · exact ih
    · rw [ih]
      simp [h3]
    · simp [h3]

theorem walk_of_entered {isDir : Place → Bool} {cur : Place} {segs : List String}
    (h : ∀ q ∈ entered cur segs, isDir q = true) :
    walk isDir cur segs = some (lexFrom cur segs) := by
  obtain ⟨q, hq⟩ := Option.isSome_iff_exists.mp (walk_isSome_iff.mpr h)
  rw [hq, walk_eq_lex hq]

/-- A plain name: neither empty, nor `.`, nor `..`. -/
def Plain (seg : String) : Prop := Path.noop seg = false ∧ seg ≠ ".."

instance (seg : String) : Decidable (Plain seg) := inferInstanceAs (Decidable (_ ∧ _))

theorem lexFrom_append (cur : Place) (a b : List String) :
    lexFrom cur (a ++ b) = lexFrom (lexFrom cur a) b := List.foldl_append ..

theorem lexStep_plain {seg : String} (h : Plain seg) (cur : Place) :
    lexStep cur seg = cur ++ [seg] := by
  rw [lexStep, if_neg (by simp [h.1]), if_neg h.2]

theorem lexFrom_plain {segs : List String} (h : ∀ seg ∈ segs, Plain seg) (cur : Place) :
    lexFrom cur segs = cur ++ segs := by
  induction segs generalizing cur with
  | nil => simp [lexFrom]
  | cons seg rest ih =>
    rw [lexFrom, List.foldl_cons, lexStep_plain (h seg List.mem_cons_self)]
    have := ih (fun s hs => h s (List.mem_cons_of_mem _ hs)) (cur ++ [seg])
    rw [lexFrom] at this
    rw [this, List.append_assoc, List.singleton_append]

/-- Segments that name nothing do not move the walk. -/
theorem lexFrom_comps (cur : Place) (segs : List String) :
    lexFrom cur (segs.filter fun seg => !Path.noop seg) = lexFrom cur segs := by
  induction segs generalizing cur with
  | nil => rfl
  | cons seg rest ih =>
    rw [List.filter_cons]
    cases hn : Path.noop seg with
    | true =>
      have hs : lexStep cur seg = cur := by rw [lexStep, if_pos hn]
      simp only [Bool.not_true, Bool.false_eq_true, if_false]
      rw [ih, lexFrom, lexFrom, List.foldl_cons, hs]
    | false =>
      simp only [Bool.not_false, if_true]
      rw [lexFrom, List.foldl_cons]
      exact ih (lexStep cur seg)

theorem splitSegs_plain {name : String} (h : '/' ∉ name.toList) : splitSegs name.toList = [name] := by
  rw [splitSegs, List.splitOn_eq_singleton h, List.map_singleton, String.ofList_toList]

theorem Path.join_plain (p : Path) {name : String} (h : '/' ∉ name.toList) :
    p.join name = ⟨p.segs ++ [name]⟩ := by
  have hh : name.toList.head? ≠ some '/' := fun hh => h (List.mem_of_mem_head? hh)
  rw [Path.join, if_neg hh, splitSegs_plain h]

theorem splitOn_names {names : List (List Char)} (h : ∀ name ∈ names, '/' ∉ name) (front : List Char)
    (hf : '/' ∉ front) :
    (front ++ names.flatMap fun name => '/' :: name).splitOn '/' = front :: names := by
  induction names generalizing front with
  | nil => rw [List.flatMap_nil, List.append_nil, List.splitOn_eq_singleton hf]
  | cons name names ih =>
    obtain ⟨hname, hnames⟩ := List.forall_mem_cons.mp h
    rw [List.flatMap_cons, List.cons_append, List.splitOn_append_cons_self,
      List.splitOn_eq_singleton hf, ih hnames name hname]
    rfl

theorem Path.ofText_toText {p : Path} (h : ∀ seg ∈ p.segs, '/' ∉ seg.toList) :
    Path.ofText p.toText = ⟨"" :: p.segs⟩ := by
  have hchars : p.toText.toList = [] ++ (p.segs.map String.toList).flatMap fun name => '/' :: name := by
    rw [Path.toText, String.toList_join, List.flatMap_map, List.flatMap_map, List.nil_append]
    simp [String.toList_append]
  have hnames : ∀ name ∈ p.segs.map String.toList, '/' ∉ name := by
    intro name hn
    obtain ⟨seg, hs, rfl⟩ := List.mem_map.mp hn
    exact h seg hs
  rw [Path.ofText, splitSegs, hchars, splitOn_names hnames [] List.not_mem_nil]
  simp

/-! ### NULs -/

theorem mem_splitOn {c sep : Char} (hc : c ≠ sep) (cs : List Char) :
    (∃ seg ∈ cs.splitOn sep, c ∈ seg) ↔ c ∈ cs := by
  induction cs with
  | nil => simp
  | cons x cs ih =>
    rw [List.splitOn_cons_eq_if_modifyHead]
    split_ifs with hx
    · simp [ih, hc, eq_of_beq hx]
    · obtain ⟨front, segs, hs⟩ := List.exists_cons_of_ne_nil (List.splitOn_ne_nil sep cs)
      rw [hs, List.exists_mem_cons_iff] at ih
      rw [hs, List.modifyHead_cons, List.exists_mem_cons_iff, List.mem_cons, List.mem_cons, or_assoc, ih]

theorem splitSegs_nulFree {name : String} : Path.NulFree ⟨splitSegs name.toList⟩ ↔ NulFree name := by
  unfold NulFree
  rw [← @mem_splitOn '\x00' '/' (by decide)]
  simp [Path.NulFree, NulFree, splitSegs]

theorem Path.nulFree_append {a b : List String} :
    Path.NulFree ⟨a ++ b⟩ ↔ Path.NulFree ⟨a⟩ ∧ Path.NulFree ⟨b⟩ := List.forall_mem_append

theorem noop_nulFree {seg : String} (h : Path.noop seg = true) : NulFree seg := by
  rw [Path.noop, Bool.or_eq_true, beq_iff_eq, beq_iff_eq] at h
  obtain rfl | rfl := h <;> decide

theorem Path.comps_nulFree {p : Path} : Path.NulFree ⟨p.comps⟩ ↔ p.NulFree := by
  refine ⟨fun h seg hs => ?_, fun h seg hs => h seg (List.mem_filter.mp hs).1⟩
  cases hn : Path.noop seg with
  | true => exact noop_nulFree hn
  | false => exact h seg (List.mem_filter.mpr ⟨hs, by rw [hn]; rfl⟩)

theorem Path.join_nulFree {p : Path} {name : String} (hp : p.NulFree) :
    (p.join name).NulFree ↔ Files.NulFree name := by
  unfold join
  split_ifs with h
  · obtain ⟨cs, hcs⟩ : ∃ cs, name.toList = '/' :: cs := List.head?_eq_some_iff.mp h
    have hname := @splitSegs_nulFree (String.ofList cs)
    rw [String.toList_ofList] at hname
    rw [hcs, List.tail_cons, hname]
    simp [Files.NulFree, hcs]
  · rw [nulFree_append, splitSegs_nulFree]
    exact and_iff_right hp

/-! ### Plain names -/

/-- Along plain names the walk enters prefixes of the place where it ends. -/
theorem entered_plain {segs : List String} (h : ∀ seg ∈ segs, Plain seg) (cur : Place) {q : Place}
    (hq : q ∈ entered cur segs) : q <+: cur ++ segs := by
  induction segs generalizing cur with
  | nil => simp [entered] at hq
  | cons seg rest ih =>
    have hp := h seg List.mem_cons_self
    have happ : cur ++ seg :: rest = (cur ++ [seg]) ++ rest := by simp
    rw [entered, if_neg (by simp [hp.1]), if_neg hp.2] at hq
    rw [happ]
    obtain rfl | hq := List.mem_cons.mp hq
    · exact List.prefix_append _ _
    · exact ih (fun s hs => h s (List.mem_cons_of_mem _ hs)) (cur ++ [seg]) hq

/-! ## Disks -/

inductive Node
  | dir
  | file (data : List UInt8)
  deriving DecidableEq, Repr

inductive IoError
  | notFound
  | isADirectory
  | notADirectory
  | invalidInput
  | refused
  deriving DecidableEq, Repr

inductive FileOp
  | write (p : Path) (data : List UInt8)
  | rename (src dst : Path)
  | removeFile (p : Path)
  | removeDirAll (p : Path)
  | createDirAll (p : Path)
  | readDir (p : Path)
  | read (p : Path)
  | canonicalize (p : Path)

def FileOp.Reply : FileOp → Type
  | .readDir _ => List String
  | .read _ => List UInt8
  | .canonicalize _ => Path
  | _ => Unit

inductive Verdict
  | allow
  | refuse
  | tear (n : ℕ)
  deriving DecidableEq, Repr

structure Disk where
  nodes : List (Place × Node)
  verdict : FileOp → Verdict
  journal : List Place

namespace Disk

def node (d : Disk) (q : Place) : Option Node := if q = [] then some .dir else d.nodes.lookup q

def isDir (d : Disk) (q : Place) : Bool := d.node q == some .dir

def put (d : Disk) (q : Place) (n : Node) : Disk :=
  { d with nodes := (q, n) :: d.nodes, journal := d.journal ++ [q] }

/-- Forget the places that meet `gone`. -/
def prune (d : Disk) (gone : Place → Bool) : Disk :=
  { d with
    nodes := d.nodes.filter fun e => !gone e.1
    journal := d.journal ++ (d.nodes.map Prod.fst).filter gone }

def erase (d : Disk) (q : Place) : Disk := d.prune (· == q)

/-- The place of a path whose last segment is a name: what the system calls create, overwrite or
remove. -/
def target (d : Disk) (p : Path) : Option Place :=
  if p.NulFree then
    match p.segs.getLast? with
    | some seg =>
      if Path.noop seg || seg = ".." then none
      else (walk d.isDir [] p.segs.dropLast).map (· ++ [seg])
    | none => none
  else none

/-- The directory that a path leads to. -/
def reach (d : Disk) (p : Path) : Option Place := if p.NulFree then walk d.isDir [] p.segs else none

/-- The error for a path that leads nowhere. -/
def lost (p : Path) : IoError := if p.NulFree then .notFound else .invalidInput

def write (d : Disk) (p : Path) (data : List UInt8) : Except IoError Unit × Disk :=
  match d.target p with
  | none => (.error (lost p), d)
  | some q =>
    if d.node q = some .dir then (.error .isADirectory, d)
    else
      match d.verdict (.write p data) with
      | .refuse => (.error .refused, d)
      | .tear n => (.error .refused, d.put q (.file (data.take n)))
      | .allow => (.ok (), d.put q (.file data))

def rename (d : Disk) (src dst : Path) : Except IoError Unit × Disk :=
  match d.target src, d.target dst with
  | some a, some b =>
    match d.node a with
    | some (.file data) =>
      if d.node b = some .dir then (.error .isADirectory, d)
      else if d.verdict (.rename src dst) = .allow then (.ok (), (d.erase a).put b (.file data))
      else (.error .refused, d)
    | _ => (.error .notFound, d)
  | _, _ => (.error (if src.NulFree ∧ dst.NulFree then .notFound else .invalidInput), d)

def removeFile (d : Disk) (p : Path) : Except IoError Unit × Disk :=
  match d.target p with
  | none => (.error (lost p), d)
  | some q =>
    match d.node q with
    | none => (.error .notFound, d)
    | some .dir => (.error .isADirectory, d)
    | some (.file _) =>
      if d.verdict (.removeFile p) = .allow then (.ok (), d.erase q) else (.error .refused, d)

def removeDirAll (d : Disk) (p : Path) : Except IoError Unit × Disk :=
  match d.target p with
  | none => (.error (lost p), d)
  | some q =>
    if d.node q = some .dir then
      if d.verdict (.removeDirAll p) = .allow then (.ok (), d.prune (q.isPrefixOf ·))
      else (.error .refused, d)
    else (.error .notADirectory, d)

def makeDirs (d : Disk) : Place → List String → Except IoError Unit × Disk
  | _, [] => (.ok (), d)
  | cur, seg :: rest =>
    if Path.noop seg then makeDirs d cur rest
    else if seg = ".." then makeDirs d cur.dropLast rest
    else
      match d.node (cur ++ [seg]) with
      | some .dir => makeDirs d (cur ++ [seg]) rest
      | some (.file _) => (.error .notADirectory, d)
      | none => makeDirs (d.put (cur ++ [seg]) .dir) (cur ++ [seg]) rest

def createDirAll (d : Disk) (p : Path) : Except IoError Unit × Disk :=
  if ¬ p.NulFree then (.error .invalidInput, d)
  else if d.verdict (.createDirAll p) = .allow then d.makeDirs [] p.segs else (.error .refused, d)

def readDir (d : Disk) (p : Path) : Except IoError (List String) × Disk :=
  match d.reach p with
  | none => (.error (lost p), d)
  | some q =>
    if d.verdict (.readDir p) = .allow then
      (.ok (d.nodes.filterMap fun e => if e.1.dropLast = q then e.1.getLast? else none), d)
    else (.error .refused, d)

def read (d : Disk) (p : Path) : Except IoError (List UInt8) × Disk :=
  match d.target p with
  | none => (.error (lost p), d)
  | some q =>
    match d.node q with
    | none => (.error .notFound, d)
    | some .dir => (.error .isADirectory, d)
    | some (.file data) =>
      if d.verdict (.read p) = .allow then (.ok data, d) else (.error .refused, d)

def canonicalize (d : Disk) (p : Path) : Except IoError Path × Disk :=
  if d.verdict (.canonicalize p) = .allow then
    match d.reach p with
    | some q => (.ok ⟨q⟩, d)
    | none =>
      match d.target p with
      | some q => if (d.node q).isSome then (.ok ⟨q⟩, d) else (.error .notFound, d)
      | none => (.error (lost p), d)
  else (.error .refused, d)

def perform (d : Disk) : (o : FileOp) → Except IoError o.Reply × Disk
  | .write p data => d.write p data
  | .rename src dst => d.rename src dst
  | .removeFile p => d.removeFile p
  | .removeDirAll p => d.removeDirAll p
  | .createDirAll p => d.createDirAll p
  | .readDir p => d.readDir p
  | .read p => d.read p
  | .canonicalize p => d.canonicalize p

/-! ### Reading a changed disk -/

theorem node_put (d : Disk) {q : Place} (hq : q ≠ []) (n : Node) (x : Place) :
    (d.put q n).node x = if x = q then some n else d.node x := by
  unfold node put
  by_cases hx : x = []
  · subst hx
    rw [if_pos rfl, if_neg (Ne.symm hq), if_pos rfl]
  · rw [if_neg hx, if_neg hx, List.lookup_cons]
    by_cases he : x = q
    · rw [if_pos he, he, beq_self_eq_true]
    · rw [if_neg he, beq_false_of_ne he]

theorem lookup_filter_keys (l : List (Place × Node)) (gone : Place → Bool) (x : Place) :
    (l.filter fun e => !gone e.1).lookup x = if gone x then none else l.lookup x := by
  induction l with
  | nil => simp
  | cons e l ih =>
    obtain ⟨k, n⟩ := e
    rw [List.filter_cons, List.lookup_cons]
    by_cases he : x = k
    · subst he
      cases hg : gone x with
      | true => simp [hg, ih]
      | false => simp
    · cases hg : gone k with
      | true => simp [ih, beq_false_of_ne he]
      | false => simp [List.lookup_cons, beq_false_of_ne he, ih]

theorem node_prune (d : Disk) (gone : Place → Bool) (x : Place) :
    (d.prune gone).node x = if x ≠ [] ∧ gone x then none else d.node x := by
  unfold node prune
  by_cases hx : x = []
  · rw [if_pos hx, if_pos hx, if_neg (fun h => h.1 hx)]
  · rw [if_neg hx, if_neg hx, lookup_filter_keys]
    by_cases hg : gone x = true
    · rw [if_pos hg, if_pos ⟨hx, hg⟩]
    · rw [if_neg hg, if_neg (fun h => hg h.2)]

theorem target_nulFree {d : Disk} {p : Path} {q : Place} (h : d.target p = some q) : p.NulFree := by
  unfold target at h
  split_ifs at h with hnul
  exact hnul

theorem target_eq {d : Disk} {p : Path} {q : Place} (h : d.target p = some q) :
    ∃ dirs seg, p.segs = dirs ++ [seg] ∧ Plain seg ∧
      walk d.isDir [] dirs = some (lexFrom [] dirs) ∧ q = lexFrom [] dirs ++ [seg] := by
  unfold target at h
  rw [if_pos (target_nulFree h)] at h
  split at h
  · next seg hseg =>
    split_ifs at h with hn
    obtain ⟨w, hw, rfl⟩ := Option.map_eq_some_iff.mp h
    simp only [Bool.or_eq_true, decide_eq_true_eq, not_or] at hn
    refine ⟨p.segs.dropLast, seg, ?_, ⟨by simpa using hn.1, hn.2⟩, ?_, ?_⟩
    · exact (List.dropLast_append_getLast? seg hseg).symm
    · rw [← walk_eq_lex hw]
      exact hw
    · rw [walk_eq_lex hw]
  · cases h

theorem target_of_parents {d : Disk} {dirs : List String} {seg : String} (hs : Plain seg)
    (hnul : Path.NulFree ⟨dirs ++ [seg]⟩)
    (h : ∀ q ∈ Path.parents ⟨dirs ++ [seg]⟩, d.node q = some .dir) :
    d.target ⟨dirs ++ [seg]⟩ = some (Path.place ⟨dirs ++ [seg]⟩) := by
  have hw : walk d.isDir [] dirs = some (lexFrom [] dirs) := by
    apply walk_of_entered
    intro q hq
    rw [Path.parents, List.dropLast_concat] at h
    rw [isDir, h q hq, beq_self_eq_true]
  rw [target, if_pos hnul]
  simp only [List.getLast?_concat, List.dropLast_concat, hs.1, Bool.false_or, decide_eq_true_eq,
    hs.2, if_false, hw, Option.map_some]
  rw [Path.place, lexFrom_append]
  exact congrArg some (lexStep_plain hs _).symm

theorem parents_of_target {d : Disk} {p : Path} {q : Place} (h : d.target p = some q) :
    ∀ x ∈ p.parents, d.node x = some .dir := by
  obtain ⟨dirs, seg, hp, _, hw, _⟩ := target_eq h
  have hsome : (walk d.isDir [] dirs).isSome = true := by rw [hw]; rfl
  intro x hx
  rw [Path.parents, hp, List.dropLast_concat] at hx
  exact eq_of_beq (walk_isSome_iff.mp hsome x hx)

/-- A system call reaches the place where the path leads on paper. -/
theorem target_place {d : Disk} {p : Path} {q : Place} (h : d.target p = some q) : q = p.place := by
  obtain ⟨dirs, seg, hp, hs, _, rfl⟩ := target_eq h
  rw [Path.place, hp, lexFrom_append]
  exact (lexStep_plain hs _).symm

theorem reach_eq {d : Disk} {p : Path} {q : Place} (h : d.reach p = some q) :
    walk d.isDir [] p.segs = some q := by
  unfold reach at h
  split_ifs at h
  exact h

theorem target_ne_nil {d : Disk} {p : Path} {q : Place} (h : d.target p = some q) : q ≠ [] := by
  obtain ⟨dirs, seg, _, _, _, rfl⟩ := target_eq h
  simp

end Disk

end Foundations.Files
