import Mathlib.Data.List.Nodup
import Zsync.Foundations.Runs
import Zsync.Model.Allowlist

/-! # The allowlist serves the commands that are done

* `expected` : what the commands make of a group, one after the other, for somebody who looks at one
  group only.
* `Lists` : a file lists these records, each once.
* `allowlist_current` : every `get`, whatever happens during it, returns what the commands that are done
  when it last looks at the file make of the group.
-/

namespace Zsync
set_option autoImplicit false
set_option maxHeartbeats 250000
open Protocol Foundations Zsync.Group

/-! ## What an admin expects -/

namespace AdminCommand
variable [Sha256]

/-- The group that a command is about, unless its arguments are refused. -/
def target : AdminCommand → Option String
  | .create domain detected _ _ secret =>
    match advertised domain detected with
    | .ok _ => some (hexEncode (groupIdFromSecret secret))
    | .error _ => none
  | .enable groupId | .disable groupId | .deny groupId =>
    match parseGroupId groupId.toList with
    | .ok gid => some (hexEncode gid)
    | .error _ => none

/-- What a command makes of the group `id`. -/
def on (id : String) (before : Option GroupRec) (c : AdminCommand) : Option GroupRec :=
  if c.target = some id then
    match c with
    | .create _ _ name _ _ => some (before.getD ⟨id, name.getD "", true⟩)
    | .enable _ => before.map fun g => { g with enabled := true }
    | .disable _ => before.map fun g => { g with enabled := false }
    | .deny _ => none
  else before

end AdminCommand

/-- What the commands `done`, the last one first, make of the group `id`. -/
def expected [Sha256] (done : List AdminCommand) (id : String) : Option GroupRec :=
  done.foldr (fun c before => c.on id before) none

/-! ## Files that list what is expected -/

/-- The file lists the records that `want` gives, each once. -/
structure Lists (file : GroupsFile) (want : String → Option GroupRec) : Prop where
  nodup : (file.groups.map GroupRec.id).Nodup
  mem : ∀ id r, r ∈ file.groups ∧ r.id = id ↔ want id = some r

namespace Lists
variable {file : GroupsFile} {want : String → Option GroupRec}

theorem nothing : Lists ⟨[]⟩ fun _ => none := ⟨List.nodup_nil, fun id r => by simp⟩

/-- A search finds the one element that there is. -/
theorem find_only {α : Type} {l : List α} {p : α → Bool} {want : Option α}
    (h : ∀ r, r ∈ l ∧ p r = true ↔ want = some r) : l.find? p = want := by
  cases hf : l.find? p with
  | some r => exact ((h r).mp ⟨List.mem_of_find?_eq_some hf, List.find?_some hf⟩).symm
  | none =>
    cases want with
    | none => rfl
    | some r =>
      obtain ⟨hr, hp⟩ := (h r).mpr rfl
      exact absurd hp (List.find?_eq_none.mp hf r hr)

/-- The commands search the list from its front. -/
theorem find (h : Lists file want) (id : String) :
    file.groups.find? (fun g => g.id = id) = want id :=
  find_only fun r => by rw [decide_eq_true_iff]; exact h.mem id r

/-- A hash map answers from its end, which makes no difference. -/
theorem get (h : Lists file want) (id : String) : (GroupMap.collect file).get id = want id := by
  have hfind : (GroupMap.collect file).entries.reverse.find? (fun e => e.1 = id) =
      (want id).map fun r => (id, r) := by
    refine find_only fun e => ?_
    rw [List.mem_reverse, decide_eq_true_iff, Option.map_eq_some_iff, GroupMap.collect, List.mem_map]
    constructor
    · rintro ⟨⟨g, hg, rfl⟩, hid⟩
      exact ⟨g, (h.mem id g).mp ⟨hg, hid⟩, by rw [← hid]⟩
    · rintro ⟨r, hr, rfl⟩
      obtain ⟨hmem, hid⟩ := (h.mem id r).mpr hr
      exact ⟨⟨r, hmem, by rw [hid]⟩, rfl⟩
  rw [GroupMap.get, hfind, Option.map_map]
  exact Option.map_id' (x := want id)

theorem congr (h : Lists file want) {want' : String → Option GroupRec} (hw : ∀ id, want' id = want id) :
    Lists file want' := ⟨h.nodup, fun id r => by rw [hw id]; exact h.mem id r⟩

/-! ### The commands -/

theorem any_iff (h : Lists file want) (id : String) :
    (file.groups.any fun g => g.id = id) = true ↔ (want id).isSome := by
  rw [← h.find id, List.find?_isSome, List.any_eq_true]

theorem append (h : Lists file want) {g : GroupRec} (hg : want g.id = none) :
    Lists ⟨file.groups ++ [g]⟩ fun id => if g.id = id then some g else want id where
  nodup := by
    rw [List.map_append, List.map_cons, List.map_nil]
    refine List.nodup_append.mpr ⟨h.nodup, List.nodup_singleton _, ?_⟩
    rintro id hid id' hid' rfl
    obtain rfl := List.mem_singleton.mp hid'
    obtain ⟨r, hr, hrid⟩ := List.mem_map.mp hid
    have := (h.mem _ r).mp ⟨hr, hrid⟩
    rw [hg] at this
    cases this
  mem := by
    intro id r
    simp only [List.mem_append, List.mem_singleton]
    split_ifs with hid
    · constructor
      · rintro ⟨hr | rfl, hrid⟩
        · have := (h.mem id r).mp ⟨hr, hrid⟩
          rw [← hid, hg] at this
          cases this
        · rfl
      · intro hr
        obtain rfl := Option.some.inj hr
        exact ⟨.inr rfl, hid⟩
    · rw [← h.mem id r]
      constructor
      · rintro ⟨hr | rfl, hrid⟩
        · exact ⟨hr, hrid⟩
        · exact absurd hrid hid
      · rintro ⟨hr, hrid⟩
        exact ⟨.inl hr, hrid⟩

/-- The first record with an id is the only one. -/
theorem modify_first (id : String) (f : GroupRec → GroupRec) {groups : List GroupRec}
    (h : (groups.map GroupRec.id).Nodup) :
    groups.modify (groups.findIdx fun g => g.id = id) f =
      groups.map fun g => if g.id = id then f g else g := by
  induction groups with
  | nil => rfl
  | cons g groups ih =>
    obtain ⟨hg, hgroups⟩ := List.nodup_cons.mp h
    rw [List.map_cons, List.findIdx_cons]
    by_cases hid : g.id = id
    · have hrest : groups.map (fun g => if g.id = id then f g else g) = groups.map fun g => g := by
        refine List.map_congr_left fun g' hg' => if_neg fun hid' => hg ?_
        exact List.mem_map.mpr ⟨g', hg', hid'.trans hid.symm⟩
      simp [hid, hrest]
    · simp [hid, ih hgroups]

theorem map (h : Lists file want) (id : String) {f : GroupRec → GroupRec} (hf : ∀ g, (f g).id = g.id) :
    Lists ⟨file.groups.map fun g => if g.id = id then f g else g⟩ fun i =>
      if id = i then (want i).map f else want i where
  nodup := by
    have hids : (GroupRec.id ∘ fun g => if g.id = id then f g else g) = GroupRec.id := by
      funext g
      rw [Function.comp_apply]
      split_ifs
      · exact hf g
      · rfl
    rw [List.map_map, hids]
    exact h.nodup
  mem := by
    intro i r
    rw [List.mem_map]
    split_ifs with hi
    · subst hi
      rw [Option.map_eq_some_iff]
      constructor
      · rintro ⟨⟨g, hg, rfl⟩, hid⟩
        split_ifs at hid ⊢ with hgid
        · exact ⟨g, (h.mem id g).mp ⟨hg, hgid⟩, rfl⟩
        · exact absurd hid hgid
      · rintro ⟨g, hg, rfl⟩
        obtain ⟨hmem, hid⟩ := (h.mem id g).mpr hg
        exact ⟨⟨g, hmem, if_pos hid⟩, (hf g).trans hid⟩
    · rw [← h.mem i r]
      constructor
      · rintro ⟨⟨g, hg, rfl⟩, hid⟩
        split_ifs at hid ⊢ with hgid
        · exact absurd (hgid.symm.trans ((hf g).symm.trans hid)) hi
        · exact ⟨hg, hid⟩
      · rintro ⟨hr, hid⟩
        exact ⟨⟨r, hr, if_neg fun hrid => hi (hrid.symm.trans hid)⟩, hid⟩

theorem filter (h : Lists file want) (id : String) :
    Lists ⟨file.groups.filter fun g => g.id ≠ id⟩ fun i => if id = i then none else want i where
  nodup := h.nodup.sublist (List.filter_sublist.map _)
  mem := by
    intro i r
    rw [List.mem_filter, decide_eq_true_iff]
    split_ifs with hi
    · simp only [iff_false]
      rintro ⟨⟨-, hne⟩, hid⟩
      exact hne (hid.trans hi.symm)
    · rw [← h.mem i r]
      constructor
      · rintro ⟨⟨hr, -⟩, hid⟩
        exact ⟨hr, hid⟩
      · rintro ⟨hr, hid⟩
        exact ⟨⟨hr, fun hrid => hi (hrid.symm.trans hid)⟩, hid⟩

end Lists

/-! ## The commands -/

section Commands
variable [Sha256] [Base64] {file : GroupsFile} {want : String → Option GroupRec}

theorem cmdCreate_eq {domain detected name : Option String} {port : ℕ} {secret : Vector UInt8 32}
    {host : String} (h : advertised domain detected = .ok host) :
    (cmdCreate domain detected name port secret file).map Prod.fst =
      if (file.groups.any fun g => g.id = hexEncode (groupIdFromSecret secret)) = true then
        .error ("group " ++ hexEncode (groupIdFromSecret secret) ++ " already exists")
      else .ok ⟨file.groups ++ [⟨hexEncode (groupIdFromSecret secret), name.getD "", true⟩]⟩ := by
  unfold cmdCreate
  rw [h]
  dsimp only [bind, Except.bind]
  split_ifs <;> rfl

omit [Sha256] [Base64] in
theorem setEnabled_eq {groupId : String} {enabled : Bool} {gid : Bytes}
    (h : parseGroupId groupId.toList = .ok gid) :
    setEnabled groupId enabled file =
      if (file.groups.find? fun g => g.id = hexEncode gid).isSome then
        .ok ⟨file.groups.modify (file.groups.findIdx fun g => g.id = hexEncode gid)
          fun g => { g with enabled := enabled }⟩
      else .error ("unknown group " ++ hexEncode gid) := by
  unfold setEnabled
  rw [h]
  rfl

omit [Sha256] [Base64] in
theorem removeGroup_eq {groupId : String} {gid : Bytes} (h : parseGroupId groupId.toList = .ok gid) :
    removeGroup groupId file =
      if (file.groups.filter fun g => g.id ≠ hexEncode gid).length = file.groups.length then
        .error ("unknown group " ++ hexEncode gid)
      else .ok ⟨file.groups.filter fun g => g.id ≠ hexEncode gid⟩ := by
  unfold removeGroup
  rw [h]
  rfl

/-- What a command saves lists what is expected of it, and a command that ends with an error is expected
to change nothing. -/
structure Obeys (c : AdminCommand) (file : GroupsFile) (want : String → Option GroupRec) : Prop where
  saved : ∀ file', c.run file = .ok file' → Lists file' fun id => c.on id (want id)
  refused : ∀ e, c.run file = .error e → ∀ id, c.on id (want id) = want id

omit [Base64] in
theorem on_of_target_none {c : AdminCommand} (h : c.target = none) (id : String)
    (before : Option GroupRec) : c.on id before = before := by
  unfold AdminCommand.on
  rw [h, if_neg (by simp)]

theorem Obeys.of_error {c : AdminCommand} {e : String} (hrun : c.run file = .error e)
    (htarget : c.target = none) : Obeys c file want where
  saved := by
    intro file' h
    rw [hrun] at h
    cases h
  refused := fun _ _ id => on_of_target_none htarget id (want id)

theorem create_obeys (h : Lists file want) (domain detected name : Option String) (port : ℕ)
    (secret : Vector UInt8 32) : Obeys (.create domain detected name port secret) file want := by
  cases hhost : advertised domain detected with
  | error e =>
    refine .of_error (e := e) ?_ ?_
    · simp [AdminCommand.run, cmdCreate, hhost, bind, Except.bind, Except.map]
    · simp [AdminCommand.target, hhost]
  | ok host =>
    generalize hid : hexEncode (groupIdFromSecret secret) = gid
    have hon : ∀ id before, (AdminCommand.create domain detected name port secret).on id before =
        if gid = id then some (before.getD ⟨id, name.getD "", true⟩) else before := by
      intro id before
      simp [AdminCommand.on, AdminCommand.target, hhost, hid]
    have hany := h.any_iff gid
    constructor
    · intro file' hrun
      rw [AdminCommand.run, cmdCreate_eq hhost, hid] at hrun
      split_ifs at hrun with hnew
      obtain rfl := Except.ok.inj hrun
      have hnone : want gid = none := by
        rw [← Option.not_isSome_iff_eq_none, ← hany]
        exact hnew
      refine (h.append (g := ⟨gid, name.getD "", true⟩) hnone).congr fun id => ?_
      rw [hon]
      split_ifs with hg
      · rw [← hg, hnone]
        rfl
      · rfl
    · intro e hrun id
      rw [AdminCommand.run, cmdCreate_eq hhost, hid] at hrun
      split_ifs at hrun with hold
      rw [hon]
      split_ifs with hg
      · obtain ⟨r, hr⟩ := Option.isSome_iff_exists.mp (hany.mp hold)
        rw [← hg, hr]
        rfl
      · rfl

theorem setEnabled_obeys (h : Lists file want) (c : AdminCommand) (groupId : String) (enabled : Bool)
    (hrun : c.run file = setEnabled groupId enabled file)
    (herr : ∀ e, parseGroupId groupId.toList = .error e → c.target = none)
    (hon : ∀ gid, parseGroupId groupId.toList = .ok gid → ∀ id before, c.on id before =
      if hexEncode gid = id then before.map fun g => { g with enabled := enabled } else before) :
    Obeys c file want := by
  cases hgid : parseGroupId groupId.toList with
  | error e =>
    refine .of_error (e := e) ?_ (herr e hgid)
    rw [hrun, setEnabled, hgid]
    rfl
  | ok gid =>
    have hfind := h.find (hexEncode gid)
    constructor
    · intro file' hok
      rw [hrun, setEnabled_eq hgid] at hok
      split_ifs at hok
      obtain rfl := Except.ok.inj hok
      rw [Lists.modify_first _ _ h.nodup]
      exact (h.map (f := fun g => { g with enabled := enabled }) (hexEncode gid) fun g => rfl).congr
        fun id => hon gid hgid id (want id)
    · intro e hbad id
      rw [hrun, setEnabled_eq hgid] at hbad
      split_ifs at hbad with hsome
      rw [hon gid hgid]
      split_ifs with hg
      · rw [hfind, Option.not_isSome_iff_eq_none, hg] at hsome
        rw [hsome]
        rfl
      · rfl

theorem deny_obeys (h : Lists file want) (groupId : String) : Obeys (.deny groupId) file want := by
  cases hgid : parseGroupId groupId.toList with
  | error e =>
    refine .of_error (e := e) ?_ ?_
    · rw [AdminCommand.run, removeGroup, hgid]
      rfl
    · simp [AdminCommand.target, hgid]
  | ok gid =>
    have hon : ∀ id before, (AdminCommand.deny groupId).on id before =
        if hexEncode gid = id then none else before := by
      intro id before
      simp [AdminCommand.on, AdminCommand.target, hgid]
    constructor
    · intro file' hok
      rw [AdminCommand.run, removeGroup_eq hgid] at hok
      split_ifs at hok
      obtain rfl := Except.ok.inj hok
      exact (h.filter (hexEncode gid)).congr fun id => hon id (want id)
    · intro e hbad id
      rw [AdminCommand.run, removeGroup_eq hgid] at hbad
      split_ifs at hbad with hlen
      rw [hon]
      split_ifs with hg
      · cases hw : want id with
        | none => rfl
        | some r =>
          -- A record of the group would have been taken out.
          obtain ⟨hr, hid⟩ := (h.mem id r).mpr hw
          have hkept := List.length_filter_eq_length_iff.mp hlen r hr
          simp [hid, hg] at hkept
      · rfl

theorem obeys (h : Lists file want) (c : AdminCommand) : Obeys c file want := by
  cases c with
  | create domain detected name port secret => exact create_obeys h domain detected name port secret
  | enable groupId =>
    refine setEnabled_obeys h _ groupId true rfl ?_ ?_
    · intro e he
      simp [AdminCommand.target, he]
    · intro gid hgid id before
      simp [AdminCommand.on, AdminCommand.target, hgid]
  | disable groupId =>
    refine setEnabled_obeys h _ groupId false rfl ?_ ?_
    · intro e he
      simp [AdminCommand.target, he]
    · intro gid hgid id before
      simp [AdminCommand.on, AdminCommand.target, hgid]
  | deny groupId => exact deny_obeys h groupId

end Commands

/-! ## The cache -/

namespace Admission
variable [Sha256] [Base64] {s t : Admission}

structure Inv (s : Admission) : Prop where
  lists : Lists (loadGroups s.file) (expected s.done)
  coherent : Coherent s.file s.allow
  fileTime : ∀ d, s.file = some d → d.mtime ∈ s.mtimes
  cacheTime : ∀ m, s.allow.mtime = some m → m ∈ s.mtimes
  getting : ∀ g, s.getting = some g →
    g.started <:+ s.done ∧ ∀ m, g.point = .reading (some m) → m ∈ s.mtimes
  loaded : ∀ c res, s.admin = some (c, res) → res = c.run (loadGroups s.file)
  answered : ∀ a ∈ s.answers, a.started <:+ a.done ∧ a.found = expected a.done a.id

/-- An answer from a cache that is the file as it is. -/
theorem Inv.answer (h : Inv s) {id : String} {started : List AdminCommand} {allow : Allowlist}
    (hstarted : started <:+ s.done) (hallow : allow.groups = GroupMap.collect (loadGroups s.file))
    (htime : ∀ m, allow.mtime = some m → m ∈ s.mtimes) : Inv (s.answer id started allow) where
  lists := h.lists
  coherent := fun _ _ => hallow
  fileTime := h.fileTime
  cacheTime := htime
  getting := fun g hg => by cases hg
  loaded := h.loaded
  answered := by
    intro a ha
    obtain ha | ha := List.mem_append.mp ha
    · exact h.answered a ha
    · obtain rfl := List.mem_singleton.mp ha
      refine ⟨hstarted, ?_⟩
      dsimp only
      rw [hallow]
      exact h.lists.get id

theorem Inv.command (h : Inv s) {c : AdminCommand} (hs : step s (.command c) = some t) : Inv t := by
  simp only [step] at hs
  split at hs
  · obtain rfl := Option.some.inj hs
    refine { h with loaded := fun c' res hres => ?_ }
    obtain ⟨rfl, rfl⟩ := Prod.mk.inj (Option.some.inj hres)
    rfl
  · cases hs

/-- A command that is over joins those that are done. -/
theorem Inv.later (h : Inv s) (c : AdminCommand) :
    ∀ g, s.getting = some g → g.started <:+ c :: s.done :=
  fun g hg => (h.getting g hg).1.trans (List.suffix_cons c s.done)

theorem Inv.finish (h : Inv s) {mtime : ℕ} (hs : step s (.finish mtime) = some t) : Inv t := by
  simp only [step] at hs
  split at hs
  · next c file hadmin =>
    split_ifs at hs with hnew
    obtain rfl := Option.some.inj hs
    have hsaved := (obeys h.lists c).saved file (h.loaded c _ hadmin).symm
    exact {
      lists := hsaved
      coherent := fun htime _ => absurd (h.cacheTime mtime htime) hnew
      fileTime := fun d hd => by
        obtain rfl := Option.some.inj hd
        exact List.mem_cons_self
      cacheTime := fun m hm => List.mem_cons_of_mem _ (h.cacheTime m hm)
      getting := fun g hg =>
        ⟨h.later c g hg, fun m hm => List.mem_cons_of_mem _ ((h.getting g hg).2 m hm)⟩
      loaded := fun c' res hres => by cases hres
      answered := h.answered }
  · next c e hadmin =>
    obtain rfl := Option.some.inj hs
    have hrefused := (obeys h.lists c).refused e (h.loaded c _ hadmin).symm
    exact {
      h with
      lists := h.lists.congr hrefused
      getting := fun g hg => ⟨h.later c g hg, (h.getting g hg).2⟩
      loaded := fun c' res hres => by cases hres }
  · cases hs

theorem Inv.get (h : Inv s) {id : String} (hs : step s (.get id) = some t) : Inv t := by
  simp only [step] at hs
  split at hs
  · cases hs
  · split_ifs at hs with hfresh hnone
    · obtain rfl := Option.some.inj hs
      obtain ⟨htime, hfull⟩ := Bool.and_eq_true_iff.mp hfresh
      refine h.answer List.suffix_rfl (h.coherent (of_decide_eq_true htime).symm ?_) h.cacheTime
      simpa using hfull
    · obtain rfl := Option.some.inj hs
      refine { h with getting := fun g hg => ?_ }
      obtain rfl := Option.some.inj hg
      exact ⟨List.suffix_rfl, fun m hm => by cases hm⟩
    · obtain rfl := Option.some.inj hs
      refine { h with getting := fun g hg => ?_ }
      obtain rfl := Option.some.inj hg
      refine ⟨List.suffix_rfl, fun m hm => ?_⟩
      obtain ⟨d, hd, rfl⟩ := Option.map_eq_some_iff.mp (RefreshPoint.reading.inj hm)
      exact h.fileTime d hd

theorem Inv.look (h : Inv s) (hs : step s .look = some t) : Inv t := by
  simp only [step] at hs
  split at hs
  · next id started hgetting =>
    have hstarted := (h.getting _ hgetting).1
    split_ifs at hs with hfile
    · obtain rfl := Option.some.inj hs
      refine { h with getting := fun g hg => ?_ }
      obtain rfl := Option.some.inj hg
      exact ⟨hstarted, fun m hm => by cases hm⟩
    · obtain rfl := Option.some.inj hs
      refine h.answer hstarted ?_ fun m hm => by cases hm
      rw [Option.not_isSome_iff_eq_none.mp hfile]
      rfl
  · cases hs

theorem Inv.read (h : Inv s) (hs : step s .read = some t) : Inv t := by
  simp only [step] at hs
  split at hs
  · next id started mtime hgetting =>
    obtain ⟨hstarted, htime⟩ := h.getting _ hgetting
    obtain rfl := Option.some.inj hs
    refine h.answer hstarted rfl fun m hm => htime m ?_
    rw [← hm]
    rfl
  · cases hs

theorem Inv.step {e : AdmissionEvent} (h : Inv s) (hs : Admission.step s e = some t) : Inv t := by
  cases e with
  | command c => exact h.command hs
  | finish mtime => exact h.finish hs
  | get id => exact h.get hs
  | look => exact h.look hs
  | read => exact h.read hs

/-! ## Whole runs -/

/-- No file, and an allowlist that knows nothing. -/
def start : Admission := ⟨none, .new, none, none, [], [], []⟩

theorem start_inv : Inv start where
  lists := Lists.nothing
  coherent := fun _ _ => rfl
  fileTime := fun d hd => by cases hd
  cacheTime := fun m hm => by cases hm
  getting := fun g hg => by cases hg
  loaded := fun c res hres => by cases hres
  answered := fun a ha => absurd ha List.not_mem_nil

/-- In every run of admin commands and `get`s, whatever the order of their steps, each `get` returns what
the commands that are done when it last looks at the file make of the group; these are the commands that
were done when it started, and those that have finished since. -/
theorem allowlist_current {es : List AdmissionEvent} (hr : exec step start es = some s) :
    ∀ a ∈ s.answers, a.started <:+ a.done ∧ a.found = expected a.done a.id :=
  (exec_invariant (fun _ _ _ h hs => Inv.step h hs) start_inv hr).answered

end Admission

/-! ### A group that is created and disabled -/

/-- SHA-256 at the salted secret of 32 zero bytes. -/
abbrev zeroSecretSha256 : Sha256 where
  digest := fun data =>
    if data = gidSalt ++ List.replicate 32 0 then
      #v[0x69, 0xc7, 0x64, 0x89, 0xb4, 0x94, 0x21, 0xeb, 0x49, 0x74, 0x8a, 0xba, 0xfb, 0x2e, 0x23,
        0x72, 0xa8, 0xc9, 0x4b, 0xda, 0x0c, 0xb6, 0x62, 0x4a, 0x52, 0xa4, 0x51, 0xa8, 0x1d, 0x03,
        0x41, 0x3a]
    else Vector.replicate 32 0

def zeroGroup : String := "69c76489b49421eb49748abafb2e2372"

/-- The first `get` finds no file and is overtaken by the command that creates the group; the second one
looks at the time of the file before the group is disabled, and reads it afterwards. -/
def createAndDisable : List AdmissionEvent :=
  [.command (.create none (some "10.0.0.5") none 43721 (Vector.replicate 32 0)), .get zeroGroup,
    .finish 1, .look, .read, .command (.disable zeroGroup), .get zeroGroup, .finish 2, .read,
    .get zeroGroup, .read, .get zeroGroup]

theorem createAndDisable_current :
    letI := zeroSecretSha256
    letI := sampleBase64
    ∃ s, exec Admission.step Admission.start createAndDisable = some s ∧
      s.answers.map (fun a => a.found.map GroupRec.enabled) =
        [some true, some false, some false, some false] ∧
      ∀ a ∈ s.answers, a.started <:+ a.done ∧ a.found = expected a.done a.id := by
  let _ := zeroSecretSha256
  let _ := sampleBase64
  have hrun : (exec Admission.step Admission.start createAndDisable).map
      (fun s => s.answers.map fun a => a.found.map GroupRec.enabled) =
        some [some true, some false, some false, some false] := by
    decide +kernel
  obtain ⟨s, hs, hfound⟩ := Option.map_eq_some_iff.mp hrun
  exact ⟨s, hs, hfound, Admission.allowlist_current hs⟩

end Zsync
