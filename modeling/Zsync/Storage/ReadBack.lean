import Zsync.Hubs.Concurrent
import Zsync.Model.CommandLine
import Zsync.Storage.Projection

/-! # What is set is got

A clip that no peer has sent has no name and no hash yet. A backend that has stored one gives it back, to the process
that has stored it and to those that open the clipboard later, as long as it may read its own files.

* `ReadsBack` : of a backend and how it is opened. `Good` says of a state that the backend works, `Has` that it has
  stored these bytes.
* `fileBackend_readsBack` : where no reading is refused.
* `native_readsBack` : over a file backend, where the desktop gives back the bytes that it has taken, or nothing.
* `fileBackend_returns`, `native_returns` : the same of items that come with their hash, as those of peers do.
-/

namespace Zsync
set_option autoImplicit false
set_option maxHeartbeats 250000
open Protocol Foundations Foundations.Files FileBackend

variable [Sha256]

structure Bare (item : Item) : Prop where
  hash : item.hash = ""
  name : item.name = ""

/-- The item has these bytes and their hash. -/
def Carries (data : Bytes) (item : Item) : Prop := item.data = data ∧ item.hash = Protocol.hash data

structure ReadsBack {σ : Type} (B : Backend σ) (opens : σ → Except IoError Unit × σ) (Good : σ → Prop)
    (Has : σ → Bytes → Prop) : Prop where
  stays : ∀ item s, Good s → Good (B.set item s).2
  stays_open : ∀ s, Good s → Good (opens s).2
  stored : ∀ {item s stored s'}, Good s → Bare item → B.set item s = (.ok stored, s') →
    Carries item.data stored ∧ Has s' item.data
  opened : ∀ {s data}, Good s → Has s data → (opens s).1 = .ok () ∧ Has (opens s).2 data
  got : ∀ {s data}, Good s → Has s data → ∃ got, B.get s = .ok (some got) ∧ Carries data got

namespace FileBackend
variable [Json Current] {dir : Place} {item : Item}

omit [Sha256] [Json Current] in
/-- A file that is written and renamed without an error is there. -/
theorem fileAt_writeAtomic {l tmp : List String} (hdir : ∀ seg ∈ dir, Plain seg) (hl : ∀ seg ∈ l, Plain seg)
    (htmp : ∀ seg ∈ tmp, Plain seg) (heq : tmpPath ⟨spot dir l⟩ = ⟨spot dir tmp⟩) {data : Bytes} {d d' : Disk}
    {u : Unit} (h : (writeAtomic ⟨spot dir l⟩ data).run d = (.ok u, d')) : FileAt (spot dir l) data d' := by
  rw [writeAtomic_eq, heq] at h
  obtain ⟨_, d₁, hwrite, hrename⟩ := Script.run_bind_ok_inv h
  rw [Script.run_write] at hwrite
  rw [Script.run_rename] at hrename
  have hat : FileAt (Path.place ⟨spot dir tmp⟩) data (d.write ⟨spot dir tmp⟩ data).2 :=
    fileAt_write (spot_plain hdir htmp) (congrArg Prod.fst hwrite)
  rw [hwrite] at hat
  have hfile : FileAt (Path.place ⟨spot dir l⟩) data (d₁.rename ⟨spot dir tmp⟩ ⟨spot dir l⟩).2 :=
    fileAt_rename (spot_plain hdir hl) hat.content (congrArg Prod.fst hrename)
  rwa [hrename, place_spot hdir hl] at hfile

/-- `serde_json` reads back the records of clips that fit. -/
def KeepsRecords : Prop :=
  ∀ cur : Current, cur.size ≤ maxClip → Json.decode (Json.encode cur) = some cur

omit [Sha256] in
/-- The record says what is given back, and lies on the disk. -/
theorem saveCurrent_ok (hdir : ∀ seg ∈ dir, Plain seg) (hjson : KeepsRecords)
    (hfits : item.data.length ≤ maxClip) {mime h : String} {offer : Path} {d d' : Disk} {res : Item × Current}
    (hrun : (saveCurrent dir item mime h offer).run d = (.ok res, d')) :
    res.1.data = item.data ∧ res.1.hash = h ∧ res.2.hash = h ∧ record dir d' = res.2 := by
  obtain ⟨r, d₁, -, hrun⟩ := Script.run_bind_ok_inv hrun
  have hrest : ∀ abs : Path, (do
        writeAtomic (metaPath dir) (Json.encode (⟨h, mime, item.data.length, abs.toText, item.name⟩ : Current))
        pure (⟨mime, item.data, h, abs.toText, item.name⟩, ⟨h, mime, item.data.length, abs.toText, item.name⟩) :
          Script (Item × Current)).run d₁ = (.ok res, d') →
      res.1.data = item.data ∧ res.1.hash = h ∧ res.2.hash = h ∧ record dir d' = res.2 := by
    intro abs hp
    obtain ⟨_, d₂, hwrite, hpure⟩ := Script.run_bind_ok_inv hp
    obtain ⟨hres, rfl⟩ := Prod.mk.inj hpure
    obtain rfl := Except.ok.inj hres
    refine ⟨rfl, rfl, rfl, ?_⟩
    rw [metaPath_eq] at hwrite
    have hfile := fileAt_writeAtomic hdir aside_meta.1.plain aside_meta.2.plain (tmp_meta hdir) hwrite
    rw [record, hfile.2]
    dsimp only
    rw [hjson _ hfits]
    rfl
  cases r with
  | ok p => exact hrest p hrun
  | error e => exact hrest offer hrun

theorem setOps_ok (hdir : ∀ seg ∈ dir, Plain seg) (hjson : KeepsRecords) (hfits : item.data.length ≤ maxClip)
    {d d' : Disk} {res : Item × Current} (hrun : (setOps dir item).run d = (.ok res, d')) :
    res.1.data = item.data ∧ res.1.hash = itemHash item ∧ res.2.hash = itemHash item ∧ record dir d' = res.2 := by
  obtain ⟨-, d₁, -, hrun⟩ := Script.run_bind_ok_inv hrun
  obtain ⟨offer, d₂, -, hrun⟩ := Script.run_bind_ok_inv hrun
  exact saveCurrent_ok hdir hjson hfits hrun

/-- The object stands when all is done. -/
theorem setOps_stored (hdir : ∀ seg ∈ dir, Plain seg) (hg : Given dir item) {d d' : Disk} {res : Item × Current}
    (hrun : (setOps dir item).run d = (.ok res, d')) : Stored dir item.data d' := by
  obtain ⟨next, hops, hfail, next', hmoving, hfail', hafter⟩ := Projection.setOps_begins hdir hg.hash_eq
  rw [hops] at hrun
  obtain ⟨_, hwrite, hrun⟩ := run_op_ok hfail hrun
  obtain ⟨_, hrename, hrun⟩ := run_op_ok hfail' ((congrArg (Prog.run · _) hmoving).symm.trans hrun)
  replace hrun := (congrArg (Prog.run · _) hafter).symm.trans hrun
  have hcontent := Projection.write_content (d := d) hdir (v := d.verdict) hwrite
  -- no other object is watched: only what the rename brings is asked for
  have hunknown : ∀ x, (fun _ : Bytes => False) x → Protocol.hash x = Protocol.hash item.data → x = item.data :=
    fun _ h => h.elim
  have hstored := (Projection.rename_apart hdir hunknown hcontent _ hrename).1
  obtain rfl : _ = d' := congrArg Prod.snd hrun
  exact (afterObject_outside hdir hg).run (I := Stored dir item.data)
    (fun o d' ho h => ho.stored h d'.verdict) hstored

omit [Sha256] [Json Current] in
/-- The operating system lets the program read, and enter its directories. -/
def Readable (d : Disk) : Prop :=
  (∀ p, d.verdict (.read p) = .allow) ∧ ∀ p, d.verdict (.createDirAll p) = .allow

omit [Sha256] [Json Current] in
theorem Readable.run {α : Type} {p : Prog α} {d : Disk} (h : Readable d) : Readable (p.run d).2 := by
  unfold Readable
  rwa [run_verdict p d]

/-- The object of these bytes is on the disk, and its record is the one in memory. -/
structure Kept (dir : Place) (cur : Current) (d : Disk) (data : Bytes) : Prop where
  object : Stored dir data d
  hash : cur.hash = Protocol.hash data
  record : FileBackend.record dir d = cur

/-- Who opens the directory finds the record. -/
theorem Kept.opened (hdir : ∀ seg ∈ dir, Plain seg) {cur : Current} {d : Disk} {data : Bytes}
    (h : Kept dir cur d data) (hd : Readable d) : (openBackend dir).run d = (.ok cur, d) := by
  have hobjects : objects dir = ⟨spot dir ["objects"]⟩ := by rw [objects, clips_eq, join_spot (by decide)]; rfl
  have hroot : Rooted (spot dir ["objects"]) d := by
    have hroot := h.object.rooted
    rwa [show (spot dir ["objects", Protocol.hash data]).dropLast = spot dir ["objects"] by simp [spot]] at hroot
  have hnul : ∀ seg ∈ dir, NulFree seg := fun seg hs => h.object.nulFree seg (List.mem_append_left _ hs)
  have hnames : ∀ {l : List String}, (∀ seg ∈ l, NulFree seg) → Path.NulFree ⟨spot dir l⟩ := fun hl =>
    Path.nulFree_append.mpr ⟨hnul, List.forall_mem_cons.mpr ⟨by decide, hl⟩⟩
  have hcreate : (Script.createDirAll (objects dir)).run d = (.ok (), d) := by
    rw [Script.run_createDirAll, Disk.createDirAll, hobjects, if_neg (not_not.mpr (hnames (by decide))),
      if_pos (hd.2 _)]
    refine makeDirs_done fun q hq => hroot q ?_
    simpa using entered_plain (spot_plain hdir (by decide)) [] hq
  obtain ⟨bytes, hcontent, hcur⟩ : ∃ bytes, d.content (spot dir ["current.json"]) = some bytes ∧
      (Json.decode bytes).getD Current.default = cur := by
    have hrecord := h.record
    unfold FileBackend.record at hrecord
    split at hrecord
    · next bytes hbytes => exact ⟨bytes, hbytes, hrecord⟩
    · have hne := hash_ne_empty data
      rw [← h.hash, ← hrecord] at hne
      exact absurd rfl hne
  have hread : d.read (metaPath dir) = (.ok bytes, d) := by
    rw [metaPath_eq]
    refine read_fileAt (spot_plain hdir aside_meta.1.plain) (.inl rfl)
      ⟨fun q hq => hroot q ?_, hcontent, hnames (by decide)⟩ (hd.1 _)
    refine hq.trans ?_
    simp [spot]
  have hattempt : (Script.read (metaPath dir)).attempt.run d = (.ok (.ok bytes), d) := by
    rw [Script.run_attempt]
    change (Except.ok (d.read (metaPath dir)).1, (d.read (metaPath dir)).2) = _
    rw [hread]
  rw [openBackend, Script.run_then hcreate, Script.run_then hattempt]
  dsimp only
  rw [hcur]
  rfl

/-- A write that succeeds has stored the bytes. -/
theorem set_kept (hjson : KeepsRecords) (hhash : itemHash item = Protocol.hash item.data)
    (hname : item.name = "" ∨ FileName item.name) {fb fb' : FileBackend} {stored : Item}
    (hset : FileBackend.set item fb = (.ok stored, fb')) :
    Carries item.data stored ∧ Kept fb'.dir fb'.cur fb'.disk item.data := by
  unfold FileBackend.set at hset
  split_ifs at hset with hlong
  · cases congrArg Prod.fst hset
  have hfits := Nat.not_lt.mp hlong
  have hg : Given fb.dir item := ⟨hhash, hname, hjson _ hfits⟩
  cases hres : ((setOps fb.dir item).run fb.disk).1 with
  | error e =>
    rw [hres] at hset
    cases congrArg Prod.fst hset
  | ok res =>
    have hrun : (setOps fb.dir item).run fb.disk = (.ok res, ((setOps fb.dir item).run fb.disk).2) :=
      Prod.ext hres rfl
    obtain ⟨hdata, hstored, hcur, hrecord⟩ := setOps_ok fb.plain hjson hfits hrun
    rw [hres] at hset
    obtain ⟨hok, rfl⟩ := Prod.mk.inj hset
    obtain rfl := Except.ok.inj hok
    have hafter : (fb.afterSet item).cur = res.2 := by rw [afterSet, hres]
    exact ⟨⟨hdata, hstored.trans hhash⟩, setOps_stored fb.plain hg hrun, by rw [hafter, hcur, hhash],
      by rw [hafter]; exact hrecord⟩

theorem fileBackend_readsBack (hjson : KeepsRecords) :
    ReadsBack fileBackend reopen (fun fb => Readable fb.disk) fun fb data => Kept fb.dir fb.cur fb.disk data where
  stays := by
    intro item fb hread
    change Readable (FileBackend.set item fb).2.disk
    unfold FileBackend.set
    split_ifs
    · exact hread
    · split
      · exact hread.run
      · exact hread.run
  stays_open := by
    intro fb hread
    unfold reopen
    dsimp only
    split
    · exact hread.run
    · exact hread.run
  stored := fun _ hbare hset => set_kept hjson (if_pos hbare.hash) (.inl hbare.name) hset
  opened := by
    intro fb data hread hkept
    have hrun := hkept.opened fb.plain hread
    have hok : ((openBackend fb.dir).run fb.disk).1 = .ok fb.cur := congrArg Prod.fst hrun
    have hsame : ((openBackend fb.dir).run fb.disk).2 = fb.disk := congrArg Prod.snd hrun
    unfold reopen
    dsimp only
    rw [hok]
    refine ⟨rfl, ?_⟩
    change Kept fb.dir fb.cur ((openBackend fb.dir).run fb.disk).2 data
    rwa [hsame]
  got := by
    intro fb data hread hkept
    have hne : fb.cur.hash ≠ "" := hkept.hash ▸ hash_ne_empty data
    have hobj : fb.disk.read ((objects fb.dir).join fb.cur.hash) = (.ok data, fb.disk) := by
      rw [hkept.hash, object_eq (hash_plain data).1]
      exact read_fileAt (object_plain fb.plain data) (.inl rfl) hkept.object (hread.1 _)
    exact ⟨_, getFrom_of_read hne hobj, rfl, hkept.hash⟩

/-- The item has the hash of its bytes, and its name is no path. -/
structure Named (item : Item) : Prop where
  hash : item.hash = Protocol.hash item.data
  name : item.name = "" ∨ FileName item.name

theorem fileBackend_returns (hjson : KeepsRecords) : Returns fileBackend (fun fb => Readable fb.disk) Named where
  stays := (fileBackend_readsBack hjson).stays
  got := by
    intro item fb stored fb' hread hnamed _ hset
    have hhash : itemHash item = Protocol.hash item.data := by
      rw [itemHash, if_neg (hnamed.hash ▸ hash_ne_empty item.data), hnamed.hash]
    obtain ⟨hcarries, hkept⟩ := set_kept hjson hhash hnamed.name hset
    have hstays := (fileBackend_readsBack hjson).stays item fb hread
    rw [hset] at hstays
    obtain ⟨back, hback, hdata, hbackHash⟩ := (fileBackend_readsBack hjson).got hstays hkept
    exact ⟨hcarries.1, back, hback, hdata, hbackHash.trans hnamed.hash.symm⟩

end FileBackend

/-! ## The desktop -/

/-- What the desktop has taken, it gives back with its hash, or it gives nothing. -/
def GivesBack {ω : Type} (os : Os ω) (data : Bytes) (w : ω) : Prop :=
  ∃ o, os.getter w = .ok o ∧ ∀ got ∈ o, Carries data got

omit [Sha256] in
theorem native_stays {σ ω : Type} {file : Backend σ} {Good : σ → Prop} {os : Os ω}
    (hfile : ∀ item s, Good s → Good (file.set item s).2) (item : Item) (s : σ × ω) (hs : Good s.1) :
    Good ((native file os).set item s).2.1 := by
  have hgood := hfile item s.1 hs
  simp only [native]
  split
  · next hset => rwa [hset] at hgood
  · next hset =>
    rw [hset] at hgood
    split
    · exact hgood
    · exact hgood

theorem native_readsBack {σ ω : Type} {file : Backend σ} {opens : σ → Except IoError Unit × σ} {Good : σ → Prop}
    {Has : σ → Bytes → Prop} {os : Os ω} (hfile : ReadsBack file opens Good Has)
    (hos : ∀ item w w', os.setter item w = (.ok (), w') → GivesBack os item.data w') :
    ReadsBack (native file os) (nativeOpen opens) (fun s => Good s.1) fun s data =>
      Has s.1 data ∧ GivesBack os data s.2 where
  stays := native_stays hfile.stays
  stays_open := fun s hs => hfile.stays_open s.1 hs
  stored := by
    intro item s stored s' hs hbare hset
    simp only [native] at hset
    split at hset
    · cases congrArg Prod.fst hset
    · next mirror files hmirror =>
      obtain ⟨hcarries, hhas⟩ := hfile.stored hs hbare hmirror
      split at hset
      · cases congrArg Prod.fst hset
      · next w hw =>
        obtain ⟨hok, rfl⟩ := Prod.mk.inj hset
        obtain rfl := Except.ok.inj hok
        have hdesktop := hos _ _ _ hw
        rw [hcarries.1] at hdesktop
        exact ⟨hcarries, hhas, hdesktop⟩
  opened := by
    rintro s data hs ⟨hhas, hdesktop⟩
    obtain ⟨hok, hopened⟩ := hfile.opened hs hhas
    exact ⟨hok, hopened, hdesktop⟩
  got := by
    rintro s data hs ⟨hhas, o, hget, hgot⟩
    obtain ⟨back, hback, hcarries⟩ := hfile.got hs hhas
    simp only [native, hget, hback]
    cases o with
    | none => exact ⟨back, rfl, hcarries⟩
    | some got =>
      have hg := hgot got rfl
      exact ⟨_, if_pos (hg.2.trans hcarries.2.symm), hg⟩

theorem native_returns {σ ω : Type} {file : Backend σ} {Good : σ → Prop} {Given : Item → Prop} {os : Os ω}
    (hfile : Returns file Good Given)
    (hos : ∀ item w w', os.setter item w = (.ok (), w') → GivesBack os item.data w') :
    Returns (native file os) (fun s => Good s.1) fun item => Given item ∧ item.hash = Protocol.hash item.data where
  stays := native_stays hfile.stays
  got := by
    rintro item s stored s' hs ⟨hgiven, hhash⟩ hfits hset
    simp only [native] at hset
    split at hset
    · cases congrArg Prod.fst hset
    · next mirror files hmirror =>
      obtain ⟨hdata, back, hback, hbackData, hbackHash⟩ := hfile.got hs hgiven hfits hmirror
      split at hset
      · cases congrArg Prod.fst hset
      · next w hw =>
        obtain ⟨hok, rfl⟩ := Prod.mk.inj hset
        obtain rfl := Except.ok.inj hok
        obtain ⟨o, hget, hgot⟩ := hos _ _ _ hw
        refine ⟨hdata, ?_⟩
        simp only [native, hget, hback]
        cases o with
        | none => exact ⟨back, rfl, hbackData, hbackHash⟩
        | some got =>
          obtain ⟨hgotData, hgotHash⟩ := hgot got rfl
          rw [hdata] at hgotData hgotHash
          exact ⟨_, if_pos (hgotHash.trans (hbackHash.trans hhash).symm), hgotData, hgotHash.trans hhash.symm⟩

end Zsync
