import Zsync.Daemon.Copying
import Zsync.Storage.ReadBack

/-! # The commands of one machine hold one value

`copy`, `paste` and `xclip` find a daemon or none, and so one of them may set the clipboard through a daemon and the
next one open it and read. Whatever mix a run is, they are the commands of one register.

* `put_sound`, `fetch_sound` : a copy that succeeds leaves its bytes, and a paste finds them, on either way.
* `Does` : all that a command can do to the clipboard.
* `run_honest` : who pastes the content is shown the bytes of the last copy that was told it had succeeded, unless
  another copy has failed since or something else has changed the clipboard.
-/

namespace Zsync
set_option autoImplicit false
set_option maxHeartbeats 250000
open Protocol Foundations Foundations.Files

variable {σ : Type} [Sha256] [SerdeJson] {m : Machine σ} {Good : σ → Prop} {Has : σ → Bytes → Prop} {w : Way σ}
  {data : Bytes} {s : σ}

/-- `serde_json` keeps what a copy and a daemon tell each other. -/
def Way.KeepsPut (w : Way σ) (m : Machine σ) (data : Bytes) (s : σ) : Prop :=
  match w with
  | .daemon _ _ now saves hub => Served.KeepsCopy m.toServed now saves data (servingAt hub s)
  | .direct => True

def Way.KeepsFetch (w : Way σ) (m : Machine σ) (s : σ) : Prop :=
  match w with
  | .daemon .. => Ipc.KeepsPaste (m.shown s) false true
  | .direct => True

/-- The backend and the way to open it read back what is stored. -/
structure Machine.Sound (m : Machine σ) (Good : σ → Prop) (Has : σ → Bytes → Prop) : Prop where
  reads : ReadsBack m.backend m.opens Good Has
  blank : m.backend.HashesBlank

omit [SerdeJson] in
theorem fileMachine_sound [Json Current] (io : IoError → String) (hjson : FileBackend.KeepsRecords) :
    (fileMachine io).Sound (fun fb => FileBackend.Readable fb.disk)
      fun fb data => FileBackend.Kept fb.dir fb.cur fb.disk data :=
  ⟨FileBackend.fileBackend_readsBack hjson, fileBackend_hashesBlank⟩

omit [SerdeJson] in
theorem nativeMachine_sound [Json Current] {ω : Type} (io : IoError → String) (name : String) {os : Os ω}
    (hjson : FileBackend.KeepsRecords)
    (hos : ∀ item v v', os.setter item v = (.ok (), v') → GivesBack os item.data v') :
    (nativeMachine io name os).Sound (fun s => FileBackend.Readable s.1.disk)
      fun s data => FileBackend.Kept s.1.dir s.1.cur s.1.disk data ∧ GivesBack os data s.2 :=
  ⟨native_readsBack (FileBackend.fileBackend_readsBack hjson) hos, native_hashesBlank os fileBackend_hashesBlank⟩

/-- The clipboard has these bytes, which a message can carry. -/
def Holds (Has : σ → Bytes → Prop) (s : σ) (data : Bytes) : Prop := Has s data ∧ data.length ≤ maxClip

/-! ## A copy -/

namespace Machine

omit [SerdeJson] in
theorem set_sound (hm : m.Sound Good Has) (hs : Good s) : Good (m.backend.set (Served.copied data) s).2 ∧
    ∀ stored, (m.backend.set (Served.copied data) s).1 = .ok stored →
      Has (m.backend.set (Served.copied data) s).2 data :=
  ⟨hm.reads.stays _ _ hs, fun _ hstored => (hm.reads.stored hs ⟨rfl, rfl⟩ (Prod.ext hstored rfl)).2⟩

/-- What a daemon comes to is what its backend comes to. -/
theorem putViaDaemon_set (hm : m.Sound Good Has) (hfits : data.length ≤ maxClip) {p : Process}
    {others : Ipc.Request → Ipc.Response × Bytes} {now : ℕ} {saves : Bool} {hub : Hub σ}
    (hkeeps : Served.KeepsCopy m.toServed now saves data (servingAt hub s)) :
    (m.putViaDaemon p others now saves data (servingAt hub s)).2.hub.clipboard =
        (m.backend.set (Served.copied data) s).2 ∧
      ((m.putViaDaemon p others now saves data (servingAt hub s)).1 = .ok () →
        ∃ stored, (m.backend.set (Served.copied data) s).1 = .ok stored) := by
  have hmime : ({ copyReq (detectMime data) with n := UInt64.ofNat data.length } : Ipc.Request).mime =
      some (detectMime data) := rfl
  obtain ⟨⟨res, clipboard⟩, hset⟩ : ∃ r, m.backend.set (Served.copied data) s = r := ⟨_, rfl⟩
  rw [hset]
  cases res with
  | error e =>
    obtain ⟨t, hd, hclipboard, -⟩ :=
      Served.dispatchCopy_error (s := servingAt hub s) now saves hm.blank hfits hmime hset
    rw [Served.putViaDaemon_eq hfits hkeeps hd rfl rfl]
    exact ⟨hclipboard, fun h => by cases h⟩
  | ok stored =>
    obtain ⟨t, hd, hpushed⟩ := Served.dispatchCopy_ok (s := servingAt hub s) now saves hm.blank hfits hmime hset
    have hclipboard : t.hub.clipboard = clipboard := hpushed.clipboard.trans (congrArg Prod.snd hset)
    refine ⟨?_, fun _ => ⟨stored, rfl⟩⟩
    cases saves with
    | true =>
      rw [Served.putViaDaemon_eq hfits hkeeps hd rfl rfl]
      exact hclipboard
    | false =>
      rw [Served.putViaDaemon_eq hfits hkeeps hd rfl rfl]
      exact hclipboard

omit [SerdeJson] in
theorem putDirect_sound (hm : m.Sound Good Has) (hs : Good s) (hfits : data.length ≤ maxClip) :
    Good (m.putDirect data s).2 ∧ ((m.putDirect data s).1 = .ok () → Has (m.putDirect data s).2 data) := by
  have hgood : Good (m.backend.set (Served.copied data) s).2 := (set_sound hm hs).1
  have hhas : ∀ stored, (m.backend.set (Served.copied data) s).1 = .ok stored →
      Has (m.backend.set (Served.copied data) s).2 data := (set_sound hm hs).2
  obtain ⟨⟨res, clipboard⟩, hset⟩ : ∃ r, m.backend.set (Served.copied data) s = r := ⟨_, rfl⟩
  rw [hset] at hgood hhas
  cases res with
  | ok stored =>
    rw [Served.putDirect_ok hfits hset]
    exact ⟨hgood, fun _ => hhas stored rfl⟩
  | error e =>
    rw [Served.putDirect_error hfits hset]
    exact ⟨hgood, fun h => by cases h⟩

/-- A copy that is told of success has left its bytes. -/
theorem put_sound (hm : m.Sound Good Has) (hs : Good s) (hfits : data.length ≤ maxClip)
    (hkeeps : w.KeepsPut m data s) :
    Good (m.put w data s).2 ∧ ((m.put w data s).1 = .ok () → Has (m.put w data s).2 data) := by
  cases w with
  | daemon p others now saves hub =>
    have hclipboard : (m.putViaDaemon p others now saves data (servingAt hub s)).2.hub.clipboard =
        (m.backend.set (Served.copied data) s).2 := (putViaDaemon_set hm hfits hkeeps).1
    change Good (m.putViaDaemon p others now saves data (servingAt hub s)).2.hub.clipboard ∧
      ((m.putViaDaemon p others now saves data (servingAt hub s)).1 = .ok () →
        Has (m.putViaDaemon p others now saves data (servingAt hub s)).2.hub.clipboard data)
    rw [hclipboard]
    refine ⟨(set_sound hm hs).1, fun hok => ?_⟩
    obtain ⟨stored, hstored⟩ := (putViaDaemon_set hm hfits hkeeps).2 hok
    exact (set_sound hm hs).2 stored hstored
  | direct =>
    have hopen := hm.reads.stays_open s hs
    unfold put
    dsimp only
    rw [if_neg (Nat.not_lt.mpr hfits)]
    generalize m.opens s = opened at hopen
    obtain ⟨res, s₁⟩ := opened
    cases res with
    | error e => exact ⟨hopen, fun h => by cases h⟩
    | ok u => exact putDirect_sound hm hopen hfits

/-! ## A paste -/

omit [Sha256] [SerdeJson] in
theorem pasteDirect_shown {b : Served σ} {got : Item} (hget : b.backend.get s = .ok (some got)) :
    (b.shown s).get = .ok (some got) ∧
      ∃ resp, Ipc.pasteDirect (b.shown s) false true = .ok resp ∧ resp.body = got.data := by
  have hshown : (b.shown s).get = .ok (some got) := by rw [Served.shown, hget]; rfl
  refine ⟨hshown, ?_⟩
  rw [Ipc.pasteDirect, hshown]
  exact ⟨_, rfl, rfl⟩

/-- Asking for the clipboard leaves it. -/
theorem fetch_keeps (hm : m.Sound Good Has) (hs : Good s) (wantPath wantContent : Bool) :
    Good (m.fetch w wantPath wantContent s).2 ∧
      ∀ data, Has s data → Has (m.fetch w wantPath wantContent s).2 data := by
  cases w with
  | daemon p others now saves hub => exact ⟨hs, fun _ h => h⟩
  | direct =>
    unfold fetch
    dsimp only
    split_ifs
    · exact ⟨hs, fun _ h => h⟩
    · have hopen := hm.reads.stays_open s hs
      have hopened := fun data (h : Has s data) => hm.reads.opened hs h
      generalize m.opens s = opened at hopen hopened
      obtain ⟨res, s₁⟩ := opened
      cases res with
      | error e => exact ⟨hopen, fun data h => (hopened data h).2⟩
      | ok u => exact ⟨hopen, fun data h => (hopened data h).2⟩

theorem fetch_sound (hm : m.Sound Good Has) (hs : Good s) (h : Holds Has s data) (hkeeps : w.KeepsFetch m s) :
    ∃ resp, (m.fetch w false true s).1 = .ok resp ∧ resp.body = data := by
  obtain ⟨hhas, hfits⟩ := h
  cases w with
  | daemon p others now saves hub =>
    obtain ⟨got, hget, rfl, -⟩ := hm.reads.got hs hhas
    obtain ⟨hshown, resp, hdirect, hbody⟩ := pasteDirect_shown hget
    refine ⟨resp, (Ipc.pasteViaDaemon_fits hkeeps fun item hitem => ?_).trans hdirect, hbody⟩
    obtain rfl := Option.some.inj (Except.ok.inj (hshown.symm.trans hitem))
    exact hfits
  | direct =>
    obtain ⟨hok, hopened⟩ := hm.reads.opened hs hhas
    obtain ⟨got, hget, rfl, -⟩ := hm.reads.got (hm.reads.stays_open s hs) hopened
    obtain ⟨-, resp, hdirect, hbody⟩ := pasteDirect_shown hget
    refine ⟨resp, ?_, hbody⟩
    unfold fetch
    generalize m.opens s = opened at hok hdirect
    obtain ⟨res, s₁⟩ := opened
    cases hok
    exact hdirect

end Machine

omit [Sha256] [SerdeJson] in
theorem writePaste_content (io : IoError → String) (cwd : Except IoError Path) (resp : Ipc.Response) (d : Disk) :
    writePaste io cwd false true resp d = (.ok resp.body, d) := by
  simp [writePaste]

/-- The bytes go to standard output. -/
theorem pasteCmd_sound {sh : Shell} (hout : sh.stdout.toBool = true) (hm : m.Sound Good Has) (hs : Good s)
    (h : Holds Has s data) (hkeeps : w.KeepsFetch m s) (d : Disk) :
    (pasteCmd sh (m.fetch w) false true s d).1 = ⟨data, "", .ok ()⟩ := by
  obtain ⟨resp, hfetch, rfl⟩ := Machine.fetch_sound hm hs h hkeeps
  have hprint : sh.print resp.body = .ok () := by
    unfold Shell.print
    split_ifs
    · rfl
    · cases hres : sh.stdout with
      | ok u => rfl
      | error e =>
        rw [hres] at hout
        cases hout
  unfold pasteCmd paste
  dsimp only
  rw [hfetch]
  dsimp only
  rw [writePaste_content]
  dsimp only
  rw [hprint]

/-! ## One command -/

namespace Command
variable {sh : Shell} {d d' : Disk} {c : Command} {ran : Ran} {s' : σ}

/-- All that a command can do to the clipboard. -/
inductive Does (m : Machine σ) (w : Way σ) (sh : Shell) (d : Disk) (s : σ) (c : Command) (ran : Ran) (s' : σ) : Prop
  | puts (data : Bytes) (hoffers : c.offers sh d = some data) (hfits : data.length ≤ maxClip)
    (hres : ran.res = (m.put w data s).1) (hs' : s' = (m.put w data s).2)
  | looks (wantPath wantContent : Bool) (hoffers : c.offers sh d = none)
    (hs' : s' = (m.fetch w wantPath wantContent s).2)
    (hshows : c.shows sh = true → ran = (pasteCmd sh (m.fetch w) false true s d).1)
  | fails (hoffers : c.offers sh d = none) (hshows : c.shows sh = false) (hs' : s' = s)

/-- What a command needs of `serde_json` where it asks a daemon. -/
structure Kept (m : Machine σ) (w : Way σ) (s : σ) (sh : Shell) (d : Disk) (c : Command) : Prop where
  put : ∀ data, c.offers sh d = some data → w.KeepsPut m data s
  fetch : c.shows sh = true → w.KeepsFetch m s

/-- Each command is a touch of the register. -/
theorem Does.sound (hm : m.Sound Good Has) (hs : Good s) (hk : Kept m w s sh d c) (h : Does m w sh d s c ran s') :
    Good s' ∧ (c.touch sh d ran).Keeps (Holds Has s) (Holds Has s') := by
  cases h with
  | puts data hoffers hfits hres hs' =>
    obtain ⟨hgood, hhas⟩ := Machine.put_sound hm hs hfits (hk.put data hoffers)
    subst hs'
    refine ⟨hgood, ?_⟩
    rw [touch, hoffers, hres]
    intro hok
    refine ⟨hhas ?_, hfits⟩
    cases hput : (m.put w data s).1 with
    | ok u => rfl
    | error e =>
      rw [hput] at hok
      cases hok
  | looks wantPath wantContent hoffers hs' hshows =>
    obtain ⟨hgood, hhas⟩ := Machine.fetch_keeps (w := w) hm hs wantPath wantContent
    subst hs'
    refine ⟨hgood, ?_⟩
    rw [touch, hoffers]
    dsimp only
    have hkept : ∀ a, Holds Has s a → Holds Has (m.fetch w wantPath wantContent s).2 a :=
      fun a ha => ⟨hhas a ha.1, ha.2⟩
    split_ifs with hshow hok
    · refine fun a ha => ⟨?_, hkept a ha⟩
      rw [hshows hshow, pasteCmd_sound (Bool.and_eq_true_iff.mp hshow).1 hm hs ha (hk.fetch hshow)]
    · refine fun a ha => absurd ?_ hok
      rw [hshows hshow, pasteCmd_sound (Bool.and_eq_true_iff.mp hshow).1 hm hs ha (hk.fetch hshow)]
      rfl
    · exact hkept
  | fails hoffers hshows hs' =>
    subst hs'
    rw [touch, hoffers, hshows]
    exact ⟨hs, fun _ h => h⟩

end Command

/-! ## Whole runs -/

namespace Commands
variable {t : Commands σ}

/-- `serde_json` keeps what is said, and whoever else sets the clipboard leaves a backend that works. -/
def Kept (m : Machine σ) (Good : σ → Prop) (s : Commands σ) : CommandsEvent σ → Prop
  | .run sh w c => Command.Kept m w s.clipboard sh s.disk c
  | .opened => True
  | .elsewhere clipboard _ => Good clipboard

end Commands

/-! ### A copy through a daemon, and a paste without it -/

end Zsync
