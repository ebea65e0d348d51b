import Zsync.Daemon.Mirror
import Zsync.Hubs.Echo
import Zsync.Model.Desktop

/-! # Texts that name a file

On a desktop the daemon writes the clips that it is sent onto the clipboard, and its watcher reads the clipboard as if
a user had copied there. A text that names a file of this machine is read as this file.

* `Pasteboard` : what the programs of a desktop say of its clipboard, and `Pasteboard.get` the getter that all desktops
  share.
* `Keeps` : a program that succeeds has put its input onto the clipboard.
* `sends_iff` : the watcher answers a clip from outside with a clip of its own exactly when the first one names a file
  of the user, and what it then sends to all peers is that file.
-/

namespace Zsync
set_option autoImplicit false
set_option maxHeartbeats 250000
open Protocol Foundations Foundations.Json Foundations.UnixPaths

/-! ## The file backend -/

section Stored
variable [Sha256] [Json Current]
open Files FileBackend

/-- What is stored is the item with what it left open, and reading it back finds its hash. -/
theorem set_stored {fb fb' : FileBackend} {item stored : Item} (h : fileBackend.set item fb = (.ok stored, fb')) :
    stored.data = item.data ∧ stored.name = item.name ∧
      stored.hash = (if item.hash = "" then Protocol.hash item.data else item.hash) ∧ fb'.cur.hash = stored.hash := by
  change FileBackend.set item fb = _ at h
  unfold FileBackend.set at h
  split_ifs at h
  · cases h
  · cases hrun : ((setOps fb.dir item).run fb.disk).1 with
    | error e =>
      rw [hrun] at h
      cases h
    | ok res =>
      obtain ⟨kept, cur⟩ := res
      rw [hrun] at h
      obtain ⟨hkept, hafter⟩ := Prod.mk.inj h
      obtain rfl : kept = stored := Except.ok.inj hkept
      have hcur : fb'.cur = cur := by
        rw [← hafter]
        unfold afterSet
        rw [hrun]
      have hops : (setOps fb.dir item).run fb.disk = (.ok (kept, cur), ((setOps fb.dir item).run fb.disk).2) := by
        rw [← hrun]
      obtain ⟨-, d₁, -, hrest⟩ := Script.run_bind_ok_inv hops
      obtain ⟨offer, d₂, -, hsave⟩ := Script.run_bind_ok_inv hrest
      obtain ⟨abs, d₃, -, hwrite⟩ := Script.run_bind_ok_inv hsave
      obtain ⟨-, d₄, -, hpure⟩ := Script.run_bind_ok_inv hwrite
      obtain ⟨hitem, -⟩ := Prod.mk.inj hpure
      obtain ⟨rfl, rfl⟩ := Prod.mk.inj (Except.ok.inj hitem)
      rw [hcur]
      exact ⟨rfl, rfl, rfl, rfl⟩

theorem get_hash {fb : FileBackend} {item : Item} (h : fileBackend.get fb = .ok (some item)) :
    item.hash = fb.cur.hash := by
  change FileBackend.get fb = _ at h
  unfold FileBackend.get at h
  split_ifs at h
  · cases h
  · split at h
    · rw [← Option.some.inj (Except.ok.inj h)]
    · cases h
    · cases h

end Stored

/-! ## What lies on a clipboard -/

/-- The types that are listed, what pasting gives, and what pasting under a type gives. -/
structure Pasteboard where
  types : Option Bytes
  plain : Option Bytes
  paste : String → Option Bytes

namespace Pasteboard

def get [Sha256] (fs : UserFiles) (v : Pasteboard) : Option Item :=
  typedItem fs v.types v.paste <|> v.plain.bind (textItem fs)

/-- What is pasted under a type that is listed. -/
def pasted (v : Pasteboard) (mime : String) : Option Bytes :=
  v.types.bind fun types => if listed mime (lossy types) then v.paste mime else none

/-- Nothing but `data` lies on the clipboard. A program may fail, but not when `data` came without a type. -/
structure Offers (v : Pasteboard) (mime : Option String) (data : Bytes) : Prop where
  plain : ∀ b, v.plain = some b → b = data
  typed : ∀ m b, v.pasted m = some b → b = data
  text : mime = none → v.plain = some data

/-- The types whose content a getter takes as it is. -/
def rawTypes : List String := ["image/png", "application/pdf", "application/zip"]

/-- A getter comes to look at the content as text. -/
def AsText (v : Pasteboard) : Prop :=
  (v.pasted "text/uri-list").isSome ∨ v.plain.isSome ∧ ∀ mime ∈ rawTypes, v.pasted mime = none

theorem Offers.pasted_cases {v : Pasteboard} {mime : Option String} {data : Bytes} (h : v.Offers mime data)
    (m : String) :
    v.pasted m = none ∨ v.pasted m = some data := by
  cases hb : v.pasted m with
  | none => exact .inl rfl
  | some b => exact .inr (congrArg some (h.typed m b hb))

section Get
variable [Sha256] {fs : UserFiles} {v : Pasteboard} {mime : Option String} {data : Bytes}

def raw (v : Pasteboard) (mime : String) : Option Item :=
  (v.pasted mime).bind fun b => if b = [] then none else some (Item.new mime b)

def raws (v : Pasteboard) : Option Item := v.raw "image/png" <|> v.raw "application/pdf" <|> v.raw "application/zip"

theorem get_eq_pasted :
    v.get fs = ((v.pasted "text/uri-list").bind (itemFromFileText fs) <|> v.raws <|> v.plain.bind (textItem fs)) := by
  have hite : ∀ (c : Prop) [Decidable c] (o : Option Bytes) (f : Bytes → Option Item),
      (if c then o.bind f else none) = (if c then o else none).bind f := by
    intro c _ o f
    split_ifs <;> rfl
  have htyped : typedItem fs v.types v.paste = ((v.pasted "text/uri-list").bind (itemFromFileText fs) <|> v.raws) := by
    unfold raws raw pasted typedItem
    cases v.types with
    | none => rfl
    | some types => simp only [hite, Option.bind_some]
  rw [get, htyped]
  simp [Option.or_assoc]

/-- The content, as a getter gives it when it does not look for a file. -/
def AsIs (data : Bytes) (got : Option Item) : Prop := got = none ∨ ∃ m, got = some (Item.new m data)

theorem AsIs.or {a b : Option Item} (ha : AsIs data a) (hb : AsIs data b) : AsIs data (a <|> b) := by
  obtain rfl | ⟨m, rfl⟩ := ha
  · exact hb
  · exact .inr ⟨m, rfl⟩

theorem raw_asIs (h : v.Offers mime data) (m : String) : AsIs data (v.raw m) := by
  unfold raw
  obtain hm | hm := h.pasted_cases m
  · rw [hm]
    exact .inl rfl
  · rw [hm, Option.bind_some]
    split_ifs
    · exact .inl rfl
    · exact .inr ⟨m, rfl⟩

theorem raws_asIs (h : v.Offers mime data) : AsIs data v.raws :=
  (raw_asIs h _).or ((raw_asIs h _).or (raw_asIs h _))

theorem raws_none_iff (h : v.Offers mime data) (hdata : data ≠ []) :
    v.raws = none ↔ ∀ m ∈ rawTypes, v.pasted m = none := by
  have hraw : ∀ m, v.raw m = none ↔ v.pasted m = none := by
    intro m
    unfold raw
    obtain hm | hm := h.pasted_cases m
    · simp [hm]
    · simp [hm, hdata]
  simp [raws, rawTypes, hraw]

/-- What a getter makes of the content. -/
theorem get_cases (fs : UserFiles) (h : v.Offers mime data) (hdata : data ≠ []) :
    (v.AsText ∧ ∃ f, itemFromFileText fs data = some f ∧ v.get fs = some f) ∨
      (v.AsText → itemFromFileText fs data = none) ∧ AsIs data (v.get fs) := by
  have htext : ∀ b, v.plain = some b →
      v.plain.bind (textItem fs) = some ((itemFromFileText fs data).getD (Item.new "text/plain" data)) := by
    intro b hb
    obtain rfl := h.plain b hb
    rw [hb, Option.bind_some, textItem, if_neg hdata]
  rw [get_eq_pasted]
  cases hf : itemFromFileText fs data with
  | none =>
    refine .inr ⟨fun _ => rfl, ?_⟩
    have huri : (v.pasted "text/uri-list").bind (itemFromFileText fs) = none := by
      obtain hm | hm := h.pasted_cases "text/uri-list"
      · rw [hm]
        rfl
      · rw [hm]
        exact hf
    rw [huri]
    refine (raws_asIs h).or ?_
    cases hb : v.plain with
    | none => exact .inl rfl
    | some b =>
      rw [← hb, htext b hb, hf]
      exact .inr ⟨_, rfl⟩
  | some f =>
    obtain huri | huri := h.pasted_cases "text/uri-list"
    · rw [huri, Option.bind_none]
      by_cases hraws : v.raws = none
      · rw [hraws]
        cases hb : v.plain with
        | none =>
          refine .inr ⟨fun ht => ?_, .inl rfl⟩
          obtain hc | hc := ht
          · simp [huri] at hc
          · simp [hb] at hc
        | some b =>
          refine .inl ⟨.inr ⟨by simp [hb], (raws_none_iff h hdata).mp hraws⟩, f, rfl, ?_⟩
          rw [← hb, htext b hb, hf]
          rfl
      · refine .inr ⟨fun ht => ?_, ?_⟩
        · obtain hc | hc := ht
          · simp [huri] at hc
          · exact absurd ((raws_none_iff h hdata).mpr hc.2) hraws
        · obtain hnone | ⟨m, hm⟩ := raws_asIs h
          · exact absurd hnone hraws
          · exact .inr ⟨m, by rw [hm]; rfl⟩
    · refine .inl ⟨.inl (by rw [huri]; rfl), f, rfl, ?_⟩
      rw [huri, Option.bind_some, hf]
      rfl

end Get
end Pasteboard

/-! ## Desktops -/

inductive Tools where
  | wayland
  | xclip
  | xsel
  deriving DecidableEq

namespace Desktop
variable {ω : Type} (d : Desktop ω)

def os [Sha256] : Tools → Os ω
  | .wayland => d.wayland
  | .xclip => d.xclip
  | .xsel => d.xsel

def pasteboard (s : ω) : Tools → Pasteboard
  | .wayland =>
    ⟨d.runOut s "wl-paste" ["--list-types"], d.runOut s "wl-paste" ["--no-newline"],
      fun mime => d.runOut s "wl-paste" ["--no-newline", "-t", mime]⟩
  | .xclip =>
    ⟨d.runOut s "xclip" ["-selection", "clipboard", "-o", "-t", "TARGETS"],
      d.runOut s "xclip" ["-selection", "clipboard", "-o"],
      fun mime => d.runOut s "xclip" ["-selection", "clipboard", "-o", "-t", mime]⟩
  | .xsel => ⟨none, d.runOut s "xsel" ["--clipboard", "--output"], fun _ => none⟩

/-- The command that puts its input onto the clipboard under a type. -/
def putting (mime : Option String) : Tools → String × List String
  | .wayland => ("wl-copy", typeArgs mime)
  | .xclip => ("xclip", ["-selection", "clipboard"] ++ typeArgs mime)
  | .xsel => ("xsel", ["--clipboard", "--input"])

/-- When it succeeds, its input is what lies on the clipboard. -/
def Keeps (tools : Tools) : Prop :=
  ∀ mime data s s', d.runIn (putting mime tools).1 (putting mime tools).2 data s = (.ok (), s') →
    (d.pasteboard s' tools).Offers mime data

section Os
variable [Sha256] {d} {tools : Tools}

theorem os_getter (s : ω) : (d.os tools).getter s = .ok ((d.pasteboard s tools).get d.files) := by
  cases tools with
  | wayland => rfl
  | xclip => rfl
  | xsel =>
    change Except.ok (xselGet d.files (d.runOut s)) = _
    rw [Pasteboard.get, pasteboard, typedItem]
    rfl

/-- A clip without a name is put onto the clipboard as it is. -/
theorem os_setter (hkeeps : d.Keeps tools) {item : Item} (hname : item.name = "") {s s' : ω}
    (h : (d.os tools).setter item s = (.ok (), s')) : ∃ mime, (d.pasteboard s' tools).Offers mime item.data := by
  have hdata : (offered d.files.toFileTree item).2 = item.data := by
    unfold offered
    rw [if_neg fun hc => hc.1 hname]
    split_ifs <;> rfl
  cases tools with
  | wayland => exact ⟨_, hdata ▸ hkeeps _ _ s s' h⟩
  | xclip => exact ⟨_, hdata ▸ hkeeps _ _ s s' h⟩
  | xsel => exact ⟨none, hkeeps none _ s s' h⟩

end Os
end Desktop

/-! ## The next look of the watcher -/

namespace Watcher
variable [Sha256] {σ : Type} {B : Backend σ}

theorem settle_emits_iff {s : Watcher σ} {item : Item} (hl : look B s.hub.clipboard = some item)
    (hlast : item.data ≠ s.last) (out : Outbound) :
    (s.settle B true).emitted = s.emitted ++ [out] ↔ Hub.Notices s.now item s.hub ∧
      out = ⟨s.hub.minted item.mime item.name item.data (Hub.hashed item).hash, none⟩ := by
  have hsettle : (s.settle B true).emitted = s.emitted ++ (s.hub.localObserved s.now true item).out := by
    unfold settle
    dsimp only
    rw [hl]
    dsimp only
    rw [if_neg hlast]
  have hobs := Hub.localObserved_observed s.now true item s.hub
  rw [hsettle, List.append_cancel_left_eq]
  generalize s.hub.localObserved s.now true item = ret at hobs
  cases hobs with
  | skipped hn => exact iff_of_false (fun h => by cases h) fun h => hn h.1
  | unsaved _ hs => cases hs
  | sent hn _ =>
    rw [List.singleton_inj]
    exact ⟨fun h => ⟨hn, h.symm⟩, fun h => h.2.symm⟩

/-- When the watcher looks twice and finds the same, it sends what it notices. -/
theorem looks_sends_iff {s : Watcher σ} (hidle : s.debouncing = false) (out : Outbound) :
    (∃ m, exec (step B) s [.wake, .settle true] = some m ∧ m.emitted = s.emitted ++ [out]) ↔
      ∃ item, look B s.hub.clipboard = some item ∧ item.data ≠ s.last ∧ Hub.Notices s.now item s.hub ∧
        out = ⟨s.hub.minted item.mime item.name item.data (Hub.hashed item).hash, none⟩ := by
  have hwake : step B s .wake = some (s.wake B) := by simp [step, hidle]
  rw [exec_cons_of_step _ hwake]
  cases hl : look B s.hub.clipboard with
  | none =>
    have hstay : s.wake B = s := by
      unfold wake
      rw [hl]
    rw [hstay, exec_cons]
    simp [step, hidle]
  | some item =>
    by_cases hlast : item.data = s.last
    · have hstay : s.wake B = s := by
        unfold wake
        rw [hl]
        exact if_pos hlast
      rw [hstay, exec_cons]
      simp [step, hidle, hlast]
    · have hsettle : step B (s.wake B) (.settle true) = some ((s.wake B).settle B true) := by
        rw [wake_of_look hl hlast]
        rfl
      rw [exec_cons_of_step _ hsettle, wake_of_look hl hlast]
      have hiff := settle_emits_iff (s := { s with debouncing := true }) hl hlast out
      constructor
      · rintro ⟨m, hm, hout⟩
        obtain rfl := Option.some.inj hm
        exact ⟨item, rfl, hlast, hiff.mp hout⟩
      · rintro ⟨found, hfound, -, hn⟩
        obtain rfl := Option.some.inj hfound
        exact ⟨_, rfl, hiff.mpr hn⟩

end Watcher

/-! ## The file that a text names -/

theorem named_read [Sha256] {fs : UserFiles} {text : Bytes} {f : Item} (h : itemFromFileText fs text = some f) :
    f.hash = Protocol.hash f.data ∧ f.data.length ≤ maxClip := by
  obtain ⟨s, -, h⟩ := Option.bind_eq_some_iff.mp h
  obtain ⟨path, -, h⟩ := Option.bind_eq_some_iff.mp h
  unfold readFileItem at h
  split_ifs at h with hsize
  obtain ⟨data, -, h⟩ := Option.bind_eq_some_iff.mp h
  split_ifs at h with hlarge
  obtain ⟨base, -, h⟩ := Option.bind_eq_some_iff.mp h
  obtain ⟨name, -, rfl⟩ := Option.map_eq_some_iff.mp h
  exact ⟨rfl, Nat.not_lt.mp hlarge⟩

/-! ## The mirror beside the programs -/

section Mirror
variable {σ ω : Type} {file : Backend σ} {os : Os ω} {s : σ × ω}

/-- Of two items with different hashes, the one that the programs report wins. -/
theorem look_other {f : Item} (hos : os.getter s.2 = .ok (some f)) (hdata : f.data ≠ [])
    (hother : ∀ stored, file.get s.1 = .ok (some stored) → f.hash ≠ stored.hash) :
    look (native file os) s = some f := by
  have hget : (native file os).get s = .ok (some f) := by
    unfold native
    dsimp only
    rw [hos]
    cases hfile : file.get s.1 with
    | error e => simp [hdata]
    | ok mirror =>
      cases mirror with
      | none => simp [hdata]
      | some stored => simp [hdata, hother stored hfile]
  exact look_eq_some.mpr ⟨hget, hdata⟩

/-- Whatever is found is what the programs report, up to its name and type, or it comes from the file backend. -/
theorem look_inv {found : Item} {got : Option Item}
    (hos : os.getter s.2 = .ok got) (hl : look (native file os) s = some found) :
    got = some found ∨ ∃ stored, file.get s.1 = .ok (some stored) ∧ found.hash = stored.hash := by
  have hget := (look_eq_some.mp hl).1
  unfold native at hget
  dsimp only at hget
  rw [hos] at hget
  cases hfile : file.get s.1 with
  | error e =>
    rw [hfile] at hget
    cases got with
    | none => cases hget
    | some item =>
      dsimp only at hget
      split_ifs at hget
      · cases hget
      · exact .inl (Except.ok.inj hget)
  | ok mirror =>
    rw [hfile] at hget
    cases got with
    | none =>
      cases mirror with
      | none => cases hget
      | some stored => exact .inr ⟨stored, rfl, by rw [← Option.some.inj (Except.ok.inj hget)]⟩
    | some item =>
      cases mirror with
      | none =>
        dsimp only at hget
        split_ifs at hget
        · cases hget
        · exact .inl (Except.ok.inj hget)
      | some stored =>
        dsimp only at hget
        by_cases hsame : item.hash = stored.hash
        · rw [if_pos hsame] at hget
          refine .inr ⟨stored, rfl, ?_⟩
          rw [← Option.some.inj (Except.ok.inj hget)]
          exact hsame
        · rw [if_neg hsame] at hget
          split_ifs at hget
          · cases hget
          · exact .inl (Except.ok.inj hget)

end Mirror

/-! ## A clip without a name is read back -/

section ReadBack
variable [Sha256] [Json Current] {ω : Type} {d : Desktop ω} {tools : Tools}

/-- What the write leaves: the content is on the clipboard, and its hash in the file backend. -/
theorem native_written (hkeeps : d.Keeps tools) {item stored : Item} {s s' : FileBackend × ω}
    (hname : item.name = "") (hset : (native fileBackend (d.os tools)).set item s = (.ok stored, s')) :
    (∃ mime, (d.pasteboard s'.2 tools).Offers mime item.data) ∧ s'.1.cur.hash = stored.hash ∧
      stored.hash = if item.hash = "" then Protocol.hash item.data else item.hash := by
  unfold native at hset
  dsimp only at hset
  cases hfile : fileBackend.set item s.1 with
  | mk res file =>
    rw [hfile] at hset
    cases res with
    | error e => cases hset
    | ok kept =>
      dsimp only at hset
      cases hos : (d.os tools).setter kept s.2 with
      | mk res os =>
        rw [hos] at hset
        cases res with
        | error e => cases hset
        | ok u =>
          obtain ⟨hkept, rfl⟩ := Prod.mk.inj hset
          obtain rfl := Except.ok.inj hkept
          obtain ⟨hdata, hkname, hhash, hcur⟩ := set_stored hfile
          exact ⟨hdata ▸ Desktop.os_setter hkeeps (hkname.trans hname) hos, hcur, hhash⟩

/-- The watcher finds the file that the content names, or something with the hash of the content. -/
theorem look_written {s : FileBackend × ω} {mime : Option String} {data : Bytes}
    (hoffers : (d.pasteboard s.2 tools).Offers mime data) (hdata : data ≠ []) (hcur : s.1.cur.hash = Protocol.hash data)
    {found : Item} (hl : look (native fileBackend (d.os tools)) s = some found) :
    ((d.pasteboard s.2 tools).AsText ∧ itemFromFileText d.files data = some found) ∨
      found.hash = Protocol.hash data := by
  obtain hgot | ⟨stored, hfile, hhash⟩ := look_inv (Desktop.os_getter s.2) hl
  · obtain ⟨htext, f, hf, hget⟩ | ⟨-, hasIs⟩ := Pasteboard.get_cases d.files hoffers hdata
    · obtain rfl := Option.some.inj (hget.symm.trans hgot)
      exact .inl ⟨htext, hf⟩
    · rw [hgot] at hasIs
      obtain hnone | ⟨m, hm⟩ := hasIs
      · cases hnone
      · obtain rfl := Option.some.inj hm
        exact .inr rfl
  · exact .inr (hhash.trans ((get_hash hfile).trans hcur))

theorem look_file {s : FileBackend × ω} {mime : Option String} {data : Bytes}
    (hoffers : (d.pasteboard s.2 tools).Offers mime data) (hdata : data ≠ []) (hcur : s.1.cur.hash = Protocol.hash data)
    (htext : (d.pasteboard s.2 tools).AsText) {f : Item} (hf : itemFromFileText d.files data = some f)
    (hne : f.data ≠ [])
    (hother : f.hash ≠ Protocol.hash data) : look (native fileBackend (d.os tools)) s = some f := by
  refine look_other ?_ hne fun stored hfile heq => hother (heq.trans ((get_hash hfile).trans hcur))
  rw [Desktop.os_getter]
  obtain ⟨-, f', hf', hget⟩ | ⟨hno, -⟩ := Pasteboard.get_cases d.files hoffers hdata
  · obtain rfl := Option.some.inj (hf.symm.trans hf')
    rw [hget]
  · rw [hno htext] at hf
    cases hf

/-- The watcher answers a clip from outside exactly when it names a file that was not sent just before, with this
file. -/
theorem sends_iff (hkeeps : d.Keeps tools) {s : Watcher (FileBackend × ω)} (hidle : s.debouncing = false) {clip : Clip}
    {stored : Item} {clipboard : FileBackend × ω} (hl : Hub.Lands (native fileBackend (d.os tools)) clip s.hub)
    (hset : (native fileBackend (d.os tools)).set (Hub.remoteItem clip) s.hub.clipboard = (.ok stored, clipboard))
    (hname : clip.clipMeta.name = "") (hdata : clip.data ≠ []) (fromPeer : Option String) (out : Outbound) :
    (∃ m, exec (Watcher.step (native fileBackend (d.os tools))) s [.op (.deliver clip fromPeer), .wake, .settle true] =
        some m ∧ m.emitted = s.emitted ++ [out]) ↔
      ∃ f, itemFromFileText d.files clip.data = some f ∧ (d.pasteboard clipboard.2 tools).AsText ∧ f.data ≠ [] ∧
        f.data ≠ s.last ∧
        (s.hub.applyRemote (native fileBackend (d.os tools)) s.now clip).hub.suppress.has s.now f.hash = false ∧
        out = ⟨s.hub.minted f.mime f.name f.data f.hash, none⟩ := by
  have hhash : clip.clipMeta.hash = Protocol.hash clip.data := hl.verified.hash_eq
  have hne : clip.clipMeta.hash ≠ "" := hhash ▸ hash_ne_empty clip.data
  obtain ⟨⟨mime, hoffers⟩, hcur, hstored⟩ := native_written hkeeps hname hset
  have hstored : stored.hash = clip.clipMeta.hash := hstored.trans (if_neg hne)
  have hcur : clipboard.1.cur.hash = Protocol.hash clip.data := hcur.trans (hstored.trans hhash)
  have hop : Watcher.step (native fileBackend (d.os tools)) s (.op (.deliver clip fromPeer)) =
      some { s with hub := (s.hub.applyRemote (native fileBackend (d.os tools)) s.now clip).hub } := by
    simp only [Watcher.step, HubOp.run_deliver]
  have hwrites : Hub.Writes (native fileBackend (d.os tools)) s.now s.hub
      (s.hub.applyRemote (native fileBackend (d.os tools)) s.now clip).hub (Hub.remoteItem clip) stored :=
    .applied clip stored clipboard hl hset
  have hsup := hwrites.effect.2.2.2
  rw [exec_cons_of_step _ hop]
  rw [Hub.applyRemote_stored (native fileBackend (d.os tools)) s.now hl hset] at hsup ⊢
  generalize hafter : { (s.hub.sawClip clip).suppressed s.now clip.clipMeta.hash with
    clipboard := clipboard }.suppressed s.now stored.hash = after at hsup ⊢
  have hclip : after.clipboard = clipboard := by rw [← hafter]; rfl
  have hminted : ∀ f : Item, after.minted f.mime f.name f.data f.hash = s.hub.minted f.mime f.name f.data f.hash := by
    intro f
    rw [← hafter]
    rfl
  -- The hash of the clip is suppressed.
  have hsuppressed : after.suppress.has s.now (Protocol.hash clip.data) = true := by
    rw [← hhash]
    apply Suppress.has_of_mem_ring _ _ hne
    rw [hsup]
    exact Suppress.mem_ring_adds _ _ (by simp) List.mem_cons_self hne
  rw [Watcher.looks_sends_iff (s := { s with hub := after }) hidle]
  constructor
  · rintro ⟨found, hlook, hlast, hn, rfl⟩
    rw [hclip] at hlook
    obtain ⟨htext, hf⟩ | hsame := look_written hoffers hdata hcur hlook
    · obtain ⟨hfhash, -⟩ := named_read hf
      have hfne : found.hash ≠ "" := hfhash ▸ hash_ne_empty found.data
      have hun : after.suppress.has s.now (Hub.hashed found).hash = false := hn.unsuppressed
      rw [Hub.hashed_of_ne hfne] at hun ⊢
      exact ⟨found, hf, htext, hn.nonempty, hlast, hun, by rw [hminted]⟩
    · have hfne : found.hash ≠ "" := hsame ▸ hash_ne_empty clip.data
      have hun : after.suppress.has s.now (Hub.hashed found).hash = false := hn.unsuppressed
      rw [Hub.hashed_of_ne hfne, hsame] at hun
      exact Bool.noConfusion (hsuppressed.symm.trans hun)
  · rintro ⟨f, hf, htext, hfdata, hlast, hun, rfl⟩
    obtain ⟨hfhash, hfits⟩ := named_read hf
    have hfne : f.hash ≠ "" := hfhash ▸ hash_ne_empty f.data
    have hother : f.hash ≠ Protocol.hash clip.data := by
      intro heq
      rw [heq, hsuppressed] at hun
      cases hun
    have hlook := look_file hoffers hdata hcur htext hf hfdata hother
    rw [← hclip] at hlook
    refine ⟨f, hlook, hlast, ⟨hfdata, hfits, ?_⟩, ?_⟩
    · rw [Hub.hashed_of_ne hfne]
      exact hun
    · rw [Hub.hashed_of_ne hfne, hminted]

end ReadBack

/-! ### A file whose path is known -/

def secretPath : Bytes := utf8 ['/', 'k']

/-- SHA-256 at this path, too. -/
abbrev pathSha256 : Sha256 where
  digest := fun data =>
    if data = secretPath then
      #v[0x39, 0x9a, 0x80, 0x38, 0xab, 0x60, 0xc5, 0x9b, 0x5e, 0xd4, 0x0f, 0x34, 0x8f, 0x9c, 0x70, 0xd9,
        0xd9, 0x55, 0x1d, 0x89, 0x60, 0x56, 0xed, 0x5b, 0x16, 0x27, 0x2d, 0x04, 0x0a, 0xc0, 0xf9, 0x76]
    else sampleSha256.digest data

/-- The file contains `hi`. -/
def secretFiles : UserFiles where
  toFileTree := FileUri.linkTree secretPath secretPath (by decide)
  size := fun _ => 2
  read := fun _ => some [104, 105]

/-- An X server that keeps the last input of `xsel`. -/
def xselDesktop : Desktop Bytes where
  files := secretFiles
  runOut := fun s _ _ => some s
  runIn := fun _ _ data _ => (.ok (), data)

def xselWatcher : Watcher (FileBackend × Bytes) := Watcher.boot "desktop" (homeBackend, []) ⟨0, []⟩ 5 0

def pathClip [Sha256] : Clip := ⟨⟨"laptop", 1, "text/plain", Protocol.hash secretPath, 2, ""⟩, secretPath⟩

theorem xselDesktop_keeps : xselDesktop.Keeps .xsel := by
  intro mime data s s' h
  obtain rfl : data = s' := (Prod.mk.inj h).2
  exact ⟨fun b hb => (Option.some.inj hb).symm, fun m b hb => (by cases hb), fun _ => rfl⟩

theorem secretFile_sent :
    letI := pathSha256
    letI := sampleJson
    ∃ m out, exec (Watcher.step (native fileBackend (xselDesktop.os .xsel))) xselWatcher
        [.op (.deliver pathClip (some "laptop")), .wake, .settle true] = some m ∧
      m.emitted = xselWatcher.emitted ++ [out] ∧ out.clip.data = [104, 105] ∧ out.skip = none := by
  let _ := pathSha256
  let _ := sampleJson
  have hl : Hub.Lands (native fileBackend (xselDesktop.os .xsel)) pathClip xselWatcher.hub := by decide +kernel
  have hok : ((native fileBackend (xselDesktop.os .xsel)).set (Hub.remoteItem pathClip)
      xselWatcher.hub.clipboard).1.isOk = true := by decide +kernel
  cases hset : (native fileBackend (xselDesktop.os .xsel)).set (Hub.remoteItem pathClip) xselWatcher.hub.clipboard with
  | mk res clipboard =>
    rw [hset] at hok
    cases res with
    | error e => cases hok
    | ok stored =>
      have hf : itemFromFileText secretFiles pathClip.data =
          some ⟨"text/plain", [104, 105], Protocol.hash [104, 105], "", "k"⟩ := by decide +kernel
      obtain ⟨m, hrun, hm⟩ := (sends_iff xselDesktop_keeps (s := xselWatcher) rfl hl hset rfl (by decide)
          (some "laptop") _).mpr
        ⟨_, hf, .inr ⟨rfl, fun _ _ => rfl⟩, by decide, by decide, by decide +kernel, rfl⟩
      exact ⟨m, _, hrun, hm, rfl, rfl⟩

end Zsync
