import Micronuts.Crypto
import Micronuts.Lib.Disk
import Micronuts.Wallet.Engine

/-!
# The files of a mint and a wallet (`micronuts-mint`: `persist.rs`; `micronuts-wallet-core`: `state.rs`)

Each is written to a file beside it that is renamed over it. The name of the file beside always differs from the file's own,
but for a proof store that has the extension `tmp` itself (`fileStore_atomic_iff`). So what a load finds after any number of
saves, kills and power cuts is the newest value of a log of them, never a torn file.
-/

namespace Micronuts
open Disk Exec

/-- A file by the directory it is in, with a slash at the end, and its name. -/
structure Path where
  parent : String
  name : String
deriving DecidableEq

namespace Path

def display (p : Path) : String := p.parent ++ p.name

/-- `file_stem`: up to the last dot, unless that is the first character. -/
def fileStem (p : Path) : String :=
  match p.name.toList.reverse.dropWhile (· ≠ '.') with
  | [] | [_] => p.name
  | _ :: stem => String.ofList stem.reverse

def withExtension (p : Path) (extension : String) : Path := { p with name := p.fileStem ++ "." ++ extension }

/-- `SnapshotFile::tmp_path`. -/
def tmpPath (p : Path) : Path := { p with name := p.name ++ ".tmp" }

variable {p : Path}

theorem tmpPath_ne : p ≠ p.tmpPath := by
  intro h
  have hname : p.name = p.name ++ ".tmp" := congrArg Path.name h
  have hlen := congrArg String.length hname
  rw [String.length_append] at hlen
  have htmp : ".tmp".length = 4 := rfl
  omega

theorem dropWhile_of_dot {stem extension : List Char} (hname : p.name.toList = stem ++ '.' :: extension)
    (hext : '.' ∉ extension) : p.name.toList.reverse.dropWhile (· ≠ '.') = '.' :: stem.reverse := by
  rw [hname, List.reverse_append, List.reverse_cons, List.append_assoc, List.dropWhile_append_of_pos, List.singleton_append]
  · exact List.dropWhile_cons_of_neg (by simp)
  · intro c hc
    have hc : c ≠ '.' := by
      rintro rfl
      exact hext (List.mem_reverse.1 hc)
    simpa using hc

/-- The stem of a name that goes on after a last dot. -/
theorem fileStem_of_dot {stem extension : List Char} (hname : p.name.toList = stem ++ '.' :: extension) (hne : stem ≠ [])
    (hext : '.' ∉ extension) : p.fileStem = String.ofList stem := by
  unfold fileStem
  rw [dropWhile_of_dot hname hext]
  rcases hstem : stem.reverse with - | ⟨c, cs⟩
  · exact absurd (List.reverse_eq_nil_iff.1 hstem) hne
  · show String.ofList (c :: cs).reverse = _
    rw [← hstem, List.reverse_reverse]

theorem fileStem_of_leading {extension : List Char} (hname : p.name.toList = '.' :: extension) (hext : '.' ∉ extension) :
    p.fileStem = p.name := by
  unfold fileStem
  rw [@dropWhile_of_dot p [] extension hname hext]
  rfl

theorem withExtension_eq {extension : String} : p.withExtension extension = p ↔ p.name = p.fileStem ++ "." ++ extension := by
  rw [withExtension, Path.mk.injEq, and_iff_right rfl, eq_comm]

/-- A name is its stem with this extension just when it is made so. -/
theorem name_eq_iff {extension : String} (hext : '.' ∉ extension.toList) :
    p.withExtension extension = p ↔ ∃ stem, stem ≠ "" ∧ p.name = stem ++ "." ++ extension := by
  rw [withExtension_eq]
  constructor
  · intro h
    refine ⟨_, fun hempty => ?_, h⟩
    rw [hempty] at h
    have hlist : p.name.toList = '.' :: extension.toList := by
      rw [h]
      simp
    have hname := fileStem_of_leading hlist hext
    rw [← hname, hempty] at hlist
    simp at hlist
  · rintro ⟨stem, hne, h⟩
    have hlist : p.name.toList = stem.toList ++ '.' :: extension.toList := by
      rw [h]
      simp
    rw [fileStem_of_dot hlist (by simpa using hne) hext, String.ofList_toList]
    exact h

theorem withExtension_json_ne : p ≠ p.withExtension "json.tmp" := by
  intro h
  have h := withExtension_eq.1 h.symm
  have hlist : p.name.toList = (p.fileStem ++ ".json").toList ++ '.' :: "tmp".toList := by
    conv_lhs => rw [h]
    simp
  have hstem := fileStem_of_dot hlist (by simp) (by simp)
  rw [String.ofList_toList] at hstem
  have hlen := congrArg String.length hstem
  rw [String.length_append] at hlen
  have hjson : ".json".length = 5 := rfl
  omega

end Path

/-! ### Reading -/

/-- `Path::exists`: what the system does not tell counts as no. -/
def pathExists (p : Path) : DiskM Path Bool := do
  match ← attempt (sys (fun d => ((d.read p).isSome, d)) fun _ d => d) with
  | .ok b => pure b
  | .error _ => pure false

/-- `fs::read`; `none` for `ErrorKind::NotFound`. -/
def readFile (p : Path) : DiskM Path (Option (List UInt8)) := sys (fun d => (d.read p, d)) fun _ d => d

/-- `fs::read_to_string`. -/
def readToString (p : Path) : DiskM Path (Option String) := do
  match ← readFile p with
  | none => pure none
  | some bytes => some <$> okOr (String.fromUTF8? ⟨⟨bytes⟩⟩) "stream did not contain valid UTF-8"

/-- A look at the directory: `x`, or what the system says in the words of `text`, or the process is killed. -/
def ReadsAs {β : Type} (text : String → String) (x : β) (env : Disk.Env) (d : Disk Path) : Outcome String β → Disk Path → Prop
  | .ok y, t => y = x ∧ t = { d with calls := d.calls + 1 }
  | .err e, _ => ∃ e', env.fate d.calls = .fails e' ∧ e = text e'
  | .panic, _ => ∃ took, env.fate d.calls = .killed took

/-- `b`, or no where the call failed. -/
def Tells (b : Bool) (env : Disk.Env) (d : Disk Path) : Outcome String Bool → Disk Path → Prop
  | .ok b', t => b' = b ∧ t = { d with calls := d.calls + 1 } ∨ b' = false ∧ ∃ e, env.fate d.calls = .fails e
  | .err _, _ => False
  | .panic, _ => ∃ took, env.fate d.calls = .killed took

section reading
variable {p : Path} {env : Disk.Env} {d : Disk Path}

theorem sys_readsAs {β : Type} (view : Disk Path → β) (h : ∀ n, view { d with calls := n } = view d) :
    (sys (fun d => (view d, d)) fun _ d => d).Ends env d (ReadsAs id (view d) env d) := by
  unfold Exec.Ends
  simp only [Exec.run, sys]
  cases hfate : env.fate d.calls with
  | done => exact ⟨h _, rfl⟩
  | fails e => exact ⟨e, hfate, rfl⟩
  | killed took => exact ⟨took, hfate⟩

theorem pathExists_tells : (pathExists p).Ends env d (Tells (d.read p).isSome env d) := by
  refine Ends.bind_attempt (sys_readsAs (fun d => (d.read p).isSome) fun _ => rfl) ?_ ?_ fun _ h => h
  · rintro b t ⟨rfl, rfl⟩
    exact .inl ⟨rfl, rfl⟩
  · rintro - t ⟨e, hfate, -⟩
    exact .inr ⟨rfl, e, hfate⟩

theorem readFile_readsAs : (readFile p).Ends env d (ReadsAs id (d.read p) env d) := sys_readsAs _ fun _ => rfl

/-- A file that was written as text reads as text. -/
theorem readToString_readsAs {x : Option String} (h : d.read p = x.map asBytes) :
    (readToString p).Ends env d (ReadsAs id x env d) := by
  refine Ends.bind readFile_readsAs ?_ (fun _ _ h => h) fun _ h => h
  rintro bytes t ⟨rfl, rfl⟩
  rw [h]
  cases x with
  | none => exact ⟨rfl, rfl⟩
  | some raw =>
    show (some <$> okOr (String.fromUTF8? ⟨⟨asBytes raw⟩⟩) _).Ends env _ _
    rw [fromUTF8?_asBytes]
    exact ⟨rfl, rfl⟩

theorem mapErr_readsAs {β : Type} {x : β} {m : DiskM Path β} (text : String → String)
    (h : m.Ends env d (ReadsAs id x env d)) :
    (mapErr text m).Ends env d (ReadsAs text x env d) := by
  refine Ends.bind_attempt h (fun _ _ h => h) ?_ fun _ h => h
  rintro e t ⟨e', hfate, he⟩
  exact ⟨e', hfate, congrArg text he⟩

end reading

/-- What is in a directory, however many calls were made. -/
def still (d : Disk Path) : Disk Path := { d with calls := 0 }

theorem sys_leaves {β : Type} (view : Disk Path → β) : Leaves still (sys (fun d => (view d, d)) fun _ d => d) := by
  intro env d
  simp only [Exec.run, sys]
  cases env.fate d.calls with
  | done => rfl
  | fails e => rfl
  | killed took =>
    dsimp only
    rw [ite_self]
    rfl

theorem readToString_leaves (p : Path) : Leaves still (readToString p) := by
  refine Leaves.bind (sys_leaves _) fun bytes => ?_
  cases bytes with
  | none => exact .pure _
  | some bytes => exact .bind (.okOr _ _) fun _ => .pure _

theorem pathExists_leaves (p : Path) : Leaves still (pathExists p) := by
  refine Leaves.bind (.attempt (sys_leaves _)) fun found => ?_
  cases found with
  | ok b => exact .pure _
  | error e => exact .pure _

theorem mapErr_leaves {β : Type} {m : DiskM Path β} (text : String → String) (h : Leaves still m) :
    Leaves still (mapErr text m) := by
  refine Leaves.bind h.attempt fun r => ?_
  cases r with
  | ok b => exact .pure _
  | error e => exact .fail _

/-- A log does not look at the count of calls. -/
theorem holds_still {α : Type} {encode : α → List UInt8} {tmp path : Path} {log : List α} {floor : Nat} {d t : Disk Path}
    (h : still t = still d) : Disk.Holds encode tmp path log floor t ↔ Disk.Holds encode tmp path log floor d := by
  have hiff : ∀ d, Disk.Holds encode tmp path log floor d ↔ Disk.Holds encode tmp path log floor (still d) := fun d =>
    ⟨fun h => ⟨h.floor_le, h.now, h.before, h.synced, h.path_lt, h.tmp_lt, h.apart, h.self⟩,
      fun h => ⟨h.floor_le, h.now, h.before, h.synced, h.path_lt, h.tmp_lt, h.apart, h.self⟩⟩
  rw [hiff t, hiff d, h]

/-! ### The state file (`SnapshotFile`) -/

/-- `serde_json` of a type: what it writes, and how it reads. -/
class JsonText (α : Type) where
  toText : α → String
  fromText : String → Except String α

export JsonText (toText fromText)

/-- What is written of `a` is read as `a`. -/
def Readable {α : Type} [JsonText α] (a : α) : Prop := fromText (toText a) = .ok a

structure SnapshotFile (α : Type) where
  path : Path

namespace SnapshotFile
variable {α : Type} [JsonText α] (f : SnapshotFile α)

def load : DiskM Path (Option α) := do
  if ← pathExists f.path then
    match ← mapErr (fun e => s!"state {f.path.display}: unreadable: {e}") (readToString f.path) with
    | none => fail s!"state {f.path.display}: unreadable: No such file or directory (os error 2)"
    | some raw =>
      match fromText raw with
      | .ok snap => pure (some snap)
      | .error e => fail s!"state {f.path.display}: corrupt: {e}"
  else pure none

def saveText : Stage → String → String
  | .create, e => s!"state {f.path.tmpPath.display}: create tmp failed: {e}"
  | .write, e => s!"state {f.path.tmpPath.display}: write failed: {e}"
  | .sync, e => s!"state {f.path.tmpPath.display}: fsync failed: {e}"
  | .rename, e => s!"state {f.path.display}: atomic rename failed: {e}"

def encode (snap : α) : List UInt8 := asBytes (toText snap)

def save (snap : α) : DiskM Path Unit :=
  cleaning f.path.tmpPath (replace f.saveText f.path.tmpPath f.path (encode snap))

theorem encode_injective {a b : α} (ha : Readable a) (hb : Readable b) (h : encode a = encode b) : a = b := by
  have htext : toText a = toText b := asBytes_injective h
  have hok : (.ok a : Except String α) = .ok b := by rw [← ha, ← hb, htext]
  exact Except.ok.inj hok

theorem replaces : Replaces encode f.path.tmpPath f.path f.save := fun _ _ _ _ _ h =>
  cleaning_saves Path.tmpPath_ne (replace_saves f.saveText Path.tmpPath_ne h)

/-- What `load` gives of a file with `x`: an error names the read, but one of `exists` passes for no file. -/
def Loads (x : Option α) (env : Disk.Env) (d : Disk Path) : Outcome String (Option α) → Disk Path → Prop
  | .ok y, _ => y = x ∨ y = none ∧ ∃ e, env.fate d.calls = .fails e
  | .err e, _ => ∃ fault, env.fate (d.calls + 1) = .fails fault ∧ e = s!"state {f.path.display}: unreadable: {fault}"
  | .panic, _ => ∃ n took, env.fate n = .killed took

variable {f} {d₀ d : Disk Path} {env : Disk.Env}

theorem load_of_read {x : Option α} (h : d.read f.path = x.map encode) (hx : ∀ snap ∈ x, Readable snap) :
    f.load.Ends env d (f.Loads x env d) := by
  have htext : d.read f.path = (x.map toText).map asBytes := by rw [h, Option.map_map]; rfl
  refine Ends.bind pathExists_tells ?_ (fun _ _ h => h.elim) fun _ h => ⟨_, h⟩
  rintro found t (⟨rfl, rfl⟩ | ⟨rfl, hfails⟩)
  · cases x with
    | none =>
      rw [h]
      exact .inl rfl
    | some snap =>
      rw [h]
      refine Ends.bind (mapErr_readsAs _ (readToString_readsAs htext)) ?_ (fun _ _ h => h) fun _ h => ⟨_, h⟩
      rintro raw t ⟨rfl, rfl⟩
      simp only [Option.map_some]
      rw [hx snap rfl]
      exact .inl rfl
  · exact .inr ⟨rfl, hfails⟩

/-- Where every call is done, a load returns. -/
theorem load_of_done {x : Option α} (h : d.read f.path = x.map encode) (hx : ∀ snap ∈ x, Readable snap)
    (hdone : ∀ n, env.fate n = .done) : ∃ t, f.load.run env d = (.ok x, t) := by
  have hloads : f.load.Ends env d _ := load_of_read h hx
  rcases hrun : f.load.run env d with ⟨o, t⟩
  have hloads := hloads.elim hrun
  cases o with
  | ok y =>
    rcases hloads with rfl | ⟨-, e, hfails⟩
    · exact ⟨t, rfl⟩
    · cases (hdone _).symm.trans hfails
  | err e =>
    obtain ⟨e', hfails, -⟩ := hloads
    cases (hdone _).symm.trans hfails
  | panic =>
    obtain ⟨n, took, hkilled⟩ := hloads
    cases (hdone _).symm.trans hkilled

theorem load_leaves : Leaves still f.load := by
  refine Leaves.bind (pathExists_leaves _) fun found => ?_
  cases found with
  | false => exact .pure _
  | true =>
    refine Leaves.bind (mapErr_leaves _ (readToString_leaves _)) fun raw => ?_
    cases raw with
    | none => exact .fail _
    | some raw =>
      dsimp only
      split
      · exact .pure _
      · exact .fail _

/-- What is loaded after any saves, kills and power cuts is the newest value of a log of the saves, and never called
corrupt. -/
theorem loads_newest {h : List (Step (Disk Path) (Disk.Act α))} (hjson : ∀ snap : α, Readable snap)
    (hfresh : Disk.Fresh f.path d₀)
    (hrun : Run (DiskStep f.save) d₀ h d) : ∃ H v, Run VersionsStep ⟨[], 0⟩ H v ∧ H.map Step.act = h.map Step.act ∧
      ∀ env, f.load.Ends env d (f.Loads v.log.getLast? env d) := by
  obtain ⟨H, v, hversions, hacts, hread⟩ := f.replaces.keepsVersions d₀ h d hfresh hrun
  exact ⟨H, v, hversions, hacts, fun env => load_of_read hread fun snap _ => hjson snap⟩

end SnapshotFile

namespace Toy

instance : JsonText Bool where
  toText b := if b then "true" else "false"
  fromText s := if s = "true" then .ok true else if s = "false" then .ok false else .error "expected value at line 1 column 1"

theorem readable_bool (b : Bool) : Readable b := by cases b <;> rfl

def flagFile : SnapshotFile Bool := ⟨⟨"/var/mint/", "flag.json"⟩⟩

def noFaults : Disk.Env := ⟨fun _ => .done, fun _ => 0⟩

/-- Killed at its third call, the `fsync`. -/
def killedAtSync : Disk.Env := ⟨fun n => if n = 2 then .killed false else .done, fun _ => 0⟩

def flagged : Outcome String Unit × Disk Path := (flagFile.save true).run noFaults { Disk.empty with calls := 0 }

def unflagged : Outcome String Unit × Disk Path := (flagFile.save false).run killedAtSync { flagged.2 with calls := 0 }

/-- None of it has been written out when the power fails. -/
def unplugged : Disk Path := { unflagged.2 with dir := fun _ => none, older := [] }

theorem cut_unflagged : Disk.Cut unflagged.2 unplugged where
  dir := List.mem_cons_of_mem _ (List.mem_cons_of_mem _ (List.mem_cons_of_mem _ List.mem_cons_self))
  older := rfl
  content _ _ := rfl
  synced := rfl
  next := rfl

end Toy

namespace SnapshotFile
open Toy

/-- A save that returns, one that is killed, and a power cut that takes both. -/
theorem loads_newest_flags : flagged.1 = .ok () ∧ unplugged.read flagFile.path = none ∧
    ∃ H v, Run VersionsStep ⟨[], 0⟩ H v ∧
      H.map Step.act = [Disk.Act.save noFaults true flagged.1, .save killedAtSync false unflagged.1, .cut] ∧
      ∀ env, flagFile.load.Ends env unplugged (flagFile.Loads v.log.getLast? env unplugged) :=
  ⟨rfl, rfl, loads_newest readable_bool (empty_fresh _)
    (((Run.nil.snoc (.of_save _ _ noFaults true)).snoc (.of_save _ _ killedAtSync false)).snoc (.cut cut_unflagged))⟩

end SnapshotFile

/-! ### The proof store (`FileStore`) -/

structure FileStore where
  path : Path

namespace FileStore
variable (s : FileStore)

def load : DiskM Path (Option (List UInt8)) := mapErr (fun _ => "proof store read failed") (readFile s.path)

/-- The text replaces that of any call. -/
def save (blob : List UInt8) : DiskM Path Unit :=
  replace (fun _ _ => "proof store write failed") (s.path.withExtension "tmp") s.path blob

variable {s}

theorem load_of_read {x : Option (List UInt8)} {d : Disk Path} (h : d.read s.path = x) (env : Disk.Env) :
    s.load.Ends env d (ReadsAs (fun _ => "proof store read failed") x env d) := by
  rw [← h]
  exact mapErr_readsAs _ readFile_readsAs

theorem keepsVersions (h : s.path.withExtension "tmp" ≠ s.path) : KeepsVersions id s.path s.save := by
  have hreplaces : Replaces id (s.path.withExtension "tmp") s.path s.save :=
    fun _ _ _ _ _ hholds => replace_saves _ h.symm hholds
  exact hreplaces.keepsVersions

theorem save_of_eq (h : s.path.withExtension "tmp" = s.path) :
    s.save = fun blob => replace (fun _ _ => "proof store write failed") s.path s.path blob := by
  unfold save
  rw [h]

/-- A proof store is never torn just when its file has not itself the extension of the file beside it. -/
theorem atomic_iff : KeepsVersions id s.path s.save ↔ ¬ ∃ stem, stem ≠ "" ∧ s.path.name = stem ++ "." ++ "tmp" := by
  rw [← Path.name_eq_iff (by simp)]
  refine ⟨fun hkeeps heq => ?_, keepsVersions⟩
  rw [save_of_eq heq] at hkeeps
  have htears : ¬ KeepsVersions id s.path fun blob : List UInt8 =>
      replace (fun _ _ => "proof store write failed") s.path s.path (id blob) :=
    replace_self_tears _ (a := [1, 2]) rfl
  exact htears hkeeps

end FileStore

/-! ### The wallet's metadata (`wallet.json`) -/

structure MintEntry where
  url : String
  name : String
  trusted : Bool
deriving DecidableEq

structure WalletState where
  mints : List MintEntry
  activeMint : Option String
  seedHex : Option String
  history : List HistoryEntry
  pendingSends : List PendingSend
deriving DecidableEq

namespace WalletState

instance : Inhabited WalletState := ⟨⟨[], none, none, [], []⟩⟩

variable [JsonText WalletState]

def load (path : Path) : DiskM Path WalletState := do
  match ← mapErr (fun _ => "wallet state read failed") (readToString path) with
  | none => pure default
  | some raw => mapErr (fun _ => "wallet state is corrupt") (Exec.lift (fromText raw))

def save (path : Path) (w : WalletState) : DiskM Path Unit :=
  replace (fun _ _ => "wallet state write failed") (path.withExtension "json.tmp") path (asBytes (toText w))

theorem keepsVersions (path : Path) : KeepsVersions (fun w : WalletState => asBytes (toText w)) path (save path) := by
  have hreplaces : Replaces (fun w : WalletState => asBytes (toText w)) (path.withExtension "json.tmp") path (save path) :=
    fun _ _ _ _ _ hholds => replace_saves _ Path.withExtension_json_ne hholds
  exact hreplaces.keepsVersions

theorem load_of_read {path : Path} {x : Option WalletState} {d : Disk Path} {env : Disk.Env}
    (h : d.read path = x.map fun w => asBytes (toText w)) (hx : ∀ w ∈ x, Readable w) :
    (load path).Ends env d (ReadsAs (fun _ => "wallet state read failed") (x.getD default) env d) := by
  have htext : d.read path = (x.map toText).map asBytes := by rw [h, Option.map_map]; rfl
  refine Ends.bind (mapErr_readsAs _ (readToString_readsAs htext)) ?_ (fun _ _ h => h) fun _ h => h
  rintro raw t ⟨rfl, rfl⟩
  cases x with
  | none => exact ⟨rfl, rfl⟩
  | some w =>
    simp only [Option.map_some]
    rw [hx w rfl]
    exact ⟨rfl, rfl⟩

/-- After any saves, kills and power cuts the newest of a log of the saves is loaded, or a new wallet where there is none. -/
theorem reads_newest {path : Path} {d₀ d : Disk Path} {h : List (Step (Disk Path) (Disk.Act WalletState))}
    (hjson : ∀ w : WalletState, Readable w) (hfresh : Disk.Fresh path d₀) (hrun : Run (DiskStep (save path)) d₀ h d) :
    ∃ H v, Run VersionsStep ⟨[], 0⟩ H v ∧ H.map Step.act = h.map Step.act ∧
      ∀ env, (load path).Ends env d (ReadsAs (fun _ => "wallet state read failed") (v.log.getLast?.getD default) env d) := by
  obtain ⟨H, v, hversions, hacts, hread⟩ := keepsVersions path d₀ h d hfresh hrun
  exact ⟨H, v, hversions, hacts, fun env => load_of_read hread fun w _ => hjson w⟩

end WalletState

end Micronuts
