import Mathlib.Data.List.Basic
import Mathlib.Logic.Function.Basic
import Micronuts.Lib.Exec
import Micronuts.Lib.Run

/-!
# Files that are replaced whole

A directory as a program sees it, and what a power cut may leave of it: the directory of some time since it was last written
out, and any contents in a file that was not synced. A process may be killed at any system call. `Replaces` is what a
program keeps that writes a value to one file of the directory by way of another; then every run is one of a log of values
(`Replaces.keepsVersions`): what can be read is the newest value, a kill comes before or after a save, and a power cut takes
back the newest values at most.
-/

/-- `dir` is what the program sees, `older` what it saw before, back to what is on the disk for certain; a name leads to the
number of a file. -/
structure Disk (ν : Type) where
  dir : ν → Option Nat
  older : List (ν → Option Nat)
  content : Nat → List UInt8
  synced : Nat → Bool
  next : Nat
  calls : Nat

namespace Disk
variable {ν α : Type}

/-- What becomes of a system call. -/
inductive Fate
  | done
  | fails (e : String)
  | killed (took : Bool)

/-- Calls are numbered; of a write that does not finish, so many bytes get through. -/
structure Env where
  fate : Nat → Fate
  through : Nat → Nat

abbrev DiskM (ν : Type) := Exec Env (Disk ν) String

/-- `short` is what a call leaves that is not done. -/
def sys (act : Disk ν → α × Disk ν) (short : Nat → Disk ν → Disk ν) : DiskM ν α := fun env d =>
  let called := { d with calls := d.calls + 1 }
  match env.fate d.calls with
  | .done => (.ok (act called).1, (act called).2)
  | .fails e => (.err e, short (env.through d.calls) called)
  | .killed took => (.panic, if took then (act called).2 else short (env.through d.calls) called)

theorem sys_ends {act : Disk ν → α × Disk ν} {short : Nat → Disk ν → Disk ν} {env : Env} {d : Disk ν}
    {Q : Outcome String α → Disk ν → Prop}
    (hok : Q (.ok (act { d with calls := d.calls + 1 }).1) (act { d with calls := d.calls + 1 }).2)
    (herr : ∀ e n, Q (.err e) (short n { d with calls := d.calls + 1 }))
    (htook : Q .panic (act { d with calls := d.calls + 1 }).2)
    (hkilled : ∀ n, Q .panic (short n { d with calls := d.calls + 1 })) : (sys act short).Ends env d Q := by
  unfold Exec.Ends
  simp only [Exec.run, sys]
  cases env.fate d.calls with
  | done => exact hok
  | fails e => exact herr e _
  | killed took =>
    cases took with
    | true => exact htook
    | false => exact hkilled _

/-! ### System calls -/

/-- A change of the directory, which is not on the disk yet. -/
def relink (d : Disk ν) (dir : ν → Option Nat) : Disk ν := { d with dir, older := d.dir :: d.older }

def wrote (d : Disk ν) (i : Nat) (bytes : List UInt8) : Disk ν :=
  { d with content := Function.update d.content i bytes, synced := Function.update d.synced i false }

def writeAll (file : Nat) (bytes : List UInt8) : DiskM ν Unit :=
  sys (fun d => ((), d.wrote file (d.content file ++ bytes))) fun n d => d.wrote file (d.content file ++ bytes.take n)

def syncAll (file : Nat) : DiskM ν Unit :=
  sys (fun d => ((), { d with synced := Function.update d.synced file true })) fun _ d => d

/-- What is read of a file, `none` where it is not there. -/
def read (d : Disk ν) (name : ν) : Option (List UInt8) := (d.dir name).map d.content

section names
variable [DecidableEq ν]

/-- An existing file is emptied. -/
def opened (d : Disk ν) (name : ν) : Nat × Disk ν :=
  match d.dir name with
  | some i => (i, d.wrote i [])
  | none => (d.next, { (d.relink (Function.update d.dir name (some d.next))).wrote d.next [] with next := d.next + 1 })

/-- A file that is renamed to its own name stays as it is. -/
def renamed (d : Disk ν) (a b : ν) : Disk ν :=
  if a = b then d else d.relink (Function.update (Function.update d.dir b (d.dir a)) a none)

def create (name : ν) : DiskM ν Nat := sys (fun d => d.opened name) fun _ d => d

def rename (a b : ν) : DiskM ν Unit := sys (fun d => ((), d.renamed a b)) fun _ d => d

def removeFile (name : ν) : DiskM ν Unit := sys (fun d => ((), d.relink (Function.update d.dir name none))) fun _ d => d

end names

/-- The power fails. -/
structure Cut (d d' : Disk ν) : Prop where
  dir : d'.dir ∈ d.dir :: d.older
  older : d'.older = []
  content : ∀ i, d.synced i = true → d'.content i = d.content i
  synced : d'.synced = d.synced
  next : d'.next = d.next

/-- Everything is written out. -/
def flushed (d : Disk ν) : Disk ν := { d with older := [], synced := fun _ => true }

/-! ### The file of a log -/

/-- The newest value when the log was `n` long. -/
def version (encode : α → List UInt8) (log : List α) (n : Nat) : Option (List UInt8) := ((log.take n).getLast?).map encode

/-- The file at `tmp` is not the one that `path` had then. -/
def Apart (tmp path : ν) (D D' : ν → Option Nat) : Prop := ∀ i, D tmp = some i → D' path ≠ some i

/-- The file at `path` has the newest value of the log, and had earlier ones, down to the `floor`; nobody writes to it. -/
structure Holds (encode : α → List UInt8) (tmp path : ν) (log : List α) (floor : Nat) (d : Disk ν) : Prop where
  floor_le : floor ≤ log.length
  now : (d.dir path).map d.content = version encode log log.length
  before : ∀ D ∈ d.older, ∃ n, floor ≤ n ∧ n ≤ log.length ∧ (D path).map d.content = version encode log n
  synced : ∀ D ∈ d.dir :: d.older, ∀ i, D path = some i → d.synced i = true
  path_lt : ∀ D ∈ d.dir :: d.older, ∀ i, D path = some i → i < d.next
  tmp_lt : ∀ D ∈ d.dir :: d.older, ∀ i, D tmp = some i → i < d.next
  apart : (d.dir :: d.older).Pairwise (Apart tmp path)
  self : ∀ D ∈ d.dir :: d.older, Apart tmp path D D

section holds
variable {encode : α → List UInt8} {tmp path : ν} {log : List α} {floor : Nat} {d d' : Disk ν} {i : Nat}

theorem version_take {n m : Nat} (h : m ≤ n) : version encode (log.take n) m = version encode log m := by
  rw [version, List.take_take, Nat.min_eq_left h, version]

theorem version_append {n : Nat} {a : α} (h : n ≤ log.length) : version encode (log ++ [a]) n = version encode log n := by
  rw [version, List.take_append_of_le_length h, version]

theorem version_last {a : α} : version encode (log ++ [a]) (log ++ [a]).length = some (encode a) := by
  rw [version, List.take_length, List.getLast?_concat, Option.map_some]

namespace Holds

theorem called (h : Holds encode tmp path log floor d) : Holds encode tmp path log floor { d with calls := d.calls + 1 } :=
  ⟨h.floor_le, h.now, h.before, h.synced, h.path_lt, h.tmp_lt, h.apart, h.self⟩

/-- Every directory that may still be found has some value of the log. -/
theorem versions (h : Holds encode tmp path log floor d) : ∀ D ∈ d.dir :: d.older,
    ∃ n, floor ≤ n ∧ n ≤ log.length ∧ (D path).map d.content = version encode log n :=
  List.forall_mem_cons.2 ⟨⟨log.length, h.floor_le, Nat.le_refl _, h.now⟩, h.before⟩

/-- The file at `tmp` is none that `path` has or had. -/
theorem ne (h : Holds encode tmp path log floor d) (hi : d.dir tmp = some i) : ∀ D ∈ d.dir :: d.older, D path ≠ some i := by
  intro D hD
  rcases List.mem_cons.1 hD with rfl | hD
  · exact h.self _ List.mem_cons_self i hi
  · exact (List.pairwise_cons.1 h.apart).1 D hD i hi

/-- The contents of other files do not matter. -/
theorem of_content (h : Holds encode tmp path log floor d) {content : Nat → List UInt8} {synced : Nat → Bool}
    (hsame : ∀ D ∈ d.dir :: d.older, ∀ j, D path = some j → content j = d.content j ∧ synced j = true) :
    Holds encode tmp path log floor { d with content, synced } := by
  have hview : ∀ D ∈ d.dir :: d.older, (D path).map content = (D path).map d.content := by
    intro D hD
    rcases hj : D path with - | j
    · rfl
    · rw [Option.map_some, Option.map_some, (hsame D hD j hj).1]
  refine ⟨h.floor_le, (hview _ List.mem_cons_self).trans h.now,
    fun D hD => ?_, fun D hD j hj => (hsame D hD j hj).2, h.path_lt,
    h.tmp_lt, h.apart, h.self⟩
  obtain ⟨n, hlow, hhigh, heq⟩ := h.before D hD
  exact ⟨n, hlow, hhigh, (hview D (List.mem_cons_of_mem _ hD)).trans heq⟩

theorem wrote (h : Holds encode tmp path log floor d) (hi : d.dir tmp = some i) (bytes : List UInt8) :
    Holds encode tmp path log floor (d.wrote i bytes) := by
  refine h.of_content fun D hD j hj => ?_
  have hne : j ≠ i := by
    rintro rfl
    exact h.ne hi D hD hj
  exact ⟨Function.update_of_ne hne _ _, (Function.update_of_ne hne _ _).trans (h.synced D hD j hj)⟩

theorem syncing (h : Holds encode tmp path log floor d) :
    Holds encode tmp path log floor { d with synced := Function.update d.synced i true } := by
  refine h.of_content fun D hD j hj => ⟨rfl, ?_⟩
  by_cases hij : j = i
  · rw [hij, Function.update_self]
  · rw [Function.update_of_ne hij, h.synced D hD j hj]

theorem flush (h : Holds encode tmp path log floor d) : Holds encode tmp path log log.length d.flushed where
  floor_le := Nat.le_refl _
  now := h.now
  before := by simp [flushed]
  synced := by simp [flushed]
  path_lt := fun D hD => h.path_lt D (List.mem_cons.2 (.inl (List.mem_singleton.1 hD)))
  tmp_lt := fun D hD => h.tmp_lt D (List.mem_cons.2 (.inl (List.mem_singleton.1 hD)))
  apart := List.pairwise_singleton _ _
  self := fun D hD => h.self D (List.mem_cons.2 (.inl (List.mem_singleton.1 hD)))

/-- The newest value once more makes no difference. -/
theorem repeat_iff {a : α} (hfloor : floor ≤ log.length) (hlast : log.getLast? = some a) :
    Holds encode tmp path (log ++ [a]) floor d ↔ Holds encode tmp path log floor d := by
  have hlen : (log ++ [a]).length = log.length + 1 := List.length_append
  have hsame : version encode (log ++ [a]) (log ++ [a]).length = version encode log log.length := by
    rw [version_last, version, List.take_length, hlast, Option.map_some]
  constructor
  · intro h
    refine ⟨hfloor, h.now.trans hsame, fun D hD => ?_, h.synced, h.path_lt, h.tmp_lt, h.apart, h.self⟩
    obtain ⟨n, hlow, hhigh, hview⟩ := h.before D hD
    rcases Nat.lt_or_eq_of_le hhigh with hlt | rfl
    · rw [hlen] at hlt
      exact ⟨n, hlow, by omega, hview.trans (version_append (by omega))⟩
    · exact ⟨log.length, hfloor, Nat.le_refl _, hview.trans hsame⟩
  · intro h
    refine ⟨by omega, h.now.trans hsame.symm, fun D hD => ?_, h.synced, h.path_lt, h.tmp_lt, h.apart, h.self⟩
    obtain ⟨n, hlow, hhigh, hview⟩ := h.before D hD
    exact ⟨n, hlow, by omega, hview.trans (version_append hhigh).symm⟩

/-- What a power cut leaves is an earlier log, above the floor. -/
theorem cut (h : Holds encode tmp path log floor d) (hcut : Cut d d') :
    ∃ n, floor ≤ n ∧ n ≤ log.length ∧ Holds encode tmp path (log.take n) n d' := by
  obtain ⟨n, hlow, hhigh, hview⟩ := h.versions _ hcut.dir
  have hlen : (log.take n).length = n := List.length_take_of_le hhigh
  have honly : ∀ D ∈ d'.dir :: d'.older, D = d'.dir := by
    rw [hcut.older]
    exact fun D hD => List.mem_singleton.1 hD
  refine ⟨n, hlow, hhigh, Nat.le_of_eq hlen.symm, ?_, by simp [hcut.older], fun D hD => ?_, fun D hD => ?_, fun D hD => ?_,
    ?_, fun D hD => ?_⟩
  · rw [hlen, version_take (Nat.le_refl n), ← hview]
    rcases hi : d'.dir path with - | i
    · rfl
    · rw [Option.map_some, Option.map_some, hcut.content i (h.synced _ hcut.dir i hi)]
  · rw [honly D hD, hcut.synced]
    exact h.synced _ hcut.dir
  · rw [honly D hD, hcut.next]
    exact h.path_lt _ hcut.dir
  · rw [honly D hD, hcut.next]
    exact h.tmp_lt _ hcut.dir
  · rw [hcut.older]
    exact List.pairwise_singleton _ _
  · rw [honly D hD]
    exact h.self _ hcut.dir

section links
variable [DecidableEq ν] (hne : path ≠ tmp)
include hne

/-- Another file at `tmp`, a new one or none. -/
theorem relink_tmp (h : Holds encode tmp path log floor d) {x : Option Nat} {next : Nat} (hnext : d.next ≤ next)
    (hx : ∀ j, x = some j → d.next ≤ j ∧ j < next) :
    Holds encode tmp path log floor { d.relink (Function.update d.dir tmp x) with next } := by
  have hpath : Function.update d.dir tmp x path = d.dir path := Function.update_of_ne hne _ _
  have htmp : Function.update d.dir tmp x tmp = x := Function.update_self ..
  have hapart : ∀ D ∈ d.dir :: d.older, Apart tmp path (Function.update d.dir tmp x) D := by
    intro D hD j hj hDj
    rw [htmp] at hj
    have := (hx j hj).1
    have := h.path_lt D hD j hDj
    omega
  refine ⟨h.floor_le, ?_, h.versions, ?_, ?_, ?_, List.pairwise_cons.2 ⟨hapart, h.apart⟩, ?_⟩
  · show (Function.update d.dir tmp x path).map d.content = _
    rw [hpath]
    exact h.now
  · exact List.forall_mem_cons.2 ⟨fun j hj => h.synced _ List.mem_cons_self j (hpath.symm.trans hj), h.synced⟩
  · refine List.forall_mem_cons.2 ⟨fun j hj => ?_, fun D hD j hj => Nat.lt_of_lt_of_le (h.path_lt D hD j hj) hnext⟩
    exact Nat.lt_of_lt_of_le (h.path_lt _ List.mem_cons_self j (hpath.symm.trans hj)) hnext
  · refine List.forall_mem_cons.2 ⟨fun j hj => ?_, fun D hD j hj => Nat.lt_of_lt_of_le (h.tmp_lt D hD j hj) hnext⟩
    exact (hx j (htmp.symm.trans hj)).2
  · refine List.forall_mem_cons.2 ⟨fun j hj => ?_, h.self⟩
    show Function.update d.dir tmp x path ≠ some j
    rw [hpath]
    exact hapart _ List.mem_cons_self j hj

theorem removed (h : Holds encode tmp path log floor d) :
    Holds encode tmp path log floor (d.relink (Function.update d.dir tmp none)) :=
  h.relink_tmp hne (Nat.le_refl _) (by simp)

theorem opened (h : Holds encode tmp path log floor d) :
    Holds encode tmp path log floor (d.opened tmp).2 ∧ (d.opened tmp).2.dir tmp = some (d.opened tmp).1 ∧
      (d.opened tmp).2.content (d.opened tmp).1 = [] := by
  unfold Disk.opened
  split
  · next i hi => exact ⟨h.wrote hi [], hi, Function.update_self ..⟩
  · have hlinked := h.relink_tmp hne (Nat.le_succ _) (x := some d.next) (by simp)
    exact ⟨hlinked.wrote (Function.update_self ..) [], Function.update_self .., Function.update_self ..⟩

/-- A synced file at `tmp` becomes the newest value. -/
theorem renamed (h : Holds encode tmp path log floor d) (hi : d.dir tmp = some i) (hsynced : d.synced i = true) {a : α}
    (hcontent : d.content i = encode a) : Holds encode tmp path (log ++ [a]) floor (d.renamed tmp path) := by
  rw [Disk.renamed, if_neg hne.symm]
  have hpath : Function.update (Function.update d.dir path (d.dir tmp)) tmp none path = some i := by
    rw [Function.update_of_ne hne, Function.update_self, hi]
  have htmp : Function.update (Function.update d.dir path (d.dir tmp)) tmp none tmp = none := Function.update_self ..
  have hapart : ∀ D, Apart tmp path (Function.update (Function.update d.dir path (d.dir tmp)) tmp none) D := by
    intro D j hj
    rw [htmp] at hj
    cases hj
  have hlen : log.length ≤ (log ++ [a]).length := by simp
  refine ⟨Nat.le_trans h.floor_le hlen, ?_,
    fun D hD => ?_, ?_, ?_, ?_, List.pairwise_cons.2 ⟨fun D _ => hapart D, h.apart⟩, ?_⟩
  · show (Function.update (Function.update d.dir path (d.dir tmp)) tmp none path).map d.content = _
    rw [hpath, version_last, Option.map_some, hcontent]
  · obtain ⟨n, hlow, hhigh, hview⟩ := h.versions D hD
    exact ⟨n, hlow, Nat.le_trans hhigh hlen, hview.trans (version_append hhigh).symm⟩
  · refine List.forall_mem_cons.2 ⟨fun j hj => ?_, h.synced⟩
    cases hpath.symm.trans hj
    exact hsynced
  · refine List.forall_mem_cons.2 ⟨fun j hj => ?_, h.path_lt⟩
    cases hpath.symm.trans hj
    exact h.tmp_lt _ List.mem_cons_self i hi
  · refine List.forall_mem_cons.2 ⟨fun j hj => ?_, h.tmp_lt⟩
    cases htmp.symm.trans hj
  · exact List.forall_mem_cons.2 ⟨hapart _, h.self⟩

end links

end Holds

end holds

/-! ### Programs that replace a file -/

section programs
variable [DecidableEq ν]

/-- The calls of `replace`. -/
inductive Stage
  | create
  | write
  | sync
  | rename

/-- `map_err(f)`. -/
def mapErr {β : Type} (f : String → String) (m : DiskM ν β) : DiskM ν β := do
  match ← Exec.attempt m with
  | .ok b => pure b
  | .error e => Exec.fail (f e)

/-- `tmp` is written and synced, then renamed over `path`; each call has its text for an error. -/
def replace (text : Stage → String → String) (tmp path : ν) (bytes : List UInt8) : DiskM ν Unit := do
  let file ← mapErr (text .create) (create tmp)
  mapErr (text .write) (writeAll file bytes)
  mapErr (text .sync) (syncAll file)
  mapErr (text .rename) (rename tmp path)

/-- `inspect_err(|_| remove_file(tmp))`: what comes of the removal does not matter. -/
def cleaning (tmp : ν) (m : DiskM ν Unit) : DiskM ν Unit := do
  match ← Exec.attempt m with
  | .ok () => pure ()
  | .error e => do
    let _ ← Exec.attempt (removeFile tmp)
    Exec.fail e

/-- A save that returns has put its value on top of the log; one that fails has not, and one that is killed may have. -/
def Saved (encode : α → List UInt8) (tmp path : ν) (log : List α) (floor : Nat) (a : α) : Outcome String Unit → Disk ν → Prop
  | .ok _, d => Holds encode tmp path (log ++ [a]) floor d
  | .err _, d => Holds encode tmp path log floor d
  | .panic, d => Holds encode tmp path log floor d ∨ Holds encode tmp path (log ++ [a]) floor d

/-- The program keeps the file of a log. -/
def Replaces (encode : α → List UInt8) (tmp path : ν) (save : α → DiskM ν Unit) : Prop :=
  ∀ a log floor env d, Holds encode tmp path log floor d → (save a).Ends env d (Saved encode tmp path log floor a)

section replace
variable {β : Type} {encode : α → List UInt8} {tmp path : ν} {log : List α} {floor : Nat} {d : Disk ν} {env : Env} {a : α}
    {i : Nat}

/-- A statement that leaves the log alone, whatever comes of it. -/
def KeepsLog (encode : α → List UInt8) (tmp path : ν) (log : List α) (floor : Nat) (P : β → Disk ν → Prop)
    (o : Outcome String β)
    (d : Disk ν) : Prop :=
  Holds encode tmp path log floor d ∧ ∀ b, o = .ok b → P b d

omit [DecidableEq ν] in
theorem KeepsLog.bind {P : β → Disk ν → Prop} {m : DiskM ν β} {k : β → DiskM ν Unit}
    (h : m.Ends env d (KeepsLog encode tmp path log floor P))
    (hok : ∀ b d', Holds encode tmp path log floor d' → P b d' → (k b).Ends env d' (Saved encode tmp path log floor a)) :
    (m >>= k).Ends env d (Saved encode tmp path log floor a) :=
  Exec.Ends.bind h (fun b d' hb => hok b d' hb.1 (hb.2 b rfl)) (fun _ _ he => he.1) fun _ hp => .inl hp.1

theorem create_ends (hne : path ≠ tmp) (h : Holds encode tmp path log floor d) : (create tmp).Ends env d
    (KeepsLog encode tmp path log floor fun i d' => d'.dir tmp = some i ∧ d'.content i = []) := by
  obtain ⟨hopened, hdir, hcontent⟩ := h.called.opened hne
  refine sys_ends ⟨hopened, ?_⟩ (fun _ _ => ⟨h.called, by simp⟩) ⟨hopened, by simp⟩ fun _ => ⟨h.called, by simp⟩
  rintro b ⟨⟩
  exact ⟨hdir, hcontent⟩

omit [DecidableEq ν] in
theorem writeAll_ends (h : Holds encode tmp path log floor d) (hi : d.dir tmp = some i) (bytes : List UInt8) :
    (writeAll i bytes).Ends env d
      (KeepsLog encode tmp path log floor fun _ d' => d'.dir tmp = some i ∧ d'.content i = d.content i ++ bytes) := by
  have hwrote := fun bytes => h.called.wrote hi bytes
  refine sys_ends ⟨hwrote _, ?_⟩ (fun _ n => ⟨hwrote _, by simp⟩) ⟨hwrote _, by simp⟩ fun n => ⟨hwrote _, by simp⟩
  rintro b -
  exact ⟨hi, Function.update_self ..⟩

omit [DecidableEq ν] in
theorem syncAll_ends (h : Holds encode tmp path log floor d) (hi : d.dir tmp = some i) : (syncAll i).Ends env d
    (KeepsLog encode tmp path log floor fun _ d' => d'.dir tmp = some i ∧ d'.content i = d.content i ∧
      d'.synced i = true) := by
  refine sys_ends ⟨h.called.syncing, ?_⟩ (fun _ n => ⟨h.called, by simp⟩) ⟨h.called.syncing, by simp⟩ fun n =>
    ⟨h.called, by simp⟩
  rintro b -
  exact ⟨hi, rfl, Function.update_self ..⟩

theorem rename_saves (hne : path ≠ tmp) (h : Holds encode tmp path log floor d) (hi : d.dir tmp = some i)
    (hsynced : d.synced i = true) (hcontent : d.content i = encode a) :
    (rename tmp path).Ends env d (Saved encode tmp path log floor a) :=
  sys_ends (h.called.renamed hne hi hsynced hcontent) (fun _ _ => h.called) (.inr (h.called.renamed hne hi hsynced hcontent))
    fun _ => .inl h.called

omit [DecidableEq ν] in
theorem KeepsLog.mapErr {f : String → String} {P : β → Disk ν → Prop} {m : DiskM ν β}
    (h : m.Ends env d (KeepsLog encode tmp path log floor P)) :
    (mapErr f m).Ends env d (KeepsLog encode tmp path log floor P) :=
  Exec.Ends.bind_attempt h (fun _ _ h => h) (fun _ _ h => ⟨h.1, by simp⟩) fun _ h => ⟨h.1, by simp⟩

omit [DecidableEq ν] in
theorem Saved.mapErr {f : String → String} {m : DiskM ν Unit} (h : m.Ends env d (Saved encode tmp path log floor a)) :
    (mapErr f m).Ends env d (Saved encode tmp path log floor a) :=
  Exec.Ends.bind_attempt h (fun _ _ h => h) (fun _ _ h => h) fun _ h => h

theorem replace_saves (text : Stage → String → String) (hne : path ≠ tmp) (h : Holds encode tmp path log floor d) :
    (replace text tmp path (encode a)).Ends env d (Saved encode tmp path log floor a) := by
  refine KeepsLog.bind (KeepsLog.mapErr (create_ends hne h)) ?_
  rintro i d₁ h₁ ⟨hi₁, hempty⟩
  refine KeepsLog.bind (KeepsLog.mapErr (writeAll_ends h₁ hi₁ _)) ?_
  rintro - d₂ h₂ ⟨hi₂, hwritten⟩
  refine KeepsLog.bind (KeepsLog.mapErr (syncAll_ends h₂ hi₂)) ?_
  rintro - d₃ h₃ ⟨hi₃, hcontent, hsynced⟩
  refine Saved.mapErr (rename_saves hne h₃ hi₃ hsynced ?_)
  rw [hcontent, hwritten, hempty, List.nil_append]

theorem cleaning_saves (hne : path ≠ tmp) {m : DiskM ν Unit} (h : m.Ends env d (Saved encode tmp path log floor a)) :
    (cleaning tmp m).Ends env d (Saved encode tmp path log floor a) := by
  refine Exec.Ends.bind_attempt h (fun _ _ h => h) (fun e d' h => ?_) fun _ h => h
  have hremove : (removeFile tmp).Ends env d' fun _ t => Holds encode tmp path log floor t :=
    sys_ends (h.called.removed hne) (fun _ _ => h.called) (h.called.removed hne) fun _ => h.called
  exact Exec.Ends.bind_attempt hremove (fun _ _ h => h) (fun _ _ h => h) fun _ h => .inl h

end replace

end programs

/-! ### Runs -/

/-- What happens to the file: a save and how it ends, all is written out, or the power fails. -/
inductive Act (α : Type)
  | save (env : Env) (a : α) (o : Outcome String Unit)
  | flush
  | cut

inductive DiskStep (save : α → DiskM ν Unit) : Disk ν → Act α → Disk ν → Prop
  | save {d d' env a o} (run : (save a).run env { d with calls := 0 } = (o, d')) : DiskStep save d (.save env a o) d'
  | flush {d} : DiskStep save d .flush d.flushed
  | cut {d d'} (cut : Cut d d') : DiskStep save d .cut d'

/-- The values that were saved, oldest first, and how many of them are on the disk for certain. -/
structure Versions (α : Type) where
  log : List α
  floor : Nat

inductive VersionsStep : Versions α → Act α → Versions α → Prop
  | saved {v env a o} (done : ∀ e, o ≠ .err e) : VersionsStep v (.save env a o) { v with log := v.log ++ [a] }
  | unsaved {v env a o} (stopped : o ≠ .ok ()) : VersionsStep v (.save env a o) v
  | flush {v} : VersionsStep v .flush { v with floor := v.log.length }
  | cut {v n} (low : v.floor ≤ n) (high : n ≤ v.log.length) : VersionsStep v .cut ⟨v.log.take n, n⟩

section runs
variable {encode : α → List UInt8} {tmp path : ν} {save : α → DiskM ν Unit} {d d' d₀ : Disk ν} {v v₀ : Versions α}

/-- A directory without the file, all on the disk. -/
structure Fresh (path : ν) (d : Disk ν) : Prop where
  dir : d.dir path = none
  older : d.older = []
  below : ∀ name i, d.dir name = some i → i < d.next

theorem Fresh.holds (h : Fresh path d) : Holds encode tmp path [] 0 d where
  floor_le := Nat.le_refl _
  now := by simp [h.dir, version]
  before := by simp [h.older]
  synced := by simp [h.older, h.dir]
  path_lt := by simp [h.older, h.dir]
  tmp_lt := by simpa [h.older] using h.below tmp
  apart := by simp [h.older]
  self := by simp [h.older, Apart, h.dir]

theorem DiskStep.of_save (save : α → DiskM ν Unit) (d : Disk ν) (env : Env) (a : α) :
    DiskStep save d (.save env a ((save a).run env { d with calls := 0 }).1) ((save a).run env { d with calls := 0 }).2 :=
  .save rfl

theorem versions_step (hsave : Replaces encode tmp path save) (h : Holds encode tmp path v.log v.floor d) {a : Act α}
    (hstep : DiskStep save d a d') : ∃ v', VersionsStep v a v' ∧ Holds encode tmp path v'.log v'.floor d' := by
  cases hstep with
  | @save _ env a o hrun =>
    have hsaved := (hsave a v.log v.floor env { d with calls := 0 } ⟨h.floor_le, h.now, h.before, h.synced, h.path_lt,
      h.tmp_lt, h.apart, h.self⟩).elim hrun
    cases o with
    | ok u => exact ⟨_, .saved (by simp), hsaved⟩
    | err e => exact ⟨v, .unsaved (by simp), hsaved⟩
    | panic =>
      rcases hsaved with hsaved | hsaved
      · exact ⟨v, .unsaved (by simp), hsaved⟩
      · exact ⟨_, .saved (by simp), hsaved⟩
  | flush => exact ⟨_, .flush, h.flush⟩
  | cut hcut =>
    obtain ⟨n, hlow, hhigh, hcut⟩ := h.cut hcut
    exact ⟨_, .cut hlow hhigh, hcut⟩

theorem versions_of_run (hsave : Replaces encode tmp path save) (h₀ : Holds encode tmp path v₀.log v₀.floor d₀)
    {h : List (Step (Disk ν) (Act α))} (hrun : Run (DiskStep save) d₀ h d) :
    ∃ H v, Run VersionsStep v₀ H v ∧ H.map Step.act = h.map Step.act ∧ Holds encode tmp path v.log v.floor d := by
  induction hrun with
  | nil => exact ⟨[], v₀, .nil, rfl, h₀⟩
  | snoc _ hstep ih =>
    obtain ⟨H, v, hversions, hacts, hholds⟩ := ih
    obtain ⟨v', hstep', hholds'⟩ := versions_step hsave hholds hstep
    exact ⟨_, v', hversions.snoc hstep', by simp [hacts], hholds'⟩

theorem Holds.read (h : Holds encode tmp path v.log v.floor d) : d.read path = v.log.getLast?.map encode := by
  rw [Disk.read, h.now, version, List.take_length]

/-- In every run from a directory without the file, what is in it is the newest value of some log of the saves. -/
def KeepsVersions (encode : α → List UInt8) (path : ν) (save : α → DiskM ν Unit) : Prop :=
  ∀ d h d', Fresh path d → Run (DiskStep save) d h d' →
    ∃ H v, Run VersionsStep ⟨[], 0⟩ H v ∧ H.map Step.act = h.map Step.act ∧ d'.read path = v.log.getLast?.map encode

theorem Replaces.keepsVersions (hsave : Replaces encode tmp path save) : KeepsVersions encode path save := by
  intro d h d' hfresh hrun
  have hholds₀ : Holds encode tmp path (⟨[], 0⟩ : Versions α).log (⟨[], 0⟩ : Versions α).floor d := hfresh.holds
  obtain ⟨H, v, hversions, hacts, hholds⟩ := versions_of_run hsave hholds₀ hrun
  exact ⟨H, v, hversions, hacts, hholds.read⟩

/-- Every value of the log was saved. -/
theorem saved_of_mem {H : List (Step (Versions α) (Act α))} (hrun : Run VersionsStep ⟨[], 0⟩ H v) :
    ∀ a ∈ v.log, ∃ env o, Act.save env a o ∈ H.map Step.act := by
  induction hrun with
  | nil => simp
  | @snoc H w w' act _ hstep ih =>
    intro a ha
    rw [List.map_append]
    have hold : a ∈ w.log → ∃ env o, Act.save env a o ∈ H.map Step.act ++ [act] := by
      intro ha
      obtain ⟨env, o, hmem⟩ := ih a ha
      exact ⟨env, o, List.mem_append_left _ hmem⟩
    cases hstep with
    | @saved env b o =>
      rcases List.mem_append.1 ha with ha | ha
      · exact hold ha
      · obtain rfl := List.mem_singleton.1 ha
        exact ⟨env, o, List.mem_append_right _ (List.mem_singleton_self _)⟩
    | unsaved => exact hold ha
    | flush => exact hold ha
    | cut => exact hold (List.mem_of_mem_take ha)

end runs

/-! ### A file that is written in place -/

section tears
variable [DecidableEq ν] {encode : α → List UInt8} {path : ν}

/-- Killed when one byte is written. -/
def tornWrite : Env := ⟨fun n => if n = 1 then .killed false else .done, fun _ => 1⟩

/-- A directory without files. -/
def empty : Disk ν := ⟨fun _ => none, [], fun _ => [], fun _ => false, 0, 0⟩

omit [DecidableEq ν] in
theorem empty_fresh (path : ν) : Fresh path (empty : Disk ν) := ⟨rfl, rfl, by simp [empty]⟩

theorem replace_torn (text : Stage → String → String) {b : UInt8} {bytes : List UInt8} :
    (replace text path path (b :: bytes)).run tornWrite empty =
      (.panic, { ((empty.opened path).2.wrote 0 [b]) with calls := 2 }) := by
  have hcreate : (mapErr (text .create) (create path)).run tornWrite empty =
      (.ok 0, { (empty.opened path).2 with calls := 1 }) := rfl
  have hwrite : (mapErr (text .write) (writeAll 0 (b :: bytes))).run tornWrite { (empty.opened path).2 with calls := 1 } =
      (.panic, { ((empty.opened path).2.wrote 0 [b]) with calls := 2 }) := rfl
  rw [replace, Exec.run_bind_of_ok hcreate, Exec.run_bind_of_panic hwrite]

/-- With no file beside it, a value may come to be there in part. -/
theorem replace_self_tears (text : Stage → String → String) {a : α} {b b' : UInt8} {bytes : List UInt8}
    (ha : encode a = b :: b' :: bytes) : ¬ KeepsVersions encode path fun a => replace text path path (encode a) := by
  intro hkeeps
  have hstep : DiskStep (fun a => replace text path path (encode a)) empty (.save tornWrite a .panic) _ :=
    .save ((congrArg (fun bytes => (replace text path path bytes).run tornWrite empty) ha).trans (replace_torn text))
  obtain ⟨H, v, hversions, hacts, hread⟩ := hkeeps empty _ _ (empty_fresh path) (Run.nil.snoc hstep)
  have htorn : (empty.opened path).2.dir path = some 0 := Function.update_self ..
  have hread : some [b] = v.log.getLast?.map encode := by
    rw [← hread, Disk.read]
    show some [b] = ((empty.opened path).2.dir path).map (Function.update (empty.opened path).2.content 0 [b])
    rw [htorn, Option.map_some, Function.update_self]
  obtain ⟨a', hlast, hread⟩ := Option.map_eq_some_iff.1 hread.symm
  obtain ⟨env, o, hsaved⟩ := saved_of_mem hversions a' (List.mem_of_getLast? hlast)
  rw [hacts] at hsaved
  cases List.mem_singleton.1 hsaved
  rw [ha] at hread
  cases hread

end tears

end Disk
