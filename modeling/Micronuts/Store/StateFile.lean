import Mathlib.Data.Finset.Sort
import Mathlib.Data.String.Basic
import Micronuts.Mint.PayOnce
import Micronuts.Mint.Signatures
import Micronuts.Store.Files

/-!
# The mint on its state file (`with_state_file`)

A mint that is restarted takes its tables from the snapshot last saved: so `CrashStep` says. Here the store is a
`SnapshotFile`, its saves are system calls that may fail or be the last thing that the process does, and a restart reads the
file. What such a mint does is a run of one over a store of whole snapshots (`KeptStep`). The newest of them may be taken
back by a power cut, for a save does not sync the directory; and a boot that is not told whether there is a file puts an
empty mint over it. Where neither happens, the run is one of `DurableStep`, and no input is taken twice (`hosted_refines`).
-/

namespace Micronuts
open Disk Exec
section
variable [Crypto] [JsonText MintStateSnapshot]

/-- What it panics at stops the process. -/
def withStateFile (m : DemoMint) (path : Path) : DiskM Path DemoMint := do
  let store : SnapshotFile MintStateSnapshot := ⟨path⟩
  match ← attempt store.load with
  | .ok (some snapshot) =>
    match m.restore snapshot with
    | some m => pure { m with store := true }
    | none => Exec.panic
  | .ok none =>
    match ← attempt (store.save m.snapshot) with
    | .ok () => pure { m with store := true }
    | .error _ => Exec.panic
  | .error _ => Exec.panic

abbrev StateLog (path : Path) := Disk.Holds (SnapshotFile.encode (α := MintStateSnapshot)) path.tmpPath path

/-- Put into service: with the newest tables of the file; or with its own, which are then in the file, where there is none or
the system does not tell. -/
def Boots (m : DemoMint) (path : Path) (log : List MintStateSnapshot) (floor : Nat) (env : Disk.Env) (d : Disk Path) :
    Outcome String DemoMint → Disk Path → Prop
  | .ok m', t =>
    (∃ snap r, log.getLast? = some snap ∧ m.restore snap = some r ∧ m' = { r with store := true } ∧
      StateLog path log floor t) ∨
      (log.getLast? = none ∨ ∃ e, env.fate d.calls = .fails e) ∧ m' = { m with store := true } ∧
        StateLog path (log ++ [m.snapshot]) floor t
  | .err _, _ => False
  | .panic, t => StateLog path log floor t ∨
      (log.getLast? = none ∨ ∃ e, env.fate d.calls = .fails e) ∧ StateLog path (log ++ [m.snapshot]) floor t

section boot
variable {m : DemoMint} {path : Path} {log : List MintStateSnapshot} {floor : Nat} {env : Disk.Env} {d : Disk Path}

theorem boot_ends (h : StateLog path log floor d) (hjson : ∀ snap ∈ log.getLast?, Readable snap) :
    (withStateFile m path).Ends env d (Boots m path log floor env d) := by
  have hread : d.read path = log.getLast?.map SnapshotFile.encode := Disk.Holds.read (v := ⟨log, floor⟩) h
  have hfound : (SnapshotFile.load ⟨path⟩).Ends env d _ := SnapshotFile.load_of_read hread hjson
  have hload := hfound.and (SnapshotFile.load_leaves.ends env d)
  refine Ends.bind_attempt hload ?_ ?_ ?_
  · rintro found t ⟨hfound, hstill⟩
    have ht := (holds_still hstill).2 h
    cases found with
    | none =>
      have hnone : log.getLast? = none ∨ ∃ e, env.fate d.calls = .fails e := by
        rcases hfound with hfound | ⟨-, hfails⟩
        · exact .inl hfound.symm
        · exact .inr hfails
      refine Ends.bind_attempt (SnapshotFile.replaces ⟨path⟩ m.snapshot log floor env t ht) ?_ ?_ ?_
      · intro u t' hsaved
        exact .inr ⟨hnone, rfl, hsaved⟩
      · intro e t' hkept
        exact .inl hkept
      · rintro t' (hkept | hsaved)
        · exact .inl hkept
        · exact .inr ⟨hnone, hsaved⟩
    | some snap =>
      have hlast : log.getLast? = some snap := by
        rcases hfound with hfound | ⟨hfound, -⟩
        · exact hfound.symm
        · cases hfound
      dsimp only
      cases hrestore : m.restore snap with
      | none => exact .inl ht
      | some r => exact .inl ⟨snap, r, hlast, hrestore, rfl, ht⟩
  · rintro e t ⟨-, hstill⟩
    exact .inl ((holds_still hstill).2 h)
  · rintro t ⟨-, hstill⟩
    exact .inl ((holds_still hstill).2 h)

end boot

/-! ### A mint that calls, stops and restarts -/

/-- The saves among the events `new` return. -/
inductive Stored (path : Path) : Disk Path → List Event → Disk Path → Prop
  | nil {d} : Stored path d [] d
  | saved {d d' d'' env snap new} (before : Stored path d new d')
      (run : (SnapshotFile.save ⟨path⟩ snap).run env { d' with calls := 0 } = (.ok (), d'')) :
      Stored path d (.saved snap :: new) d''
  | other {d d' event new} (before : Stored path d new d') (h : ∀ snap, event ≠ .saved snap) : Stored path d (event :: new) d'

/-- A process that would have the trace `full` stops after `cut`: between two saves, or in one, which counts if the file has
it. -/
inductive Halts (path : Path) (full : List Event) : Disk Path → List Event → Disk Path → List Event → Prop
  | between {d cut rest} (next : full = rest ++ cut) : Halts path full d cut d cut
  | saving {d d' cut rest snap env o} (next : full = rest ++ .saved snap :: cut)
      (run : (SnapshotFile.save ⟨path⟩ snap).run env { d with calls := 0 } = (o, d')) :
      Halts path full d cut d' (if d'.read path = some (SnapshotFile.encode snap) then .saved snap :: cut else cut)

/-- The mint, whether its process runs, and its directory. -/
structure Host where
  world : World
  up : Bool
  disk : Disk Path

/-- A process is killed in a call; one that is not running is booted; the power fails while none runs. -/
inductive HostAct
  | call (a : Act)
  | kill (c : Call) (env : Env)
  | boot (env : Disk.Env)
  | cut
  | flush

def HostAct.asked : HostAct → Option (Call × Env)
  | .call a => some (a.call, a.env)
  | .kill c env => some (c, env)
  | .boot _ | .cut | .flush => none

/-- What a boot saves over other contents is noted. -/
def noted (path : Path) (snap : MintStateSnapshot) (d d' : Disk Path) (trace : List Event) : List Event :=
  if d'.read path = d.read path then trace else .saved snap :: trace

inductive HostStep (path : Path) (ks : DemoKeyset) : Host → HostAct → Host → Prop
  | call {w d a w' d' new} (step : CallStep w a w') (trace : w'.trace = new ++ w.trace) (stored : Stored path d new d') :
      HostStep path ks ⟨w, true, d⟩ (.call a) ⟨w', true, d'⟩
  | kill {w d c env new d₁ cut d₂} (stored : Stored path d new d₁)
      (halts : Halts path ((exec c).run env w.begin).2.trace d₁ (new ++ w.trace) d₂ cut) :
      HostStep path ks ⟨w, true, d⟩ (.kill c env) ⟨{ w with trace := cut }, false, d₂⟩
  | up {w d env m d'} (run : (withStateFile (.fresh ks false) path).run env { d with calls := 0 } = (.ok m, d')) :
      HostStep path ks ⟨w, false, d⟩ (.boot env)
        ⟨⟨m, noted path (DemoMint.fresh ks false).snapshot d d' w.trace, 0⟩, true, d'⟩
  | down {w d env d'} (run : (withStateFile (.fresh ks false) path).run env { d with calls := 0 } = (.panic, d')) :
      HostStep path ks ⟨w, false, d⟩ (.boot env)
        ⟨{ w with trace := noted path (DemoMint.fresh ks false).snapshot d d' w.trace }, false, d'⟩
  | cut {w d d'} (cut : Disk.Cut d d') : HostStep path ks ⟨w, false, d⟩ .cut ⟨w, false, d'⟩
  | flush {w up d} : HostStep path ks ⟨w, up, d⟩ .flush ⟨w, up, d.flushed⟩

/-- No power cut takes a save back, and a boot is told that there is a file. -/
def Settled (path : Path) (e : Step Host HostAct) : Prop :=
  match e.act with
  | .cut => e.post.disk.read path = e.pre.disk.read path
  | .boot env => (∃ fault, env.fate 0 = .fails fault) → e.pre.disk.read path = none
  | .call _ | .kill .. | .flush => True

def Host.off (ks : DemoKeyset) (d : Disk Path) : Host := ⟨⟨.fresh ks false, [], 0⟩, false, d⟩

/-! ### Over a store of snapshots -/

/-- The same mint over a store of whole snapshots, of which the oldest are there for certain. -/
structure Kept where
  world : World
  up : Bool
  store : Disk.Versions MintStateSnapshot

/-- Oldest first. -/
def savedOf : List Event → List MintStateSnapshot
  | [] => []
  | .saved snap :: trace => savedOf trace ++ [snap]
  | .payInvoice .. :: trace => savedOf trace
  | .quoteWritten .. :: trace => savedOf trace

/-- A boot takes the newest snapshot. It begins with an empty mint where there is none, and also where the system does not
tell; or it stops, before or after it has saved one. -/
inductive KeptStep (ks : DemoKeyset) : Kept → HostAct → Kept → Prop
  | call {w log floor a w' new} (step : CallStep w a w') (trace : w'.trace = new ++ w.trace) :
      KeptStep ks ⟨w, true, log, floor⟩ (.call a) ⟨w', true, log ++ savedOf new, floor⟩
  | kill {w log floor c env rest new} (stops : ((exec c).run env w.begin).2.trace = rest ++ (new ++ w.trace)) :
      KeptStep ks ⟨w, true, log, floor⟩ (.kill c env) ⟨{ w with trace := new ++ w.trace }, false, log ++ savedOf new, floor⟩
  | resumes {w log floor env snap m} (newest : log.getLast? = some snap)
      (restores : (DemoMint.fresh ks false).restore snap = some m) :
      KeptStep ks ⟨w, false, log, floor⟩ (.boot env) ⟨⟨{ m with store := true }, w.trace, 0⟩, true, log, floor⟩
  | begins {w log floor env} (blank : log.getLast? = none ∨ ∃ fault, env.fate 0 = .fails fault) :
      KeptStep ks ⟨w, false, log, floor⟩ (.boot env)
        ⟨⟨.fresh ks true, .saved (DemoMint.fresh ks false).snapshot :: w.trace, 0⟩, true,
          log ++ [(DemoMint.fresh ks false).snapshot], floor⟩
  | stops {w log floor env} : KeptStep ks ⟨w, false, log, floor⟩ (.boot env) ⟨w, false, log, floor⟩
  | leaves {w log floor env} (blank : log.getLast? = none ∨ ∃ fault, env.fate 0 = .fails fault) :
      KeptStep ks ⟨w, false, log, floor⟩ (.boot env)
        ⟨{ w with trace := .saved (DemoMint.fresh ks false).snapshot :: w.trace }, false,
          log ++ [(DemoMint.fresh ks false).snapshot], floor⟩
  | cut {w log floor n} (low : floor ≤ n) (high : n ≤ log.length) :
      KeptStep ks ⟨w, false, log, floor⟩ .cut ⟨w, false, log.take n, n⟩
  | flush {w up log floor} : KeptStep ks ⟨w, up, log, floor⟩ .flush ⟨w, up, log, log.length⟩

def Kept.off (ks : DemoKeyset) : Kept := ⟨⟨.fresh ks false, [], 0⟩, false, [], 0⟩

def Kept.Settled (e : Step Kept HostAct) : Prop :=
  match e.act with
  | .cut => e.post.store.log.getLast? = e.pre.store.log.getLast?
  | .boot env => (∃ fault, env.fate 0 = .fails fault) → e.pre.store.log.getLast? = none
  | .call _ | .kill .. | .flush => True

omit [JsonText MintStateSnapshot] in
theorem savedOf_append (new trace : List Event) : savedOf (new ++ trace) = savedOf trace ++ savedOf new := by
  induction new with
  | nil => exact (List.append_nil _).symm
  | cons event new ih =>
    cases event with
    | saved snap => rw [List.cons_append, savedOf, ih, List.append_assoc, savedOf]
    | payInvoice request invoice amount => exact ih
    | quoteWritten id old new => exact ih

/-- The file has the newest snapshot of the store. -/
structure Backs (path : Path) (s : Host) (t : Kept) : Prop where
  world : t.world = s.world
  up : t.up = s.up
  holds : StateLog path t.store.log t.store.floor s.disk
  saved : ∀ snap ∈ t.store.log, .saved snap ∈ s.world.trace

section files
variable {path : Path} {log : List MintStateSnapshot} {floor : Nat} {trace new cut full : List Event} {d d' : Disk Path}
  {snap : MintStateSnapshot}

omit [Crypto] in
theorem holds_begin (h : StateLog path log floor d) : StateLog path log floor { d with calls := 0 } :=
  (holds_still (show still d = still { d with calls := 0 } from rfl)).1 h

omit [Crypto] in
theorem holds_read (h : StateLog path log floor d) : d.read path = log.getLast?.map SnapshotFile.encode :=
  Disk.Holds.read (v := ⟨log, floor⟩) h

omit [Crypto] in
/-- The same contents are the same snapshot. -/
theorem newest_eq {x y : Option MintStateSnapshot} (hx : ∀ snap ∈ x, Readable snap) (hy : ∀ snap ∈ y, Readable snap)
    (h : x.map SnapshotFile.encode = y.map SnapshotFile.encode) : x = y := by
  cases x with
  | none =>
    cases y with
    | none => rfl
    | some b => cases h
  | some a =>
    cases y with
    | none => cases h
    | some b => exact congrArg some (SnapshotFile.encode_injective (hx a rfl) (hy b rfl) (Option.some.inj h))

theorem Stored.holds (hw : Stored path d new d') (h : StateLog path log floor d) :
    StateLog path (log ++ savedOf new) floor d' := by
  induction hw with
  | nil =>
    rw [savedOf, List.append_nil]
    exact h
  | @saved _ _ env snap new _ hrun ih =>
    rw [savedOf, ← List.append_assoc]
    exact (SnapshotFile.replaces ⟨path⟩ snap _ floor env _ (holds_begin ih)).elim hrun
  | @other _ event new _ hother ih =>
    cases event with
    | saved snap => exact absurd rfl (hother snap)
    | payInvoice request invoice amount => exact ih
    | quoteWritten id old new => exact ih

/-- Where a process stops, the file has what its trace says. -/
theorem Halts.holds (hh : Halts path full d cut d' new) (h : StateLog path log floor d) (hlog : ∀ s ∈ log, Readable s)
    (hjson : ∀ s, .saved s ∈ new → Readable s) :
    ∃ since, new = since ++ cut ∧ StateLog path (log ++ savedOf since) floor d' ∧ ∃ rest, full = rest ++ new := by
  have hnone : StateLog path log floor d' → StateLog path (log ++ savedOf []) floor d' := fun h => by
    rwa [savedOf, List.append_nil]
  cases hh with
  | between hnext => exact ⟨[], rfl, hnone h, _, hnext⟩
  | @saving _ _ rest snap _ o hnext hrun =>
    have hsaved := (SnapshotFile.replaces ⟨path⟩ snap log floor _ _ (holds_begin h)).elim hrun
    have heither : StateLog path log floor d' ∨ StateLog path (log ++ [snap]) floor d' := by
      cases o with
      | ok u => exact .inr hsaved
      | err e => exact .inl hsaved
      | panic => exact hsaved
    by_cases htook : d'.read path = some (SnapshotFile.encode snap)
    · rw [if_pos htook] at hjson ⊢
      refine ⟨[.saved snap], rfl, ?_, rest, hnext⟩
      rcases heither with hkept | hsaved
      · have hlast : log.getLast? = some snap := newest_eq (fun s hs => hlog s (List.mem_of_getLast? hs))
          (by rintro _ ⟨⟩; exact hjson snap List.mem_cons_self) ((holds_read hkept).symm.trans htook)
        exact (Disk.Holds.repeat_iff hkept.floor_le hlast).2 hkept
      · exact hsaved
    · rw [if_neg htook]
      refine ⟨[], rfl, ?_, rest ++ [.saved snap], by simp [hnext]⟩
      rcases heither with hkept | hsaved
      · exact hnone hkept
      · refine absurd ?_ htook
        rw [holds_read hsaved, List.getLast?_concat]
        rfl

/-- Where every call is done, a boot takes the newest snapshot and leaves the file. -/
theorem boot_of_done {m r : DemoMint} {env : Disk.Env} (h : StateLog path log floor d) (hlast : log.getLast? = some snap)
    (hsnap : Readable snap) (hrestore : m.restore snap = some r) (hdone : ∀ n, env.fate n = .done) :
    ∃ d', (withStateFile m path).run env { d with calls := 0 } = (.ok { r with store := true }, d') ∧
      d'.read path = d.read path := by
  have hread : Disk.read { d with calls := 0 } path = (some snap).map SnapshotFile.encode := by
    rw [holds_read (holds_begin h), hlast]
  have hjson : ∀ s ∈ some snap, Readable s := by
    rintro s hs
    cases hs
    exact hsnap
  obtain ⟨t, hload⟩ := SnapshotFile.load_of_done (f := ⟨path⟩) hread hjson hdone
  have hstill : still t = still { d with calls := 0 } := SnapshotFile.load_leaves.elim hload
  refine ⟨t, ?_, ?_⟩
  · have hattempt : (attempt (SnapshotFile.load (α := MintStateSnapshot) ⟨path⟩)).run env { d with calls := 0 } =
        (.ok (.ok (some snap)), t) := by
      simp only [run, attempt] at hload ⊢
      rw [hload]
    rw [withStateFile, run_bind_of_ok hattempt]
    dsimp only
    rw [hrestore]
    rfl
  · rw [holds_read ((holds_still hstill).2 (holds_begin h)), holds_read h]

omit [JsonText MintStateSnapshot] in
theorem noted_of_eq (h : d'.read path = d.read path) : noted path snap d d' trace = trace := if_pos h

/-- An empty mint that is saved makes a difference, or the file has it already. -/
theorem noted_cases (hlog : ∀ s ∈ log, Readable s) (hsnap : Readable snap) (h : StateLog path log floor d)
    (hsaved : StateLog path (log ++ [snap]) floor d') :
    log.getLast? = some snap ∧ noted path snap d d' trace = trace ∧ StateLog path log floor d' ∨
      noted path snap d d' trace = .saved snap :: trace := by
  by_cases hsame : d'.read path = d.read path
  · have hlast : log.getLast? = some snap := by
      refine newest_eq (fun s hs => hlog s (List.mem_of_getLast? hs)) (by rintro _ ⟨⟩; exact hsnap) ?_
      rw [← holds_read h, ← hsame, holds_read hsaved, List.getLast?_concat]
    exact .inl ⟨hlast, if_pos hsame, (Disk.Holds.repeat_iff h.floor_le hlast).1 hsaved⟩
  · exact .inr (if_neg hsame)

omit [JsonText MintStateSnapshot] in
theorem suffix_noted : trace <:+ noted path snap d d' trace := by
  unfold noted
  split
  · exact List.suffix_refl _
  · exact List.suffix_cons _ _

theorem Halts.suffix (h : Halts path full d cut d' new) : cut <:+ new := by
  cases h with
  | between => exact List.suffix_refl _
  | saving =>
    split
    · exact List.suffix_cons _ _
    · exact List.suffix_refl _

end files

theorem HostStep.suffix {path : Path} {ks : DemoKeyset} {s s' : Host} {a : HostAct} (h : HostStep path ks s a s') :
    s.world.trace <:+ s'.world.trace := by
  cases h with
  | call _ htrace _ => exact ⟨_, htrace.symm⟩
  | kill _ hhalts => exact (List.suffix_append _ _).trans hhalts.suffix
  | up _ => exact suffix_noted
  | down _ => exact suffix_noted
  | cut _ => exact List.suffix_refl _
  | flush => exact List.suffix_refl _

section keeps
variable {path : Path} {ks : DemoKeyset} {s s' : Host} {t : Kept} {a : HostAct}

omit [JsonText MintStateSnapshot] in
theorem mem_savedOf {new : List Event} {snap : MintStateSnapshot} (h : snap ∈ savedOf new) : .saved snap ∈ new := by
  induction new with
  | nil => cases h
  | cons event new ih =>
    cases event with
    | saved s =>
      rcases List.mem_append.1 h with h | h
      · exact List.mem_cons_of_mem _ (ih h)
      · rw [List.mem_singleton.1 h]
        exact List.mem_cons_self
    | payInvoice request invoice amount => exact List.mem_cons_of_mem _ (ih h)
    | quoteWritten id old new => exact List.mem_cons_of_mem _ (ih h)

omit [JsonText MintStateSnapshot] in
/-- The snapshots that a call adds are in its trace. -/
theorem saved_append {log : List MintStateSnapshot} {new trace : List Event} (h : ∀ snap ∈ log, .saved snap ∈ trace) :
    ∀ snap ∈ log ++ savedOf new, .saved snap ∈ new ++ trace := by
  intro snap hmem
  rcases List.mem_append.1 hmem with hmem | hmem
  · exact List.mem_append_right _ (h snap hmem)
  · exact List.mem_append_left _ (mem_savedOf hmem)

/-- A boot of the mint is one over the snapshots of the file. -/
theorem boot_keeps {w : World} {d d' : Disk Path} {log : List MintStateSnapshot} {floor : Nat} {env : Disk.Env}
    {o : Outcome String DemoMint} (h : StateLog path log floor d) (hlog : ∀ snap ∈ log, Readable snap)
    (hsaved : ∀ snap ∈ log, .saved snap ∈ w.trace) (hinit : Readable (DemoMint.fresh ks false).snapshot)
    (hrun : (withStateFile (.fresh ks false) path).run env { d with calls := 0 } = (o, d')) :
    ∃ t', KeptStep ks ⟨w, false, log, floor⟩ (.boot env) t' ∧ match o with
      | .ok m => Backs path ⟨⟨m, noted path (DemoMint.fresh ks false).snapshot d d' w.trace, 0⟩, true, d'⟩ t'
      | .err _ => False
      | .panic =>
          Backs path ⟨{ w with trace := noted path (DemoMint.fresh ks false).snapshot d d' w.trace }, false, d'⟩ t' := by
  have hjson : ∀ snap ∈ log.getLast?, Readable snap := fun snap hmem => hlog snap (List.mem_of_getLast? hmem)
  have hboot := (boot_ends (holds_begin h) hjson).elim hrun
  have hsame : StateLog path log floor d' → noted path (DemoMint.fresh ks false).snapshot d d' w.trace = w.trace := fun h' =>
    noted_of_eq ((holds_read h').trans (holds_read h).symm)
  have hadded : ∀ snap ∈ log ++ [(DemoMint.fresh ks false).snapshot],
      .saved snap ∈ Event.saved (DemoMint.fresh ks false).snapshot :: w.trace := by
    intro snap hmem
    rcases List.mem_append.1 hmem with hmem | hmem
    · exact List.mem_cons_of_mem _ (hsaved snap hmem)
    · rw [List.mem_singleton.1 hmem]
      exact List.mem_cons_self
  cases o with
  | ok m =>
    rcases hboot with ⟨snap, r, hnewest, hrestores, rfl, hd'⟩ | ⟨hblank, rfl, hd'⟩
    · refine ⟨_, .resumes hnewest hrestores, ?_, rfl, hd', ?_⟩
      · rw [hsame hd']
      · rw [hsame hd']
        exact hsaved
    · rcases noted_cases hlog hinit h hd' with ⟨hnewest, hnoted, hd'⟩ | hnoted
      · refine ⟨_, .resumes hnewest (DemoMint.restore_snapshot _ _), ?_, rfl, hd', ?_⟩
        · rw [hnoted]
        · rw [hnoted]
          exact hsaved
      · refine ⟨_, .begins hblank, ?_, rfl, hd', ?_⟩
        · rw [hnoted]
          rfl
        · rw [hnoted]
          exact hadded
  | err e => exact hboot.elim
  | panic =>
    rcases hboot with hd' | ⟨hblank, hd'⟩
    · refine ⟨_, .stops, ?_, rfl, hd', ?_⟩
      · rw [hsame hd']
      · rw [hsame hd']
        exact hsaved
    · rcases noted_cases hlog hinit h hd' with ⟨-, hnoted, hd'⟩ | hnoted
      · refine ⟨_, .stops, ?_, rfl, hd', ?_⟩
        · rw [hnoted]
        · rw [hnoted]
          exact hsaved
      · refine ⟨_, .leaves hblank, ?_, rfl, hd', ?_⟩
        · rw [hnoted]
        · rw [hnoted]
          exact hadded

/-- A boot that is told of its file is told of its newest snapshot. -/
theorem settled_boot {w : World} {up : Bool} {env : Disk.Env} {s' : Host} {t' : Kept} (hholds : StateLog path log floor d)
    (hsettled : Settled path ⟨⟨w, up, d⟩, .boot env, s'⟩) : Kept.Settled ⟨⟨w, up, log, floor⟩, .boot env, t'⟩ := by
  intro hfault
  have hnone := hsettled hfault
  rw [holds_read hholds] at hnone
  exact Option.map_eq_none_iff.1 hnone

/-- What the mint does on its file it does over a store of snapshots. -/
theorem HostStep.keeps (hinit : Readable (DemoMint.fresh ks false).snapshot) (h : Backs path s t)
    (hstep : HostStep path ks s a s')
    (hjson : ∀ snap, .saved snap ∈ s'.world.trace → Readable snap) :
    ∃ t', KeptStep ks t a t' ∧ Backs path s' t' ∧ (Settled path ⟨s, a, s'⟩ → Kept.Settled ⟨t, a, t'⟩) := by
  obtain ⟨w, up, log, floor⟩ := t
  obtain ⟨rfl, rfl, hholds, hsaved⟩ := h
  have hlog : ∀ snap ∈ log, Readable snap := fun snap hmem => hjson snap (hstep.suffix.mem (hsaved snap hmem))
  cases hstep with
  | call hcall htrace hstored =>
    refine ⟨_, .call hcall htrace, ⟨rfl, rfl, hstored.holds hholds, ?_⟩, fun _ => trivial⟩
    rw [htrace]
    exact saved_append hsaved
  | @kill w d c env new d₁ cut d₂ hstored hhalts =>
    have hlog' : ∀ snap ∈ log ++ savedOf new, Readable snap := fun snap hmem =>
      hjson snap (hhalts.suffix.mem (saved_append hsaved snap hmem))
    obtain ⟨since, rfl, hd₂, rest, hfull⟩ := hhalts.holds (hstored.holds hholds) hlog' hjson
    rw [List.append_assoc] at hd₂
    refine ⟨_, @KeptStep.kill _ ks w log floor c env rest (since ++ new) ?_, ⟨?_, rfl, ?_, ?_⟩, fun _ => trivial⟩
    · rw [hfull, List.append_assoc]
    · rw [List.append_assoc]
    · rwa [savedOf_append]
    · rw [← List.append_assoc]
      exact saved_append hsaved
  | up hrun =>
    obtain ⟨t', hkept, hbacks⟩ := boot_keeps hholds hlog hsaved hinit hrun
    exact ⟨t', hkept, hbacks, settled_boot hholds⟩
  | down hrun =>
    obtain ⟨t', hkept, hbacks⟩ := boot_keeps hholds hlog hsaved hinit hrun
    exact ⟨t', hkept, hbacks, settled_boot hholds⟩
  | cut hcut =>
    obtain ⟨n, hlow, hhigh, hd'⟩ := hholds.cut hcut
    refine ⟨_, .cut hlow hhigh, ⟨rfl, rfl, hd', fun snap hmem => hsaved snap (List.mem_of_mem_take hmem)⟩, fun hsettled => ?_⟩
    refine newest_eq (fun snap hmem => hlog snap (List.mem_of_mem_take (List.mem_of_getLast? hmem)))
      (fun snap hmem => hlog snap (List.mem_of_getLast? hmem)) ?_
    rw [← holds_read hd', ← holds_read hholds]
    exact hsettled
  | flush => exact ⟨_, .flush, ⟨rfl, rfl, hholds.flush, hsaved⟩, fun _ => trivial⟩

theorem kept_of_run {d₀ : Disk Path} {h : List (Step Host HostAct)} (hinit : Readable (DemoMint.fresh ks false).snapshot)
    (hfresh : Disk.Fresh path d₀) (hrun : Run (HostStep path ks) (.off ks d₀) h s)
    (hjson : ∀ snap, .saved snap ∈ s.world.trace → Readable snap) :
    ∃ H t, Run (KeptStep ks) (.off ks) H t ∧ H.map Step.act = h.map Step.act ∧ Backs path s t ∧
      ((∀ e ∈ h, Settled path e) → ∀ e ∈ H, Kept.Settled e) := by
  induction hrun with
  | nil => exact ⟨[], .off ks, .nil, rfl, ⟨rfl, rfl, hfresh.holds, by simp [Kept.off]⟩, by simp⟩
  | @snoc h s s' a _ hstep ih =>
    obtain ⟨H, t, hH, hacts, hbacks, hsettled⟩ := ih fun snap hmem => hjson snap (hstep.suffix.mem hmem)
    obtain ⟨t', hkept, hbacks', hsettled'⟩ := hstep.keeps hinit hbacks hjson
    refine ⟨_, t', hH.snoc hkept, by simp [hacts], hbacks', fun hall => ?_⟩
    rw [List.forall_mem_append] at hall ⊢
    exact ⟨hsettled hall.1, by simpa using hsettled' (hall.2 _ (List.mem_singleton_self _))⟩

end keeps

/-! ### Where nothing is taken back -/

section durable
variable {ks : DemoKeyset} {t t' : Kept} {a : HostAct}

omit [JsonText MintStateSnapshot] in
/-- A run goes on from what was saved when the mint was put into service. -/
theorem init_suffix {D : History} {w : World} (hrun : Run DurableStep (.init ks true) D w) :
    (World.init ks true).trace <:+ w.trace := by
  induction hrun with
  | nil => exact List.suffix_refl _
  | snoc _ hstep ih =>
    refine ih.trans ?_
    rcases hstep with hcall | hcrash
    · obtain ⟨out, -, hends⟩ := hcall.exists_ends
      exact hends.grows.suffix
    · obtain ⟨-, -, -, -, -, hsuffix, -⟩ := hcrash.exists_ends
      exact hsuffix

omit [JsonText MintStateSnapshot] in
theorem lastSaved_append {log : List MintStateSnapshot} {new trace : List Event} (h : log.getLast? = lastSaved trace) :
    (log ++ savedOf new).getLast? = lastSaved (new ++ trace) := by
  induction new with
  | nil => rwa [savedOf, List.append_nil]
  | cons event new ih =>
    cases event with
    | saved snap => rw [savedOf, ← List.append_assoc, List.getLast?_concat]; rfl
    | payInvoice request invoice amount => exact ih
    | quoteWritten id old new => exact ih

omit [JsonText MintStateSnapshot] in
theorem lastSaved_isSome {trace cut : List Event} (h : (lastSaved trace).isSome) (hsuffix : trace <:+ cut) :
    (lastSaved cut).isSome := by
  obtain ⟨new, rfl⟩ := hsuffix
  induction new with
  | nil => exact h
  | cons event new ih =>
    cases event with
    | saved snap => rfl
    | payInvoice request invoice amount => exact ih
    | quoteWritten id old new => exact ih

omit [JsonText MintStateSnapshot] in
/-- The keyset and the store are all that the tables of a snapshot leave. -/
theorem DemoMint.restore_of_fresh {m : DemoMint} {snap : MintStateSnapshot} {r : DemoMint} (hstore : m.store = true)
    (h : (DemoMint.fresh m.keyset false).restore snap = some r) : m.restore snap = some { r with store := true } := by
  unfold DemoMint.restore at h ⊢
  dsimp only at h ⊢
  split at h
  · next hkeys =>
    cases h
    rw [if_pos hkeys, hstore]
    rfl
  · cases h

/-- The requests of a run. -/
def History.asked (D : History) : List (Call × Env) := D.map fun e => (e.act.call, e.act.env)

omit [JsonText MintStateSnapshot] in
theorem History.asked_snoc (D : History) (w w' : World) (a : Act) :
    History.asked (D ++ [⟨w, a, w'⟩]) = History.asked D ++ [(a.call, a.env)] := List.map_append

/-- How far a mint has come with these requests: not yet put into service, in service, or killed in the last of them. -/
inductive Progress (ks : DemoKeyset) : List (Call × Env) → Kept → Prop
  | unborn {w store} (trace : w.trace = []) : Progress ks [] ⟨w, false, store⟩
  | begun {w store} (trace : w.trace = (World.init ks true).trace) : Progress ks [] ⟨w, false, store⟩
  | serving {D w store} (run : Run DurableStep (.init ks true) D w) : Progress ks (History.asked D) ⟨w, true, store⟩
  | killed {D w c env rest cut store} (run : Run DurableStep (.init ks true) D w)
      (stops : ((exec c).run env w.begin).2.trace = rest ++ cut) (kept : w.trace <:+ cut) :
      Progress ks (History.asked D ++ [(c, env)]) ⟨{ w with trace := cut }, false, store⟩

omit [JsonText MintStateSnapshot] in
/-- A boot takes what was saved last. -/
theorem Progress.resumes {w : World} {log : List MintStateSnapshot} {floor : Nat} {asked : List (Call × Env)}
    {snap : MintStateSnapshot} {m : DemoMint} (h : Progress ks asked ⟨w, false, log, floor⟩)
    (hlast : lastSaved w.trace = some snap)
    (hrestores : (DemoMint.fresh ks false).restore snap = some m) :
    Progress ks asked ⟨⟨{ m with store := true }, w.trace, 0⟩, true, log, floor⟩ := by
  cases h with
  | unborn htrace =>
    rw [htrace] at hlast
    cases hlast
  | begun htrace =>
    rw [htrace] at hlast ⊢
    obtain rfl : (DemoMint.fresh ks true).snapshot = snap := Option.some.inj hlast
    rw [DemoMint.restore_snapshot] at hrestores
    cases hrestores
    exact .serving .nil
  | @killed D w c env rest cut _ hrun hstops hkept =>
    obtain ⟨hkeyset, hstore⟩ := config_of_durable_run hrun
    have hks : w.mint.keyset = ks := hkeyset
    have hrestored := DemoMint.restore_of_fresh (m := w.mint) hstore (by rw [hks]; exact hrestores)
    have hcrash : CrashStep w ⟨c, env, .crashed rest.length⟩ ⟨{ m with store := true }, cut, 0⟩ := by
      refine ⟨rest.length, cut, snap, _, rfl, ?_, hkept, hlast, hrestored, rfl⟩
      rw [hstops, List.drop_left]
    have hrun' := hrun.snoc (.inr hcrash)
    rw [← History.asked_snoc D w _ ⟨c, env, .crashed rest.length⟩]
    exact .serving hrun'

omit [JsonText MintStateSnapshot] in
/-- What is put into service without a snapshot is new. -/
theorem Progress.trace_nil {w : World} {store : Disk.Versions MintStateSnapshot} {asked : List (Call × Env)}
    (h : Progress ks asked ⟨w, false, store⟩) (hnone : lastSaved w.trace = none) : asked = [] ∧ w.trace = [] := by
  have hinit : (lastSaved (World.init ks true).trace).isSome := rfl
  cases h with
  | unborn htrace => exact ⟨rfl, htrace⟩
  | begun htrace =>
    rw [htrace] at hnone
    rw [hnone] at hinit
    cases hinit
  | killed hrun _ hkept =>
    have hsome := lastSaved_isSome hinit ((init_suffix hrun).trans hkept)
    rw [hnone] at hsome
    cases hsome

omit [JsonText MintStateSnapshot] in
theorem Progress.of_store {w : World} {up : Bool} {store store' : Disk.Versions MintStateSnapshot} {asked : List (Call × Env)}
    (h : Progress ks asked ⟨w, up, store⟩) : Progress ks asked ⟨w, up, store'⟩ := by
  cases h with
  | unborn htrace => exact .unborn htrace
  | begun htrace => exact .begun htrace
  | serving hrun => exact .serving hrun
  | killed hrun hstops hkept => exact .killed hrun hstops hkept

omit [JsonText MintStateSnapshot] in
theorem Progress.quiet {asked : List (Call × Env)} {a : HostAct} (hquiet : a.asked = none) (h : Progress ks asked t) :
    Progress ks (asked ++ a.asked.toList) t := by
  rw [hquiet]
  exact (List.append_nil asked).symm ▸ h

omit [JsonText MintStateSnapshot] in
/-- A step of the mint over its snapshots is one of the mint, or none, where it takes nothing back. -/
theorem KeptStep.progress {asked : List (Call × Env)} (hstep : KeptStep ks t a t') (hsettled : Kept.Settled ⟨t, a, t'⟩)
    (hnewest : t.store.log.getLast? = lastSaved t.world.trace) (h : Progress ks asked t) :
    Progress ks (asked ++ a.asked.toList) t' ∧ t'.store.log.getLast? = lastSaved t'.world.trace := by
  cases hstep with
  | @call w log floor a w' new hcall htrace =>
    cases h with
    | @serving D _ _ hrun =>
      refine ⟨?_, ?_⟩
      · show Progress ks (History.asked D ++ [(a.call, a.env)]) _
        rw [← History.asked_snoc D w w' a]
        exact .serving (hrun.snoc (.inl hcall))
      · rw [htrace]
        exact lastSaved_append hnewest
  | @kill w log floor c env rest new hstops =>
    cases h with
    | serving hrun => exact ⟨.killed hrun hstops (List.suffix_append _ _), lastSaved_append hnewest⟩
  | resumes hlast hrestores =>
    have hresumed := h.resumes (hnewest.symm.trans hlast) hrestores
    exact ⟨hresumed.quiet rfl, hnewest⟩
  | begins hblank =>
    have hnone := hblank.elim id hsettled
    obtain ⟨rfl, htrace⟩ := h.trace_nil (hnewest.symm.trans hnone)
    refine ⟨?_, List.getLast?_concat⟩
    rw [htrace]
    exact .serving .nil
  | stops => exact ⟨h.quiet rfl, hnewest⟩
  | leaves hblank =>
    have hnone := hblank.elim id hsettled
    obtain ⟨rfl, htrace⟩ := h.trace_nil (hnewest.symm.trans hnone)
    refine ⟨.begun ?_, List.getLast?_concat⟩
    dsimp only
    rw [htrace]
    rfl
  | cut => exact ⟨h.of_store.quiet rfl, hsettled.trans hnewest⟩
  | flush => exact ⟨h.of_store.quiet rfl, hnewest⟩

omit [JsonText MintStateSnapshot] in
theorem progress_of_run {H : List (Step Kept HostAct)} (hrun : Run (KeptStep ks) (.off ks) H t)
    (hsettled : ∀ e ∈ H, Kept.Settled e) :
    Progress ks ((H.map Step.act).filterMap HostAct.asked) t ∧ t.store.log.getLast? = lastSaved t.world.trace := by
  induction hrun with
  | nil => exact ⟨.unborn rfl, rfl⟩
  | @snoc H t t' a _ hstep ih =>
    rw [List.forall_mem_append] at hsettled
    obtain ⟨hprogress, hnewest⟩ := ih hsettled.1
    have hnext := hstep.progress (hsettled.2 _ (List.mem_singleton_self _)) hnewest hprogress
    rw [List.map_append, List.filterMap_append]
    have hone : [a].filterMap HostAct.asked = a.asked.toList := by
      cases a <;> rfl
    exact hone ▸ hnext

omit [JsonText MintStateSnapshot] in
theorem Progress.run {asked : List (Call × Env)} (h : Progress ks asked t) (hup : t.up = true) :
    ∃ D, Run DurableStep (.init ks true) D t.world ∧ History.asked D = asked := by
  cases h with
  | serving hrun => exact ⟨_, hrun, rfl⟩
  | unborn => cases hup
  | begun => cases hup
  | killed => cases hup

end durable

/-- What a mint does on its file, over any calls, kills, failed saves, power cuts and boots, is a run over a store of whole
snapshots, the newest of which is in the file. Where no cut takes one back and no boot misses one, it is a run of a mint
that comes back with what it saved last, and no input is taken twice. -/
theorem hosted_refines {path : Path} {ks : DemoKeyset} {d₀ : Disk Path} {h : List (Step Host HostAct)} {s : Host}
    (hfresh : Disk.Fresh path d₀) (hrun : Run (HostStep path ks) (.off ks d₀) h s)
    (hinit : Readable (DemoMint.fresh ks false).snapshot) (hjson : ∀ snap, .saved snap ∈ s.world.trace → Readable snap) :
    ∃ H t, Run (KeptStep ks) (.off ks) H t ∧ H.map Step.act = h.map Step.act ∧ t.world = s.world ∧ t.up = s.up ∧
      s.disk.read path = t.store.log.getLast?.map SnapshotFile.encode ∧
      ((∀ e ∈ h, Settled path e) → s.disk.read path = (lastSaved s.world.trace).map SnapshotFile.encode ∧
        (s.up = true → ∃ D, Run DurableStep (.init ks true) D s.world ∧
          History.asked D = (h.map Step.act).filterMap HostAct.asked ∧ (takenYs D).Nodup)) := by
  obtain ⟨H, t, hH, hacts, hbacks, hsettled⟩ := kept_of_run hinit hfresh hrun hjson
  have hread := holds_read hbacks.holds
  refine ⟨H, t, hH, hacts, hbacks.world, hbacks.up, hread, fun hall => ?_⟩
  obtain ⟨hprogress, hnewest⟩ := progress_of_run hH (hsettled hall)
  rw [hbacks.world] at hnewest
  refine ⟨by rw [hread, hnewest], fun hup => ?_⟩
  obtain ⟨D, hD, hasked⟩ := hprogress.run (hbacks.up.trans hup)
  rw [hacts] at hasked
  rw [hbacks.world] at hD
  exact ⟨D, hD, hasked, (Spent.of_run hD).nodup⟩

end

section toy
open Toy

namespace Toy

/-! A snapshot as `serde_json` writes it: no string in it has a character to escape, and a set is written in order. -/

def quoted (s : String) : String := "\"" ++ s ++ "\""

def listed (texts : List String) : String := "[" ++ ",".intercalate texts ++ "]"

def fielded (fields : List (String × String)) : String :=
  "\x7b" ++ ",".intercalate (fields.map fun field => quoted field.1 ++ ":" ++ field.2) ++ "\x7d"

def rowsText {β : Type} (text : β → String) (rows : Finmap fun _ : String => β) : String :=
  listed ((rows.keys.sort (· ≤ ·)).filterMap fun key => (rows.lookup key).map fun b => listed [quoted key, text b])

def mintStateText : MintQuoteState → String
  | .unpaid => "UNPAID"
  | .paid => "PAID"
  | .issued => "ISSUED"

def meltStateText : MeltQuoteState → String
  | .unpaid => "UNPAID"
  | .pending => "PENDING"
  | .paid => "PAID"
  | .failed => "FAILED"

def mintQuoteText (e : MintQuoteEntry) : String :=
  fielded [("amount", toString e.amount), ("unit", quoted e.unit), ("request", quoted e.request),
    ("state", quoted (mintStateText e.state)), ("expiry", toString e.expiry), ("amount_paid", toString e.amountPaid),
    ("amount_issued", toString e.amountIssued), ("updated_at", toString e.updatedAt), ("pubkey", e.pubkey.elim "null" quoted)]

def meltQuoteText (e : MeltQuoteEntry) : String :=
  fielded [("amount", toString e.amount), ("fee_reserve", toString e.feeReserve), ("unit", quoted e.unit),
    ("request", quoted e.request), ("state", quoted (meltStateText e.state)), ("expiry", toString e.expiry)]

def signatureText (s : BlindSignatureSnap) : String :=
  fielded [("amount", toString s.amount), ("id", quoted s.id), ("c_hex", quoted s.cHex),
    ("dleq", s.dleq.elim "null" fun d => fielded [("e_hex", quoted d.eHex), ("s_hex", quoted d.sHex)])]

def snapshotText (snap : MintStateSnapshot) : String :=
  fielded [("mint_quotes", rowsText mintQuoteText snap.mintQuotes), ("melt_quotes", rowsText meltQuoteText snap.meltQuotes),
    ("spent_ys", listed ((snap.spentYs.sort (· ≤ ·)).map quoted)),
    ("issued_outputs", rowsText signatureText snap.issuedOutputs)]

def swapCall : Call := .postSwap ⟨[coin 2 "two"], [⟨2, "00c0ffee", (5 : UInt8)⟩]⟩

/-- The mint after a swap. -/
def swapped : World := ((exec swapCall).run env (World.init keyset true)).2

theorem swapped_trace : swapped.trace = .saved swapped.mint.snapshot :: (World.init keyset true).trace := rfl

theorem swapped_text : snapshotText swapped.mint.snapshot ≠ snapshotText (DemoMint.fresh keyset true).snapshot := by
  decide +kernel

/-- Of the texts, those are read that this mint writes. -/
instance : JsonText MintStateSnapshot where
  toText := snapshotText
  fromText s :=
    if s = snapshotText (DemoMint.fresh keyset true).snapshot then .ok (DemoMint.fresh keyset true).snapshot
    else if s = snapshotText swapped.mint.snapshot then .ok swapped.mint.snapshot
    else .error "expected value at line 1 column 1"

theorem readable_fresh : Readable (DemoMint.fresh keyset false).snapshot := if_pos rfl

theorem readable_swapped : Readable swapped.mint.snapshot := by
  show fromText (snapshotText swapped.mint.snapshot) = _
  exact (if_neg swapped_text).trans (if_pos rfl)

def mintPath : Path := ⟨"/var/mint/", "state.json"⟩

/-- Where every save is done, the events of a call are stored. -/
theorem exists_stored (new : List Event) (d : Disk Path) : ∃ d', Stored mintPath d new d' := by
  induction new with
  | nil => exact ⟨d, .nil⟩
  | cons event new ih =>
    obtain ⟨d', hbefore⟩ := ih
    cases event with
    | saved snap => exact ⟨_, @Stored.saved _ _ _ d d' _ noFaults snap new hbefore rfl⟩
    | payInvoice request invoice amount => exact ⟨d', .other hbefore (by simp)⟩
    | quoteWritten id old new => exact ⟨d', .other hbefore (by simp)⟩

end Toy

/-- A swap; then the power fails in a second swap of the same coin, and the mint boots. -/
theorem hosted_refines_toy : ∃ (d : Disk Path) (D : History),
    Run DurableStep (.init keyset true) D ⟨swapped.mint, swapped.trace, 0⟩ ∧
    History.asked D = [(swapCall, env), (swapCall, env)] ∧
      d.read mintPath = some (SnapshotFile.encode swapped.mint.snapshot) ∧ (takenYs D).Nodup := by
  have hinit : Readable (DemoMint.fresh keyset false).snapshot := readable_fresh
  have hfresh : Disk.Fresh mintPath (Disk.empty : Disk Path) := empty_fresh mintPath
  -- the first boot saves an empty mint
  obtain ⟨d₁, hboot, hholds₁⟩ :
      ∃ d₁, HostStep mintPath keyset (.off keyset Disk.empty) (.boot noFaults) ⟨.init keyset true, true, d₁⟩ ∧
      StateLog mintPath [(DemoMint.fresh keyset false).snapshot] 0 d₁ := by
    have hrun : (withStateFile (.fresh keyset false) mintPath).run noFaults { (Disk.empty : Disk Path) with calls := 0 } =
        (.ok (.fresh keyset true), _) := rfl
    have hboot := (boot_ends (holds_begin hfresh.holds) (by simp)).elim hrun
    rcases hboot with ⟨snap, r, hnone, -⟩ | ⟨-, -, hsaved⟩
    · cases hnone
    · refine ⟨_, ?_, hsaved⟩
      have hstep := HostStep.up (w := ⟨.fresh keyset false, [], 0⟩) hrun
      rcases (noted_cases (by simp) hinit hfresh.holds hsaved : _ ∧ noted _ _ _ _ [] = _ ∧ _ ∨ _) with ⟨hnone, -⟩ | hnoted
      · cases hnone
      · rw [hnoted] at hstep
        exact hstep
  obtain ⟨d₂, hstored⟩ := exists_stored [.saved swapped.mint.snapshot] d₁
  have hswap : HostStep mintPath keyset ⟨.init keyset true, true, d₁⟩ (.call _) ⟨swapped, true, d₂⟩ :=
    .call (CallStep.of_exec swapCall env (by decide +kernel)) swapped_trace hstored
  have hflush : HostStep mintPath keyset ⟨swapped, true, d₂⟩ .flush ⟨swapped, true, d₂.flushed⟩ := .flush
  -- the second swap stops before it has done anything
  obtain ⟨out, -, hends⟩ := (CallStep.of_exec (w := swapped) swapCall env (by decide +kernel)).exists_ends
  obtain ⟨rest, hrest⟩ := hends.grows.suffix
  have hkill : HostStep mintPath keyset ⟨swapped, true, d₂.flushed⟩ (.kill swapCall env) ⟨swapped, false, d₂.flushed⟩ :=
    .kill .nil (.between hrest.symm)
  have hcut : HostStep mintPath keyset ⟨swapped, false, d₂.flushed⟩ .cut ⟨swapped, false, d₂.flushed⟩ :=
    .cut ⟨List.mem_cons_self, rfl, fun _ _ => rfl, rfl, rfl⟩
  obtain ⟨d₃, hrun, hsame⟩ := boot_of_done (hstored.holds hholds₁).flush rfl readable_swapped
    (DemoMint.restore_snapshot (.fresh keyset false) swapped.mint) (fun n => (rfl : noFaults.fate n = .done))
  have hreboot := HostStep.up (w := swapped) hrun
  rw [noted_of_eq hsame] at hreboot
  have hjson : ∀ snap, .saved snap ∈ swapped.trace → Readable snap := by
    intro snap hmem
    rw [swapped_trace] at hmem
    rcases List.mem_cons.1 hmem with heq | hmem
    · cases heq
      exact readable_swapped
    · cases List.mem_singleton.1 hmem
      exact readable_fresh
  obtain ⟨-, -, -, -, -, -, -, hsettled⟩ :=
    hosted_refines hfresh ((((((Run.nil.snoc hboot).snoc hswap).snoc hflush).snoc hkill).snoc hcut).snoc hreboot) hinit hjson
  have hnever : ∀ fault, noFaults.fate 0 ≠ .fails fault := fun _ hfault => by cases hfault
  obtain ⟨hread, hup⟩ := hsettled (by simp [Settled, hnever])
  obtain ⟨D, hD, hasked, hnodup⟩ := hup rfl
  exact ⟨d₃, D, hD, hasked, hread, hnodup⟩

end toy

end Micronuts
