import Mathlib.Data.List.ReduceOption
import Micronuts.Nuts.TokenEncode

/-!
# Scanned frames (`micronuts-app`: `qr/mod.rs`, `scanflow.rs`)

A scanned frame is a token, a fragment of a sequence, or something to show. The fragments of one sequence are put
together by a decoder of the scanner crate, of which `UrScanner` lists what the code uses and relies on: it collects the
fragments of one sequence by index, and gives their concatenation once all are there.
-/

namespace Micronuts

/-! ### Slots -/

section
variable {α : Type}

/-- The slots of a sequence of which the first fragments are there. -/
def slotsOf (total : Nat) (done : List α) : List (Option α) :=
  done.map some ++ List.replicate (total - done.length) none

theorem slotsOf_length {total : Nat} {done : List α} (h : done.length ≤ total) :
    (slotsOf total done).length = total := by
  rw [slotsOf, List.length_append, List.length_map, List.length_replicate]
  omega

theorem slotsOf_free {total : Nat} {done : List α} (h : done.length < total) :
    (slotsOf total done)[done.length]? = some none := by
  rw [slotsOf, List.getElem?_append_right (by simp), List.length_map, Nat.sub_self, List.getElem?_replicate,
    if_pos (by omega)]

theorem slotsOf_set {total : Nat} {done : List α} (h : done.length < total) (chunk : α) :
    (slotsOf total done).set done.length (some chunk) = slotsOf total (done ++ [chunk]) := by
  obtain ⟨n, hn⟩ : ∃ n, total - done.length = n + 1 := ⟨total - done.length - 1, by omega⟩
  rw [slotsOf, List.set_append_right _ _ (by simp), List.length_map, Nat.sub_self, hn, slotsOf, List.map_append,
    List.append_assoc, List.length_append, List.length_singleton, show total - (done.length + 1) = n by omega]
  rfl

theorem none_mem_slotsOf {total : Nat} {done : List α} : none ∈ slotsOf total done ↔ done.length < total := by
  simp only [slotsOf, List.mem_append, List.mem_map, List.mem_replicate]
  constructor
  · rintro (⟨d, -, hd⟩ | ⟨hne, -⟩)
    · cases hd
    · omega
  · intro h
    exact .inr ⟨by omega, trivial⟩

theorem reduceOption_map_some (done : List α) : (done.map some).reduceOption = done := by
  induction done with
  | nil => rfl
  | cons d done ih => rw [List.map_cons, List.reduceOption_cons_of_some, ih]

theorem toNat_ofNat_succ {n : Nat} {total : UInt32} (h : n < total.toNat) : (UInt32.ofNat (n + 1)).toNat = n + 1 := by
  have := total.toNat_lt
  rw [UInt32.toNat_ofNat']
  omega

end

/-! ### The scanner crate, and what a frame is -/

structure ParsedUrFragment where
  index : UInt32
  total : UInt32
  hash : String
  data : List UInt8
deriving DecidableEq

inductive PayloadType
  | cashuV4
  | cashuV3
  | urFragment
  | url
  | plainText
  | binary
deriving DecidableEq, Repr

/-- The scanner crate. `collected`: nothing while no sequence has been started, else a slot for each of its fragments. -/
class UrScanner where
  parseUrFragment : List UInt8 → Option ParsedUrFragment
  classifyPayload : List UInt8 → PayloadType
  UrDecoder : Type
  new : UrDecoder
  reset : UrDecoder → UrDecoder
  feed : UrDecoder → List UInt8 → Option (List UInt8) × UrDecoder
  progress : UrDecoder → UInt32 × UInt32
  isActive : UrDecoder → Bool
  collected : UrDecoder → Option (List (Option (List UInt8)))
  new_collected : collected new = none
  reset_collected : ∀ d, collected (reset d) = none
  isActive_eq : ∀ d, isActive d = (collected d).isSome
  -- a fragment for an empty slot, of the sequence that is being collected or of one that it starts
  feed_more : ∀ d data f slots, parseUrFragment data = some f → 0 < f.index.toNat → slots.length = f.total.toNat →
    (collected d = none ∧ slots = List.replicate slots.length none ∨ collected d = some slots) →
    slots[f.index.toNat - 1]? = some none → none ∈ slots.set (f.index.toNat - 1) (some f.data) →
    (feed d data).1 = none ∧ collected (feed d data).2 = some (slots.set (f.index.toNat - 1) (some f.data))
  feed_last : ∀ d data f slots, parseUrFragment data = some f → 0 < f.index.toNat → slots.length = f.total.toNat →
    (collected d = none ∧ slots = List.replicate slots.length none ∨ collected d = some slots) →
    slots[f.index.toNat - 1]? = some none → none ∉ slots.set (f.index.toNat - 1) (some f.data) →
    (feed d data).1 = some ((slots.set (f.index.toNat - 1) (some f.data)).reduceOption.flatten)
  -- a sequence stays the one that is being collected until it is complete
  feed_active : ∀ d data, (collected d).isSome → (feed d data).1 = none → (collected (feed d data).2).isSome

variable [UrScanner]

inductive QrPayload
  | cashuV4 (encoded : List UInt8)
  | cashuV3 (json : List UInt8)
  | urFragment (parsed : ParsedUrFragment)
  | plainText (data : List UInt8)
  | binary (data : List UInt8)
deriving DecidableEq

/-- Without the zeros, line ends and spaces at the end. -/
def stripScannerArtifacts (data : List UInt8) : List UInt8 :=
  (data.reverse.dropWhile fun b => b = 0x00 ∨ b = 0x0A ∨ b = 0x0D ∨ b = 0x20).reverse

def decodeQr (data : List UInt8) : QrPayload :=
  let data := stripScannerArtifacts data
  match UrScanner.parseUrFragment data with
  | some fragment => .urFragment fragment
  | none =>
    match UrScanner.classifyPayload data with
    | .cashuV4 => .cashuV4 data
    | .cashuV3 => .cashuV3 data
    | .url | .plainText => .plainText data
    | .binary => .binary data
    | .urFragment => .plainText data

/-! ### The assembler -/

variable [Crypto] [Minicbor]

inductive ScanOutcome
  | keepScanning (received total : UInt32)
  | tokenReady (token : TokenV4)
  | showPayload (payload : QrPayload)
  | invalidFragment

structure ScanAssembler where
  ur : UrScanner.UrDecoder
  activeHash : Option String

namespace ScanAssembler

def new : ScanAssembler := ⟨UrScanner.new, none⟩

def reset (a : ScanAssembler) : ScanAssembler := ⟨UrScanner.reset a.ur, none⟩

def progress (a : ScanAssembler) : UInt32 × UInt32 := UrScanner.progress a.ur

/-- What a fragment does that belongs to the bound sequence. -/
def feed (a : ScanAssembler) (data : List UInt8) : ScanOutcome × ScanAssembler :=
  let (complete, ur) := UrScanner.feed a.ur data
  let a := { a with ur }
  match complete with
  | some complete =>
    match decodeToken complete with
    | some token => (.tokenReady token, a)
    | none => (.showPayload (.plainText complete), a.reset)
  | none =>
    if UrScanner.isActive a.ur then (.keepScanning a.progress.1 a.progress.2, a) else (.invalidFragment, a)

def process (a : ScanAssembler) (data : List UInt8) : ScanOutcome × ScanAssembler :=
  match decodeQr data with
  | .urFragment parsed =>
    match a.activeHash with
    | none => { a with activeHash := some parsed.hash }.feed data
    | some h => if h = parsed.hash then a.feed data else (.invalidFragment, a)
  | .cashuV4 encoded =>
    match decodeToken encoded with
    | some token => (.tokenReady token, a)
    | none => (.showPayload (.cashuV4 encoded), a)
  | other => (.showPayload other, a)

def processAll (a : ScanAssembler) : List (List UInt8) → List ScanOutcome × ScanAssembler
  | [] => ([], a)
  | data :: rest => ((a.process data).1 :: ((a.process data).2.processAll rest).1, ((a.process data).2.processAll rest).2)

/-! ### A sequence from its first fragment to its last -/

/-- What the code and the decoder read of a scanned frame. -/
def Presents (data : List UInt8) (f : ParsedUrFragment) : Prop :=
  UrScanner.parseUrFragment data = some f ∧ UrScanner.parseUrFragment (stripScannerArtifacts data) = some f

/-- Frames with the fragments of a sequence, from the one at place `i` on. -/
inductive Fragments (hash : String) (total : UInt32) : Nat → List (List UInt8) → List (List UInt8) → Prop
  | nil {i : Nat} : Fragments hash total i [] []
  | cons {i : Nat} {frame chunk : List UInt8} {frames chunks : List (List UInt8)}
      (presents : Presents frame ⟨UInt32.ofNat (i + 1), total, hash, chunk⟩)
      (rest : Fragments hash total (i + 1) frames chunks) :
      Fragments hash total i (frame :: frames) (chunk :: chunks)

/-- No other sequence is bound, and these are the fragments that are there. -/
structure Collects (a : ScanAssembler) (hash : String) (total : Nat) (done : List (List UInt8)) : Prop where
  bound : a.activeHash = none ∨ a.activeHash = some hash
  slots : UrScanner.collected a.ur = none ∧ done = [] ∨
    UrScanner.collected a.ur = some (slotsOf total done)

variable {a : ScanAssembler} {hash : String}

theorem process_fragment {data : List UInt8} {f : ParsedUrFragment} (h : Presents data f)
    (hbound : a.activeHash = none ∨ a.activeHash = some f.hash) :
    a.process data = (⟨a.ur, some f.hash⟩ : ScanAssembler).feed data := by
  rw [process, decodeQr, h.2]
  rcases hbound with hnone | hsome
  · dsimp only
    rw [hnone]
  · dsimp only
    rw [hsome]
    dsimp only
    rw [if_pos rfl]
    obtain ⟨ur, activeHash⟩ := a
    obtain rfl : activeHash = some f.hash := hsome
    rfl

namespace Collects
variable {total : UInt32} {done : List (List UInt8)} {frame chunk : List UInt8}

omit [Crypto] [Minicbor] in
theorem slots_eq (h : Collects a hash total.toNat done) :
    UrScanner.collected a.ur = none ∧ slotsOf total.toNat done = List.replicate (slotsOf total.toNat done).length none ∨
      UrScanner.collected a.ur = some (slotsOf total.toNat done) := by
  rcases h.slots with ⟨hnone, rfl⟩ | hsome
  · refine .inl ⟨hnone, ?_⟩
    simp [slotsOf]
  · exact .inr hsome

/-- A fragment that is not the last. -/
theorem process_more (h : Collects a hash total.toNat done) (hlen : done.length + 1 < total.toNat)
    (hframe : Presents frame ⟨UInt32.ofNat (done.length + 1), total, hash, chunk⟩) :
    ∃ received all, (a.process frame).1 = .keepScanning received all ∧
      Collects (a.process frame).2 hash total.toNat (done ++ [chunk]) := by
  have hidx := toNat_ofNat_succ (show done.length < total.toNat by omega)
  have hset := slotsOf_set (show done.length < total.toNat by omega) chunk
  obtain ⟨hfeed, hcollected⟩ := UrScanner.feed_more a.ur frame _ (slotsOf total.toNat done) hframe.1
    (by rw [hidx]; omega) (slotsOf_length (by omega)) h.slots_eq
    (by rw [hidx]; exact slotsOf_free (by omega))
    (by rw [hidx]; exact hset ▸ none_mem_slotsOf.2 (by simpa using hlen))
  rw [hidx] at hcollected
  have hactive : UrScanner.isActive (UrScanner.feed a.ur frame).2 = true := by
    rw [UrScanner.isActive_eq, hcollected]
    rfl
  rw [process_fragment hframe h.bound, feed]
  dsimp only
  rw [hfeed]
  dsimp only
  rw [if_pos hactive]
  refine ⟨_, _, rfl, .inr rfl, .inr ?_⟩
  rw [hcollected]
  exact congrArg some hset

theorem process_last (h : Collects a hash total.toNat done) (hlen : done.length + 1 = total.toNat)
    (hframe : Presents frame ⟨UInt32.ofNat (done.length + 1), total, hash, chunk⟩) {token : TokenV4}
    (htoken : decodeToken (done ++ [chunk]).flatten = some token) : (a.process frame).1 = .tokenReady token := by
  have hidx := toNat_ofNat_succ (show done.length < total.toNat by omega)
  have hset := slotsOf_set (show done.length < total.toNat by omega) chunk
  have hfull : slotsOf total.toNat (done ++ [chunk]) = (done ++ [chunk]).map some := by
    rw [slotsOf, List.length_append, List.length_singleton, hlen, Nat.sub_self]
    exact List.append_nil _
  have hfeed := UrScanner.feed_last a.ur frame _ (slotsOf total.toNat done) hframe.1
    (by rw [hidx]; omega) (slotsOf_length (by omega)) h.slots_eq
    (by rw [hidx]; exact slotsOf_free (by omega))
    (by rw [hidx]; exact hset ▸ fun hmem => absurd (none_mem_slotsOf.1 hmem) (by simp; omega))
  rw [hidx] at hfeed
  have hbytes : (UrScanner.feed a.ur frame).1 = some (done ++ [chunk]).flatten := by
    refine hfeed.trans ?_
    show some (List.flatten (List.reduceOption ((slotsOf total.toNat done).set done.length (some chunk)))) = _
    rw [hset, hfull, reduceOption_map_some]
  rw [process_fragment hframe h.bound, feed]
  dsimp only
  rw [hbytes]
  dsimp only
  rw [htoken]

end Collects

/-- All the fragments that are left of a token. -/
theorem Collects.processAll {total : UInt32} {done frames chunks : List (List UInt8)} {token : TokenV4}
    (h : Collects a hash total.toNat done) (hframes : Fragments hash total done.length frames chunks) (hne : frames ≠ [])
    (hlen : done.length + frames.length = total.toNat) (htoken : decodeToken (done ++ chunks).flatten = some token) :
    (a.processAll frames).1.getLast? = some (.tokenReady token) := by
  generalize hi : done.length = i at hframes
  induction hframes generalizing a done with
  | nil => exact absurd rfl hne
  | @cons i frame chunk frames chunks presents rest ih =>
    subst hi
    rw [ScanAssembler.processAll]
    cases rest with
    | nil =>
      rw [h.process_last hlen presents htoken]
      rfl
    | cons presents' rest' =>
      rw [List.length_cons, List.length_cons] at hlen
      obtain ⟨-, -, -, hnext⟩ := h.process_more (by omega) presents
      have hlast := ih hnext (by simp) (by simp; omega) (by simpa using htoken) (by simp)
      rw [List.getLast?_cons, hlast]
      rfl

end ScanAssembler

end Micronuts
