import Micronuts.Device.Protocol
import Micronuts.Device.Scanflow
import Micronuts.Gate.TokenWire

/-!
# Captures (`micronuts-app`: `command_handler.rs`, `state.rs`)

The scanner and the NFC reader hand their frames to one assembler. No sequence is bound to it at first, and then a token
that is presented in fragments is imported. A sequence in progress owns the assembler: fragments of others are refused
and change nothing, and its own are never refused.
-/

namespace Micronuts

inductive SwapState
  | idle
  | tokenImported
  | blindedGenerated
  | proofsReady
deriving DecidableEq, Repr

section
variable [Crypto] [Minicbor] [UrScanner]

/-- A blinded message of the device, with its blinder. -/
structure Blinded where
  blinded : Crypto.PublicKey
  blinder : Crypto.SecretKey

structure FirmwareState where
  importedToken : Option TokenV4
  blindedMessages : Option (List Blinded)
  swapSecrets : Option (List String)
  swapAmounts : Option (List UInt64)
  newProofs : Option (List Token.Proof)
  swapState : SwapState
  scanAssembler : ScanAssembler

namespace FirmwareState

def new : FirmwareState := ⟨none, none, none, none, none, .idle, .new⟩

end FirmwareState

/-! ### The commands -/

def QrPayload.typeByte : QrPayload → UInt8
  | .cashuV4 _ => 0x01
  | .cashuV3 _ => 0x02
  | .urFragment _ => 0x03
  | .plainText _ => 0x00
  | .binary _ => 0x04

def ScanOutcome.asmByte : ScanOutcome → UInt8
  | .tokenReady _ => 2
  | .invalidFragment => 1
  | .showPayload (.plainText _) => 3
  | _ => 0

def classifyAndAssemble (state : FirmwareState) (data : List UInt8) : Protocol.Response × FirmwareState :=
  let typeByte := (decodeQr data).typeByte
  let (outcome, scanAssembler) := state.scanAssembler.process data
  let state := { state with scanAssembler }
  let state := match outcome with
    | .tokenReady token => { state with importedToken := some token, swapState := .tokenImported }
    | _ => state
  let header := if typeByte = 0x03 then [typeByte, outcome.asmByte] else [typeByte]
  let buf := header ++ data.take (maxPayloadSize - header.length)
  ((Protocol.Response.withPayload .ok buf).getD (.new .bufferOverflow), state)

def handleScannerData (state : FirmwareState) (lastScanData : Option (List UInt8)) : Protocol.Response × FirmwareState :=
  match lastScanData with
  | some data => classifyAndAssemble state data
  | none => (.new .noScanData, state)

def handleNfcData (state : FirmwareState) (ndef : Option (List UInt8)) : Protocol.Response × FirmwareState :=
  match ndef with
  | some data => classifyAndAssemble state data
  | none => (.new .nfcNoTag, state)

/-- A command, with what the scanner or the reader has for it. -/
inductive Capture
  | scannerData (lastScanData : Option (List UInt8))
  | nfcData (ndef : Option (List UInt8))

def Capture.handle (state : FirmwareState) : Capture → Protocol.Response × FirmwareState
  | .scannerData lastScanData => handleScannerData state lastScanData
  | .nfcData ndef => handleNfcData state ndef

def CaptureStep (s : FirmwareState) (c : Capture) (s' : FirmwareState) : Prop := s' = (c.handle s).2

/-- Frames that are captured one after another. -/
def captures (s : FirmwareState) (frames : List (List UInt8)) : FirmwareState :=
  frames.foldl (fun s data => (classifyAndAssemble s data).2) s

/-! ### What a capture leaves -/

namespace ScanAssembler
variable {a : ScanAssembler}

/-- Where no sequence is bound, none has been started. -/
def Unstarted (a : ScanAssembler) : Prop := a.activeHash = none → UrScanner.collected a.ur = none

/-- A sequence is bound, and fragments of it are missing. -/
def InProgress (a : ScanAssembler) (hash : String) : Prop :=
  a.activeHash = some hash ∧ ∃ slots, UrScanner.collected a.ur = some slots ∧ none ∈ slots

/-- How a frame ends: nothing changes, or the decoder is fed a fragment of the bound sequence. -/
inductive ProcessEnds (a : ScanAssembler) (data : List UInt8) : ScanOutcome → ScanAssembler → Prop
  | kept (outcome : ScanOutcome) (other : ∀ parsed, decodeQr data = .urFragment parsed →
      outcome = .invalidFragment ∧ ∃ h, a.activeHash = some h ∧ h ≠ parsed.hash) : ProcessEnds a data outcome a
  | fed (parsed : ParsedUrFragment) (fragment : decodeQr data = .urFragment parsed)
      (bound : a.activeHash = none ∨ a.activeHash = some parsed.hash) :
      ProcessEnds a data ((⟨a.ur, some parsed.hash⟩ : ScanAssembler).feed data).1
        ((⟨a.ur, some parsed.hash⟩ : ScanAssembler).feed data).2

theorem process_ends (a : ScanAssembler) (data : List UInt8) : ProcessEnds a data (a.process data).1 (a.process data).2 := by
  rw [process]
  generalize hqr : decodeQr data = payload
  cases payload with
  | urFragment parsed =>
    obtain ⟨ur, activeHash⟩ := a
    cases activeHash with
    | none => exact .fed parsed hqr (.inl rfl)
    | some h =>
      by_cases heq : h = parsed.hash
      · subst heq
        dsimp only
        rw [if_pos rfl]
        exact .fed parsed hqr (.inr rfl)
      · dsimp only
        rw [if_neg heq]
        refine .kept _ fun parsed' hparsed => ?_
        rw [hqr] at hparsed
        cases hparsed
        exact ⟨rfl, h, rfl, heq⟩
  | cashuV4 encoded =>
    dsimp only
    split
    · exact .kept _ fun parsed hparsed => by rw [hqr] at hparsed; cases hparsed
    · exact .kept _ fun parsed hparsed => by rw [hqr] at hparsed; cases hparsed
  | cashuV3 json => exact .kept _ fun parsed hparsed => by rw [hqr] at hparsed; cases hparsed
  | plainText text => exact .kept _ fun parsed hparsed => by rw [hqr] at hparsed; cases hparsed
  | binary bytes => exact .kept _ fun parsed hparsed => by rw [hqr] at hparsed; cases hparsed

/-- How a fragment ends that is fed to the decoder. -/
inductive FeedEnds (a : ScanAssembler) (data : List UInt8) : ScanOutcome → ScanAssembler → Prop
  | token {complete : List UInt8} {token : TokenV4} (done : (UrScanner.feed a.ur data).1 = some complete)
      (ready : decodeToken complete = some token) :
      FeedEnds a data (.tokenReady token) ⟨(UrScanner.feed a.ur data).2, a.activeHash⟩
  | other {complete : List UInt8} (done : (UrScanner.feed a.ur data).1 = some complete) :
      FeedEnds a data (.showPayload (.plainText complete)) ⟨UrScanner.reset (UrScanner.feed a.ur data).2, none⟩
  | more {received total : UInt32} (missing : (UrScanner.feed a.ur data).1 = none) :
      FeedEnds a data (.keepScanning received total) ⟨(UrScanner.feed a.ur data).2, a.activeHash⟩
  | refused (missing : (UrScanner.feed a.ur data).1 = none)
      (inactive : UrScanner.collected (UrScanner.feed a.ur data).2 = none) :
      FeedEnds a data .invalidFragment ⟨(UrScanner.feed a.ur data).2, a.activeHash⟩

theorem feed_ends (a : ScanAssembler) (data : List UInt8) : FeedEnds a data (a.feed data).1 (a.feed data).2 := by
  rw [feed]
  dsimp only
  generalize hfeed : (UrScanner.feed a.ur data).1 = complete
  cases complete with
  | some complete =>
    dsimp only
    generalize htoken : decodeToken complete = token
    cases token with
    | some token => exact .token hfeed htoken
    | none => exact .other hfeed
  | none =>
    dsimp only
    by_cases hactive : UrScanner.isActive (UrScanner.feed a.ur data).2 = true
    · rw [if_pos hactive]
      exact .more hfeed
    · rw [if_neg hactive]
      refine .refused hfeed ?_
      rw [UrScanner.isActive_eq] at hactive
      simpa using hactive

theorem Unstarted.process (h : Unstarted a) (data : List UInt8) : Unstarted (a.process data).2 := by
  have hends := a.process_ends data
  generalize (a.process data).1 = outcome, (a.process data).2 = b at hends
  rcases hends with - | ⟨parsed, -, -⟩
  · exact h
  · have hfed := feed_ends ⟨a.ur, some parsed.hash⟩ data
    generalize (feed ⟨a.ur, some parsed.hash⟩ data).1 = outcome, (feed ⟨a.ur, some parsed.hash⟩ data).2 = b at hfed ⊢
    rcases hfed with - | - | - | -
    · exact nofun
    · exact fun _ => UrScanner.reset_collected _
    · exact nofun
    · exact nofun

/-- A frame that is no fragment leaves the assembler as it is. -/
theorem process_of_no_fragment {data : List UInt8} (h : ∀ parsed, decodeQr data ≠ .urFragment parsed) :
    (a.process data).2 = a := by
  have hends := a.process_ends data
  generalize (a.process data).1 = outcome, (a.process data).2 = b at hends
  rcases hends with - | ⟨parsed, hparsed, -⟩
  · rfl
  · exact absurd hparsed (h parsed)

/-- A sequence that completes as something else than a token is bound no longer. -/
theorem process_shown {data : List UInt8} {parsed : ParsedUrFragment} {payload : QrPayload}
    (hparsed : decodeQr data = .urFragment parsed) (h : (a.process data).1 = .showPayload payload) :
    (a.process data).2.activeHash = none := by
  have hends := a.process_ends data
  rw [h] at hends
  generalize hoc : ScanOutcome.showPayload payload = outcome, (a.process data).2 = b at hends
  rcases hends with ⟨_, hother⟩ | ⟨parsed', -, -⟩
  · rw [(hother parsed hparsed).1] at hoc
    cases hoc
  · have hfed := feed_ends ⟨a.ur, some parsed'.hash⟩ data
    rw [← hoc] at hfed
    generalize (feed ⟨a.ur, some parsed'.hash⟩ data).2 = b at hfed
    cases hfed with
    | other done => rfl

/-- A sequence in progress is not disturbed by what is refused. -/
theorem InProgress.refused {hash : String} (h : a.InProgress hash) (data : List UInt8) :
    (∀ parsed, decodeQr data = .urFragment parsed → parsed.hash ≠ hash → (a.process data).1 = .invalidFragment) ∧
      ((a.process data).1 = .invalidFragment → (a.process data).2 = a) := by
  obtain ⟨hbound, slots, hslots, -⟩ := h
  have hends := a.process_ends data
  generalize (a.process data).1 = outcome, (a.process data).2 = b at hends
  rcases hends with ⟨_, hother⟩ | ⟨parsed, hparsed, hhash⟩
  · exact ⟨fun parsed hparsed _ => (hother parsed hparsed).1, fun _ => rfl⟩
  · obtain rfl : hash = parsed.hash := by
      rcases hhash with hnone | hsome
      · rw [hbound] at hnone
        cases hnone
      · rw [hbound] at hsome
        exact Option.some.inj hsome
    refine ⟨fun parsed' hparsed' hne => ?_, fun hinvalid => ?_⟩
    · rw [hparsed] at hparsed'
      cases hparsed'
      exact absurd rfl hne
    · have hfed := feed_ends ⟨a.ur, some parsed.hash⟩ data
      rw [hinvalid] at hfed
      generalize (feed ⟨a.ur, some parsed.hash⟩ data).2 = b at hfed
      cases hfed with
      | refused missing inactive =>
        have hactive := UrScanner.feed_active a.ur data (by rw [hslots]; rfl) missing
        rw [inactive] at hactive
        cases hactive

omit [Crypto] [Minicbor] in
theorem Unstarted.collects (h : Unstarted a) (hnone : a.activeHash = none) (hash : String) (total : Nat) :
    Collects a hash total [] :=
  ⟨.inl hnone, .inl ⟨h hnone, rfl⟩⟩

end ScanAssembler

/-! ### Runs of captures -/

theorem classifyAndAssemble_assembler (s : FirmwareState) (data : List UInt8) :
    (classifyAndAssemble s data).2.scanAssembler = (s.scanAssembler.process data).2 := by
  rw [classifyAndAssemble]
  dsimp only
  generalize (s.scanAssembler.process data).1 = outcome
  cases outcome <;> rfl

theorem classifyAndAssemble_ready {s : FirmwareState} {data : List UInt8} {token : TokenV4}
    (h : (s.scanAssembler.process data).1 = .tokenReady token) :
    (classifyAndAssemble s data).2.importedToken = some token ∧
    (classifyAndAssemble s data).2.swapState = .tokenImported := by
  rw [classifyAndAssemble]
  dsimp only
  rw [h]
  exact ⟨rfl, rfl⟩

/-- A token that is ready at last is imported. -/
theorem captures_imported {s : FirmwareState} {frames : List (List UInt8)} {token : TokenV4}
    (h : (s.scanAssembler.processAll frames).1.getLast? = some (.tokenReady token)) :
    (captures s frames).importedToken = some token ∧ (captures s frames).swapState = .tokenImported := by
  induction frames generalizing s with
  | nil => cases h
  | cons frame frames ih =>
    rw [ScanAssembler.processAll, ← classifyAndAssemble_assembler] at h
    cases frames with
    | nil => exact classifyAndAssemble_ready (Option.some.inj h)
    | cons frame' frames =>
      refine ih ?_
      rw [ScanAssembler.processAll] at h ⊢
      rw [← h, List.getLast?_cons_cons]

theorem Capture.assembler (s : FirmwareState) (c : Capture) :
    (c.handle s).2.scanAssembler = s.scanAssembler ∨
      ∃ data, (c.handle s).2.scanAssembler = (s.scanAssembler.process data).2 := by
  rcases c with ⟨_ | data⟩ | ⟨_ | data⟩
  · exact .inl rfl
  · exact .inr ⟨data, classifyAndAssemble_assembler s data⟩
  · exact .inl rfl
  · exact .inr ⟨data, classifyAndAssemble_assembler s data⟩

/-- After any captures that leave no sequence bound, a token presented in fragments is ready at the last of them, and
imported. While a sequence is in progress, fragments of others are refused, and what is refused changes nothing. Frames
that are no fragments change nothing either, and a sequence that completes as something else is bound no longer. -/
theorem scans_complete {h : List (Step FirmwareState Capture)} {s : FirmwareState}
    (hrun : Run CaptureStep FirmwareState.new h s) :
    (s.scanAssembler.activeHash = none →
      ∀ (hash : String) (total : UInt32) (frames chunks : List (List UInt8)) (token : TokenV4),
        ScanAssembler.Fragments hash total 0 frames chunks → frames ≠ [] → frames.length = total.toNat →
        decodeToken chunks.flatten = some token →
          (s.scanAssembler.processAll frames).1.getLast? = some (.tokenReady token) ∧
            (captures s frames).importedToken = some token ∧ (captures s frames).swapState = .tokenImported) ∧
    (∀ hash, s.scanAssembler.InProgress hash → ∀ data,
      (∀ parsed, decodeQr data = .urFragment parsed → parsed.hash ≠ hash →
        (s.scanAssembler.process data).1 = .invalidFragment) ∧
      ((s.scanAssembler.process data).1 = .invalidFragment → (s.scanAssembler.process data).2 = s.scanAssembler)) ∧
    (∀ data, (∀ parsed, decodeQr data ≠ .urFragment parsed) → (s.scanAssembler.process data).2 = s.scanAssembler) ∧
    ∀ data parsed payload, decodeQr data = .urFragment parsed →
      (s.scanAssembler.process data).1 = .showPayload payload →
        (s.scanAssembler.process data).2.activeHash = none := by
  have hunstarted : s.scanAssembler.Unstarted := by
    refine Run.invariant_state (G := fun _ => True) (I := fun s => s.scanAssembler.Unstarted)
      (fun _ => UrScanner.new_collected) ?_ hrun fun _ _ => trivial
    intro s c s' _ hs hstep
    rw [show s' = (c.handle s).2 from hstep]
    rcases c.assembler s with hkept | ⟨data, hprocess⟩
    · rw [hkept]
      exact hs
    · rw [hprocess]
      exact hs.process data
  refine ⟨fun hnone hash total frames chunks token hframes hne hlen htoken => ?_,
    fun hash hprogress data => hprogress.refused data, fun data => ScanAssembler.process_of_no_fragment,
    fun data parsed payload => ScanAssembler.process_shown⟩
  have hready := (hunstarted.collects hnone hash total.toNat).processAll hframes hne (by simpa using hlen) htoken
  exact ⟨hready, captures_imported hready⟩

end

section toy
open Toy32 ToyCbor

namespace ToyUr

/-- The bytes up to a separator, and those behind it. -/
def field (sep : UInt8) (data : List UInt8) : Option (List UInt8 × List UInt8) :=
  match data.dropWhile (· ≠ sep) with
  | [] => none
  | _ :: rest => some (data.takeWhile (· ≠ sep), rest)

def number (digits : List UInt8) : Option UInt32 :=
  digits.foldl (fun n b => n.bind fun n => if 0x30 ≤ b ∧ b ≤ 0x39 then some (n * 10 + (b - 0x30).toUInt32) else none)
    (if digits = [] then none else some 0)

/-- `ur:<type>/<index>-<total>/<hash>/<data>`. -/
def parse (data : List UInt8) : Option ParsedUrFragment := do
  let (ur, data) ← field 0x3A data
  if ur = [0x75, 0x72] then
    let (_, data) ← field 0x2F data
    let (index, data) ← field 0x2D data
    let (total, data) ← field 0x2F data
    let (hash, data) ← field 0x2F data
    return ⟨← number index, ← number total, String.ofList (hash.map fun b => Char.ofNat b.toNat), data⟩
  else none

/-- The slot of a fragment is filled, if there is one. -/
def feed (d : Option (List (Option (List UInt8)))) (data : List UInt8) :
    Option (List UInt8) × Option (List (Option (List UInt8))) :=
  match parse data with
  | none => (none, d)
  | some f =>
    let slots := d.getD (List.replicate f.total.toNat none)
    if f.index.toNat = 0 ∨ slots.length < f.index.toNat then (none, d)
    else
      let slots := slots.set (f.index.toNat - 1) (some f.data)
      if none ∈ slots then (none, some slots) else (some slots.reduceOption.flatten, some slots)

theorem feed_eq {d : Option (List (Option (List UInt8)))} {data : List UInt8} {f : ParsedUrFragment}
    {slots : List (Option (List UInt8))} (hparse : parse data = some f) (hidx : 0 < f.index.toNat)
    (hlen : slots.length = f.total.toNat) (hslots : d = none ∧ slots = List.replicate slots.length none ∨ d = some slots)
    (hfree : slots[f.index.toNat - 1]? = some none) :
    feed d data = if none ∈ slots.set (f.index.toNat - 1) (some f.data)
      then (none, some (slots.set (f.index.toNat - 1) (some f.data)))
      else (some (slots.set (f.index.toNat - 1) (some f.data)).reduceOption.flatten,
        some (slots.set (f.index.toNat - 1) (some f.data))) := by
  have hget : d.getD (List.replicate f.total.toNat none) = slots := by
    rcases hslots with ⟨rfl, hslots⟩ | rfl
    · rw [Option.getD_none, ← hlen]
      exact hslots.symm
    · rfl
  have hlt := (List.getElem?_eq_some_iff.1 hfree).1
  rw [feed, hparse]
  dsimp only
  rw [hget, if_neg (by omega)]

instance scanner : UrScanner where
  parseUrFragment := parse
  classifyPayload data := if (asBytes "cashuB").isPrefixOf data then .cashuV4 else .plainText
  UrDecoder := Option (List (Option (List UInt8)))
  new := none
  reset _ := none
  feed := feed
  progress d := d.elim (0, 0) fun slots => (UInt32.ofNat slots.reduceOption.length, UInt32.ofNat slots.length)
  isActive d := d.isSome
  collected d := d
  new_collected := rfl
  reset_collected _ := rfl
  isActive_eq _ := rfl
  feed_more d data f slots hparse hidx hlen hslots hfree hmissing := by
    rw [feed_eq hparse hidx hlen hslots hfree, if_pos hmissing]
    exact ⟨rfl, rfl⟩
  feed_last d data f slots hparse hidx hlen hslots hfree hfull := by
    rw [feed_eq hparse hidx hlen hslots hfree, if_neg hfull]
  feed_active d data hd _ := by
    rw [feed]
    cases parse data with
    | none => exact hd
    | some f =>
      dsimp only
      split_ifs
      · exact hd
      · rfl
      · rfl

def fragment (index hash : Char) (chunk : List UInt8) : List UInt8 :=
  asBytes "ur:bytes/" ++ index.toUInt8 :: (asBytes "-2/" ++ hash.toUInt8 :: 0x2F :: chunk)

def tokenText : String := "cashuB" ++ encodeBase64url (openBody ++ [1, 2, 3])

def chunks : List (List UInt8) := [(asBytes tokenText).take 30, (asBytes tokenText).drop 30]

/-- The token in two fragments. -/
def frames (hash : Char) : List (List UInt8) :=
  [fragment '1' hash ((asBytes tokenText).take 30), fragment '2' hash ((asBytes tokenText).drop 30)]

theorem chunks_token : decodeToken chunks.flatten = some (signed [1, 2, 3]) := by
  have hflatten : chunks.flatten = asBytes tokenText := by
    show List.take 30 _ ++ (List.drop 30 _ ++ []) = _
    rw [List.append_nil, List.take_append_drop]
  rw [hflatten]
  exact decodeToken_text (by decide +kernel)

theorem frames_fragments : ScanAssembler.Fragments "b" 2 0 (frames 'b') chunks :=
  .cons ⟨by decide +kernel, by decide +kernel⟩ (.cons ⟨by decide +kernel, by decide +kernel⟩ .nil)

end ToyUr

open ToyUr

theorem scans_complete_toy : (captures .new (frames 'b')).importedToken = some (signed [1, 2, 3]) :=
  ((scans_complete Run.nil).1 rfl "b" 2 (frames 'b') chunks _ frames_fragments (by simp [frames]) rfl chunks_token).2.1

/-- What one fragment of a sequence leaves. -/
def abandoned : FirmwareState := (Capture.handle .new (.scannerData (some (fragment '1' 'a' [0x78])))).2

theorem abandoned_inProgress : abandoned.scanAssembler.InProgress "a" := by
  refine ⟨by decide +kernel, [some [0x78], none], by decide +kernel, by simp⟩

/-- After one fragment of a sequence that is left there, the fragments of a token are refused. -/
theorem abandoned_sequence_refuses :
    Run CaptureStep .new [⟨.new, .scannerData (some (fragment '1' 'a' [0x78])), abandoned⟩] abandoned ∧
    ScanAssembler.Fragments "b" 2 0 (frames 'b') chunks ∧ decodeToken chunks.flatten = some (signed [1, 2, 3]) ∧
    (abandoned.scanAssembler.processAll (frames 'b')).1 = [.invalidFragment, .invalidFragment] := by
  refine ⟨Run.nil.snoc rfl, frames_fragments, chunks_token, ?_⟩
  have hrefused : ∀ frame ∈ frames 'b', (abandoned.scanAssembler.process frame).1 = .invalidFragment := by
    intro frame hframe
    obtain ⟨parsed, hparsed, hhash⟩ : ∃ parsed, decodeQr frame = .urFragment parsed ∧ parsed.hash = "b" := by
      rcases List.mem_cons.1 hframe with rfl | hframe
      · exact ⟨⟨1, 2, "b", (asBytes tokenText).take 30⟩, by decide +kernel, rfl⟩
      · obtain rfl := List.mem_singleton.1 hframe
        exact ⟨⟨2, 2, "b", (asBytes tokenText).drop 30⟩, by decide +kernel, rfl⟩
    exact (abandoned_inProgress.refused frame).1 parsed hparsed (by rw [hhash]; decide)
  obtain ⟨hfirst, hsecond⟩ := List.forall_mem_cons.1 hrefused
  have hkept := (abandoned_inProgress.refused _).2 hfirst
  show [_, (ScanAssembler.process (ScanAssembler.process _ _).2 _).1] = _
  rw [hkept, hfirst, hsecond _ (List.mem_singleton.2 rfl)]

end toy

end Micronuts
