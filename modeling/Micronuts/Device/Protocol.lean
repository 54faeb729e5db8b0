import Micronuts.Lib.Hex
import Micronuts.Lib.Run

/-!
# The USB protocol of the device (`micronuts-app`: `protocol.rs`)

A frame is a command byte, two bytes for the length of the payload, and the payload. The decoder is a state machine fed
byte by byte; it skips headers with too large a length and frames with an unknown command. `Open d p`: the decoder has
read `p` of what comes next. The rounds of the loop take `Open` to `Open` (`RoundEnds`).
-/

namespace Micronuts

def maxPayloadSize : Nat := 1024

inductive Command
  | importToken
  | getTokenInfo
  | getBlinded
  | sendSignatures
  | getProofs
  | scannerStatus
  | scannerTrigger
  | scannerData
  | scannerHeal
  | scannerFactoryHeal
  | nfcPoll
  | nfcData
  | nfcHeal
deriving DecidableEq, Repr

namespace Command

/-- `as u8`. -/
def toByte : Command → UInt8
  | importToken => 0x01
  | getTokenInfo => 0x02
  | getBlinded => 0x03
  | sendSignatures => 0x04
  | getProofs => 0x05
  | scannerStatus => 0x10
  | scannerTrigger => 0x11
  | scannerData => 0x12
  | scannerHeal => 0x13
  | scannerFactoryHeal => 0x14
  | nfcPoll => 0x15
  | nfcData => 0x16
  | nfcHeal => 0x17

def fromByte (byte : UInt8) : Option Command :=
  if byte = 0x01 then some importToken
  else if byte = 0x02 then some getTokenInfo
  else if byte = 0x03 then some getBlinded
  else if byte = 0x04 then some sendSignatures
  else if byte = 0x05 then some getProofs
  else if byte = 0x10 then some scannerStatus
  else if byte = 0x11 then some scannerTrigger
  else if byte = 0x12 then some scannerData
  else if byte = 0x13 then some scannerHeal
  else if byte = 0x14 then some scannerFactoryHeal
  else if byte = 0x15 then some nfcPoll
  else if byte = 0x16 then some nfcData
  else if byte = 0x17 then some nfcHeal
  else none

@[simp] theorem fromByte_toByte (c : Command) : fromByte c.toByte = some c := by cases c <;> rfl

theorem toByte_of_fromByte {byte : UInt8} {c : Command} (h : fromByte byte = some c) : c.toByte = byte := by
  refine @forall_byte (fun byte => ∀ c ∈ fromByte byte, c.toByte = byte) ?_ byte c h
  decide +kernel

end Command

namespace Protocol

inductive Status
  | ok
  | error
  | invalidCommand
  | invalidPayload
  | bufferOverflow
  | cryptoError
  | scannerNotConnected
  | scannerBusy
  | noScanData
  | nfcNotConnected
  | nfcNoTag
deriving DecidableEq, Repr

namespace Status

def toByte : Status → UInt8
  | ok => 0x00
  | error => 0xFF
  | invalidCommand => 0x01
  | invalidPayload => 0x02
  | bufferOverflow => 0x03
  | cryptoError => 0x04
  | scannerNotConnected => 0x10
  | scannerBusy => 0x11
  | noScanData => 0x12
  | nfcNotConnected => 0x20
  | nfcNoTag => 0x21

end Status

end Protocol

/-! ### Frames -/

/-- The payload is what `payload()` reads of the buffer; behind it the buffer is zero. -/
structure Frame where
  command : Command
  payload : List UInt8
  payload_le : payload.length ≤ maxPayloadSize
deriving DecidableEq

namespace Frame

def new (command : Command) : Frame := ⟨command, [], by decide⟩

def withPayload (command : Command) (data : List UInt8) : Option Frame :=
  if h : data.length ≤ maxPayloadSize then some ⟨command, data, h⟩ else none

def length (f : Frame) : UInt16 := UInt16.ofNat f.payload.length

def encodedSize (f : Frame) : Nat := 3 + f.length.toNat

/-- What `encode` writes. -/
def bytes (f : Frame) : List UInt8 :=
  f.command.toByte :: (f.length >>> 8).toUInt8 :: (f.length &&& 0xFF).toUInt8 :: f.payload

/-- How many bytes are written, and the buffer after. -/
def encode (f : Frame) (buf : List UInt8) : Nat × List UInt8 :=
  if buf.length < f.encodedSize then (0, buf) else (f.encodedSize, f.bytes ++ buf.drop f.encodedSize)

end Frame

/-- The length in a header. -/
def announced (hi lo : UInt8) : UInt16 := hi.toUInt16 <<< 8 ||| lo.toUInt16

theorem announced_toNat (hi lo : UInt8) : (announced hi lo).toNat = hi.toNat * 256 + lo.toNat := by
  have hhi := hi.toNat_lt
  have hlo := lo.toNat_lt
  rw [announced, UInt16.toNat_or, UInt16.toNat_shiftLeft, UInt8.toNat_toUInt16, UInt8.toNat_toUInt16]
  have hshift : hi.toNat <<< 8 % 2 ^ 16 = hi.toNat <<< 8 := Nat.mod_eq_of_lt (by rw [Nat.shiftLeft_eq]; omega)
  show hi.toNat <<< 8 % 2 ^ 16 ||| lo.toNat = _
  rw [hshift, ← Nat.shiftLeft_add_eq_or_of_lt (by omega), Nat.shiftLeft_eq]

namespace Frame

@[simp] theorem length_toNat (f : Frame) : f.length.toNat = f.payload.length := by
  have hle := f.payload_le
  rw [maxPayloadSize] at hle
  rw [length, UInt16.toNat_ofNat']
  omega

/-- The header announces the length of the payload. -/
theorem announced_length (f : Frame) : announced (f.length >>> 8).toUInt8 (f.length &&& 0xFF).toUInt8 = f.length := by
  have hle := f.payload_le
  rw [maxPayloadSize] at hle
  apply UInt16.toNat_inj.1
  rw [announced_toNat, UInt16.toNat_toUInt8, UInt16.toNat_toUInt8, UInt16.toNat_shiftRight, UInt16.toNat_and, length_toNat]
  show _ >>> 8 % 256 * 256 + (_ &&& 2 ^ 8 - 1) % 256 = _
  rw [Nat.and_two_pow_sub_one_eq_mod, Nat.shiftRight_eq_div_pow]
  omega

/-- A frame with a header is the encoding of it. -/
theorem bytes_of_announced {byte hi lo : UInt8} (f : Frame) (hcmd : Command.fromByte byte = some f.command)
    (hlen : f.payload.length = (announced hi lo).toNat) : f.bytes = byte :: hi :: lo :: f.payload := by
  have hlo := lo.toNat_lt
  have hhi := hi.toNat_lt
  rw [announced_toNat] at hlen
  rw [bytes, Command.toByte_of_fromByte hcmd]
  congr 2
  · apply UInt8.toNat_inj.1
    rw [UInt16.toNat_toUInt8, UInt16.toNat_shiftRight, length_toNat, hlen]
    show _ >>> 8 % 256 = _
    rw [Nat.shiftRight_eq_div_pow]
    omega
  · congr 1
    apply UInt8.toNat_inj.1
    rw [UInt16.toNat_toUInt8, UInt16.toNat_and, length_toNat, hlen]
    show (_ &&& 2 ^ 8 - 1) % 256 = _
    rw [Nat.and_two_pow_sub_one_eq_mod]
    omega

end Frame

namespace Protocol

structure Response where
  status : Status
  payload : List UInt8
  payload_le : payload.length ≤ maxPayloadSize
deriving DecidableEq

namespace Response

def new (status : Status) : Response := ⟨status, [], by decide⟩

def withPayload (status : Status) (data : List UInt8) : Option Response :=
  if h : data.length ≤ maxPayloadSize then some ⟨status, data, h⟩ else none

end Response

end Protocol

/-! ### The decoder -/

inductive DecodeState
  | idle
  | lenHigh
  | lenLow
  | payload
deriving DecidableEq, Repr

structure FrameDecoder where
  state : DecodeState
  commandByte : UInt8
  length : UInt16
  payloadIdx : Nat
  payload : List UInt8
  payload_length : payload.length = maxPayloadSize
deriving DecidableEq

/-- How a round of the loop in `decode` ends: a write outside the buffer is a panic. -/
inductive Round
  | panics
  | continues (d : FrameDecoder)
  | returns (d : FrameDecoder) (frame : Option Frame)
deriving DecidableEq

namespace FrameDecoder

def new : FrameDecoder := ⟨.idle, 0, 0, 0, List.replicate maxPayloadSize 0, List.length_replicate⟩

def reset (d : FrameDecoder) : FrameDecoder := { d with state := .idle, commandByte := 0, length := 0, payloadIdx := 0 }

/-- The write, and the index after it. -/
def put (d : FrameDecoder) (byte : UInt8) : FrameDecoder :=
  { d with
    payload := d.payload.set d.payloadIdx byte
    payload_length := by rw [List.length_set, d.payload_length]
    payloadIdx := d.payloadIdx + 1 }

def round (d : FrameDecoder) (byte : UInt8) : Round :=
  match d.state with
  | .idle => .continues { d with commandByte := byte, state := .lenHigh }
  | .lenHigh => .continues { d with length := byte.toUInt16 <<< 8, state := .lenLow }
  | .lenLow =>
    let d : FrameDecoder := { d with length := d.length ||| byte.toUInt16 }
    if maxPayloadSize < d.length.toNat then .continues d.reset
    else if d.length = 0 then
      match Command.fromByte d.commandByte with
      | none => .continues d.reset
      | some cmd => .returns d.reset (some (.new cmd))
    else .continues { d with payloadIdx := 0, state := .payload }
  | .payload =>
    if d.payloadIdx < maxPayloadSize then
      let d := d.put byte
      if d.length.toNat ≤ d.payloadIdx then
        match Command.fromByte d.commandByte with
        | none => .continues d.reset
        | some cmd => .returns d.reset (Frame.withPayload cmd (d.payload.take d.payloadIdx))
      else .continues d
    else .panics

/-- `none` for a panic. -/
def decode (d : FrameDecoder) : List UInt8 → Option (FrameDecoder × Option Frame)
  | [] => some (d, none)
  | byte :: data =>
    match d.round byte with
    | .panics => none
    | .continues d => d.decode data
    | .returns d frame => some (d, frame)

/-- A call of `decode` for each chunk, as for each packet that is received. -/
def decodeChunks (d : FrameDecoder) : List (List UInt8) → Option (FrameDecoder × List Frame)
  | [] => some (d, [])
  | chunk :: chunks => do
    let (d, frame) ← d.decode chunk
    let (d, frames) ← d.decodeChunks chunks
    return (d, frame.toList ++ frames)

/-! ### What the decoder has read -/

/-- What the decoder skips: a header with too large a length, or the frame of an unknown command. -/
inductive Junk : List UInt8 → Prop
  | oversized (command hi lo : UInt8) (large : maxPayloadSize < (announced hi lo).toNat) : Junk [command, hi, lo]
  | unknown (command hi lo : UInt8) (payload : List UInt8) (unknown : Command.fromByte command = none)
      (length : payload.length = (announced hi lo).toNat) (small : (announced hi lo).toNat ≤ maxPayloadSize) :
      Junk (command :: hi :: lo :: payload)

/-- The decoder has read these bytes of a frame, or of something it skips. -/
inductive Open : FrameDecoder → List UInt8 → Prop
  | idle {d : FrameDecoder} (state : d.state = .idle) : Open d []
  | command {d : FrameDecoder} (state : d.state = .lenHigh) : Open d [d.commandByte]
  | lenHigh {d : FrameDecoder} (hi : UInt8) (state : d.state = .lenLow) (length : d.length = hi.toUInt16 <<< 8) :
      Open d [d.commandByte, hi]
  | payload {d : FrameDecoder} (hi lo : UInt8) (state : d.state = .payload) (length : d.length = announced hi lo)
      (small : d.length.toNat ≤ maxPayloadSize) (inRange : d.payloadIdx < d.length.toNat) :
      Open d (d.commandByte :: hi :: lo :: d.payload.take d.payloadIdx)

/-- How a round ends, by what has been read with its byte. -/
inductive RoundEnds (p : List UInt8) : Round → Prop
  | more {d : FrameDecoder} (rest : Open d p) : RoundEnds p (.continues d)
  | skipped {d : FrameDecoder} (junk : Junk p) (idle : Open d []) : RoundEnds p (.continues d)
  | frame {d : FrameDecoder} {f : Frame} (bytes : f.bytes = p) (idle : Open d []) : RoundEnds p (.returns d (some f))

variable {d : FrameDecoder}

theorem Open.reset (d : FrameDecoder) : Open d.reset [] := .idle rfl

theorem put_take (d : FrameDecoder) (byte : UInt8) (h : d.payloadIdx < maxPayloadSize) :
    (d.put byte).payload.take (d.put byte).payloadIdx = d.payload.take d.payloadIdx ++ [byte] := by
  have hlen := d.payload_length
  show (d.payload.set d.payloadIdx byte).take (d.payloadIdx + 1) = _
  rw [List.take_set, List.take_succ_eq_append_getElem (by omega), List.set_append_right _ _ (by rw [List.length_take]; omega)]
  simp [Nat.min_eq_left (show d.payloadIdx ≤ d.payload.length by omega)]

/-- The command byte and the length are all of a frame with no payload. -/
theorem RoundEnds.of_header {command hi lo : UInt8} (h : announced hi lo = 0) (d' : FrameDecoder) (hd : Open d' []) :
    RoundEnds [command, hi, lo] (match Command.fromByte command with
      | none => .continues d'
      | some cmd => .returns d' (some (.new cmd))) := by
  cases hcmd : Command.fromByte command with
  | none => exact .skipped (.unknown command hi lo [] hcmd (by rw [h]; rfl) (by rw [h]; decide)) hd
  | some cmd => exact .frame (Frame.bytes_of_announced (.new cmd) hcmd (by rw [h]; rfl)) hd

theorem RoundEnds.of_payload {command hi lo : UInt8} {payload : List UInt8} (hlen : payload.length = (announced hi lo).toNat)
    (hsmall : (announced hi lo).toNat ≤ maxPayloadSize) (d' : FrameDecoder) (hd : Open d' []) :
    RoundEnds (command :: hi :: lo :: payload) (match Command.fromByte command with
      | none => .continues d'
      | some cmd => .returns d' (Frame.withPayload cmd payload)) := by
  cases hcmd : Command.fromByte command with
  | none => exact .skipped (.unknown command hi lo payload hcmd hlen hsmall) hd
  | some cmd =>
    show RoundEnds _ (.returns d' (Frame.withPayload cmd payload))
    rw [Frame.withPayload, dif_pos (by omega)]
    exact .frame (Frame.bytes_of_announced ⟨cmd, payload, _⟩ hcmd hlen) hd

theorem Open.round {p : List UInt8} (h : Open d p) (byte : UInt8) : RoundEnds (p ++ [byte]) (d.round byte) := by
  cases h with
  | idle state =>
    rw [FrameDecoder.round, state]
    exact .more (.command rfl)
  | command state =>
    rw [FrameDecoder.round, state]
    exact .more (.lenHigh byte rfl rfl)
  | lenHigh hi state length =>
    rw [FrameDecoder.round, state]
    show RoundEnds [d.commandByte, hi, byte] _
    have hlen : d.length ||| byte.toUInt16 = announced hi byte := by rw [length, announced]
    dsimp only
    rw [hlen]
    by_cases hlarge : maxPayloadSize < (announced hi byte).toNat
    · rw [if_pos hlarge]
      exact .skipped (.oversized _ _ _ hlarge) (.reset _)
    · rw [if_neg hlarge]
      by_cases hzero : announced hi byte = 0
      · rw [if_pos hzero]
        exact .of_header hzero _ (.reset _)
      · rw [if_neg hzero]
        have hpos : 0 < (announced hi byte).toNat := by
          rw [Nat.pos_iff_ne_zero]
          exact fun h0 => hzero (UInt16.toNat_inj.1 h0)
        exact .more (.payload hi byte rfl rfl (show (announced hi byte).toNat ≤ maxPayloadSize by omega) hpos)
  | payload hi lo state length small inRange =>
    have hidx : d.payloadIdx < maxPayloadSize := by omega
    have hput := put_take d byte hidx
    rw [FrameDecoder.round, state]
    dsimp only
    rw [if_pos hidx]
    show RoundEnds (d.commandByte :: hi :: lo :: (d.payload.take d.payloadIdx ++ [byte])) _
    rw [← hput]
    by_cases hend : (d.put byte).length.toNat ≤ (d.put byte).payloadIdx
    · rw [if_pos hend]
      have hlen : (d.payload.take d.payloadIdx ++ [byte]).length = (announced hi lo).toNat := by
        have hbuf := d.payload_length
        have hend' : d.length.toNat ≤ d.payloadIdx + 1 := hend
        rw [← length, List.length_append, List.length_take, List.length_singleton]
        omega
      exact .of_payload (by rw [hput, hlen]) (by rw [← length]; exact small) _ (.reset _)
    · rw [if_neg hend]
      exact .more (.payload hi lo state length small (by omega))

end FrameDecoder

end Micronuts
