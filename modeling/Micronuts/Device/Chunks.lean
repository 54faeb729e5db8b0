import Micronuts.Device.Protocol

/-!
# Frames and chunks

`decode` answers with the first frame of a chunk and does not read on. So the frames of a stream depend on how it is cut
into chunks as soon as the bytes of a frame stand behind the first one that the decoder finds (`cut_free_iff`).
-/

namespace Micronuts

theorem Frame.bytes_injective {f g : Frame} (h : f.bytes = g.bytes) : f = g := by
  obtain ⟨c, payload, hle⟩ := f
  obtain ⟨c', payload', hle'⟩ := g
  simp only [bytes, List.cons.injEq] at h
  obtain ⟨hcmd, -, -, rfl⟩ := h
  have hc : some c = some c' := by rw [← Command.fromByte_toByte, hcmd, Command.fromByte_toByte]
  cases hc
  rfl

namespace FrameDecoder
variable {d : FrameDecoder} {p : List UInt8}

/-! ### Headers say where a block ends -/

def blockSize : List UInt8 → Option Nat
  | _ :: hi :: lo :: _ =>
    if maxPayloadSize < (announced hi lo).toNat then some 3 else some ((announced hi lo).toNat + 3)
  | _ => none

/-- A block of which the header says how long it is. -/
def Whole (b : List UInt8) : Prop := ∀ x, blockSize (b ++ x) = some b.length

theorem Junk.whole {j : List UInt8} (h : Junk j) : Whole j := by
  intro x
  cases h with
  | oversized command hi lo large => exact if_pos large
  | unknown command hi lo payload _ length small =>
    show (if _ then _ else _) = some (payload.length + 3)
    rw [if_neg (by omega), length]

theorem whole_bytes (f : Frame) : Whole f.bytes := by
  intro x
  have hle := f.payload_le
  show (if _ then _ else _) = some (f.payload.length + 3)
  rw [f.announced_length, f.length_toNat, if_neg (by omega)]

theorem Whole.eq {a b y : List UInt8} (ha : Whole a) (hb : Whole b) (h : a = b ++ y) : a = b ∧ y = [] := by
  have hsize : blockSize (a ++ []) = some a.length := ha []
  have hlen : b.length = a.length := by
    rw [List.append_nil, h, hb y, ← h] at hsize
    exact Option.some.inj hsize
  obtain ⟨rfl, hy⟩ := List.append_inj ((List.append_nil a).trans h) hlen.symm
  exact ⟨rfl, hy.symm⟩

/-- What has been read of a block is not a whole one. -/
theorem Open.not_whole (h : Open d p) : ¬ Whole p := by
  intro hp
  have hsize := hp []
  rw [List.append_nil] at hsize
  cases h with
  | idle => cases hsize
  | command => cases hsize
  | lenHigh => cases hsize
  | payload hi lo state length small inRange =>
    have hlen := d.payload_length
    rw [blockSize, ← length, if_neg (by omega)] at hsize
    simp only [List.length_cons, List.length_take, Option.some.injEq] at hsize
    omega

theorem Junk.ne_bytes {j : List UInt8} (h : Junk j) (f : Frame) : j ≠ f.bytes := by
  have hlen := f.announced_length
  have hle := f.payload_le
  intro hj
  rw [Frame.bytes] at hj
  cases h with
  | oversized command hi lo large =>
    simp only [List.cons.injEq] at hj
    obtain ⟨-, rfl, rfl, -⟩ := hj
    rw [hlen, f.length_toNat] at large
    omega
  | unknown command hi lo payload unknown =>
    simp only [List.cons.injEq] at hj
    obtain ⟨rfl, -⟩ := hj
    rw [Command.fromByte_toByte] at unknown
    cases unknown

/-! ### One chunk -/

/-- How a call of `decode` ends, by what has been read before and the chunk. -/
inductive DecodeEnds (d : FrameDecoder) (p data : List UInt8) : Option (FrameDecoder × Option Frame) → Prop
  | quiet {d' : FrameDecoder} {junk : List (List UInt8)} {q : List UInt8} (skipped : ∀ j ∈ junk, Junk j)
      (read : p ++ data = junk.flatten ++ q) (rest : Open d' q)
      (more : ∀ x, d.decode (data ++ x) = d'.decode x) : DecodeEnds d p data (some (d', none))
  | frame {d' : FrameDecoder} {junk : List (List UInt8)} {f : Frame} {tail : List UInt8} (skipped : ∀ j ∈ junk, Junk j)
      (read : p ++ data = junk.flatten ++ (f.bytes ++ tail)) (idle : Open d' [])
      (more : ∀ x, d.decode (data ++ x) = some (d', some f)) : DecodeEnds d p data (some (d', some f))

theorem decode_of_continues {d' : FrameDecoder} {byte : UInt8} (h : d.round byte = .continues d') (data : List UInt8) :
    d.decode (byte :: data) = d'.decode data := by
  rw [decode, h]

theorem DecodeEnds.of_more {d' : FrameDecoder} {byte : UInt8} {data : List UInt8} (hround : d.round byte = .continues d')
    (h : DecodeEnds d' (p ++ [byte]) data (d'.decode data)) : DecodeEnds d p (byte :: data) (d.decode (byte :: data)) := by
  rw [decode_of_continues hround]
  generalize d'.decode data = res at h
  have happend : p ++ byte :: data = p ++ [byte] ++ data := by simp
  cases h with
  | quiet skipped read rest more =>
    exact .quiet skipped (happend.trans read) rest fun x => (decode_of_continues hround _).trans (more x)
  | frame skipped read idle more =>
    exact .frame skipped (happend.trans read) idle fun x => (decode_of_continues hround _).trans (more x)

theorem DecodeEnds.of_skipped {d' : FrameDecoder} {byte : UInt8} {data : List UInt8}
    (hround : d.round byte = .continues d') (hjunk : Junk (p ++ [byte])) (h : DecodeEnds d' [] data (d'.decode data)) :
    DecodeEnds d p (byte :: data) (d.decode (byte :: data)) := by
  rw [decode_of_continues hround]
  generalize d'.decode data = res at h
  have happend : p ++ byte :: data = p ++ [byte] ++ data := by simp
  cases h with
  | @quiet _ junk q hall read rest more =>
    refine .quiet (List.forall_mem_cons.2 ⟨hjunk, hall⟩) ?_ rest fun x => (decode_of_continues hround _).trans (more x)
    rw [happend, List.flatten_cons, List.append_assoc (p ++ [byte]), ← read, List.nil_append]
  | @frame _ junk f tail hall read idle more =>
    refine @DecodeEnds.frame _ _ _ _ _ f tail (List.forall_mem_cons.2 ⟨hjunk, hall⟩) ?_ idle fun x =>
      (decode_of_continues hround _).trans (more x)
    rw [happend, List.flatten_cons, List.append_assoc (p ++ [byte]), ← read, List.nil_append]

theorem Open.decode (h : Open d p) (data : List UInt8) : DecodeEnds d p data (d.decode data) := by
  induction data generalizing d p with
  | nil => exact @DecodeEnds.quiet _ _ _ d [] p (by simp) (by simp) h fun _ => rfl
  | cons byte data ih =>
    have hends := h.round byte
    generalize hround : d.round byte = r at hends
    cases hends with
    | more rest => exact .of_more hround (ih rest)
    | skipped junk idle => exact .of_skipped hround junk (ih idle)
    | @frame d' f bytes idle =>
      have hdecode : ∀ data, d.decode (byte :: data) = some (d', some f) := by
        intro data
        rw [FrameDecoder.decode, hround]
      rw [hdecode]
      refine @DecodeEnds.frame _ _ _ d' [] f data (by simp) ?_ idle fun x => hdecode _
      rw [bytes]
      simp

/-- The first block of what has been read is a whole block that has been read. -/
theorem Whole.of_cons {b y : List UInt8} {junk : List (List UInt8)} (hb : Whole b) (hjunk : ∀ j ∈ junk, Junk j)
    (hread : [] ++ b = junk.flatten ++ y) : (junk = [] ∧ b = y) ∨ (Junk b ∧ y = []) := by
  cases junk with
  | nil => exact .inl ⟨rfl, hread⟩
  | cons j junk =>
    obtain ⟨hj, -⟩ := List.forall_mem_cons.1 hjunk
    rw [List.nil_append, List.flatten_cons, List.append_assoc] at hread
    obtain ⟨rfl, hnil⟩ := hb.eq hj.whole hread
    exact .inr ⟨hj, (List.append_eq_nil_iff.1 hnil).2⟩

/-- A block is read as a whole. -/
theorem Open.skip (h : Open d []) {j : List UInt8} (hj : Junk j) :
    ∃ d', Open d' [] ∧ ∀ x, d.decode (j ++ x) = d'.decode x := by
  have hends := h.decode j
  generalize d.decode j = res at hends
  cases hends with
  | @quiet d' junk q skipped read rest more =>
    rcases hj.whole.of_cons skipped read with ⟨-, rfl⟩ | ⟨-, rfl⟩
    · exact absurd hj.whole rest.not_whole
    · exact ⟨d', rest, more⟩
  | @frame d' junk f tail skipped read idle more =>
    rcases hj.whole.of_cons skipped read with ⟨-, hbytes⟩ | ⟨-, hnil⟩
    · exact absurd (hj.whole.eq (whole_bytes f) hbytes).1 (hj.ne_bytes f)
    · simp [Frame.bytes] at hnil

theorem Open.frame (h : Open d []) (f : Frame) :
    ∃ d', Open d' [] ∧ ∀ x, d.decode (f.bytes ++ x) = some (d', some f) := by
  have hends := h.decode f.bytes
  generalize d.decode f.bytes = res at hends
  cases hends with
  | @quiet d' junk q skipped read rest more =>
    rcases (whole_bytes f).of_cons skipped read with ⟨-, rfl⟩ | ⟨hjunk, -⟩
    · exact absurd (whole_bytes f) rest.not_whole
    · exact absurd rfl (hjunk.ne_bytes f)
  | @frame d' junk g tail skipped read idle more =>
    rcases (whole_bytes f).of_cons skipped read with ⟨-, hbytes⟩ | ⟨hjunk, -⟩
    · rw [Frame.bytes_injective ((whole_bytes f).eq (whole_bytes g) hbytes).1] at more ⊢
      exact ⟨d', idle, more⟩
    · exact absurd rfl (hjunk.ne_bytes f)

theorem Open.skip_all (h : Open d []) {junk : List (List UInt8)} (hjunk : ∀ j ∈ junk, Junk j) :
    ∃ d', Open d' [] ∧ ∀ x, d.decode (junk.flatten ++ x) = d'.decode x := by
  induction junk generalizing d with
  | nil => exact ⟨d, h, fun _ => rfl⟩
  | cons j junk ih =>
    obtain ⟨hj, hrest⟩ := List.forall_mem_cons.1 hjunk
    obtain ⟨d₁, hopen₁, hread₁⟩ := h.skip hj
    obtain ⟨d', hopen, hread⟩ := ih hopen₁ hrest
    refine ⟨d', hopen, fun x => ?_⟩
    rw [List.flatten_cons, List.append_assoc, hread₁, hread]

/-! ### Chunks -/

theorem decodeChunks_cons {d₁ d' : FrameDecoder} {chunk : List UInt8} {chunks : List (List UInt8)} {frame : Option Frame}
    {frames : List Frame} (h : d.decode chunk = some (d₁, frame)) (hrest : d₁.decodeChunks chunks = some (d', frames)) :
    d.decodeChunks (chunk :: chunks) = some (d', frame.toList ++ frames) := by
  simp [decodeChunks, h, hrest]

/-- Where no frame stands, none is found. -/
theorem Open.no_frames (h : Open d p) {chunks : List (List UInt8)} (hnone : ∀ g : Frame, ¬ g.bytes <:+: p ++ chunks.flatten) :
    ∃ d', d.decodeChunks chunks = some (d', []) := by
  induction chunks generalizing d p with
  | nil => exact ⟨d, rfl⟩
  | cons chunk chunks ih =>
    have hends := h.decode chunk
    rw [List.flatten_cons, ← List.append_assoc] at hnone
    generalize hres : d.decode chunk = res at hends
    cases hends with
    | @quiet d₁ junk q skipped read rest more =>
      rw [read, List.append_assoc] at hnone
      obtain ⟨d', hrest⟩ := ih rest fun g hg => hnone g (hg.trans (List.suffix_append _ _).isInfix)
      exact ⟨d', decodeChunks_cons hres hrest⟩
    | @frame d₁ junk f tail skipped read idle more =>
      refine absurd ?_ (hnone f)
      rw [read]
      exact ⟨junk.flatten, tail ++ chunks.flatten, by simp only [List.append_assoc]⟩

/-- No frame stands behind the first one that the decoder finds. -/
def OneFrame (stream : List UInt8) : Prop :=
  ∀ (junk : List (List UInt8)) (f : Frame) (tail : List UInt8), (∀ j ∈ junk, Junk j) →
    stream = junk.flatten ++ (f.bytes ++ tail) → ∀ g : Frame, ¬ g.bytes <:+: tail

/-- Then the chunks give what the stream gives in one. -/
theorem Open.decodeChunks (h : Open d p) {chunks : List (List UInt8)} (hone : OneFrame (p ++ chunks.flatten)) :
    ∃ d' d'' frame, d.decode chunks.flatten = some (d', frame) ∧
      d.decodeChunks chunks = some (d'', frame.toList) := by
  induction chunks generalizing d p with
  | nil => exact ⟨d, d, none, rfl, rfl⟩
  | cons chunk chunks ih =>
    have hends := h.decode chunk
    rw [List.flatten_cons, ← List.append_assoc] at hone
    generalize hres : d.decode chunk = res at hends
    cases hends with
    | @quiet d₁ junk q skipped read rest more =>
      obtain ⟨d', d'', frame, hall, hchunks⟩ := ih rest fun junk' f tail hjunk' hread => by
        refine hone (junk ++ junk') f tail (List.forall_mem_append.2 ⟨skipped, hjunk'⟩) ?_
        rw [read, List.append_assoc, hread, List.flatten_append, List.append_assoc]
      exact ⟨d', d'', frame, by rw [List.flatten_cons, more, hall], decodeChunks_cons hres hchunks⟩
    | @frame d₁ junk f tail skipped read idle more =>
      have hnone := hone junk f (tail ++ chunks.flatten) skipped (by rw [read]; simp only [List.append_assoc])
      obtain ⟨d'', hrest⟩ := idle.no_frames fun g hg => hnone g (hg.trans (List.suffix_append _ _).isInfix)
      exact ⟨d₁, d'', some f, by rw [List.flatten_cons, more], decodeChunks_cons hres hrest⟩

/-- The frames that a fresh decoder finds. -/
def framesOf (chunks : List (List UInt8)) : Option (List Frame) := (new.decodeChunks chunks).map Prod.snd

/-- Every way of cutting the stream gives the same frames. -/
def CutFree (stream : List UInt8) : Prop :=
  ∀ chunks chunks' : List (List UInt8), chunks.flatten = stream → chunks'.flatten = stream →
    framesOf chunks = framesOf chunks'

theorem framesOf_of_oneFrame {chunks : List (List UInt8)} (h : OneFrame chunks.flatten) :
    framesOf chunks = (new.decode chunks.flatten).map fun r => r.2.toList := by
  obtain ⟨d', d'', frame, hall, hchunks⟩ := @Open.decodeChunks new [] (.idle rfl) chunks h
  rw [framesOf, hchunks, hall]
  rfl

/-- One chunk with the first frame, and what stands between it and the next; and one chunk with all. -/
theorem framesOf_two {junk : List (List UInt8)} {f g : Frame} {a z : List UInt8} (hjunk : ∀ j ∈ junk, Junk j) :
    framesOf [junk.flatten ++ (f.bytes ++ (a ++ g.bytes ++ z))] = some [f] ∧
      framesOf [junk.flatten ++ (f.bytes ++ a), g.bytes ++ z] = some [f, g] := by
  obtain ⟨d₁, hopen₁, hskip⟩ := (Open.idle rfl : Open new []).skip_all hjunk
  obtain ⟨d₂, hopen₂, hf⟩ := hopen₁.frame f
  obtain ⟨d₃, -, hg⟩ := hopen₂.frame g
  have hfirst : ∀ x, new.decode (junk.flatten ++ (f.bytes ++ x)) = some (d₂, some f) := fun x => (hskip _).trans (hf x)
  have hone := decodeChunks_cons (hfirst (a ++ g.bytes ++ z)) (rfl : d₂.decodeChunks [] = some (d₂, []))
  have htwo := decodeChunks_cons (hfirst a) (decodeChunks_cons (hg z) (rfl : d₃.decodeChunks [] = some (d₃, [])))
  rw [framesOf, framesOf, hone, htwo]
  exact ⟨rfl, rfl⟩

theorem cut_free_iff (stream : List UInt8) : CutFree stream ↔ OneFrame stream := by
  constructor
  · rintro hfree junk f tail hjunk rfl g ⟨a, z, rfl⟩
    obtain ⟨hone, htwo⟩ := @framesOf_two junk f g a z hjunk
    have heq := hfree [_] [junk.flatten ++ (f.bytes ++ a), g.bytes ++ z] List.flatten_singleton (by simp)
    rw [hone, htwo] at heq
    simp at heq
  · intro hone chunks chunks' h h'
    subst h
    rw [framesOf_of_oneFrame hone, framesOf_of_oneFrame (h' ▸ hone), h']

theorem oneFrame_bytes (f : Frame) : OneFrame f.bytes := by
  intro junk g tail hjunk hread g' hinfix
  rcases (whole_bytes f).of_cons hjunk ((List.nil_append _).trans hread) with ⟨-, hbytes⟩ | ⟨-, hnil⟩
  · obtain rfl := ((whole_bytes f).eq (whole_bytes g) hbytes).2
    simp [Frame.bytes] at hinfix
  · simp [Frame.bytes] at hnil

/-- However the encodings of some frames are cut, just these frames are found, if and only if there is one at most. -/
theorem frames_found_iff (frames : List Frame) :
    (∀ chunks : List (List UInt8), chunks.flatten = frames.flatMap Frame.bytes → framesOf chunks = some frames) ↔
      frames.length ≤ 1 := by
  constructor
  · intro hall
    by_contra hlen
    obtain ⟨f, g, fs, rfl⟩ : ∃ f g fs, frames = f :: g :: fs := by
      match frames, hlen with
      | f :: g :: fs, _ => exact ⟨f, g, fs, rfl⟩
      | [_], hlen => exact absurd (Nat.le_refl 1) hlen
      | [], hlen => exact absurd (Nat.zero_le 1) hlen
    obtain ⟨hone, -⟩ := @framesOf_two [] f g [] (fs.flatMap Frame.bytes) (by simp)
    rw [hall _ (by simp [List.flatMap_cons])] at hone
    simp at hone
  · intro hlen chunks hchunks
    match frames, hlen with
    | [], _ =>
      have hone : OneFrame chunks.flatten := by
        rw [hchunks]
        intro junk f tail _ hread
        simp [Frame.bytes] at hread
      rw [framesOf_of_oneFrame hone, hchunks]
      rfl
    | [f], _ =>
      rw [List.flatMap_cons, List.flatMap_nil, List.append_nil] at hchunks
      obtain ⟨d', -, hf⟩ := (Open.idle rfl : Open new []).frame f
      rw [framesOf_of_oneFrame (hchunks ▸ oneFrame_bytes f), hchunks, ← List.append_nil f.bytes, hf]
      rfl

/-- A stream gives the same frames however it is cut just when no frame stands behind the first that is found; so the
encodings of frames, one behind the other, are found however they are cut just when there is one at most. -/
theorem frames_of_chunks (stream : List UInt8) (frames : List Frame) : (CutFree stream ↔ OneFrame stream) ∧
    ((∀ chunks : List (List UInt8), chunks.flatten = frames.flatMap Frame.bytes → framesOf chunks = some frames) ↔
      frames.length ≤ 1) :=
  ⟨cut_free_iff stream, frames_found_iff frames⟩

/-- Two requests in one packet, and in two. -/
theorem second_request_dropped : framesOf [[0x02, 0, 0, 0x05, 0, 0]] = some [.new .getTokenInfo] ∧
    framesOf [[0x02, 0, 0], [0x05, 0, 0]] = some [.new .getTokenInfo, .new .getProofs] ∧
    (Frame.new .getTokenInfo).bytes ++ (Frame.new .getProofs).bytes = [0x02, 0, 0, 0x05, 0, 0] ∧
    ¬ CutFree [0x02, 0, 0, 0x05, 0, 0] := by
  have hone : framesOf [[0x02, 0, 0, 0x05, 0, 0]] = some [.new .getTokenInfo] := rfl
  have htwo : framesOf [[0x02, 0, 0], [0x05, 0, 0]] = some [.new .getTokenInfo, .new .getProofs] := rfl
  refine ⟨hone, htwo, rfl, fun hfree => ?_⟩
  have heq := hfree [[0x02, 0, 0, 0x05, 0, 0]] [[0x02, 0, 0], [0x05, 0, 0]] rfl rfl
  rw [hone, htwo] at heq
  simp at heq

/-! ### Every run -/

/-- The next byte of a payload goes to a place below the announced length. -/
def InRange (d : FrameDecoder) : Prop := d.state = .payload → d.payloadIdx < d.length.toNat ∧ d.length.toNat ≤ maxPayloadSize

theorem Open.inRange (h : Open d p) : d.InRange := by
  intro hstate
  cases h with
  | idle state => rw [state] at hstate; cases hstate
  | command state => rw [state] at hstate; cases hstate
  | lenHigh hi state => rw [state] at hstate; cases hstate
  | payload hi lo state length small inRange => exact ⟨inRange, small⟩

theorem Open.state_idle (h : Open d []) : d.state = .idle := by
  cases h with
  | idle state => exact state

theorem Open.not_panics (h : Open d p) (byte : UInt8) : d.round byte ≠ .panics := by
  intro hround
  have hends := h.round byte
  rw [hround] at hends
  cases hends

/-- Calls of `decode` lead from a part of a frame to a part of a frame. -/
theorem Open.run (h : Open d p) (chunks : List (List UInt8)) :
    ∃ d' frames q, d.decodeChunks chunks = some (d', frames) ∧ Open d' q := by
  induction chunks generalizing d p with
  | nil => exact ⟨d, [], p, rfl, h⟩
  | cons chunk chunks ih =>
    have hends := h.decode chunk
    generalize hres : d.decode chunk = res at hends
    cases hends with
    | quiet skipped read rest more =>
      obtain ⟨d', frames, q, hrest, hopen⟩ := ih rest
      exact ⟨d', frames, q, decodeChunks_cons hres hrest, hopen⟩
    | frame skipped read idle more =>
      obtain ⟨d', frames, q, hrest, hopen⟩ := ih idle
      exact ⟨d', _, q, decodeChunks_cons hres hrest, hopen⟩

/-- A buffer that is large enough begins with the bytes of the frame. -/
theorem take_encode (f : Frame) {buf : List UInt8} (h : f.encodedSize ≤ buf.length) :
    (f.encode buf).2.take (f.encode buf).1 = f.bytes := by
  have hlen : f.bytes.length = f.encodedSize := by
    rw [Frame.encodedSize, Frame.length_toNat, Frame.bytes]
    simp only [List.length_cons]
    omega
  rw [Frame.encode, if_neg (by omega), ← hlen, List.take_left]

/-- Whatever comes, the decoder stays in range and nothing is written outside the buffer; and from the idle state the
encoding of a frame is decoded as that frame. -/
theorem decoder_in_range :
    (∀ chunks, ∃ d frames, new.decodeChunks chunks = some (d, frames) ∧ d.InRange ∧ (∀ byte, d.round byte ≠ .panics) ∧
      ∀ f ∈ frames, f.payload.length ≤ maxPayloadSize) ∧
    ∀ (d : FrameDecoder) (command : Command) (data buf : List UInt8) (f : Frame), d.state = .idle →
      Frame.withPayload command data = some f → f.encodedSize ≤ buf.length →
        ∃ d' g, d.decode ((f.encode buf).2.take (f.encode buf).1) = some (d', some g) ∧ d'.state = .idle ∧
          g.command = command ∧ g.payload = data := by
  constructor
  · intro chunks
    obtain ⟨d, frames, q, hrun, hopen⟩ := (Open.idle rfl : Open new []).run chunks
    exact ⟨d, frames, hrun, hopen.inRange, hopen.not_panics, fun f _ => f.payload_le⟩
  · intro d command data buf f hidle hf hbuf
    obtain ⟨d', hopen, hdecode⟩ := (Open.idle hidle).frame f
    have hall := hdecode []
    rw [List.append_nil] at hall
    rw [Frame.withPayload] at hf
    split_ifs at hf
    cases hf
    exact ⟨d', _, by rw [take_encode _ hbuf, hall], hopen.state_idle, rfl, rfl⟩

/-- A command with a payload, in a buffer with room to spare. -/
theorem decoder_in_range_toy : ∃ d' g, new.decode [0x01, 0, 3, 7, 8, 9] = some (d', some g) ∧ d'.state = .idle ∧
    g.command = .importToken ∧ g.payload = [7, 8, 9] := by
  let f : Frame := ⟨.importToken, [7, 8, 9], by decide⟩
  have hbytes : (f.encode (List.replicate 10 0)).2.take (f.encode (List.replicate 10 0)).1 = [0x01, 0, 3, 7, 8, 9] := by
    decide
  have hidle : new.state = .idle := rfl
  have hdecode := decoder_in_range.2 new .importToken [7, 8, 9] (List.replicate 10 0) f hidle
    (dif_pos (by decide)) (by decide)
  rwa [hbytes] at hdecode

end FrameDecoder

end Micronuts
