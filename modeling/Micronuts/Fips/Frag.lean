import Micronuts.Lib.Hex
import Micronuts.Lib.Run

/-!
# Segmentation of service datagrams (`micronuts-fips-responder`: `frag.rs`)

A frame is cut into segments with a header of two bytes, the id of the message and the index with a flag on the last,
and put together again strictly in order. `Message segs frame`: the segments carry one id and the indices from zero on,
only the last is flagged, and their payloads are the frame.
-/

namespace Micronuts

inductive FragError
  | truncatedHeader
  | outOfOrder
  | bufferOverflow
deriving DecidableEq, Repr

def segmentHeaderLen : Nat := 2

def lastFlag : UInt8 := 0x80

def maxSegments : Nat := 128

/-! ### Cutting -/

def segmentCount (frameLen mtu : Nat) : Nat :=
  let cap := mtu - segmentHeaderLen
  max ((frameLen + cap - 1) / cap) 1

/-- The rounds of the loop that are left: the header and the payload that each emits. -/
def segmentsFrom (frame : List UInt8) (cap total : Nat) (msgId : UInt8) :
    (rounds idx offset : Nat) → List (List UInt8 × List UInt8)
  | 0, _, _ => []
  | rounds + 1, idx, offset =>
    let stop := min (offset + cap) frame.length
    let flags := if idx + 1 = total then lastFlag ||| UInt8.ofNat idx else UInt8.ofNat idx
    ([msgId, flags], (frame.take stop).drop offset) :: segmentsFrom frame cap total msgId rounds (idx + 1) stop

/-- `none` for the panic of an assertion. -/
def forEachSegment (frame : List UInt8) (mtu : Nat) (msgId : UInt8) : Option (List (List UInt8 × List UInt8)) :=
  let total := segmentCount frame.length mtu
  if mtu ≤ segmentHeaderLen then none
  else if maxSegments < total then none
  else some (segmentsFrom frame (mtu - segmentHeaderLen) total msgId total 0 0)

/-! ### Reassembly -/

structure Reassembler (N : Nat) where
  buf : List UInt8
  len : Nat
  nextIdx : UInt8
  msgId : UInt8
  active : Bool
  buf_length : buf.length = N
  len_le : len ≤ N

namespace Reassembler
variable {N : Nat}

def new (N : Nat) : Reassembler N := ⟨List.replicate N 0, 0, 0, 0, false, by simp, Nat.zero_le N⟩

/-- What has been put together so far. -/
def held (r : Reassembler N) : List UInt8 := r.buf.take r.len

/-- `copy_from_slice` behind what is there; older bytes stay after it. -/
def copy (r : Reassembler N) (payload : List UInt8) (h : r.len + payload.length ≤ N) : Reassembler N where
  buf := r.buf.take r.len ++ payload ++ r.buf.drop (r.len + payload.length)
  len := r.len + payload.length
  nextIdx := r.nextIdx + 1
  msgId := r.msgId
  active := r.active
  buf_length := by
    have := r.buf_length
    simp only [List.length_append, List.length_take, List.length_drop]
    omega
  len_le := h

def drop (r : Reassembler N) : Reassembler N := { r with active := false }

def start (r : Reassembler N) (msgId : UInt8) : Reassembler N :=
  { r with active := true, msgId, nextIdx := 0, len := 0, len_le := Nat.zero_le N }

def append (r : Reassembler N) (payload : List UInt8) (last : Bool) :
    Except FragError (Option (List UInt8)) × Reassembler N :=
  if h : r.len + payload.length ≤ N then
    let r := r.copy payload h
    if last then (.ok (some r.held), r.drop) else (.ok none, r)
  else (.error .bufferOverflow, r.drop)

def push (r : Reassembler N) : List UInt8 → Except FragError (Option (List UInt8)) × Reassembler N
  | msgId :: flags :: payload =>
    let last := flags &&& lastFlag ≠ 0
    let idx := flags &&& ~~~lastFlag
    if r.active = true ∧ msgId = r.msgId ∧ idx = r.nextIdx then r.append payload last
    else if idx ≠ 0 then (.error .outOfOrder, r.drop)
    else (r.start msgId).append payload last
  | _ => (.error .truncatedHeader, r)

def pushAll (r : Reassembler N) : List (List UInt8) → List (Except FragError (Option (List UInt8))) × Reassembler N
  | [] => ([], r)
  | seg :: segs => ((r.push seg).1 :: ((r.push seg).2.pushAll segs).1, ((r.push seg).2.pushAll segs).2)

@[simp] theorem held_drop (r : Reassembler N) : r.drop.held = r.held := rfl

@[simp] theorem active_drop (r : Reassembler N) : r.drop.active = false := rfl

@[simp] theorem held_start (r : Reassembler N) (msgId : UInt8) : (r.start msgId).held = [] := by simp [held, start]

@[simp] theorem held_copy (r : Reassembler N) (payload : List UInt8) (h : r.len + payload.length ≤ N) :
    (r.copy payload h).held = r.held ++ payload := by
  have hlen := r.buf_length
  have hle := r.len_le
  simp only [held, copy]
  rw [List.take_append_of_le_length (by rw [List.length_append, List.length_take]; omega),
    List.take_of_length_le (by rw [List.length_append, List.length_take]; omega)]

theorem held_length (r : Reassembler N) : r.held.length = r.len := by
  have hlen := r.buf_length
  have hle := r.len_le
  rw [held, List.length_take]
  omega

end Reassembler

/-! ### Messages -/

/-- Segments that are not the last, from the index `i` on. -/
def numbered (msgId : UInt8) : Nat → List (List UInt8) → List (List UInt8)
  | _, [] => []
  | i, p :: ps => (msgId :: UInt8.ofNat i :: p) :: numbered msgId (i + 1) ps

/-- The segments carry one id and the indices from zero on, the last alone is flagged, and the payloads are the frame. -/
def Message (segs : List (List UInt8)) (frame : List UInt8) : Prop :=
  ∃ (msgId : UInt8) (payloads : List (List UInt8)) (last : List UInt8), payloads.length < maxSegments ∧
    segs = numbered msgId 0 payloads ++ [msgId :: (lastFlag ||| UInt8.ofNat payloads.length) :: last] ∧
    frame = payloads.flatten ++ last

theorem numbered_append (msgId : UInt8) (i : Nat) (ps : List (List UInt8)) (p : List UInt8) :
    numbered msgId i (ps ++ [p]) = numbered msgId i ps ++ [msgId :: UInt8.ofNat (i + ps.length) :: p] := by
  induction ps generalizing i with
  | nil => rfl
  | cons q ps ih =>
    show (msgId :: UInt8.ofNat i :: q) :: numbered msgId (i + 1) (ps ++ [p]) = _
    rw [ih, List.length_cons, Nat.add_right_comm, Nat.add_assoc]
    rfl

theorem numbered_length (msgId : UInt8) (i : Nat) (ps : List (List UInt8)) : (numbered msgId i ps).length = ps.length := by
  induction ps generalizing i with
  | nil => rfl
  | cons p ps ih => rw [numbered, List.length_cons, List.length_cons, ih]

/-- The byte of an index below 128, without and with the flag. -/
theorem flags_of_lt {i : Nat} (h : i < maxSegments) :
    UInt8.ofNat i &&& lastFlag = 0 ∧ UInt8.ofNat i &&& ~~~lastFlag = UInt8.ofNat i ∧
      (lastFlag ||| UInt8.ofNat i) &&& lastFlag ≠ 0 ∧ (lastFlag ||| UInt8.ofNat i) &&& ~~~lastFlag = UInt8.ofNat i := by
  have hall : ∀ i < 128, UInt8.ofNat i &&& lastFlag = 0 ∧ UInt8.ofNat i &&& ~~~lastFlag = UInt8.ofNat i ∧
      (lastFlag ||| UInt8.ofNat i) &&& lastFlag ≠ 0 ∧ (lastFlag ||| UInt8.ofNat i) &&& ~~~lastFlag = UInt8.ofNat i := by
    decide +kernel
  exact hall i h

/-! ### Cutting gives a message -/

/-- What is left of a frame, cut into the segments that are left. -/
theorem segmentsFrom_spec {frame : List UInt8} {cap total : Nat} {msgId : UInt8} (rounds idx offset : Nat)
    (htotal : idx + (rounds + 1) = total) (hoffset : offset ≤ frame.length)
    (hrest : frame.length - offset ≤ (rounds + 1) * cap) (hmore : rounds * cap < frame.length - offset ∨ rounds = 0) :
    ∃ payloads last, payloads.length = rounds ∧ frame.drop offset = payloads.flatten ++ last ∧
      (segmentsFrom frame cap total msgId (rounds + 1) idx offset).map (fun s => s.1 ++ s.2) =
        numbered msgId idx payloads ++ [msgId :: (lastFlag ||| UInt8.ofNat (idx + rounds)) :: last] := by
  induction rounds generalizing idx offset with
  | zero =>
    refine ⟨[], (frame.take (min (offset + cap) frame.length)).drop offset, rfl, ?_, ?_⟩
    · rw [Nat.min_eq_right (by omega), List.take_length]
      rfl
    · rw [segmentsFrom, if_pos (by omega)]
      rfl
  | succ rounds ih =>
    have hlong : rounds * cap + cap < frame.length - offset := by
      rw [← Nat.add_one_mul]
      omega
    have hstop : min (offset + cap) frame.length = offset + cap := by omega
    have hrest' : frame.length - (offset + cap) ≤ (rounds + 1) * cap := by
      rw [Nat.add_one_mul] at hrest
      omega
    obtain ⟨payloads, last, hlen, hdrop, hsegs⟩ :=
      ih (idx + 1) (offset + cap) (by omega) (by omega) hrest' (.inl (by omega))
    refine ⟨(frame.take (offset + cap)).drop offset :: payloads, last, by simp [hlen], ?_, ?_⟩
    · rw [List.flatten_cons, List.append_assoc, ← hdrop, List.drop_take, Nat.add_sub_cancel_left, ← List.drop_drop,
        List.take_append_drop]
    · rw [segmentsFrom, hstop, if_neg (by omega), List.map_cons, hsegs]
      show _ :: _ = _ :: _
      rw [show idx + 1 + rounds = idx + (rounds + 1) by omega]
      rfl

theorem segmentsFrom_length {frame : List UInt8} {cap total : Nat} {msgId : UInt8} (rounds idx offset : Nat) :
    ∀ s ∈ segmentsFrom frame cap total msgId rounds idx offset, (s.1 ++ s.2).length ≤ cap + segmentHeaderLen := by
  induction rounds generalizing idx offset with
  | zero => exact nofun
  | succ rounds ih =>
    rw [segmentsFrom, List.forall_mem_cons]
    refine ⟨?_, ih _ _⟩
    simp only [List.length_append, List.length_cons, List.length_nil, List.length_drop, List.length_take, segmentHeaderLen]
    omega

/-- The segments hold the frame, and one less would not, unless there is only one. -/
theorem segmentCount_spec {n mtu : Nat} (hmtu : segmentHeaderLen < mtu) : ∃ rounds, segmentCount n mtu = rounds + 1 ∧
    n ≤ (rounds + 1) * (mtu - segmentHeaderLen) ∧ (rounds * (mtu - segmentHeaderLen) < n ∨ rounds = 0) := by
  rw [segmentCount]
  generalize hcap : mtu - segmentHeaderLen = cap
  have hpos : 0 < cap := by omega
  have hdiv := Nat.div_add_mod (n + cap - 1) cap
  have hmod := Nat.mod_lt (n + cap - 1) hpos
  generalize (n + cap - 1) / cap = q at hdiv ⊢
  cases q with
  | zero =>
    refine ⟨0, rfl, ?_, .inr rfl⟩
    rw [Nat.mul_zero] at hdiv
    omega
  | succ q =>
    rw [Nat.mul_comm, Nat.add_one_mul] at hdiv
    refine ⟨q, by omega, ?_, .inl (by omega)⟩
    rw [Nat.add_one_mul]
    omega

/-- The segments of a frame are a message, each within the budget of a datagram. -/
theorem forEachSegment_message {frame : List UInt8} {mtu : Nat} {msgId : UInt8} (hmtu : segmentHeaderLen < mtu)
    (hcount : segmentCount frame.length mtu ≤ maxSegments) :
    ∃ segs, forEachSegment frame mtu msgId = some segs ∧ Message (segs.map fun s => s.1 ++ s.2) frame ∧
      ∀ s ∈ segs, (s.1 ++ s.2).length ≤ mtu := by
  obtain ⟨rounds, hrounds, hholds, htight⟩ := @segmentCount_spec frame.length mtu hmtu
  refine ⟨_, by rw [forEachSegment, if_neg (by omega), if_neg (by omega)], ?_, ?_⟩
  · obtain ⟨payloads, last, hlen, hframe, hsegs⟩ := @segmentsFrom_spec frame (mtu - segmentHeaderLen) (rounds + 1) msgId
      rounds 0 0 (by omega) (Nat.zero_le _) (by simpa using hholds) (by simpa using htight)
    rw [Nat.zero_add] at hsegs
    rw [hrounds]
    exact ⟨msgId, payloads, last, by omega, by rw [hsegs, hlen], hframe⟩
  · intro s hs
    have := segmentsFrom_length _ _ _ s hs
    omega

/-! ### Reassembly of a message -/

namespace Reassembler
variable {N : Nat} {r : Reassembler N}

/-- A message in flight has a segment at least, so that a first segment starts afresh. -/
def Started (r : Reassembler N) : Prop := r.active = true → r.nextIdx ≠ 0

/-- The message is in flight, and this is what it has so far. -/
structure Holds (r : Reassembler N) (msgId : UInt8) (count : Nat) (held : List UInt8) : Prop where
  active : r.active = true
  msgId : r.msgId = msgId
  nextIdx : r.nextIdx = UInt8.ofNat count
  held : r.held = held

theorem append_eq {payload : List UInt8} (last : Bool) (h : r.len + payload.length ≤ N) :
    r.append payload last = if last then (.ok (some (r.held ++ payload)), (r.copy payload h).drop) else
      (.ok none, r.copy payload h) := by
  rw [append, dif_pos h]
  simp only [held_copy]

theorem append_overflow {payload : List UInt8} (last : Bool) (h : N < r.len + payload.length) :
    r.append payload last = (.error .bufferOverflow, r.drop) := by
  rw [append, dif_neg (by omega)]

namespace Holds
variable {msgId : UInt8} {i : Nat} {held payload : List UInt8}

theorem append_more (h : r.Holds msgId i held) (hN : (held ++ payload).length ≤ N) :
    ∃ t, r.append payload false = (.ok none, t) ∧ t.Holds msgId (i + 1) (held ++ payload) := by
  have hlen : r.len + payload.length ≤ N := by
    rw [← r.held_length, h.held]
    simpa using hN
  refine ⟨r.copy payload hlen, by rw [append_eq false hlen]; rfl, h.active, h.msgId, ?_, by rw [held_copy, h.held]⟩
  show r.nextIdx + 1 = _
  rw [h.nextIdx, UInt8.ofNat_add]
  rfl

theorem append_last (h : r.Holds msgId i held) (hN : (held ++ payload).length ≤ N) :
    ∃ t, r.append payload true = (.ok (some (held ++ payload)), t) := by
  have hlen : r.len + payload.length ≤ N := by
    rw [← r.held_length, h.held]
    simpa using hN
  exact ⟨_, by rw [append_eq true hlen, h.held]; rfl⟩

end Holds

/-- The next segment of the message is appended to what there is of it. -/
def Expects (r : Reassembler N) (msgId : UInt8) (i : Nat) (held : List UInt8) : Prop :=
  ∀ (flags : UInt8) payload, flags &&& ~~~lastFlag = UInt8.ofNat i → ∃ t : Reassembler N, t.Holds msgId i held ∧
    r.push (msgId :: flags :: payload) = t.append payload (flags &&& lastFlag ≠ 0)

theorem Holds.expects {msgId : UInt8} {i : Nat} {held : List UInt8} (h : r.Holds msgId i held) : r.Expects msgId i held := by
  intro flags payload hidx
  refine ⟨r, h, ?_⟩
  rw [push, if_pos ⟨h.active, h.msgId.symm, hidx.trans h.nextIdx.symm⟩]

/-- A first segment starts a message, whatever is in flight. -/
theorem Started.expects (h : r.Started) (msgId : UInt8) : r.Expects msgId 0 [] := by
  intro flags payload hidx
  have hzero : flags &&& ~~~lastFlag = 0 := hidx
  refine ⟨r.start msgId, ⟨rfl, rfl, rfl, held_start r msgId⟩, ?_⟩
  rw [push, if_neg, if_neg (by simpa using hzero)]
  rintro ⟨hactive, -, hnext⟩
  exact h hactive (hnext.symm.trans hzero)

/-- What is left of a message completes it. -/
theorem Expects.pushAll {msgId : UInt8} {i : Nat} {held last : List UInt8} {payloads : List (List UInt8)}
    (h : r.Expects msgId i held) (hcount : i + payloads.length < maxSegments)
    (hN : (held ++ (payloads.flatten ++ last)).length ≤ N) :
    (r.pushAll (numbered msgId i payloads ++ [msgId :: (lastFlag ||| UInt8.ofNat (i + payloads.length)) :: last])).1 =
      List.replicate payloads.length (.ok none) ++ [.ok (some (held ++ (payloads.flatten ++ last)))] := by
  induction payloads generalizing r i held with
  | nil =>
    obtain ⟨-, -, hlast, hidx⟩ := flags_of_lt hcount
    obtain ⟨t, ht, hpush⟩ := h _ last hidx
    rw [List.flatten_nil, List.nil_append] at hN
    obtain ⟨t', happend⟩ := ht.append_last hN
    show [(r.push _).1] = _
    rw [hpush, decide_eq_true hlast, happend]
    rfl
  | cons p ps ih =>
    rw [List.length_cons] at hcount
    obtain ⟨hmore, hidx, -⟩ := @flags_of_lt i (by omega)
    obtain ⟨t, ht, hpush⟩ := h _ p hidx
    rw [List.flatten_cons, List.append_assoc, ← List.append_assoc] at hN
    obtain ⟨t', happend, ht'⟩ := ht.append_more (show (held ++ p).length ≤ N by rw [List.length_append] at hN; omega)
    have hrest := ih ht'.expects (by omega) hN
    rw [show i + 1 + ps.length = i + (ps.length + 1) by omega] at hrest
    show (r.push _).1 :: ((r.push _).2.pushAll _).1 = _
    rw [hpush, decide_eq_false (by simpa using hmore), happend]
    show .ok none :: (t'.pushAll (numbered msgId (i + 1) ps ++ _)).1 = _
    rw [List.length_cons, hrest, List.append_assoc, List.flatten_cons, List.append_assoc]
    rfl

theorem pushAll_message {segs : List (List UInt8)} {frame : List UInt8} (h : r.Started) (hm : Message segs frame)
    (hN : frame.length ≤ N) :
    (r.pushAll segs).1 = List.replicate (segs.length - 1) (.ok none) ++ [.ok (some frame)] := by
  obtain ⟨msgId, payloads, last, hcount, rfl, rfl⟩ := hm
  have hall := (h.expects msgId).pushAll (by omega) hN
  rw [Nat.zero_add, List.nil_append] at hall
  rw [hall, List.length_append, numbered_length, List.length_singleton, Nat.add_sub_cancel]

/-! ### One push -/

/-- What a segment is appended to: the message in flight that expects it, or a new one. -/
inductive Base (r : Reassembler N) (msgId idx : UInt8) : Reassembler N → Prop
  | next (active : r.active = true) (msg : msgId = r.msgId) (expected : idx = r.nextIdx) : Base r msgId idx r
  | first (fresh : idx = 0) : Base r msgId idx (r.start msgId)

inductive PushEnds (r : Reassembler N) :
    List UInt8 → Except FragError (Option (List UInt8)) → Reassembler N → Prop
  | truncated {segment} (short : segment.length < segmentHeaderLen) : PushEnds r segment (.error .truncatedHeader) r
  | dropped {segment e t} (inactive : t.active = false) (kind : e = .outOfOrder ∨ e = .bufferOverflow) :
      PushEnds r segment (.error e) t
  | more {msgId flags : UInt8} {payload : List UInt8} {t : Reassembler N} (base : Base r msgId (flags &&& ~~~lastFlag) t)
      (unflagged : flags &&& lastFlag = 0) (fits : t.len + payload.length ≤ N) :
      PushEnds r (msgId :: flags :: payload) (.ok none) (t.copy payload fits)
  | completed {msgId flags : UInt8} {payload : List UInt8} {t : Reassembler N}
      (base : Base r msgId (flags &&& ~~~lastFlag) t) (flagged : flags &&& lastFlag ≠ 0)
      (fits : t.len + payload.length ≤ N) :
      PushEnds r (msgId :: flags :: payload) (.ok (some (t.held ++ payload))) (t.copy payload fits).drop

theorem Base.append_ends {msgId flags : UInt8} {payload : List UInt8} {t : Reassembler N}
    (h : Base r msgId (flags &&& ~~~lastFlag) t) :
    PushEnds r (msgId :: flags :: payload) (t.append payload (flags &&& lastFlag ≠ 0)).1
      (t.append payload (flags &&& lastFlag ≠ 0)).2 := by
  by_cases hfits : t.len + payload.length ≤ N
  · rw [append_eq _ hfits]
    by_cases hflag : flags &&& lastFlag = 0
    · rw [if_neg (by simpa using hflag)]
      exact .more h hflag hfits
    · rw [if_pos (by simpa using hflag)]
      exact .completed h hflag hfits
  · rw [append_overflow _ (by omega)]
    exact .dropped rfl (.inr rfl)

theorem push_ends (r : Reassembler N) (segment : List UInt8) :
    PushEnds r segment (r.push segment).1 (r.push segment).2 := by
  match segment with
  | [] => exact .truncated (by decide)
  | [_] => exact .truncated (by simp [segmentHeaderLen])
  | msgId :: flags :: payload =>
    by_cases hnext : r.active = true ∧ msgId = r.msgId ∧ flags &&& ~~~lastFlag = r.nextIdx
    · rw [push, if_pos hnext]
      exact (Base.next hnext.1 hnext.2.1 hnext.2.2).append_ends
    · rw [push, if_neg hnext]
      by_cases hidx : flags &&& ~~~lastFlag = 0
      · rw [if_neg (by simpa using hidx)]
        exact (Base.first hidx).append_ends
      · rw [if_pos (by simpa using hidx)]
        exact .dropped rfl (.inl rfl)

/-! ### Runs -/

def PushStep (r : Reassembler N) (segment : List UInt8) (t : Reassembler N) : Prop := t = (r.push segment).2

/-- The index after that of a segment is not zero. -/
theorem next_ne_zero (flags : UInt8) : (flags &&& ~~~lastFlag) + 1 ≠ 0 := by
  refine @forall_byte (fun flags => (flags &&& ~~~lastFlag) + 1 ≠ 0) ?_ flags
  decide +kernel

theorem Base.nextIdx {msgId idx : UInt8} {t : Reassembler N} (h : Base r msgId idx t) : t.nextIdx = idx := by
  rcases h with ⟨-, -, hidx⟩ | hidx
  · exact hidx.symm
  · exact hidx.symm

theorem PushStep.started {segment : List UInt8} {t : Reassembler N} (h : PushStep r segment t) (hr : r.Started) :
    t.Started := by
  have hends := push_ends r segment
  rw [← h] at hends
  generalize (r.push segment).1 = res at hends
  rcases hends with - | ⟨hinactive, -⟩ | ⟨hbase, -, -⟩ | -
  · exact hr
  · intro hactive
    rw [hinactive] at hactive
    cases hactive
  · intro _
    show _ + 1 ≠ 0
    rw [hbase.nextIdx]
    exact next_ne_zero _
  · intro hactive
    cases hactive

end Reassembler

end Micronuts
