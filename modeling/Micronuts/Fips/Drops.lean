import Micronuts.Fips.Reassembly

/-!
# Errors drop the message in flight

`Idle r`: no segment can go on with what `r` holds. Idle reassemblers answer alike whatever is pushed (`Agree.pushAll`), so
after an error that leaves one idle, nothing of before is ever returned. A truncated segment is an error that changes
nothing, and a message in flight goes on after it.
-/

namespace Micronuts
namespace Reassembler
variable {N : Nat} {r t : Reassembler N} {segment : List UInt8}

/-- A segment of index zero. -/
def Starts (segment : List UInt8) : Prop :=
  ∃ msgId flags payload, segment = msgId :: flags :: payload ∧ flags &&& ~~~lastFlag = 0

/-- There is no message in flight, or it has all the segments that a message can have. -/
def Idle (r : Reassembler N) : Prop := r.active = true → maxSegments ≤ r.nextIdx.toNat

/-- The message in flight has been dropped: only a first segment is accepted again, and all goes on as from the start. -/
structure Dropped (r : Reassembler N) : Prop where
  refuses : ∀ later : List (List UInt8), (∀ s ∈ later, ¬ Starts s) → ∀ res ∈ (r.pushAll later).1, ∃ e, res = .error e
  fresh : ∀ later : List (List UInt8), (r.pushAll later).1 = ((new N).pushAll later).1

theorem push_short (h : segment.length < segmentHeaderLen) : r.push segment = (.error .truncatedHeader, r) := by
  match segment with
  | [] => rfl
  | [_] => rfl
  | msgId :: flags :: payload =>
    simp only [List.length_cons, segmentHeaderLen] at h
    omega

theorem idle_of_inactive (h : r.active = false) : r.Idle := by
  intro hactive
  rw [h] at hactive
  cases hactive

/-- Where nothing can go on, a segment is dropped or starts a message. -/
theorem Idle.push (h : r.Idle) (msgId flags : UInt8) (payload : List UInt8) :
    r.push (msgId :: flags :: payload) = if flags &&& ~~~lastFlag ≠ 0 then (.error .outOfOrder, r.drop)
      else (r.start msgId).append payload (flags &&& lastFlag ≠ 0) := by
  rw [Reassembler.push, if_neg]
  rintro ⟨hactive, -, hidx⟩
  have hle := h hactive
  have hlt := (flags_cases flags).1
  rw [hidx] at hlt
  omega

/-! ### Two reassemblers in step -/

/-- Both are idle, or hold the same part of the same message. -/
inductive Agree (r t : Reassembler N) : Prop
  | idle (left : r.Idle) (right : t.Idle)
  | holding (active : r.active = t.active) (msgId : r.msgId = t.msgId) (nextIdx : r.nextIdx = t.nextIdx)
      (held : r.held = t.held)

theorem append_agree (hactive : r.active = t.active) (hmsg : r.msgId = t.msgId) (hnext : r.nextIdx = t.nextIdx)
    (hheld : r.held = t.held) (payload : List UInt8) (last : Bool) :
    (r.append payload last).1 = (t.append payload last).1 ∧ Agree (r.append payload last).2 (t.append payload last).2 := by
  have hlen : r.len = t.len := by rw [← r.held_length, ← t.held_length, hheld]
  by_cases hfits : r.len + payload.length ≤ N
  · rw [append_eq last hfits, append_eq last (hlen ▸ hfits), hheld]
    cases last with
    | false =>
      refine ⟨rfl, .holding hactive hmsg ?_ ?_⟩
      · simp [copy, hnext]
      · simp [hheld]
    | true => exact ⟨rfl, .idle (idle_of_inactive rfl) (idle_of_inactive rfl)⟩
  · rw [append_overflow last (by omega), append_overflow last (by omega)]
    exact ⟨rfl, .idle (idle_of_inactive rfl) (idle_of_inactive rfl)⟩

theorem Agree.push (h : Agree r t) (segment : List UInt8) :
    (r.push segment).1 = (t.push segment).1 ∧ Agree (r.push segment).2 (t.push segment).2 := by
  match segment with
  | [] => exact ⟨rfl, h⟩
  | [_] => exact ⟨rfl, h⟩
  | msgId :: flags :: payload =>
    have hstart := @append_agree _ (r.start msgId) (t.start msgId) rfl rfl rfl (by simp) payload (flags &&& lastFlag ≠ 0)
    rcases h with ⟨hr, ht⟩ | ⟨hactive, hmsg, hnext, hheld⟩
    · rw [hr.push, ht.push]
      split_ifs
      · exact ⟨rfl, .idle (idle_of_inactive rfl) (idle_of_inactive rfl)⟩
      · exact hstart
    · simp only [Reassembler.push, hactive, hmsg, hnext]
      split_ifs
      · exact append_agree hactive hmsg hnext hheld payload _
      · exact ⟨rfl, .idle (idle_of_inactive rfl) (idle_of_inactive rfl)⟩
      · exact hstart

theorem Agree.pushAll (h : Agree r t) (segs : List (List UInt8)) : (r.pushAll segs).1 = (t.pushAll segs).1 := by
  induction segs generalizing r t with
  | nil => rfl
  | cons seg segs ih =>
    obtain ⟨hres, hnext⟩ := h.push seg
    simp only [Reassembler.pushAll, hres, ih hnext]

/-! ### What is dropped -/

theorem Idle.refuses (h : r.Idle) (hstart : ¬ Starts segment) :
    (∃ e, (r.push segment).1 = .error e) ∧ (r.push segment).2.Idle := by
  match segment with
  | [] => exact ⟨⟨_, rfl⟩, h⟩
  | [_] => exact ⟨⟨_, rfl⟩, h⟩
  | msgId :: flags :: payload =>
    rw [h.push, if_pos fun hidx => hstart ⟨msgId, flags, payload, rfl, hidx⟩]
    exact ⟨⟨_, rfl⟩, idle_of_inactive rfl⟩

theorem Idle.dropped (h : r.Idle) : r.Dropped where
  refuses := by
    intro later hlater
    induction later generalizing r with
    | nil => simp [pushAll]
    | cons seg later ih =>
      obtain ⟨hseg, hlater⟩ := List.forall_mem_cons.1 hlater
      obtain ⟨herr, hidle⟩ := h.refuses hseg
      exact List.forall_mem_cons.2 ⟨herr, ih hidle hlater⟩
  fresh := (Agree.idle h (idle_of_inactive rfl)).pushAll

/-- A message in flight accepts its next segment. -/
theorem Started.idle_of_refuses (hr : r.Started)
    (h : ∀ later : List (List UInt8), (∀ s ∈ later, ¬ Starts s) → ∀ res ∈ (r.pushAll later).1, ∃ e, res = .error e) :
    r.Idle := by
  intro hactive
  by_contra hlt
  have hflags := @flags_of_lt r.nextIdx.toNat (by omega)
  rw [UInt8.ofNat_toNat] at hflags
  obtain ⟨hlast, hidx, -⟩ := hflags
  have hstart : ¬ Starts [r.msgId, r.nextIdx] := by
    rintro ⟨msgId, flags, payload, heq, hzero⟩
    obtain ⟨-, rfl, -⟩ : r.msgId = msgId ∧ r.nextIdx = flags ∧ [] = payload := by simpa using heq
    exact hr hactive (hidx.symm.trans hzero)
  obtain ⟨e, he⟩ := h [[r.msgId, r.nextIdx]] (by simpa using hstart) _ (List.mem_cons_self ..)
  have hpush : r.push [r.msgId, r.nextIdx] = r.append [] (r.nextIdx &&& lastFlag ≠ 0) := by
    rw [Reassembler.push, if_pos ⟨hactive, rfl, hidx⟩]
  rw [hpush, append_eq _ (by simpa using r.len_le)] at he
  split at he
  · cases he
  · cases he

/-- Wherever pushes have led, a push that fails drops the message in flight, unless the segment is truncated and there is
one that could go on. -/
theorem error_drops {h : List (Step (Reassembler N) (List UInt8))} (hrun : Run PushStep (new N) h r) {e : FragError}
    (herr : (r.push segment).1 = .error e) :
    (r.push segment).2.Dropped ↔
      ¬ (segment.length < segmentHeaderLen ∧ r.active = true ∧ r.nextIdx.toNat < maxSegments) := by
  have hfresh : (new N).Started := by
    intro hactive
    cases hactive
  have hstarted : r.Started :=
    Run.invariant_state (G := fun _ => True) (I := Started) hfresh (fun _ _ _ _ hs hstep => hstep.started hs) hrun
      fun _ _ => trivial
  have hends := push_ends r segment
  rw [herr] at hends
  generalize (r.push segment).2 = t at hends ⊢
  rcases hends with hshort | ⟨hinactive, hkind⟩
  · constructor
    · rintro hdropped ⟨-, hactive, hlt⟩
      have := hstarted.idle_of_refuses hdropped.refuses hactive
      omega
    · intro hcond
      refine Idle.dropped fun hactive => ?_
      by_contra hlt
      exact hcond ⟨hshort, hactive, by omega⟩
  · refine iff_of_true (idle_of_inactive hinactive).dropped ?_
    rintro ⟨hshort, -⟩
    rw [push_short hshort] at herr
    rcases hkind with rfl | rfl
    · cases herr
    · cases herr

section toy

/-- The third segment of a message comes where the second one is due. -/
theorem error_drops_toy : ((new 2).push [5, 0, 7]).2.active = true ∧
    (((new 2).push [5, 0, 7]).2.push [5, 2, 9]).2.Dropped := by
  have hrun : Run PushStep (new 2) [⟨new 2, [5, 0, 7], ((new 2).push [5, 0, 7]).2⟩] ((new 2).push [5, 0, 7]).2 :=
    Run.nil.snoc rfl
  have herr : (((new 2).push [5, 0, 7]).2.push [5, 2, 9]).1 = .error .outOfOrder := rfl
  exact ⟨rfl, (error_drops hrun herr).2 (by decide)⟩

/-- After a truncated segment the second segment of a message is accepted, and the frame spans the failed push. -/
theorem frame_spans_truncated :
    (((new 2).push [5, 0, 7]).2.push [1]).1 = .error .truncatedHeader ∧ ¬ Starts [5, 0x81, 8] ∧
      ((((new 2).push [5, 0, 7]).2.push [1]).2.push [5, 0x81, 8]).1 = .ok (some [7, 8]) := by
  refine ⟨rfl, ?_, rfl⟩
  rintro ⟨msgId, flags, payload, heq, hzero⟩
  obtain ⟨-, rfl, -⟩ : 5 = msgId ∧ 0x81 = flags ∧ [8] = payload := by simpa using heq
  cases hzero

end toy

end Reassembler
end Micronuts
