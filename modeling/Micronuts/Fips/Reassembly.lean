import Micronuts.Fips.Frag

/-!
# What a reassembler returns

From any state that pushes have reached, the segments of a frame give the frame. The other way round, a frame that a push
returns is a message of the most recent pushes: its segments came one after another, with nothing between them. A
truncated segment leaves the message in flight, so that holds as long as none comes while a message is.
-/

namespace Micronuts
namespace Reassembler
variable {N : Nat} {r : Reassembler N}

/-- The pushes end with the segments of the message in flight. -/
def InFlight (pushed : List (List UInt8)) (r : Reassembler N) : Prop :=
  r.active = true → ∃ before payloads, pushed = before ++ numbered r.msgId 0 payloads ∧ payloads.length ≤ maxSegments ∧
    r.nextIdx = UInt8.ofNat payloads.length ∧ r.held = payloads.flatten

/-- A segment comes right behind the part of its message that is there. -/
theorem InFlight.base {pushed : List (List UInt8)} {msgId idx : UInt8} {t : Reassembler N} (h : InFlight pushed r)
    (hidx : idx.toNat < maxSegments) (hbase : Base r msgId idx t) :
    ∃ before payloads, pushed = before ++ numbered msgId 0 payloads ∧ payloads.length < maxSegments ∧
      idx = UInt8.ofNat payloads.length ∧ t.held = payloads.flatten ∧ t.msgId = msgId := by
  rcases hbase with ⟨hactive, rfl, rfl⟩ | rfl
  · obtain ⟨before, payloads, hpushed, hcount, hnext, hheld⟩ := h hactive
    refine ⟨before, payloads, hpushed, ?_, hnext, hheld, rfl⟩
    by_contra hfull
    have hmax : payloads.length = maxSegments := by omega
    rw [hnext, hmax] at hidx
    exact absurd hidx (by decide)
  · exact ⟨pushed, [], by simp [numbered], by decide, rfl, held_start r msgId, rfl⟩

/-- The flags of a segment are its index, and the flag. -/
theorem flags_cases (flags : UInt8) : (flags &&& ~~~lastFlag).toNat < maxSegments ∧
    (flags &&& lastFlag = 0 → flags = flags &&& ~~~lastFlag) ∧
    (flags &&& lastFlag ≠ 0 → flags = lastFlag ||| (flags &&& ~~~lastFlag)) := by
  refine @forall_byte (fun flags => (flags &&& ~~~lastFlag).toNat < maxSegments ∧
    (flags &&& lastFlag = 0 → flags = flags &&& ~~~lastFlag) ∧
    (flags &&& lastFlag ≠ 0 → flags = lastFlag ||| (flags &&& ~~~lastFlag))) ?_ flags
  decide +kernel

/-- What a push leaves in flight, and what it returns, unless it is truncated in the midst of a message. -/
theorem PushEnds.inFlight {pushed : List (List UInt8)} {segment : List UInt8} {t : Reassembler N}
    {res : Except FragError (Option (List UInt8))} (h : PushEnds r segment res t) (hr : InFlight pushed r)
    (hwhole : segment.length < segmentHeaderLen → r.active = false) :
    InFlight (pushed ++ [segment]) t ∧
      ∀ frame, res = .ok (some frame) → ∃ before segs, pushed ++ [segment] = before ++ segs ∧ Message segs frame := by
  rcases h with hshort | ⟨hinactive, -⟩ | ⟨hbase, hflag, hfits⟩ | ⟨hbase, hflag, hfits⟩
  · refine ⟨fun hactive => ?_, nofun⟩
    rw [hwhole hshort] at hactive
    cases hactive
  · refine ⟨fun hactive => ?_, nofun⟩
    rw [hinactive] at hactive
    cases hactive
  · rename_i msgId flags payload t
    obtain ⟨hidx, hflags, -⟩ := flags_cases flags
    obtain ⟨before, payloads, hpushed, hcount, hindex, hheld, hmsg⟩ := hr.base hidx hbase
    refine ⟨fun _ => ⟨before, payloads ++ [payload], ?_, ?_, ?_, ?_⟩, nofun⟩
    · show _ = before ++ numbered t.msgId 0 _
      rw [hmsg, numbered_append, hpushed, List.append_assoc, Nat.zero_add, ← hindex, ← hflags hflag]
    · rw [List.length_append, List.length_singleton]
      omega
    · show t.nextIdx + 1 = _
      rw [hbase.nextIdx, hindex, List.length_append, UInt8.ofNat_add]
      rfl
    · rw [held_copy, hheld, List.flatten_append, List.flatten_singleton]
  · rename_i msgId flags payload t
    obtain ⟨hidx, -, hflags⟩ := flags_cases flags
    obtain ⟨before, payloads, hpushed, hcount, hindex, hheld, -⟩ := hr.base hidx hbase
    refine ⟨nofun, fun frame hframe => ?_⟩
    cases hframe
    refine ⟨before, _, ?_, msgId, payloads, payload, hcount, rfl, by rw [hheld]⟩
    rw [hpushed, List.append_assoc, ← hindex, ← hflags hflag]

/-- No segment without a whole header comes while a message is in flight. -/
def Whole (h : List (Step (Reassembler N) (List UInt8))) : Prop :=
  ∀ e ∈ h, e.act.length < segmentHeaderLen → e.pre.active = false

theorem inFlight_of_run {h : List (Step (Reassembler N) (List UInt8))} (hrun : Run PushStep (new N) h r) (hwhole : Whole h) :
    InFlight (h.map Step.act) r := by
  refine hrun.invariant (Run.PrefixClosed.forall_mem _) (I := fun h r => InFlight (h.map Step.act) r) ?_ ?_ hwhole
  · intro hactive
    cases hactive
  · intro h s segment s' _ hguard hs hstep
    rw [List.map_append, show s' = (s.push segment).2 from hstep]
    exact ((push_ends s segment).inFlight hs (hguard _ (List.mem_append_right _ (List.mem_singleton.2 rfl)))).1

/-- Wherever pushes have led, a frame goes through; and if no truncated segment comes amid a message, what a push returns
is a message that ends with it. -/
theorem frames_reassembled {h : List (Step (Reassembler N) (List UInt8))} (hrun : Run PushStep (new N) h r) :
    (∀ (frame : List UInt8) (mtu : Nat) (msgId : UInt8), frame.length ≤ N → segmentHeaderLen < mtu →
      segmentCount frame.length mtu ≤ maxSegments → ∃ segs, forEachSegment frame mtu msgId = some segs ∧
        (∀ s ∈ segs, (s.1 ++ s.2).length ≤ mtu) ∧ (r.pushAll (segs.map fun s => s.1 ++ s.2)).1 =
          List.replicate (segs.length - 1) (.ok none) ++ [.ok (some frame)]) ∧
    (Whole h → ∀ h₁ e h₂ frame, h = h₁ ++ e :: h₂ → (e.pre.push e.act).1 = .ok (some frame) →
      ∃ before segs, (h₁ ++ [e]).map Step.act = before ++ segs ∧ Message segs frame) := by
  constructor
  · intro frame mtu msgId hN hmtu hcount
    obtain ⟨segs, hsegs, hmessage, hshort⟩ := @forEachSegment_message frame mtu msgId hmtu hcount
    have hfresh : (new N).Started := by
      intro hactive
      cases hactive
    have hstarted : r.Started :=
      Run.invariant_state (G := fun _ => True) (I := Started) hfresh (fun _ _ _ _ hs hstep => hstep.started hs) hrun
        fun _ _ => trivial
    refine ⟨segs, hsegs, hshort, ?_⟩
    rw [pushAll_message hstarted hmessage hN, List.length_map]
  · intro hwhole h₁ e h₂ frame hh hpush
    subst hh
    have hbefore := inFlight_of_run hrun.split.1 fun e' he' => hwhole e' (List.mem_append_left _ he')
    rw [List.map_append]
    exact ((push_ends e.pre e.act).inFlight hbefore (hwhole e (by simp))).2 frame hpush

section toy

/-- The run of some pushes. -/
def pushes (N : Nat) (segs : List (List UInt8)) : List (Step (Reassembler N) (List UInt8)) :=
  Run.trace (fun r seg => (push r seg).2) (new N) segs

theorem pushes_run (N : Nat) (segs : List (List UInt8)) :
    Run PushStep (new N) (pushes N segs) (segs.foldl (fun r seg => (push r seg).2) (new N)) :=
  @Run.append_trace _ _ PushStep _ _ _ (fun r seg => (push r seg).2) (fun _ _ => rfl) segs .nil

theorem frames_reassembled_toy : (∃ segs, forEachSegment [1, 2] 3 6 = some segs ∧ segs.length = 2) ∧
    ∃ before segs, [[5, 0, 7], [5, 0x81, 8]] = before ++ segs ∧ Message segs [7, 8] := by
  obtain ⟨hcut, hmessage⟩ := frames_reassembled (pushes_run 2 [[5, 0, 7], [5, 0x81, 8]])
  obtain ⟨segs, hsegs, -, hpushed⟩ := hcut [1, 2] 3 6 (by decide) (by decide) (by decide)
  have hwhole : Whole (pushes 2 [[5, 0, 7], [5, 0x81, 8]]) := by
    rw [Whole]
    decide
  refine ⟨⟨segs, hsegs, ?_⟩, hmessage hwhole ((pushes 2 [[5, 0, 7], [5, 0x81, 8]]).take 1) _ [] [7, 8] rfl rfl⟩
  cases hsegs
  rfl

/-- A truncated segment in the midst of a message is refused, but the message goes on. -/
theorem truncated_amid_message :
    Run PushStep (new 2) (pushes 2 [[5, 0, 7], [1], [5, 0x81, 8]])
      ([[5, 0, 7], [1], [5, 0x81, 8]].foldl (fun r seg => (push r seg).2) (new 2)) ∧
    ((new 2).pushAll [[5, 0, 7], [1], [5, 0x81, 8]]).1 = [.ok none, .error .truncatedHeader, .ok (some [7, 8])] ∧
    ¬ ∃ before segs, [[5, 0, 7], [1], [5, 0x81, 8]] = before ++ segs ∧ Message segs [7, 8] := by
  refine ⟨pushes_run _ _, rfl, ?_⟩
  rintro ⟨before, segs, hpushed, msgId, payloads, last, -, rfl, -⟩
  rcases List.eq_nil_or_concat payloads with rfl | ⟨payloads, p, rfl⟩
  · obtain ⟨-, hlast⟩ := @List.append_inj' _ [[5, 0, 7], [1]] [[5, 0x81, 8]] before _ hpushed rfl
    simp [numbered, lastFlag] at hlast
  · rw [List.concat_eq_append, numbered_append, ← List.append_assoc, ← List.append_assoc] at hpushed
    obtain ⟨hbefore, -⟩ := @List.append_inj' _ [[5, 0, 7], [1]] [[5, 0x81, 8]] _ _ hpushed rfl
    obtain ⟨-, hshort⟩ := @List.append_inj' _ [[5, 0, 7]] [[1]] _ _ hbefore rfl
    simp at hshort

end toy

end Reassembler

end Micronuts
