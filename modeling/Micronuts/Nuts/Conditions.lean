import Micronuts.Nuts.Nut14

/-!
# What a condition that parses promises

A pathway is `Satisfiable` when its keys are distinct and its threshold, where one is given, is between one and
the number of its keys. Both kinds of condition are rejected unless each pathway is.
-/

namespace Micronuts
variable [Crypto]

structure Satisfiable (keys : List PublicKey) (required : Option UInt64) : Prop where
  distinct : (keys.map xCoordinate).Nodup
  threshold : ∀ n, required = some n → 0 < n ∧ n.toNat ≤ keys.length

theorem Satisfiable.getD_ne_zero {keys : List PublicKey} {required : Option UInt64} (h : Satisfiable keys required) :
    required.getD 1 ≠ 0 := by
  rcases hrequired : required with - | n
  · decide
  · have hpos := (h.threshold n hrequired).1
    rintro rfl
    exact absurd hpos (by decide)

/-! ### The checks -/

theorem duplicateXFrom_eq_false {seen : List (List UInt8)} {keys : List PublicKey}
    (h : duplicateXFrom seen keys = false) : (keys.map xCoordinate).Nodup ∧ ∀ k ∈ keys, xCoordinate k ∉ seen := by
  induction keys generalizing seen with
  | nil => exact ⟨List.nodup_nil, by simp⟩
  | cons p keys ih =>
    unfold duplicateXFrom at h
    split at h
    · cases h
    · next hp =>
      obtain ⟨hnodup, hseen⟩ := ih h
      rw [List.contains_iff_mem] at hp
      refine ⟨List.nodup_cons.2 ⟨fun hmem => ?_, hnodup⟩, fun k hk hks => ?_⟩
      · obtain ⟨k, hk, heq⟩ := List.mem_map.1 hmem
        exact hseen k hk (heq ▸ List.mem_cons_self ..)
      · rcases List.mem_cons.1 hk with rfl | hk
        · exact hp hks
        · exact hseen k hk (List.mem_cons_of_mem _ hks)

omit [Crypto] in
theorem checkMultisig_ok {required : Option UInt64} {available : Nat} (h : checkMultisig required available = .ok ()) :
    ∀ n, required = some n → n.toNat ≤ available := by
  rintro n rfl
  unfold checkMultisig at h
  dsimp only at h
  split at h
  · cases h
  · next hle => exact Nat.not_lt.1 hle

/-- No threshold is zero. -/
structure ConditionTags.Positive (tags : ConditionTags) : Prop where
  numSigs : ∀ n, tags.numSigs = some n → 0 < n
  numSigsRefund : ∀ n, tags.numSigsRefund = some n → 0 < n

omit [Crypto] in
theorem tagCount_pos {row : List String} {count : UInt64} (h : tagCount row = .ok count) : 0 < count := by
  obtain ⟨n, -, h⟩ := Except.bind_eq_ok.1 h
  split at h
  · cases h
  · next hne =>
    cases h
    rw [UInt64.lt_iff_toNat_lt, UInt64.toNat_zero]
    exact Nat.pos_of_ne_zero fun h0 => hne (UInt64.toNat_inj.1 h0)

theorem parseTagRow_positive {acc acc' : ConditionTags × SeenTags} {row : List String}
    (h : parseTagRow acc row = .ok acc') (hacc : acc.1.Positive) : acc'.1.Positive := by
  obtain ⟨parsed, saw⟩ := acc
  obtain ⟨hsigs, hrefund⟩ := hacc
  unfold parseTagRow at h
  dsimp only at h
  split at h
  · cases h
  · obtain ⟨-, -, h⟩ := Except.bind_eq_ok.1 h
    obtain ⟨value, -, h⟩ := Except.bind_eq_ok.1 h
    obtain ⟨flag, -, h⟩ := Except.bind_eq_ok.1 h
    cases h; exact ⟨hsigs, hrefund⟩
  · obtain ⟨-, -, h⟩ := Except.bind_eq_ok.1 h
    obtain ⟨keys, -, h⟩ := Except.bind_eq_ok.1 h
    cases h; exact ⟨hsigs, hrefund⟩
  · obtain ⟨-, -, h⟩ := Except.bind_eq_ok.1 h
    obtain ⟨count, hcount, h⟩ := Except.bind_eq_ok.1 h
    cases h
    refine ⟨fun n hn => ?_, hrefund⟩
    cases hn; exact tagCount_pos hcount
  · obtain ⟨-, -, h⟩ := Except.bind_eq_ok.1 h
    obtain ⟨time, -, h⟩ := Except.bind_eq_ok.1 h
    cases h; exact ⟨hsigs, hrefund⟩
  · obtain ⟨-, -, h⟩ := Except.bind_eq_ok.1 h
    obtain ⟨keys, -, h⟩ := Except.bind_eq_ok.1 h
    split at h
    · cases h
    · cases h; exact ⟨hsigs, hrefund⟩
  · obtain ⟨-, -, h⟩ := Except.bind_eq_ok.1 h
    obtain ⟨count, hcount, h⟩ := Except.bind_eq_ok.1 h
    cases h
    refine ⟨hsigs, fun n hn => ?_⟩
    cases hn; exact tagCount_pos hcount
  · cases h; exact ⟨hsigs, hrefund⟩

theorem parseConditionTags_ok {rows : List (List String)} {tags : ConditionTags}
    (h : parseConditionTags rows = .ok tags) :
    tags.Positive ∧ ∀ n, tags.numSigsRefund = some n → n.toNat ≤ tags.refundKeys.length := by
  obtain ⟨⟨parsed, saw⟩, hparse, h⟩ := Except.bind_eq_ok.1 h
  obtain ⟨⟨⟩, hcheck, h⟩ := Except.bind_eq_ok.1 h
  obtain rfl : parsed = tags := by cases h; rfl
  have hstart : ConditionTags.Positive {} := by
    constructor
    · intro n hn; cases hn
    · intro n hn; cases hn
  have hpos : parsed.Positive :=
    Except.foldlM_invariant (P := fun acc => acc.1.Positive) (fun _ _ _ => parseTagRow_positive) hparse hstart
  exact ⟨hpos, checkMultisig_ok hcheck⟩

/-! ### The two kinds -/

namespace P2pkConditions

structure WellFormed (c : P2pkConditions) (secret : Secret) : Prop where
  key : parseCompressedPubkey secret.data = some c.dataPubkey
  primary : Satisfiable c.signingPubkeys c.numSigs
  refund : Satisfiable c.refundKeys c.numSigsRefund

theorem wellFormed {secret : Secret} {c : P2pkConditions} (h : fromSecret secret = .ok c) : c.WellFormed secret := by
  unfold fromSecret at h
  split at h
  · cases h
  · obtain ⟨key, hkey, h⟩ := Except.bind_eq_ok.1 h
    obtain ⟨tags, htags, h⟩ := Except.bind_eq_ok.1 h
    obtain ⟨⟨⟩, hcheck, h⟩ := Except.bind_eq_ok.1 h
    obtain ⟨hpos, hrefund⟩ := parseConditionTags_ok htags
    split at h
    · cases h
    · next hprimary =>
      split at h
      · cases h
      · next hdistinct =>
        cases h
        refine ⟨Except.okOr_eq_ok.1 hkey, ⟨?_, fun n hn => ⟨hpos.numSigs n hn, ?_⟩⟩, ?_, fun n hn => ?_⟩
        · exact (duplicateXFrom_eq_false (Bool.not_eq_true _ ▸ hprimary)).1
        · have := checkMultisig_ok hcheck n hn
          simp only [signingPubkeys, List.length_cons]; omega
        · exact (duplicateXFrom_eq_false (Bool.not_eq_true _ ▸ hdistinct)).1
        · exact ⟨hpos.numSigsRefund n hn, hrefund n hn⟩

/-- The conditions are read from `kind`, `data` and `tags` only. -/
theorem fromSecret_congr {s s' : Secret} (hkind : s.kind = s'.kind) (hdata : s.data = s'.data)
    (htags : s.tags = s'.tags) : fromSecret s = fromSecret s' := by
  unfold fromSecret Secret.tagRows
  rw [hkind, hdata, htags]

end P2pkConditions

omit [Crypto] in
theorem tagError_eq_ok {α : Type} {x : Except P2pkError α} {a : α} : tagError x = .ok a ↔ x = .ok a := by
  cases x with
  | ok b => simp [tagError]
  | error e => simp [tagError]

namespace HtlcConditions

structure WellFormed (c : HtlcConditions) (secret : Secret) : Prop where
  hash : decode32Bytes secret.data = some c.dataHash
  receiver : Satisfiable c.pubkeys c.numSigs
  refund : Satisfiable c.refundKeys c.numSigsRefund

theorem wellFormed {secret : Secret} {c : HtlcConditions} (h : fromSecret secret = .ok c) : c.WellFormed secret := by
  unfold fromSecret at h
  split at h
  · cases h
  · obtain ⟨hash, hhash, h⟩ := Except.bind_eq_ok.1 h
    obtain ⟨tags, htags, h⟩ := Except.bind_eq_ok.1 h
    obtain ⟨⟨⟩, hcheck, h⟩ := Except.bind_eq_ok.1 h
    obtain ⟨hpos, hrefund⟩ := parseConditionTags_ok (tagError_eq_ok.1 htags)
    split at h
    · cases h
    · next hreceiver =>
      split at h
      · cases h
      · next hdistinct =>
        cases h
        refine ⟨Except.okOr_eq_ok.1 hhash, ⟨?_, fun n hn => ?_⟩, ?_, fun n hn => ?_⟩
        · exact (duplicateXFrom_eq_false (Bool.not_eq_true _ ▸ hreceiver)).1
        · exact ⟨hpos.numSigs n hn, checkMultisig_ok (tagError_eq_ok.1 hcheck) n hn⟩
        · exact (duplicateXFrom_eq_false (Bool.not_eq_true _ ▸ hdistinct)).1
        · exact ⟨hpos.numSigsRefund n hn, hrefund n hn⟩

theorem fromSecret_congr {s s' : Secret} (hkind : s.kind = s'.kind) (hdata : s.data = s'.data)
    (htags : s.tags = s'.tags) : fromSecret s = fromSecret s' := by
  unfold fromSecret Secret.tagRows
  rw [hkind, hdata, htags]

end HtlcConditions

end Micronuts
