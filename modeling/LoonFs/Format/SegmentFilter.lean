import LoonFs.Format.SegmentBlocks

/-! # Segment filters

A bit that an insertion sets stays set, so a filter admits every inserted key.
-/

namespace LoonFs

open Foundation

def HasBit (bits : Bytes) (bit : Nat) : Prop := bits.getD (bit / 8) 0 &&& bitMask bit ≠ 0

namespace HasBit

private theorem mask_ne_zero (bit : Nat) : bitMask bit ≠ 0 := by
  have bound : bit % 8 < 8 := Nat.mod_lt _ (by decide)
  rw [bitMask]
  generalize bit % 8 = position at bound ⊢
  revert position
  decide

private theorem or_and (byte added mask : UInt8) :
    (byte ||| added) &&& mask = byte &&& mask ||| added &&& mask := by
  apply UInt8.toBitVec_inj.mp
  simp only [UInt8.toBitVec_and, UInt8.toBitVec_or]
  exact BitVec.and_or_distrib_right

variable {builder : SegmentFilterBuilder}

theorem insert_self (inside : bit / 8 < builder.bits.length) :
    HasBit (builder.insertBit bit).bits bit := by
  rw [HasBit, SegmentFilterBuilder.insertBit, List.getD_eq_getElem?_getD, List.getElem?_modify,
    List.getElem?_eq_getElem inside]
  simp only [if_true, Option.map_eq_map, Option.map_some, Option.getD_some]
  rw [or_and, UInt8.and_self]
  exact fun zero => mask_ne_zero bit (UInt8.or_eq_zero_iff.mp zero).2

theorem insert (held : HasBit builder.bits bit) (added : Nat) :
    HasBit (builder.insertBit added).bits bit := by
  rw [HasBit, List.getD_eq_getElem?_getD] at held ⊢
  rw [SegmentFilterBuilder.insertBit, List.getElem?_modify]
  split
  case isTrue same =>
    cases byte : builder.bits[bit / 8]? with
    | none => simp [byte] at held
    | some value =>
      rw [byte] at held
      change (value ||| bitMask added) &&& bitMask bit ≠ 0
      rw [or_and]
      exact fun zero => held (UInt8.or_eq_zero_iff.mp zero).1
  case isFalse => simpa using held

end HasBit

namespace SegmentFilterBuilder

structure Extends (before after : SegmentFilterBuilder) : Prop where
  bitLen : after.bitLen = before.bitLen
  length : after.bits.length = before.bits.length
  keeps : ∀ bit, HasBit before.bits bit → HasBit after.bits bit

namespace Extends

theorem refl (builder : SegmentFilterBuilder) : Extends builder builder :=
  ⟨rfl, rfl, fun _ held => held⟩

theorem trans (past : Extends first second) (later : Extends second third) : Extends first third :=
  ⟨later.bitLen.trans past.bitLen, later.length.trans past.length,
    fun bit held => later.keeps bit (past.keeps bit held)⟩

theorem insertBit (builder : SegmentFilterBuilder) (bit : Nat) :
    Extends builder (builder.insertBit bit) :=
  ⟨rfl, List.length_modify _ _ _, fun _ held => held.insert bit⟩

end Extends

structure Sized (builder : SegmentFilterBuilder) : Prop where
  positive : 64 ≤ builder.bitLen
  fits : builder.bitLen ≤ u64Max
  length : builder.bits.length = (builder.bitLen + 7) / 8

variable {before : SegmentFilterBuilder}

theorem Sized.extends (sized : before.Sized) (extended : Extends before after) : after.Sized := by
  refine ⟨?_, ?_, ?_⟩
  · exact extended.bitLen ▸ sized.positive
  · exact extended.bitLen ▸ sized.fits
  · rw [extended.length, extended.bitLen, sized.length]

variable {builder : SegmentFilterBuilder}

theorem Sized.inside (sized : builder.Sized) (hashes : UInt64 × UInt64) (probe : Nat) :
    filterBit builder.bitLen hashes probe / 8 < builder.bits.length := by
  have positive := sized.positive
  have bound : filterBit builder.bitLen hashes probe < builder.bitLen := Nat.mod_lt _ (by omega)
  rw [sized.length]
  omega

theorem withBitsPerKey_sized (expectedKeys bitsPerKey : Nat) :
    (withBitsPerKey expectedKeys bitsPerKey).Sized := by
  refine ⟨Nat.le_max_right _ _, ?_, ?_⟩
  · exact Nat.max_le.mpr ⟨Nat.min_le_right _ _, by decide⟩
  · simp [withBitsPerKey]

def Admits (builder : SegmentFilterBuilder) (hashes : UInt64 × UInt64) : Prop :=
  ∀ probe < filterHashCount, HasBit builder.bits (filterBit builder.bitLen hashes probe)

theorem Admits.extends (admits : before.Admits hashes) (extended : Extends before after) :
    after.Admits hashes := by
  intro probe bound
  rw [extended.bitLen]
  exact extended.keeps _ (admits probe bound)

private theorem foldl_insertBit (sized : builder.Sized) (hashes : UInt64 × UInt64)
    (probes : List Nat) :
    let after := probes.foldl
      (fun builder probe => builder.insertBit (filterBit builder.bitLen hashes probe)) builder
    Extends builder after ∧
      ∀ probe ∈ probes, HasBit after.bits (filterBit builder.bitLen hashes probe) := by
  induction probes generalizing builder with
  | nil => exact ⟨.refl builder, by simp⟩
  | cons probe probes induction =>
    have step := Extends.insertBit builder (filterBit builder.bitLen hashes probe)
    have later := induction (sized.extends step)
    refine ⟨step.trans later.1, ?_⟩
    intro other mem
    rcases List.mem_cons.mp mem with eq | mem
    · subst eq
      exact later.1.keeps _ (HasBit.insert_self (sized.inside hashes other))
    · exact later.2 other mem

theorem insertHashes_spec (sized : builder.Sized) (hashes : UInt64 × UInt64) :
    Extends builder (builder.insertHashes hashes) ∧
      (builder.insertHashes hashes).Admits hashes := by
  have spec := foldl_insertBit sized hashes (List.range filterHashCount)
  have extended : Extends builder (builder.insertHashes hashes) := spec.1
  refine ⟨extended, ?_⟩
  intro probe bound
  rw [extended.bitLen]
  exact spec.2 probe (List.mem_range.mpr bound)

theorem foldl_insertHashes (sized : builder.Sized) (inserted : List (UInt64 × UInt64)) :
    Extends builder (inserted.foldl insertHashes builder) ∧
      ∀ hashes ∈ inserted, (inserted.foldl insertHashes builder).Admits hashes := by
  induction inserted generalizing builder with
  | nil => exact ⟨.refl builder, by simp⟩
  | cons first inserted induction =>
    rcases insertHashes_spec sized first with ⟨step, admitted⟩
    rcases induction (sized.extends step) with ⟨later, admittedLater⟩
    rw [List.foldl_cons]
    refine ⟨step.trans later, ?_⟩
    intro hashes mem
    rcases List.mem_cons.mp mem with eq | mem
    · subst eq
      exact admitted.extends later
    · exact admittedLater hashes mem

def toFilter (builder : SegmentFilterBuilder) : SegmentFilter :=
  { hashCount := filterHashCount, bitLen := builder.bitLen, bits := builder.bits }

theorem fromPayload_finish (sized : builder.Sized) :
    SegmentFilter.fromPayload builder.finish = .ok builder.toFilter := by
  have payload : builder.finish =
      leBytes 4 filterHashCount ++ (leBytes 8 builder.bitLen ++ builder.bits) := by
    simp [finish]
  have count : fromLeBytes (builder.finish.take 4) = filterHashCount := by
    rw [payload, List.take_left' (length_leBytes 4 _)]
    exact fromLeBytes_leBytes (by decide)
  have bitLen : fromLeBytes ((builder.finish.drop 4).take 8) = builder.bitLen := by
    rw [payload, List.drop_left' (length_leBytes 4 _), List.take_left' (length_leBytes 8 _)]
    apply fromLeBytes_leBytes
    exact Nat.lt_of_le_of_lt sized.fits (by decide)
  have bits : builder.finish.drop 12 = builder.bits := by
    rw [finish]
    exact List.drop_left' (by simp)
  have long : ¬builder.finish.length < 12 := by
    simp only [finish, List.length_append, length_leBytes]
    omega
  simp only [SegmentFilter.fromPayload, long, count, bitLen, bits, sized.length, ne_eq,
    not_true_eq_false, not_lt.mpr sized.positive, if_false]
  rfl

theorem Admits.mayContainHashes (admits : builder.Admits hashes) :
    builder.toFilter.mayContainHashes hashes := by
  simp only [SegmentFilter.mayContainHashes, List.all_eq_true, List.mem_range, bne_iff_ne]
  exact admits

end SegmentFilterBuilder

theorem buildFilterPayload_spec (inserted : List (UInt64 × UInt64)) (bitsPerKey : Nat) :
    ∃ filter, SegmentFilter.fromPayload (buildFilterPayload inserted bitsPerKey) = .ok filter ∧
      ∀ hashes ∈ inserted, filter.mayContainHashes hashes := by
  have sized := SegmentFilterBuilder.withBitsPerKey_sized inserted.length bitsPerKey
  have spec := SegmentFilterBuilder.foldl_insertHashes sized inserted
  refine ⟨_, SegmentFilterBuilder.fromPayload_finish (sized.extends spec.1), ?_⟩
  exact fun hashes mem => (spec.2 hashes mem).mayContainHashes

end LoonFs
