import LoonFs.Metadata.EffectiveRights

/-! # Where a right comes from -/

namespace LoonFs

open Foundation List

namespace AccessRights

theorem contains_union (left right : AccessRights) (wanted : AccessRight) :
    (left.union right).contains wanted = (left.contains wanted || right.contains wanted) := by
  have distributes : (left.bits ||| right.bits) &&& wanted.bit =
      left.bits &&& wanted.bit ||| right.bits &&& wanted.bit :=
    UInt8.toBitVec_inj.mp BitVec.and_or_distrib_right
  rw [contains, contains, contains, union, Bool.eq_iff_iff]
  simp only [distributes, bne_iff_ne, Bool.or_eq_true, ne_eq]
  rw [← not_and_or, not_iff_not, UInt8.or_eq_zero_iff]

theorem contains_difference_admin (rights : AccessRights) (wanted : AccessRight) :
    (rights.difference .admin).contains wanted = (rights.contains wanted && wanted != .admin) := by
  have kept : (~~~AccessRight.admin.bit &&& wanted.bit) =
      if wanted = .admin then 0 else wanted.bit := by cases wanted <;> rfl
  rw [contains, difference, admin, UInt8.and_assoc, kept]
  by_cases isAdmin : wanted = .admin <;> simp [isAdmin, contains]

theorem contains_foldr (grants : List AccessRights) (wanted : AccessRight) :
    (grants.foldr union .empty).contains wanted = grants.any (·.contains wanted) := by
  induction grants with
  | nil => simp [contains, empty]
  | cons grant grants induction => rw [foldr_cons, contains_union, induction, any_cons]

end AccessRights

namespace MetadataVisibilityReads

variable {reads : MetadataVisibilityReads} {principals : PrincipalSet}

def Grants (reads : MetadataVisibilityReads) (principals : PrincipalSet) (inodeId : InodeId)
    (right : AccessRight) : Prop :=
  ∃ row, reads.findAccessRow inodeId = some row ∧
    ∃ principal ∈ principals, (row.grants.get principal).contains right = true

theorem grantedRights_contains (inodeId : InodeId) (right : AccessRight) :
    (reads.grantedRights principals inodeId).contains right = true ↔
      reads.Grants principals inodeId right := by
  rw [grantedRights, Grants]
  cases reads.findAccessRow inodeId with
  | none => simp [AccessRights.contains, AccessRights.empty]
  | some row => simp [AccessRights.contains_foldr]

theorem HasRights.contains_iff (has : reads.HasRights principals inodeId rights)
    (notAdministrator : reads.isAdministrator principals = false) (right : AccessRight) :
    rights.contains right = true ↔ right ≠ .admin ∧ ∃ granting,
      AtOrBelow reads.inheritsFrom inodeId granting ∧ reads.Grants principals granting right := by
  rw [HasRights, if_neg (by simp [notAdministrator])] at has
  rcases has with ⟨chain, isChain, rfl⟩
  rw [chainRights, AccessRights.contains_difference_admin, AccessRights.contains_foldr, any_map,
    Bool.and_eq_true, and_comm, bne_iff_ne, any_eq_true]
  simp only [Function.comp_apply, grantedRights_contains, isChain.mem_iff]

end MetadataVisibilityReads

/-- Every query is answered, and whoever does not administer the namespace has a right at an inode
exactly if it is granted on the way up to the nearest boundary, whatever the memo has seen. -/
theorem rights_come_from_grants (rows : FamilyRows) (seq floor : ChangeSeq)
    (principals : PrincipalSet) (queries : List InodeId)
    (acyclic : Acyclic (rows.readsAt seq floor).inheritsFrom)
    (notAdministrator : (rows.readsAt seq floor).isAdministrator principals = false) :
    List.Forall₂ (fun inodeId answer => ∃ rights, answer = .ok rights ∧ ∀ right,
        rights.contains right = true ↔ right ≠ .admin ∧ ∃ granting,
          AtOrBelow (rows.readsAt seq floor).inheritsFrom inodeId granting ∧
            (rows.readsAt seq floor).Grants principals granting right) queries
      (EffectiveRightsMemo.answers (rows.readsAt seq floor) principals rows.accessWalkBudget {}
        queries) := by
  have valid : EffectiveRightsMemo.Valid (rows.readsAt seq floor) principals {} :=
    ⟨by rintro _ ⟨⟩, by rintro _ _ ⟨⟩⟩
  refine (EffectiveRightsMemo.answers_answered valid fun inodeId _ => ?_).imp ?_
  · rcases acyclic inodeId with ⟨chain, isChain⟩
    exact ⟨chain, isChain, rows.inheritance_length_le isChain⟩
  · rintro inodeId answer ⟨rights, answered, has⟩
    exact ⟨rights, answered, has.contains_iff notAdministrator⟩

open SampleAccess in
/-- Queries below a boundary, in a recoverable deletion and in one past recovery, whose memo has
seen the inodes above them. -/
theorem rights_come_from_grants_sample :
    EffectiveRightsMemo.answers reads ["reader"] rows.accessWalkBudget {} [1, 3, 2, 4, 5] =
      [.ok ⟨5⟩, .ok ⟨2⟩, .ok ⟨2⟩, .ok ⟨5⟩, .ok ⟨8⟩] ∧
    List.Forall₂ (fun inodeId answer => ∃ rights, answer = .ok rights ∧ ∀ right,
        rights.contains right = true ↔ right ≠ .admin ∧ ∃ granting,
          AtOrBelow reads.inheritsFrom inodeId granting ∧
            reads.Grants ["reader"] granting right) [1, 3, 2, 4, 5]
      (EffectiveRightsMemo.answers reads ["reader"] rows.accessWalkBudget {} [1, 3, 2, 4, 5]) :=
  ⟨by decide +kernel, rights_come_from_grants rows 3 2 ["reader"] _ acyclic (by decide +kernel)⟩

end LoonFs
