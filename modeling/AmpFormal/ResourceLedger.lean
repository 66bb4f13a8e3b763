import Mathlib.Data.List.Nodup
import Mathlib.Logic.Function.Basic

/-!
# Who holds which resource

A ledger of indivisible resources: every owner holds a list of them, the rest
may be free. It is sound when nothing is listed twice and nothing held is free.
Two rules cover all transitions: handing free resources to one owner, and any
mixture of giving up, freeing and forgetting.
-/

namespace AmpFormal.ResourceLedger

set_option autoImplicit false

variable {Owner Resource : Type*}

structure Ledger (owner : Owner → Prop) (holds : Owner → List Resource)
    (free : Resource → Prop) : Prop where
  nodup : ∀ who, owner who → (holds who).Nodup
  disjoint : ∀ who other, owner who → owner other → who ≠ other →
    (holds who).Disjoint (holds other)
  apart : ∀ who, owner who → ∀ resource ∈ holds who, ¬free resource

variable {owner later : Owner → Prop} {holds kept : Owner → List Resource}
  {free left : Resource → Prop}

theorem ledger_empty (nothing : ∀ who, owner who → holds who = []) : Ledger owner holds free := by
  refine ⟨?_, ?_, ?_⟩
  · intro who owns
    rw [nothing who owns]
    exact List.nodup_nil
  · intro who other owns _ _
    rw [nothing who owns]
    exact List.disjoint_nil_left _
  · intro who owns resource member
    rw [nothing who owns] at member
    cases member

/-- Owners may leave, arrive with nothing and give up part of what they hold, and
whatever nobody holds any more may become free. -/
theorem ledger_shrink (ledger : Ledger owner holds free)
    (fewer : ∀ who, later who → (owner who ∧ (kept who).Sublist (holds who)) ∨ kept who = [])
    (freed : ∀ resource, left resource →
      free resource ∨ ∀ who, later who → resource ∉ kept who) :
    Ledger later kept left := by
  refine ⟨?_, ?_, ?_⟩
  · intro who owns
    rcases fewer who owns with ⟨owned, part⟩ | nothing
    · exact (ledger.nodup who owned).sublist part
    · rw [nothing]
      exact List.nodup_nil
  · intro who other owns otherOwns different
    rcases fewer who owns with ⟨owned, part⟩ | nothing
    · rcases fewer other otherOwns with ⟨otherOwned, otherPart⟩ | otherNothing
      · intro resource member otherMember
        exact ledger.disjoint who other owned otherOwned different (part.subset member)
          (otherPart.subset otherMember)
      · rw [otherNothing]
        exact List.disjoint_nil_right _
    · rw [nothing]
      exact List.disjoint_nil_left _
  · intro who owns resource member idle
    rcases freed resource idle with before | unheld
    · rcases fewer who owns with ⟨owned, part⟩ | nothing
      · exact ledger.apart who owned resource (part.subset member) before
      · rw [nothing] at member
        cases member
    · exact unheld who owns member

theorem ledger_rearrange [DecidableEq Owner] (ledger : Ledger owner holds free) (holder : Owner)
    {items : List Resource} (same : items.Perm (holds holder)) :
    Ledger owner (Function.update holds holder items) free := by
  have perm : ∀ who, (Function.update holds holder items who).Perm (holds who) := by
    intro who
    by_cases at_holder : who = holder
    · subst at_holder
      rw [Function.update_self]
      exact same
    · rw [Function.update_of_ne at_holder]
  refine ⟨?_, ?_, ?_⟩
  · intro who owns
    exact (perm who).nodup_iff.mpr (ledger.nodup who owns)
  · intro who other owns otherOwns different resource member otherMember
    exact ledger.disjoint who other owns otherOwns different ((perm who).mem_iff.mp member)
      ((perm other).mem_iff.mp otherMember)
  · intro who owns resource member
    exact ledger.apart who owns resource ((perm who).mem_iff.mp member)

theorem ledger_grant [DecidableEq Owner] (ledger : Ledger owner holds free) (receiver : Owner)
    {granted : List Resource} (distinct : granted.Nodup)
    (wasFree : ∀ resource ∈ granted, free resource)
    (remaining : ∀ resource, left resource → free resource ∧ resource ∉ granted) :
    Ledger owner (Function.update holds receiver (holds receiver ++ granted)) left := by
  have new : ∀ who, owner who → (holds who).Disjoint granted := by
    intro who owns resource member given
    exact ledger.apart who owns resource member (wasFree resource given)
  refine ⟨?_, ?_, ?_⟩
  · intro who owns
    by_cases same : who = receiver
    · subst same
      rw [Function.update_self]
      exact (ledger.nodup who owns).append distinct (new who owns)
    · rw [Function.update_of_ne same]
      exact ledger.nodup who owns
  · intro who other owns otherOwns different
    by_cases same : who = receiver
    · subst same
      rw [Function.update_self, Function.update_of_ne (Ne.symm different)]
      exact List.disjoint_append_left.mpr
        ⟨ledger.disjoint who other owns otherOwns different,
          fun _ given held => new other otherOwns held given⟩
    · rw [Function.update_of_ne same]
      by_cases otherSame : other = receiver
      · subst otherSame
        rw [Function.update_self]
        exact List.disjoint_append_right.mpr
          ⟨ledger.disjoint who other owns otherOwns different, new who owns⟩
      · rw [Function.update_of_ne otherSame]
        exact ledger.disjoint who other owns otherOwns different
  · intro who owns resource member idle
    rcases remaining resource idle with ⟨before, ungranted⟩
    by_cases same : who = receiver
    · subst same
      rw [Function.update_self, List.mem_append] at member
      exact ledger.apart who owns resource (member.resolve_right ungranted) before
    · rw [Function.update_of_ne same] at member
      exact ledger.apart who owns resource member before

end AmpFormal.ResourceLedger
