/-
JSON documents and RFC 7386 merge patches.

A value that is not null is an object or an atom; an atom is anything that a
patch replaces as a whole, arrays included. What an object has under a name is
nothing, null (`some none`) or a value, so that objects are compared without
regard to the order of their members.

`Json.mergeMember_eq_iff`: a patch leaves exactly what it says where it replaces what
was there, that is, where it has no null and no object in it lacks a member of
the object that it is merged into.

`Json.Effect` is what any sequence of patches, replacements and removals comes
to at one place; doing one of them before a sequence that ends with it makes no
difference (`Json.Effect.apply_absorbed`).
-/
namespace Lib

inductive Json (F S : Type) where
  | atom (s : S)
  | object (members : F → Option (Option (Json F S)))

namespace Json

variable {F S : Type}

/-- The members of a value; what is not an object has none. -/
def members : Option (Json F S) → F → Option (Option (Json F S))
  | some (.object ms), f => ms f
  | _, _ => none

mutual

/-- The value a patch makes of what was there. -/
def merge (target : Option (Json F S)) : Json F S → Json F S
  | .atom s => .atom s
  | .object patch => .object fun f => mergeMember (members target f) (patch f)

/-- A member that the patch does not have stays. -/
def mergeMember (target : Option (Option (Json F S))) : Option (Option (Json F S)) → Option (Option (Json F S))
  | none => target
  | some patch => mergeNullable target patch

/-- A null removes the member. -/
def mergeNullable (target : Option (Option (Json F S))) : Option (Json F S) → Option (Option (Json F S))
  | none => none
  | some patch => some (some (merge target.join patch))

end

mutual

/-- The patch takes the place of what was there. -/
def Replaces (target : Option (Json F S)) : Json F S → Prop
  | .atom _ => True
  | .object patch => ∀ f, ReplacesMember (members target f) (patch f)

/-- What the patch does not have was not there. -/
def ReplacesMember (target : Option (Option (Json F S))) : Option (Option (Json F S)) → Prop
  | none => target = none
  | some patch => ReplacesNullable target patch

/-- The patch is not null. -/
def ReplacesNullable (target : Option (Option (Json F S))) : Option (Json F S) → Prop
  | none => False
  | some patch => Replaces target.join patch

end

/-- What a merge leaves is the patch exactly if the patch takes the place of
what was there, for a value, a member and a member that may be null. -/
theorem merge_eq_iff_all :
    (∀ (target : Option (Json F S)) patch, merge target patch = patch ↔ Replaces target patch) ∧
      (∀ (target : Option (Option (Json F S))) patch, mergeMember target patch = patch ↔ ReplacesMember target patch) ∧
      ∀ (target : Option (Option (Json F S))) patch,
        mergeNullable target patch = some patch ↔ ReplacesNullable target patch := by
  apply merge.mutual_induct
  case case1 =>
    intro target s
    simp only [merge, Replaces]
  case case2 =>
    intro target patch ih
    simp only [merge, Replaces, object.injEq, funext_iff, ih]
  case case3 =>
    intro target
    simp only [mergeMember, ReplacesMember]
  case case4 =>
    intro target patch ih
    simpa only [mergeMember, ReplacesMember] using ih
  case case5 =>
    intro target
    simp only [mergeNullable, ReplacesNullable, reduceCtorEq]
  case case6 =>
    intro target patch ih
    simp only [mergeNullable, ReplacesNullable, Option.some.injEq, ih]

theorem mergeMember_eq_iff (target patch : Option (Option (Json F S))) :
    mergeMember target patch = patch ↔ ReplacesMember target patch := merge_eq_iff_all.2.1 target patch

/-! ## Sequences of patches -/

theorem members_object (ms : F → Option (Option (Json F S))) (f : F) : members (some (.object ms)) f = ms f := rfl

/-- What happens to a member: it stays, it becomes what is given, or it becomes
an object with something done to each of its members. -/
inductive Effect (F S : Type) where
  | keep
  | const (member : Option (Option (Json F S)))
  | object (effects : F → Effect F S)

namespace Effect

def apply : Effect F S → Option (Option (Json F S)) → Option (Option (Json F S))
  | keep, m => m
  | const member, _ => member
  | object effects, m => some (some (.object fun f => (effects f).apply (members m.join f)))

/-- The first, then the second. -/
def comp : Effect F S → Effect F S → Effect F S
  | e, keep => e
  | _, const member => const member
  | keep, object effects => object effects
  | const member, object effects => const ((object effects).apply member)
  | object effects, object effects' => object fun f => (effects f).comp (effects' f)

theorem apply_comp (e e' : Effect F S) (m : Option (Option (Json F S))) : (e.comp e').apply m = e'.apply (e.apply m) := by
  induction e' generalizing e m with
  | keep => simp only [comp, apply]
  | const member => simp only [comp, apply]
  | object effects' ih =>
    cases e with
    | keep => simp only [comp, apply]
    | const member => simp only [comp, apply]
    | object effects => simp only [comp, apply, Option.join_some, members_object, ih]

/-- **What is done again at the end need not be done before.** -/
theorem apply_absorbed (e u : Effect F S) (m : Option (Option (Json F S))) :
    e.apply (u.apply (e.apply m)) = e.apply (u.apply m) := by
  induction e generalizing u m with
  | keep => simp only [apply]
  | const member => simp only [apply]
  | object effects ih =>
    cases u with
    | keep =>
      have hkeep (f : F) := ih f .keep (members m.join f)
      simp only [apply] at hkeep
      simp only [apply, Option.join_some, members_object, hkeep]
    | const member => simp only [apply]
    | object effects' => simp only [apply, Option.join_some, members_object, ih]

mutual

/-- The effect of a patch on a value. -/
def ofPatch : Json F S → Effect F S
  | .atom s => const (some (some (.atom s)))
  | .object patch => object fun f => ofMember (patch f)

def ofMember : Option (Option (Json F S)) → Effect F S
  | none => keep
  | some patch => ofNullable patch

def ofNullable : Option (Json F S) → Effect F S
  | none => const none
  | some patch => ofPatch patch

end

theorem apply_ofPatch_all :
    (∀ (target : Option (Json F S)) patch, ∀ m : Option (Option (Json F S)), m.join = target →
      (ofPatch patch).apply m = some (some (merge target patch))) ∧
      (∀ (target : Option (Option (Json F S))) patch, (ofMember patch).apply target = mergeMember target patch) ∧
      ∀ (target : Option (Option (Json F S))) patch, (ofNullable patch).apply target = mergeNullable target patch := by
  apply merge.mutual_induct
  case case1 =>
    intro target s m _
    simp only [ofPatch, apply, merge]
  case case2 =>
    rintro target patch ih m rfl
    simp only [ofPatch, apply, merge, ih]
  case case3 =>
    intro target
    simp only [ofMember, apply, mergeMember]
  case case4 =>
    intro target patch ih
    simpa only [ofMember, mergeMember] using ih
  case case5 =>
    intro target
    simp only [ofNullable, apply, mergeNullable]
  case case6 =>
    intro target patch ih
    simpa only [ofNullable, mergeNullable] using ih target rfl

theorem apply_ofMember (target patch : Option (Option (Json F S))) :
    (ofMember patch).apply target = mergeMember target patch := apply_ofPatch_all.2.1 target patch

end Effect

end Json

end Lib
