import CgroupMembership.Id.Basic
import CgroupMembership.Path.Pattern
/-!
# The ids in a cgroup path

The two most specific segments of a path name the workload: the leaf ends in the container id, and
the segment above it ends in the pod id. A service manager may have added a unit suffix to either.
`ids_eq_of_segments` says that no other segment and no doubled slash matters.
-/

namespace CgroupMembership.Path

/-- The parts of a path between slashes, without the empty ones. -/
def segments (path : Text) : List Text :=
  (path.splitOn '/').filter fun s => !s.isEmpty

/-- The ending of the name of a scope unit. -/
def scopeEnding : Text := ".scope".toList

/-- The ending of the name of a slice unit. -/
def sliceEnding : Text := ".slice".toList

/-- A leaf without its unit suffix: one of `.scope` and `.slice`, never both. -/
def stripUnit (leaf : Text) : Text :=
  match Text.stripEnding? scopeEnding leaf with
  | some t => t
  | none => (Text.stripEnding? sliceEnding leaf).getD leaf

/-- The container id at the end of a leaf, its separators dropped. -/
def leafId? (leaf : Text) : Option ContainerId :=
  (finalId? (stripUnit leaf)).bind fun w => (ContainerId.ofText (Text.dropSeparators w)).toOption

/-- The pod id at the end of the segment above the leaf. -/
def podId? (segment : Text) : Option PodId :=
  (finalPodId? ((Text.stripEnding? sliceEnding segment).getD segment)).bind fun w =>
    (PodId.ofText w).toOption

/-- The ids that a list of segments names, the most specific segment first. -/
def idsOfReversed : List Text → Option ContainerId × Option PodId
  | [] => (none, none)
  | [leaf] => (leafId? leaf, none)
  | leaf :: parent :: _ => (leafId? leaf, podId? parent)

/-- The container id and the pod id that a path names. -/
def ids (path : Text) : Option ContainerId × Option PodId :=
  idsOfReversed (segments path).reverse

theorem ids_eq_of_segments {p q : Text}
    (h : (segments p).reverse.take 2 = (segments q).reverse.take 2) : ids p = ids q := by
  have key : ∀ l : List Text, idsOfReversed l = idsOfReversed (l.take 2) := by
    intro l
    match l with
    | [] => rfl
    | [_] => rfl
    | _ :: _ :: _ => rfl
  rw [ids, ids, key, h, ← key]

end CgroupMembership.Path
