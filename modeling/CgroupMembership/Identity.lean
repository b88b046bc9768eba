import CgroupMembership.Id.Basic
/-!
# Identities

What is known about the workload that a process belongs to: the id of its container and the id of
its pod, either of which may be unknown. Finding ids adds to an identity; the ids found last win,
each on its own (`learn_container`, `learn_pod`).
-/

namespace CgroupMembership

/-- The ids of the workload that a process belongs to. -/
structure Identity where
  container : Option ContainerId
  pod : Option PodId
  deriving DecidableEq

/-- How an identity is found: from the first container id in sight, or from every entry. -/
inductive Mode where
  | fast
  | detailed
  deriving DecidableEq, Repr

/-- The name of the mode. -/
def Mode.name : Mode → Text
  | .fast => "Fast".toList
  | .detailed => "Detailed".toList

namespace Identity

/-- Nothing is known. -/
def unknown : Identity := ⟨none, none⟩

/-- Whether neither id is known. -/
def isEmpty (i : Identity) : Bool :=
  i.container.isNone && i.pod.isNone

/-- Takes over each id that was found and keeps the others. -/
def learn (i : Identity) (found : Option ContainerId × Option PodId) : Identity :=
  ⟨found.1.or i.container, found.2.or i.pod⟩

theorem learn_container (i : Identity) (found : Option ContainerId × Option PodId) :
    (i.learn found).container = found.1.or i.container := rfl

theorem learn_pod (i : Identity) (found : Option ContainerId × Option PodId) :
    (i.learn found).pod = found.2.or i.pod := rfl

/-- One id as the log shows it: its type around the quoted text, or that there is none. -/
def describeId (type : Text) : Option Text → Text
  | some t => "Some(".toList ++ type ++ "(\"".toList ++ t ++ "\"))".toList
  | none => "None".toList

/-- The identity as the log shows it. -/
def describe (i : Identity) : Text :=
  "Identity \x7b container_id: ".toList ++
    describeId "ContainerID".toList (i.container.map ContainerId.digits) ++
    ", pod_id: ".toList ++ describeId "PodID".toList (i.pod.map PodId.text) ++ " \x7d".toList

end Identity

end CgroupMembership
