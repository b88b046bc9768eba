import CgroupMembership.Roster.Basic
import CgroupMembership.Text.Quoted
/-!
# The JSON form of a roster

A roster is written as one line of JSON without spaces: the ids of its identity first, then its
records with their fields in a fixed order. An absent id is `null`.
-/

namespace CgroupMembership.Json

/-- A quoted text, or `null`. -/
def orNull : Option Text → Text
  | some t => Text.quoted t
  | none => "null".toList

/-- A JSON array of written values. -/
def array (values : List Text) : Text :=
  '[' :: (List.intercalate [','] values ++ [']'])

/-- The members of a JSON object: each name with its written value, in order. -/
def members (ms : List (Text × Text)) : Text :=
  List.intercalate [','] (ms.map fun m => Text.quoted m.1 ++ ':' :: m.2)

/-- A JSON object with these members. -/
def object (ms : List (Text × Text)) : Text :=
  '\x7b' :: (members ms ++ ['\x7d'])

/-- The members that name the two ids. -/
def idMembers (container : Option ContainerId) (pod : Option PodId) : List (Text × Text) :=
  [("container_id".toList, orNull (container.map ContainerId.digits)),
   ("pod_id".toList, orNull (pod.map PodId.text))]

end CgroupMembership.Json

namespace CgroupMembership

/-- The identity as a JSON object. -/
def Identity.toJson (i : Identity) : Text :=
  Json.object (Json.idMembers i.container i.pod)

/-- The members that name the fields of an entry; the number of the hierarchy is a JSON number. -/
def Entry.members (e : Entry) : List (Text × Text) :=
  [("hierarchy_id".toList, Text.writeDecimal e.hierarchy.toNat),
   ("path".toList, Text.quoted e.path),
   ("controllers".toList, Json.array (e.controllers.map Text.quoted))]

/-- A record as a JSON object. -/
def Record.toJson (r : Record) : Text :=
  Json.object (r.entry.members ++ Json.idMembers r.container r.pod)

/-- The roster as a JSON object, the ids of its identity beside the records. -/
def Roster.toJson (r : Roster) : Text :=
  Json.object
    (Json.idMembers r.identity.container r.identity.pod ++
      [("cgroups".toList, Json.array (r.records.map Record.toJson))])

end CgroupMembership
