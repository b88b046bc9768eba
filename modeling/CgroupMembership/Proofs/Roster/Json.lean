import CgroupMembership.Proofs.Json.Values
/-!
# Nothing is lost in the JSON form

Identities, records and rosters are written as JSON objects, so their fields can be told from the text:
an id from an absent one, a controller from the next and a record from the next. Rosters that are written alike
are alike, and so are identities, and either form is a single line (`Roster.toJson_faithful`).
-/

namespace CgroupMembership

theorem Text.writeDecimal_injective : Function.Injective writeDecimal := by
  intro m n h
  have hread := congrArg readDecimal? h
  rw [readDecimal?_writeDecimal, readDecimal?_writeDecimal] at hread
  exact Option.some.inj hread

namespace Json

theorem value_orNull (o : Option Text) : Value (kindOf (orNull o)) (orNull o) := by
  cases o with
  | none => exact .null
  | some t => exact .string t

theorem orNull_injective : Function.Injective orNull := by
  intro a b h
  cases a with
  | none =>
    cases b with
    | none => rfl
    | some t => exact absurd (List.cons.inj h).1 (by decide)
  | some s =>
    cases b with
    | none => exact absurd (List.cons.inj h).1 (by decide)
    | some t => rw [Text.quoted_injective h]

variable {c c' : Option ContainerId} {p p' : Option PodId}

theorem value_idMembers : ∀ m ∈ idMembers c p, Value (kindOf m.2) m.2 := by
  simp only [idMembers, List.forall_mem_cons]
  exact ⟨value_orNull _, value_orNull _, nofun⟩

theorem idMembers_inj (h : idMembers c p = idMembers c' p') : c = c' ∧ p = p' := by
  simp only [idMembers, List.cons.injEq, Prod.mk.injEq, true_and, and_true] at h
  have digits : Function.Injective ContainerId.digits := fun _ _ => ContainerId.ext
  have text : Function.Injective PodId.text := fun _ _ => PodId.ext
  exact ⟨Option.map_injective digits (orNull_injective h.1), Option.map_injective text (orNull_injective h.2)⟩

end Json

open Json

theorem Identity.value_toJson (i : Identity) : Value .object i.toJson :=
  .object value_idMembers

theorem Identity.toJson_injective : Function.Injective Identity.toJson := by
  intro i j h
  obtain ⟨hc, hp⟩ := idMembers_inj (object_inj value_idMembers value_idMembers h)
  cases i
  cases j
  simp only at hc hp
  rw [hc, hp]

namespace Entry

theorem value_quoted_of_mem {ts : List Text} : ∀ v ∈ ts.map Text.quoted, Value (kindOf v) v := by
  intro v hv
  obtain ⟨t, -, rfl⟩ := List.mem_map.1 hv
  exact .string t

theorem value_members (e : Entry) : ∀ m ∈ e.members, Value (kindOf m.2) m.2 := by
  simp only [members, List.forall_mem_cons]
  exact ⟨(Value.number _).self, .string _, .array value_quoted_of_mem, nofun⟩

theorem members_injective : Function.Injective members := by
  intro e e' h
  simp only [members, List.cons.injEq, Prod.mk.injEq, true_and, and_true] at h
  obtain ⟨hhierarchy, hpath, hcontrollers⟩ := h
  have hnames := array_inj value_quoted_of_mem value_quoted_of_mem hcontrollers
  cases e
  cases e'
  simp only [Entry.mk.injEq]
  exact ⟨UInt64.toNat_inj.1 (Text.writeDecimal_injective hhierarchy),
    (List.map_inj_right fun _ _ => @Text.quoted_injective _ _).1 hnames, Text.quoted_injective hpath⟩

end Entry

namespace Record

theorem value_members (r : Record) :
    ∀ m ∈ r.entry.members ++ idMembers r.container r.pod, Value (kindOf m.2) m.2 :=
  List.forall_mem_append.2 ⟨r.entry.value_members, value_idMembers⟩

theorem value_toJson (r : Record) : Value .object r.toJson :=
  .object r.value_members

theorem toJson_injective : Function.Injective toJson := by
  intro r r' h
  unfold toJson at h
  -- Both lists of entry members are three long.
  obtain ⟨hentry, hids⟩ := List.append_inj (object_inj r.value_members r'.value_members h) rfl
  obtain ⟨hc, hp⟩ := idMembers_inj hids
  replace hentry := Entry.members_injective hentry
  cases r
  cases r'
  simp only at hc hp hentry
  rw [hentry, hc, hp]

end Record

namespace Roster

theorem value_record_of_mem {rs : List Record} : ∀ v ∈ rs.map Record.toJson, Value (kindOf v) v := by
  intro v hv
  obtain ⟨r, -, rfl⟩ := List.mem_map.1 hv
  exact r.value_toJson.self

theorem value_members (x : Roster) :
    ∀ m ∈ idMembers x.identity.container x.identity.pod ++
      [("cgroups".toList, array (x.records.map Record.toJson))], Value (kindOf m.2) m.2 :=
  List.forall_mem_append.2 ⟨value_idMembers, List.forall_mem_singleton.2 (.array value_record_of_mem)⟩

theorem value_toJson (x : Roster) : Value .object x.toJson :=
  .object x.value_members

theorem toJson_injective : Function.Injective toJson := by
  intro x y h
  obtain ⟨hids, hrecords⟩ := List.append_inj (object_inj x.value_members y.value_members h) rfl
  obtain ⟨hc, hp⟩ := idMembers_inj hids
  simp only [List.cons.injEq, Prod.mk.injEq, true_and, and_true] at hrecords
  have hrs := array_inj value_record_of_mem value_record_of_mem hrecords
  replace hrs := (List.map_inj_right fun _ _ h => Record.toJson_injective h).1 hrs
  obtain ⟨⟨c, p⟩, rs⟩ := x
  obtain ⟨⟨c', p'⟩, rs'⟩ := y
  simp only at hc hp hrs
  rw [hc, hp, hrs]

/-- Two rosters are written alike only if they are the same, and so are two identities; what is written is a
single line. -/
theorem toJson_faithful :
    (∀ x y : Roster, x.toJson = y.toJson ↔ x = y) ∧
    (∀ i j : Identity, i.toJson = j.toJson ↔ i = j) ∧
    (∀ x : Roster, ∀ c ∈ x.toJson, 0x20 ≤ c.toNat) ∧
    ∀ i : Identity, ∀ c ∈ i.toJson, 0x20 ≤ c.toNat :=
  ⟨fun _ _ => toJson_injective.eq_iff, fun _ _ => Identity.toJson_injective.eq_iff,
    fun x => x.value_toJson.control_free, fun i => i.value_toJson.control_free⟩

/-- A control character in a path, and the backslash and letters that it is written with. -/
theorem toJson_faithful_of_escape_in_path :
    ∃ x y : Roster, parse "0::/\x01".toList = .ok x ∧ parse "0::/\\u0001".toList = .ok y ∧
      x.toJson ≠ y.toJson ∧ x.identity.toJson = y.identity.toJson ∧ '\\' ∈ x.toJson ∧ 0x20 ≤ '\\'.toNat ∧
      '\x7b' ∈ x.identity.toJson ∧ 0x20 ≤ '\x7b'.toNat := by
  let x := empty.push (.ofEntry ⟨0, [], "/\x01".toList⟩)
  let y := empty.push (.ofEntry ⟨0, [], "/\\u0001".toList⟩)
  obtain ⟨hrosters, hidentities, hline, hline'⟩ := toJson_faithful
  have hne : x ≠ y := by decide
  have hids : x.identity = y.identity := by decide
  have hmem : '\\' ∈ x.toJson := by decide
  have hmem' : '\x7b' ∈ x.identity.toJson := by decide
  exact ⟨x, y, by rfl, by rfl, fun h => hne ((hrosters x y).1 h), (hidentities _ _).2 hids, hmem, hline x _ hmem,
    hmem', hline' _ _ hmem'⟩

end Roster

end CgroupMembership
