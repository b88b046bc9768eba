import CgroupMembership.Proofs.Entry.Fields
/-!
# Entries that a line can hold

Some entries cannot be told from others once they are written, such as one with a comma in the name of a
controller. The entries that read back are just those that can be read at all (`parse_render`,
`representable_of_parse`).
-/

namespace CgroupMembership

namespace Entry

open Text

/-- The entry can be told from its line. -/
structure Representable (e : Entry) : Prop where
  names : ∀ name ∈ e.controllers, ',' ∉ name ∧ ':' ∉ name ∧ '\n' ∉ name
  controllers : e.controllers ≠ [[]]
  path : e.path ≠ []
  newline : '\n' ∉ e.path
  ending : e.path.getLast? ≠ some '\r'

/-! ## Controllers -/

theorem readControllers_intercalate {names : List Text} (h : ∀ name ∈ names, ',' ∉ name) (hn : names ≠ [[]]) :
    readControllers (List.intercalate [','] names) = names := by
  unfold readControllers
  match names with
  | [] => rfl
  | [name] =>
    -- A single empty name would leave an empty field, which has no names.
    have : name ≠ [] := fun e => hn (by rw [e])
    rw [List.intercalate_singleton, if_neg (by simpa using this)]
    exact List.splitOn_eq_singleton (h name List.mem_cons_self)
  | name :: name' :: names =>
    rw [if_neg (by simp [List.intercalate_cons_cons])]
    exact List.splitOn_intercalate ',' h (List.cons_ne_nil _ _)

theorem readControllers_ne (field : Text) : readControllers field ≠ [[]] := by
  unfold readControllers
  split
  · exact List.cons_ne_nil _ _ ∘ Eq.symm
  · rename_i hf
    intro h
    have : List.intercalate [','] (field.splitOn ',') = field := List.intercalate_splitOn ','
    rw [h] at this
    exact hf (this ▸ rfl)

theorem mem_of_mem_readControllers {field name : Text} (h : name ∈ readControllers field) :
    ',' ∉ name ∧ ∀ c ∈ name, c ∈ field := by
  unfold readControllers at h
  split at h
  · cases h
  · exact mem_of_mem_splitOn h

/-! ## Lines -/

theorem not_mem_writeDecimal {c : Char} (hc : c.isDigit = false) (n : Nat) : c ∉ writeDecimal n := fun h => by
  have := Nat.isDigit_of_mem_toDigits (by decide) (by decide) h
  rw [hc] at this
  cases this

theorem colon_mem_render (e : Entry) : ':' ∈ e.render :=
  List.mem_append_right _ List.mem_cons_self

theorem newline_not_mem_render {e : Entry} (h : e.Representable) : '\n' ∉ e.render := by
  intro hm
  rcases List.mem_append.1 hm with hm | hm
  · exact not_mem_writeDecimal (by decide) _ hm
  · rcases List.mem_append.1 ((List.mem_cons.1 hm).resolve_left (by decide)) with hm | hm
    · exact not_mem_intercalate (by decide) (fun name hn => (h.names name hn).2.2) hm
    · exact h.newline ((List.mem_cons.1 hm).resolve_left (by decide))

/-- A line ends as the path in it does. -/
theorem getLast?_fields {path : Text} (h : path ≠ []) (number field : Text) :
    (number ++ ':' :: (field ++ ':' :: path)).getLast? = path.getLast? := by
  rw [← List.cons_append, ← List.append_assoc, ← List.concat_append, List.getLast?_append,
    List.getLast?_eq_some_getLast h, Option.some_or]

theorem ofFields?_render {e : Entry} (h : e.Representable) : ofFields? e.render = some e := by
  refine ofFields?_eq_some_iff.2 ⟨_, _, rfl, ?_, ?_, readWord?_writeDecimal _, ?_, h.path⟩
  · exact not_mem_writeDecimal (by decide) _
  · exact not_mem_intercalate (by decide) fun name hn => (h.names name hn).2.1
  · exact (readControllers_intercalate (fun name hn => (h.names name hn).1) h.controllers).symm

theorem parse_render {e : Entry} (h : e.Representable) : parse e.render = .ok e := by
  rw [parse_eq_ok_iff, trimEnd_eq_self, ofFields?_render h]
  intro c hc
  rw [render, getLast?_fields h.path] at hc
  have hr : c ≠ '\r' := fun he => h.ending (he ▸ hc)
  have hn : c ≠ '\n' := fun he => h.newline (he ▸ List.mem_of_getLast? hc)
  simp [isTerminator, hr, hn]

theorem representable_of_parse {line : Text} {e : Entry} (hline : '\n' ∉ line) (h : parse line = .ok e) :
    e.Representable := by
  obtain ⟨number, field, ht, -, hf, -, hcs, hp⟩ := ofFields?_eq_some_iff.1 (parse_eq_ok_iff.1 h)
  have mem {c : Char} (hc : c ∈ number ++ ':' :: (field ++ ':' :: e.path)) : c ∈ line :=
    mem_of_mem_trimEnd (ht ▸ hc)
  refine ⟨fun name hn => ?_, hcs ▸ readControllers_ne field, hp, fun hm => ?_, fun hl => ?_⟩
  · obtain ⟨hcomma, hm⟩ := mem_of_mem_readControllers (hcs ▸ hn)
    exact ⟨hcomma, fun hc => hf (hm _ hc), fun hc => hline (mem (by simp [hm _ hc]))⟩
  · exact hline (mem (by simp [hm]))
  · have he := not_getLast?_trimEnd isTerminator line '\r'
    rw [ht, getLast?_fields hp] at he
    exact absurd (he hl) (by decide)

end Entry

end CgroupMembership
