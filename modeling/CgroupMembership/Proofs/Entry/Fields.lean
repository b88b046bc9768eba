import CgroupMembership.Entry
import CgroupMembership.Proofs.Text.Cuts
/-!
# The fields of an entry

The two colons that divide a line are determined by it (`ofFields?_eq_some_iff`).
-/

namespace CgroupMembership.Entry

open Text

theorem ofFields?_eq_some_iff {t : Text} {e : Entry} :
    ofFields? t = some e ↔
      ∃ number field, t = number ++ ':' :: (field ++ ':' :: e.path) ∧ ':' ∉ number ∧ ':' ∉ field ∧
        readWord? number = some e.hierarchy ∧ e.controllers = readControllers field ∧ e.path ≠ [] := by
  obtain ⟨hierarchy, controllers, path⟩ := e
  simp only [ofFields?, Option.bind_eq_some_iff, Prod.exists, splitFirst?_eq_some_iff,
    Option.ite_none_left_eq_some, Option.some.injEq, Entry.mk.injEq, List.isEmpty_iff]
  constructor
  · rintro ⟨number, rest, ⟨rfl, hn⟩, field, p, ⟨rfl, hf⟩, h, hh, hp, rfl, rfl, rfl⟩
    exact ⟨number, field, rfl, hn, hf, hh, rfl, hp⟩
  · rintro ⟨number, field, rfl, hn, hf, hh, rfl, hp⟩
    exact ⟨number, _, ⟨rfl, hn⟩, field, path, ⟨rfl, hf⟩, hierarchy, hh, hp, rfl, rfl, rfl⟩

end CgroupMembership.Entry
