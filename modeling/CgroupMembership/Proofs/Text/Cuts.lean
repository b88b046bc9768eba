import CgroupMembership.Text.Basic
/-!
# Cuts at separators and the trimmed end

What follows the last separator of a text does not depend on anything before it (`afterLast_append`),
pieces between separators have no characters of their own (`mem_of_mem_splitOn`, `not_mem_intercalate`), and
trimming takes away nothing from a text that does not end in what is trimmed.
-/

namespace CgroupMembership.Text

/-! ## After the last separator -/

theorem afterLast_append_cons {sep : Char} (a : Text) {b : Text} (h : sep ∉ b) :
    afterLast sep (a ++ sep :: b) = b := by
  simp [afterLast, splitLast?_eq_some_iff.2 ⟨rfl, h⟩]

theorem afterLast_of_not_mem {sep : Char} {t : Text} (h : sep ∉ t) : afterLast sep t = t := by
  simp [afterLast, splitLast?_eq_none_iff.2 h]

theorem not_mem_afterLast (sep : Char) (t : Text) : sep ∉ afterLast sep t := by
  cases h : splitLast? sep t with
  | none => rw [afterLast_of_not_mem (splitLast?_eq_none_iff.1 h)]; exact splitLast?_eq_none_iff.1 h
  | some p =>
    obtain ⟨rfl, hb⟩ := splitLast?_eq_some_iff.1 h
    rwa [afterLast_append_cons _ hb]

theorem exists_eq_append_afterLast {sep : Char} {t : Text} (h : sep ∈ t) :
    ∃ a, t = a ++ sep :: afterLast sep t := by
  cases hs : splitLast? sep t with
  | none => exact absurd h (splitLast?_eq_none_iff.1 hs)
  | some p =>
    obtain ⟨rfl, hb⟩ := splitLast?_eq_some_iff.1 hs
    exact ⟨p.1, by rw [afterLast_append_cons _ hb]⟩

theorem mem_of_mem_afterLast {sep c : Char} {t : Text} (h : c ∈ afterLast sep t) : c ∈ t := by
  unfold afterLast at h
  cases hs : splitLast? sep t with
  | none => simpa [hs] using h
  | some p =>
    rw [hs] at h
    rw [(splitLast?_eq_some_iff.1 hs).1]
    exact List.mem_append_right _ (List.mem_cons_of_mem _ h)

theorem afterLast_append {sep : Char} (a : Text) {b : Text} (h : sep ∈ b) :
    afterLast sep (a ++ b) = afterLast sep b := by
  obtain ⟨c, hc⟩ := exists_eq_append_afterLast h
  have hn := not_mem_afterLast sep b
  generalize afterLast sep b = d at hc hn ⊢
  rw [hc, ← List.append_assoc, afterLast_append_cons _ hn]

theorem lastIndexOf?_append_cons {sep : Char} (a : Text) {b : Text} (h : sep ∉ b) :
    lastIndexOf? sep (a ++ sep :: b) = some a.length := by
  simp [lastIndexOf?, splitLast?_eq_some_iff.2 ⟨rfl, h⟩]

theorem lastIndexOf?_of_not_mem {sep : Char} {t : Text} (h : sep ∉ t) : lastIndexOf? sep t = none := by
  simp [lastIndexOf?, splitLast?_eq_none_iff.2 h]

/-! ## Trimming -/

theorem trimEnd_eq_self {p : Char → Bool} {t : Text} (h : ∀ c ∈ t.getLast?, p c = false) :
    trimEnd p t = t := by
  rcases t.eq_nil_or_concat with rfl | ⟨u, c, rfl⟩
  · rfl
  · have : p c = false := h c (by simp)
    simp [trimEnd, this]

theorem trimEnd_append {p : Char → Bool} (t : Text) {s : Text} (h : ∀ c ∈ s, p c = true) :
    trimEnd p (t ++ s) = trimEnd p t := by
  rw [trimEnd, List.reverse_append, List.dropWhile_append_of_pos (by simpa using h), trimEnd]

theorem not_getLast?_trimEnd (p : Char → Bool) (t : Text) : ∀ c ∈ (trimEnd p t).getLast?, p c = false := by
  intro c hc
  rw [trimEnd, List.getLast?_reverse] at hc
  have := List.head?_dropWhile_not p t.reverse
  rw [Option.mem_def.1 hc] at this
  simpa using this

theorem mem_of_mem_trimEnd {p : Char → Bool} {t : Text} {c : Char} (h : c ∈ trimEnd p t) : c ∈ t := by
  obtain ⟨s, hs, -⟩ := exists_eq_trimEnd_append p t
  rw [hs]
  exact List.mem_append_left s h

/-! ## Between separators -/

theorem mem_of_mem_splitOn {sep : Char} {t l : Text} (h : l ∈ t.splitOn sep) : sep ∉ l ∧ ∀ c ∈ l, c ∈ t := by
  induction t generalizing l with
  | nil => simp [List.mem_singleton.1 (List.splitOn_nil sep ▸ h)]
  | cons c t ih =>
    rw [List.splitOn_cons_eq_if_modifyHead] at h
    split at h
    · rcases List.mem_cons.1 h with rfl | h
      · simp
      · exact ⟨(ih h).1, fun d hd => List.mem_cons_of_mem c ((ih h).2 d hd)⟩
    · rename_i hc
      -- The character joins the first piece.
      cases hs : t.splitOn sep with
      | nil => exact absurd hs (List.splitOn_ne_nil sep t)
      | cons first rest =>
        rw [hs, List.modifyHead_cons] at h
        rcases List.mem_cons.1 h with rfl | h
        · obtain ⟨hn, hm⟩ := ih (hs ▸ List.mem_cons_self)
          refine ⟨?_, fun d hd => ?_⟩
          · simpa [hn] using Ne.symm (by simpa using hc)
          · rcases List.mem_cons.1 hd with rfl | hd
            · exact List.mem_cons_self
            · exact List.mem_cons_of_mem c (hm d hd)
        · obtain ⟨hn, hm⟩ := ih (hs ▸ List.mem_cons_of_mem first h)
          exact ⟨hn, fun d hd => List.mem_cons_of_mem c (hm d hd)⟩

theorem not_mem_intercalate {sep c : Char} (hc : c ≠ sep) {ls : List Text} (h : ∀ l ∈ ls, c ∉ l) :
    c ∉ List.intercalate [sep] ls := by
  induction ls with
  | nil => exact List.not_mem_nil
  | cons l ls ih =>
    obtain ⟨hl, hls⟩ := List.forall_mem_cons.1 h
    cases ls with
    | nil => rwa [List.intercalate_singleton]
    | cons l' ls =>
      rw [List.intercalate_cons_cons]
      simp [hl, hc, ih hls]

end CgroupMembership.Text
