import CgroupMembership.Text.Utf8
/-!
# ASCII bytes among others

A byte below 0x80 is never part of a longer character, and no longer character is one below U+0080.
So an ASCII byte stands for itself wherever it stands (`decode_append_ascii`), and it is the only byte
that gives its character (`mem_decode`).
-/

namespace CgroupMembership.Utf8

/-- Bytes below 0x80 do not go on with the character, and what it will be is at least U+0080. -/
def State.Wide : State → Prop
  | .start => True
  | .inside more low _ value =>
    0x80 ≤ low ∧ 2 ≤ 64 * value + (low - 0x80) ∧ (more = 0 → 0x80 ≤ 64 * value + (low - 0x80))

/-! ## One byte -/

theorem wide_leading (b : Nat) : (leading b).2.Wide := by
  unfold leading
  repeat' split
  all_goals simp only [State.Wide]; try omega

theorem wide_step {s : State} (hs : s.Wide) (b : Nat) : (step s b).2.Wide := by
  cases s with
  | start => exact wide_leading b
  | inside more low high value =>
    simp only [step]
    split
    · cases more with
      | zero => trivial
      | succ more =>
        simp only [State.Wide] at hs ⊢
        omega
    · exact wide_leading b

/-- A byte below 0x80 ends what was begun before it and is a character of its own. -/
theorem step_ascii {s : State} (hs : s.Wide) {b : Nat} (hb : b < 0x80) :
    step s b = (flush s ++ [Char.ofNat b], .start) := by
  have hl : leading b = ([Char.ofNat b], .start) := if_pos (by omega)
  cases s with
  | start => exact hl
  | inside more low high value =>
    -- `low` is at least 0x80, so the byte does not go on with the character.
    have : ¬(low ≤ b ∧ b ≤ high) := by
      simp only [State.Wide] at hs
      omega
    simp [step, this, hl, flush]

theorem eq_of_mem_ofNat {n : Nat} {c : Char} (h0 : c ≠ '\x00') (h : c ∈ [Char.ofNat n]) : n = c.toNat := by
  rw [List.mem_singleton] at h
  by_cases hn : n.isValidChar
  · have hc : c = Char.ofNatAux n hn := h.trans (dif_pos hn)
    rw [hc]
    rfl
  · exact absurd (h.trans (dif_neg hn)) h0

theorem not_mem_replacement {c : Char} (hc : c.toNat < 0x80) : c ≠ replacement := by
  rintro rfl
  exact absurd hc (by decide)

theorem mem_leading {b : Nat} {c : Char} (h0 : c ≠ '\x00') (hc : c.toNat < 0x80) (h : c ∈ (leading b).1) :
    b = c.toNat := by
  unfold leading at h
  repeat' split at h
  all_goals try exact absurd h List.not_mem_nil
  · exact eq_of_mem_ofNat h0 h
  · exact absurd (List.mem_singleton.1 h) (not_mem_replacement hc)

theorem mem_step {s : State} (hs : s.Wide) {b : Nat} {c : Char} (h0 : c ≠ '\x00') (hc : c.toNat < 0x80)
    (h : c ∈ (step s b).1) : b = c.toNat := by
  cases s with
  | start => exact mem_leading h0 hc h
  | inside more low high value =>
    simp only [step] at h
    split at h
    · cases more with
      | zero =>
        -- A byte that completes a longer character gives one from U+0080 on.
        have := eq_of_mem_ofNat h0 h
        have := hs.2.2 rfl
        have := hs.1
        omega
      | succ more => cases h
    · rcases List.mem_cons.1 h with h | h
      · exact absurd h (not_mem_replacement hc)
      · exact mem_leading h0 hc h

/-- A byte gives a character or leaves one unfinished. -/
theorem leading_ne_nil (b : Nat) : (leading b).1 ++ flush (leading b).2 ≠ [] := by
  unfold leading
  repeat' split
  all_goals simp [flush]

theorem step_ne_nil (s : State) (b : Nat) : (step s b).1 ++ flush (step s b).2 ≠ [] := by
  cases s with
  | start => exact leading_ne_nil b
  | inside more low high value =>
    simp only [step]
    split
    · cases more <;> simp [flush]
    · simp

/-! ## All bytes -/

theorem wide_run {s : State} (hs : s.Wide) (bs : List UInt8) : (run s bs).2.Wide := by
  induction bs generalizing s with
  | nil => exact hs
  | cons b bs ih => exact ih (wide_step hs b.toNat)

theorem mem_run {s : State} (hs : s.Wide) {bs : List UInt8} {c : Char} (h0 : c ≠ '\x00')
    (hc : c.toNat < 0x80) (h : c ∈ (run s bs).1) : ∃ b ∈ bs, b.toNat = c.toNat := by
  induction bs generalizing s with
  | nil => cases h
  | cons b bs ih =>
    rcases List.mem_append.1 h with h | h
    · exact ⟨b, List.mem_cons_self, mem_step hs h0 hc h⟩
    · obtain ⟨b', hb', he⟩ := ih (wide_step hs b.toNat) h
      exact ⟨b', List.mem_cons_of_mem b hb', he⟩

theorem not_mem_flush {c : Char} (hc : c.toNat < 0x80) (s : State) : c ∉ flush s := by
  cases s with
  | start => exact List.not_mem_nil
  | inside => exact mt List.mem_singleton.1 (not_mem_replacement hc)

theorem mem_decode {bs : List UInt8} {c : Char} (h0 : c ≠ '\x00') (hc : c.toNat < 0x80)
    (h : c ∈ decode bs) : ∃ b ∈ bs, b.toNat = c.toNat := by
  rcases List.mem_append.1 h with h | h
  · exact mem_run (s := .start) trivial h0 hc h
  · exact absurd h (not_mem_flush hc _)

theorem decode_append_ascii (a : List UInt8) {b : UInt8} (hb : b.toNat < 0x80) (bs : List UInt8) :
    decode (a ++ b :: bs) = decode a ++ Char.ofNat b.toNat :: decode bs := by
  have hs := step_ascii (wide_run (s := .start) trivial a) hb
  simp [decode, run_append, run, hs]

theorem decode_ne_nil (a : List UInt8) (b : UInt8) : decode (a ++ [b]) ≠ [] := by
  have := step_ne_nil (run .start a).2 b.toNat
  simp only [decode, run_append, run, List.append_nil, List.append_assoc]
  exact List.append_ne_nil_of_right_ne_nil _ this

/-- The last character, if it is below U+0080, is that of the last byte. -/
theorem getLast?_decode {a : List UInt8} {b : UInt8} {c : Char} (h0 : c ≠ '\x00') (hc : c.toNat < 0x80)
    (h : (decode (a ++ [b])).getLast? = some c) : b.toNat = c.toNat := by
  have hwide := wide_run (s := .start) trivial a
  have hne := step_ne_nil (run .start a).2 b.toNat
  simp only [decode, run_append, run, List.append_nil, List.append_assoc] at h
  rw [List.getLast?_append, List.getLast?_eq_some_getLast hne, Option.some_or, Option.some.injEq] at h
  rcases List.mem_append.1 (h ▸ List.getLast_mem hne) with h | h
  · exact mem_step hwide h0 hc h
  · exact absurd h (not_mem_flush hc _)

end CgroupMembership.Utf8
