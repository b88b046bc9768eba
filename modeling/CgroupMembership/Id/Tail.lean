import CgroupMembership.Id.Basic
/-!
# The id at the tail of a raw line

A quick look at a line finds the container id without reading the fields. Only the tail counts, the
text after the last slash. After the last colon of the tail the rest is the candidate; in a tail
without a colon the candidate lies between the last hyphen and the last dot. `bounds_le` says that
the bounds of the candidate are ordered and lie in the tail, and `inLine?_eq_atTail?` that no id is
missed where empty lines are passed over.
-/

namespace CgroupMembership.ContainerId

/-- The positions in a tail between which the candidate stands, if they are in order. -/
def candidateBounds? (tail : Text) : Option (Nat × Nat) :=
  match Text.lastIndexOf? ':' tail with
  | some colon => some (colon + 1, tail.length)
  | none =>
    let start := ((Text.lastIndexOf? '-' tail).map (· + 1)).getD 0
    let stop := (Text.lastIndexOf? '.' tail).getD tail.length
    if start ≤ stop then some (start, stop) else none

/-- The container id at the tail of a line. -/
def atTail? (line : Text) : Option ContainerId :=
  let tail := Text.afterLast '/' line
  (candidateBounds? tail).bind fun b => (ofText (Text.slice tail b.1 b.2)).toOption

/-- The container id that is seen in a line; an empty line is passed over. -/
def inLine? (line : Text) : Option ContainerId :=
  if line.isEmpty then none else atTail? line

/-- The first container id that is seen in a line, and how many lines were looked at. -/
def firstAtTail : List Text → Option ContainerId × Nat
  | [] => (none, 0)
  | line :: lines =>
    match inLine? line with
    | some id => (some id, 1)
    | none => let r := firstAtTail lines; (r.1, r.2 + 1)

theorem inLine?_eq_atTail? (line : Text) : inLine? line = atTail? line := by
  cases line <;> rfl

theorem lastIndexOf?_lt {sep : Char} {t : Text} {i : Nat} (h : Text.lastIndexOf? sep t = some i) :
    i < t.length := by
  simp only [Text.lastIndexOf?, Option.map_eq_some_iff, Prod.exists] at h
  obtain ⟨a, b, hs, rfl⟩ := h
  rw [(Text.splitLast?_eq_some_iff.1 hs).1]
  simp

theorem bounds_le {tail : Text} {b : Nat × Nat} (h : candidateBounds? tail = some b) :
    b.1 ≤ b.2 ∧ b.2 ≤ tail.length := by
  unfold candidateBounds? at h
  split at h
  · rename_i colon hc
    have := lastIndexOf?_lt hc
    simp only [Option.some.injEq] at h
    subst h
    exact ⟨this, Nat.le_refl _⟩
  · simp only [Option.ite_none_right_eq_some, Option.some.injEq] at h
    obtain ⟨hle, rfl⟩ := h
    refine ⟨hle, ?_⟩
    cases hd : Text.lastIndexOf? '.' tail with
    | none => simp
    | some i => have := lastIndexOf?_lt hd; simp; omega

end CgroupMembership.ContainerId
