import CgroupMembership.Id.Basic
/-!
# Sets of ids

A set keeps its members without repetition in the order of their insertion. A request names a member
by a raw text, which has to be read as an id first; a text that is no id leaves the set as it is
(`request_of_error`). Only a look-up may skip that reading and compare the raw text with the text
of each member.
-/

namespace CgroupMembership

/-- How ids of one type are read and written. -/
structure IdForm (α : Type) where
  read : Text → Except IdError α
  write : α → Text

/-- Container ids are read in either case and written in lower case. -/
def ContainerId.form : IdForm ContainerId := ⟨ofText, digits⟩

/-- Pod ids are written as they were read. -/
def PodId.form : IdForm PodId := ⟨ofText, text⟩

/-- A finite set. -/
structure IdSet (α : Type) where
  members : List α
  nodup : members.Nodup

namespace IdSet

variable {α : Type} [DecidableEq α]

/-- The set without members. -/
def empty : IdSet α := ⟨[], List.nodup_nil⟩

/-- The number of members. -/
def size (s : IdSet α) : Nat := s.members.length

/-- Whether `a` is a member. -/
def contains (a : α) (s : IdSet α) : Bool := decide (a ∈ s.members)

/-- The set with `a` as a member. -/
def insert (a : α) (s : IdSet α) : IdSet α :=
  if h : a ∈ s.members then s
  else
    ⟨s.members ++ [a], by
      refine List.nodup_append.2 ⟨s.nodup, by simp, ?_⟩
      simp only [List.mem_singleton, forall_eq]
      rintro b hb rfl
      exact h hb⟩

/-- The set without `a`. -/
def remove (a : α) (s : IdSet α) : IdSet α :=
  ⟨s.members.filter fun b => b != a, s.nodup.filter _⟩

/-- What a set can be asked to do with a raw text. -/
inductive Request where
  | insert
  | remove
  | contains
  /-- To look for a member with exactly this text. -/
  | containsText
  deriving DecidableEq, Repr

/-- Carries out a request about a raw text. The answer says whether the id is new (`insert`) or was
a member (all others). -/
def request (form : IdForm α) (s : IdSet α) (q : Request) (raw : Text) :
    Except IdError Bool × IdSet α :=
  match q, form.read raw with
  | .containsText, _ => (.ok (s.members.any fun a => form.write a == raw), s)
  | _, .error e => (.error e, s)
  | .insert, .ok a => (.ok (!s.contains a), s.insert a)
  | .remove, .ok a => (.ok (s.contains a), s.remove a)
  | .contains, .ok a => (.ok (s.contains a), s)

/-- Carries out requests in order: the answer to each with the set after it. -/
def requests (form : IdForm α) (s : IdSet α) :
    List (Request × Text) → List (Except IdError Bool × IdSet α)
  | [] => []
  | (q, raw) :: rest => s.request form q raw :: requests form (s.request form q raw).2 rest

theorem mem_insert {a b : α} {s : IdSet α} : b ∈ (s.insert a).members ↔ b = a ∨ b ∈ s.members := by
  unfold insert
  split <;> simp <;> grind

theorem mem_remove {a b : α} {s : IdSet α} : b ∈ (s.remove a).members ↔ b ∈ s.members ∧ b ≠ a := by
  simp [remove]

theorem request_of_error {form : IdForm α} {raw : Text} {e : IdError} (s : IdSet α) (q : Request)
    (h : form.read raw = .error e) : (s.request form q raw).2 = s := by
  cases q <;> simp [request, h]

end IdSet

end CgroupMembership
