import CgroupMembership.Roster.Json
import CgroupMembership.Proofs.Text.Cuts
import CgroupMembership.Proofs.Text.Quoted
/-!
# JSON values are told apart

The written values are those of the JSON grammar without spaces: `null`, unsigned numbers, strings, arrays and
objects. The first character of a value says what kind it is (`Value.kindOf_append`), and a value that a comma or
a closing bracket follows cannot be mistaken for another one, however it goes on (`Value.apart`). So an array
determines its items and an object its members (`array_inj`, `object_inj`). No value holds a control character
below U+0020 (`Value.control_free`).
-/

namespace CgroupMembership.Json

open Text

/-- The kinds of JSON values. -/
inductive Kind where
  | null
  | number
  | string
  | array
  | object
  deriving DecidableEq, Repr

/-- The kind of the value that a text begins with. -/
def kindOf : Text → Kind
  | [] => .null
  | c :: _ =>
    if c = '"' then .string
    else if c = '[' then .array
    else if c = '\x7b' then .object
    else if c.isDigit then .number
    else .null

/-- The written values of each kind. -/
inductive Value : Kind → Text → Prop
  | null : Value .null "null".toList
  | number (n : Nat) : Value .number (writeDecimal n)
  | string (t : Text) : Value .string (quoted t)
  | array {vs : List Text} (h : ∀ v ∈ vs, Value (kindOf v) v) : Value .array (array vs)
  | object {ms : List (Text × Text)} (h : ∀ m ∈ ms, Value (kindOf m.2) m.2) : Value .object (object ms)

variable {k k' : Kind} {v w s t : Text} {vs ws : List Text} {ms ms' : List (Text × Text)}

/-! ## How values begin and end -/

/-- What may follow an item of an array or an object. -/
def isDelimiter (c : Char) : Bool :=
  c == ',' || c == ']' || c == '\x7d'

/-- With a delimiter after each, one of these texts is not a beginning of the other. -/
def Apart (v w : Text) : Prop :=
  ∀ c d s t, isDelimiter c = true → isDelimiter d = true → v ++ c :: s = w ++ d :: t → v = w ∧ c :: s = d :: t

theorem isDigit_of_mem_writeDecimal {n : Nat} {c : Char} (h : c ∈ writeDecimal n) : c.isDigit = true :=
  Nat.isDigit_of_mem_toDigits (by decide) (by decide) h

theorem isDelimiter_of_isDigit {c : Char} (h : c.isDigit = true) : isDelimiter c = false := by
  simp only [isDelimiter, Bool.or_eq_false_iff, beq_eq_false_iff_ne]
  refine ⟨⟨?_, ?_⟩, ?_⟩ <;> rintro rfl <;> exact absurd h (by decide)

theorem head_writeDecimal (n : Nat) : ∃ c u, writeDecimal n = c :: u ∧ c.isDigit = true := by
  cases h : writeDecimal n with
  | nil => exact absurd h Nat.toDigits_ne_nil
  | cons c u => exact ⟨c, u, rfl, isDigit_of_mem_writeDecimal (h ▸ List.mem_cons_self)⟩

theorem Value.kindOf_append (h : Value k v) (s : Text) : kindOf (v ++ s) = k := by
  cases h with
  | null => rfl
  | number n =>
    obtain ⟨c, u, hu, hc⟩ := head_writeDecimal n
    have quote : c ≠ '"' := by rintro rfl; exact absurd hc (by decide)
    have bracket : c ≠ '[' := by rintro rfl; exact absurd hc (by decide)
    have brace : c ≠ '\x7b' := by rintro rfl; exact absurd hc (by decide)
    simp [hu, kindOf, quote, bracket, brace, hc]
  | string t => rfl
  | array h => rfl
  | object h => rfl

theorem Value.kindOf_eq (h : Value k v) : kindOf v = k := by
  have := h.kindOf_append []
  rwa [List.append_nil] at this

theorem Value.self (h : Value k v) : Value (kindOf v) v := by
  rwa [h.kindOf_eq]

theorem Value.head (h : Value k v) : ∃ c u, v = c :: u ∧ isDelimiter c = false := by
  cases h with
  | null => exact ⟨_, _, rfl, by decide⟩
  | number n =>
    obtain ⟨c, u, hu, hc⟩ := head_writeDecimal n
    exact ⟨c, u, hu, isDelimiter_of_isDigit hc⟩
  | string t => exact ⟨_, _, rfl, by decide⟩
  | array h => exact ⟨_, _, rfl, by decide⟩
  | object h => exact ⟨_, _, rfl, by decide⟩

/-! ## Items -/

theorem apart_of_not_mem (hv : ∀ c ∈ v, isDelimiter c = false) (hw : ∀ c ∈ w, isDelimiter c = false) :
    Apart v w := by
  intro c d s t hc hd h
  rcases List.append_eq_append_iff.1 h with ⟨p, rfl, hp⟩ | ⟨p, rfl, hp⟩
  · cases p with
    | nil => exact ⟨(List.append_nil v).symm, hp⟩
    | cons x p =>
      obtain ⟨rfl, -⟩ := List.cons.inj hp
      exact absurd hc (by simp [hw c (by simp)])
  · cases p with
    | nil => exact ⟨List.append_nil w, hp.symm⟩
    | cons x p =>
      obtain ⟨rfl, -⟩ := List.cons.inj hp
      exact absurd hd (by simp [hv d (by simp)])

theorem intercalate_cons (v : Text) (vs : List Text) :
    List.intercalate [','] (v :: vs) = v ++ vs.flatMap fun v => ',' :: v := by
  induction vs generalizing v with
  | nil => simp
  | cons v' vs ih => simp [List.intercalate_cons_cons, ih]

section Items

variable {e : Char} (he : isDelimiter e = true) (hcomma : e ≠ ',') (hapart : ∀ v ∈ vs, ∀ w ∈ ws, Apart v w)
include he

theorem exists_delimiter (vs : List Text) (s : Text) :
    ∃ c u, (vs.flatMap fun v => ',' :: v) ++ e :: s = c :: u ∧ isDelimiter c = true := by
  cases vs with
  | nil => exact ⟨e, s, rfl, he⟩
  | cons v vs => exact ⟨',', _, rfl, by decide⟩

include hcomma hapart

theorem eq_of_items_append
    (h : (vs.flatMap fun v => ',' :: v) ++ e :: s = (ws.flatMap fun w => ',' :: w) ++ e :: t) :
    vs = ws ∧ s = t := by
  induction vs generalizing ws with
  | nil =>
    cases ws with
    | nil => exact ⟨rfl, (List.cons.inj h).2⟩
    | cons w ws => exact absurd (List.cons.inj h).1 hcomma
  | cons v vs ih =>
    cases ws with
    | nil => exact absurd (List.cons.inj h).1.symm hcomma
    | cons w ws =>
      obtain ⟨c, u, hu, hc⟩ := exists_delimiter he vs s
      obtain ⟨d, u', hu', hd⟩ := exists_delimiter he ws t
      have hitems : v ++ c :: u = w ++ d :: u' := by
        rw [← hu, ← hu']
        simpa using h
      obtain ⟨rfl, hrest⟩ := hapart v (by simp) w (by simp) c d u u' hc hd hitems
      rw [← hu, ← hu'] at hrest
      obtain ⟨rfl, hst⟩ := ih (fun v hv w hw => hapart v (by simp [hv]) w (by simp [hw])) hrest
      exact ⟨rfl, hst⟩

/-- Items with commas between them are determined by their text up to the closing bracket. -/
theorem eq_of_intercalate_append (hvs : ∀ v ∈ vs, ∃ c u, v = c :: u ∧ isDelimiter c = false)
    (hws : ∀ w ∈ ws, ∃ c u, w = c :: u ∧ isDelimiter c = false)
    (h : List.intercalate [','] vs ++ e :: s = List.intercalate [','] ws ++ e :: t) : vs = ws ∧ s = t := by
  -- No item begins with the bracket, so there is a first item on both sides or on none.
  have first {w : Text} {ws : List Text} {s t : Text} (hw : ∃ c u, w = c :: u ∧ isDelimiter c = false) :
      e :: s ≠ List.intercalate [','] (w :: ws) ++ t := by
    obtain ⟨c, u, rfl, hc⟩ := hw
    rw [intercalate_cons]
    intro h
    rw [(List.cons.inj h).1, hc] at he
    cases he
  cases vs with
  | nil =>
    cases ws with
    | nil => exact ⟨rfl, (List.cons.inj h).2⟩
    | cons w ws => exact absurd h (first (hws w List.mem_cons_self))
  | cons v vs =>
    cases ws with
    | nil => exact absurd h.symm (first (hvs v List.mem_cons_self))
    | cons w ws =>
      -- A comma before the first items makes them items like the others.
      refine eq_of_items_append he hcomma hapart ?_
      rw [intercalate_cons, intercalate_cons] at h
      simpa using h

end Items

theorem eq_of_array_append (hvs : ∀ v ∈ vs, Value (kindOf v) v) (hws : ∀ w ∈ ws, Value (kindOf w) w)
    (hapart : ∀ v ∈ vs, ∀ w ∈ ws, Apart v w) (h : array vs ++ s = array ws ++ t) : vs = ws ∧ s = t := by
  refine eq_of_intercalate_append (e := ']') (by decide) (by decide) hapart (fun v hv => (hvs v hv).head)
    (fun w hw => (hws w hw).head) ?_
  simpa [array] using h

/-! ## Members -/

/-- The text of a member: its name, a colon and its value. -/
def member (m : Text × Text) : Text :=
  quoted m.1 ++ ':' :: m.2

theorem members_eq (ms : List (Text × Text)) : members ms = List.intercalate [','] (ms.map member) :=
  rfl

theorem member_injective : Function.Injective member := by
  intro m m' h
  obtain ⟨hname, hvalue⟩ := eq_of_quoted_append h
  exact Prod.ext hname (List.cons.inj hvalue).2

theorem Apart.member {m m' : Text × Text} (h : Apart m.2 m'.2) : Apart (member m) (member m') := by
  intro c d s t hc hd heq
  simp only [Json.member, List.append_assoc, List.cons_append] at heq ⊢
  obtain ⟨hname, hvalue⟩ := eq_of_quoted_append heq
  obtain ⟨hv, hrest⟩ := h c d s t hc hd (List.cons.inj hvalue).2
  exact ⟨by rw [hname, hv], hrest⟩

theorem eq_of_object_append (hapart : ∀ m ∈ ms, ∀ m' ∈ ms', Apart m.2 m'.2)
    (h : object ms ++ s = object ms' ++ t) : ms = ms' ∧ s = t := by
  have head (m : Text × Text) : ∃ c u, member m = c :: u ∧ isDelimiter c = false :=
    ⟨'"', _, rfl, by decide⟩
  have hmembers : ms.map member = ms'.map member ∧ s = t := by
    refine eq_of_intercalate_append (e := '\x7d') (by decide) (by decide) ?_ ?_ ?_ ?_
    · intro v hv w hw
      obtain ⟨m, hm, rfl⟩ := List.mem_map.1 hv
      obtain ⟨m', hm', rfl⟩ := List.mem_map.1 hw
      exact (hapart m hm m' hm').member
    · intro v hv
      obtain ⟨m, -, rfl⟩ := List.mem_map.1 hv
      exact head m
    · intro w hw
      obtain ⟨m, -, rfl⟩ := List.mem_map.1 hw
      exact head m
    · simpa [object, members_eq] using h
  exact ⟨(List.map_inj_right fun _ _ h => member_injective h).1 hmembers.1, hmembers.2⟩

/-! ## Values -/

theorem Value.kind_eq (hv : Value k v) (hw : Value k' w) (h : v ++ s = w ++ t) : k = k' := by
  rw [← hv.kindOf_append s, h, hw.kindOf_append]

/-- A value need only be told from those of its own kind. -/
theorem Value.apart_of_kind (hv : Value k v) (h : ∀ w, Value k w → Apart v w) (hw : Value k' w) : Apart v w := by
  intro c d s t hc hd heq
  obtain rfl := hv.kind_eq hw heq
  exact h w hw c d s t hc hd heq

theorem Value.apart_same (hv : Value k v) : ∀ w, Value k w → Apart v w := by
  induction hv with
  | null =>
    intro w hw
    cases hw
    have hnull : ∀ c ∈ "null".toList, isDelimiter c = false := by simp [isDelimiter]
    exact apart_of_not_mem hnull hnull
  | number m =>
    intro w hw
    cases hw with
    | number n =>
      exact apart_of_not_mem (fun c hc => isDelimiter_of_isDigit (isDigit_of_mem_writeDecimal hc))
        fun c hc => isDelimiter_of_isDigit (isDigit_of_mem_writeDecimal hc)
  | string a =>
    intro w hw
    cases hw with
    | string b =>
      intro c d s t _ _ h
      obtain ⟨rfl, hrest⟩ := eq_of_quoted_append h
      exact ⟨rfl, hrest⟩
  | @array vs hvs ih =>
    intro w hw
    cases hw with
    | @array ws hws =>
      intro c d s t _ _ h
      have hapart : ∀ v ∈ vs, ∀ w ∈ ws, Apart v w := fun v hv w hw =>
        (hvs v hv).apart_of_kind (ih v hv) (hws w hw)
      obtain ⟨rfl, hrest⟩ := eq_of_array_append hvs hws hapart h
      exact ⟨rfl, hrest⟩
  | @object ms hms ih =>
    intro w hw
    cases hw with
    | @object ms' hms' =>
      intro c d s t _ _ h
      have hapart : ∀ m ∈ ms, ∀ m' ∈ ms', Apart m.2 m'.2 := fun m hm m' hm' =>
        (hms m hm).apart_of_kind (ih m hm) (hms' m' hm')
      obtain ⟨rfl, hrest⟩ := eq_of_object_append hapart h
      exact ⟨rfl, hrest⟩

/-- With a delimiter after each, no value is a beginning of another. -/
theorem Value.apart (hv : Value k v) (hw : Value k' w) : Apart v w :=
  hv.apart_of_kind hv.apart_same hw

theorem array_inj (hvs : ∀ v ∈ vs, Value (kindOf v) v) (hws : ∀ w ∈ ws, Value (kindOf w) w)
    (h : array vs = array ws) : vs = ws := by
  have h' : array vs ++ [] = array ws ++ [] := by rw [h]
  exact (eq_of_array_append hvs hws (fun v hv w hw => (hvs v hv).apart (hws w hw)) h').1

theorem object_inj (hms : ∀ m ∈ ms, Value (kindOf m.2) m.2) (hms' : ∀ m ∈ ms', Value (kindOf m.2) m.2)
    (h : object ms = object ms') : ms = ms' := by
  have h' : object ms ++ [] = object ms' ++ [] := by rw [h]
  exact (eq_of_object_append (fun m hm m' hm' => (hms m hm).apart (hms' m' hm')) h').1

/-! ## Values are one line -/

theorem control_free_of_isDigit {c : Char} (h : c.isDigit = true) : 0x20 ≤ c.toNat := by
  have hc : '0'.toNat ≤ c.toNat := (Char.isDigit_iff_toNat.1 h).1
  exact Nat.le_trans (by decide) hc

theorem control_free_intercalate (h : ∀ v ∈ vs, ∀ c ∈ v, 0x20 ≤ c.toNat) :
    ∀ c ∈ List.intercalate [','] vs, 0x20 ≤ c.toNat := by
  intro c hc
  rw [← Nat.not_lt]
  intro hlow
  have hcomma : c ≠ ',' := by
    rintro rfl
    exact absurd hlow (by decide)
  have hitems : ∀ v ∈ vs, c ∉ v := fun v hv hcv => Nat.not_lt.2 (h v hv c hcv) hlow
  exact not_mem_intercalate hcomma hitems hc

theorem control_free_between {a b : Char} (ha : 0x20 ≤ a.toNat) (hb : 0x20 ≤ b.toNat)
    (h : ∀ v ∈ vs, ∀ c ∈ v, 0x20 ≤ c.toNat) :
    ∀ c ∈ a :: (List.intercalate [','] vs ++ [b]), 0x20 ≤ c.toNat := by
  intro c hc
  simp only [List.mem_cons, List.mem_append, List.not_mem_nil, or_false] at hc
  rcases hc with rfl | hc | rfl
  · exact ha
  · exact control_free_intercalate h c hc
  · exact hb

theorem control_free_member {m : Text × Text} (h : ∀ c ∈ m.2, 0x20 ≤ c.toNat) :
    ∀ c ∈ member m, 0x20 ≤ c.toNat := by
  intro c hc
  simp only [member, List.mem_append, List.mem_cons] at hc
  rcases hc with hc | rfl | hc
  · exact control_free_quoted m.1 c hc
  · decide
  · exact h c hc

theorem Value.control_free (h : Value k v) : ∀ c ∈ v, 0x20 ≤ c.toNat := by
  induction h with
  | null => simp
  | number n => exact fun c hc => control_free_of_isDigit (isDigit_of_mem_writeDecimal hc)
  | string t => exact control_free_quoted t
  | array h ih => exact control_free_between (by decide) (by decide) ih
  | object h ih =>
    refine control_free_between (by decide) (by decide) fun v hv => ?_
    obtain ⟨m, hm, rfl⟩ := List.mem_map.1 hv
    exact control_free_member (ih m hm)

end CgroupMembership.Json
