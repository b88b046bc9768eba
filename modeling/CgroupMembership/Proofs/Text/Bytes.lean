import CgroupMembership.Text.Basic
/-!
# Positions in bytes

A text that is kept as UTF-8 is cut at byte positions, and a cut inside a character is an error. The position after
some characters of a text is the number of their bytes (`byteLength`). Such positions are in the order of the
characters (`byteLength_take_le_iff`), and a cut at two of them gives the text between (`slicedAt_take`).
-/

namespace CgroupMembership.Text

/-- The byte position of the last `sep`. -/
def lastByteIndexOf? (sep : Char) (t : Text) : Option Nat :=
  (splitLast? sep t).map fun p => byteLength p.1

/-- The byte positions `start` and `stop` are in order, in range and between characters, and the bytes from the one
to the other are those of the text `u`. -/
structure SlicedAt (t : Text) (start stop : Nat) (u : Text) : Prop where
  ordered : start ≤ stop
  inRange : stop ≤ (String.ofList t).utf8ByteSize
  start_isValid : String.Pos.Raw.IsValid (String.ofList t) ⟨start⟩
  stop_isValid : String.Pos.Raw.IsValid (String.ofList t) ⟨stop⟩
  bytes : (String.ofList t).toByteArray.extract start stop = (String.ofList u).toByteArray

/-! ## The number of bytes -/

theorem byteLength_append (a b : Text) : byteLength (a ++ b) = byteLength a + byteLength b := by
  induction a with
  | nil => simp [byteLength]
  | cons c a ih => simp [byteLength, ih, Nat.add_assoc]

theorem byteLength_eq (t : Text) : byteLength t = (String.ofList t).utf8ByteSize := by
  induction t with
  | nil => simp [byteLength]
  | cons c t ih =>
    have hc : (String.ofList [c]).utf8ByteSize = c.utf8Size := by
      rw [← String.singleton_eq_ofList, String.utf8ByteSize_singleton]
    have hcons : String.ofList (c :: t) = String.ofList [c] ++ String.ofList t := by
      rw [← String.ofList_append, List.singleton_append]
    rw [hcons, String.utf8ByteSize_append, hc, ← ih, byteLength]

theorem byteLength_pos {t : Text} (h : t ≠ []) : 0 < byteLength t := by
  cases t with
  | nil => exact absurd rfl h
  | cons c t =>
    have := c.utf8Size_pos
    rw [byteLength]
    omega

theorem byteLength_mono {a t : Text} (h : a <+: t) : byteLength a ≤ byteLength t := by
  obtain ⟨b, rfl⟩ := h
  rw [byteLength_append]
  omega

theorem byteLength_take_lt {t : Text} {m n : Nat} (h : m < n) (hn : n ≤ t.length) :
    byteLength (t.take m) < byteLength (t.take n) := by
  obtain ⟨u, hu⟩ : t.take m <+: t.take n := List.take_prefix_take_left (Nat.le_of_lt h)
  have hne : u ≠ [] := by
    rintro rfl
    have hlen := congrArg List.length hu
    simp only [List.append_nil, List.length_take] at hlen
    omega
  have := byteLength_pos hne
  rw [← hu, byteLength_append]
  omega

/-- Every character has a byte, so positions in bytes are in the order of those in characters. -/
theorem byteLength_take_le_iff {t : Text} {m n : Nat} (hm : m ≤ t.length) :
    byteLength (t.take m) ≤ byteLength (t.take n) ↔ m ≤ n := by
  constructor
  · intro h
    rcases Nat.lt_or_ge n m with hlt | hle
    · have := byteLength_take_lt hlt hm
      omega
    · exact hle
  · intro h
    exact byteLength_mono (List.take_prefix_take_left h)

/-! ## Cuts -/

theorem isValid_byteLength_take (t : Text) (n : Nat) :
    String.Pos.Raw.IsValid (String.ofList t) ⟨byteLength (t.take n)⟩ :=
  String.Pos.Raw.isValid_ofList.2 ⟨n, byteLength_eq _⟩

theorem take_append_slice {t : Text} {m n : Nat} (h : m ≤ n) : t.take m ++ slice t m n = t.take n := by
  have := List.take_append_drop m (t.take n)
  rwa [List.take_take, Nat.min_eq_left h] at this

theorem extract_bytes (a b c : Text) :
    (String.ofList (a ++ b ++ c)).toByteArray.extract (byteLength a) (byteLength (a ++ b)) =
      (String.ofList b).toByteArray := by
  have hsize (t : Text) : byteLength t = t.utf8Encode.size := by
    rw [byteLength_eq, ← String.size_toByteArray, String.toByteArray_ofList]
  simp only [String.toByteArray_ofList, List.append_assoc, List.utf8Encode_append, hsize, ByteArray.size_append]
  have hfront := ByteArray.extract_append_size_add (a := a.utf8Encode) (b := b.utf8Encode ++ c.utf8Encode)
    (i := 0) (j := b.utf8Encode.size)
  rw [Nat.add_zero] at hfront
  rw [hfront, ByteArray.extract_append_eq_left rfl]

/-- A cut between characters is a cut between their bytes. -/
theorem slicedAt_take {t : Text} {m n : Nat} (h : m ≤ n) :
    SlicedAt t (byteLength (t.take m)) (byteLength (t.take n)) (slice t m n) := by
  refine ⟨byteLength_mono (List.take_prefix_take_left h), ?_, isValid_byteLength_take t m,
    isValid_byteLength_take t n, ?_⟩
  · rw [← byteLength_eq]
    exact byteLength_mono (List.take_prefix n t)
  · have hbytes := extract_bytes (t.take m) (slice t m n) (t.drop n)
    rwa [take_append_slice h, List.take_append_drop] at hbytes

end CgroupMembership.Text
