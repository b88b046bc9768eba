import CgroupMembership.Proofs.Stream.Tokens
import CgroupMembership.Proofs.Text.Lines
import CgroupMembership.Proofs.Text.Utf8
/-!
# Decoding lines or lines of the decoded

The bytes of a newline and of a carriage return are ASCII, so a text may be decoded before or after
it is cut into lines (`lines_decode`). The stream of a reader that delivers some bytes without a
failure is therefore the stream of the lines of their text (`lines_of_delivers`).
-/

namespace CgroupMembership

open Utf8

/-! ## Cutting and decoding -/

theorem newline_not_mem_decode {bs : List UInt8} (h : Reader.terminator.newline ∉ bs) :
    Text.terminator.newline ∉ decode bs := by
  intro hm
  obtain ⟨b, hb, he⟩ := mem_decode (by decide) (by decide) hm
  have : b = Reader.terminator.newline := UInt8.toNat_inj.1 he
  exact h (this ▸ hb)

theorem decode_append_newline (a bs : List UInt8) :
    decode (a ++ Reader.terminator.newline :: bs) = decode a ++ Text.terminator.newline :: decode bs :=
  decode_append_ascii a (by decide) bs

theorem dropReturn_decode (bs : List UInt8) :
    Text.terminator.dropReturn (decode bs) = decode (Reader.terminator.dropReturn bs) := by
  rcases bs.eq_nil_or_concat with rfl | ⟨a, b, rfl⟩
  · rfl
  · rw [List.concat_eq_append]
    by_cases hb : b = Reader.terminator.carriageReturn
    · have hd : decode (a ++ [b]) = decode a ++ [Text.terminator.carriageReturn] :=
        hb ▸ decode_append_ascii a (by decide) []
      rw [hd, hb, Terminator.dropReturn_append_return, Terminator.dropReturn_append_return]
    · -- Only the byte of a carriage return decodes to one, so neither side ends in it.
      have hc : (decode (a ++ [b])).getLast? ≠ some Text.terminator.carriageReturn := fun h =>
        hb (UInt8.toNat_inj.1 (getLast?_decode (by decide) (by decide) h))
      rw [Terminator.dropReturn_of_getLast? _ hc, Terminator.dropReturn_of_getLast? _ (by simpa using hb)]

theorem decode_eq_nil_iff {bs : List UInt8} : decode bs = [] ↔ bs = [] := by
  rcases bs.eq_nil_or_concat with rfl | ⟨a, b, rfl⟩
  · exact ⟨fun _ => rfl, fun _ => rfl⟩
  · simp [decode_ne_nil a b]

theorem lines_decode (bs : List UInt8) :
    Text.lines (decode bs) = (Reader.terminator.lines bs).map decode := by
  unfold Text.lines
  induction bs using Reader.terminator.newline_induction with
  | last us h =>
    rw [Terminator.lines_of_not_mem _ h, Terminator.lines_of_not_mem _ (newline_not_mem_decode h)]
    by_cases hus : us = [] <;> simp [hus, decode_eq_nil_iff]
  | line us rest h ih =>
    rw [decode_append_newline, Terminator.lines_append_newline _ (newline_not_mem_decode h),
      Terminator.lines_append_newline _ h, ih, dropReturn_decode]
    rfl

/-! ## Delivered bytes -/

/-- The script hands over these bytes in pieces that are not empty. It may be interrupted in between, and
after the last of them it may say that the file is at its end. -/
inductive Delivers : List ReadEvent → List UInt8 → Prop where
  | nil : Delivers [] []
  | data {b : UInt8} {bs rest : List UInt8} {script : List ReadEvent} :
    Delivers script rest → Delivers (.data (b :: bs) :: script) (b :: bs ++ rest)
  | interrupted {e : IoError} {rest : List UInt8} {script : List ReadEvent} :
    e.kind = .interrupted → Delivers script rest → Delivers (.failure e :: script) rest
  | ended {e : ReadEvent} {script : List ReadEvent} :
    e = .endOfFile ∨ e = .data [] → Delivers script [] → Delivers (e :: script) []

theorem delivers_data (bytes : List UInt8) : Delivers [.data bytes] bytes := by
  cases bytes with
  | nil => exact .ended (.inr rfl) .nil
  | cons b bs =>
    have h : Delivers [.data (b :: bs)] (b :: bs ++ []) := .data .nil
    rwa [List.append_nil] at h

theorem tokens_of_delivers {script : List ReadEvent} {bytes : List UInt8} (h : Delivers script bytes) :
    ∃ k, Reader.tokens ⟨[], script⟩ = bytes.map .byte ++ List.replicate k .endOfFile := by
  simp only [Reader.tokens, List.map_nil, List.nil_append]
  induction h with
  | nil => exact ⟨0, rfl⟩
  | data _ ih =>
    obtain ⟨k, hk⟩ := ih
    exact ⟨k, by simp [ReadEvent.tokens, hk]⟩
  | interrupted he _ ih =>
    obtain ⟨k, hk⟩ := ih
    exact ⟨k, by simp [ReadEvent.tokens, he, hk]⟩
  | ended he _ ih =>
    obtain ⟨k, hk⟩ := ih
    refine ⟨k + 1, ?_⟩
    rcases he with rfl | rfl <;> simp [ReadEvent.tokens, hk, List.replicate_succ]

/-- The answer to the request of this number, where these lines arrive one for each request. -/
def answerOf (lines : List Text) (n : Nat) : Pull :=
  (lines[n]?.map .line).getD .finished

theorem answerAt_ended (k n : Nat) : Token.answerAt (List.replicate k .endOfFile) n = .finished := by
  induction n generalizing k with
  | zero => cases k <;> rfl
  | succ n ih =>
    cases k with
    | zero => exact Token.answerAt_nil (n + 1)
    | succ k => exact ih k

theorem answerAt_bytes (bytes : List UInt8) (k n : Nat) :
    Token.answerAt (bytes.map .byte ++ List.replicate k .endOfFile) n =
      answerOf ((Reader.terminator.lines bytes).map decode) n := by
  induction bytes using Reader.terminator.newline_induction generalizing n with
  | last us h =>
    have ha : Token.answer [] (us.map .byte ++ List.replicate k .endOfFile) =
        (Reader.unterminated us, List.replicate (k - 1) .endOfFile) := by
      rw [Token.answer_bytes h]
      cases k <;> rfl
    rw [Terminator.lines_of_not_mem _ h]
    cases n with
    | zero =>
      rw [Token.answerAt, ha, Reader.unterminated]
      split <;> simp [answerOf]
    | succ n =>
      rw [Token.answerAt, ha, answerAt_ended]
      split <;> simp [answerOf]
  | line us rest h ih =>
    -- The first request uses up the line and its newline, and the others see only the rest.
    have ha : Token.answer [] ((us ++ Reader.terminator.newline :: rest).map .byte ++
        List.replicate k .endOfFile) =
        (Reader.terminated us, rest.map .byte ++ List.replicate k .endOfFile) := by
      simpa using Token.answer_line h [] (rest.map .byte ++ List.replicate k .endOfFile)
    rw [Terminator.lines_append_newline _ h]
    cases n with
    | zero =>
      rw [Token.answerAt, ha]
      rfl
    | succ n =>
      rw [Token.answerAt, ha]
      exact ih n

/-- The stream of these lines answers each request with its line, and is at its end after them. -/
theorem ofLines_pull (lines : List Text) (n : Nat) :
    (LineStream.ofLines lines).pull n = answerOf lines n := by
  simp [LineStream.ofLines, LineStream.ofArray, answerOf]

theorem lines_of_delivers {script : List ReadEvent} {bytes : List UInt8} (h : Delivers script bytes) :
    (Reader.mk [] script).lines = LineStream.ofLines (Text.lines (decode bytes)) := by
  obtain ⟨k, hk⟩ := tokens_of_delivers h
  have hp : (Reader.mk [] script).lines.pull =
      (LineStream.ofLines (Text.lines (decode bytes))).pull := by
    funext n
    rw [Reader.lines_pull, hk, answerAt_bytes, ofLines_pull, lines_decode]
  cases hr : (Reader.mk [] script).lines
  rw [hr] at hp
  exact congrArg LineStream.mk hp

end CgroupMembership
