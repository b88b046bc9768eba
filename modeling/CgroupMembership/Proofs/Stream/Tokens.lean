import CgroupMembership.Stream.Reader
/-!
# What a reader answers, byte by byte

The events of a reader, flattened to single bytes, ends and failures, are its tokens. `next_tokens`
says that a request answers from the tokens alone and leaves those it has not used, so neither the
pieces in which bytes arrive nor the interruptions between them show in the stream (`lines_pull`).
-/

namespace CgroupMembership

/-- What arrives at a reader, one unit at a time. -/
inductive Token where
  | byte (b : UInt8)
  | endOfFile
  | failure (error : IoError)
  deriving DecidableEq, Repr

/-- The tokens of an event: an interruption has none. -/
def ReadEvent.tokens : ReadEvent → List Token
  | .data [] => [.endOfFile]
  | .data bytes => bytes.map .byte
  | .endOfFile => [.endOfFile]
  | .failure e => if e.kind = .interrupted then [] else [.failure e]

namespace Token

/-- The answer to one request, where `line` has been read of its line, and the tokens after it. -/
def answer (line : List UInt8) : List Token → Pull × List Token
  | [] => (Reader.unterminated line, [])
  | .byte b :: ts =>
    if b = Reader.terminator.newline then (Reader.terminated line, ts) else answer (line ++ [b]) ts
  | .endOfFile :: ts => (Reader.unterminated line, ts)
  | .failure e :: ts => (.failure e, ts)

/-- The answer to the request of this number. -/
def answerAt (ts : List Token) : Nat → Pull
  | 0 => (answer [] ts).1
  | n + 1 => answerAt (answer [] ts).2 n

theorem answer_bytes {bytes : List UInt8} (h : Reader.terminator.newline ∉ bytes) (line : List UInt8)
    (ts : List Token) : answer line (bytes.map .byte ++ ts) = answer (line ++ bytes) ts := by
  induction bytes generalizing line with
  | nil => simp
  | cons b bytes ih =>
    obtain ⟨hb, hbytes⟩ := not_or.1 (mt List.mem_cons.2 h)
    simp [answer, Ne.symm hb, ih hbytes]

theorem answer_line {bytes : List UInt8} (h : Reader.terminator.newline ∉ bytes) (line : List UInt8)
    (ts : List Token) :
    answer line (bytes.map .byte ++ .byte Reader.terminator.newline :: ts) =
      (Reader.terminated (line ++ bytes), ts) := by
  simp [answer_bytes h, answer]

theorem answerAt_nil (n : Nat) : answerAt [] n = .finished := by
  induction n with
  | zero => rfl
  | succ n ih => exact ih

end Token

namespace Reader

/-- All that a reader has not answered from yet. -/
def tokens (r : Reader) : List Token :=
  r.pending.map .byte ++ r.script.flatMap ReadEvent.tokens

theorem readLine_tokens (line pending : List UInt8) (script : List ReadEvent) :
    ((readLine line pending script).1, (readLine line pending script).2.tokens) =
      Token.answer line (tokens ⟨pending, script⟩) := by
  -- Without a newline in `pending`, the answer moves all of it to the line and looks at the next event.
  fun_induction readLine line pending script with
  | case1 script line pending first rest hc =>
    obtain ⟨rfl, hn⟩ := terminator.cutLine?_eq_some_iff.1 hc
    have := Token.answer_line hn line (tokens ⟨rest, script⟩)
    simpa [tokens] using this.symm
  | case2 line pending hc =>
    have hn := terminator.cutLine?_eq_none_iff.1 hc
    have := Token.answer_bytes hn line []
    simpa [tokens, Token.answer] using this.symm
  | case3 line pending hc script =>
    have hn := terminator.cutLine?_eq_none_iff.1 hc
    simp [tokens, ReadEvent.tokens, Token.answer_bytes hn, Token.answer]
  | case4 line pending hc b bytes script ih =>
    have hn := terminator.cutLine?_eq_none_iff.1 hc
    rw [ih]
    simp [tokens, ReadEvent.tokens, Token.answer_bytes hn]
  | case5 line pending hc script =>
    have hn := terminator.cutLine?_eq_none_iff.1 hc
    simp [tokens, ReadEvent.tokens, Token.answer_bytes hn, Token.answer]
  | case6 line pending hc e script he ih =>
    have hn := terminator.cutLine?_eq_none_iff.1 hc
    rw [ih]
    simp [tokens, ReadEvent.tokens, Token.answer_bytes hn, he]
  | case7 line pending hc e script he =>
    have hn := terminator.cutLine?_eq_none_iff.1 hc
    simp [tokens, ReadEvent.tokens, Token.answer_bytes hn, Token.answer, he]

theorem next_tokens (r : Reader) : (r.next.1, r.next.2.tokens) = Token.answer [] r.tokens :=
  readLine_tokens [] r.pending r.script

theorem tokens_of_size_zero {r : Reader} (h : ¬0 < r.size) : r.tokens = [] := by
  obtain ⟨pending, script⟩ := r
  cases pending with
  | cons => simp [size] at h
  | nil =>
    cases script with
    | nil => rfl
    | cons e script => cases e <;> simp [size, scriptSize, eventSize] at h

theorem pulls_getElem? (r : Reader) (n : Nat) :
    (r.pulls[n]?).getD .finished = Token.answerAt r.tokens n := by
  induction n generalizing r with
  | zero =>
    unfold pulls
    split
    · exact congrArg Prod.fst (next_tokens r)
    · rename_i h
      rw [tokens_of_size_zero h]
      rfl
  | succ n ih =>
    unfold pulls
    split
    · rw [Token.answerAt, ← next_tokens]
      exact ih r.next.2
    · rename_i h
      rw [tokens_of_size_zero h, Token.answerAt_nil]
      rfl

/-- The stream of a reader is what its tokens answer. -/
theorem lines_pull (r : Reader) (n : Nat) : r.lines.pull n = Token.answerAt r.tokens n := by
  rw [← pulls_getElem?]
  simp [lines, LineStream.ofArray]

end Reader

end CgroupMembership
