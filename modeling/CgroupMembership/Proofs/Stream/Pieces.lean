import Mathlib.Logic.ExistsUnique
import Mathlib.Logic.Function.Iterate
import Mathlib.Logic.Relation
import CgroupMembership.Proofs.Stream.Tokens
import CgroupMembership.Proofs.Text.Lines
/-!
# One piece of the tokens for each request

A request of a reader uses up one piece of its tokens: the bytes of a line, and then the newline, the end of
the file or the failure that stops them. Tokens with enough ends of the file in them can be cut into any
number of pieces (`exists_pieces`), and in one way only (`eq_of_flatMap_prefix`). `answers_read_off_pieces` says
that a reader answers what its pieces say, however its bytes arrive, and where every byte goes.
-/

namespace CgroupMembership

/-- What stops the bytes of a line. -/
inductive Stop where
  | newline
  /-- The end of the file, for now. -/
  | mark
  | failure (error : IoError)
  deriving DecidableEq, Repr

/-- The token of a stop. -/
def Stop.token : Stop → Token
  | .newline => .byte 0x0A
  | .mark => .endOfFile
  | .failure e => .failure e

theorem Stop.token_injective {s t : Stop} (h : s.token = t.token) : s = t := by
  cases s <;> cases t <;> simp_all [Stop.token]

/-- The byte of a token, if it is one. -/
def Token.byte? : Token → Option UInt8
  | .byte b => some b
  | _ => none

/-- The bytes up to the next stop, and the stop. -/
structure Piece where
  bytes : List UInt8
  stop : Stop
  newline_free : 0x0A ∉ bytes
  deriving DecidableEq, Repr

namespace Piece

/-- The tokens of the piece. -/
def tokens (p : Piece) : List Token :=
  p.bytes.map .byte ++ [p.stop.token]

/-- The bytes that are handed on: all of them, but without a carriage return directly before a newline, and
none before a failure. -/
def yielded (p : Piece) : List UInt8 :=
  match p.stop with
  | .newline => if p.bytes.getLast? = some 0x0D then p.bytes.dropLast else p.bytes
  | .mark => p.bytes
  | .failure _ => []

/-- The bytes that are not handed on: the terminator of the line, or all of them before a failure. -/
def withheld (p : Piece) : List UInt8 :=
  match p.stop with
  | .newline => if p.bytes.getLast? = some 0x0D then [0x0D, 0x0A] else [0x0A]
  | .mark => []
  | .failure _ => p.bytes

/-- The answer to the request that uses up the piece. -/
def answer (p : Piece) : Pull :=
  match p.stop with
  | .newline => .line (Utf8.decode p.yielded)
  | .mark => if p.bytes = [] then .finished else .line (Utf8.decode p.yielded)
  | .failure e => .failure e

/-! ## One piece -/

/-- A request with these tokens before it takes just this piece of them. -/
theorem answer_tokens_append (p : Piece) (ts : List Token) : Token.answer [] (p.tokens ++ ts) = (p.answer, ts) := by
  obtain ⟨bytes, stop, hn⟩ := p
  have hbytes := Token.answer_bytes hn [] (stop.token :: ts)
  rw [List.nil_append] at hbytes
  simp only [tokens, List.append_assoc, List.singleton_append, hbytes]
  cases stop with
  | newline => rfl
  | mark => simp [Stop.token, Token.answer, answer, yielded, Reader.unterminated]
  | failure e => rfl

theorem tokens_injective {p q : Piece} (h : p.tokens = q.tokens) : p = q := by
  obtain ⟨bytes, stop, hn⟩ := p
  obtain ⟨bytes', stop', hn'⟩ := q
  obtain ⟨hbytes, hstop⟩ := List.append_inj' h rfl
  obtain rfl := (List.map_inj_right fun _ _ => Token.byte.inj).1 hbytes
  obtain rfl := Stop.token_injective (List.singleton_inj.1 hstop)
  rfl

theorem tokens_ne_nil (p : Piece) : p.tokens ≠ [] := by
  simp [tokens]

theorem count_endOfFile_tokens_le (p : Piece) : p.tokens.count .endOfFile ≤ 1 := by
  have hbytes : (p.bytes.map Token.byte).count .endOfFile = 0 := List.count_eq_zero.2 (by simp)
  rw [tokens, List.count_append, hbytes, Nat.zero_add]
  exact List.count_le_length

theorem bytes_tokens (p : Piece) : p.tokens.filterMap Token.byte? = p.yielded ++ p.withheld := by
  obtain ⟨bytes, stop, hn⟩ := p
  have hbytes : (bytes.map Token.byte).filterMap Token.byte? = bytes := by
    simp [List.filterMap_map, Function.comp_def, Token.byte?]
  rw [tokens, List.filterMap_append, hbytes]
  cases stop with
  | newline =>
    simp only [yielded, withheld]
    split
    · rename_i hreturn
      obtain ⟨front, rfl⟩ := List.getLast?_eq_some_iff.1 hreturn
      simp [Stop.token, Token.byte?]
    · rfl
  | mark => simp [yielded, withheld, Stop.token, Token.byte?]
  | failure e => simp [yielded, withheld, Stop.token, Token.byte?]

/-! ## Cutting tokens into pieces -/

/-- `line` holds the bytes that have been passed on the way to the first stop. -/
theorem exists_piece_from {ts : List Token} (h : .endOfFile ∈ ts) {line : List UInt8} (hn : 0x0A ∉ line) :
    ∃ p : Piece, p.tokens <+: line.map .byte ++ ts := by
  induction ts generalizing line with
  | nil => cases h
  | cons t ts ih =>
    have stopped (s : Stop) (hs : s.token = t) : ∃ p : Piece, p.tokens <+: line.map .byte ++ t :: ts :=
      ⟨⟨line, s, hn⟩, ts, by simp [tokens, hs]⟩
    cases t with
    | byte b =>
      by_cases hb : b = 0x0A
      · exact stopped .newline (congrArg Token.byte hb.symm)
      · have hline : 0x0A ∉ line ++ [b] := by simp [hn, Ne.symm hb]
        simpa using ih (by simpa using h) hline
    | endOfFile => exact stopped .mark rfl
    | failure e => exact stopped (.failure e) rfl

theorem exists_piece {ts : List Token} (h : .endOfFile ∈ ts) : ∃ p : Piece, p.tokens <+: ts :=
  exists_piece_from h List.not_mem_nil

theorem exists_pieces {n : Nat} {ts : List Token} (h : n ≤ ts.count .endOfFile) :
    ∃ ps : List Piece, ps.length = n ∧ ps.flatMap tokens <+: ts := by
  induction n generalizing ts with
  | zero => exact ⟨[], rfl, List.nil_prefix⟩
  | succ n ih =>
    obtain ⟨p, rest, rfl⟩ := exists_piece (List.count_pos_iff.1 (Nat.zero_lt_of_lt h))
    have hone := p.count_endOfFile_tokens_le
    rw [List.count_append] at h
    obtain ⟨ps, hlen, hps⟩ := ih (show n ≤ rest.count .endOfFile by omega)
    exact ⟨p :: ps, by simp [hlen], by simpa using hps⟩

theorem eq_of_flatMap_prefix {ps qs : List Piece} {ts : List Token} (hp : ps.flatMap tokens <+: ts)
    (hq : qs.flatMap tokens <+: ts) (hlen : ps.length = qs.length) : ps = qs := by
  induction ps generalizing qs ts with
  | nil => exact (List.length_eq_zero_iff.1 hlen.symm).symm
  | cons p ps ih =>
    cases qs with
    | nil => cases hlen
    | cons q qs =>
      obtain ⟨a, rfl⟩ := hp
      obtain ⟨b, hb⟩ := hq
      simp only [List.flatMap_cons, List.append_assoc] at hb
      -- A request takes the first piece of either cut, so both leave the same tokens.
      have hrest : qs.flatMap tokens ++ b = ps.flatMap tokens ++ a := by
        have := q.answer_tokens_append (qs.flatMap tokens ++ b)
        rw [hb, p.answer_tokens_append] at this
        exact (Prod.mk.inj this).2.symm
      rw [hrest] at hb
      obtain rfl := tokens_injective (List.append_cancel_right hb)
      rw [ih (List.prefix_append ..) ⟨b, hrest⟩ (Nat.succ.inj hlen)]

theorem length_le_length_flatMap (ps : List Piece) : ps.length ≤ (ps.flatMap tokens).length := by
  induction ps with
  | nil => exact Nat.le_refl 0
  | cons p ps ih =>
    have := List.length_pos_iff.2 p.tokens_ne_nil
    simp only [List.flatMap_cons, List.length_append, List.length_cons]
    omega

/-- As many pieces as there are tokens use up all of them, and nothing else but ends of the file. -/
theorem bytes_flatMap {ps : List Piece} {ts : List Token} {k : Nat}
    (h : ps.flatMap tokens <+: ts ++ .replicate k .endOfFile) (hlen : ts.length ≤ ps.length) :
    ts.filterMap Token.byte? = ps.flatMap fun p => p.yielded ++ p.withheld := by
  have hts : ts <+: ps.flatMap tokens :=
    List.prefix_of_prefix_length_le (List.prefix_append ..) h (Nat.le_trans hlen (length_le_length_flatMap ps))
  obtain ⟨marks, hmarks⟩ := hts
  rw [← hmarks, List.prefix_append_right_inj] at h
  have hno : marks.filterMap Token.byte? = [] := by
    rw [List.filterMap_eq_nil_iff]
    intro t ht
    rw [List.eq_of_mem_replicate (h.subset ht)]
    rfl
  calc ts.filterMap Token.byte?
    _ = (ts ++ marks).filterMap Token.byte? := by rw [List.filterMap_append, hno, List.append_nil]
    _ = ps.flatMap fun p => p.tokens.filterMap Token.byte? := by rw [hmarks, List.filterMap_flatMap]
    _ = ps.flatMap fun p => p.yielded ++ p.withheld := by simp only [bytes_tokens]

theorem map_answerAt_flatMap (ps : List Piece) (ts : List Token) :
    (List.range ps.length).map (Token.answerAt (ps.flatMap tokens ++ ts)) = ps.map answer := by
  induction ps with
  | nil => rfl
  | cons p ps ih =>
    have hp := p.answer_tokens_append (ps.flatMap tokens ++ ts)
    have hsucc : Token.answerAt (p.tokens ++ (ps.flatMap tokens ++ ts)) ∘ Nat.succ =
        Token.answerAt (ps.flatMap tokens ++ ts) := by
      funext n
      simp only [Function.comp_apply, Token.answerAt, hp]
    rw [List.length_cons, List.range_succ_eq_map, List.flatMap_cons, List.append_assoc, List.map_cons,
      List.map_map, hsucc, ih, Token.answerAt, hp, List.map_cons]

end Piece

/-! ## Ends of the file after all tokens -/

namespace Token

theorem answer_append_marks (line : List UInt8) (ts : List Token) (k : Nat) :
    ∃ j, answer line (ts ++ .replicate k .endOfFile) =
      ((answer line ts).1, (answer line ts).2 ++ .replicate j .endOfFile) := by
  induction ts generalizing line with
  | nil =>
    refine ⟨k - 1, ?_⟩
    cases k with
    | zero => rfl
    | succ k => rfl
  | cons t ts ih =>
    cases t with
    | byte b =>
      by_cases hb : b = Reader.terminator.newline
      · exact ⟨k, by simp [answer, hb]⟩
      · simpa [answer, hb] using ih (line ++ [b])
    | endOfFile => exact ⟨k, rfl⟩
    | failure e => exact ⟨k, rfl⟩

/-- Without tokens a reader answers as it does at an end of the file, so such ends may be added. -/
theorem answerAt_append_marks (ts : List Token) (k n : Nat) :
    answerAt (ts ++ .replicate k .endOfFile) n = answerAt ts n := by
  induction n generalizing ts k with
  | zero =>
    obtain ⟨j, hj⟩ := answer_append_marks [] ts k
    rw [answerAt, answerAt, hj]
  | succ n ih =>
    obtain ⟨j, hj⟩ := answer_append_marks [] ts k
    rw [answerAt, answerAt, hj]
    exact ih _ j

theorem length_answer_le (line : List UInt8) (ts : List Token) :
    (answer line ts).2.length ≤ ts.length - 1 := by
  induction ts generalizing line with
  | nil => exact Nat.le_refl 0
  | cons t ts ih =>
    cases t with
    | byte b =>
      unfold answer
      split
      · exact Nat.le_refl _
      · have := ih (line ++ [b])
        simp only [List.length_cons]
        omega
    | endOfFile => exact Nat.le_refl _
    | failure e => exact Nat.le_refl _

/-- Each request uses up a token, so there are no more other answers than tokens. -/
theorem answerAt_of_length_le {ts : List Token} {n : Nat} (h : ts.length ≤ n) : answerAt ts n = .finished := by
  induction n generalizing ts with
  | zero =>
    obtain rfl := List.length_eq_zero_iff.1 (Nat.le_zero.1 h)
    rfl
  | succ n ih =>
    have := length_answer_le [] ts
    exact ih (by omega)

end Token

/-! ## The answers of a reader -/

/-- The bytes of an event come in two pieces, or there is one interruption less. -/
inductive ReadEvent.Recut : List ReadEvent → List ReadEvent → Prop
  | cut (front back : List ReadEvent) {a b : List UInt8} (ha : a ≠ []) (hb : b ≠ []) :
    Recut (front ++ .data (a ++ b) :: back) (front ++ .data a :: .data b :: back)
  | interrupted (front back : List ReadEvent) {e : IoError} (he : e.kind = .interrupted) :
    Recut (front ++ .failure e :: back) (front ++ back)

theorem ReadEvent.tokens_data {bytes : List UInt8} (h : bytes ≠ []) :
    (ReadEvent.data bytes).tokens = bytes.map .byte := by
  cases bytes with
  | nil => exact absurd rfl h
  | cons b bytes => rfl

theorem ReadEvent.Recut.tokens {script script' : List ReadEvent} (h : Recut script script') :
    script.flatMap ReadEvent.tokens = script'.flatMap ReadEvent.tokens := by
  cases h with
  | @cut front back a b ha hb =>
    have hab := ReadEvent.tokens_data (List.append_ne_nil_of_left_ne_nil ha b)
    simp [hab, ReadEvent.tokens_data ha, ReadEvent.tokens_data hb]
  | interrupted front back he => simp [ReadEvent.tokens, he]

/-- However often bytes are cut or joined and interruptions added or left out, the tokens stay. -/
theorem ReadEvent.tokens_eq_of_eqvGen {script script' : List ReadEvent} (h : Relation.EqvGen Recut script script') :
    script.flatMap ReadEvent.tokens = script'.flatMap ReadEvent.tokens := by
  induction h with
  | rel _ _ h => exact h.tokens
  | refl _ => rfl
  | symm _ _ _ ih => exact ih.symm
  | trans _ _ _ _ _ ih ih' => exact ih.trans ih'

namespace Reader

theorem tokens_mk_nil (script : List ReadEvent) :
    (Reader.mk [] script).tokens = script.flatMap ReadEvent.tokens :=
  List.nil_append _

/-- A stream answers what the reader answers when it is asked again and again. -/
theorem lines_pull_eq_next (r : Reader) (n : Nat) :
    r.lines.pull n = (Nat.iterate (fun r => r.next.2) n r).next.1 := by
  rw [lines_pull]
  induction n generalizing r with
  | zero => exact congrArg Prod.fst (next_tokens r).symm
  | succ n ih =>
    rw [Token.answerAt, ← next_tokens]
    exact ih r.next.2

theorem lines_eq_of_tokens {r r' : Reader} (h : r.tokens = r'.tokens) : r.lines = r'.lines := by
  have hpull : r.lines.pull = r'.lines.pull := by
    funext n
    rw [lines_pull, lines_pull, h]
  cases hr : r.lines
  cases hr' : r'.lines
  simpa [hr, hr'] using hpull

theorem firstPulls_eq_of_pieces {r : Reader} {ps : List Piece} {k : Nat}
    (h : ps.flatMap Piece.tokens <+: r.tokens ++ .replicate k .endOfFile) :
    r.lines.firstPulls ps.length = ps.map Piece.answer := by
  obtain ⟨rest, hrest⟩ := h
  rw [LineStream.firstPulls, ← Piece.map_answerAt_flatMap ps rest, hrest]
  refine List.map_congr_left fun n _ => ?_
  rw [lines_pull, Token.answerAt_append_marks]

/-- The tokens of a script, followed by ends of the file, can be cut into any number of pieces in one way, and the
first answers of the reader are those of the pieces. Enough pieces hold each byte once, handed on or withheld, and
afterwards the stream stays at its end. No answer depends on how the bytes are cut or on interruptions. -/
theorem answers_read_off_pieces (script : List ReadEvent) :
    let ts := script.flatMap ReadEvent.tokens
    let s := (Reader.mk [] script).lines
    (∀ n, s.pull n = (Nat.iterate (fun r => r.next.2) n (Reader.mk [] script)).next.1) ∧
      (∀ n k, n ≤ k → ∃! ps : List Piece,
        ps.length = n ∧ ps.flatMap Piece.tokens <+: ts ++ .replicate k .endOfFile) ∧
      (∀ (ps : List Piece) (k : Nat), ps.flatMap Piece.tokens <+: ts ++ .replicate k .endOfFile →
        s.firstPulls ps.length = ps.map Piece.answer ∧
          (ts.length ≤ ps.length → ts.filterMap Token.byte? = ps.flatMap fun p => p.yielded ++ p.withheld)) ∧
      (∀ n, ts.length ≤ n → s.pull n = .finished) ∧
      ∀ script', Relation.EqvGen ReadEvent.Recut script script' → (Reader.mk [] script').lines = s := by
  intro ts s
  have hts : (Reader.mk [] script).tokens = ts := tokens_mk_nil script
  refine ⟨lines_pull_eq_next _, fun n k hnk => ?_, fun ps k hps => ⟨?_, Piece.bytes_flatMap hps⟩, fun n hn => ?_, ?_⟩
  · have hcount : n ≤ (ts ++ .replicate k .endOfFile).count .endOfFile := by
      rw [List.count_append, List.count_replicate_self]
      omega
    obtain ⟨ps, hlen, hps⟩ := Piece.exists_pieces hcount
    refine ⟨ps, ⟨hlen, hps⟩, ?_⟩
    rintro qs ⟨hlen', hqs⟩
    exact Piece.eq_of_flatMap_prefix hqs hps (hlen'.trans hlen.symm)
  · exact firstPulls_eq_of_pieces (hts ▸ hps)
  · rw [lines_pull, hts, Token.answerAt_of_length_le hn]
  · intro script' h
    have htokens := ReadEvent.tokens_eq_of_eqvGen h
    exact lines_eq_of_tokens (by rw [tokens_mk_nil, tokens_mk_nil, htokens])

/-- A terminator in two pieces with an interruption between them, an end of the file inside a character, a failure
that loses two bytes, and a last line whose carriage return stays. -/
theorem answers_read_off_pieces_around_interruption :
    let e : IoError := ⟨.other, "lost".toList⟩
    let front : List ReadEvent := [.data [0x61, 0x0D]]
    let back : List ReadEvent := [.data [0x0A, 0xC3], .endOfFile, .data [0xA9, 0x62], .failure e, .data [0x0D]]
    let script := front ++ .failure ⟨.interrupted, "again".toList⟩ :: back
    let s := (Reader.mk [] script).lines
    s.firstPulls 5 = [.line ['a'], .line ['\uFFFD'], .failure e, .line ['\r'], .finished] ∧
      (script.flatMap ReadEvent.tokens).filterMap Token.byte? =
        [0x61] ++ [0x0D, 0x0A] ++ [0xC3] ++ [0xA9, 0x62] ++ [0x0D] ∧
      s.pull 9 = .finished ∧ (Reader.mk [] (front ++ back)).lines = s := by
  intro e front back script s
  obtain ⟨-, -, hpieces, hend, hrecut⟩ := answers_read_off_pieces script
  let last : Piece := ⟨[], .mark, by decide⟩
  let ps : List Piece := [⟨[0x61, 0x0D], .newline, by decide⟩, ⟨[0xC3], .mark, by decide⟩,
    ⟨[0xA9, 0x62], .failure e, by decide⟩, ⟨[0x0D], .mark, by decide⟩, last]
  have hfirst := (hpieces ps 2 ⟨[], by rfl⟩).1
  have hbytes := (hpieces (ps ++ List.replicate 4 last) 6 ⟨[], by rfl⟩).2 (by decide)
  refine ⟨hfirst.trans (by decide), hbytes.trans (by decide), hend 9 (by decide), hrecut _ ?_⟩
  exact .rel _ _ (.interrupted front back rfl)

end Reader

end CgroupMembership
