import CgroupMembership.Search
import CgroupMembership.Proofs.Stream.Decoded
/-!
# Files and fixed text

A search asks a source whether it is there and for its lines, and nothing else (`sameResults_of_lines`).
A source of bytes is therefore as good as the text that they decode to (`delivered_eq_decoded`).
-/

namespace CgroupMembership

/-- A search in any mode, and the roster, give the same result with the same events in both sources. -/
def SameResults (s t : Source) : Prop :=
  ∃ (hs : s.Settled) (ht : t.Settled),
    (∀ mode, s.identify mode (hs.halts _) = t.identify mode (ht.halts _)) ∧
      s.roster (hs.halts _) = t.roster (ht.halts _)

theorem sameResults_of_lines {s t : Source} (ht : t.Settled) (hp : s.presence = t.presence)
    (hl : s.lines = t.lines) : SameResults s t := by
  obtain ⟨presence, readable, lines⟩ := s
  obtain ⟨presence', readable', lines'⟩ := t
  cases hp
  cases hl
  -- What is left to differ is whether the sources can be read, which no search asks for.
  refine ⟨ht, ht, fun mode => ?_, rfl⟩
  cases mode <;> rfl

theorem ofFile_presence {fs : FileSystem} {path : Text} {node : Node} (h : fs.find path = .ok node) :
    (Source.ofFile fs path).presence = .ok true := by
  simp [Source.ofFile, FileSystem.exists?, h]

theorem ofFile_lines {fs : FileSystem} {path : Text} {bytes : List UInt8}
    (h : fs.find path = .ok (.file bytes)) :
    (Source.ofFile fs path).lines = .ok (Reader.mk [] [.data bytes]).lines := by
  simp [Source.ofFile, FileSystem.openNode, h, Except.map, Source.linesOfNode, FileSystem.contentOf]

/-- However the bytes arrive, the lines that a reader makes of them are those of the text that they decode
to, and also their lines as bytes, each decoded by itself. So a source that reads them, such as a file,
has the same results as that text. -/
theorem delivered_eq_decoded {script : List ReadEvent} {bytes : List UInt8} (h : Delivers script bytes) :
    (Reader.mk [] script).lines = LineStream.ofLines (Text.lines (Utf8.decode bytes)) ∧
      Text.lines (Utf8.decode bytes) = (Reader.terminator.lines bytes).map Utf8.decode ∧
      (∀ s : Source, s.presence = .ok true → s.lines = .ok (Reader.mk [] script).lines →
        SameResults s (.ofText (Utf8.decode bytes))) ∧
      ∀ (fs : FileSystem) (path : Text), fs.find path = .ok (.file bytes) →
        SameResults (.ofFile fs path) (.ofText (Utf8.decode bytes)) := by
  have same {script} (h : Delivers script bytes) (s : Source) (hp : s.presence = .ok true)
      (hl : s.lines = .ok (Reader.mk [] script).lines) : SameResults s (.ofText (Utf8.decode bytes)) :=
    sameResults_of_lines (Source.settled_ofText _) hp (hl.trans (congrArg Except.ok (lines_of_delivers h)))
  refine ⟨lines_of_delivers h, lines_decode bytes, same h, fun fs path hf => ?_⟩
  exact same (delivers_data bytes) _ (ofFile_presence hf) (ofFile_lines hf)

/-- A line that is cut between its carriage return and its newline, after a byte that begins no character,
and an interrupted last line that has no newline. -/
theorem delivered_eq_decoded_in_pieces :
    let bytes : List UInt8 := [0x30, 0x3A, 0x3A, 0x2F, 0xE2, 0x0D, 0x0A, 0x2F]
    let fs : FileSystem := ⟨[([['f']], .file bytes)], []⟩
    Text.lines (Utf8.decode bytes) = ["0::/\uFFFD".toList, "/".toList] ∧
      SameResults (.ofReader ⟨[], [.data [0x30, 0x3A, 0x3A, 0x2F, 0xE2, 0x0D],
        .failure ⟨.interrupted, "interrupted".toList⟩, .data [0x0A, 0x2F], .endOfFile]⟩)
        (.ofText (Utf8.decode bytes)) ∧
      SameResults (.ofFile fs ['/', 'f']) (.ofText (Utf8.decode bytes)) := by
  intro bytes fs
  have h : Delivers [.data [0x30, 0x3A, 0x3A, 0x2F, 0xE2, 0x0D],
      .failure ⟨.interrupted, "interrupted".toList⟩, .data [0x0A, 0x2F], .endOfFile] bytes :=
    .data (.interrupted rfl (.data (.ended (.inl rfl) .nil)))
  obtain ⟨-, -, source, file⟩ := delivered_eq_decoded h
  have hf : FileSystem.pathFault? ['/', 'f'] = none := by decide
  have hn : ['/', 'f'].splitOn '/' = [[], ['f']] := by decide
  have hl : Text.byteLength ['f'] = 1 := by decide
  refine ⟨by decide, source _ rfl rfl, file fs _ ?_⟩
  simp [FileSystem.find, FileSystem.place, hf, hn, FileSystem.walk, FileSystem.startOf, hl,
    FileSystem.maxNameLength, FileSystem.nodeAt?, fs]

end CgroupMembership
