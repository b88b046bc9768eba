import CgroupMembership.Trace
import CgroupMembership.FileSystem
import CgroupMembership.Stream.Reader
/-!
# Sources of membership lines

Where the lines come from is left to a source: fixed text, a file, a byte reader or any other. A
source answers three questions; that its existence could not be told counts as a no and is logged.
Lines can be opened only with success or an error, and reading them is up to their stream. Every
source built here has a stream that ends or fails (`settled_ofText` and its companions), so every
search in it comes to a stop.
-/

namespace CgroupMembership

/-- A provider of membership lines: its answers to the three questions. -/
structure Source where
  presence : Except ExistenceError Bool
  readable : Bool
  lines : Except OpenError LineStream

namespace Source

/-- Where the membership of the current process is found by default. -/
def defaultPath : Text := "/proc/self/cgroup".toList

/-- Asks whether the source is there. -/
def askPresent (s : Source) : Traced Bool :=
  match s.presence with
  | .ok b => ⟨b, [.called .present]⟩
  | .error e => ⟨false, [.called .present, .logged (.locateFailure e)]⟩

/-- Asks whether the source can be read. -/
def askReadable (s : Source) : Traced Bool :=
  ⟨s.readable, [.called .readable]⟩

/-- Asks for the lines of the source. -/
def askLines (s : Source) : Traced (Except OpenError LineStream) :=
  ⟨s.lines, [.called .lines]⟩

/-- Whether the membership of a process can be looked into: whether the source is there and, if so,
whether it can be read. -/
def askInspectable (s : Source) : Traced Bool :=
  s.askPresent.andThen fun present => if present then s.askReadable else ⟨false, []⟩

/-- If the source is there and its lines can be opened, a scan of them comes to a stop. -/
def Halts (s : Source) (wanted : Text → Bool) : Prop :=
  s.askPresent.value = true → ∀ stream, s.lines = .ok stream → stream.Halts wanted

/-- If the lines can be opened, they end or fail at some time. -/
def Settled (s : Source) : Prop :=
  ∀ stream, s.lines = .ok stream → stream.Settled

/-- Fixed text. -/
def ofText (content : Text) : Source :=
  ⟨.ok true, true, .ok (.ofLines (Text.lines content))⟩

/-- A source that is not there; asked for lines all the same, it has none. -/
def missing : Source :=
  ⟨.ok false, false, .ok (.ofLines [])⟩

/-- A reader, which is there and can be read. -/
def ofReader (r : Reader) : Source :=
  ⟨.ok true, true, .ok r.lines⟩

/-- The lines of an opened node: a directory fails at every request. -/
def linesOfNode (node : Node) : LineStream :=
  match FileSystem.contentOf node with
  | .ok bytes => (Reader.mk [] [.data bytes]).lines
  | .error e => .failing e

/-- The file at a path. -/
def ofFile (fs : FileSystem) (path : Text) : Source :=
  ⟨fs.exists? path, fs.isReadable path, (fs.openNode path).map linesOfNode⟩

/-- The first answers of a source whose stream is at its end after them. -/
def ofPulls (present readable : Bool) (pulls : List Pull) : Source :=
  ⟨.ok present, readable, .ok (.ofArray pulls.toArray)⟩

/-- A source whose lines cannot be opened. -/
def unopenable (present readable : Bool) (e : OpenError) : Source :=
  ⟨.ok present, readable, .error e⟩

theorem Settled.halts {s : Source} (h : s.Settled) (wanted : Text → Bool) : s.Halts wanted :=
  fun _ stream hs => (h stream hs).halts wanted

theorem settled_ofText (content : Text) : (ofText content).Settled := by
  rintro stream ⟨⟩
  exact LineStream.settled_ofArray _

theorem settled_missing : missing.Settled := by
  rintro stream ⟨⟩
  exact LineStream.settled_ofArray _

theorem settled_ofReader (r : Reader) : (ofReader r).Settled := by
  rintro stream ⟨⟩
  exact LineStream.settled_ofArray _

theorem settled_linesOfNode (node : Node) : (linesOfNode node).Settled := by
  unfold linesOfNode
  split
  · exact LineStream.settled_ofArray _
  · exact LineStream.settled_failing _

theorem settled_ofFile (fs : FileSystem) (path : Text) : (ofFile fs path).Settled := by
  intro stream hs
  simp only [ofFile] at hs
  cases h : fs.openNode path with
  | error e => simp [h, Except.map] at hs
  | ok node =>
    simp only [h, Except.map, Except.ok.injEq] at hs
    exact hs ▸ settled_linesOfNode node

theorem settled_ofPulls (present readable : Bool) (pulls : List Pull) :
    (ofPulls present readable pulls).Settled := by
  rintro stream ⟨⟩
  exact LineStream.settled_ofArray _

theorem settled_unopenable (present readable : Bool) (e : OpenError) :
    (unopenable present readable e).Settled := by
  rintro stream ⟨⟩

end Source

end CgroupMembership
