import CgroupMembership.Id.Tail
import CgroupMembership.Roster.Basic
import CgroupMembership.Source
/-!
# Finding an identity

A source is asked whether it is there and then, once, for its lines; if either fails, nothing is
known and the log says why. The lines are taken one at a time, each with what it adds to the finding.
The fast search looks for a container id in each line and stops at the first. The detailed search
enrolls every line. Both stop at the first failure and keep what they have found by then.
`identify_fast` and `identify_detailed` say which search a mode stands for.
-/

namespace CgroupMembership

namespace Mode

/-- The lines at which a search in this mode stops. -/
def wants : Mode → Text → Bool
  | .fast => fun line => (ContainerId.inLine? line).isSome
  | .detailed => fun _ => false

/-- What a search in this mode looks for. -/
abbrev Finding : Mode → Type
  | .fast => Option ContainerId
  | .detailed => Roster

/-- What is found before any line. -/
def nothing : (mode : Mode) → mode.Finding
  | .fast => none
  | .detailed => Roster.empty

/-- What is found after one more line. -/
def take : (mode : Mode) → mode.Finding → Text → Traced mode.Finding
  | .fast, _, line => ⟨ContainerId.inLine? line, []⟩
  | .detailed, roster, line =>
    let a := Roster.enroll roster line
    ⟨a.1, a.2.toList.map .logged⟩

/-- What is found after one more answer of a stream. The end is no item, and a failure adds nothing. -/
def takePull (mode : Mode) (found : mode.Finding) : Pull → Traced mode.Finding
  | .line text =>
    let a := mode.take found text
    ⟨a.value, .pulled :: a.trace⟩
  | .failure e => ⟨found, [.pulled, .logged (.readFailure e)]⟩
  | .finished => ⟨found, []⟩

/-- The identity in a finding. The fast search never finds a pod. -/
def identity : (mode : Mode) → mode.Finding → Identity
  | .fast, id => ⟨id, none⟩
  | .detailed, roster => Roster.identity roster

end Mode

/-- Takes the answers from number `n` on, up to the first at which a search in this mode stops. -/
def LineStream.searchFrom (s : LineStream) (mode : Mode) (h : s.Halts mode.wants) (n : Nat)
    (before : ∀ m < n, (s.pull m).stops mode.wants = false) (found : mode.Finding) :
    Traced mode.Finding :=
  let a := mode.takePull found (s.pull n)
  if hn : (s.pull n).stops mode.wants = true then a
  else
    a.andThen <| s.searchFrom mode h (n + 1) fun m hm => by
      rcases Nat.lt_succ_iff_lt_or_eq.1 hm with hlt | rfl
      · exact before m hlt
      · simpa using hn
termination_by h.choose - n
decreasing_by
  have hle : n ≤ h.choose := Nat.le_of_not_lt fun hlt => by
    simpa [before _ hlt] using h.choose_spec
  have hne : n ≠ h.choose := fun e => hn (e ▸ h.choose_spec)
  omega

namespace Source

/-- Searches the lines of a source. Where it is missing or cannot be opened, nothing is found. -/
def search (s : Source) (mode : Mode) (h : s.Halts mode.wants) : Traced mode.Finding :=
  s.askPresent.andThen fun _ =>
    if hp : s.askPresent.value = true then
      s.askLines.andThen fun _ =>
        match hl : s.lines with
        | .ok stream =>
          stream.searchFrom mode (h hp stream hl) 0 (fun _ hm => absurd hm (Nat.not_lt_zero _))
            mode.nothing
        | .error e => ⟨mode.nothing, [.logged (.unreadableSource e)]⟩
    else ⟨mode.nothing, [.logged .noSource]⟩

/-- The first container id at the tail of a line. -/
def findContainer (s : Source) (h : s.Halts Mode.fast.wants) : Traced (Option ContainerId) :=
  s.search .fast h

/-- The roster of all lines that hold an entry. -/
def roster (s : Source) (h : s.Halts Mode.detailed.wants) : Traced Roster :=
  s.search .detailed h

/-- The identity that is found in a mode. -/
def identify (s : Source) (mode : Mode) (h : s.Halts mode.wants) : Traced Identity :=
  (s.search mode h).map mode.identity

theorem identify_fast (s : Source) (h : s.Halts Mode.fast.wants) :
    s.identify .fast h = (s.findContainer h).map fun id => ⟨id, none⟩ := rfl

theorem identify_detailed (s : Source) (h : s.Halts Mode.detailed.wants) :
    s.identify .detailed h = (s.roster h).map Roster.identity := rfl

end Source

end CgroupMembership
