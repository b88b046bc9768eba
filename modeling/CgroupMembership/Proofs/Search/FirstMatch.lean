import CgroupMembership.Proofs.Text.Cuts
import CgroupMembership.Proofs.Search.Stages
/-!
# The fast search stops at the first match

The fast search takes lines up to the first that has a container id, or up to the failure or the end that
comes before it. `findContainer_findsFirst` gives its result and all of its events in each case. So what
follows the match has no influence, and blank lines before it change nothing but the number of lines taken.
-/

namespace CgroupMembership

open Text

/-! ## Blank lines -/

theorem Text.isBlankChar_of_isHexDigit {c : Char} (h : isHexDigit c = true) : isBlankChar c = false :=
  forall_ascii (p := fun c => isHexDigit c = true → isBlankChar c = false) (by decide) (toNat_lt_of_isHexDigit h) h

namespace ContainerId

/-- An id in a line is made of characters of the line. -/
theorem exists_hexDigit_of_atTail? {line : Text} {id : ContainerId} (h : atTail? line = some id) :
    ∃ c ∈ line, isHexDigit c = true := by
  obtain ⟨b, -, hid⟩ := Option.bind_eq_some_iff.1 h
  obtain ⟨hhex, -⟩ := toOption_ofText_eq_some_iff.1 hid
  obtain ⟨hne, hall⟩ := Bool.and_eq_true_iff.1 hhex
  obtain ⟨c, hc⟩ := List.exists_mem_of_ne_nil _ (by simpa using hne)
  have htail : c ∈ afterLast '/' line := List.mem_of_mem_take (List.mem_of_mem_drop hc)
  exact ⟨c, mem_of_mem_afterLast htail, List.all_eq_true.1 hall c hc⟩

theorem atTail?_of_isBlank {line : Text} (h : isBlank line = true) : atTail? line = none := by
  cases hid : atTail? line with
  | none => rfl
  | some id =>
    obtain ⟨c, hc, hhex⟩ := exists_hexDigit_of_atTail? hid
    have hblank := List.all_eq_true.1 h c hc
    rw [isBlankChar_of_isHexDigit hhex] at hblank
    cases hblank

end ContainerId

/-! ## All lines -/

namespace Mode

theorem wants_fast (line : Text) : Mode.fast.wants line = (ContainerId.atTail? line).isSome :=
  congrArg Option.isSome (ContainerId.inLine?_eq_atTail? line)

theorem wants_fast_eq_false_iff {line : Text} :
    Mode.fast.wants line = false ↔ ContainerId.atTail? line = none := by
  rw [wants_fast, Option.isSome_eq_false_iff, Option.isNone_iff_eq_none]

theorem takePull_fast_line (found : Option ContainerId) (line : Text) :
    Mode.fast.takePull found (.line line) = ⟨ContainerId.atTail? line, [.pulled]⟩ := by
  rw [← ContainerId.inLine?_eq_atTail?]
  rfl

theorem takeAll_fast {lines : List Text} (h : ∀ line ∈ lines, ContainerId.atTail? line = none) :
    Mode.fast.takeAll none lines = ⟨none, List.replicate lines.length .pulled⟩ := by
  induction lines with
  | nil => rfl
  | cons line lines ih =>
    obtain ⟨hl, hlines⟩ := List.forall_mem_cons.1 h
    rw [takeAll, takePull_fast_line, hl, Traced.andThen, ih hlines]
    rfl

end Mode

/-- How the fast search ends after these lines, with this answer: with an id that it has found, at a
failure or at the end. -/
inductive FirstMatch (front : List Text) : Pull → Traced (Option ContainerId) → Prop
  | found {line : Text} {id : ContainerId} (h : ContainerId.atTail? line = some id) :
    FirstMatch front (.line line)
      ⟨some id, [.called .present, .called .lines] ++ List.replicate (front.length + 1) .pulled⟩
  | failed (e : IoError) :
    FirstMatch front (.failure e)
      ⟨none, [.called .present, .called .lines] ++ List.replicate (front.length + 1) .pulled ++
        [.logged (.readFailure e)]⟩
  | exhausted :
    FirstMatch front .finished
      ⟨none, [.called .present, .called .lines] ++ List.replicate front.length .pulled⟩

theorem FirstMatch.value {front : List Text} {stop : Pull} {r : Traced (Option ContainerId)}
    (h : FirstMatch front stop r) : r.value = stop.line?.bind ContainerId.atTail? := by
  cases h with
  | found hid => exact hid.symm
  | failed e => rfl
  | exhausted => rfl

namespace Source

variable {s : Source} {front front' : List Text} {stop : Pull}

theorem findContainer_firstMatch (h : s.Halts Mode.fast.wants) (hb : s.BeginsWith front stop)
    (hf : ∀ line ∈ front, ContainerId.atTail? line = none) (hs : stop.stops Mode.fast.wants = true) :
    FirstMatch front stop (s.findContainer h) := by
  have hsearch : s.findContainer h = _ :=
    search_of_beginsWith h hb (fun line hm => Mode.wants_fast_eq_false_iff.2 (hf line hm)) hs
  have htake : Mode.fast.takeAll Mode.fast.nothing front = _ := Mode.takeAll_fast hf
  rw [hsearch, Mode.takeUntil, htake]
  cases stop with
  | line line =>
    obtain ⟨id, hid⟩ := Option.isSome_iff_exists.1 ((Mode.wants_fast line).symm.trans hs)
    have hfound : FirstMatch front (.line line) _ := .found hid
    simpa [Traced.andThen, Mode.takePull_fast_line, hid, List.replicate_succ'] using hfound
  | failure e =>
    have hfailed : FirstMatch front (.failure e) _ := .failed e
    simpa [Traced.andThen, Mode.takePull, List.replicate_succ'] using hfailed
  | finished =>
    have hend : FirstMatch front .finished _ := .exhausted
    simpa [Traced.andThen, Mode.takePull] using hend

/-- Lines that differ in blank ones alone have an id in the same places. -/
theorem atTail?_of_filter_eq
    (h : front'.filter (!isBlank ·) = front.filter (!isBlank ·))
    (hf : ∀ line ∈ front, ContainerId.atTail? line = none) :
    ∀ line ∈ front', ContainerId.atTail? line = none := by
  intro line hm
  by_cases hb : isBlank line = true
  · exact ContainerId.atTail?_of_isBlank hb
  · have hm' : line ∈ front'.filter (!isBlank ·) := List.mem_filter.2 ⟨hm, by simpa using hb⟩
    rw [h] at hm'
    exact hf line (List.mem_filter.1 hm').1

/-- What the fast search makes of a source: it ends with the first match, the first failure or the end,
whichever comes first. -/
structure FindsFirst (s : Source) (h : s.Halts Mode.fast.wants) : Prop where
  /-- The identity is the id that is found, without a pod. -/
  identify : s.identify .fast h = (s.findContainer h).map fun id => ⟨id, none⟩
  ends : ∃ k, Stage.advances s k .locating = (s.search .fast h).map .ended
  stops : s.presence = .ok true → ∀ stream, s.lines = .ok stream →
    ∃ front stop, s.BeginsWith front stop ∧ (∀ line ∈ front, ContainerId.atTail? line = none) ∧
      stop.stops Mode.fast.wants = true
  first : ∀ front stop, s.BeginsWith front stop → (∀ line ∈ front, ContainerId.atTail? line = none) →
    stop.stops Mode.fast.wants = true → FirstMatch front stop (s.findContainer h)
  /-- What follows the stop has no influence. -/
  alike : ∀ t, Alike .fast s t → ∃ h', t.identify .fast h' = s.identify .fast h
  /-- Blank lines before the stop have no influence on the identity. -/
  blank : ∀ (t : Source) (front front' : List Text) (stop : Pull),
    s.BeginsWith front stop → t.BeginsWith front' stop →
    (∀ line ∈ front, ContainerId.atTail? line = none) → stop.stops Mode.fast.wants = true →
    front'.filter (!isBlank ·) = front.filter (!isBlank ·) →
    ∃ h', (t.identify .fast h').value = (s.identify .fast h).value
  podless : (s.identify .fast h).value.pod = none

/-- The fast search finds the id of the first line that has one, and takes nothing after it. -/
theorem findContainer_findsFirst {s : Source} (h : s.Halts Mode.fast.wants) : s.FindsFirst h where
  identify := s.identify_fast h
  ends := Stage.exists_advances_eq_ended h
  stops hp _ hl := by
    obtain ⟨front, stop, hb, hf, hs⟩ := exists_beginsWith h hp hl
    exact ⟨front, stop, hb, fun line hm => Mode.wants_fast_eq_false_iff.1 (hf line hm), hs⟩
  first _ _ hb hf hs := findContainer_firstMatch h hb hf hs
  alike _ ha := by
    obtain ⟨h', hsearch⟩ := search_of_alike ha h
    exact ⟨h', congrArg (Traced.map _) hsearch⟩
  blank _ _ _ _ hb hb' hf hs hfilter := by
    have hvalue := (findContainer_firstMatch h hb hf hs).value
    have hvalue' :=
      (findContainer_firstMatch (hb'.halts hs) hb' (atTail?_of_filter_eq hfilter hf) hs).value
    exact ⟨hb'.halts hs, congrArg (Identity.mk · none) (hvalue'.trans hvalue.symm)⟩
  podless := rfl

/-- A match after a blank line and a line without an id; then failures without an end, or no more. -/
theorem findContainer_findsFirst_among_blank_lines :
    let id : ContainerId := ⟨"deadbeef".toList, by decide, by decide⟩
    let front := ["\u3000".toList, "0::/init.scope".toList]
    let line := "1:cpu:/docker-DEADBEEF.scope".toList
    let stream : LineStream := ⟨fun
      | 0 => .line "\u3000".toList
      | 1 => .line "0::/init.scope".toList
      | 2 => .line line
      | _ => .failure ⟨.isADirectory, "Is a directory".toList⟩⟩
    let s : Source := ⟨.ok true, false, .ok stream⟩
    ∃ h : s.Halts Mode.fast.wants, FirstMatch front (.line line) (s.findContainer h) ∧
      (s.findContainer h).value = some id ∧
      ∃ h', (Source.identify ⟨.ok true, true, .ok (.ofLines ["".toList, "0::/init.scope".toList, line])⟩
        .fast h').value = (s.identify .fast h).value := by
  intro id front line stream s
  have hid : ContainerId.atTail? line = some id := by decide
  have hf : ∀ line ∈ front, ContainerId.atTail? line = none := by decide
  have hs : (Pull.line line).stops Mode.fast.wants = true := by decide
  have hb : s.BeginsWith front (.line line) := ⟨rfl, stream, rfl, rfl, rfl, rfl⟩
  have hfirst := findContainer_findsFirst (hb.halts hs)
  refine ⟨hb.halts hs, hfirst.first _ _ hb hf hs, (hfirst.first _ _ hb hf hs).value.trans hid, ?_⟩
  refine hfirst.blank _ front ["".toList, "0::/init.scope".toList] _ hb ⟨rfl, _, rfl, ?_⟩ hf hs (by decide)
  exact ⟨rfl, rfl, rfl⟩

end Source

end CgroupMembership
