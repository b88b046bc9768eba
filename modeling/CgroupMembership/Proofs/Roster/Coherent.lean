import CgroupMembership.Proofs.Roster.RoundTrip
import CgroupMembership.Proofs.Search.Prefix
/-!
# Rosters that match their records

A roster repeats in its identity what its records say: each of its ids is that of the last record that has
one, whichever record the other id comes from. Adding a record keeps this (`coherent_push`), and the strict
reading, the lenient reading and the search do nothing else to a roster (`parseFrom_eq_ok`, `collectFrom_eq`,
`keepsPrefix_roster`). `readings_coherent` says so of every roster that is read, and which lines count in a
lenient reading.
-/

namespace CgroupMembership

/-! ## What a line holds -/

/-- The entry in a line that is not blank. -/
def Entry.inLine? (line : Text) : Option Entry :=
  if Text.isBlank line then none else (parse line).toOption

/-- Why a line that is not blank holds no entry. -/
def MalformedLine.inLine? (line : Text) : Option MalformedLine :=
  if Text.isBlank line then none
  else
    match Entry.parse line with
    | .ok _ => none
    | .error cause => some cause

namespace Roster

variable {r : Roster}

theorem enroll_eq (r : Roster) (line : Text) :
    r.enroll line = (r.pushAll (Entry.inLine? line).toList, (MalformedLine.inLine? line).map .skippedLine) := by
  unfold enroll Entry.inLine? MalformedLine.inLine?
  split
  · rfl
  · cases Entry.parse line with
    | ok e => rfl
    | error cause => rfl

theorem pushAll_append (r : Roster) (es es' : List Entry) :
    r.pushAll (es ++ es') = (r.pushAll es).pushAll es' :=
  List.foldl_append

/-- The lenient reading adds the entries in the lines, in order, and logs the malformed lines. -/
theorem collectFrom_eq (r : Roster) (lines : List Text) :
    r.collectFrom lines =
      (r.pushAll (lines.filterMap Entry.inLine?), (lines.filterMap MalformedLine.inLine?).map .skippedLine) := by
  induction lines generalizing r with
  | nil => rfl
  | cons line lines ih =>
    rw [collectFrom, enroll_eq, ih, ← pushAll_append]
    cases he : Entry.inLine? line <;> cases hm : MalformedLine.inLine? line <;> simp [he, hm]

/-- A lenient reading depends on the lines that hold an entry, and on no other line. -/
theorem collectFrom_of_filter_eq (r : Roster) {lines lines' : List Text}
    (h : lines'.filter (Entry.inLine? · |>.isSome) = lines.filter (Entry.inLine? · |>.isSome)) :
    (r.collectFrom lines').1 = (r.collectFrom lines).1 := by
  have entries (ls : List Text) :
      ls.filterMap Entry.inLine? = (ls.filter (Entry.inLine? · |>.isSome)).filterMap Entry.inLine? := by
    rw [List.filterMap_filter]
    congr 1
    funext line
    cases Entry.inLine? line <;> simp
  rw [collectFrom_eq, collectFrom_eq, entries lines', h, ← entries]

/-! ## Coherence -/

/-- The ids of the records are those in their paths, and each id of the identity is the last of its kind. -/
structure Coherent (r : Roster) : Prop where
  ids : ∀ record ∈ r.records, (record.container, record.pod) = Path.ids record.entry.path
  container : r.identity.container = (r.records.filterMap Record.container).getLast?
  pod : r.identity.pod = (r.records.filterMap Record.pod).getLast?

theorem coherent_empty : empty.Coherent :=
  ⟨nofun, rfl, rfl⟩

theorem getLast?_filterMap_concat {α β : Type} (f : α → Option β) (xs : List α) (x : α) :
    ((xs ++ [x]).filterMap f).getLast? = (f x).or (xs.filterMap f).getLast? := by
  cases h : f x <;> simp [h]

theorem coherent_push (h : r.Coherent) (e : Entry) : (r.push (.ofEntry e)).Coherent where
  ids := by
    intro record hm
    rcases List.mem_append.1 hm with hm | hm
    · exact h.ids record hm
    · rw [List.mem_singleton.1 hm]
      rfl
  container := by
    unfold push
    rw [getLast?_filterMap_concat, ← h.container]
    rfl
  pod := by
    unfold push
    rw [getLast?_filterMap_concat, ← h.pod]
    rfl

theorem coherent_pushAll (h : r.Coherent) (es : List Entry) : (r.pushAll es).Coherent := by
  induction es generalizing r with
  | nil => exact h
  | cons e es ih => exact ih (coherent_push h e)

/-! ## All readings -/

/-- How rosters come about: by the strict reading of content, the lenient reading of lines and the detailed
search of a source. -/
inductive Read : Roster → Prop
  | strict {content : Text} {r : Roster} (h : parse content = .ok r) : Read r
  | lenient (lines : List Text) : Read (collect lines).1
  | searched (s : Source) (h : s.Halts Mode.detailed.wants) : Read (s.roster h).value

theorem coherent_collect (lines : List Text) : (collect lines).1.Coherent := by
  rw [collect, collectFrom_eq]
  exact coherent_pushAll coherent_empty _

/-- A search finds the roster of some lines: those before the stop, or none. -/
theorem exists_collect_eq_roster (s : Source) (h : s.Halts Mode.detailed.wants) :
    ∃ lines, (s.roster h).value = (collect lines).1 := by
  have hk := s.keepsPrefix_roster h
  cases hp : s.presence with
  | error e => exact ⟨[], by rw [hk.unlocated e hp]; rfl⟩
  | ok present =>
    cases present with
    | false => exact ⟨[], by rw [hk.missing hp]; rfl⟩
    | true =>
      cases hl : s.lines with
      | error e => exact ⟨[], by rw [hk.unopened hp e hl]; rfl⟩
      | ok stream =>
        obtain ⟨front, stop, hb, hstop⟩ := hk.stops hp stream hl
        exact ⟨front, (hk.opened front stop hb hstop).value⟩

theorem Read.coherent (h : r.Read) : r.Coherent := by
  cases h with
  | strict h =>
    obtain ⟨es, rfl, -⟩ := parseFrom_eq_ok h
    exact coherent_pushAll coherent_empty es
  | lenient lines => exact coherent_collect lines
  | searched s h =>
    obtain ⟨lines, hl⟩ := exists_collect_eq_roster s h
    rw [hl]
    exact coherent_collect lines

/-- What the lenient reading makes of lines: the entry of each line that holds one, and a message on each
malformed line, both in order. -/
structure CollectsEntries (lines : List Text) (a : Roster × List LogRecord) : Prop where
  entries : a.1.records.map Record.entry = lines.filterMap Entry.inLine?
  log : a.2 = (lines.filterMap MalformedLine.inLine?).map .skippedLine
  level : ∀ record ∈ a.2, record.level = .debug
  /-- Other lines may be put in or left out anywhere. -/
  others : ∀ lines', lines'.filter (Entry.inLine? · |>.isSome) = lines.filter (Entry.inLine? · |>.isSome) →
    (collect lines').1 = a.1

/-- However a roster is read, it matches its records; and a lenient reading has the entries in the lines and no
others, whatever other lines there are. -/
theorem readings_coherent :
    (∀ r : Roster, r.Read → r.Coherent) ∧ ∀ lines, CollectsEntries lines (collect lines) := by
  refine ⟨fun _ h => h.coherent, fun lines => ⟨?_, ?_, ?_, ?_⟩⟩
  · rw [collect, collectFrom_eq, entries_pushAll]
  · rw [collect, collectFrom_eq]
  · exact fun _ hm => level_of_mem_collectFrom hm
  · exact fun _ h => collectFrom_of_filter_eq empty h

/-- The ids come from different records and the last record has none. A blank line and a malformed one change
nothing. -/
theorem readings_coherent_of_separate_ids :
    let first := "3:cpu:/docker-0123456789abcdef0123456789abcdef.scope".toList
    let second := "2::/pod01234567-89ab_cdef-0123-456789abcdef/x".toList
    let third := "0::/".toList
    let container : ContainerId := ⟨"0123456789abcdef0123456789abcdef".toList, by decide, by decide⟩
    let pod : PodId := ⟨"01234567-89ab_cdef-0123-456789abcdef".toList, by decide, by decide⟩
    let scope : Entry := ⟨3, ["cpu".toList], "/docker-0123456789abcdef0123456789abcdef.scope".toList⟩
    let leaf : Entry := ⟨2, [], "/pod01234567-89ab_cdef-0123-456789abcdef/x".toList⟩
    let root : Entry := ⟨0, [], "/".toList⟩
    let lines := [first, "\u3000".toList, second, "no entry".toList, third]
    ∃ r, parse (first ++ '\n' :: second ++ '\n' :: third) = .ok r ∧ r.Coherent ∧
      r.identity = ⟨some container, some pod⟩ ∧ (collect lines).1 = r ∧
      r.records.map Record.entry = [scope, leaf, root] ∧ (collect lines).2 = [.skippedLine ⟨"no entry".toList⟩] := by
  intro first second third container pod scope leaf root lines
  let r : Roster :=
    ⟨⟨some container, some pod⟩, [⟨scope, some container, none⟩, ⟨leaf, none, some pod⟩, ⟨root, none, none⟩]⟩
  have hr : parse (first ++ '\n' :: second ++ '\n' :: third) = .ok r := by rfl
  have hlines : Text.lines (first ++ '\n' :: second ++ '\n' :: third) = [first, second, third] := by decide
  have hcollect : collect [first, second, third] = (r, []) := by
    rw [← hlines]
    exact parseFrom_eq_ok_iff.1 hr
  have hothers := (readings_coherent.2 [first, second, third]).others lines (by decide)
  rw [hcollect] at hothers
  have hentries := (readings_coherent.2 lines).entries
  rw [hothers] at hentries
  have hlog := (readings_coherent.2 lines).log
  exact ⟨r, hr, readings_coherent.1 r (.strict hr), rfl, hothers, hentries.trans (by decide),
    hlog.trans (by decide)⟩

end Roster

end CgroupMembership
