import CgroupMembership.Proofs.Entry.RoundTrip
import CgroupMembership.Proofs.Roster.Strictness
import CgroupMembership.Proofs.Text.Lines
/-!
# Files that are written and read

A roster is determined by its entries (`parseFrom_eq_ok`), and a file of them holds one line for each
(`lines_renderAll`). So what is written reads back, and so does what has been read
(`parse_renderAll_round_trip`).
-/

namespace CgroupMembership

namespace Entry

/-- The file of these entries, each in a line of its own. -/
def renderAll (es : List Entry) : Text :=
  es.flatMap fun e => e.render ++ ['\n']

theorem lines_renderAll {es : List Entry} (h : ∀ e ∈ es, e.Representable) :
    Text.lines (renderAll es) = es.map render := by
  unfold Text.lines
  induction es with
  | nil => rfl
  | cons e es ih =>
    obtain ⟨he, hes⟩ := List.forall_mem_cons.1 h
    have hcr : e.render.getLast? ≠ some Text.terminator.carriageReturn := by
      rw [render, getLast?_fields he.path]
      exact he.ending
    rw [renderAll, List.flatMap_cons, List.append_assoc]
    refine (Terminator.lines_append_newline _ (newline_not_mem_render he) (renderAll es)).trans ?_
    rw [Terminator.dropReturn_of_getLast? _ hcr, ih hes]
    rfl

theorem not_isBlank_render (e : Entry) : ¬Text.isBlank e.render = true := by
  intro h
  have := List.all_eq_true.1 h ':' e.colon_mem_render
  exact absurd this (by decide)

end Entry

namespace Roster

/-- Adds the records of these entries. -/
def pushAll (r : Roster) (es : List Entry) : Roster :=
  es.foldl (fun r e => r.push (.ofEntry e)) r

theorem records_pushAll (r : Roster) (es : List Entry) :
    (r.pushAll es).records = r.records ++ es.map Record.ofEntry := by
  induction es generalizing r with
  | nil => exact (List.append_nil _).symm
  | cons e es ih =>
    refine (ih _).trans ?_
    simp [push]

theorem entries_pushAll (es : List Entry) : (empty.pushAll es).records.map Record.entry = es := by
  rw [records_pushAll]
  simp [empty, Record.ofEntry, Function.comp_def]

theorem ids_pushAll (es : List Entry) :
    ∀ record ∈ (empty.pushAll es).records, (record.container, record.pod) = Path.ids record.entry.path := by
  intro record hm
  rw [records_pushAll] at hm
  obtain ⟨e, -, rfl⟩ := List.mem_map.1 hm
  rfl

theorem parseFrom_render {es : List Entry} (h : ∀ e ∈ es, e.Representable) (number : Nat) (r : Roster) :
    parseFrom number r (es.map Entry.render) = .ok (r.pushAll es) := by
  induction es generalizing number r with
  | nil => rfl
  | cons e es ih =>
    obtain ⟨he, hes⟩ := List.forall_mem_cons.1 h
    rw [List.map_cons, parseFrom, if_neg e.not_isBlank_render, Entry.parse_render he]
    exact ih hes _ _

/-- A roster that has been read is that of entries from its lines. -/
theorem parseFrom_eq_ok {number : Nat} {r r' : Roster} {lines : List Text}
    (h : parseFrom number r lines = .ok r') :
    ∃ es, r' = r.pushAll es ∧ ∀ e ∈ es, ∃ line ∈ lines, Entry.parse line = .ok e := by
  fun_induction parseFrom number r lines with
  | case1 number r =>
    cases h
    exact ⟨[], rfl, List.forall_mem_nil _⟩
  | case2 number r line lines hb ih =>
    obtain ⟨es, hr, hes⟩ := ih h
    refine ⟨es, hr, fun e he => ?_⟩
    obtain ⟨l, hl, hp⟩ := hes e he
    exact ⟨l, List.mem_cons_of_mem line hl, hp⟩
  | case3 number r line lines hb e hp ih =>
    obtain ⟨es, hr, hes⟩ := ih h
    refine ⟨e :: es, hr, List.forall_mem_cons.2 ⟨⟨line, List.mem_cons_self, hp⟩, fun e he => ?_⟩⟩
    obtain ⟨l, hl, hp⟩ := hes e he
    exact ⟨l, List.mem_cons_of_mem line hl, hp⟩
  | case4 => cases h

theorem parse_renderAll {es : List Entry} (h : ∀ e ∈ es, e.Representable) :
    parse (Entry.renderAll es) = .ok (empty.pushAll es) := by
  rw [parse, Entry.lines_renderAll h]
  exact parseFrom_render h 1 empty

theorem parse_renderAll_of_parse {content : Text} {r : Roster} (h : parse content = .ok r) :
    parse (Entry.renderAll (r.records.map Record.entry)) = .ok r := by
  obtain ⟨es, rfl, hes⟩ := parseFrom_eq_ok h
  have hr : ∀ e ∈ es, e.Representable := fun e he => by
    obtain ⟨line, hl, hp⟩ := hes e he
    exact Entry.representable_of_parse (Terminator.newline_not_mem_of_mem_lines _ _ line hl) hp
  -- The ids of a record follow from its entry, so the entries are all there is to write.
  rw [entries_pushAll, parse_renderAll hr]

/-- A file of entries that can be told from their lines is read as just these entries, each with the ids in its
path, and the file of a roster that has been read gives that roster again. -/
theorem parse_renderAll_round_trip :
    (∀ es : List Entry, (∀ e ∈ es, e.Representable) →
      ∃ r, parse (Entry.renderAll es) = .ok r ∧ r.records.map Record.entry = es ∧
        ∀ record ∈ r.records, (record.container, record.pod) = Path.ids record.entry.path) ∧
    ∀ content r, parse content = .ok r →
      parse (Entry.renderAll (r.records.map Record.entry)) = .ok r := by
  constructor
  · intro es h
    exact ⟨_, parse_renderAll h, entries_pushAll es, ids_pushAll es⟩
  · intro content r h
    exact parse_renderAll_of_parse h

/-- Controllers without a name and colons and carriage returns in a path are kept, and so is an id behind them;
leading zeros and the ends of lines are not. -/
theorem parse_renderAll_round_trip_of_odd_entries :
    let id : ContainerId := ⟨"0123456789abcdef0123456789abcdef".toList, by decide, by decide⟩
    let first : Entry := ⟨18446744073709551615, ["cpu".toList, []], "/a:b\r/".toList ++ id.digits⟩
    let second : Entry := ⟨0, [], "\r/".toList⟩
    let written : Roster := ⟨⟨some id, none⟩, [⟨first, some id, none⟩, ⟨second, none, none⟩]⟩
    let content := "007:,:/a\r\r\n \r\n0::/".toList
    let r : Roster :=
      ⟨.unknown, [⟨⟨7, [[], []], "/a".toList⟩, none, none⟩, ⟨⟨0, [], "/".toList⟩, none, none⟩]⟩
    parse (Entry.renderAll [first, second]) = .ok written ∧
      written.records.map Record.entry = [first, second] ∧
      (∀ record ∈ written.records, (record.container, record.pod) = Path.ids record.entry.path) ∧
      parse content = .ok r ∧ parse (Entry.renderAll (r.records.map Record.entry)) = .ok r := by
  intro id first second written content r
  have hes : ∀ e ∈ [first, second], e.Representable := by
    refine List.forall_mem_cons.2 ⟨?_, List.forall_mem_singleton.2 ?_⟩
    · exact ⟨by decide, by decide, by decide, by decide, by decide⟩
    · exact ⟨by decide, by decide, by decide, by decide, by decide⟩
  obtain ⟨found, hfound, hentries, hids⟩ := parse_renderAll_round_trip.1 _ hes
  have hwritten : parse (Entry.renderAll [first, second]) = .ok written := parse_renderAll hes
  rw [← Except.ok.inj (hwritten.symm.trans hfound)] at hentries hids
  have hr : parse content = .ok r := by rfl
  exact ⟨hwritten, hentries, hids, hr, parse_renderAll_round_trip.2 content r hr⟩

end Roster

end CgroupMembership
