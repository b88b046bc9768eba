import CgroupMembership.Proofs.Cell.Interleavings
import CgroupMembership.Proofs.Id.Layout
import CgroupMembership.Proofs.Path.Leaf
import CgroupMembership.Proofs.Roster.Coherent
/-!
# All ids are canonical

An id is obtained from a text, from the tail of a line, from a path or as part of an identity, and an identity
from a search or from a cell. What a cell gives has been found by a search
(`Identity.Obtained.exists_search`), and the container ids that do not come from the tail of a line come from
paths (`Identity.Classified.exists_path`). `obtained_canonical` says what the texts of all these ids look like.
-/

namespace CgroupMembership

variable {mode : Mode} {i : Identity}

/-! ## Identities -/

/-- How an identity is obtained: from a search, or from an empty cell by calls one after another or by threads. -/
inductive Identity.Obtained (mode : Mode) : Identity → Prop
  | found (s : Source) (h : s.Halts mode.wants) : Obtained mode (s.identify mode h).value
  | answered {calls : List (Call mode)} (h : (Cell.empty : Cell mode).Answerable calls) {a : Traced Answer}
    {i : Identity} (ha : a ∈ (Cell.empty.answers calls h).1) (hi : a.value.identity? = some i) : Obtained mode i
  | kept {calls : List (Call mode)} (h : (Cell.empty : Cell mode).Answerable calls) {i : Identity}
    (hi : (Cell.empty.answers calls h).2.stored = some i) : Obtained mode i
  | seen {programs : List (List (Call mode))} {schedule : List Nat} {t : Thread mode} {i : Identity}
    (ht : t ∈ ((Shared.start Cell.empty programs).run schedule).threads) (hi : i ∈ t.seen) : Obtained mode i
  | shared {programs : List (List (Call mode))} {schedule : List Nat} {i : Identity}
    (hi : ((Shared.start Cell.empty programs).run schedule).cell.stored = some i) : Obtained mode i

/-- A search in this mode finds the identity. -/
def Identity.Found (mode : Mode) (i : Identity) : Prop :=
  ∃ s : Source, ∃ h : s.Halts mode.wants, i = (s.identify mode h).value

namespace Cell

variable {c : Cell mode}

/-- What is stored has been found. -/
def HoldsFound (c : Cell mode) : Prop :=
  ∀ i, c.stored = some i → i.Found mode

theorem holdsFound_answer (hc : c.HoldsFound) {call : Call mode} (h : c.Answerable [call]) :
    (∀ i, (c.answer call h).1.value.identity? = some i → i.Found mode) ∧ (c.answer call h).2.HoldsFound := by
  cases call with
  | mode => exact ⟨nofun, hc⟩
  | read => exact ⟨hc, hc⟩
  | demand s =>
    cases hs : c.stored with
    | some i =>
      rw [answer, demand_of_stored s _ hs]
      refine ⟨fun j hj => hc j ?_, hc⟩
      rw [hs, ← hj]
      rfl
    | none =>
      rw [answer, demand_of_empty s _ hs]
      have hfound : ((s.fill mode (h hs s rfl)).value).Found mode := ⟨s, h hs s rfl, rfl⟩
      refine ⟨?_, ?_⟩
      · rintro j ⟨⟩
        exact hfound
      · rintro j ⟨⟩
        exact hfound

theorem holdsFound_answers (hc : c.HoldsFound) {calls : List (Call mode)} (h : c.Answerable calls) :
    (∀ a ∈ (c.answers calls h).1, ∀ i, a.value.identity? = some i → i.Found mode) ∧
      (c.answers calls h).2.HoldsFound := by
  induction calls generalizing c with
  | nil => exact ⟨nofun, hc⟩
  | cons call calls ih =>
    obtain ⟨hanswer, hcell⟩ := holdsFound_answer hc h.head
    obtain ⟨hanswers, hcells⟩ := ih hcell h.tail
    exact ⟨List.forall_mem_cons.2 ⟨hanswer, hanswers⟩, hcells⟩

end Cell

namespace Shared

/-- What threads around an empty cell are given, and what they leave in it, has been found. -/
theorem found_run (programs : List (List (Call mode))) (schedule : List Nat) :
    let s := (start Cell.empty programs).run schedule
    (∀ t ∈ s.threads, ∀ i ∈ t.seen, i.Found mode) ∧ ∀ i, s.cell.stored = some i → i.Found mode := by
  intro s
  rcases (idle_start programs).run schedule with ⟨hidle, -⟩ | ⟨i, -, source, -, -, hphase, -⟩
  · refine ⟨fun t ht i hi => ?_, fun i hi => ?_⟩
    · rw [hidle.seen t ht] at hi
      cases hi
    · rw [hidle.stored] at hi
      cases hi
  · have hby : SearchedBy i source s := by
      rcases hphase with hbusy | ⟨_, hfull⟩
      · exact hbusy.searchedBy
      · exact hfull.searchedBy
    exact ⟨fun t ht i hi => ⟨source, hby.seen t ht i hi⟩, fun i hi => ⟨source, hby.stored i hi⟩⟩

end Shared

theorem Identity.Obtained.exists_search (h : i.Obtained mode) : i.Found mode := by
  have hempty : (Cell.empty : Cell mode).HoldsFound := nofun
  cases h with
  | found s h => exact ⟨s, h, rfl⟩
  | answered h ha hi => exact (Cell.holdsFound_answers hempty h).1 _ ha i hi
  | kept h hi => exact (Cell.holdsFound_answers hempty h).2 i hi
  | seen ht hi => exact (Shared.found_run _ _).1 _ ht i hi
  | shared hi => exact (Shared.found_run _ _).2 i hi

/-- How two ids come from paths: those of one path or one record, or the identity of a roster or of a detailed
search. -/
inductive Identity.Classified : Identity → Prop
  | path {path : Text} {i : Identity} (h : Path.ids path = (i.container, i.pod)) : Classified i
  | record {r : Roster} (h : r.Read) {record : Record} (hm : record ∈ r.records) :
    Classified ⟨record.container, record.pod⟩
  | roster {r : Roster} (h : r.Read) : Classified r.identity
  | detailed {i : Identity} (h : i.Obtained .detailed) : Classified i

/-! ## Ids -/

/-- How a container id is obtained. -/
inductive ContainerId.Obtained : ContainerId → Prop
  | read {raw : Text} {c : ContainerId} (h : ofText raw = .ok c) : Obtained c
  | tail {line : Text} {c : ContainerId} (h : atTail? line = some c) : Obtained c
  | first {lines : List Text} {c : ContainerId} (h : (firstAtTail lines).1 = some c) : Obtained c
  | classified {i : Identity} (hi : i.Classified) {c : ContainerId} (h : i.container = some c) : Obtained c
  | resolved {mode : Mode} {i : Identity} (hi : i.Obtained mode) {c : ContainerId} (h : i.container = some c) :
    Obtained c

/-- How a pod id is obtained. -/
inductive PodId.Obtained : PodId → Prop
  | read {raw : Text} {p : PodId} (h : ofText raw = .ok p) : Obtained p
  | classified {i : Identity} (hi : i.Classified) {p : PodId} (h : i.pod = some p) : Obtained p
  | resolved {mode : Mode} {i : Identity} (hi : i.Obtained mode) {p : PodId} (h : i.pod = some p) : Obtained p

theorem Roster.Coherent.exists_record {r : Roster} (h : r.Coherent) {c : ContainerId}
    (hc : r.identity.container = some c) : ∃ record ∈ r.records, record.container = some c := by
  rw [h.container] at hc
  exact List.mem_filterMap.1 (List.mem_of_getLast? hc)

theorem Roster.Coherent.exists_path {r : Roster} (h : r.Coherent) {record : Record} (hm : record ∈ r.records) :
    ∃ p, (Path.ids p).1 = record.container :=
  ⟨record.entry.path, by rw [← h.ids record hm]⟩

theorem Identity.Classified.exists_path (h : i.Classified) {c : ContainerId} (hc : i.container = some c) :
    ∃ p, (Path.ids p).1 = some c := by
  have roster {r : Roster} (h : r.Read) (hc : r.identity.container = some c) : ∃ p, (Path.ids p).1 = some c := by
    obtain ⟨record, hm, hrecord⟩ := h.coherent.exists_record hc
    rw [← hrecord]
    exact h.coherent.exists_path hm
  cases h with
  | @path p _ h => exact ⟨p, by rw [h, hc]⟩
  | record h hm =>
    rw [← hc]
    exact h.coherent.exists_path hm
  | roster h => exact roster h hc
  | detailed h =>
    obtain ⟨s, hs, rfl⟩ := h.exists_search
    exact roster (.searched s hs) hc

theorem Path.length_of_ids {p : Text} {c : ContainerId} (h : (ids p).1 = some c) :
    c.digits.length = 32 ∨ c.digits.length = 64 := by
  rw [ids_container, Option.bind_eq_some_iff] at h
  obtain ⟨leaf, -, h⟩ := h
  obtain ⟨-, w, -, -, hw, hdigits⟩ := leafId?_eq_some_iff.1 h
  rw [hdigits]
  exact (digits_of_isContainerForm hw).1

theorem ContainerId.mem_lowerHexDigits (c : ContainerId) : ∀ d ∈ c.digits, d ∈ Text.lowerHexDigits :=
  fun d hd => Text.isLowerHexDigit_iff.1 (List.all_eq_true.1 c.lower d hd)

theorem ContainerId.ofText_inj {a b : Text} {c d : ContainerId} (hc : ofText a = .ok c) (hd : ofText b = .ok d) :
    c = d ↔ a.map Char.toLower = b.map Char.toLower := by
  rw [ContainerId.ext_iff, (ofText_eq_ok_iff.1 hc).2, (ofText_eq_ok_iff.1 hd).2]
  rfl

/-- However an id is obtained, it is written in lowercase base-16 digits and is read back from that; a container
id from a path has 32 or 64 digits and a pod id the form of a UUID. Texts of the same container id differ in case
only. -/
theorem obtained_canonical :
    (∀ c : ContainerId, c.Obtained →
      c.digits ≠ [] ∧ (∀ d ∈ c.digits, d ∈ Text.lowerHexDigits) ∧ ContainerId.ofText c.digits = .ok c) ∧
    (∀ i : Identity, i.Classified →
      ∀ c, i.container = some c → c.digits.length = 32 ∨ c.digits.length = 64) ∧
    (∀ p : PodId, p.Obtained → Text.IsUuid p.text ∧ PodId.ofText p.text = .ok p) ∧
    ∀ a b c d, ContainerId.ofText a = .ok c → ContainerId.ofText b = .ok d →
      (c = d ↔ a.map Char.toLower = b.map Char.toLower) := by
  refine ⟨fun c _ => ⟨c.digits_ne_nil, c.mem_lowerHexDigits, c.ofText_digits⟩, ?_, ?_, ?_⟩
  · intro i hi c hc
    obtain ⟨p, hp⟩ := hi.exists_path hc
    exact Path.length_of_ids hp
  · intro p _
    exact ⟨(PodId.ofText_eq_ok_iff.1 p.ofText_text).1, p.ofText_text⟩
  · intro a b c d hc hd
    exact ContainerId.ofText_inj hc hd

/-- One path names both ids. The id at the tail of another line is in upper case there, and a zero in front makes
another id of it. -/
theorem obtained_canonical_of_upper_case :
    let path := "/pod01234567-89ab_cdef-0123-456789abcdef/0123456789abcdef0123456789abcdef.scope".toList
    let c : ContainerId := ⟨"0123456789abcdef0123456789abcdef".toList, by decide, by decide⟩
    let p : PodId := ⟨"01234567-89ab_cdef-0123-456789abcdef".toList, by decide, by decide⟩
    let e : ContainerId := ⟨"deadbeef".toList, by decide, by decide⟩
    Path.ids path = (some c, some p) ∧ (c.digits.length = 32 ∨ c.digits.length = 64) ∧
      Text.IsUuid p.text ∧ PodId.ofText p.text = .ok p ∧
      ContainerId.atTail? "/x-DEADBEEF.scope".toList = some e ∧ (∀ d ∈ e.digits, d ∈ Text.lowerHexDigits) ∧
      ContainerId.ofText "DEADbeef".toList = .ok e ∧
      ∃ f, ContainerId.ofText "0deadBEEF".toList = .ok f ∧ e ≠ f := by
  intro path c p e
  let f : ContainerId := ⟨"0deadbeef".toList, by decide, by decide⟩
  have hids : Path.ids path = (some c, some p) := by rfl
  have hi : Identity.Classified ⟨some c, some p⟩ := .path hids
  have he : ContainerId.atTail? "/x-DEADBEEF.scope".toList = some e := by rfl
  have hread : ContainerId.ofText "DEADbeef".toList = .ok e := by rfl
  have hread' : ContainerId.ofText "0deadBEEF".toList = .ok f := by rfl
  obtain ⟨hcontainer, hlength, hpod, hcase⟩ := obtained_canonical
  obtain ⟨huuid, hp⟩ := hpod p (.classified hi rfl)
  obtain ⟨-, hdigits, -⟩ := hcontainer e (.tail he)
  have hne : e ≠ f := by
    rw [ne_eq, hcase _ _ e f hread hread']
    decide
  exact ⟨hids, hlength _ hi c rfl, huuid, hp, he, hdigits, hread, f, hread', hne⟩

end CgroupMembership
