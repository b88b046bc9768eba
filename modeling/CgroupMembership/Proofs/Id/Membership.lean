import Mathlib.Data.Finset.Card
import Mathlib.Data.List.Induction
import CgroupMembership.Id.Set
import CgroupMembership.Proofs.Id.Layout
/-!
# What is in a set of ids

A set is asked with raw texts, and several texts may name one id. Whether an id is in the set is decided by the last
insertion or removal among the requests so far that named it (`mem_after_iff`), so what a request reports and how
many members there are can be told from the texts alone. `keeps_ids_of_last_insertions` says so of container ids,
whose texts may differ in case, and of pod ids, which are named by their own text only.
-/

namespace CgroupMembership

/-- Which raw texts name the ids of one kind. -/
structure Naming where
  /-- The texts that name an id. -/
  valid : Text → Prop
  /-- The text of the id that is named. -/
  canonical : Text → Text
  /-- Of the texts that name an id, those that are its canonical text. -/
  plain : Text → Prop
  /-- The error for a text that names no id. -/
  refusal : Text → IdError

namespace Naming

open IdSet (Request)

variable {n : Naming} {steps : List (Request × Text)} {step : Request × Text} {raw : Text}

/-- Whether the id of `raw` is in afterwards depends on this request alone. -/
def Settles (n : Naming) (step : Request × Text) (raw : Text) : Prop :=
  (step.1 = .insert ∨ step.1 = .remove) ∧ n.valid step.2 ∧ n.canonical step.2 = n.canonical raw

/-- The last request to insert or remove the id of `raw`, and not refused, was one to insert it. -/
def LastInserted (n : Naming) (steps : List (Request × Text)) (raw : Text) : Prop :=
  ∃ before inserted after, steps = before ++ (.insert, inserted) :: after ∧
    n.Settles (.insert, inserted) raw ∧ ∀ step ∈ after, ¬n.Settles step raw

theorem not_lastInserted_nil : ¬n.LastInserted [] raw := by
  rintro ⟨before, inserted, after, h, -⟩
  simp at h

/-- One more request either settles the matter or leaves it to the earlier ones. -/
theorem lastInserted_concat :
    n.LastInserted (steps ++ [step]) raw ↔
      (n.Settles step raw ∧ step.1 = .insert) ∨ (¬n.Settles step raw ∧ n.LastInserted steps raw) := by
  constructor
  · rintro ⟨before, inserted, after, heq, hsettles, hafter⟩
    rcases after.eq_nil_or_concat with rfl | ⟨front, last, rfl⟩
    · obtain ⟨-, hlast⟩ := List.append_inj' heq rfl
      cases hlast
      exact .inl ⟨hsettles, rfl⟩
    · rw [List.concat_eq_append] at heq hafter
      rw [← List.cons_append, ← List.append_assoc] at heq
      obtain ⟨rfl, hlast⟩ := List.append_inj' heq rfl
      cases hlast
      obtain ⟨hfront, hlast⟩ := List.forall_mem_append.1 hafter
      exact .inr ⟨hlast _ List.mem_cons_self, before, inserted, front, rfl, hsettles, hfront⟩
  · rintro (⟨h, hinsert⟩ | ⟨h, before, inserted, after, rfl, hsettles, hafter⟩)
    · obtain ⟨q, text⟩ := step
      obtain rfl : q = .insert := hinsert
      exact ⟨steps, text, [], rfl, h, List.forall_mem_nil _⟩
    · refine ⟨before, inserted, after ++ [step], by simp, hsettles, ?_⟩
      exact List.forall_mem_append.2 ⟨hafter, List.forall_mem_singleton.2 h⟩

theorem lastInserted_congr {raw' : Text} (h : n.canonical raw = n.canonical raw') :
    n.LastInserted steps raw ↔ n.LastInserted steps raw' := by
  simp only [LastInserted, Settles, h]

theorem LastInserted.exists_valid (h : n.LastInserted steps raw) :
    ∃ inserted, n.valid inserted ∧ n.canonical inserted = n.canonical raw := by
  obtain ⟨-, inserted, -, -, ⟨-, hvalid, hsame⟩, -⟩ := h
  exact ⟨inserted, hvalid, hsame⟩

end Naming

/-- The ids are read from the texts that name them, and written as their canonical text. -/
structure IdForm.Follows {α : Type} (form : IdForm α) (n : Naming) : Prop where
  read_of_valid : ∀ {raw}, n.valid raw → ∃ a, form.read raw = .ok a ∧ form.write a = n.canonical raw
  read_of_not_valid : ∀ {raw}, ¬n.valid raw → form.read raw = .error (n.refusal raw)
  read_write : ∀ a, form.read (form.write a) = .ok a
  plain_iff : ∀ {raw}, n.valid raw → (n.plain raw ↔ n.canonical raw = raw)

namespace IdForm.Follows

variable {α : Type} {form : IdForm α} {n : Naming} {a b : α} {raw : Text}

theorem write_injective (hf : form.Follows n) (h : form.write a = form.write b) : a = b := by
  have hb := hf.read_write b
  rw [← h, hf.read_write a] at hb
  exact Except.ok.inj hb

theorem valid_of_read (hf : form.Follows n) (h : form.read raw = .ok a) : n.valid raw := by
  by_contra hvalid
  rw [hf.read_of_not_valid hvalid] at h
  cases h

theorem write_of_read (hf : form.Follows n) (h : form.read raw = .ok a) : form.write a = n.canonical raw := by
  obtain ⟨b, hb, hwrite⟩ := hf.read_of_valid (hf.valid_of_read h)
  rw [h] at hb
  cases hb
  exact hwrite

theorem canonical_write (hf : form.Follows n) (a : α) : n.canonical (form.write a) = form.write a :=
  (hf.write_of_read (hf.read_write a)).symm

/-- A text that is read as `b` names `a` exactly if the two are one. -/
theorem canonical_eq_iff (hf : form.Follows n) (h : form.read raw = .ok b) :
    n.canonical raw = n.canonical (form.write a) ↔ a = b := by
  rw [hf.canonical_write, ← hf.write_of_read h]
  constructor
  · intro hwrite
    exact hf.write_injective hwrite.symm
  · rintro rfl
    rfl

end IdForm.Follows

namespace IdSet

variable {α : Type} [DecidableEq α] {form : IdForm α} {n : Naming} {s : IdSet α} {a : α} {raw : Text}

/-- The set after these requests to an empty one. -/
def after (form : IdForm α) (steps : List (Request × Text)) : IdSet α :=
  steps.foldl (fun s step => (s.request form step.1 step.2).2) empty

theorem after_concat (steps : List (Request × Text)) (q : Request) (raw : Text) :
    after form (steps ++ [(q, raw)]) = ((after form steps).request form q raw).2 :=
  List.foldl_concat ..

/-! ## One request -/

theorem mem_request_of_settles (hf : form.Follows n) {q : Request} (h : n.Settles (q, raw) (form.write a)) :
    a ∈ (s.request form q raw).2.members ↔ q = .insert := by
  obtain ⟨hq, hvalid, hsame⟩ := h
  obtain ⟨b, hread, -⟩ := hf.read_of_valid hvalid
  obtain rfl := (hf.canonical_eq_iff hread).1 hsame
  rcases hq with rfl | rfl
  · simp [request, hread, mem_insert]
  · simp [request, hread, mem_remove]

theorem mem_request_of_not_settles (hf : form.Follows n) {q : Request}
    (h : ¬n.Settles (q, raw) (form.write a)) :
    a ∈ (s.request form q raw).2.members ↔ a ∈ s.members := by
  by_cases hvalid : n.valid raw
  · obtain ⟨b, hread, -⟩ := hf.read_of_valid hvalid
    have hne (hq : q = .insert ∨ q = .remove) : a ≠ b := fun hab =>
      h ⟨hq, hvalid, (hf.canonical_eq_iff hread).2 hab⟩
    cases q with
    | insert => simp [request, hread, mem_insert, hne]
    | remove => simp [request, hread, mem_remove, hne]
    | contains => simp [request, hread]
    | containsText => simp [request]
  · rw [request_of_error s q (hf.read_of_not_valid hvalid)]

theorem contains_eq_true_iff : s.contains a = true ↔ a ∈ s.members := by
  simp [contains]

theorem request_containsText_iff (hf : form.Follows n) :
    (s.request form .containsText raw).1 = .ok true ↔
      n.plain raw ∧ (s.request form .contains raw).1 = .ok true := by
  have htext : (s.request form .containsText raw).1 = .ok true ↔ ∃ a ∈ s.members, form.write a = raw := by
    simp [request]
  rw [htext]
  constructor
  · rintro ⟨a, ha, rfl⟩
    have hvalid := hf.valid_of_read (hf.read_write a)
    refine ⟨(hf.plain_iff hvalid).2 (hf.canonical_write a), ?_⟩
    simpa [request, hf.read_write] using contains_eq_true_iff.2 ha
  · rintro ⟨hplain, hcontains⟩
    cases hread : form.read raw with
    | error e => simp [request, hread] at hcontains
    | ok a =>
      have hvalid := hf.valid_of_read hread
      refine ⟨a, by simpa [request, hread, contains] using hcontains, ?_⟩
      rw [hf.write_of_read hread, (hf.plain_iff hvalid).1 hplain]

/-! ## All requests -/

theorem mem_after_iff (hf : form.Follows n) (steps : List (Request × Text)) :
    a ∈ (after form steps).members ↔ n.LastInserted steps (form.write a) := by
  induction steps using List.reverseRecOn with
  | nil => simp [after, empty, Naming.not_lastInserted_nil]
  | append_singleton steps step ih =>
    rw [after_concat, Naming.lastInserted_concat]
    by_cases h : n.Settles step (form.write a)
    · simp [mem_request_of_settles hf h, h]
    · simp [mem_request_of_not_settles hf h, h, ih]

theorem contains_after_iff (hf : form.Follows n) (steps : List (Request × Text)) (h : form.read raw = .ok a) :
    (after form steps).contains a = true ↔ n.LastInserted steps raw := by
  rw [contains_eq_true_iff, mem_after_iff hf]
  exact Naming.lastInserted_congr ((hf.canonical_eq_iff h).2 rfl).symm

/-- The texts of the members are the canonical texts whose ids are in. -/
theorem mem_map_write_after_iff (hf : form.Follows n) (steps : List (Request × Text)) (t : Text) :
    t ∈ (after form steps).members.map form.write ↔ n.canonical t = t ∧ n.LastInserted steps t := by
  rw [List.mem_map]
  constructor
  · rintro ⟨a, ha, rfl⟩
    exact ⟨hf.canonical_write a, (mem_after_iff hf steps).1 ha⟩
  · rintro ⟨hcanonical, hin⟩
    obtain ⟨inserted, hvalid, hsame⟩ := hin.exists_valid
    obtain ⟨a, -, hwrite⟩ := hf.read_of_valid hvalid
    rw [hsame, hcanonical] at hwrite
    exact ⟨a, (mem_after_iff hf steps).2 (hwrite ▸ hin), hwrite⟩

theorem size_after (hf : form.Follows n) (steps : List (Request × Text)) :
    ∃ ids : Finset Text, (∀ t, t ∈ ids ↔ n.canonical t = t ∧ n.LastInserted steps t) ∧
      (after form steps).size = ids.card := by
  have hnodup : ((after form steps).members.map form.write).Nodup :=
    (after form steps).nodup.map fun _ _ => hf.write_injective
  refine ⟨((after form steps).members.map form.write).toFinset, fun t => ?_, ?_⟩
  · rw [List.mem_toFinset, mem_map_write_after_iff hf]
  · rw [List.toFinset_card_of_nodup hnodup, List.length_map, size]

theorem requests_getElem? (s : IdSet α) (before later : List (Request × Text)) (q : Request) (raw : Text) :
    (s.requests form (before ++ (q, raw) :: later))[before.length]? =
      some ((before.foldl (fun s step => (s.request form step.1 step.2).2) s).request form q raw) := by
  induction before generalizing s with
  | nil => rfl
  | cons step before ih => exact ih _

/-- A set of these ids behaves as the set of the ids whose last insertion or removal was an insertion. -/
structure Keeps (form : IdForm α) (n : Naming) : Prop where
  /-- Two ids are one exactly if their texts are. -/
  eq_iff : ∀ a b : α, a = b ↔ form.write a = form.write b
  /-- Each request of a sequence finds the set as the earlier ones have left it. -/
  request : ∀ before q raw later,
    (empty.requests form (before ++ (q, raw) :: later))[before.length]? =
      some (((after form before).request form q raw).1, after form (before ++ [(q, raw)]))
  refused : ∀ before q raw, q ≠ .containsText → ¬n.valid raw →
    (after form before).request form q raw = (.error (n.refusal raw), after form before)
  inserted : ∀ before raw, n.valid raw →
    ∃ new, ((after form before).request form .insert raw).1 = .ok new ∧
      (new = true ↔ ¬n.LastInserted before raw)
  present : ∀ before q raw, q = .remove ∨ q = .contains → n.valid raw →
    ∃ was, ((after form before).request form q raw).1 = .ok was ∧ (was = true ↔ n.LastInserted before raw)
  text : ∀ before raw, ∃ found, ((after form before).request form .containsText raw).1 = .ok found ∧
    (found = true ↔ n.plain raw ∧ ((after form before).request form .contains raw).1 = .ok true)
  size : ∀ steps, ∃ ids : Finset Text, (∀ t, t ∈ ids ↔ n.canonical t = t ∧ n.LastInserted steps t) ∧
    (after form steps).size = ids.card

theorem keeps_of_follows (hf : form.Follows n) : Keeps form n where
  eq_iff a b := ⟨congrArg form.write, hf.write_injective⟩
  request before q raw later := by
    rw [requests_getElem?, after_concat]
    rfl
  refused before q raw hq hvalid := by
    have hread := hf.read_of_not_valid hvalid
    cases q with
    | containsText => exact absurd rfl hq
    | insert | remove | contains => simp [IdSet.request, hread]
  inserted before raw hvalid := by
    obtain ⟨a, hread, -⟩ := hf.read_of_valid hvalid
    refine ⟨!(after form before).contains a, by simp [IdSet.request, hread], ?_⟩
    rw [← contains_after_iff hf before hread]
    simp
  present before q raw hq hvalid := by
    obtain ⟨a, hread, -⟩ := hf.read_of_valid hvalid
    refine ⟨(after form before).contains a, ?_, contains_after_iff hf before hread⟩
    rcases hq with rfl | rfl
    · simp [IdSet.request, hread]
    · simp [IdSet.request, hread]
  text before raw := by
    refine ⟨_, rfl, ?_⟩
    rw [← request_containsText_iff hf]
    simp [IdSet.request]
  size := size_after hf

end IdSet

/-! ## Container and pod ids -/

/-- Container ids are named by base-16 digits of either case; their own text has no upper case. -/
def ContainerId.naming : Naming where
  valid raw := raw ≠ [] ∧ ∀ d ∈ raw, Text.isHexDigit d = true
  canonical raw := raw.map Char.toLower
  plain raw := ∀ d ∈ raw, d ∉ "ABCDEF".toList
  refusal := .invalidContainerId

/-- Pod ids are named by their own text only. -/
def PodId.naming : Naming where
  valid := Text.IsUuid
  canonical raw := raw
  plain _ := True
  refusal := .invalidPodId

theorem Text.toLower_eq_self_iff {d : Char} (h : isHexDigit d = true) : d.toLower = d ↔ d ∉ "ABCDEF".toList :=
  forall_ascii (p := fun d => isHexDigit d = true → (d.toLower = d ↔ d ∉ "ABCDEF".toList)) (by decide)
    (toNat_lt_of_isHexDigit h) h

theorem ContainerId.follows : form.Follows naming where
  read_of_valid {raw} h := by
    refine ⟨⟨Text.toLower raw, ?_, Text.all_isLowerHexDigit_toLower (List.all_eq_true.2 h.2)⟩, ?_, rfl⟩
    · simpa [Text.toLower, naming] using h.1
    · exact ofText_eq_ok_iff.2 ⟨Text.isHexNumber_iff.2 h, rfl⟩
  read_of_not_valid h := dif_neg fun hhex => h (Text.isHexNumber_iff.1 hhex)
  read_write := ofText_digits
  plain_iff {raw} h := by
    have hid : raw.map Char.toLower = raw ↔ ∀ d ∈ raw, d.toLower = d := by
      rw [← List.map_id raw, List.map_map, List.map_inj_left]
      simp
    rw [naming, hid]
    exact forall₂_congr fun d hd => (Text.toLower_eq_self_iff (h.2 d hd)).symm

theorem PodId.follows : form.Follows naming where
  read_of_valid {raw} h := by
    obtain ⟨p, hp⟩ := exists_ofText_iff.2 h
    exact ⟨p, hp, text_of_ofText hp⟩
  read_of_not_valid {raw} h := dif_neg fun hgroups => h (Text.isUuid_iff.2 hgroups)
  read_write := ofText_text
  plain_iff _ := by simp [naming]

/-- A set of container ids holds those whose last accepted insertion or removal, in either case, was an insertion, and
says so; only a look-up by text tells cases apart. A set of pod ids does the same with the texts as they are, so two
different texts always are two members. -/
theorem keeps_ids_of_last_insertions :
    IdSet.Keeps ContainerId.form ContainerId.naming ∧ IdSet.Keeps PodId.form PodId.naming ∧
      ∀ p p' : PodId, p.text ≠ p'.text →
        (IdSet.after PodId.form [(.insert, p.text), (.insert, p'.text)]).size = 2 := by
  refine ⟨IdSet.keeps_of_follows ContainerId.follows, IdSet.keeps_of_follows PodId.follows, fun p p' htext => ?_⟩
  have hne : p' ≠ p := by
    rintro rfl
    exact htext rfl
  simp [IdSet.after, IdSet.request, PodId.form, PodId.ofText_text, IdSet.insert, IdSet.empty, IdSet.size, hne]

/-- An id that is in under another case and was never removed, a look-up in upper case, a refused removal, and two pod
ids that differ in one separator. -/
theorem keeps_ids_of_last_insertions_in_two_cases :
    let form := ContainerId.form
    let steps : List (IdSet.Request × Text) :=
      [(.insert, "DEADbeef".toList), (.remove, "0dead".toList), (.remove, "xyz".toList)]
    let p : PodId := ⟨"01234567-89ab_cdef-0123-456789abcdef".toList, by decide, by decide⟩
    let p' : PodId := ⟨"01234567-89ab-cdef-0123-456789abcdef".toList, by decide, by decide⟩
    ((IdSet.after form steps).request form .insert "deadBEEF".toList).1 = .ok false ∧
      ((IdSet.after form steps).request form .containsText "deadBEEF".toList).1 = .ok false ∧
      (IdSet.after form steps).request form .remove "xyz".toList =
        (.error (.invalidContainerId "xyz".toList), IdSet.after form steps) ∧
      (IdSet.after PodId.form [(.insert, p.text), (.insert, p'.text)]).size = 2 := by
  intro form steps p p'
  obtain ⟨hcontainer, -, hpod⟩ := keeps_ids_of_last_insertions
  have hvalid : ContainerId.naming.valid "deadBEEF".toList := Text.isHexNumber_iff.1 (by decide)
  have hin : ContainerId.naming.LastInserted steps "deadBEEF".toList := by
    refine ⟨[], "DEADbeef".toList, _, rfl, ⟨.inl rfl, Text.isHexNumber_iff.1 (by decide), by decide⟩, ?_⟩
    rintro step hstep ⟨-, -, hsame⟩
    simp only [List.mem_cons, List.not_mem_nil, or_false] at hstep
    rcases hstep with rfl | rfl
    · exact absurd hsame (by decide)
    · exact absurd hsame (by decide)
  have hupper : ¬ContainerId.naming.plain "deadBEEF".toList := fun h => absurd (h 'B' (by decide)) (by decide)
  obtain ⟨new, hnew, hnewIff⟩ := hcontainer.inserted steps _ hvalid
  obtain ⟨found, hfound, hfoundIff⟩ := hcontainer.text steps "deadBEEF".toList
  refine ⟨?_, ?_, hcontainer.refused steps .remove _ (by decide) ?_, hpod p p' (by decide)⟩
  · rw [hnew, Bool.eq_false_iff.2 fun h => hnewIff.1 h hin]
  · rw [hfound, Bool.eq_false_iff.2 fun h => hupper (hfoundIff.1 h).1]
  · exact fun h => absurd (h.2 'x' (by decide)) (by decide)

end CgroupMembership
