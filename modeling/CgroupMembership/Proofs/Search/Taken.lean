import CgroupMembership.Search.Stage
import CgroupMembership.Proofs.Stream.Yields
/-!
# What a search takes from its source

A search that comes to a stop has taken all lines before the stop, one after another, and then the answer
there (`searchFrom_of_yields`). Its result and events are therefore a function of those alone, in each of
the ways in which it can end: `search_of_absent`, `search_of_unopened` and `search_of_beginsWith`.
-/

namespace CgroupMembership

variable {mode : Mode}

/-- What is found after some more lines. -/
def Mode.takeAll (mode : Mode) (found : mode.Finding) : List Text → Traced mode.Finding
  | [] => ⟨found, []⟩
  | line :: lines => (mode.takePull found (.line line)).andThen fun found => mode.takeAll found lines

/-- What is found after some more lines and the answer that follows them. -/
def Mode.takeUntil (mode : Mode) (found : mode.Finding) (front : List Text) (p : Pull) :
    Traced mode.Finding :=
  (mode.takeAll found front).andThen fun found => mode.takePull found p

theorem Mode.takeUntil_cons (found : mode.Finding) (line : Text) (front : List Text) (p : Pull) :
    mode.takeUntil found (line :: front) p =
      (mode.takePull found (.line line)).andThen fun found => mode.takeUntil found front p := by
  simp [takeUntil, takeAll, Traced.andThen]

/-! ## Events -/

/-- How many items an answer takes from a stream. -/
def Pull.items : Pull → Nat
  | .finished => 0
  | _ => 1

/-- What is logged of an answer that is no line. -/
def Pull.warnings : Pull → List LogRecord
  | .failure e => [.readFailure e]
  | _ => []

theorem Mode.exists_take_trace (found : mode.Finding) (line : Text) :
    ∃ records, (mode.take found line).trace = List.map Event.logged records := by
  cases mode with
  | fast => exact ⟨[], rfl⟩
  | detailed => exact ⟨_, rfl⟩

theorem Mode.calls_takePull (found : mode.Finding) (p : Pull) : (mode.takePull found p).trace.calls = [] := by
  cases p with
  | line line =>
    obtain ⟨records, hr⟩ := Mode.exists_take_trace found line
    exact (congrArg Trace.calls hr).trans (Trace.calls_map_logged records)
  | failure e => rfl
  | finished => rfl

theorem Mode.pulled_takePull (found : mode.Finding) (p : Pull) :
    (mode.takePull found p).trace.pulled = p.items := by
  cases p with
  | line line =>
    obtain ⟨records, hr⟩ := Mode.exists_take_trace found line
    have hp : Trace.pulled (records.map .logged) = 0 := Trace.pulled_map_logged records
    simp only [takePull, hr, Trace.pulled_cons_pulled, hp]
    rfl
  | failure e => rfl
  | finished => rfl

theorem Mode.calls_takeUntil (found : mode.Finding) (front : List Text) (p : Pull) :
    (mode.takeUntil found front p).trace.calls = [] := by
  induction front generalizing found with
  | nil => simp [takeUntil, takeAll, calls_takePull]
  | cons line front ih => simp [takeUntil_cons, calls_takePull, ih]

theorem Mode.pulled_takeUntil (found : mode.Finding) (front : List Text) (p : Pull) :
    (mode.takeUntil found front p).trace.pulled = front.length + p.items := by
  induction front generalizing found with
  | nil => simp [takeUntil, takeAll, pulled_takePull]
  | cons line front ih =>
    simp [takeUntil_cons, pulled_takePull, ih, Pull.items]
    omega

/-! ## The lines of a stream -/

namespace LineStream

variable {s : LineStream} {n : Nat} {front : List Text} {p : Pull}

theorem searchFrom_of_yields (h : s.Halts mode.wants) (before : ∀ m < n, (s.pull m).stops mode.wants = false)
    (found : mode.Finding) (hy : s.Yields n front p) (hf : ∀ line ∈ front, mode.wants line = false)
    (hp : p.stops mode.wants = true) :
    s.searchFrom mode h n before found = mode.takeUntil found front p := by
  induction front generalizing n found with
  | nil =>
    rw [searchFrom, dif_pos (by rwa [show s.pull n = p from hy]), show s.pull n = p from hy]
    simp [Mode.takeUntil, Mode.takeAll, Traced.andThen]
  | cons line front ih =>
    obtain ⟨hl, hf⟩ := List.forall_mem_cons.1 hf
    obtain ⟨hn, hy⟩ := hy
    have hstop : ¬(s.pull n).stops mode.wants = true := by simp [hn, Pull.stops, hl]
    rw [searchFrom, dif_neg hstop, Mode.takeUntil_cons, hn]
    exact congrArg (Traced.andThen _) (funext fun found => ih _ found hy hf)

end LineStream

/-! ## All of a source -/

namespace Source

variable {s : Source} {wanted : Text → Bool} {front : List Text} {p : Pull}

/-- The source can be opened, and its lines begin with these, with this answer after them. -/
def BeginsWith (s : Source) (front : List Text) (p : Pull) : Prop :=
  s.presence = .ok true ∧ ∃ stream, s.lines = .ok stream ∧ stream.Yields 0 front p

theorem askPresent_of_present (hp : s.presence = .ok true) : s.askPresent = ⟨true, [.called .present]⟩ := by
  rw [askPresent, hp]

theorem presence_of_askPresent (h : s.askPresent.value = true) : s.presence = .ok true := by
  cases hp : s.presence with
  | ok b => simpa [askPresent, hp] using h
  | error e => simp [askPresent, hp] at h

theorem BeginsWith.halts (hb : s.BeginsWith front p) (hp : p.stops wanted = true) : s.Halts wanted := by
  obtain ⟨-, stream, hl, hy⟩ := hb
  intro _ stream' hl'
  obtain rfl := Except.ok.inj (hl.symm.trans hl')
  exact hy.halts hp

theorem exists_beginsWith (h : s.Halts wanted) (hp : s.presence = .ok true) {stream : LineStream}
    (hl : s.lines = .ok stream) :
    ∃ front p, s.BeginsWith front p ∧ (∀ line ∈ front, wanted line = false) ∧ p.stops wanted = true := by
  have ha := askPresent_of_present hp
  obtain ⟨front, p, hy, hf, hs⟩ := LineStream.exists_yields_of_halts (h (by rw [ha]) stream hl)
  exact ⟨front, p, ⟨hp, stream, hl, hy⟩, hf, hs⟩

theorem search_of_absent (h : s.Halts mode.wants) (hp : s.askPresent.value = false) :
    s.search mode h = ⟨mode.nothing, s.askPresent.trace ++ [.logged .noSource]⟩ := by
  simp [search, hp, Traced.andThen]

theorem search_of_unopened (h : s.Halts mode.wants) (hp : s.presence = .ok true) {e : OpenError}
    (hl : s.lines = .error e) :
    s.search mode h =
      ⟨mode.nothing, [.called .present, .called .lines, .logged (.unreadableSource e)]⟩ := by
  have ha := askPresent_of_present hp
  rw [search, dif_pos (by rw [ha])]
  simp only [Traced.andThen, askLines, ha]
  split <;> simp_all

theorem search_of_beginsWith (h : s.Halts mode.wants) (hb : s.BeginsWith front p)
    (hf : ∀ line ∈ front, mode.wants line = false) (hp : p.stops mode.wants = true) :
    s.search mode h =
      ⟨(mode.takeUntil mode.nothing front p).value,
        [.called .present, .called .lines] ++ (mode.takeUntil mode.nothing front p).trace⟩ := by
  obtain ⟨hpr, stream, hl, hy⟩ := hb
  have ha := askPresent_of_present hpr
  rw [search, dif_pos (by rw [ha])]
  simp only [Traced.andThen, askLines, ha]
  split
  · rename_i stream' hl'
    obtain rfl : stream' = stream := Except.ok.inj (hl'.symm.trans hl)
    rw [LineStream.searchFrom_of_yields _ _ _ hy hf hp]
    rfl
  · simp_all

/-- A search in this mode learns the same of both sources: whether they are there, why they cannot be
opened, and the answers up to the stop. They may differ in whether they can be read and in all answers
after the stop. -/
structure Alike (mode : Mode) (s t : Source) : Prop where
  presence : t.presence = s.presence
  unopened : ∀ e, s.lines = .error e → t.lines = .error e
  opened : ∀ stream, s.lines = .ok stream →
    ∃ stream', t.lines = .ok stream' ∧ LineStream.Agrees mode.wants stream stream'

theorem search_of_alike {t : Source} (ha : Alike mode s t) (h : s.Halts mode.wants) :
    ∃ h' : t.Halts mode.wants, t.search mode h' = s.search mode h := by
  have hask : t.askPresent = s.askPresent := by rw [askPresent, askPresent, ha.presence]
  cases hp : s.askPresent.value with
  | false =>
    have h' : t.Halts mode.wants := fun ht => absurd ht (by simp [hask, hp])
    exact ⟨h', by rw [search_of_absent h' (hask ▸ hp), search_of_absent h hp, hask]⟩
  | true =>
    have hpr := presence_of_askPresent hp
    have hpr' := ha.presence.trans hpr
    cases hl : s.lines with
    | error e =>
      have hl' := ha.unopened e hl
      have h' : t.Halts mode.wants := fun _ stream ht => by simp [hl'] at ht
      exact ⟨h', by rw [search_of_unopened h' hpr' hl', search_of_unopened h hpr hl]⟩
    | ok stream =>
      obtain ⟨stream', hl', hag⟩ := ha.opened stream hl
      obtain ⟨front, p, hb, hf, hs⟩ := exists_beginsWith h hpr hl
      obtain ⟨-, _, hl'', hy⟩ := hb
      obtain rfl := Except.ok.inj (hl''.symm.trans hl)
      have hy' := LineStream.yields_of_agrees hag hy hf fun _ hm => absurd hm (Nat.not_lt_zero _)
      have hb' : t.BeginsWith front p := ⟨hpr', stream', hl', hy'⟩
      refine ⟨hb'.halts hs, ?_⟩
      rw [search_of_beginsWith _ hb' hf hs, search_of_beginsWith h ⟨hpr, _, hl, hy⟩ hf hs]

end Source

end CgroupMembership
