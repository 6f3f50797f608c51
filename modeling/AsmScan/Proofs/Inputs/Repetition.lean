import AsmScan.Proofs.Inputs.Accounts
import Mathlib.Data.List.Basic

/-!
Which inputs are reported as repeated. A path is known by the text it is shown as, so two paths
that are no text may be taken for one.
-/

namespace AsmScan

namespace Path

variable {p q : Path}

theorem shown_ofString (s : String) : (ofString s).shown = s := Text.lossy_encode s

theorem ofString_shown (h : Text.replacement ∉ p.shown.toList) : ofString p.shown = p :=
  congrArg Path.mk (Text.encode_lossy h)

theorem eq_of_shown_eq (h : Text.replacement ∉ p.shown.toList) (same : q.shown = p.shown) :
    q = p := by
  rw [← ofString_shown h, ← same, ofString_shown]
  rwa [same]

/-- No two different paths of the list are shown alike. -/
def ShownApart (paths : List Path) : Prop := ∀ p ∈ paths, ∀ q ∈ paths, p.shown = q.shown → p = q

instance (paths : List Path) : Decidable (ShownApart paths) :=
  inferInstanceAs (Decidable (∀ p ∈ paths, ∀ q ∈ paths, p.shown = q.shown → p = q))

theorem shownApart_of_text {paths : List Path} (h : ∀ p ∈ paths, ∃ s, p = ofString s) :
    ShownApart paths := by
  intro p hp q hq same
  obtain ⟨s, rfl⟩ := h p hp
  obtain ⟨t, rfl⟩ := h q hq
  rw [shown_ofString, shown_ofString] at same
  rw [same]

end Path

namespace Disk

variable {disk : Disk} {paths : List Path} {p : Path} {s : Source} {i : Nat}

/-- The input at this position is reported as one that was given before. -/
def Repeats (disk : Disk) (paths : List Path) (i : Nat) : Prop :=
  ∃ name, (disk.loadAll [] paths)[i]? = some (.error (.repeatedInput name))

/-- The inputs reported as repeated are those that were given before. -/
def TellsRepeats (disk : Disk) (paths : List Path) : Prop :=
  ∀ i p, paths[i]? = some p → (disk.Repeats paths i ↔ p ∈ paths.take i)

theorem repeats_iff (at_i : paths[i]? = some p) :
    disk.Repeats paths i ↔ ∃ q ∈ paths.take i, q.shown = p.shown := by
  rw [← List.mem_map]
  constructor
  · rintro ⟨name, reported⟩
    cases (gives_iff at_i).mpr reported with
    | repeated old => exact old
  · intro old
    exact ⟨p.shown, (gives_iff at_i).mp (.repeated old)⟩

theorem repeats_of_mem_take (at_i : paths[i]? = some p) (before : p ∈ paths.take i) :
    disk.Repeats paths i :=
  (repeats_iff at_i).mpr ⟨p, before, rfl⟩

theorem repeats_iff_of_no_replacement (at_i : paths[i]? = some p)
    (h : Text.replacement ∉ p.shown.toList) : disk.Repeats paths i ↔ p ∈ paths.take i := by
  constructor
  · intro reported
    obtain ⟨q, before, same⟩ := (repeats_iff at_i).mp reported
    exact Path.eq_of_shown_eq h same ▸ before
  · exact repeats_of_mem_take at_i

theorem tellsRepeats_iff : disk.TellsRepeats paths ↔ Path.ShownApart paths := by
  constructor
  · intro tells
    -- A path that first occurs after one shown alike is reported there, though it is new.
    have first : ∀ p ∈ paths, ∀ q ∈ paths, p.shown = q.shown →
        paths.idxOf q ≤ paths.idxOf p := by
      intro p hp q hq same
      by_contra later
      have at_q : paths[paths.idxOf q]? = some q := List.getElem?_idxOf hq
      have before : p ∈ paths.take (paths.idxOf q) :=
        (List.mem_take_iff_idxOf_lt hp).mpr (Nat.lt_of_not_le later)
      have reported : disk.Repeats paths (paths.idxOf q) :=
        (repeats_iff at_q).mpr ⟨p, before, same⟩
      have given := (tells _ q at_q).mp reported
      exact Nat.lt_irrefl _ ((List.mem_take_iff_idxOf_lt hq).mp given)
    intro p hp q hq same
    apply (List.idxOf_inj hp).mp
    exact Nat.le_antisymm (first q hq p hp same.symm) (first p hp q hq same)
  · intro apart i p at_i
    constructor
    · intro reported
      obtain ⟨q, before, same⟩ := (repeats_iff at_i).mp reported
      have one := apart q (List.mem_of_mem_take before) p (List.mem_of_getElem? at_i) same
      exact one ▸ before
    · exact repeats_of_mem_take at_i

theorem mem_sources_of_new (at_i : paths[i]? = some p) (new : ¬disk.Repeats paths i)
    (held : disk.Holds p s) : s ∈ disk.sources paths := by
  have unseen : p.shown ∉ (paths.take i).map Path.shown := by
    rw [List.mem_map]
    exact fun old => new ((repeats_iff at_i).mpr old)
  have gives := (gives_iff at_i).mp (.source unseen held)
  exact mem_filterMap_toOption.mpr (List.mem_of_getElem? gives)

theorem mem_sources_of_shownApart (apart : Path.ShownApart paths) (hp : p ∈ paths)
    (held : disk.Holds p s) : s ∈ disk.sources paths := by
  have at_p : paths[paths.idxOf p]? = some p := List.getElem?_idxOf hp
  apply mem_sources_of_new at_p ?_ held
  intro reported
  have before := (tellsRepeats_iff.mpr apart _ p at_p).mp reported
  exact Nat.lt_irrefl _ ((List.mem_take_iff_idxOf_lt hp).mp before)

end Disk

namespace Job

variable (disk : Disk) (paths : List Path) (d : Desk)

/-- A path given before is always reported. A path that was not given before is reported too if
    one shown alike was; so repeats are told from other inputs, and every file of valid text is
    loaded, as long as no two different paths are shown alike. Two that are text never are. -/
theorem load_repeats :
    (∃ e, (load disk paths).run d = .ok (disk.sources paths) e ∧
      e.log.messages = d.log.messages ++ disk.complaints paths) ∧
    (∀ i p, paths[i]? = some p →
      (disk.Repeats paths i ↔ ∃ q ∈ paths.take i, q.shown = p.shown) ∧
      (p ∈ paths.take i → disk.Repeats paths i) ∧
      (Text.replacement ∉ p.shown.toList → (disk.Repeats paths i ↔ p ∈ paths.take i))) ∧
    (disk.TellsRepeats paths ↔ Path.ShownApart paths) ∧
    (Path.ShownApart paths → ∀ p ∈ paths, ∀ text, disk p = .file (Text.encode text) →
      ⟨p.shown, text⟩ ∈ disk.sources paths) ∧
    ((∀ p ∈ paths, ∃ s, p = Path.ofString s) → Path.ShownApart paths) := by
  refine ⟨⟨_, run_load d disk paths, d.messages_loaded disk paths⟩, fun i p at_i => ?_,
    Disk.tellsRepeats_iff, fun apart p hp text file => ?_, Path.shownApart_of_text⟩
  · exact ⟨Disk.repeats_iff at_i, Disk.repeats_of_mem_take at_i,
      Disk.repeats_iff_of_no_replacement at_i⟩
  · exact Disk.mem_sources_of_shownApart apart hp ⟨rfl, file⟩

def unnamed : Disk := fun p =>
  if p = ⟨[0xFF]⟩ then .file (Text.encode "a\n")
  else if p = ⟨[0xFE]⟩ then .file (Text.encode "b\n")
  else if p = .ofString "c" then .file (Text.encode "c\n") else .absent

theorem load_repeats_unnamed :
    let paths : List Path := [⟨[0xFF]⟩, .ofString "c", ⟨[0xFF]⟩, .ofString "c"]
    unnamed.Repeats paths 2 ∧ unnamed.Repeats paths 3 ∧ ¬unnamed.Repeats paths 1 ∧
      ⟨"\uFFFD", "a\n"⟩ ∈ unnamed.sources paths ∧ ⟨"c", "c\n"⟩ ∈ unnamed.sources paths := by
  intro paths
  obtain ⟨-, positions, tells, loaded, -⟩ := load_repeats unnamed paths (Desk.fresh none)
  have apart : Path.ShownApart paths := by decide +kernel
  refine ⟨(positions 2 _ rfl).2.1 (by decide), (positions 3 _ rfl).2.1 (by decide), ?_, ?_, ?_⟩
  · intro reported
    exact absurd ((tells.mpr apart 1 _ rfl).mp reported) (by decide)
  · have name : (Path.mk [0xFF]).shown = "\uFFFD" := by decide +kernel
    exact name ▸ loaded apart ⟨[0xFF]⟩ (by decide) "a\n" rfl
  · have name : (Path.ofString "c").shown = "c" := by decide +kernel
    exact name ▸ loaded apart (.ofString "c") (by decide) "c\n" rfl

/-- A file with a name that is no text is left out after another one. -/
theorem shown_alike_left_out :
    (¬∀ disk paths, Disk.TellsRepeats disk paths) ∧
      ¬∀ (disk : Disk) (paths : List Path) (p q : Path) (s t : String), p ∈ paths → q ∈ paths →
        p ≠ q → disk p = .file (Text.encode s) → disk q = .file (Text.encode t) →
          ⟨p.shown, s⟩ ∈ disk.sources paths ∧ ⟨q.shown, t⟩ ∈ disk.sources paths := by
  constructor
  · intro tells
    have reported : unnamed.Repeats [⟨[0xFF]⟩, ⟨[0xFE]⟩] 1 := ⟨"\uFFFD", by decide +kernel⟩
    exact absurd ((tells unnamed [⟨[0xFF]⟩, ⟨[0xFE]⟩] 1 _ rfl).mp reported) (by decide)
  · intro loads
    have both := loads unnamed [⟨[0xFF]⟩, ⟨[0xFE]⟩] ⟨[0xFF]⟩ ⟨[0xFE]⟩ "a\n" "b\n" (by decide)
      (by decide) (by decide) rfl rfl
    exact absurd both.2 (by decide +kernel)

end Job

end AsmScan
