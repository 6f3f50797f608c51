import AsmScan.Proofs.Inputs
import AsmScan.Proofs.Jobs.Assembling
import AsmScan.Proofs.Text.Utf8

/-!
Every input is accounted for once: it gives a source, or a message that says why not.
-/

namespace AsmScan

namespace Disk

variable {disk : Disk} {earlier paths : List Path} {p : Path} {s : Source}
  {outcome : Except Fault Source}

/-- The file at the path has the text of the source, byte for byte. -/
structure Holds (disk : Disk) (p : Path) (s : Source) : Prop where
  name : s.name = p.shown
  content : disk p = .file (Text.encode s.text)

theorem load_eq_ok_iff_holds : disk.load p = .ok s ↔ disk.Holds p s := by
  rw [load_eq_ok_iff]
  constructor
  · rintro ⟨content, text, file, valid, rfl⟩
    exact ⟨rfl, by rw [file, Text.decode?_eq_some_iff.mp valid]⟩
  · rintro ⟨name, content⟩
    exact ⟨_, s.text, content, Text.decode?_eq_some_iff.mpr rfl, by rw [← name]⟩

/-- What becomes of an input that comes after the others. -/
inductive Gives (disk : Disk) (earlier : List Path) (p : Path) : Except Fault Source → Prop
  | repeated (h : p.shown ∈ earlier.map Path.shown) :
      Gives disk earlier p (.error (.repeatedInput p.shown))
  | source {s : Source} (new : p.shown ∉ earlier.map Path.shown) (h : disk.Holds p s) :
      Gives disk earlier p (.ok s)
  | missing (new : p.shown ∉ earlier.map Path.shown) (h : disk p = .absent) :
      Gives disk earlier p (.error (.missingInput p.shown))
  | refused {reason : String} (new : p.shown ∉ earlier.map Path.shown)
      (h : disk p = .unreadable reason) : Gives disk earlier p (.error (.unreadable p.shown reason))
  | noText {content : Text.Bytes} (new : p.shown ∉ earlier.map Path.shown)
      (h : disk p = .file content) (invalid : ∀ text, Text.encode text ≠ content) :
      Gives disk earlier p (.error (.unreadable p.shown "stream did not contain valid UTF-8"))

theorem gives_iff_of_new (new : p.shown ∉ earlier.map Path.shown) :
    disk.Gives earlier p outcome ↔ outcome = disk.load p := by
  constructor
  · intro h
    cases h with
    | repeated old => exact absurd old new
    | source _ h => exact (load_eq_ok_iff_holds.mpr h).symm
    | missing _ h => rw [load, h]
    | refused _ h => rw [load, h]
    | noText _ h invalid => simp only [load, h, Text.decode?_eq_none_iff.mpr invalid]
  · rintro rfl
    cases loaded : disk.load p with
    | ok s => exact .source new (load_eq_ok_iff_holds.mp loaded)
    | error fault =>
      cases file : disk p with
      | absent =>
        rw [load, file] at loaded
        exact Except.error.inj loaded ▸ .missing new file
      | unreadable reason =>
        rw [load, file] at loaded
        exact Except.error.inj loaded ▸ .refused new file
      | file content =>
        cases decoded : Text.decode? content with
        | none =>
          simp only [load, file, decoded] at loaded
          exact Except.error.inj loaded ▸ .noText new file (Text.decode?_eq_none_iff.mp decoded)
        | some text =>
          simp only [load, file, decoded] at loaded
          exact absurd loaded (by simp)

theorem gives_iff_of_old (old : p.shown ∈ earlier.map Path.shown) :
    disk.Gives earlier p outcome ↔ outcome = .error (.repeatedInput p.shown) := by
  constructor
  · intro h
    cases h with
    | repeated => rfl
    | source new | missing new | refused new | noText new => exact absurd old new
  · rintro rfl
    exact .repeated old

theorem length_loadAll (disk : Disk) (seen : List String) (paths : List Path) :
    (disk.loadAll seen paths).length = paths.length := by
  induction paths generalizing seen with
  | nil => rfl
  | cons p rest ih => rw [loadAll, List.length_cons, List.length_cons, ih]

theorem getElem?_loadAll (disk : Disk) (seen : List String) (paths : List Path) (i : Nat) :
    (disk.loadAll seen paths)[i]? = paths[i]?.map fun p =>
      if p.shown ∈ (paths.take i).map Path.shown ++ seen then .error (.repeatedInput p.shown)
      else disk.load p := by
  induction paths generalizing seen i with
  | nil => rfl
  | cons p rest ih =>
    cases i with
    | zero => rfl
    | succ j =>
      rw [loadAll, List.getElem?_cons_succ, List.getElem?_cons_succ, ih]
      refine congrArg (rest[j]?.map ·) (funext fun q => ?_)
      simp only [List.take_succ_cons, List.map_cons, List.mem_append, List.mem_cons]
      exact if_congr (by tauto) rfl rfl

theorem gives_iff {i : Nat} (at_i : paths[i]? = some p) :
    disk.Gives (paths.take i) p outcome ↔ (disk.loadAll [] paths)[i]? = some outcome := by
  rw [getElem?_loadAll, at_i, Option.map_some, List.append_nil, Option.some_inj, eq_comm]
  by_cases old : p.shown ∈ (paths.take i).map Path.shown
  · rw [if_pos old, gives_iff_of_old old]
  · rw [if_neg old, gives_iff_of_new old]

theorem exists_holds_of_mem_sources (h : s ∈ disk.sources paths) : ∃ p ∈ paths, disk.Holds p s := by
  obtain ⟨i, at_i⟩ := List.mem_iff_getElem?.mp (mem_filterMap_toOption.mp h)
  obtain ⟨p, path_i, -⟩ := Option.map_eq_some_iff.mp (getElem?_loadAll disk [] paths i ▸ at_i)
  cases (gives_iff path_i).mpr at_i with
  | source _ held => exact ⟨p, List.mem_of_getElem? path_i, held⟩

theorem name_not_mem_of_mem_loadAll {seen : List String} (h : .ok s ∈ disk.loadAll seen paths) :
    s.name ∉ seen := by
  induction paths generalizing seen with
  | nil => exact absurd h List.not_mem_nil
  | cons p rest ih =>
    rw [loadAll, List.mem_cons] at h
    by_cases old : p.shown ∈ seen
    · rw [if_pos old] at h
      have later := h.resolve_left (by simp)
      exact fun before => ih later (List.mem_cons_of_mem _ before)
    · rw [if_neg old] at h
      obtain loaded | later := h
      · rw [(load_eq_ok_iff_holds.mp loaded.symm).name]
        exact old
      · exact fun before => ih later (List.mem_cons_of_mem _ before)

theorem nodup_names (disk : Disk) (seen : List String) (paths : List Path) :
    (((disk.loadAll seen paths).filterMap Except.toOption).map Source.name).Nodup := by
  induction paths generalizing seen with
  | nil => exact List.nodup_nil
  | cons p rest ih =>
    rw [loadAll]
    by_cases old : p.shown ∈ seen
    · rw [if_pos old]
      exact ih (p.shown :: seen)
    · rw [if_neg old]
      cases loaded : disk.load p with
      | error fault => exact ih (p.shown :: seen)
      | ok s =>
        have named : s.name = p.shown := (load_eq_ok_iff_holds.mp loaded).name
        apply List.nodup_cons.mpr
        constructor
        · intro again
          obtain ⟨t, later, same⟩ := List.mem_map.mp again
          apply name_not_mem_of_mem_loadAll (mem_filterMap_toOption.mp later)
          rw [same, named]
          exact List.mem_cons_self
        · exact ih (p.shown :: seen)

theorem length_outcomes (outcomes : List (Except Fault Source)) :
    (outcomes.filterMap Except.toOption).length + (outcomes.filterMap complaint?).length =
      outcomes.length := by
  induction outcomes with
  | nil => rfl
  | cons outcome rest ih =>
    cases outcome with
    | ok s =>
      simp only [List.filterMap_cons, Except.toOption, complaint?, List.length_cons]
      omega
    | error fault =>
      simp only [List.filterMap_cons, Except.toOption, complaint?, List.length_cons]
      omega

theorem length_complaints (disk : Disk) (paths : List Path) :
    (disk.sources paths).length + (disk.complaints paths).length =
      paths.length + if disk.sources paths = [] then 1 else 0 := by
  rw [complaints, List.length_append, ← Nat.add_assoc, sources, length_outcomes, length_loadAll]
  split <;> rfl

theorem Loads.forall₂_holds (h : disk.Loads paths) :
    List.Forall₂ disk.Holds paths (disk.sources paths) := by
  have readable : ∀ p ∈ paths, ∃ s, disk.load p = .ok s := fun p hp => h.exists_load hp
  rw [sources, h.loadAll_eq]
  clear h
  induction paths with
  | nil => exact .nil
  | cons p rest ih =>
    obtain ⟨s, loaded⟩ := readable p List.mem_cons_self
    rw [List.map_cons, List.filterMap_cons_some (b := s) (by rw [loaded]; rfl)]
    exact .cons (load_eq_ok_iff_holds.mp loaded)
      (ih fun q hq => readable q (List.mem_cons_of_mem p hq))

end Disk

namespace Job

variable (disk : Disk) (paths : List Path) (d : Desk)

/-- Loading gives, in the order of the paths, a source for each file of valid text under a new
    name, and adds to the log a message for each other path, then one if there is no source. -/
theorem load_accounts :
    ∃ (outcomes : List (Except Fault Source)) (sources : List Source) (messages : List String)
      (e : Desk),
      (load disk paths).run d = .ok sources e ∧
      e.log.messages = d.log.messages ++ messages ∧
      outcomes.length = paths.length ∧
      (∀ i p outcome, paths[i]? = some p →
        (outcomes[i]? = some outcome ↔ disk.Gives (paths.take i) p outcome)) ∧
      sources = outcomes.filterMap Except.toOption ∧
      messages = outcomes.filterMap complaint? ++
        (if sources = [] then [Fault.noInput.message] else []) ∧
      sources.length + messages.length = paths.length + (if sources = [] then 1 else 0) ∧
      (sources.map Source.name).Nodup ∧
      (∀ s ∈ sources, ∃ p ∈ paths, disk.Holds p s ∧
        ∃ content, disk p = .file content ∧ s.size = content.length) ∧
      (e.log.messages = [] → List.Forall₂ disk.Holds paths sources) := by
  refine ⟨disk.loadAll [] paths, disk.sources paths, disk.complaints paths, d.loaded disk paths,
    run_load d disk paths, d.messages_loaded disk paths, disk.length_loadAll [] paths,
    fun i p outcome at_i => (Disk.gives_iff at_i).symm, rfl, rfl, disk.length_complaints paths,
    disk.nodup_names [] paths, fun s hs => ?_, fun clean => ?_⟩
  · obtain ⟨p, hp, held⟩ := Disk.exists_holds_of_mem_sources hs
    exact ⟨p, hp, held, _, held.content, (Text.length_encode s.text).symm⟩
  · rw [Desk.messages_loaded, List.append_eq_nil_iff] at clean
    exact (Disk.complaints_eq_nil_iff.mp clean.2).forall₂_holds

/-- A file, a directory, a file that is no text, and nothing else. -/
def shelf : Disk := fun p =>
  if p = .ofString "a.asm" then .file (Text.encode "halt\n")
  else if p = .ofString "lib" then .directory
  else if p = .ofString "a.p16" then .file [0x50, 0xFF] else .absent

theorem load_accounts_shelf :
    let paths := ["b.asm", "a.asm", "lib", "b.asm", "a.p16", "a.asm"].map Path.ofString
    ∃ e, (load shelf paths).run (Desk.fresh none) = .ok [⟨"a.asm", "halt\n"⟩] e ∧
      e.log.messages = [
        "Error: Input file \x27b.asm\x27 could not be found",
        "Error: Input file \x27lib\x27 could not be read: Is a directory (os error 21)",
        "Error: Input file \x27b.asm\x27 included multiple times",
        "Error: Input file \x27a.p16\x27 could not be read: stream did not contain valid UTF-8",
        "Error: Input file \x27a.asm\x27 included multiple times"] := by
  intro paths
  obtain ⟨outcomes, sources, messages, e, run, log, count, gives, rfl, rfl, -⟩ :=
    load_accounts shelf paths (Desk.fresh none)
  have broken : shelf (.ofString "a.p16") = .file [0x50, 0xFF] := by decide +kernel
  have all : outcomes = [
      .error (.missingInput (Path.ofString "b.asm").shown),
      .ok ⟨"a.asm", "halt\n"⟩,
      .error (.unreadable (Path.ofString "lib").shown "Is a directory (os error 21)"),
      .error (.repeatedInput (Path.ofString "b.asm").shown),
      .error (.unreadable (Path.ofString "a.p16").shown "stream did not contain valid UTF-8"),
      .error (.repeatedInput (Path.ofString "a.asm").shown)] := by
    apply List.ext_getElem?
    intro i
    match i with
    | 0 => exact (gives 0 _ _ rfl).mpr (.missing (by decide +kernel) (by decide +kernel))
    | 1 =>
      exact (gives 1 _ _ rfl).mpr
        (.source (by decide +kernel) ⟨by decide +kernel, by decide +kernel⟩)
    | 2 => exact (gives 2 _ _ rfl).mpr (.refused (by decide +kernel) (by decide +kernel))
    | 3 => exact (gives 3 _ _ rfl).mpr (.repeated (by decide +kernel))
    | 4 =>
      exact (gives 4 _ _ rfl).mpr
        (.noText (by decide +kernel) broken (Text.decode?_eq_none_iff.mp (by decide +kernel)))
    | 5 => exact (gives 5 _ _ rfl).mpr (.repeated (by decide +kernel))
    | i + 6 => exact List.getElem?_eq_none (count.le.trans (Nat.le_add_left 6 i))
  rw [all] at run log
  refine ⟨e, run, log.trans ?_⟩
  decide +kernel

end Job

end AsmScan
