import AsmScan.Proofs.Jobs.Loading

/-!
Which inputs can be loaded, and what sources they give.
-/

namespace AsmScan

namespace Disk

variable {disk : Disk} {paths : List Path} {p : Path} {s : Source}

/-- There is an input, no two inputs are shown alike, and each one is a file of valid text. -/
structure Loads (disk : Disk) (inputs : List Path) : Prop where
  given : inputs ≠ []
  distinct : (inputs.map Path.shown).Nodup
  readable : ∀ p ∈ inputs, ∃ content text, disk p = .file content ∧
    Text.decode? content = some text

theorem load_eq_ok_iff : disk.load p = .ok s ↔
    ∃ content text, disk p = .file content ∧ Text.decode? content = some text ∧
      s = { name := p.shown, text } := by
  rw [load]
  cases disk p with
  | absent => simp
  | unreadable reason => simp
  | file content =>
    cases decoded : Text.decode? content with
    | none => simp [decoded]
    | some text => simp [decoded, eq_comm]

theorem loadAll_eq_map {seen : List String} (distinct : (paths.map Path.shown).Nodup)
    (unseen : ∀ p ∈ paths, p.shown ∉ seen) : disk.loadAll seen paths = paths.map disk.load := by
  induction paths generalizing seen with
  | nil => rfl
  | cons p rest ih =>
    obtain ⟨first, later⟩ := List.nodup_cons.mp distinct
    rw [loadAll, if_neg (unseen p List.mem_cons_self), ih later]
    · rfl
    · intro q hq repeated
      obtain same | before := List.mem_cons.mp repeated
      · exact first (same ▸ List.mem_map_of_mem hq)
      · exact unseen q (List.mem_cons_of_mem p hq) before

theorem distinct_of_no_complaint {seen : List String}
    (h : (disk.loadAll seen paths).filterMap complaint? = []) :
    (paths.map Path.shown).Nodup ∧ ∀ p ∈ paths, p.shown ∉ seen := by
  induction paths generalizing seen with
  | nil => exact ⟨List.nodup_nil, nofun⟩
  | cons p rest ih =>
    have silent := List.filterMap_eq_nil_iff.mp h
    have new : p.shown ∉ seen := by
      intro repeated
      have complaint := silent _ List.mem_cons_self
      simp [repeated, complaint?] at complaint
    obtain ⟨distinct, unseen⟩ := @ih (p.shown :: seen)
      (List.filterMap_eq_nil_iff.mpr fun o ho => silent o (List.mem_cons_of_mem _ ho))
    refine ⟨List.nodup_cons.mpr ⟨?_, distinct⟩, ?_⟩
    · intro repeated
      obtain ⟨q, hq, same⟩ := List.mem_map.mp repeated
      exact unseen q hq (same ▸ List.mem_cons_self)
    · intro q hq
      obtain rfl | hq := List.mem_cons.mp hq
      · exact new
      · exact fun before => unseen q hq (List.mem_cons_of_mem _ before)

theorem Loads.loadAll_eq (h : disk.Loads paths) :
    disk.loadAll [] paths = paths.map disk.load :=
  loadAll_eq_map h.distinct fun _ _ => List.not_mem_nil

theorem mem_filterMap_toOption {outcomes : List (Except Fault Source)} :
    s ∈ outcomes.filterMap Except.toOption ↔ .ok s ∈ outcomes := by
  rw [List.mem_filterMap]
  constructor
  · rintro ⟨outcome, produced, ok⟩
    cases outcome with
    | ok t => exact Option.some.inj ok ▸ produced
    | error fault => exact absurd ok (Option.some_ne_none s).symm
  · intro produced
    exact ⟨.ok s, produced, rfl⟩

theorem Loads.mem_sources_iff (h : disk.Loads paths) :
    s ∈ disk.sources paths ↔ ∃ p ∈ paths, disk.load p = .ok s := by
  rw [sources, h.loadAll_eq, mem_filterMap_toOption, List.mem_map]

theorem Loads.exists_load (h : disk.Loads paths) (hp : p ∈ paths) : ∃ s, disk.load p = .ok s := by
  obtain ⟨content, text, file, valid⟩ := h.readable p hp
  exact ⟨_, load_eq_ok_iff.mpr ⟨content, text, file, valid, rfl⟩⟩

theorem complaint?_eq_none_iff {outcome : Except Fault Source} :
    complaint? outcome = none ↔ ∃ s, outcome = .ok s := by
  cases outcome <;> simp [complaint?]

theorem complaints_eq_nil_iff : disk.complaints paths = [] ↔ disk.Loads paths := by
  rw [complaints, List.append_eq_nil_iff]
  constructor
  · rintro ⟨silent, nonempty⟩
    obtain ⟨distinct, unseen⟩ := distinct_of_no_complaint silent
    rw [loadAll_eq_map distinct unseen, List.filterMap_map, List.filterMap_eq_nil_iff] at silent
    refine ⟨?_, distinct, fun p hp => ?_⟩
    · rintro rfl
      exact absurd nonempty (List.cons_ne_nil _ _)
    · obtain ⟨s, loaded⟩ := complaint?_eq_none_iff.mp (silent p hp)
      obtain ⟨content, text, file, valid, -⟩ := load_eq_ok_iff.mp loaded
      exact ⟨content, text, file, valid⟩
  · intro h
    constructor
    · rw [h.loadAll_eq, List.filterMap_map, List.filterMap_eq_nil_iff]
      exact fun p hp => complaint?_eq_none_iff.mpr (h.exists_load hp)
    · obtain ⟨p, hp⟩ := List.exists_mem_of_ne_nil paths h.given
      obtain ⟨s, loaded⟩ := h.exists_load hp
      exact if_neg (List.ne_nil_of_mem (h.mem_sources_iff.mpr ⟨p, hp, loaded⟩))

end Disk

end AsmScan
