import AsmScan.Options
import Mathlib.Data.List.DropRight

/-!
File names in the bytes of a path, and the output file of a run. What stands behind the file name
is any mix of slashes and of single dots behind slashes; what stands before it ends in a slash.
-/

namespace AsmScan

theorem intercalate_append_cons {α : Type} (sep : α) (front back : List (List α)) (x : List α) :
    [sep].intercalate (front ++ x :: back) =
      front.flatMap (· ++ [sep]) ++ x ++ back.flatMap (sep :: ·) := by
  induction front with
  | nil =>
    induction back generalizing x with
    | nil => simp
    | cons y back ih =>
      have later : [sep].intercalate (y :: back) = y ++ back.flatMap (sep :: ·) := by
        simpa using ih y
      simp [later]
  | cons y front ih =>
    cases front <;> simp_all

theorem splitOn_append_flatMap {α : Type} [DecidableEq α] (sep : α) (front : List α)
    {parts : List (List α)} (h : ∀ part ∈ parts, sep ∉ part) :
    (front ++ parts.flatMap (sep :: ·)).splitOn sep = front.splitOn sep ++ parts := by
  induction parts generalizing front with
  | nil => simp
  | cons part parts ih =>
    have later := ih part fun part' mem => h part' (List.mem_cons_of_mem part mem)
    have first := List.splitOn_eq_singleton (h part List.mem_cons_self)
    rw [List.flatMap_cons, List.cons_append, List.splitOn_append_cons_self, later, first,
      List.singleton_append]

theorem notMem_of_mem_splitOn {α : Type} [DecidableEq α] {sep : α} {xs part : List α}
    (h : part ∈ xs.splitOn sep) : sep ∉ part := by
  induction xs generalizing part with
  | nil => simp_all
  | cons x xs ih =>
    rw [List.splitOn_cons_eq_if_modifyHead] at h
    split at h
    · obtain rfl | later := List.mem_cons.mp h
      · exact List.not_mem_nil
      · exact ih later
    · next other =>
      obtain ⟨first, parts, split⟩ := List.exists_cons_of_ne_nil (List.splitOn_ne_nil sep xs)
      rw [split] at h ih
      obtain rfl | later := List.mem_cons.mp h
      · simpa [ih List.mem_cons_self] using fun eq => other (by simp [eq])
      · exact ih (List.mem_cons_of_mem first later)

theorem exists_last_of_mem {α : Type} {x : α} {xs : List α} (h : x ∈ xs) :
    ∃ front back, xs = front ++ x :: back ∧ x ∉ back := by
  obtain ⟨back, front, split, first⟩ := List.eq_append_cons_of_mem (List.mem_reverse.mpr h)
  refine ⟨front.reverse, back.reverse, ?_, by simpa using first⟩
  simpa using congrArg List.reverse split

namespace Path

/-- Slashes and single dots, each dot behind a slash: they do not change where a path leads. -/
inductive IdleTail : Text.Bytes → Prop where
  | nil : IdleTail []
  | slash {tail : Text.Bytes} (h : IdleTail tail) : IdleTail (slash :: tail)
  | dot {tail : Text.Bytes} (h : IdleTail tail) : IdleTail (slash :: dot :: tail)

/-- The path is a directory part, which is empty or ends in a slash, then a last component that
    leads somewhere, then slashes and single dots. -/
structure EndsIn (p : Path) (directory name tail : Text.Bytes) : Prop where
  bytes_eq : p.bytes = directory ++ name ++ tail
  directory_eq : directory = [] ∨ directory.getLast? = some slash
  slash_notMem : slash ∉ name
  leads : name ≠ [] ∧ name ≠ [dot]
  idle : IdleTail tail

/-- No component leads anywhere, which is when the path would be idle behind a slash, or the last
    one that does leads to a parent directory. -/
def Nameless (p : Path) : Prop :=
  IdleTail (slash :: p.bytes) ∨ ∃ directory tail, p.EndsIn directory [dot, dot] tail

/-- The name has a dot that is not its first byte, and `extension` is what follows the last one. -/
def HasExtension (name extension : Text.Bytes) : Prop :=
  ∃ stem, stem ≠ [] ∧ dot ∉ extension ∧ name = stem ++ dot :: extension

theorem isIdle_iff {part : Text.Bytes} : isIdle part = true ↔ part = [] ∨ part = [dot] := by
  simp [isIdle]

theorem isIdle_eq_false_iff {part : Text.Bytes} :
    isIdle part = false ↔ part ≠ [] ∧ part ≠ [dot] := by
  simp [isIdle]

theorem slash_notMem_of_isIdle {part : Text.Bytes} (h : isIdle part = true) : slash ∉ part := by
  obtain rfl | rfl := isIdle_iff.mp h <;> decide

theorem idleTail_iff {tail : Text.Bytes} :
    IdleTail tail ↔ ∃ parts : List Text.Bytes, (∀ part ∈ parts, isIdle part = true) ∧
      tail = parts.flatMap (Path.slash :: ·) := by
  constructor
  · intro h
    induction h with
    | nil => exact ⟨[], by simp, rfl⟩
    | slash _ ih =>
      obtain ⟨parts, idle, rfl⟩ := ih
      exact ⟨[] :: parts, List.forall_mem_cons.mpr ⟨rfl, idle⟩, rfl⟩
    | dot _ ih =>
      obtain ⟨parts, idle, rfl⟩ := ih
      exact ⟨[Path.dot] :: parts, List.forall_mem_cons.mpr ⟨rfl, idle⟩, rfl⟩
  · rintro ⟨parts, idle, rfl⟩
    induction parts with
    | nil => exact .nil
    | cons part parts ih =>
      have later := ih fun part' mem => idle part' (List.mem_cons_of_mem part mem)
      obtain rfl | rfl := isIdle_iff.mp (idle part List.mem_cons_self)
      · exact .slash later
      · exact .dot later

theorem bytes_eq_intercalate (p : Path) : p.bytes = [slash].intercalate p.components :=
  (List.intercalate_splitOn slash).symm

theorem directory_flatMap (front : List Text.Bytes) :
    front.flatMap (· ++ [slash]) = [] ∨ (front.flatMap (· ++ [slash])).getLast? = some slash := by
  obtain rfl | ⟨front, part, rfl⟩ := List.eq_nil_or_concat' front
  · exact .inl rfl
  · exact .inr (by simp)

theorem exists_splitOn_directory {directory : Text.Bytes}
    (h : directory = [] ∨ directory.getLast? = some slash) (rest : Text.Bytes) :
    ∃ front, directory = front.flatMap (· ++ [slash]) ∧
      (directory ++ rest).splitOn slash = front ++ rest.splitOn slash := by
  obtain rfl | ends := h
  · exact ⟨[], rfl, rfl⟩
  · obtain ⟨outer, rfl⟩ := List.getLast?_eq_some_iff.mp ends
    refine ⟨outer.splitOn slash, ?_, ?_⟩
    · have split := List.splitOn_append_cons_self (a := slash) outer []
      rw [← @List.intercalate_splitOn _ (outer ++ [slash]) _ _ slash, split, List.splitOn_nil,
        intercalate_append_cons]
      simp
    · rw [List.append_assoc, List.singleton_append, List.splitOn_append_cons_self]

theorem trunk_of_components {p : Path} {front back : List Text.Bytes} {name : Text.Bytes}
    (h : p.components = front ++ name :: back) (leads : isIdle name = false)
    (idle : ∀ part ∈ back, isIdle part = true) : p.trunk = front ++ [name] := by
  have dropped : (back.reverse ++ name :: front.reverse).dropWhile isIdle =
      name :: front.reverse := by
    rw [List.dropWhile_append_of_pos fun part mem => idle part (List.mem_reverse.mp mem),
      List.dropWhile_cons_of_neg (by simp [leads])]
  rw [trunk, h, List.reverse_append, List.reverse_cons, List.append_assoc, List.singleton_append,
    dropped, List.reverse_cons, List.reverse_reverse]

theorem exists_components_of_trunk {p : Path} {front : List Text.Bytes} {name : Text.Bytes}
    (h : p.trunk = front ++ [name]) :
    ∃ back, p.components = front ++ name :: back ∧ isIdle name = false ∧
      ∀ part ∈ back, isIdle part = true := by
  have trunk : p.components.rdropWhile isIdle = front ++ [name] := h
  refine ⟨p.components.rtakeWhile isIdle, ?_, ?_, fun part => List.mem_rtakeWhile_imp⟩
  · have parts := @List.rdropWhile_append_rtakeWhile _ isIdle p.components
    rw [trunk] at parts
    simpa using parts.symm
  · have last := List.rdropWhile_last_not isIdle p.components (by simp [trunk])
    simpa [trunk] using last

theorem EndsIn.trunk_eq {p : Path} {directory name tail : Text.Bytes}
    (h : p.EndsIn directory name tail) :
    ∃ front, p.trunk = front ++ [name] ∧ directory = front.flatMap (· ++ [slash]) := by
  obtain ⟨parts, idle, rfl⟩ := idleTail_iff.mp h.idle
  obtain ⟨front, directory_eq, split⟩ :=
    exists_splitOn_directory h.directory_eq (name ++ parts.flatMap (slash :: ·))
  have later := splitOn_append_flatMap slash name
    fun part mem => slash_notMem_of_isIdle (idle part mem)
  have components : p.components = front ++ name :: parts := by
    rw [Path.components, h.bytes_eq, List.append_assoc, split, later,
      List.splitOn_eq_singleton h.slash_notMem, List.singleton_append]
  exact ⟨front, trunk_of_components components (isIdle_eq_false_iff.mpr h.leads) idle,
    directory_eq⟩

theorem exists_endsIn_of_trunk {p : Path} {front : List Text.Bytes} {name : Text.Bytes}
    (h : p.trunk = front ++ [name]) :
    ∃ tail, p.EndsIn (front.flatMap (· ++ [slash])) name tail := by
  obtain ⟨back, components, leads, idle⟩ := exists_components_of_trunk h
  have mem : name ∈ p.bytes.splitOn slash := by
    rw [← Path.components, components]
    simp
  refine ⟨back.flatMap (slash :: ·), ?_, directory_flatMap front, notMem_of_mem_splitOn mem,
    isIdle_eq_false_iff.mp leads, idleTail_iff.mpr ⟨back, idle, rfl⟩⟩
  rw [bytes_eq_intercalate, components, intercalate_append_cons]

theorem getLast?_trunk_eq_some_iff {p : Path} {name : Text.Bytes} :
    p.trunk.getLast? = some name ↔ ∃ directory tail, p.EndsIn directory name tail := by
  rw [List.getLast?_eq_some_iff]
  constructor
  · rintro ⟨front, h⟩
    obtain ⟨tail, ends⟩ := exists_endsIn_of_trunk h
    exact ⟨_, tail, ends⟩
  · rintro ⟨directory, tail, h⟩
    obtain ⟨front, trunk, -⟩ := h.trunk_eq
    exact ⟨front, trunk⟩

theorem EndsIn.unique {p : Path} {directory directory' name name' tail tail' : Text.Bytes}
    (h : p.EndsIn directory name tail) (h' : p.EndsIn directory' name' tail') :
    directory = directory' ∧ name = name' ∧ tail = tail' := by
  obtain ⟨front, trunk, rfl⟩ := h.trunk_eq
  obtain ⟨front', trunk', rfl⟩ := h'.trunk_eq
  obtain ⟨rfl, last⟩ := List.append_inj' (trunk.symm.trans trunk') rfl
  obtain rfl : name = name' := List.singleton_injective last
  exact ⟨rfl, rfl, List.append_cancel_left (h.bytes_eq.symm.trans h'.bytes_eq)⟩

theorem trunk_eq_nil_iff {p : Path} : p.trunk = [] ↔ IdleTail (slash :: p.bytes) := by
  have all : p.trunk = [] ↔ ∀ part ∈ p.components, isIdle part = true :=
    List.rdropWhile_eq_nil_iff
  rw [all, idleTail_iff]
  constructor
  · intro idle
    obtain ⟨first, parts, components⟩ :=
      List.exists_cons_of_ne_nil (List.splitOn_ne_nil slash p.bytes)
    refine ⟨p.components, idle, ?_⟩
    rw [bytes_eq_intercalate, Path.components, components, ← List.nil_append (first :: parts),
      intercalate_append_cons]
    rfl
  · rintro ⟨parts, idle, bytes⟩
    have split := splitOn_append_flatMap slash []
      fun part mem => slash_notMem_of_isIdle (idle part mem)
    have front := List.splitOn_append_cons_self (a := slash) [] p.bytes
    rw [List.nil_append, bytes, ← List.nil_append (parts.flatMap _), split] at front
    rwa [Path.components, ← List.append_cancel_left front]

theorem fileName?_eq_some_iff {p : Path} {name : Text.Bytes} :
    p.fileName? = some name ↔
      name ≠ [dot, dot] ∧ ∃ directory tail, p.EndsIn directory name tail := by
  rw [fileName?, Option.filter_eq_some_iff, getLast?_trunk_eq_some_iff, bne_iff_ne, and_comm]

theorem EndsIn.fileName?_eq {p : Path} {directory name tail : Text.Bytes}
    (h : p.EndsIn directory name tail) (named : name ≠ [dot, dot]) : p.fileName? = some name :=
  fileName?_eq_some_iff.mpr ⟨named, directory, tail, h⟩

theorem fileName?_eq_none_iff {p : Path} : p.fileName? = none ↔ p.Nameless := by
  rw [fileName?, Option.filter_eq_none_iff, Nameless, ← trunk_eq_nil_iff,
    ← getLast?_trunk_eq_some_iff, ← List.getLast?_eq_none_iff]
  cases p.trunk.getLast? <;> simp

theorem nameless_iff {p : Path} :
    p.Nameless ↔
      ¬∃ directory name tail, p.EndsIn directory name tail ∧ name ≠ [dot, dot] := by
  rw [← fileName?_eq_none_iff, Option.eq_none_iff_forall_ne_some]
  constructor
  · rintro nameless ⟨directory, name, tail, ends, named⟩
    exact nameless name (ends.fileName?_eq named)
  · intro nameless name h
    obtain ⟨named, directory, tail, ends⟩ := fileName?_eq_some_iff.mp h
    exact nameless ⟨directory, name, tail, ends, named⟩

theorem extensionOf?_of_dot_notMem {name : Text.Bytes} (h : dot ∉ name) :
    extensionOf? name = none := by
  rw [extensionOf?, List.splitOn_eq_singleton h]

theorem extensionOf?_append {stem extension : Text.Bytes} (h : dot ∉ extension) :
    extensionOf? (stem ++ dot :: extension) = if stem = [] then none else some extension := by
  have split : (stem ++ dot :: extension).splitOn dot = stem.splitOn dot ++ [extension] := by
    rw [List.splitOn_append_cons_self, List.splitOn_eq_singleton h]
  rw [extensionOf?, split]
  split_ifs with empty
  · subst empty
    rw [List.splitOn_nil]
    rfl
  · have back := @List.intercalate_splitOn _ stem _ _ dot
    obtain ⟨first, parts, front⟩ := List.exists_cons_of_ne_nil (List.splitOn_ne_nil dot stem)
    rw [front] at back ⊢
    cases parts with
    | nil =>
      cases first with
      | nil => exact absurd back.symm empty
      | cons b bytes => rfl
    | cons second parts =>
      cases first <;> cases parts <;> exact @List.getLast?_concat _ (_ :: second :: _) extension

theorem extensionOf?_eq_some_iff {name extension : Text.Bytes} :
    extensionOf? name = some extension ↔ HasExtension name extension := by
  constructor
  · intro h
    by_cases hdot : dot ∈ name
    · obtain ⟨stem, last, rfl, notMem⟩ := exists_last_of_mem hdot
      rw [extensionOf?_append notMem] at h
      split_ifs at h with empty
      cases h
      exact ⟨stem, empty, notMem, rfl⟩
    · rw [extensionOf?_of_dot_notMem hdot] at h
      cases h
  · rintro ⟨stem, nonempty, notMem, rfl⟩
    rw [extensionOf?_append notMem, if_neg nonempty]

theorem extension?_eq_some_iff {p : Path} {extension : Text.Bytes} :
    p.extension? = some extension ↔
      ∃ directory name tail, p.EndsIn directory name tail ∧ name ≠ [dot, dot] ∧
        HasExtension name extension := by
  simp only [extension?, Option.bind_eq_some_iff, fileName?_eq_some_iff, extensionOf?_eq_some_iff]
  constructor
  · rintro ⟨name, ⟨named, directory, tail, ends⟩, has⟩
    exact ⟨directory, name, tail, ends, named, has⟩
  · rintro ⟨directory, name, tail, ends, named, has⟩
    exact ⟨name, ⟨named, directory, tail, ends⟩, has⟩

theorem withDefaultExtension_of_nameless {p : Path} (h : p.Nameless) (extension : Text.Bytes) :
    p.withDefaultExtension extension = p := by
  rw [withDefaultExtension, fileName?_eq_none_iff.mpr h]
  rfl

theorem withDefaultExtension_of_extension? {p : Path} (h : p.extension?.isSome = true)
    (extension : Text.Bytes) : p.withDefaultExtension extension = p := by
  rw [withDefaultExtension, h, Bool.or_true, if_pos rfl]

theorem EndsIn.withDefaultExtension_eq {p : Path} {directory name tail : Text.Bytes}
    (h : p.EndsIn directory name tail) (named : name ≠ [dot, dot])
    (without : ∀ e, ¬HasExtension name e) (extension : Text.Bytes) :
    p.withDefaultExtension extension = ⟨directory ++ name ++ dot :: extension⟩ := by
  obtain ⟨front, trunk, rfl⟩ := h.trunk_eq
  have bare : p.extension? = none := by
    rw [extension?, h.fileName?_eq named, Option.bind_some, Option.eq_none_iff_forall_ne_some]
    exact fun e he => without e (extensionOf?_eq_some_iff.mp he)
  rw [withDefaultExtension, h.fileName?_eq named, bare, if_neg (by simp), ofComponents, trunk,
    intercalate_append_cons, List.flatMap_nil, List.append_nil]

theorem EndsIn.append_extension {p : Path} {directory name tail extension : Text.Bytes}
    (h : p.EndsIn directory name tail) (hs : slash ∉ extension) (hd : dot ∉ extension) :
    EndsIn ⟨directory ++ name ++ dot :: extension⟩ directory (name ++ dot :: extension) [] ∧
      name ++ dot :: extension ≠ [dot, dot] ∧
      HasExtension (name ++ dot :: extension) extension := by
  have notMem : slash ∉ name ++ dot :: extension := by
    simpa [h.slash_notMem, hs] using (by decide : slash ≠ dot)
  obtain ⟨b, bytes, rfl⟩ := List.exists_cons_of_ne_nil h.leads.1
  refine ⟨⟨by simp, h.directory_eq, notMem, by simp, .nil⟩, ?_, b :: bytes, h.leads.1, hd, rfl⟩
  intro parent
  obtain ⟨rfl, rfl, -⟩ : b = dot ∧ bytes = [] ∧ extension = [] := by
    simpa [List.append_eq_cons_iff] using parent
  exact h.leads.2 rfl

theorem extension?_withDefaultExtension {p : Path} (h : ¬p.Nameless) {extension : Text.Bytes}
    (hs : slash ∉ extension) (hd : dot ∉ extension) :
    (p.withDefaultExtension extension).extension?.isSome = true := by
  by_cases own : p.extension?.isSome = true
  · rwa [withDefaultExtension_of_extension? own]
  · obtain ⟨directory, name, tail, ends, named⟩ := not_not.mp (mt nameless_iff.mpr h)
    have bare : ∀ e, ¬HasExtension name e := fun e has =>
      own (Option.isSome_of_eq_some
        (extension?_eq_some_iff.mpr ⟨directory, name, tail, ends, named, has⟩))
    obtain ⟨ends', named', has⟩ := ends.append_extension hs hd
    rw [ends.withDefaultExtension_eq named bare,
      extension?_eq_some_iff.mpr ⟨directory, _, [], ends', named', has⟩]
    rfl

theorem withDefaultExtension_idem (p : Path) {extension : Text.Bytes}
    (hs : slash ∉ extension) (hd : dot ∉ extension) :
    (p.withDefaultExtension extension).withDefaultExtension extension =
      p.withDefaultExtension extension := by
  by_cases h : p.Nameless
  · rw [withDefaultExtension_of_nameless h, withDefaultExtension_of_nameless h]
  · exact withDefaultExtension_of_extension? (extension?_withDefaultExtension h hs hd) extension

end Path

namespace Options

theorem output_withOutput (o : Options) (p : Path) :
    (o.withOutput p).output = p.withDefaultExtension (Text.encode "p16") := rfl

theorem slash_notMem_p16 : Path.slash ∉ Text.encode "p16" := by decide

theorem dot_notMem_p16 : Path.dot ∉ Text.encode "p16" := by decide

theorem output_withOutput_of_endsIn (o : Options) {p : Path} {directory name tail : Text.Bytes}
    (h : p.EndsIn directory name tail) (named : name ≠ [Path.dot, Path.dot]) :
    ((∃ e, Path.HasExtension name e) → (o.withOutput p).output = p) ∧
      ((∀ e, ¬Path.HasExtension name e) →
        (o.withOutput p).output.bytes = directory ++ name ++ Text.encode ".p16") := by
  constructor
  · rintro ⟨e, has⟩
    have own : p.extension? = some e :=
      Path.extension?_eq_some_iff.mpr ⟨directory, name, tail, h, named, has⟩
    exact Path.withDefaultExtension_of_extension? (Option.isSome_of_eq_some own) _
  · intro bare
    rw [output_withOutput, h.withDefaultExtension_eq named bare]
    rfl

end Options

/-- The output file is the given path if that has an extension or no file name. Otherwise it is
    the path up to the end of its file name, with `.p16` after it. -/
theorem output_naming (o : Options) (p : Path) :
    (p.Nameless ↔ ¬∃ directory name tail,
      p.EndsIn directory name tail ∧ name ≠ [Path.dot, Path.dot]) ∧
    (p.Nameless → (o.withOutput p).output = p) ∧
    (∀ directory name tail, p.EndsIn directory name tail → name ≠ [Path.dot, Path.dot] →
      (∀ d n t, p.EndsIn d n t → directory = d ∧ name = n ∧ tail = t) ∧
      ((∃ e, Path.HasExtension name e) → (o.withOutput p).output = p) ∧
      ((∀ e, ¬Path.HasExtension name e) →
        (o.withOutput p).output.bytes = directory ++ name ++ Text.encode ".p16") ∧
      ∃ name' tail' e, (o.withOutput p).output.EndsIn directory name' tail' ∧
        name' ≠ [Path.dot, Path.dot] ∧ Path.HasExtension name' e) ∧
    (∀ o' : Options, (o'.withOutput p).output = (o.withOutput p).output ∧
      (o'.withOutput (o.withOutput p).output).output = (o.withOutput p).output) ∧
    (o.withOutput p).verbose = o.verbose := by
  refine ⟨Path.nameless_iff, fun h => Path.withDefaultExtension_of_nameless h _, ?_,
    fun o' => ⟨rfl, ?_⟩, rfl⟩
  · intro directory name tail ends named
    obtain ⟨kept, added⟩ := o.output_withOutput_of_endsIn ends named
    refine ⟨fun d n t => ends.unique, kept, added, ?_⟩
    by_cases own : ∃ e, Path.HasExtension name e
    · obtain ⟨e, has⟩ := own
      rw [kept ⟨e, has⟩]
      exact ⟨name, tail, e, ends, named, has⟩
    · obtain ⟨ends', named', has⟩ :=
        ends.append_extension Options.slash_notMem_p16 Options.dot_notMem_p16
      rw [Options.output_withOutput, ends.withDefaultExtension_eq named (not_exists.mp own)]
      exact ⟨_, [], _, ends', named', has⟩
  · exact Path.withDefaultExtension_idem p Options.slash_notMem_p16 Options.dot_notMem_p16

example : (Options.withOutput {} (.ofString "a./")).output = .ofString "a./" := by decide +kernel

/-- A hidden file behind two parents, with slashes and single dots after it. -/
def hidden : Path := .ofString "../build//..//.rc/.//."

theorem output_naming_hidden :
    hidden.EndsIn (Text.encode "../build//..//") (Text.encode ".rc") (Text.encode "/.//.") ∧
      (∀ e, ¬Path.HasExtension (Text.encode ".rc") e) ∧
      (Options.withOutput {} hidden).output = .ofString "../build//..//.rc.p16" ∧
      Path.Nameless (.ofString ".//./") ∧
      (Options.withOutput {} (.ofString ".//./")).output = .ofString ".//./" := by
  have ends : hidden.EndsIn (Text.encode "../build//..//") (Text.encode ".rc")
      (Text.encode "/.//.") :=
    ⟨by decide +kernel, .inr (by decide +kernel), by decide +kernel, by decide +kernel,
      .dot (.slash (.dot .nil))⟩
  have bare : ∀ e, ¬Path.HasExtension (Text.encode ".rc") e := by
    intro e has
    have found := Path.extensionOf?_eq_some_iff.mpr has
    have missing : Path.extensionOf? (Text.encode ".rc") = none := by decide +kernel
    exact absurd (missing.symm.trans found) (by simp)
  have nowhere : Path.Nameless (.ofString ".//./") := .inl (.dot (.slash (.dot (.slash .nil))))
  obtain ⟨-, -, named, -⟩ := output_naming {} hidden
  obtain ⟨-, kept, -⟩ := output_naming {} (.ofString ".//./")
  obtain ⟨-, -, added, -⟩ := named _ _ _ ends (by decide +kernel)
  have bytes : (Text.encode "../build//..//" ++ Text.encode ".rc" ++ Text.encode ".p16") =
      Text.encode "../build//..//.rc.p16" := by decide +kernel
  exact ⟨ends, bare, congrArg Path.mk ((added bare).trans bytes), nowhere, kept nowhere⟩

end AsmScan
