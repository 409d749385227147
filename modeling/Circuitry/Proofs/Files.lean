import Circuitry.Cli.Run
import Circuitry.Proofs.Fallible

/-!
# What a run does to files

A run of the command line reads the files of its invocation, and at the end it writes one file at
most.  On files in memory this means that what was produced from the files is read back from the
output, that all other files and all directories are as before, and that a run that fails changes
nothing (`Cli.run_changes_one_file`).

Writing a file makes no directory, because all the directories above a place are there if the last
of them is (`Cli.Files.isDirectory_of_above`).  So a name leads to the same place before and after
(`Cli.Files.Leads.of_directories`).
-/

namespace Circuitry.Cli

open Fallible

namespace Files

variable {files after : Files} {name content : String} {place directory : Place}

/-! ### Directories -/

/-- A place is below a directory, at any depth. -/
def Below (place directory : Place) : Prop :=
  place.base = directory.base ∧ directory.keys <+: place.keys ∧ directory ≠ place

theorem Below.trans {above : Place} (h : Below place directory)
    (hbase : above.base = directory.base) (hkeys : above.keys <+: directory.keys) :
    Below place above := by
  obtain ⟨hplace, hbelow, hne⟩ := h
  refine ⟨hplace.trans hbase.symm, hkeys.trans hbelow, ?_⟩
  -- If they were the same, so would be the directory between them.
  rintro rfl
  have hsame := hkeys.eq_of_length (Nat.le_antisymm hkeys.length_le hbelow.length_le)
  exact hne (Place.mk.injEq .. ▸ ⟨hbase.symm, hsame.symm⟩)

theorem isDirectory_iff : files.isDirectory directory = true ↔
    directory.keys = [] ∨
      (directory.base = .root ∧ ∃ key ∈ standardDirectories, directory.keys = [key]) ∨
      ∃ entry ∈ files.entries, Below entry.1 directory := by
  simp only [isDirectory, Below, Bool.or_eq_true, Bool.and_eq_true, List.isEmpty_iff, beq_iff_eq,
    List.any_eq_true, bne_iff_ne, List.isPrefixOf_iff_prefix, or_assoc, and_assoc]

theorem isDirectory_of_nil (h : place.keys = []) : files.isDirectory place = true :=
  isDirectory_iff.mpr (.inl h)

/-- **What is above a directory is a directory.** -/
theorem isDirectory_of_above {above : Place} (h : files.isDirectory directory = true)
    (hbase : above.base = directory.base) (hkeys : above.keys <+: directory.keys) :
    files.isDirectory above = true := by
  rw [isDirectory_iff] at h ⊢
  rcases h with hnil | ⟨hroot, key, hkey, hstandard⟩ | ⟨entry, hentry, hbelow⟩
  · exact .inl (List.prefix_nil.mp (hnil ▸ hkeys))
  · rw [hstandard] at hkeys
    rcases List.prefix_cons_iff.mp hkeys with hnil | ⟨rest, hrest, hnil⟩
    · exact .inl hnil
    · rw [List.prefix_nil.mp hnil] at hrest
      exact .inr (.inl ⟨hbase.trans hroot, key, hkey, hrest⟩)
  · exact .inr (.inr ⟨entry, hentry, hbelow.trans hbase hkeys⟩)

theorem isDirectory_parent (h : files.isDirectory directory = true) :
    files.isDirectory directory.parent = true := by
  unfold Place.parent
  split
  · exact isDirectory_of_nil rfl
  · exact isDirectory_of_nil rfl
  · exact isDirectory_of_above h rfl ( List.dropLast_prefix _)

theorem isDirectory_of_walk {steps : List String} (hplace : files.isDirectory place = true)
    (h : files.walk place steps = .ok directory) : files.isDirectory directory = true := by
  induction steps generalizing place with
  | nil => cases h; exact hplace
  | cons part rest ih =>
    obtain ⟨next, -, h⟩ := bind_eq_ok.mp h
    split at h
    · rename_i hnext
      exact ih hnext h
    · split at h <;> cases h

theorem walk_of_directories (hsame : ∀ p, after.isDirectory p = files.isDirectory p)
    {steps : List String} (h : files.walk place steps = .ok directory) :
    after.walk place steps = .ok directory := by
  induction steps generalizing place with
  | nil => exact h
  | cons part rest ih =>
    obtain ⟨next, hstep, h⟩ := bind_eq_ok.mp h
    refine bind_eq_ok.mpr ⟨next, hstep, ?_⟩
    rw [hsame]
    split at h
    · rename_i hnext
      rw [if_pos hnext]
      exact ih h
    · split at h <;> cases h

/-! ### Names -/

theorem locate_eq_ok {last : Option String} : files.locate name = .ok (directory, last) ↔
    name.utf8ByteSize ≤ FileName.maxLength ∧
      files.walk (FileName.start name) (FileName.steps name).dropLast = .ok directory ∧
      (FileName.steps name).getLast? = last := by
  unfold locate
  constructor
  · intro h
    obtain ⟨hlength, h⟩ := of_check h
    obtain ⟨found, hwalk, h⟩ := bind_eq_ok.mp h
    cases h
    exact ⟨Nat.not_lt.mp hlength, hwalk, rfl⟩
  · rintro ⟨hlength, hwalk, rfl⟩
    rw [if_neg (Nat.not_lt.mpr hlength)]
    exact bind_eq_ok.mpr ⟨directory, hwalk, rfl⟩

/-- A name leads to a place: all its steps but the last lead to directories. -/
def Leads (files : Files) (name : String) (place : Place) : Prop :=
  ∃ directory last, files.locate name = .ok (directory, some last) ∧
    directory.step last = .ok place

theorem Leads.of_directories (h : files.Leads name place)
    (hsame : ∀ p, after.isDirectory p = files.isDirectory p) : after.Leads name place := by
  obtain ⟨directory, last, hlocate, hstep⟩ := h
  obtain ⟨hlength, hwalk, hlast⟩ := locate_eq_ok.mp hlocate
  exact ⟨directory, last,
    locate_eq_ok.mpr ⟨hlength, walk_of_directories hsame hwalk, hlast⟩, hstep⟩

theorem Leads.exists_directory (h : files.Leads name place)
    (hplace : files.isDirectory place = false) : ∃ directory last,
      files.isDirectory directory = true ∧ place = ⟨directory.base, directory.keys ++ [last]⟩ := by
  obtain ⟨directory, last, hlocate, hstep⟩ := h
  have hstart : files.isDirectory (FileName.start name) = true := by
    unfold FileName.start
    split <;> exact isDirectory_of_nil rfl
  have hdirectory := isDirectory_of_walk hstart (locate_eq_ok.mp hlocate).2.1
  refine ⟨directory, last, hdirectory, ?_⟩
  unfold Place.step at hstep
  split at hstep
  · cases hstep
    exact absurd hdirectory (by simp [hplace])
  · split at hstep
    · cases hstep
      exact absurd (isDirectory_parent hdirectory) (by simp [hplace])
    · split at hstep
      · cases hstep
      · cases hstep
        rfl

/-! ### Writing -/

theorem content?_put (hnull : place ≠ .null) : (files.put place content).content? place
    = some content := by
  rw [content?, if_neg hnull, put, List.lookup_cons_self]

theorem lookup_filter_of_ne {other : Place} (h : other ≠ place) (entries : List (Place × String)) :
    (entries.filter fun entry => entry.1 != place).lookup other = entries.lookup other := by
  induction entries with
  | nil => rfl
  | cons entry rest ih =>
    obtain ⟨found, text⟩ := entry
    by_cases hfound : found = place
    · rw [List.filter_cons_of_neg (by simp [hfound]), ih, List.lookup_cons,
        beq_false_of_ne (hfound ▸ h)]
    · rw [List.filter_cons_of_pos (by simp [hfound]), List.lookup_cons, List.lookup_cons, ih]

theorem content?_put_of_ne {other : Place} (h : other ≠ place) :
    (files.put place content).content? other = files.content? other := by
  rw [content?, content?, put, List.lookup_cons, beq_false_of_ne h, lookup_filter_of_ne h]

theorem exists_below_put : (∃ entry ∈ (files.put place content).entries, Below entry.1 directory) ↔
    Below place directory ∨ ∃ entry ∈ files.entries, Below entry.1 directory := by
  simp only [put, List.mem_cons, List.mem_filter, bne_iff_ne]
  constructor
  · rintro ⟨entry, rfl | ⟨hentry, -⟩, h⟩
    · exact .inl h
    · exact .inr ⟨entry, hentry, h⟩
  · rintro (h | ⟨entry, hentry, h⟩)
    · exact ⟨(place, content), .inl rfl, h⟩
    · by_cases hplace : entry.1 = place
      · exact ⟨(place, content), .inl rfl, hplace ▸ h⟩
      · exact ⟨entry, .inr ⟨hentry, hplace⟩, h⟩

/-- **A new file makes no directory**, and one that is replaced leaves none behind. -/
theorem isDirectory_put (h : files.Leads name place) (hplace : files.isDirectory place = false)
    (p : Place) : (files.put place content).isDirectory p = files.isDirectory p := by
  obtain ⟨directory, last, hdirectory, rfl⟩ := h.exists_directory hplace
  -- What is above the file is its directory or above that.
  have habove (hbelow : Below ⟨directory.base, directory.keys ++ [last]⟩ p) :
      files.isDirectory p = true := by
    obtain ⟨hbase, hkeys, hne⟩ := hbelow
    rcases List.prefix_concat_iff.mp hkeys with hsame | hkeys
    · exact absurd (Place.mk.injEq .. ▸ ⟨hbase.symm, hsame⟩) hne
    · exact isDirectory_of_above hdirectory hbase.symm hkeys
  rw [Bool.eq_iff_iff, isDirectory_iff, exists_below_put]
  constructor
  · rintro (hnil | hstandard | hbelow | hentry)
    · exact isDirectory_of_nil hnil
    · exact isDirectory_iff.mpr (.inr (.inl hstandard))
    · exact habove hbelow
    · exact isDirectory_iff.mpr (.inr (.inr hentry))
  · intro hold
    rcases isDirectory_iff.mp hold with hnil | hstandard | hentry
    · exact .inl hnil
    · exact .inr (.inl hstandard)
    · exact .inr (.inr (.inr hentry))

theorem exists_of_write (h : files.write name content = .ok after) :
    ∃ place, files.Leads name place ∧ FileName.meansDirectory name = false ∧
      files.isDirectory place = false ∧
      after = if place = .null then files else files.put place content := by
  obtain ⟨⟨directory, last⟩, hlocate, h⟩ := bind_eq_ok.mp h
  cases last with
  | none => cases h
  | some last =>
    obtain ⟨hname, h⟩ := of_check h
    obtain ⟨place, hstep, h⟩ := bind_eq_ok.mp h
    obtain ⟨hdirectory, h⟩ := of_check h
    exact ⟨place, ⟨directory, last, hlocate, hstep⟩, Bool.eq_false_iff.mpr hname,
      Bool.eq_false_iff.mpr hdirectory, (pure_eq_ok.mp h).symm⟩

theorem read_of_leads (h : files.Leads name place) (hname : FileName.meansDirectory name = false)
    (hplace : files.isDirectory place = false) (hcontent : files.content? place = some content) :
    files.read name = .ok content := by
  obtain ⟨directory, last, hlocate, hstep⟩ := h
  refine bind_eq_ok.mpr ⟨_, hlocate, bind_eq_ok.mpr ⟨place, hstep, ?_⟩⟩
  simp only [hplace, hname, hcontent]
  rfl

/-- **A file that is written is read back, and nothing else changes**, unless it is the null device
and nothing changes at all. -/
theorem write_frame (h : files.write name content = .ok after) : after = files ∨
    ∃ place, files.Leads name place ∧ after.read name = .ok content ∧
      (∀ other, other ≠ place → after.content? other = files.content? other) ∧
      ∀ p, after.isDirectory p = files.isDirectory p := by
  obtain ⟨place, hleads, hname, hplace, rfl⟩ := exists_of_write h
  by_cases hnull : place = .null
  · exact .inl (if_pos hnull)
  · rw [if_neg hnull]
    have hsame (p : Place) : (files.put place content).isDirectory p = files.isDirectory p :=
      isDirectory_put hleads hplace p
    refine .inr ⟨place, hleads, ?_, fun other hne => content?_put_of_ne hne, hsame⟩
    exact read_of_leads (hleads.of_directories hsame) hname ((hsame place).trans hplace)
      (content?_put hnull)

end Files

/-! ### Runs -/

theorem Invocation.run_congr {invocation : Invocation} {read other : FileReader}
    (h : ∀ name ∈ invocation.sources, read name = other name) :
    invocation.run read = invocation.run other := by
  cases invocation with
  | translate program output =>
    have hprogram := h program List.mem_cons_self
    simp only [Invocation.run, readProgram, hprogram]
  | input program setup output =>
    have hprogram := h program List.mem_cons_self
    have hsetup := h setup (List.mem_cons_of_mem _ List.mem_cons_self)
    simp only [Invocation.run, readProgram, readJson, hprogram, hsetup]
  | info program =>
    have hprogram := h program List.mem_cons_self
    simp only [Invocation.run, readProgram, hprogram]

theorem lookup_map_self {β : Type} (f : String → β) {names : List String} {name : String}
    (h : name ∈ names) : (names.map fun name => (name, f name)).lookup name = some (f name) := by
  induction names with
  | nil => exact absurd h List.not_mem_nil
  | cons first rest ih =>
    rw [List.map_cons]
    by_cases hfirst : name = first
    · rw [hfirst, List.lookup_cons_self]
    · rw [List.lookup_cons, beq_false_of_ne hfirst]
      exact ih ((List.mem_cons.mp h).resolve_left hfirst)

theorem run_bind {σ α β : Type} (x : StateM σ α) (f : α → StateM σ β) (s : σ) :
    (x >>= f).run s = (f (x.run s).1).run (x.run s).2 := rfl

theorem readAll_system (files : Files) (names : List String) :
    (names.mapM fun name => return (name, ← Files.system.read name) :
      StateM Files (List (String × Except FileError String))).run files
      = (names.map fun name => (name, files.read name), files) := by
  induction names with
  | nil => rfl
  | cons name rest ih =>
    have hfirst : (do return (name, ← Files.system.read name) :
        StateM Files (String × Except FileError String)).run files
          = ((name, files.read name), files) := rfl
    rw [List.mapM_cons, run_bind, hfirst, run_bind, ih]
    rfl

theorem deliver_system {output : Output} {files after : Files} {outcome : Outcome}
    (h : (output.deliver Files.system).run files = (outcome, after)) : after = files ∨
      ∃ name, output.file = some name ∧ files.write name output.text = .ok after ∧
        outcome = ⟨0, writtenLine name output.text, ""⟩ := by
  unfold Output.deliver at h
  cases hfile : output.file with
  | none =>
    rw [hfile] at h
    cases h
    exact .inl rfl
  | some name =>
    rw [hfile] at h
    cases hwrite : files.write name output.text with
    | error e =>
      have hrun : (Files.system.write name output.text).run files = (.error e, files) := by
        simp only [Files.system, StateT.run_modifyGet, hwrite]
        rfl
      rw [run_bind, hrun] at h
      cases h
      exact .inl rfl
    | ok written =>
      have hrun : (Files.system.write name output.text).run files = (.ok (), written) := by
        simp only [Files.system, StateT.run_modifyGet, hwrite]
        rfl
      rw [run_bind, hrun] at h
      cases h
      exact .inr ⟨name, rfl, hwrite, rfl⟩

/-- **A run on files in memory** leaves them as they are, or it writes what the invocation produces
from them. -/
theorem perform_system {invocation : Invocation} {files after : Files} {outcome : Outcome}
    (h : (invocation.perform Files.system).run files = (outcome, after)) : after = files ∨
      ∃ text name, invocation.run files.read = .ok ⟨text, some name⟩ ∧
        files.write name text = .ok after ∧ outcome = ⟨0, writtenLine name text, ""⟩ := by
  have hread : invocation.run (fun name => (((invocation.sources.map fun name =>
      (name, files.read name)).lookup name).getD (.error .notFound)))
        = invocation.run files.read :=
    Invocation.run_congr fun name hm => by rw [lookup_map_self files.read hm, Option.getD_some]
  rw [Invocation.perform, run_bind, readAll_system] at h
  dsimp only at h
  rw [hread] at h
  cases hrun : invocation.run files.read with
  | error failure =>
    rw [hrun] at h
    cases h
    exact .inl rfl
  | ok output =>
    rw [hrun] at h
    obtain ⟨text, file⟩ := output
    rcases deliver_system h with hsame | ⟨name, hfile, hwrite, houtcome⟩
    · exact .inl hsame
    · cases hfile
      exact .inr ⟨text, name, rfl, hwrite, houtcome⟩

/-- **A run changes one file at most.**  If the files are not as before, then the run was successful
and said so, the output of its invocation is read back from the file that it names, and all other
files and all directories are as before. -/
theorem run_changes_one_file {arguments : List String} {files after : Files} {outcome : Outcome}
    (h : (run Files.system arguments).run files = (outcome, after)) : after = files ∨
      ∃ invocation text name place, parse {} arguments = .ok invocation ∧
        invocation.run files.read = .ok ⟨text, some name⟩ ∧
        outcome = ⟨0, writtenLine name text, ""⟩ ∧
        files.Leads name place ∧ after.read name = .ok text ∧
        (∀ other, other ≠ place → after.content? other = files.content? other) ∧
        ∀ p, after.isDirectory p = files.isDirectory p := by
  unfold run at h
  cases hparse : parse {} arguments with
  | error stop =>
    rw [hparse] at h
    cases h
    exact .inl rfl
  | ok invocation =>
    rw [hparse] at h
    rcases perform_system h with hsame | ⟨text, name, hrun, hwrite, houtcome⟩
    · exact .inl hsame
    · rcases Files.write_frame hwrite with hsame | ⟨place, hplace⟩
      · exact .inl hsame
      · exact .inr ⟨invocation, text, name, place, rfl, hrun, houtcome, hplace⟩

end Circuitry.Cli
