import Lucario.Proofs.ProgramImage

namespace Lucario.Proofs
open Odometer

def ConsumesNothing (host : Host) (u : Unspecified) (path : List Char) (s : System) : Prop :=
  (vfsLoadToDisk host u path s).1 ≠ .success →
    (vfsLoadToDisk host u path s).2.vfs = s.vfs ∧
      (vfsLoadToDisk host u path s).2.hw.disk = s.hw.disk

/-- The program has words and these fit on the disk, but its entry does not fit in the catalog. -/
def LacksEntry (host : Host) (u : Unspecified) (path : List Char) (v : Vfs) : Prop :=
  vfsFileExists path v = false ∧ maxProcesses ≤ v.diskCatalog.length ∧
    ∃ file, host path = some file ∧ 0 < (readHeader u file).1.wordCount ∧
      (readHeader u file).1.wordCount ≤ totalDiskSectors - usedSectors v

def Accounted (v : Vfs) : Prop :=
  usedSectors v = (v.diskCatalog.map (fun e => e.wordCount.toNat)).sum

/-- The states of disk and catalog that loads lead to which do not lack an entry. -/
inductive CarefulRun : Vfs → (Nat → Nat → Nat → Int) → Prop where
  | empty (disk : Nat → Nat → Nat → Int) : CarefulRun Vfs.empty disk
  | load {s : System} (host : Host) (u : Unspecified) (path : List Char)
      (hentry : ¬ LacksEntry host u path s.vfs) (h : CarefulRun s.vfs s.hw.disk) :
    CarefulRun (vfsLoadToDisk host u path s).2.vfs (vfsLoadToDisk host u path s).2.hw.disk

variable {host : Host} {u : Unspecified} {path : List Char} {s : System}
  {log : List (FileMeta × List Int)}

theorem lacks_entry_iff {file : List Char} (h : ¬ vfsFileExists path s.vfs)
    (hfile : host path = some file) :
    LacksEntry host u path s.vfs ↔ maxProcesses ≤ s.vfs.diskCatalog.length ∧
      0 < (readHeader u file).1.wordCount ∧
      (readHeader u file).1.wordCount ≤ totalDiskSectors - usedSectors s.vfs := by
  simp [LacksEntry, hfile, Bool.eq_false_iff.mpr h]

theorem load_consumes_nothing (h : Imaged s.vfs s.hw.disk log) :
    ConsumesNothing host u path s ↔ ¬ LacksEntry host u path s.vfs := by
  have cases := load_cases host u path s
  unfold ConsumesNothing
  generalize vfsLoadToDisk host u path s = r at cases
  cases cases with
  | known hknown => exact iff_of_true (fun hne => absurd rfl hne) (by simp [LacksEntry, hknown])
  | missing _ hfile => exact iff_of_true (fun _ => ⟨rfl, rfl⟩) (by simp [LacksEntry, hfile])
  | large hnew hfile hroom =>
    exact iff_of_true (fun _ => ⟨rfl, rfl⟩)
      (fun hlacks => hroom ((lacks_entry_iff hnew hfile).mp hlacks).2.2)
  | @unregistered hnew file hfile hroom hslots =>
    rw [lacks_entry_iff hnew hfile]
    by_cases hpos : 0 < (readHeader u file).1.wordCount
    · refine iff_of_false ?_ (not_not.mpr ⟨hslots, hpos, hroom⟩)
      intro hkept
      have hlin := with_words_position h hroom
      have hsame := (hkept nofun).1
      rw [hsame] at hlin
      omega
    · refine iff_of_true (fun _ => ?_) (fun hlacks => hpos hlacks.2.1)
      rw [withWords, Int.toNat_of_nonpos (not_lt.mp hpos)]
      exact ⟨rfl, rfl⟩
  | registered hnew hfile _ hslots =>
    exact iff_of_true (fun hne => absurd rfl hne)
      (fun hlacks => absurd ((lacks_entry_iff hnew hfile).mp hlacks).1 (not_le.mpr hslots))

/-- A load that does not lack an entry leaves every used sector accounted for. -/
theorem load_accounted (h : Imaged s.vfs s.hw.disk log) (ha : Accounted s.vfs)
    (hentry : ¬ LacksEntry host u path s.vfs) :
    Accounted (vfsLoadToDisk host u path s).2.vfs := by
  have cases := load_cases host u path s
  generalize vfsLoadToDisk host u path s = r at cases ⊢
  cases cases with
  | known => exact ha
  | missing => exact ha
  | large => exact ha
  | @unregistered hnew file hfile hroom hslots =>
    have hpos : ¬ 0 < (readHeader u file).1.wordCount :=
      fun hpos => hentry ((lacks_entry_iff hnew hfile).mpr ⟨hslots, hpos, hroom⟩)
    rw [withWords, Int.toNat_of_nonpos (not_lt.mp hpos)]
    exact ha
  | @registered _ file hfile hroom _ =>
    have hlin := with_words_position h hroom
    generalize withWords u file s = t at hlin
    unfold Accounted at ha ⊢
    rw [used_sectors_eq] at ha
    rw [used_sectors_eq, free_digits_catalog, hlin, List.map_append, List.sum_append, Nat.cast_add,
      Nat.cast_add, ha]
    simp [newEntry]

theorem CarefulRun.logged {v : Vfs} {disk : Nat → Nat → Nat → Int} (h : CarefulRun v disk) :
    ∃ log, LoadRun v disk log := by
  induction h with
  | empty disk => exact ⟨[], .empty disk⟩
  | load host u path _ _ ih =>
    obtain ⟨log, run⟩ := ih
    exact ⟨_, run.load host u path⟩

theorem CarefulRun.accounted {v : Vfs} {disk : Nat → Nat → Nat → Int} (h : CarefulRun v disk) :
    Accounted v := by
  induction h with
  | empty disk => rfl
  | load host u path hentry run ih =>
    obtain ⟨log, hlog⟩ := run.logged
    exact load_accounted hlog.imaged ih hentry

/-- After every sequence of loads a failed load consumes nothing exactly when it does not lack an
entry, and where no load of the sequence lacked one every used sector has its entry: the catalog is
asked only after the disk has been written. -/
theorem failed_load_consumes_nothing (h : LoadRun s.vfs s.hw.disk log) :
    (∀ (host : Host) (u : Unspecified) (path : List Char),
      ConsumesNothing host u path s ↔ ¬ LacksEntry host u path s.vfs) ∧
    (CarefulRun s.vfs s.hw.disk → Accounted s.vfs) :=
  ⟨fun _ _ _ => load_consumes_nothing h.imaged, fun h' => h'.accounted⟩

def oneWordHost : Host := fun _ => some "_start 1\n.N 1\n.P A\n06000000\n".toList

def loadedPaths : Nat → System
  | 0 => boot zeroKeys
  | n + 1 => (vfsLoadToDisk oneWordHost zeros (List.replicate (n + 1) 'x') (loadedPaths n)).2

theorem loaded_paths_run (n : Nat) :
    ∃ log, LoadRun (loadedPaths n).vfs (loadedPaths n).hw.disk log := by
  induction n with
  | zero => exact ⟨[], .empty _⟩
  | succ n ih =>
    obtain ⟨log, run⟩ := ih
    exact ⟨_, run.load oneWordHost zeros _⟩

theorem failed_load_consumes_nothing_first :
    ConsumesNothing (fun _ => none) zeros ['y'] (loadedPaths 1) ∧ Accounted (loadedPaths 1).vfs := by
  obtain ⟨log, run⟩ := loaded_paths_run 1
  obtain ⟨consumes, accounted⟩ := failed_load_consumes_nothing run
  refine ⟨(consumes _ zeros ['y']).mpr ?_, accounted ?_⟩
  · rintro ⟨-, -, file, hfile, -⟩
    cases hfile
  · refine .load (s := loadedPaths 0) oneWordHost zeros ['x'] ?_ (.empty _)
    rintro ⟨-, hfull, -⟩
    exact absurd hfull (by decide)

/-- With twenty entries in the catalog the next program uses up a sector and is not registered. -/
theorem not_failed_load_consumes_nothing :
    ¬ ∀ (host : Host) (u : Unspecified) (path : List Char) (s : System)
      (log : List (FileMeta × List Int)), LoadRun s.vfs s.hw.disk log →
      ConsumesNothing host u path s := by
  intro consumes
  obtain ⟨log, run⟩ := loaded_paths_run 20
  have kept := (consumes oneWordHost zeros ['y'] (loadedPaths 20) log run (by decide +kernel)).1
  have moved : (vfsLoadToDisk oneWordHost zeros ['y'] (loadedPaths 20)).2.vfs.freeSector ≠
      (loadedPaths 20).vfs.freeSector := by
    decide +kernel
  exact moved (congrArg Vfs.freeSector kept)

end Lucario.Proofs
