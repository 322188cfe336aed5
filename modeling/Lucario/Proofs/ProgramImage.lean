import Lucario.Lib.Odometer
import Lucario.Proofs.KernelFrame
import Lucario.Proofs.Sessions

namespace Lucario.Proofs
open Odometer

def linear (d : Digits) : Nat := d.high * 1000 + d.mid * 100 + d.low

abbrev Normal (d : Digits) : Prop := d.Valid 10 100

abbrev carry : Digits → Digits := advance 10 100

def freeDigits (v : Vfs) : Digits := ⟨v.freeTrack, v.freeCylinder, v.freeSector⟩

def startDigits (e : FileMeta) : Digits := ⟨e.startTrack, e.startCylinder, e.startSector⟩

def cursorDigits (c : SectorCursor) : Digits := ⟨c.track, c.cylinder, c.sector⟩

def wordOn (disk : Nat → Nat → Nat → Int) (d : Digits) : Int := disk d.high d.mid d.low

theorem linear_eq_position (d : Digits) : linear d = position 10 100 d := by
  simp only [linear, position]
  ring

theorem linear_carry {d : Digits} (h : Normal d) : linear (carry d) = linear d + 1 := by
  rw [linear_eq_position, linear_eq_position, position_advance h]

theorem carry_normal {d : Digits} (h : Normal d) (n : Nat) : Normal (carry^[n] d) :=
  iterate_valid h n

theorem linear_iterate {d : Digits} (h : Normal d) (n : Nat) :
    linear (carry^[n] d) = linear d + n := by
  rw [linear_eq_position, linear_eq_position, position_iterate h]

theorem linear_injective {d e : Digits} (hd : Normal d) (he : Normal e)
    (h : linear d = linear e) : d = e := by
  rw [linear_eq_position, linear_eq_position] at h
  exact position_injective hd he h

/-- Normal coordinates below the capacity name a sector. -/
theorem sector_of_linear {d : Digits} (h : Normal d) (hl : linear d < 10000) :
    isSector d.high d.mid d.low := by
  rw [linear_eq_position] at hl
  exact ⟨high_lt_of_position (by simpa using hl), h.1, h.2⟩

theorem track_of_linear {d : Digits} (hl : linear d ≤ 10000) : d.high ≤ 10 := by
  simp only [linear] at hl
  omega

/-- No coordinate on the disk wraps in a `uint8_t`. -/
theorem byte_carry {d : Digits} (h : Normal d) (hl : linear d ≤ 10000) :
    advanceMod 10 100 256 d = carry d := by
  have ht := track_of_linear hl
  exact advance_mod_eq h (by omega) (by omega) (by omega)

theorem advance_free_digits {v : Vfs} (h : Normal (freeDigits v))
    (hl : linear (freeDigits v) ≤ 10000) :
    freeDigits (advanceFree v) = carry (freeDigits v) := by
  have written : freeDigits (advanceFree v) = advanceMod 10 100 256 (freeDigits v) := by
    rw [advanceFree, apply_ite freeDigits, apply_ite freeDigits]
    rfl
  rw [written, byte_carry h hl]

theorem advance_cursor_digits {c : SectorCursor} (h : Normal (cursorDigits c))
    (hl : linear (cursorDigits c) ≤ 10000) :
    cursorDigits c.advance = carry (cursorDigits c) := by
  have read : cursorDigits c.advance = advanceMod 10 100 256 (cursorDigits c) := by
    rw [SectorCursor.advance, apply_ite cursorDigits, apply_ite cursorDigits]
    rfl
  rw [read, byte_carry h hl]

theorem advance_free_catalog (v : Vfs) : (advanceFree v).diskCatalog = v.diskCatalog := by
  unfold advanceFree
  dsimp only
  split_ifs <;> rfl

/-- A cursor that carries on the disk as the coordinates do goes on doing so for as many words as
there is room behind it. -/
theorem cursor_follows {α : Type*} (digits : α → Digits) (step : α → α)
    (follows : ∀ {a}, Normal (digits a) → linear (digits a) ≤ 10000 →
      digits (step a) = carry (digits a))
    (a : α) (h : Normal (digits a)) {n k : Nat} (hl : linear (digits a) + n ≤ 10000)
    (hk : k ≤ n) : digits (step^[k] a) = carry^[k] (digits a) := by
  refine iterate_follows 10000 ?_ h ?_
  · intro b hb hcap
    rw [← linear_eq_position] at hcap
    exact follows hb hcap
  · rw [← linear_eq_position]
    omega

/-- Such a cursor is on the disk for all of these words. -/
theorem cursor_in_bounds {α : Type*} (digits : α → Digits) (step : α → α)
    (follows : ∀ {a}, Normal (digits a) → linear (digits a) ≤ 10000 →
      digits (step a) = carry (digits a))
    (a : α) (h : Normal (digits a)) {n k : Nat} (hl : linear (digits a) + n ≤ 10000)
    (hk : k < n) :
    isSector (digits (step^[k] a)).high (digits (step^[k] a)).mid (digits (step^[k] a)).low := by
  have hlinear := linear_iterate h k
  rw [cursor_follows digits step follows a h hl hk.le]
  exact sector_of_linear (carry_normal h k) (by omega)

/-- The words `readProgramWord` delivers, one after the other. -/
def delivered : Nat → List Char → List Int
  | 0, _ => []
  | count + 1, file => (readProgramWord file).1 :: delivered count (readProgramWord file).2

@[simp] theorem delivered_length (count : Nat) (file : List Char) :
    (delivered count file).length = count := by
  induction count generalizing file with
  | zero => rfl
  | succ count ih => rw [delivered, List.length_cons, ih]

/-- Writing at the free position touches that sector alone. -/
theorem write_free_at {s : System} (data : Int) (h : Normal (freeDigits s.vfs))
    (hl : linear (freeDigits s.vfs) < 10000) {d : Digits} (hd : Normal d) :
    wordOn (writeFree data s).hw.disk d =
      if linear d = linear (freeDigits s.vfs) then data else wordOn s.hw.disk d := by
  have hs : isSector s.vfs.freeTrack s.vfs.freeCylinder s.vfs.freeSector := sector_of_linear h hl
  rw [writeFree, writeSector, if_neg (not_not.mpr hs)]
  simp only [Option.getD_some, storeSector, wordOn]
  split_ifs with hcoord hlin hlin
  · rfl
  · obtain ⟨ht, hc, hsec⟩ := hcoord
    exact absurd (congrArg linear (Digits.ext ht hc hsec : d = freeDigits s.vfs)) hlin
  · have he := linear_injective hd h hlin
    exact absurd ⟨congrArg Digits.high he, congrArg Digits.mid he, congrArg Digits.low he⟩ hcoord
  · rfl

/-- What the writing loop leaves on the disk and in the free position. -/
theorem write_program_image (count : Nat) (file : List Char) (s : System)
    (h : Normal (freeDigits s.vfs)) (hl : linear (freeDigits s.vfs) + count ≤ 10000) :
    Normal (freeDigits (writeProgram count file s).vfs) ∧
      linear (freeDigits (writeProgram count file s).vfs) = linear (freeDigits s.vfs) + count ∧
      (∀ d, Normal d → linear d < linear (freeDigits s.vfs) →
        wordOn (writeProgram count file s).hw.disk d = wordOn s.hw.disk d) ∧
      ∀ i (hi : i < (delivered count file).length) d, Normal d →
        linear d = linear (freeDigits s.vfs) + i →
        wordOn (writeProgram count file s).hw.disk d = (delivered count file)[i] := by
  induction count generalizing file s with
  | zero =>
    refine ⟨h, (Nat.add_zero _).symm, fun _ _ _ => rfl, ?_⟩
    intro i hi
    cases hi
  | succ count ih =>
    generalize hw : (readProgramWord file).1 = w
    generalize hf : (readProgramWord file).2 = rest
    have hlt : linear (freeDigits s.vfs) < 10000 := by omega
    have hwritten : ∀ d, Normal d → wordOn (writeFree w s).hw.disk d =
        if linear d = linear (freeDigits s.vfs) then w else wordOn s.hw.disk d :=
      fun d hd => write_free_at w h hlt hd
    have hcarry : freeDigits (advanceFree s.vfs) = carry (freeDigits s.vfs) :=
      advance_free_digits h (by omega)
    have hone : linear (freeDigits (advanceFree s.vfs)) = linear (freeDigits s.vfs) + 1 := by
      rw [hcarry, linear_carry h]
    obtain ⟨hnorm, hlin, hbefore, hafter⟩ :=
      ih rest { writeFree w s with vfs := advanceFree s.vfs }
        (by rw [hcarry]; exact advance_valid h) (by dsimp only; omega)
    have hstep : writeProgram (count + 1) file s =
        writeProgram count rest { writeFree w s with vfs := advanceFree s.vfs } := by
      rw [← hw, ← hf]
      rfl
    have hwords : delivered (count + 1) file = w :: delivered count rest := by
      rw [← hw, ← hf]
      rfl
    rw [hstep]
    refine ⟨hnorm, by rw [hlin]; dsimp only; omega, ?_, ?_⟩
    · intro d hd hlt
      rw [hbefore d hd (by dsimp only; omega), hwritten d hd, if_neg (by omega)]
    · intro i hi d hd hi'
      simp only [hwords]
      cases i with
      | zero =>
        rw [hbefore d hd (by dsimp only; omega), hwritten d hd, if_pos (by omega)]
        rfl
      | succ i =>
        rw [hafter i (by simpa [hwords] using hi) d hd (by dsimp only; omega)]
        rfl

/-- The catalog entries a load adds, each with the words its file delivered. -/
def loadRecord (host : Host) (u : Unspecified) (path : List Char) (s : System) :
    List (FileMeta × List Int) :=
  match host path with
  | none => []
  | some file =>
    ((vfsLoadToDisk host u path s).2.vfs.diskCatalog.drop s.vfs.diskCatalog.length).map
      (fun e => (e, delivered (readHeader u file).1.wordCount.toNat (readHeader u file).2))

inductive Loaded (host : Host) (u : Unspecified) (path : List Char) (s : System) :
    System → List (FileMeta × List Int) → Prop where
  | untouched : Loaded host u path s s []
  | unregistered (count : Nat) (file : List Char)
      (hl : linear (freeDigits s.vfs) ≤ 10000 → linear (freeDigits s.vfs) + count ≤ 10000) :
    Loaded host u path s (writeProgram count file s) []
  | registered (e : FileMeta) (file : List Char) (hstart : startDigits e = freeDigits s.vfs)
      (hl : linear (freeDigits s.vfs) ≤ 10000 →
        linear (freeDigits s.vfs) + e.wordCount.toNat ≤ 10000) :
    Loaded host u path s
      { writeProgram e.wordCount.toNat file s with
        vfs := { (writeProgram e.wordCount.toNat file s).vfs with
          diskCatalog := (writeProgram e.wordCount.toNat file s).vfs.diskCatalog ++ [e] } }
      [(e, delivered e.wordCount.toNat file)]

theorem used_sectors_eq (v : Vfs) : usedSectors v = linear (freeDigits v) := by
  simp only [usedSectors, linear, freeDigits, diskCylinders, diskSectors]
  push_cast
  ring

/-- Words for which the disk has room end before its capacity. -/
theorem room_on_disk {v : Vfs} {w : Int} (h : w ≤ totalDiskSectors - usedSectors v)
    (hl : linear (freeDigits v) ≤ 10000) : linear (freeDigits v) + w.toNat ≤ 10000 := by
  rw [used_sectors_eq] at h
  simp only [totalDiskSectors, diskTracks, diskCylinders, diskSectors] at h
  omega

theorem write_program_catalog (count : Nat) (file : List Char) (s : System) :
    (writeProgram count file s).vfs.diskCatalog = s.vfs.diskCatalog := by
  induction count generalizing file s with
  | zero => rfl
  | succ count ih =>
    rw [writeProgram]
    exact (ih _ _).trans (advance_free_catalog _)

def newEntry (u : Unspecified) (path file : List Char) (v : Vfs) : FileMeta where
  filePath := strncpy255 path
  programName := strncpy255 (readHeader u file).1.programName
  startTrack := v.freeTrack
  startCylinder := v.freeCylinder
  startSector := v.freeSector
  wordCount := (readHeader u file).1.wordCount
  startPC := (readHeader u file).1.startPC

def withWords (u : Unspecified) (file : List Char) (s : System) : System :=
  writeProgram (readHeader u file).1.wordCount.toNat (readHeader u file).2 s

theorem free_digits_catalog (v : Vfs) (entries : List FileMeta) :
    freeDigits { v with diskCatalog := entries } = freeDigits v := rfl

theorem with_words_catalog (u : Unspecified) (file : List Char) (s : System) :
    (withWords u file s).vfs.diskCatalog = s.vfs.diskCatalog :=
  write_program_catalog _ _ s

inductive LoadCases (host : Host) (u : Unspecified) (path : List Char) (s : System) :
    VfsStatus × System → Prop where
  | known (h : vfsFileExists path s.vfs) : LoadCases host u path s (.success, s)
  | missing (h : ¬ vfsFileExists path s.vfs) (hfile : host path = none) :
    LoadCases host u path s (.notFound, s)
  | large (h : ¬ vfsFileExists path s.vfs) {file : List Char} (hfile : host path = some file)
      (hroom : ¬ (readHeader u file).1.wordCount ≤ totalDiskSectors - usedSectors s.vfs) :
    LoadCases host u path s (.diskFull, s)
  | unregistered (h : ¬ vfsFileExists path s.vfs) {file : List Char} (hfile : host path = some file)
      (hroom : (readHeader u file).1.wordCount ≤ totalDiskSectors - usedSectors s.vfs)
      (hslots : maxProcesses ≤ s.vfs.diskCatalog.length) :
    LoadCases host u path s (.diskFull, withWords u file s)
  | registered (h : ¬ vfsFileExists path s.vfs) {file : List Char} (hfile : host path = some file)
      (hroom : (readHeader u file).1.wordCount ≤ totalDiskSectors - usedSectors s.vfs)
      (hslots : s.vfs.diskCatalog.length < maxProcesses) :
    LoadCases host u path s (.success, { withWords u file s with
      vfs := { (withWords u file s).vfs with
        diskCatalog := s.vfs.diskCatalog ++ [newEntry u path file s.vfs] } })

theorem load_cases (host : Host) (u : Unspecified) (path : List Char) (s : System) :
    LoadCases host u path s (vfsLoadToDisk host u path s) := by
  by_cases h : vfsFileExists path s.vfs
  · rw [vfsLoadToDisk, if_pos h]
    exact .known h
  cases hfile : host path with
  | none =>
    simp only [vfsLoadToDisk, if_neg h, hfile]
    exact .missing h hfile
  | some file =>
    have large := @LoadCases.large host u path s h file hfile
    have unregistered := @LoadCases.unregistered host u path s h file hfile
    have registered := @LoadCases.registered host u path s h file hfile
    simp only [vfsLoadToDisk, if_neg h, hfile]
    unfold withWords newEntry at *
    generalize readHeader u file = r at large unregistered registered ⊢
    by_cases hroom : r.1.wordCount ≤ totalDiskSectors - usedSectors s.vfs
    · rw [if_neg (not_lt.mpr hroom), vfsRegisterFile, write_program_catalog]
      by_cases hslots : maxProcesses ≤ s.vfs.diskCatalog.length
      · rw [if_pos hslots]
        exact unregistered hroom hslots
      · rw [if_neg hslots]
        exact registered hroom (not_le.mp hslots)
    · rw [if_pos (not_le.mp hroom)]
      exact large hroom

theorem load_loaded (host : Host) (u : Unspecified) (path : List Char) (s : System) :
    Loaded host u path s (vfsLoadToDisk host u path s).2 (loadRecord host u path s) := by
  have cases := load_cases host u path s
  unfold loadRecord
  generalize vfsLoadToDisk host u path s = r at cases ⊢
  cases cases with
  | known h => cases host path <;> simp [Loaded.untouched]
  | missing h hfile => simp [hfile, Loaded.untouched]
  | large h hfile => simp [hfile, Loaded.untouched]
  | @unregistered h file hfile hroom hslots =>
    have hnone : (withWords u file s).vfs.diskCatalog.drop s.vfs.diskCatalog.length = [] := by
      rw [withWords, write_program_catalog, List.drop_length]
    simp only [hfile, hnone, List.map_nil]
    exact .unregistered _ _ (room_on_disk hroom)
  | @registered h file hfile hroom hslots =>
    simp only [hfile, List.drop_left, List.map_cons, List.map_nil]
    have registered := @Loaded.registered host u path s (newEntry u path file s.vfs)
      (readHeader u file).2 rfl (room_on_disk hroom)
    rw [write_program_catalog] at registered
    simp only [withWords, newEntry] at registered ⊢
    exact registered

/-- The disk holds, for every catalog entry, the words its file delivered, entry after entry and
all before the free position. -/
structure Imaged (v : Vfs) (disk : Nat → Nat → Nat → Int) (log : List (FileMeta × List Int)) :
    Prop where
  catalog : v.diskCatalog = log.map Prod.fst
  normal : Normal (freeDigits v)
  capacity : linear (freeDigits v) ≤ 10000
  length : ∀ x ∈ log, x.2.length = x.1.wordCount.toNat
  start : ∀ x ∈ log, Normal (startDigits x.1) ∧
    linear (startDigits x.1) + x.2.length ≤ linear (freeDigits v)
  words : ∀ x ∈ log, ∀ i (hi : i < x.2.length) d, Normal d →
    linear d = linear (startDigits x.1) + i → wordOn disk d = x.2[i]
  apart : log.Pairwise
    (fun x y => linear (startDigits x.1) + x.2.length ≤ linear (startDigits y.1))

theorem empty_imaged (disk : Nat → Nat → Nat → Int) : Imaged Vfs.empty disk [] := by
  refine ⟨rfl, ⟨by decide, by decide⟩, by decide, ?_, ?_, ?_, List.Pairwise.nil⟩ <;>
  · intro x hx
    cases hx

/-- The words of a file move the free position by their number. -/
theorem with_words_position {u : Unspecified} {file : List Char} {s : System}
    {log : List (FileMeta × List Int)} (h : Imaged s.vfs s.hw.disk log)
    (hroom : (readHeader u file).1.wordCount ≤ totalDiskSectors - usedSectors s.vfs) :
    linear (freeDigits (withWords u file s).vfs) =
      linear (freeDigits s.vfs) + (readHeader u file).1.wordCount.toNat := by
  rw [withWords]
  exact (write_program_image _ _ s h.normal (room_on_disk hroom h.capacity)).2.1

/-- Words written from the free position on do not reach the ones before it. -/
theorem Imaged.write {s : System} {log : List (FileMeta × List Int)}
    (h : Imaged s.vfs s.hw.disk log) (count : Nat) (file : List Char)
    (hl : linear (freeDigits s.vfs) + count ≤ 10000) :
    Imaged (writeProgram count file s).vfs (writeProgram count file s).hw.disk log := by
  obtain ⟨hnorm, hlin, hbefore, -⟩ := write_program_image count file s h.normal hl
  refine ⟨(write_program_catalog count file s).trans h.catalog, hnorm, by omega, h.length, ?_, ?_, h.apart⟩
  · intro x hx
    obtain ⟨hn, hle⟩ := h.start x hx
    exact ⟨hn, by omega⟩
  · intro x hx i hi d hd hi'
    have hle := (h.start x hx).2
    rw [hbefore d hd (by omega)]
    exact h.words x hx i hi d hd hi'

/-- Every load keeps the disk in step with the log. -/
theorem Imaged.load {host : Host} {u : Unspecified} {path : List Char} {s t : System}
    {log added : List (FileMeta × List Int)} (h : Imaged s.vfs s.hw.disk log)
    (hload : Loaded host u path s t added) : Imaged t.vfs t.hw.disk (log ++ added) := by
  cases hload with
  | untouched =>
    rw [List.append_nil]
    exact h
  | unregistered count file hl =>
    rw [List.append_nil]
    exact h.write count file (hl h.capacity)
  | registered e file hstart hl =>
    have hroom := hl h.capacity
    have hw := h.write e.wordCount.toNat file hroom
    obtain ⟨-, hlin, -, hafter⟩ := write_program_image e.wordCount.toNat file s h.normal hroom
    have mem : ∀ x, x ∈ log ++ [(e, delivered e.wordCount.toNat file)] →
        x ∈ log ∨ x = (e, delivered e.wordCount.toNat file) := by
      intro x hx
      simpa using hx
    refine ⟨?_, hw.normal, hw.capacity, ?_, ?_, ?_, ?_⟩
    · simp only [hw.catalog, List.map_append, List.map_cons, List.map_nil]
    · intro x hx
      rcases mem x hx with hx | rfl
      · exact h.length x hx
      · exact delivered_length _ _
    · intro x hx
      rcases mem x hx with hx | rfl
      · exact hw.start x hx
      · dsimp only
        rw [hstart, delivered_length]
        exact ⟨h.normal, hlin.ge⟩
    · intro x hx
      rcases mem x hx with hx | rfl
      · exact hw.words x hx
      · dsimp only
        rw [hstart]
        exact hafter
    · refine List.pairwise_append.mpr ⟨h.apart, List.pairwise_singleton _ _, ?_⟩
      intro x hx y hy
      obtain rfl := List.mem_singleton.mp hy
      dsimp only
      rw [hstart]
      exact (h.start x hx).2

/-- The states of disk and catalog that loads lead to from an empty catalog, with the log of what
they registered. Nothing else is said of the system in which a load is made. -/
inductive LoadRun : Vfs → (Nat → Nat → Nat → Int) → List (FileMeta × List Int) → Prop where
  | empty (disk : Nat → Nat → Nat → Int) : LoadRun Vfs.empty disk []
  | load {s : System} {log : List (FileMeta × List Int)} (host : Host) (u : Unspecified)
      (path : List Char) (h : LoadRun s.vfs s.hw.disk log) :
    LoadRun (vfsLoadToDisk host u path s).2.vfs (vfsLoadToDisk host u path s).2.hw.disk
      (log ++ loadRecord host u path s)

theorem LoadRun.imaged {v : Vfs} {disk : Nat → Nat → Nat → Int}
    {log : List (FileMeta × List Int)} (h : LoadRun v disk log) : Imaged v disk log := by
  induction h with
  | empty disk => exact empty_imaged disk
  | load host u path _ ih => exact ih.load (load_loaded host u path _)

/-- The reading loop writes nowhere but to the words it reads. -/
theorem load_image_outside (rb : Int) (count : Nat) (i : Int) (c : SectorCursor) (m : Machine)
    {x : Int} (hx : x < rb + i ∨ rb + i + count ≤ x) :
    (loadImage rb count i c m).ram x = m.ram x := by
  induction count generalizing i c m with
  | zero => rfl
  | succ count ih =>
    have here : ∀ data, (orUnchanged (dmaWriteMemory (rb + i) data m) m).ram x = m.ram x := by
      intro data
      unfold dmaWriteMemory
      split_ifs
      · exact Function.update_of_ne (by push_cast at hx; omega) _ _
      · rfl
    rw [loadImage, ih _ _ _ (by push_cast at hx; omega), here]

/-- The words the reading loop leaves in RAM. -/
theorem load_image_at (rb : Int) (count : Nat) (i : Int) (c : SectorCursor) (m : Machine)
    (h : Normal (cursorDigits c)) (hl : linear (cursorDigits c) + count ≤ 10000)
    (hlow : 0 ≤ rb + i) (hhigh : rb + i + count ≤ 2000) {k : Nat} (hk : k < count) :
    (loadImage rb count i c m).ram (rb + i + k) = wordOn m.disk (carry^[k] (cursorDigits c)) := by
  induction count generalizing i c m k with
  | zero => cases hk
  | succ count ih =>
    have hcarry := advance_cursor_digits h (by omega)
    have hsector : isSector c.track c.cylinder c.sector := sector_of_linear h (by omega)
    have hread : (readSector c.track c.cylinder c.sector m).getD 0 =
        wordOn m.disk (cursorDigits c) := by
      rw [readSector, if_neg (not_not.mpr hsector)]
      rfl
    have hstore : orUnchanged (dmaWriteMemory (rb + i)
        ((readSector c.track c.cylinder c.sector m).getD 0) m) m =
        storeRam (rb + i) (wordOn m.disk (cursorDigits c)) m := by
      have hvalid : isPhysicalAddressValid (rb + i) := ⟨hlow, by simp only [ramSize]; omega⟩
      rw [hread, dmaWriteMemory, if_neg (not_not.mpr hvalid)]
      rfl
    rw [loadImage, hstore]
    cases k with
    | zero =>
      rw [load_image_outside _ _ _ _ _ (Or.inl (by simp only [Nat.cast_zero]; omega))]
      simp [storeRam]
    | succ k =>
      have hnext := ih (i + 1) c.advance (storeRam (rb + i) (wordOn m.disk (cursorDigits c)) m)
        (by rw [hcarry]; exact advance_valid h) (by rw [hcarry, linear_carry h]; omega)
        (by omega) (by push_cast at hhigh; omega) (by omega : k < count)
      rw [hcarry] at hnext
      rw [Function.iterate_succ_apply]
      rw [show rb + i + ((k + 1 : Nat) : Int) = rb + (i + 1) + k by push_cast; omega]
      exact hnext

/-- The partitions of a process hold its program and the smallest stack. -/
theorem required_blocks_room {w : Int} (h : 1 ≤ calculateRequiredBlocks w) :
    1 ≤ w ∧ w + 50 ≤ calculateRequiredBlocks w * 85 := by
  by_cases hfits : Allocatable w
  · exact ⟨hfits.1, enough_blocks_iff.mp (required_blocks_least hfits).1⟩
  · rw [required_blocks_refused hfits] at h
    omega

theorem load_ram (host : Host) (u : Unspecified) (path : List Char) (s : System) :
    (vfsLoadToDisk host u path s).2.hw.ram = s.hw.ram := by
  obtain ⟨status, disk, vfs, h⟩ := load_to_disk host u path s
  rw [h]

def OnSectors (e : FileMeta) (p : Int) : Prop :=
  linear (startDigits e) ≤ p ∧ p < linear (startDigits e) + e.wordCount

def startCursor (e : FileMeta) : SectorCursor := ⟨e.startTrack, e.startCylinder, e.startSector⟩

structure ImageInRam (e : FileMeta) (words : List Int) (i : Int) (s r : System) : Prop where
  slot : 0 ≤ i ∧ i < 20 ∧ (s.kernel.processTable i).state = .finished ∧
    (r.kernel.processTable i).state = .ready ∧ (r.kernel.processTable i).pid = s.kernel.nextPid
  length : words.length = e.wordCount
  reads : ∀ k : Nat, k < words.length →
    isSector (SectorCursor.advance^[k] (startCursor e)).track
      (SectorCursor.advance^[k] (startCursor e)).cylinder
      (SectorCursor.advance^[k] (startCursor e)).sector
  image : ∀ (k : Nat) (hk : k < words.length),
    r.hw.ram ((r.kernel.processTable i).context.rb + k) = words[k] ∧
      (r.kernel.processTable i).context.rb + k ≤ (r.kernel.processTable i).context.rl
  frame : ∀ x, x < (r.kernel.processTable i).context.rb ∨
    (r.kernel.processTable i).context.rb + words.length ≤ x → r.hw.ram x = s.hw.ram x

theorem created_image {host : Host} {u : Unspecified} {progName : List Char} {s r : System}
    {log : List (FileMeta × List Int)}
    (h : Imaged (vfsLoadToDisk host u progName s).2.vfs
      (vfsLoadToDisk host u progName s).2.hw.disk log)
    (hc : createProcess host u progName s = (.success, r)) :
    ∃ e words i, (e, words) ∈ log ∧ vfsGetMetadata progName r.vfs = some e ∧
      ImageInRam e words i s r := by
  have created := create_process_created host u progName s
  rw [hc] at created
  cases created with
  | refused _ hne => exact absurd rfl hne
  | made i e start hi hslot hload hentry hstart hcount hend hfree =>
    obtain ⟨hpos, hroom⟩ := required_blocks_room hcount
    have hmem : e ∈ log.map Prod.fst := by
      rw [← h.catalog]
      exact List.mem_of_find?_eq_some hentry
    obtain ⟨⟨e', words⟩, hx, rfl⟩ := List.mem_map.mp hmem
    have hlen := h.length _ hx
    obtain ⟨hnorm, hle⟩ := h.start _ hx
    have hcap := h.capacity
    have hwords := h.words _ hx
    dsimp only at hlen hnorm hle hwords hpos hroom hcount hend hentry ⊢
    have hn : linear (startDigits e') + e'.wordCount.toNat ≤ 10000 := by omega
    have hbase : getBaseRegister start = 300 + start * 85 := by
      simp [getBaseRegister]
    have himage := fun k => @load_image_at (getBaseRegister start) e'.wordCount.toNat 0
      ⟨e'.startTrack, e'.startCylinder, e'.startSector⟩ (vfsLoadToDisk host u progName s).2.hw
      hnorm hn (by omega) (by omega) k
    refine ⟨e', words, i, hx, hentry, ⟨hi.1, hi.2, hslot, ?_, ?_⟩, ?_, ?_, ?_, ?_⟩
    · simp [createdPcb]
    · simp [createdPcb]
    · omega
    · intro k hk
      exact cursor_in_bounds cursorDigits SectorCursor.advance advance_cursor_digits
        (startCursor e') hnorm hn (by omega)
    · intro k hk
      simp only [Function.update_self, createdPcb, initialContext, getLimitRegister]
      have hk' := himage k (by omega)
      rw [Int.add_zero] at hk'
      refine ⟨?_, ?_⟩
      · rw [hk', ← hwords k hk _ (carry_normal hnorm k) (linear_iterate hnorm k)]
        rfl
      · simp only [partitionSize, ramSize, osReservedSize, maxProcesses]
        norm_num
        omega
    · intro x hx'
      simp only [Function.update_self, createdPcb, initialContext] at hx'
      dsimp only
      rw [load_image_outside _ _ _ _ _ (by omega), load_ram]

/-- Program images survive the way from the host's file over the disk to RAM: the sectors of
distinct catalog entries are disjoint and on the disk, no access to a sector is refused, and a
process is created with exactly the words its file delivered. -/
theorem program_image_integrity {v : Vfs} {disk : Nat → Nat → Nat → Int}
    {log : List (FileMeta × List Int)} (h : LoadRun v disk log) :
    v.diskCatalog = log.map Prod.fst ∧
    (∀ e ∈ v.diskCatalog, ∀ p, OnSectors e p → 0 ≤ p ∧ p < 10000) ∧
    v.diskCatalog.Pairwise (fun e e' => ∀ p, OnSectors e p → ¬ OnSectors e' p) ∧
    (∀ (host : Host) u path file, host path = some file →
      (readHeader u file).1.wordCount ≤ totalDiskSectors - usedSectors v →
      ∀ k : Nat, k < (readHeader u file).1.wordCount.toNat →
        isSector (advanceFree^[k] v).freeTrack (advanceFree^[k] v).freeCylinder
          (advanceFree^[k] v).freeSector) ∧
    ∀ host u progName s r, s.vfs = v → s.hw.disk = disk →
      createProcess host u progName s = (.success, r) →
      ∃ e words i, (e, words) ∈ log ++ loadRecord host u progName s ∧
        vfsGetMetadata progName r.vfs = some e ∧ ImageInRam e words i s r := by
  have imaged := h.imaged
  refine ⟨imaged.catalog, ?_, ?_, ?_, ?_⟩
  · intro e he p hp
    rw [imaged.catalog] at he
    obtain ⟨x, hx, rfl⟩ := List.mem_map.mp he
    have hlen := imaged.length x hx
    have hle := (imaged.start x hx).2
    have hcap := imaged.capacity
    simp only [OnSectors] at hp
    omega
  · rw [imaged.catalog, List.pairwise_map]
    refine imaged.apart.imp_of_mem ?_
    intro x y hx _ hxy p hp hp'
    have hlen := imaged.length x hx
    simp only [OnSectors] at hp hp'
    omega
  · intro host u path file _ hroom k hk
    exact cursor_in_bounds freeDigits advanceFree advance_free_digits v imaged.normal
      (room_on_disk hroom imaged.capacity) hk
  · intro host u progName s r hv hd hc
    rw [← hv, ← hd] at imaged
    exact created_image (imaged.load (load_loaded host u progName s)) hc

def readerHost : Host :=
  hostOf "_start 1\n.N 2\n.P A\n06000000 // read\n\n07000000\n" ""

theorem program_image_integrity_reader :
    ∃ e words i, (e, words) ∈ loadRecord readerHost zeros ['a'] (boot zeroKeys) ++
        loadRecord readerHost zeros ['A'] (vfsLoadToDisk readerHost zeros ['a'] (boot zeroKeys)).2 ∧
      ImageInRam e words i (vfsLoadToDisk readerHost zeros ['a'] (boot zeroKeys)).2
        (createProcess readerHost zeros ['A']
          (vfsLoadToDisk readerHost zeros ['a'] (boot zeroKeys)).2).2 := by
  have run := LoadRun.load readerHost zeros ['a'] (s := boot zeroKeys) (LoadRun.empty _)
  have hc : (createProcess readerHost zeros ['A']
      (vfsLoadToDisk readerHost zeros ['a'] (boot zeroKeys)).2).1 = .success := by
    decide +kernel
  obtain ⟨e, words, i, hmem, -, himage⟩ := (program_image_integrity run).2.2.2.2 readerHost zeros
    ['A'] _ _ rfl rfl (Prod.ext hc rfl)
  exact ⟨e, words, i, hmem, himage⟩

end Lucario.Proofs
