import Lucario.DiskStatus
import Lucario.Lib.EndToEnd
import Lucario.Proofs.ProgramImage

namespace Lucario.Proofs
open Odometer EndToEnd

abbrev entryStart (e : FileMeta) : Nat := linear (startDigits e)

abbrev entrySize (e : FileMeta) : Nat := e.wordCount.toNat

/-- Where the words of the catalog end: the occupied sectors are those before `total`, without a
gap, and nothing is written behind them before the catalog is full. -/
structure Packed (v : Vfs) (total : Nat) : Prop where
  laid : Laid entryStart entrySize 0 v.diskCatalog total
  starts : ∀ e ∈ v.diskCatalog, Normal (startDigits e)
  free : total ≤ linear (freeDigits v)
  last : v.diskCatalog.length < maxProcesses → total = linear (freeDigits v)

variable {host : Host} {u : Unspecified} {path : List Char} {s : System} {v : Vfs}
  {log : List (FileMeta × List Int)} {total : Nat} {e : FileMeta} {d : Digits}

/-- A load of a program lays its entry behind the others, or adds none. -/
theorem load_packed (h : Imaged s.vfs s.hw.disk log) (hp : Packed s.vfs total) :
    ∃ total', Packed (vfsLoadToDisk host u path s).2.vfs total' := by
  have cases := load_cases host u path s
  generalize vfsLoadToDisk host u path s = r at cases ⊢
  cases cases with
  | known => exact ⟨total, hp⟩
  | missing => exact ⟨total, hp⟩
  | large => exact ⟨total, hp⟩
  | @unregistered _ file hfile hroom hslots =>
    have hposition := with_words_position h hroom
    have hcatalog := with_words_catalog u file s
    have hfree := hp.free
    dsimp only
    refine ⟨total, ?_, ?_, by omega, ?_⟩
    · rw [hcatalog]
      exact hp.laid
    · rw [hcatalog]
      exact hp.starts
    · rw [hcatalog]
      intro hroom
      omega
  | @registered _ file hfile hroom hslots =>
    have hposition := with_words_position h hroom
    have hlast := hp.last hslots
    have hend : linear (freeDigits s.vfs) + entrySize (newEntry u path file s.vfs) =
        linear (freeDigits (withWords u file s).vfs) := hposition.symm
    refine ⟨_, hp.laid.append hlast.symm, ?_, ?_, fun _ => ?_⟩
    · intro e he
      rcases List.mem_append.mp he with he | he
      · exact hp.starts e he
      · obtain rfl := List.mem_singleton.mp he
        exact h.normal
    · rw [free_digits_catalog, ← hend, hlast]
    · rw [free_digits_catalog, ← hend, hlast]

theorem LoadRun.packed {disk : Nat → Nat → Nat → Int} (h : LoadRun v disk log) :
    ∃ total, Packed v total := by
  induction h with
  | empty disk => exact ⟨0, .nil 0, nofun, Nat.zero_le _, fun _ => rfl⟩
  | load host u path run ih =>
    obtain ⟨total, packed⟩ := ih
    exact load_packed run.imaged packed

def fileAt (m : DiskMap) (d : Digits) : Int := m.sectors d.high d.mid d.low

theorem carry_over_digits (c : SectorCursor) :
    cursorDigits c.carryOver = carry (cursorDigits c) := by
  rw [SectorCursor.carryOver, apply_ite cursorDigits, apply_ite cursorDigits]
  rfl

/-- A sector is marked with the entry alone, and counted. -/
theorem mark_at {c : SectorCursor} (i : Int) (m : DiskMap) (h : Normal (cursorDigits c))
    (hl : linear (cursorDigits c) < 10000) :
    (∀ d, Normal d → fileAt (m.mark i c) d =
      if linear d = linear (cursorDigits c) then i else fileAt m d) ∧
    (m.mark i c).occupiedSectors = m.occupiedSectors + 1 := by
  have hs : isSector c.track c.cylinder c.sector := sector_of_linear h hl
  rw [DiskMap.mark, if_pos hs]
  refine ⟨?_, rfl⟩
  intro d hd
  have same : d.high = c.track ∧ d.mid = c.cylinder ∧ d.low = c.sector ↔
      linear d = linear (cursorDigits c) := by
    constructor
    · rintro ⟨ht, hc, hsec⟩
      exact congrArg linear (Digits.ext ht hc hsec : d = cursorDigits c)
    · intro hlin
      obtain rfl := linear_injective hd h hlin
      exact ⟨rfl, rfl, rfl⟩
  simp only [fileAt, same]

/-- The words of an entry are marked with it, one sector each. -/
theorem mark_words_at (i : Int) (count : Nat) (c : SectorCursor) (m : DiskMap)
    (h : Normal (cursorDigits c)) (hl : linear (cursorDigits c) + count ≤ 10000) :
    (∀ d, Normal d → fileAt (markWords i count c m) d =
      if linear (cursorDigits c) ≤ linear d ∧ linear d < linear (cursorDigits c) + count then i
      else fileAt m d) ∧
    (markWords i count c m).occupiedSectors = m.occupiedSectors + count := by
  induction count generalizing c m with
  | zero =>
    refine ⟨?_, rfl⟩
    intro d _
    rw [if_neg (by omega)]
    rfl
  | succ count ih =>
    obtain ⟨hmark, hone⟩ := mark_at i m h (by omega)
    have hcarry := carry_over_digits c
    have hnext : linear (cursorDigits c.carryOver) = linear (cursorDigits c) + 1 := by
      rw [hcarry, linear_carry h]
    obtain ⟨hrest, hcount⟩ := ih c.carryOver (m.mark i c) (by rw [hcarry]; exact advance_valid h)
      (by omega)
    rw [markWords]
    refine ⟨?_, by omega⟩
    intro d hd
    rw [hrest d hd, hmark d hd, hnext]
    split_ifs <;> first | rfl | omega

/-- Each entry of the catalog is marked where its words lie, and nothing else is. -/
theorem mark_entries_at {p q : Nat} {entries : List FileMeta}
    (h : Laid entryStart entrySize p entries q) (hs : ∀ e ∈ entries, Normal (startDigits e))
    (hq : q ≤ 10000) (i : Int) (m : DiskMap) :
    (∀ d, Normal d → ∀ (j : Nat) e, entries[j]? = some e → Holds entryStart entrySize e (linear d) →
      fileAt (markEntries i entries m) d = i + j) ∧
    (∀ d, Normal d → ¬ (p ≤ linear d ∧ linear d < q) →
      fileAt (markEntries i entries m) d = fileAt m d) ∧
    (markEntries i entries m).occupiedSectors + p = m.occupiedSectors + q := by
  induction h generalizing i m with
  | nil p => exact ⟨by simp, fun _ _ _ => rfl, rfl⟩
  | cons e entries q tail ih =>
    have hle := tail.le
    have marked : (∀ d, Normal d →
        fileAt (markWords i e.wordCount.toNat ⟨e.startTrack, e.startCylinder, e.startSector⟩ m) d =
          if entryStart e ≤ linear d ∧ linear d < entryStart e + entrySize e then i
          else fileAt m d) ∧
        (markWords i e.wordCount.toNat ⟨e.startTrack, e.startCylinder, e.startSector⟩
          m).occupiedSectors = m.occupiedSectors + entrySize e :=
      mark_words_at i e.wordCount.toNat _ m (hs e (by simp)) (hle.trans hq)
    rw [markEntries]
    generalize markWords i e.wordCount.toNat ⟨e.startTrack, e.startCylinder, e.startSector⟩ m = n
      at marked ⊢
    obtain ⟨hwords, hcount⟩ := marked
    obtain ⟨howner, hother, hrest⟩ := ih (fun e' he => hs e' (by simp [he])) hq (i + 1) n
    refine ⟨?_, ?_, by omega⟩
    · intro d hd j e' he hholds
      cases j with
      | zero =>
        obtain rfl : e = e' := by simpa using he
        have hbefore := hholds.2
        rw [hother d hd (by omega), hwords d hd, if_pos ⟨hholds.1, hbefore⟩]
        simp
      | succ j =>
        rw [howner d hd j e' (by simpa using he) hholds]
        push_cast
        ring
    · intro d hd hout
      rw [hother d hd (by omega), hwords d hd, if_neg]
      rintro ⟨hl, hu⟩
      exact hout ⟨hl, hu.trans_le hle⟩

def SectorOwned (v : Vfs) (d : Digits) : Prop := ∃ e ∈ v.diskCatalog, OnSectors e (linear d)

def shownSymbol (v : Vfs) (track cylinder k : Nat) : Char :=
  cellSymbol (displayId (diskMap v) track cylinder (10 * k))

def cellText (v : Vfs) (track cylinder k : Nat) : List Char :=
  coloured (cellColour (displayId (diskMap v) track cylinder (10 * k))
    (1000 * track + 100 * cylinder + 10 * k + 10)) (shownSymbol v track cylinder k)

def cylinderText (v : Vfs) (track cylinder : Nat) : List Char :=
  (if cylinder = diskCylinders / 2 then "\n        | ".toList else []) ++
    ['['] ++ (List.range (diskSectors / 10)).flatMap (cellText v track cylinder) ++ "] ".toList

def trackText (v : Vfs) (track : Nat) : List Char :=
  " TRK ".toList ++ showInt2 track ++ " | ".toList ++
    (List.range diskCylinders).flatMap (cylinderText v track) ++ ['\n']

def mapHeading : List Char :=
  "\n\x1b[34m------------------------- DISK STATUS (diskstat) ".toList ++
    "-------------------------\x1b[0m\n".toList ++
    " \x1b[90m                (Visual Scale: 1 character = 10 sectors)\x1b[0m\n".toList

def usageText (occupied : Nat) : List Char :=
  "--------------------------------------------------------------------------\n".toList ++
    "                 Total Disk Usage: ".toList ++ showInt (occupied * 100 / totalDiskSectors) ++
    "% (".toList ++ showInt occupied ++ " / ".toList ++ showInt totalDiskSectors ++
    " sectors)\n".toList

def programsText (entries : List FileMeta) : List Char :=
  (if entries ≠ [] then "\n \x1b[33mLoaded Programs:\x1b[0m\n".toList ++ printEntries 0 entries
    else "\n  No programs currently loaded on virtual disk.\n".toList) ++ ['\n']

/-- The map names the owner of each sector, counts the owned ones, and its cells are empty exactly
where all ten sectors are. The map that is printed is this one, with this count. -/
structure MapAgrees (v : Vfs) : Prop where
  owner : ∀ d, isSector d.high d.mid d.low → ∀ (i : Nat) e, v.diskCatalog[i]? = some e →
    (fileAt (diskMap v) d = i ↔ OnSectors e (linear d))
  unowned : ∀ d, isSector d.high d.mid d.low → (fileAt (diskMap v) d = -1 ↔ ¬ SectorOwned v d)
  occupied : (diskMap v).occupiedSectors =
    {d | isSector d.high d.mid d.low ∧ SectorOwned v d}.ncard
  cells : ∀ track < diskTracks, ∀ cylinder < diskCylinders, ∀ k < diskSectors / 10,
    (shownSymbol v track cylinder k = '.' ↔
      ∀ j < 10, ¬ SectorOwned v ⟨track, cylinder, 10 * k + j⟩)
  printed : printDiskStatus v =
    mapHeading ++ (List.range diskTracks).flatMap (trackText v) ++
      usageText (diskMap v).occupiedSectors ++ programsText v.diskCatalog

/-- A loop whose rounds each print a piece and count on by `size` prints the pieces in order. -/
theorem foldl_pieces {step : DiskPrint → Nat → DiskPrint} {piece : Nat → List Char}
    {base size n : Nat}
    (hstep : ∀ k < n, ∀ text,
      step (text, base + size * k) k = (text ++ piece k, base + size * (k + 1)))
    (text : List Char) :
    (List.range n).foldl step (text, base) =
      (text ++ (List.range n).flatMap piece, base + size * n) := by
  induction n with
  | zero => simp
  | succ n ih =>
    have first := ih (fun k hk => hstep k (by omega))
    rw [List.range_succ, List.foldl_append, first, List.flatMap_append, List.foldl_cons,
      List.foldl_nil, hstep n (by omega)]
    simp

/-- The loop of `printDiskStatus` over the sectors of a cylinder, of which it visits every
tenth. -/
theorem print_cells (v : Vfs) (track cylinder : Nat) (text : List Char) :
    (List.range' 0 (diskSectors / 10) 10).foldl (printCell (diskMap v) track cylinder)
        (text, 1000 * track + 100 * cylinder) =
      (text ++ (List.range (diskSectors / 10)).flatMap (cellText v track cylinder),
        1000 * track + 100 * (cylinder + 1)) := by
  have tenth : List.range' 0 (diskSectors / 10) 10 =
      (List.range (diskSectors / 10)).map (fun k => 10 * k) := by decide
  rw [tenth, List.foldl_map]
  refine @foldl_pieces _ _ _ 10 _ ?_ text
  intro k _ text
  rfl

theorem print_cylinders (v : Vfs) (track : Nat) (text : List Char) :
    (List.range diskCylinders).foldl (printCylinder (diskMap v) track) (text, 1000 * track) =
      (text ++ (List.range diskCylinders).flatMap (cylinderText v track), 1000 * (track + 1)) := by
  refine @foldl_pieces _ _ _ 100 _ ?_ text
  intro cylinder _ text
  unfold printCylinder cylinderText
  split_ifs
  · simp only [printText, print_cells, List.append_assoc]
  · simp only [printText, print_cells, List.append_assoc, List.nil_append]

theorem print_tracks (v : Vfs) (text : List Char) :
    (List.range diskTracks).foldl (printTrack (diskMap v)) (text, 0) =
      (text ++ (List.range diskTracks).flatMap (trackText v), 1000 * diskTracks) := by
  have row : ∀ track < diskTracks, ∀ text,
      printTrack (diskMap v) (text, 0 + 1000 * track) track =
        (text ++ trackText v track, 0 + 1000 * (track + 1)) := by
    intro track _ text
    unfold printTrack trackText
    simp only [Nat.zero_add, printText, print_cylinders, List.append_assoc]
  have rows := foldl_pieces row text
  rwa [Nat.zero_add] at rows

theorem disk_status_printed (v : Vfs) : printDiskStatus v =
    mapHeading ++ (List.range diskTracks).flatMap (trackText v) ++
      usageText (diskMap v).occupiedSectors ++ programsText v.diskCatalog := by
  have some_sectors : 0 < totalDiskSectors := by decide
  unfold printDiskStatus mapHeading usageText programsText
  simp only [print_tracks, if_pos some_sectors, List.nil_append, List.append_assoc]

theorem holds_on_sectors {x : Nat} : Holds entryStart entrySize e x ↔ OnSectors e x := by
  simp only [Holds, OnSectors, entryStart, entrySize]
  omega

theorem sector_normal (h : isSector d.high d.mid d.low) : Normal d ∧ linear d < 10000 := by
  obtain ⟨ht, hc, hs⟩ := h
  simp only [diskTracks, diskCylinders, diskSectors] at ht hc hs
  refine ⟨⟨hc, hs⟩, ?_⟩
  unfold linear
  omega

/-- The owned sectors are those before the end of the last entry. -/
theorem Packed.owned_iff (h : Packed v total) : SectorOwned v d ↔ linear d < total := by
  have holds := h.laid.holds_iff (x := linear d)
  simp only [holds_on_sectors] at holds
  rw [SectorOwned, holds]
  simp

theorem first_sectors_card {n : Nat} (hn : n ≤ 10000) :
    {d : Digits | isSector d.high d.mid d.low ∧ linear d < n}.ncard = n := by
  have hinj : Set.InjOn linear {d : Digits | isSector d.high d.mid d.low ∧ linear d < n} :=
    fun d hd e he => linear_injective (sector_normal hd.1).1 (sector_normal he.1).1
  have himage : linear '' {d : Digits | isSector d.high d.mid d.low ∧ linear d < n} =
      (Finset.range n : Set Nat) := by
    ext x
    simp only [Set.mem_image, Set.mem_ofPred_eq, Finset.coe_range, Set.mem_Iio]
    constructor
    · rintro ⟨d, ⟨-, hd⟩, rfl⟩
      exact hd
    · intro hx
      refine ⟨⟨x / 1000, x / 100 % 10, x % 100⟩, ⟨?_, ?_⟩, ?_⟩
      · simp only [isSector, diskTracks, diskCylinders, diskSectors]
        omega
      · simp only [linear]
        omega
      · simp only [linear]
        omega
  rw [← hinj.ncard_image, himage, Set.ncard_coe_finset, Finset.card_range]

theorem symbol_of_file (i : Int) : fileSymbol i ≠ '.' := by
  have hlength : symbols.length = 35 := rfl
  have hall : ∀ n < 35, symbols.getD n '\x00' ≠ '.' := by decide
  rw [fileSymbol, hlength]
  exact hall _ (by omega)

theorem cell_symbol_empty {i : Int} : cellSymbol i = '.' ↔ i = -1 := by
  unfold cellSymbol
  split_ifs with hi
  · exact iff_of_true rfl hi
  · exact iff_of_false (symbol_of_file i) hi

/-- What the map shows of each sector in a packed catalog. -/
theorem Packed.map (h : Packed v total) (ht : total ≤ 10000) :
    (∀ d, Normal d → ∀ (i : Nat) e, v.diskCatalog[i]? = some e → OnSectors e (linear d) →
      fileAt (diskMap v) d = i) ∧
    (∀ d, Normal d → total ≤ linear d → fileAt (diskMap v) d = -1) ∧
    (diskMap v).occupiedSectors = total := by
  obtain ⟨howner, hother, hcount⟩ := mark_entries_at h.laid h.starts ht 0 DiskMap.empty
  refine ⟨?_, ?_, ?_⟩
  · intro d hd i e he hon
    rw [diskMap, howner d hd i e he (holds_on_sectors.mpr hon)]
    simp
  · intro d hd hout
    exact hother d hd (by omega)
  · simpa [diskMap, DiskMap.empty] using hcount

/-- The map shows a number for every sector in front of the last one occupied. -/
theorem Packed.named (h : Packed v total) (ht : total ≤ 10000) {d : Digits} (hd : Normal d)
    (hlt : linear d < total) : ∃ i : Nat, ∃ e, v.diskCatalog[i]? = some e ∧
      OnSectors e (linear d) ∧ fileAt (diskMap v) d = i := by
  obtain ⟨e, he, hon⟩ := h.owned_iff.mpr hlt
  obtain ⟨i, hi⟩ := List.mem_iff_getElem?.mp he
  exact ⟨i, e, hi, hon, (h.map ht).1 d hd i e hi hon⟩

theorem Packed.unmarked_iff (h : Packed v total) (ht : total ≤ 10000) {d : Digits}
    (hd : Normal d) : fileAt (diskMap v) d = -1 ↔ total ≤ linear d := by
  constructor
  · intro hfile
    by_contra hlt
    obtain ⟨i, -, -, -, hi⟩ := h.named ht hd (not_le.mp hlt)
    omega
  · exact (h.map ht).2.1 d hd

theorem Packed.owner_iff (h : Packed v total) (ht : total ≤ 10000) {d : Digits} (hd : Normal d)
    {i : Nat} {e : FileMeta} (he : v.diskCatalog[i]? = some e) :
    fileAt (diskMap v) d = i ↔ OnSectors e (linear d) := by
  refine ⟨?_, (h.map ht).1 d hd i e he⟩
  intro hfile
  have hlt : linear d < total := by
    by_contra hge
    rw [(h.unmarked_iff ht hd).mpr (not_lt.mp hge)] at hfile
    omega
  obtain ⟨j, e', he', hon, hj⟩ := h.named ht hd hlt
  have hsame : i = j := by exact_mod_cast hfile.symm.trans hj
  subst hsame
  rw [he] at he'
  exact Option.some.inj he' ▸ hon

/-- Nothing is owned behind a free sector, so that the first sector of a cell decides. -/
theorem Packed.cell_empty_iff (h : Packed v total) (ht : total ≤ 10000) {track cylinder k : Nat}
    (hc : cylinder < diskCylinders) (hk : k < diskSectors / 10) :
    shownSymbol v track cylinder k = '.' ↔
      ∀ j < 10, ¬ SectorOwned v ⟨track, cylinder, 10 * k + j⟩ := by
  simp only [diskCylinders, diskSectors] at hc hk
  have hten : ∀ j < 10, Normal ⟨track, cylinder, 10 * k + j⟩ := by
    intro j hj
    exact ⟨hc, by dsimp only; omega⟩
  have hfirst := h.unmarked_iff ht (hten 0 (by omega))
  have hsecond := h.unmarked_iff ht (hten 1 (by omega))
  simp only [fileAt, Nat.add_zero] at hfirst hsecond
  have hroom : 10 * k + 1 < diskSectors := by
    simp only [diskSectors]
    omega
  simp only [shownSymbol, cell_symbol_empty, displayId, if_pos hroom, h.owned_iff, not_lt]
  have hlinear : ∀ j, linear ⟨track, cylinder, 10 * k + j⟩ =
      linear ⟨track, cylinder, 10 * k⟩ + j := by
    intro j
    simp only [linear]
    omega
  rcases le_or_gt total (linear ⟨track, cylinder, 10 * k⟩) with hfree | howned
  · have hbehind : total ≤ linear ⟨track, cylinder, 10 * k + 1⟩ := by
      rw [hlinear]
      omega
    rw [hfirst.mpr hfree, hsecond.mpr hbehind]
    refine iff_of_true (by simp) ?_
    intro j _
    rw [hlinear]
    omega
  · have hshown : (diskMap v).sectors track cylinder (10 * k) ≠ -1 :=
      fun h => absurd (hfirst.mp h) (not_le.mpr howned)
    rw [if_pos hshown]
    refine iff_of_false hshown ?_
    intro hall
    exact absurd (hall 0 (by omega)) (not_le.mpr howned)

theorem Packed.agrees (h : Packed v total) (ht : total ≤ 10000) : MapAgrees v where
  owner _ hsector _ _ he := h.owner_iff ht (sector_normal hsector).1 he
  unowned _ hsector := by
    rw [h.unmarked_iff ht (sector_normal hsector).1, h.owned_iff, not_lt]
  occupied := by simp only [h.owned_iff, (h.map ht).2.2, first_sectors_card ht]
  cells _ _ _ hc _ hk := h.cell_empty_iff ht hc hk
  printed := disk_status_printed v

/-- After every sequence of loads the map agrees with the catalog, entry by entry and sector by
sector: the loads leave no gap in front of the last occupied sector. -/
theorem disk_map_agrees {disk : Nat → Nat → Nat → Int} (h : LoadRun v disk log) : MapAgrees v := by
  obtain ⟨total, packed⟩ := h.packed
  exact packed.agrees (packed.free.trans h.imaged.capacity)

theorem disk_map_agrees_reader :
    MapAgrees (vfsLoadToDisk readerHost zeros ['a'] (boot zeroKeys)).2.vfs :=
  disk_map_agrees (LoadRun.load (s := boot zeroKeys) readerHost zeros ['a'] (.empty _))

end Lucario.Proofs
