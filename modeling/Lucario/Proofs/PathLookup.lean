import Lucario.Proofs.DiskLoads

namespace Lucario.Proofs
open Odometer

/-- A load that registered a file: its path, its text and what the header left unset. -/
structure Load where
  path : List Char
  file : List Char
  unset : Unspecified

def Load.header (l : Load) : Header := (readHeader l.unset l.file).1

def Load.words (l : Load) : List Int :=
  delivered l.header.wordCount.toNat (readHeader l.unset l.file).2

def Load.answers (p : List Char) (l : Load) : Bool :=
  strncpy255 l.path = p || strncpy255 l.header.programName = p

def loadMade (host : Host) (u : Unspecified) (path : List Char) (s : System) : List Load :=
  match host path with
  | none => []
  | some file =>
    if s.vfs.diskCatalog.length < (vfsLoadToDisk host u path s).2.vfs.diskCatalog.length then
      [⟨path, file, u⟩]
    else []

/-- The states of disk and catalog that loads lead to, with the loads that registered a file. -/
inductive LoadHistory : Vfs → (Nat → Nat → Nat → Int) → List Load → Prop where
  | empty (disk : Nat → Nat → Nat → Int) : LoadHistory Vfs.empty disk []
  | load {s : System} {history : List Load} (host : Host) (u : Unspecified) (path : List Char)
      (h : LoadHistory s.vfs s.hw.disk history) :
    LoadHistory (vfsLoadToDisk host u path s).2.vfs (vfsLoadToDisk host u path s).2.hw.disk
      (history ++ loadMade host u path s)

def Describes (file : List Char) (startPC wordCount : Int) (words : List Int) : Prop :=
  ∃ u : Unspecified, (readHeader u file).1.startPC = startPC ∧
    (readHeader u file).1.wordCount = wordCount ∧
    delivered wordCount.toNat (readHeader u file).2 = words

/-- The words `createProcess` finds in the sectors of an entry. -/
def sectorWords (disk : Nat → Nat → Nat → Int) (e : FileMeta) : List Int :=
  (List.range e.wordCount.toNat).map
    (fun k => wordOn disk (cursorDigits (SectorCursor.advance^[k] (startCursor e))))

abbrev Fits (u : Unspecified) (file : List Char) (v : Vfs) : Prop :=
  (readHeader u file).1.wordCount ≤ totalDiskSectors - usedSectors v ∧
    v.diskCatalog.length < maxProcesses

def Resolves (host : Host) (p file : List Char) (s : System) : Prop :=
  (∃ e, vfsGetMetadata p s.vfs = some e ∧
    Describes file e.startPC e.wordCount (sectorWords s.hw.disk e)) ∧
  ∀ u, (vfsLoadToDisk host u p s).2.vfs.diskCatalog = s.vfs.diskCatalog

def ResolvesOwn (host : Host) (u : Unspecified) (p : List Char) (s : System) : Prop :=
  ∀ file, host p = some file → vfsFileExists p s.vfs ∨ Fits u file s.vfs →
    Resolves host p file (vfsLoadToDisk host u p s).2

/-- No earlier load answers to `p`, and `p` fits in an entry; or the first that does was of the
program in the file. -/
def Unambiguous (history : List Load) (p file : List Char) : Prop :=
  match history.find? (Load.answers p) with
  | none => p.length ≤ 255
  | some l => Describes file l.header.startPC l.header.wordCount l.words

structure Load.Keeps (l : Load) (x : FileMeta × List Int) : Prop where
  filePath : x.1.filePath = strncpy255 l.path
  programName : x.1.programName = strncpy255 l.header.programName
  startPC : x.1.startPC = l.header.startPC
  wordCount : x.1.wordCount = l.header.wordCount
  words : x.2 = l.words

variable {host : Host} {u : Unspecified} {p path : List Char} {s : System} {history : List Load}
  {log : List (FileMeta × List Int)}

/-- A load adds its entry to the catalog when the path is not there and the file fits. -/
theorem load_catalog {file : List Char} (hfile : host path = some file) :
    (vfsLoadToDisk host u path s).2.vfs.diskCatalog =
      if ¬ vfsFileExists path s.vfs ∧ Fits u file s.vfs then
        s.vfs.diskCatalog ++ [newEntry u path file s.vfs]
      else s.vfs.diskCatalog := by
  have cases := load_cases host u path s
  generalize vfsLoadToDisk host u path s = r at cases ⊢
  cases cases with
  | known h => rw [if_neg (fun hfits => hfits.1 h)]
  | missing _ hmissing => simp [hfile] at hmissing
  | large _ hsome hroom =>
    obtain rfl := Option.some.inj (hfile.symm.trans hsome)
    rw [if_neg (fun hfits => hroom hfits.2.1)]
  | unregistered _ hsome _ hslots =>
    obtain rfl := Option.some.inj (hfile.symm.trans hsome)
    rw [if_neg (fun hfits => absurd hfits.2.2 (not_lt.mpr hslots)), withWords,
      write_program_catalog]
  | registered h hsome hroom hslots =>
    obtain rfl := Option.some.inj (hfile.symm.trans hsome)
    rw [if_pos ⟨h, hroom, hslots⟩]

theorem new_entry_kept (u : Unspecified) (path file : List Char) (v : Vfs) :
    Load.Keeps ⟨path, file, u⟩ (newEntry u path file v,
      delivered (readHeader u file).1.wordCount.toNat (readHeader u file).2) := by
  constructor <;> simp only [newEntry, Load.header, Load.words]

/-- The log of a load keeps the load made. -/
theorem load_keeps (host : Host) (u : Unspecified) (path : List Char) (s : System) :
    List.Forall₂ Load.Keeps (loadMade host u path s) (loadRecord host u path s) := by
  unfold loadMade loadRecord
  cases hfile : host path with
  | none => exact .nil
  | some file =>
    dsimp only
    rw [load_catalog hfile]
    by_cases h : ¬ vfsFileExists path s.vfs ∧ Fits u file s.vfs
    · rw [if_pos h, if_pos (by simp), List.drop_left]
      exact .cons (new_entry_kept u path file s.vfs) .nil
    · rw [if_neg h, if_neg (lt_irrefl _), List.drop_length]
      exact .nil

theorem LoadHistory.logged {v : Vfs} {disk : Nat → Nat → Nat → Int}
    (h : LoadHistory v disk history) :
    ∃ log, LoadRun v disk log ∧ List.Forall₂ Load.Keeps history log := by
  induction h with
  | empty disk => exact ⟨[], .empty disk, .nil⟩
  | load host u path _ ih =>
    obtain ⟨log, run, keeps⟩ := ih
    exact ⟨_, run.load host u path, List.rel_append keeps (load_keeps host u path _)⟩

theorem Load.Keeps.answers {l : Load} {x : FileMeta × List Int} (h : l.Keeps x) (p : List Char) :
    matchesEntry p x.1 = l.answers p := by
  rw [matchesEntry, Load.answers, h.filePath, h.programName]

/-- A path finds its own load again unless the catalog cuts the path off. -/
theorem own_load_answers (p file : List Char) (u : Unspecified) :
    Load.answers p ⟨p, file, u⟩ ↔ p.length ≤ 255 := by
  unfold Load.answers strncpy255
  rw [Bool.or_eq_true]
  constructor
  · rintro (hpath | hname)
    · exact (List.take_eq_self_iff p).mp (of_decide_eq_true hpath)
    · rw [← of_decide_eq_true hname]
      exact List.length_take_le _ _
  · intro h
    exact Or.inl (decide_eq_true (List.take_of_length_le h))

/-- The catalog and the loads behind it answer a lookup at the same place. -/
theorem lookup_kept (keeps : List.Forall₂ Load.Keeps history log) (p : List Char) :
    Option.Rel Load.Keeps (history.find? (Load.answers p))
      (log.find? (fun x => matchesEntry p x.1)) := by
  induction keeps with
  | nil => exact .none
  | @cons l x history log first _ ih =>
    rw [List.find?_cons, List.find?_cons, first.answers p]
    cases l.answers p with
    | true => exact .some first
    | false => exact ih

/-- The sectors of a catalog entry hold the words its file delivered. -/
theorem sector_words_kept {v : Vfs} {disk : Nat → Nat → Nat → Int} (h : Imaged v disk log)
    {x : FileMeta × List Int} (hx : x ∈ log) : sectorWords disk x.1 = x.2 := by
  have hlen := h.length x hx
  obtain ⟨hnorm, hle⟩ := h.start x hx
  have hcap := h.capacity
  apply List.ext_getElem
  · simp [sectorWords, hlen]
  · intro k hk hk'
    simp only [sectorWords, List.getElem_map, List.getElem_range]
    rw [cursor_follows cursorDigits SectorCursor.advance advance_cursor_digits (startCursor x.1)
      hnorm (n := x.2.length) ?_ hk'.le]
    · exact h.words x hx k hk' _ (carry_normal hnorm k) (linear_iterate hnorm k)
    · exact hle.trans hcap

theorem exists_iff_found (p : List Char) (v : Vfs) :
    vfsFileExists p v ↔ (vfsGetMetadata p v).isSome := by
  simp [vfsFileExists, vfsGetMetadata]

/-- A load of a path in the catalog changes nothing. -/
theorem load_known (h : vfsFileExists path s.vfs) : vfsLoadToDisk host u path s = (.success, s) := by
  rw [vfsLoadToDisk, if_pos h]

/-- A lookup finds the entry of the first load that answers to the path. -/
theorem metadata_eq (run : LoadRun s.vfs s.hw.disk log) :
    vfsGetMetadata p s.vfs = (log.find? (fun x => matchesEntry p x.1)).map Prod.fst := by
  rw [vfsGetMetadata, run.imaged.catalog, List.find?_map]
  rfl

/-- Where the path is in the catalog, its lookup answers with the first load that did so. -/
theorem resolves_known {file : List Char} (run : LoadRun s.vfs s.hw.disk log)
    (keeps : List.Forall₂ Load.Keeps history log) (hknown : vfsFileExists p s.vfs) :
    Resolves host p file s ↔ Unambiguous history p file := by
  have imaged := run.imaged
  have found := lookup_kept keeps p
  have again : ∀ u, (vfsLoadToDisk host u p s).2.vfs.diskCatalog = s.vfs.diskCatalog := by
    intro u
    rw [load_known hknown]
  rw [exists_iff_found, metadata_eq run] at hknown
  unfold Resolves Unambiguous
  rw [metadata_eq run, and_iff_left again]
  cases hx : log.find? (fun x => matchesEntry p x.1) with
  | none => simp [hx] at hknown
  | some x =>
    rw [hx] at found
    cases hl : history.find? (Load.answers p) with
    | none =>
      rw [hl] at found
      cases found
    | some l =>
      rw [hl] at found
      cases found with
      | some kept =>
        have words := sector_words_kept imaged (List.mem_of_find?_eq_some hx)
        simp [words, kept.startPC, kept.wordCount, kept.words]

/-- The sectors of the entry a load registers hold the words of the file. -/
theorem new_entry_words {file : List Char} (run : LoadRun s.vfs s.hw.disk log)
    (hfile : host p = some file) (hnew : ¬ vfsFileExists p s.vfs) (hfits : Fits u file s.vfs) :
    sectorWords (vfsLoadToDisk host u p s).2.hw.disk (newEntry u p file s.vfs) =
      delivered (readHeader u file).1.wordCount.toNat (readHeader u file).2 := by
  have imaged := (run.load host u p).imaged
  refine sector_words_kept imaged
    (x := (_, delivered (readHeader u file).1.wordCount.toNat (readHeader u file).2)) ?_
  apply List.mem_append_right
  unfold loadRecord
  rw [hfile]
  dsimp only
  rw [load_catalog hfile, if_pos ⟨hnew, hfits⟩, List.drop_left]
  exact List.mem_singleton_self _

/-- A load of a path that is not in the catalog makes an entry, which the path finds again unless
the catalog has cut it off. -/
theorem resolves_new {file : List Char} (run : LoadRun s.vfs s.hw.disk log)
    (hfile : host p = some file) (hnew : ¬ vfsFileExists p s.vfs) (hfits : Fits u file s.vfs) :
    Resolves host p file (vfsLoadToDisk host u p s).2 ↔ p.length ≤ 255 := by
  have catalog := load_catalog (u := u) (s := s) hfile
  rw [if_pos ⟨hnew, hfits⟩] at catalog
  have hnone : s.vfs.diskCatalog.find? (matchesEntry p) = none := by
    simpa [exists_iff_found, vfsGetMetadata] using hnew
  have kept := new_entry_kept u p file s.vfs
  have hentry : vfsGetMetadata p (vfsLoadToDisk host u p s).2.vfs =
      if Load.answers p ⟨p, file, u⟩ then some (newEntry u p file s.vfs) else none := by
    rw [vfsGetMetadata, catalog, List.find?_append, hnone, Option.none_or, List.find?_singleton,
      ← kept.answers p]
  have words := new_entry_words run hfile hnew hfits
  generalize newEntry u p file s.vfs = e at kept hentry words
  rw [← own_load_answers p file u]
  constructor
  · rintro ⟨⟨e', he, -⟩, -⟩
    rw [hentry] at he
    by_contra hno
    rw [if_neg hno] at he
    cases he
  · intro hanswers
    rw [if_pos hanswers] at hentry
    refine ⟨⟨e, hentry, u, kept.startPC.symm, kept.wordCount.symm, ?_⟩, fun u' => ?_⟩
    · rw [words, kept.wordCount]
      rfl
    · rw [load_known]
      rw [exists_iff_found, hentry]
      rfl

/-- After every sequence of loads, a path that names a file which fits resolves to it exactly when
the catalog does not cut the path off and no earlier load of another program answers to it. -/
theorem path_resolves {s : System} {history : List Load} (h : LoadHistory s.vfs s.hw.disk history)
    (host : Host) (u : Unspecified) (p : List Char) :
    ResolvesOwn host u p s ↔ ∀ file, host p = some file →
      vfsFileExists p s.vfs ∨ Fits u file s.vfs → Unambiguous history p file := by
  obtain ⟨log, run, keeps⟩ := h.logged
  unfold ResolvesOwn
  refine forall_congr' fun file => forall_congr' fun hfile => forall_congr' fun hfits => ?_
  by_cases hknown : vfsFileExists p s.vfs
  · rw [load_known hknown]
    exact resolves_known run keeps hknown
  · rw [resolves_new run hfile hknown (hfits.resolve_left hknown)]
    have found := lookup_kept keeps p
    have hnone : log.find? (fun x => matchesEntry p x.1) = none := by
      simpa [exists_iff_found, metadata_eq run] using hknown
    rw [hnone] at found
    unfold Unambiguous
    cases hl : history.find? (Load.answers p) with
    | none => exact Iff.rfl
    | some l =>
      rw [hl] at found
      cases found

def shortPrograms : Host :=
  hostOf "_start 1\n.N 2\n.P first\n04100001\n06000000\n" "_start 1\n.N 1\n.P other\n06000000\n"

theorem path_resolves_second :
    ResolvesOwn shortPrograms zeros ['b']
      (vfsLoadToDisk shortPrograms zeros ['a'] (boot zeroKeys)).2 := by
  have first : LoadHistory Vfs.empty (boot zeroKeys).hw.disk [] := .empty _
  refine (path_resolves (.load (s := boot zeroKeys) shortPrograms zeros ['a'] first)
    shortPrograms zeros ['b']).mpr ?_
  intro file _ _
  have unmatched : ([] ++ loadMade shortPrograms zeros ['a'] (boot zeroKeys)).find?
      (Load.answers ['b']) = none := by
    rw [← Option.isNone_iff_eq_none]
    decide +kernel
  rw [Unambiguous, unmatched]
  exact (by decide : 1 ≤ 255)

/-- A path of 256 characters is loaded but not found. -/
theorem not_path_resolves :
    ¬ ∀ (s : System) (history : List Load), LoadHistory s.vfs s.hw.disk history →
      ∀ (host : Host) (u : Unspecified) (p : List Char), ResolvesOwn host u p s := by
  intro resolves
  obtain ⟨⟨e, he, -⟩, -⟩ := resolves (boot zeroKeys) [] (.empty _) oneWordHost zeros
    (List.replicate 256 'x') _ rfl (Or.inr (by decide +kernel))
  have hnone : (vfsGetMetadata (List.replicate 256 'x')
      (vfsLoadToDisk oneWordHost zeros (List.replicate 256 'x') (boot zeroKeys)).2.vfs).isNone := by
    decide +kernel
  rw [he] at hnone
  cases hnone

end Lucario.Proofs
