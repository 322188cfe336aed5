import Lucario.Lib.Simulation
import Lucario.Proofs.DmaBounds
import Lucario.Proofs.LegalWords
import Lucario.Proofs.PathLookup

namespace Lucario.Proofs
open Odometer

/-- What the disk and its catalog are for: the programs that have been put there, in order, and the
sectors that have been used up. -/
structure Shelf where
  loads : List Load
  used : Nat

def Shelf.find (p : List Char) (shelf : Shelf) : Option Load := shelf.loads.find? (Load.answers p)

/-- A file is read from the host only if no program answers to its name yet. The sectors are used
up even where there is no more place in the catalog. -/
def Shelf.fetch (host : Host) (u : Unspecified) (p : List Char) (shelf : Shelf) : Shelf :=
  match shelf.find p, host p with
  | none, some file =>
    let l : Load := ⟨p, file, u⟩
    if 10000 - shelf.used < l.header.wordCount then shelf
    else
      { loads := if shelf.loads.length < 20 then shelf.loads ++ [l] else shelf.loads
        used := shelf.used + l.header.wordCount.toNat }
  | _, _ => shelf

def creationStatus (k : Kernel) (found : Option Load) : OsStatus :=
  if getFreePCBIndex k = -1 then .maxProcesses
  else
    match found with
    | none => .disk
    | some l =>
      if (allocateMemory (calculateRequiredBlocks l.header.wordCount) k.freePartitions).1 = -1 then
        .memory
      else .success

def Shelf.next (s : System) (shelf : Shelf) : Event → Shelf
  | .create host u p => if getFreePCBIndex s.kernel = -1 then shelf else shelf.fetch host u p
  | _ => shelf

/-- The catalog and the sectors of its entries hold what is on the shelf. -/
structure Stocked (s : System) (log : List (FileMeta × List Int)) (shelf : Shelf) : Prop where
  imaged : Imaged s.vfs s.hw.disk log
  keeps : List.Forall₂ Load.Keeps shelf.loads log
  used : linear (freeDigits s.vfs) = shelf.used

section

variable {host : Host} {u : Unspecified} {p : List Char} {s : System} {shelf : Shelf}
  {log : List (FileMeta × List Int)} {v : Vfs} {disk : Nat → Nat → Nat → Int}

theorem metadata_imaged (h : Imaged v disk log) (p : List Char) :
    vfsGetMetadata p v = (log.find? (fun x => matchesEntry p x.1)).map Prod.fst := by
  rw [vfsGetMetadata, h.catalog, List.find?_map]
  rfl

/-- A lookup in the catalog and one on the shelf find the same program or none. -/
theorem Stocked.lookup (h : Stocked s log shelf) (p : List Char) :
    (shelf.find p = none → vfsGetMetadata p s.vfs = none) ∧
      ∀ l, shelf.find p = some l → ∃ x ∈ log, vfsGetMetadata p s.vfs = some x.1 ∧ l.Keeps x := by
  have found := lookup_kept h.keeps p
  rw [metadata_imaged h.imaged, Shelf.find]
  cases hx : log.find? (fun x => matchesEntry p x.1) with
  | none =>
    rw [hx] at found
    refine ⟨fun _ => rfl, fun l hl => ?_⟩
    rw [hl] at found
    cases found
  | some x =>
    rw [hx] at found
    refine ⟨fun hl => ?_, fun l hl => ?_⟩
    · rw [hl] at found
      cases found
    · rw [hl] at found
      cases found with
      | some kept => exact ⟨x, List.mem_of_find?_eq_some hx, rfl, kept⟩

theorem Stocked.known (h : Stocked s log shelf) (p : List Char) :
    vfsFileExists p s.vfs ↔ shelf.find p ≠ none := by
  obtain ⟨unknown, known⟩ := h.lookup p
  rw [exists_iff_found]
  cases hl : shelf.find p with
  | none => simp [unknown hl]
  | some l =>
    obtain ⟨x, -, hx, -⟩ := known l hl
    simp [hx]

theorem Stocked.size (h : Stocked s log shelf) :
    s.vfs.diskCatalog.length = shelf.loads.length := by
  rw [h.imaged.catalog, List.length_map, h.keeps.length_eq]

/-- The room left on the disk. -/
theorem Stocked.room (h : Stocked s log shelf) (l : Load) :
    l.header.wordCount ≤ totalDiskSectors - usedSectors s.vfs ↔
      ¬ 10000 - (shelf.used : Int) < l.header.wordCount := by
  rw [used_sectors_eq, h.used, not_lt]
  simp [totalDiskSectors]

/-- The shelf after a load holds what it held and the load, if one has been made. -/
theorem Stocked.fetched (h : Stocked s log shelf) (host : Host) (u : Unspecified) (p : List Char) :
    (shelf.fetch host u p).loads = shelf.loads ++ loadMade host u p s ∧
      linear (freeDigits (vfsLoadToDisk host u p s).2.vfs) = (shelf.fetch host u p).used := by
  have cases := load_cases host u p s
  have hsize := h.size
  unfold loadMade
  generalize vfsLoadToDisk host u p s = r at cases ⊢
  cases cases with
  | known hknown =>
    obtain ⟨l, hl⟩ := Option.ne_none_iff_exists'.mp ((h.known p).mp hknown)
    unfold Shelf.fetch
    rw [hl]
    refine ⟨?_, h.used⟩
    cases host p <;> simp
  | missing hnew hfile =>
    have hnone := not_not.mp (mt (h.known p).mpr hnew)
    unfold Shelf.fetch
    rw [hnone, hfile]
    exact ⟨by simp, h.used⟩
  | @large hnew file hfile hroom =>
    have hnone := not_not.mp (mt (h.known p).mpr hnew)
    have hover := not_not.mp (mt (h.room ⟨p, file, u⟩).mpr hroom)
    unfold Shelf.fetch
    rw [hnone, hfile]
    dsimp only
    rw [if_pos hover]
    exact ⟨by simp, h.used⟩
  | @unregistered hnew file hfile hroom hslots =>
    have hnone := not_not.mp (mt (h.known p).mpr hnew)
    have hposition := with_words_position h.imaged hroom
    have hcatalog := with_words_catalog u file s
    have hfits := (h.room ⟨p, file, u⟩).mp hroom
    have hfull : ¬ shelf.loads.length < 20 := by
      rw [← hsize]
      exact not_lt.mpr hslots
    unfold Shelf.fetch
    rw [hnone, hfile]
    dsimp only
    rw [if_neg hfits, if_neg hfull, hcatalog, if_neg (lt_irrefl _), List.append_nil]
    refine ⟨rfl, ?_⟩
    rw [hposition, h.used]
    rfl
  | @registered hnew file hfile hroom hslots =>
    have hnone := not_not.mp (mt (h.known p).mpr hnew)
    have hposition := with_words_position h.imaged hroom
    have hfits := (h.room ⟨p, file, u⟩).mp hroom
    have hplace : shelf.loads.length < 20 := by
      rw [← hsize]
      exact hslots
    unfold Shelf.fetch
    rw [hnone, hfile]
    dsimp only
    rw [if_neg hfits, if_pos hplace, if_pos (by simp)]
    refine ⟨rfl, ?_⟩
    rw [free_digits_catalog, hposition, h.used]
    rfl

theorem Stocked.fetch (h : Stocked s log shelf) (host : Host) (u : Unspecified) (p : List Char) :
    Stocked (vfsLoadToDisk host u p s).2 (log ++ loadRecord host u p s) (shelf.fetch host u p) := by
  obtain ⟨hloads, hused⟩ := h.fetched host u p
  refine ⟨h.imaged.load (load_loaded host u p s), ?_, hused⟩
  rw [hloads]
  exact List.rel_append h.keeps (load_keeps host u p s)

/-- A load that fails leaves no program that answers to its path. -/
theorem Stocked.failed (h : Stocked s log shelf) (hfail : (vfsLoadToDisk host u p s).1 ≠ .success) :
    (shelf.fetch host u p).find p = none := by
  have hnew : ¬ vfsFileExists p s.vfs := by
    intro hknown
    rw [load_known hknown] at hfail
    exact hfail rfl
  have hnone := not_not.mp (mt (h.known p).mpr hnew)
  obtain ⟨hloads, -⟩ := h.fetched host u p
  have unmade : loadMade host u p s = [] := by
    have cases := load_cases host u p s
    unfold loadMade
    generalize vfsLoadToDisk host u p s = r at cases hfail
    cases cases with
    | known => exact absurd rfl hfail
    | missing _ hfile => rw [hfile]
    | large _ hfile =>
      rw [hfile]
      exact if_neg (lt_irrefl _)
    | @unregistered _ file hfile =>
      rw [hfile]
      refine if_neg ?_
      rw [with_words_catalog]
      exact lt_irrefl _
    | registered => exact absurd rfl hfail
  rw [Shelf.find, hloads, unmade, List.append_nil]
  exact hnone

theorem load_image_disk (rb : Int) (count : Nat) (i : Int) (c : SectorCursor) (m : Machine) :
    (loadImage rb count i c m).disk = m.disk := by
  obtain ⟨ram, himage⟩ := load_image_ram rb count i c m
  rw [himage]

/-- A creation that finds a slot makes its load and does nothing else to the disk. -/
theorem create_process_disk (host : Host) (u : Unspecified) (p : List Char)
    (hslot : getFreePCBIndex s.kernel ≠ -1) :
    (createProcess host u p s).2.vfs = (vfsLoadToDisk host u p s).2.vfs ∧
      (createProcess host u p s).2.hw.disk = (vfsLoadToDisk host u p s).2.hw.disk := by
  unfold createProcess
  dsimp only
  generalize getFreePCBIndex s.kernel = i at hslot
  rw [if_neg hslot, load_when_missing, System.setState, System.modifyProcess, load_to_disk_kernel]
  dsimp only
  split_ifs
  · exact ⟨rfl, rfl⟩
  · cases vfsGetMetadata p (vfsLoadToDisk host u p s).2.vfs with
    | none => exact ⟨rfl, rfl⟩
    | some entry =>
      dsimp only
      split_ifs
      · exact ⟨rfl, rfl⟩
      · exact ⟨rfl, load_image_disk _ _ _ _ _⟩

/-- Whether a creation succeeds is decided by the kernel and the shelf. -/
theorem Stocked.status (h : Stocked s log shelf) (host : Host) (u : Unspecified) (p : List Char) :
    (createProcess host u p s).1 =
      creationStatus s.kernel ((shelf.fetch host u p).find p) := by
  obtain ⟨unknown, known⟩ := (h.fetch host u p).lookup p
  unfold createProcess creationStatus
  dsimp only
  generalize getFreePCBIndex s.kernel = i
  by_cases hslot : i = -1
  · rw [if_pos hslot, if_pos hslot]
  rw [if_neg hslot, if_neg hslot, load_when_missing, System.setState, System.modifyProcess,
    load_to_disk_kernel]
  dsimp only
  by_cases hload : (vfsLoadToDisk host u p s).1 = .success
  · rw [if_neg (not_not.mpr hload)]
    cases hl : (shelf.fetch host u p).find p with
    | none => rw [unknown hl]
    | some l =>
      obtain ⟨x, -, hentry, kept⟩ := known l hl
      rw [hentry]
      dsimp only
      rw [← kept.wordCount]
      have parts : (s.kernel.modifyProcess i (fun p => { p with state := .new })).freePartitions =
          s.kernel.freePartitions := rfl
      rw [parts]
      split_ifs <;> rfl
  · rw [if_pos hload, h.failed hload]

structure MadeFrom (l : Load) (i : Int) (s r : System) : Prop where
  slot : 0 ≤ i ∧ i < 20 ∧ (s.kernel.processTable i).state = .finished ∧
    (r.kernel.processTable i).state = .ready
  start : (r.kernel.processTable i).context.psw.pc = l.header.startPC - 1
  words : ∀ (k : Nat) (hk : k < l.words.length),
    (r.kernel.processTable i).context.rb + k ≤ (r.kernel.processTable i).context.rl ∧
      r.hw.ram ((r.kernel.processTable i).context.rb + k) = l.words[k]

/-- A successful creation makes its process from the program its name stands for. -/
theorem Stocked.made {r : System} (h : Stocked s log shelf)
    (hc : createProcess host u p s = (.success, r)) :
    ∃ l i, (shelf.fetch host u p).find p = some l ∧ MadeFrom l i s r := by
  have after := h.fetch host u p
  obtain ⟨unknown, known⟩ := after.lookup p
  obtain ⟨e, words, i, hmem, hentry, image⟩ := created_image after.imaged hc
  have created := create_process_created host u p s
  rw [hc] at created
  cases created with
  | refused _ hne => exact absurd rfl hne
  | made j entry start hj hfinished hload hmeta hstart hcount hend hfree =>
    cases hl : (shelf.fetch host u p).find p with
    | none =>
      rw [unknown hl] at hmeta
      cases hmeta
    | some l =>
      obtain ⟨x, hx, hfound, kept⟩ := known l hl
      obtain rfl : e = entry := Option.some.inj (hentry.symm.trans hmeta)
      obtain rfl : x.1 = e := Option.some.inj (hfound.symm.trans hmeta)
      have first := sector_words_kept after.imaged hx
      have second := sector_words_kept after.imaged hmem
      have hwords : words = l.words := second.symm.trans (first.trans kept.words)
      -- the slot that has become ready is the one that has been filled
      have same : i = j := by
        by_contra hne
        obtain ⟨-, -, hbefore, hready, -⟩ := image.slot
        dsimp only at hready
        rw [Function.update_of_ne hne, hbefore] at hready
        cases hready
      subst same
      refine ⟨l, i, rfl, ⟨image.slot.1, image.slot.2.1, image.slot.2.2.1, image.slot.2.2.2.1⟩, ?_, ?_⟩
      · simp [createdPcb, initialContext, kept.startPC]
      · intro k hk
        subst hwords
        exact (image.image k hk).symm

def SparesPrograms (s : System) (e : Event) : Prop :=
  ∀ u inst m, executed s e = some (u, inst, m) → inst.opCode = .sdmaon → m.dma.ioDirection = 1 →
    ∀ f ∈ s.vfs.diskCatalog,
      ¬ OnSectors f (linear ⟨m.dma.track, m.dma.cylinder, m.dma.sector⟩)

/-- The catalog's words survive what happens to the other sectors. -/
theorem Imaged.spared {disk' : Nat → Nat → Nat → Int} (h : Imaged v disk log)
    (hkept : ∀ x ∈ log, ∀ d, OnSectors x.1 (linear d) → wordOn disk' d = wordOn disk d) :
    Imaged v disk' log where
  catalog := h.catalog
  normal := h.normal
  capacity := h.capacity
  length := h.length
  start := h.start
  words := by
    intro x hx i hi d hd hlin
    have hlen := h.length x hx
    rw [hkept x hx d ⟨by omega, by omega⟩]
    exact h.words x hx i hi d hd hlin
  apart := h.apart

theorem Stocked.kept {t : System} (h : Stocked s log shelf) (hvfs : t.vfs = s.vfs)
    (himaged : Imaged s.vfs t.hw.disk log) : Stocked t log shelf where
  imaged := by
    rw [hvfs]
    exact himaged
  keeps := h.keeps
  used := by
    rw [hvfs]
    exact h.used

theorem Stocked.same {t : System} (h : Stocked s log shelf) (hvfs : t.vfs = s.vfs)
    (hdisk : t.hw.disk = s.hw.disk) : Stocked t log shelf := by
  refine h.kept hvfs ?_
  rw [hdisk]
  exact h.imaged

theorem tick_disk (s : System) :
    (schedulerTick s).vfs = s.vfs ∧ (schedulerTick s).hw.disk = s.hw.disk := by
  obtain ⟨cpu, k, htick⟩ := tick_kept s
  rw [htick]
  exact ⟨rfl, rfl⟩

theorem worker_vfs (u : Unspecified) (s : System) : (next s (.worker u)).vfs = s.vfs := by
  by_cases hc : s.kernel.currentActiveProcess = -1
  · rw [next_idle u hc]
    exact (tick_disk s).1
  · obtain ⟨cpu, k, hw⟩ := worker_kept u hc
    rw [hw]
    have stepped := cpu_step_stepped u s
    generalize cpuStep u s = r at stepped ⊢
    cases stepped <;> rfl

/-- A worker iteration leaves the disk as the instruction it executes leaves it. -/
theorem worker_disk (u : Unspecified) (s : System) :
    (next s (.worker u)).hw.disk = s.hw.disk ∨
      ∃ inst m, executed s (.worker u) = some (u, inst, m) ∧ m.disk = s.hw.disk ∧
        (next s (.worker u)).hw.disk = (handler u inst m).2.disk := by
  by_cases hc : s.kernel.currentActiveProcess = -1
  · left
    rw [next_idle u hc]
    exact (tick_disk s).2
  · obtain ⟨cpu, k, hw⟩ := worker_kept u hc
    rw [hw]
    cases hf : fetched s.hw with
    | none =>
      left
      rw [cpu_step_unfetched u hf]
    | some x =>
      obtain ⟨inst, m⟩ := x
      right
      refine ⟨inst, m, executed_of_fetched hc hf, ?_, ?_⟩
      · obtain ⟨w, -, -, hm, -⟩ := fetched_machine hf
        rw [hm]
      · rw [cpu_step_fetched u hf]
        dsimp only
        rw [(check_interrupts_device u _).2]
        exact (after_instruction_ram u inst m).2

/-- An instruction changes at most the one sector the device is programmed to write. -/
theorem handler_writes (u : Unspecified) (inst : Instruction) (m : Machine) (d : Digits)
    (hkept : inst.opCode = .sdmaon → m.dma.ioDirection = 1 →
      d ≠ ⟨m.dma.track, m.dma.cylinder, m.dma.sector⟩) :
    wordOn (handler u inst m).2.disk d = wordOn m.disk d := by
  by_cases hon : inst.opCode = .sdmaon
  · have moves := sdmaon_moves u m hon
    unfold Moves at moves
    split_ifs at moves with hvalid hd
    · have hne := hkept hon hd
      rw [moves.2, wordOn, storeSector]
      refine if_neg ?_
      rintro ⟨ht, hc, hs⟩
      exact hne (Digits.ext ht hc hs)
    · rw [moves.2]
    · rw [moves.2]
  · rw [handler_disk u m hon]

theorem Stocked.worker (h : Stocked s log shelf) (hspare : SparesPrograms s (.worker u)) :
    Stocked (next s (.worker u)) log shelf := by
  rcases worker_disk u s with hsame | ⟨inst, m, hex, hm, hdisk⟩
  · exact h.same (worker_vfs u s) hsame
  · refine h.kept (worker_vfs u s) (h.imaged.spared ?_)
    intro x hx d hon
    rw [hdisk, ← hm]
    refine handler_writes u inst m d ?_
    rintro hop hd rfl
    refine hspare u inst m hex hop hd x.1 ?_ hon
    rw [h.imaged.catalog]
    exact List.mem_map_of_mem hx

/-- What one event does to the catalog and the disk, it does to the shelf. -/
theorem Stocked.next {e : Event} (h : Stocked s log shelf) (hspare : SparesPrograms s e) :
    ∃ log', Stocked (Lucario.next s e) log' (shelf.next s e) := by
  cases e with
  | create host u p =>
    dsimp only [Shelf.next]
    by_cases hslot : getFreePCBIndex s.kernel = -1
    · rw [if_pos hslot]
      refine ⟨log, h.same ?_ ?_⟩ <;>
      · simp [Lucario.next, createProcess, hslot]
    · rw [if_neg hslot]
      obtain ⟨hvfs, hdisk⟩ := create_process_disk host u p hslot
      exact ⟨_, (h.fetch host u p).same hvfs hdisk⟩
  | worker u => exact ⟨log, h.worker hspare⟩
  | monitor active => exact ⟨log, h.same rfl rfl⟩
  | restart => exact ⟨log, h.same rfl rfl⟩

theorem shelf_fetch_grows (host : Host) (u : Unspecified) (p : List Char) (shelf : Shelf) :
    shelf.loads <+: (shelf.fetch host u p).loads := by
  unfold Shelf.fetch
  split
  · dsimp only
    split_ifs
    · exact List.prefix_rfl
    · exact List.prefix_append _ _
    · exact List.prefix_rfl
  · exact List.prefix_rfl

theorem shelf_grows (s : System) (e : Event) (shelf : Shelf) :
    shelf.loads <+: (shelf.next s e).loads := by
  unfold Shelf.next
  split
  · split_ifs
    · exact List.prefix_rfl
    · exact shelf_fetch_grows _ _ _ _
  · exact List.prefix_rfl

/-- What a name stands for, it stands for on every longer shelf. -/
theorem find_stable {shelf' : Shelf} {l : Load} (hgrown : shelf.loads <+: shelf'.loads)
    (h : shelf.find p = some l) : shelf'.find p = some l := by
  obtain ⟨more, hmore⟩ := hgrown
  rw [Shelf.find] at h
  rw [Shelf.find, ← hmore, List.find?_append, h]
  rfl

end

def shelvedAt (keyboard : Nat → Int) (es : List Event) (k : Nat) : System × Shelf :=
  Trace.stateAt (fun x e => (next x.1 e, x.2.next x.1 e)) (boot keyboard, ⟨[], 0⟩) es k

section

variable {keyboard : Nat → Int} {es : List Event}

theorem boot_stocked (keyboard : Nat → Int) : Stocked (boot keyboard) [] ⟨[], 0⟩ where
  imaged := by
    have empty : (boot keyboard).vfs = Vfs.empty := rfl
    rw [empty]
    exact empty_imaged _
  keeps := .nil
  used := by
    have empty : (boot keyboard).vfs = Vfs.empty := rfl
    rw [empty]
    rfl

theorem shelved_system (k : Nat) :
    (shelvedAt keyboard es k).1 = Trace.stateAt next (boot keyboard) es k := by
  refine Simulation.run_related (fun (x : System × Shelf) s => x.1 = s) ?_ rfl
  rintro x s e - rfl
  rfl

theorem shelved_stocked
    (hspare : ∀ k e, es[k]? = some e → SparesPrograms (Trace.stateAt next (boot keyboard) es k) e)
    {k : Nat} (hk : k ≤ es.length) :
    ∃ log, Stocked (shelvedAt keyboard es k).1 log (shelvedAt keyboard es k).2 := by
  refine Trace.stateAt_window (fun x : System × Shelf => ∃ log, Stocked x.1 log x.2)
    (Nat.zero_le k) hk ?_ ?_
  · exact ⟨[], boot_stocked keyboard⟩
  · rintro j e - - he ⟨log, stocked⟩
    have hspared := hspare j e he
    rw [← shelved_system] at hspared
    exact stocked.next hspared

theorem shelved_grows {j k : Nat} (hjk : j ≤ k) (hk : k ≤ es.length) :
    (shelvedAt keyboard es j).2.loads <+: (shelvedAt keyboard es k).2.loads := by
  refine Trace.stateAt_window
    (fun x : System × Shelf => (shelvedAt keyboard es j).2.loads <+: x.2.loads) hjk hk
    List.prefix_rfl ?_
  intro n e _ _ _ hgrown
  exact hgrown.trans (shelf_grows _ _ _)

end

/-- As long as transfers keep off the programs, the disk is a store to which programs are only
added: a creation succeeds or fails as the store says, its process is made from what the store has
under the name, and that never changes again, whatever becomes of the host's file. -/
theorem disk_is_write_once {keyboard : Nat → Int} {es : List Event}
    (hspare : ∀ k e, es[k]? = some e → SparesPrograms (Trace.stateAt next (boot keyboard) es k) e)
    {k : Nat} (hk : k ≤ es.length) :
    (∃ log, Stocked (Trace.stateAt next (boot keyboard) es k) log (shelvedAt keyboard es k).2) ∧
      (∀ host u p,
        (createProcess host u p (Trace.stateAt next (boot keyboard) es k)).1 =
          creationStatus (Trace.stateAt next (boot keyboard) es k).kernel
            (((shelvedAt keyboard es k).2.fetch host u p).find p) ∧
        ((createProcess host u p (Trace.stateAt next (boot keyboard) es k)).1 = .success →
          ∃ l i, ((shelvedAt keyboard es k).2.fetch host u p).find p = some l ∧
            MadeFrom l i (Trace.stateAt next (boot keyboard) es k)
              (createProcess host u p (Trace.stateAt next (boot keyboard) es k)).2)) ∧
      ∀ j ≤ k, ∀ p l, (shelvedAt keyboard es j).2.find p = some l →
        (shelvedAt keyboard es k).2.find p = some l := by
  obtain ⟨log, stocked⟩ := shelved_stocked hspare hk
  rw [shelved_system] at stocked
  refine ⟨⟨log, stocked⟩, ?_, ?_⟩
  · intro host u p
    refine ⟨stocked.status host u p, ?_⟩
    intro hsuccess
    exact stocked.made (Prod.ext hsuccess rfl)
  · intro j hj p l hl
    exact find_stable (shelved_grows hj hk) hl

/-- The device is not set to write. -/
theorem spares_of_direction {s : System} (e : Event) (hd : s.hw.dma.ioDirection ≠ 1) :
    SparesPrograms s e := by
  rintro u inst m hex - hm
  obtain ⟨-, -, hf⟩ := executed_worker hex
  obtain ⟨w, -, -, rfl, -⟩ := fetched_machine hf
  exact absurd hm hd

/-- The program of the first reader is still what its name stands for after the host's file has
been replaced by one of a single word. -/
theorem disk_is_write_once_replaced : ∃ l i,
    l.file = "_start 1\n.N 4\n.P A\n06000000\n06000000\n06000000\n06000000\n".toList ∧
      MadeFrom l i (Trace.stateAt next (boot zeroKeys) (readers 3) 5)
        (createProcess (hostOf "_start 1\n.N 1\n.P C\n00000000\n" "") zeros ['a']
          (Trace.stateAt next (boot zeroKeys) (readers 3) 5)).2 := by
  have directions : ∀ k < 5,
      (Trace.stateAt next (boot zeroKeys) (readers 3) k).hw.dma.ioDirection ≠ 1 := by
    decide +kernel
  have spare : ∀ k e, (readers 3)[k]? = some e →
      SparesPrograms (Trace.stateAt next (boot zeroKeys) (readers 3) k) e := by
    intro k e he
    obtain ⟨hk, -⟩ := List.getElem?_eq_some_iff.mp he
    exact spares_of_direction e (directions k hk)
  obtain ⟨-, created, -⟩ := disk_is_write_once spare (k := 5) (by decide)
  obtain ⟨-, made⟩ := created (hostOf "_start 1\n.N 1\n.P C\n00000000\n" "") zeros ['a']
  obtain ⟨l, i, hl, hmade⟩ := made (by decide +kernel)
  refine ⟨l, i, ?_, hmade⟩
  have file := congrArg (Option.map Load.file) hl
  have first : (((shelvedAt zeroKeys (readers 3) 5).2.fetch
      (hostOf "_start 1\n.N 1\n.P C\n00000000\n" "") zeros ['a']).find ['a']).map Load.file =
      some "_start 1\n.N 4\n.P A\n06000000\n06000000\n06000000\n06000000\n".toList := by
    decide +kernel
  exact Option.some.inj (file.symm.trans first)

end Lucario.Proofs
