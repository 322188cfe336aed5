import Lucario.Proofs.Sessions
import Lucario.Proofs.Stores

namespace Lucario.Proofs

open Footprint

structure StackAboveProgram (c : Cpu) : Prop where
  mode : c.psw.mode = .user
  base : osReservedSize ≤ c.rb
  ordered : c.rb ≤ c.rl
  limit : c.rl < ramSize
  index : 0 ≤ c.rx
  above : c.rx ≤ c.sp
  stack : c.sp ≤ c.rl - c.rb

def RetriesCall (s : System) : Prop :=
  codeToHandle s.hw.interruptBitmap = .syscall ∧ s.monitor.active = false ∧
    (wordToInt s.hw.cpu.ac = 2 ∨ wordToInt s.hw.cpu.ac = 3)

def DeliversInput (s : System) : Prop :=
  codeToHandle s.hw.interruptBitmap = .syscall ∧ s.monitor.active = true ∧
    wordToInt s.hw.cpu.ac = 3

instance (s : System) : Decidable (RetriesCall s) := inferInstanceAs (Decidable (_ ∧ _ ∧ _))
instance (s : System) : Decidable (DeliversInput s) := inferInstanceAs (Decidable (_ ∧ _ ∧ _))

/-- What becomes of the word `old` in slot `i` of the frame: the register that is saved there, if
`writeMemory` takes it, and then the correction a system call makes to the saved PC or AC. -/
def frameWord (s : System) (i : Nat) (old : Int) : Int :=
  let saved := (frameWords s.hw.cpu).getD i 0
  let word := if isValidInstruction saved then saved else old
  if RetriesCall s ∧ i = 5 then (intToWord (wordToInt word - 1)).1
  else if DeliversInput s ∧ i = 6 then (intToWord (toInt32 (s.monitor.keyboard 0))).1
  else word

/-- The frame of an interrupt leaves the program alone: each of its seven words that reaches below
the boundary register is the word that is there already. -/
def FrameSpares (s : System) : Prop :=
  TakesInterrupt s.hw → ∀ i : Nat, i < 7 → (i : Int) < s.hw.cpu.sp →
    s.hw.cpu.sp - 1 - i < s.hw.cpu.rx →
    frameWord s i (s.hw.ram (translate s.hw.cpu (s.hw.cpu.sp - 1 - i))) =
      s.hw.ram (translate s.hw.cpu (s.hw.cpu.sp - 1 - i))

variable {s : System}

theorem StackAboveProgram.slot_accessible (h : StackAboveProgram s.hw.cpu) (i : Nat) :
    Accessible s.hw.cpu (s.hw.cpu.sp - 1 - i) ↔ (i : Int) < s.hw.cpu.sp := by
  obtain ⟨hm, hb, -, hl, -, -, hs⟩ := h
  simp only [osReservedSize, ramSize] at hb hl
  rw [accessible_user hm]
  omega

theorem StackAboveProgram.argument_accessible (h : StackAboveProgram s.hw.cpu) :
    Accessible s.hw.cpu s.hw.cpu.sp := by
  obtain ⟨hm, hb, -, hl, hx, hsp, hs⟩ := h
  simp only [osReservedSize, ramSize] at hb hl
  rw [accessible_user hm]
  omega

/-- The frame as `saveContext` leaves it. -/
theorem entered_slot {i : Nat} (hi : i < 7) (ha : Accessible s.hw.cpu (s.hw.cpu.sp - 1 - i)) :
    (entered s).hw.ram (translate s.hw.cpu (s.hw.cpu.sp - 1 - i)) =
      if isValidInstruction ((frameWords s.hw.cpu).getD i 0) then
        (frameWords s.hw.cpu).getD i 0
      else s.hw.ram (translate s.hw.cpu (s.hw.cpu.sp - 1 - i)) := by
  have slot := push_all_slot (frameWords (interrupted s.hw).cpu) (interrupted s.hw) i hi ha
  rw [← saveContext_eq] at slot
  have word : (frameWords s.hw.cpu).getD i 0 = (frameWords s.hw.cpu)[i] := by
    rw [List.getD, List.getElem?_eq_getElem hi]
    rfl
  rw [word]
  exact slot

/-- The one word a system call may store into its frame. -/
theorem syscall_ram (u : Unspecified) (hp : Accessible s.hw.cpu (s.hw.cpu.sp + 7)) :
    (handleSyscall u s).2.hw.ram =
      if s.monitor.active = false ∧ (wordToInt s.hw.cpu.ac = 2 ∨ wordToInt s.hw.cpu.ac = 3) then
        (retryAfterMonitor u s).hw.ram
      else if s.monitor.active = true ∧ wordToInt s.hw.cpu.ac = 3 then (readFromMonitor s).hw.ram
      else s.hw.ram := by
  unfold handleSyscall
  dsimp only
  rw [read_accessible hp]
  split
  case h_1 hac => simp [hac]
  case h_2 hac => cases hact : s.monitor.active <;> simp [hac]
  case h_3 hac => cases hact : s.monitor.active <;> simp [hac]
  case h_4 hac =>
    rw [if_neg (by simp [hac]), if_neg (by simp [hac])]
    dsimp only
    split_ifs <;> rfl
  case h_5 h2 h3 _ =>
    rw [if_neg (fun h => h.2.elim h2 h3), if_neg (fun h => h3 h.2)]

theorem retry_ram (u : Unspecified) (s : System) :
    (retryAfterMonitor u s).hw.ram =
      if Accessible s.hw.cpu (s.hw.cpu.sp + 1) then
        Function.update s.hw.ram (translate s.hw.cpu (s.hw.cpu.sp + 1))
          (intToWord (wordToInt (s.hw.ram (translate s.hw.cpu (s.hw.cpu.sp + 1))) - 1)).1
      else s.hw.ram := by
  unfold retryAfterMonitor
  dsimp only [System.modifyProcess]
  rw [read_or_default, write_or_unchanged]
  by_cases ha : Accessible s.hw.cpu (s.hw.cpu.sp + 1)
  · simp only [if_pos ha]
    rw [if_pos ⟨ha, int_to_word_valid _⟩]
    rfl
  · simp only [if_neg ha]
    rw [if_neg (fun h => ha h.1)]

theorem input_ram (s : System) :
    (readFromMonitor s).hw.ram =
      if Accessible s.hw.cpu s.hw.cpu.sp then
        Function.update s.hw.ram (translate s.hw.cpu s.hw.cpu.sp)
          (intToWord (toInt32 (s.monitor.keyboard 0))).1
      else s.hw.ram := by
  unfold readFromMonitor
  dsimp only
  rw [write_or_unchanged]
  by_cases ha : Accessible s.hw.cpu s.hw.cpu.sp
  · rw [if_pos ha, if_pos ⟨ha, int_to_word_valid _⟩]
    rfl
  · rw [if_neg ha, if_neg (fun h => ha h.1)]

/-- RAM after a taken interrupt is what its handler left. -/
theorem taken_ram (u : Unspecified) (hs : TakesInterrupt s.hw) :
    (checkInterrupts u s).2.hw.ram =
      (handleInterrupt u (codeToHandle s.hw.interruptBitmap) (entered s)).2.hw.ram := by
  rw [check_interrupts_taken u hs.1 hs.2, leave_ram]

theorem handle_interrupt_ram (u : Unspecified) {code : InterruptCode} (hc : code ≠ .syscall)
    (s : System) : (handleInterrupt u code s).2.hw.ram = s.hw.ram := by
  cases code
  case syscall => exact absurd rfl hc
  all_goals rfl

/-- Only a system call touches RAM in its handler. -/
theorem handled_ram (u : Unspecified) (h : StackAboveProgram s.hw.cpu) :
    (handleInterrupt u (codeToHandle s.hw.interruptBitmap) (entered s)).2.hw.ram =
      if RetriesCall s then (retryAfterMonitor u (entered s)).hw.ram
      else if DeliversInput s then (readFromMonitor (entered s)).hw.ram
      else (entered s).hw.ram := by
  by_cases hcode : codeToHandle s.hw.interruptBitmap = .syscall
  · have argument : Accessible (entered s).hw.cpu ((entered s).hw.cpu.sp + 7) := by
      rw [accessible_congr (entered_view s), entered_sp, Int.sub_add_cancel]
      exact h.argument_accessible
    have call := syscall_ram u argument
    rw [entered_accumulator] at call
    have handled : (handleInterrupt u .syscall (entered s)).2.hw.ram =
        (handleSyscall u (entered s)).2.hw.ram := by
      rw [handleInterrupt]
      split <;> rename_i hr <;> simp only [hr, System.setYield]
    rw [hcode, handled, call]
    simp only [RetriesCall, DeliversInput, hcode, true_and]
    rfl
  · rw [handle_interrupt_ram u hcode]
    simp [RetriesCall, DeliversInput, hcode]

/-- What a store into one slot of a frame does to another. -/
theorem store_in_slot {c : Cpu} {i j : Nat} {p : Prop} [Decidable p] (hp : i = j → p)
    (f : Int → Int) (v : Int) :
    (if p then Function.update f (translate c (c.sp - 1 - j)) v else f)
        (translate c (c.sp - 1 - i)) =
      if i = j then v else f (translate c (c.sp - 1 - i)) := by
  by_cases hij : i = j
  · subst hij
    rw [if_pos (hp rfl), if_pos rfl, Function.update_self]
  · rw [if_neg hij]
    split_ifs
    · apply Function.update_of_ne
      intro he
      have := translate_injective he
      omega
    · rfl

/-- What a taken interrupt leaves in the slots of its frame. -/
theorem check_interrupts_slot (u : Unspecified) (h : StackAboveProgram s.hw.cpu)
    (ht : TakesInterrupt s.hw) {i : Nat} (hi : i < 7) (hsp : (i : Int) < s.hw.cpu.sp) :
    (checkInterrupts u s).2.hw.ram (translate s.hw.cpu (s.hw.cpu.sp - 1 - i)) =
      frameWord s i (s.hw.ram (translate s.hw.cpu (s.hw.cpu.sp - 1 - i))) := by
  have view := entered_view s
  have reached := (h.slot_accessible i).mpr hsp
  have saved := entered_slot hi reached
  have hac : (entered s).hw.cpu.sp = s.hw.cpu.sp - 1 - ((6 : Nat) : Int) := by
    rw [entered_sp]
    omega
  have hpc : (entered s).hw.cpu.sp + 1 = s.hw.cpu.sp - 1 - ((5 : Nat) : Int) := by
    rw [entered_sp]
    omega
  rw [taken_ram u ht, handled_ram u h]
  unfold frameWord
  dsimp only
  rw [← saved]
  by_cases hr : RetriesCall s
  · have hd : ¬ DeliversInput s := fun hd => by simp [hr.2.1, DeliversInput] at hd
    rw [if_pos hr, retry_ram, hpc, translate_congr view, store_in_slot]
    · simp only [hr, hd, true_and, false_and, if_false]
      split_ifs with h5
      · rw [h5]
      · rfl
    · rintro rfl
      exact (accessible_congr view _).mpr reached
  · rw [if_neg hr]
    by_cases hd : DeliversInput s
    · rw [if_pos hd, input_ram, hac, translate_congr view, store_in_slot]
      · simp only [hr, hd, true_and, false_and, if_false]
        rfl
      · rintro rfl
        exact (accessible_congr view _).mpr reached
    · simp only [hr, hd, false_and, if_false]

/-- A taken interrupt leaves the words below the boundary register alone exactly when its frame
does: unlike PSH, the pushes of `saveContext` do not stop there. -/
theorem interrupts_spare_program (u : Unspecified) (h : StackAboveProgram s.hw.cpu) :
    (∀ a < s.hw.cpu.rx, (checkInterrupts u s).2.hw.ram (translate s.hw.cpu a) =
      s.hw.ram (translate s.hw.cpu a)) ↔ FrameSpares s := by
  constructor
  · intro hkept ht i hi hsp hrx
    rw [← check_interrupts_slot u h ht hi hsp]
    exact hkept _ hrx
  · intro hspares a ha
    rcases check_interrupts_stores u s (translate s.hw.cpu a) with hsame | ⟨ht, hframe⟩
    · exact hsame
    · have slot : ∃ i : Nat, i < 7 ∧ (i : Int) < s.hw.cpu.sp ∧ a = s.hw.cpu.sp - 1 - i := by
        rcases hframe with ⟨i, hi, hacc, -, heq, -⟩ | ⟨k, v, hk, hacc, -, heq, -⟩
        · exact ⟨i, hi, (h.slot_accessible i).mp hacc, translate_injective heq⟩
        · have below : s.hw.cpu.sp - k = s.hw.cpu.sp - 1 - ((k - 1).toNat : Nat) := by omega
          rw [below] at hacc heq
          exact ⟨(k - 1).toNat, by omega, (h.slot_accessible _).mp hacc, translate_injective heq⟩
      obtain ⟨i, hi, hsp, rfl⟩ := slot
      rw [check_interrupts_slot u h ht hi hsp]
      exact hspares ht i hi hsp ha

def stackAt (sp : Int) : System :=
  { boot zeroKeys with hw := { (boot zeroKeys).hw with
    cpu := { Cpu.zero with rb := 300, rl := 384, rx := 10, sp := sp, psw.interruptEnable := .enabled }
    interruptBitmap := {.timer} } }

theorem stack_at_above {sp : Int} (hl : 10 ≤ sp) (hu : sp ≤ 84) :
    StackAboveProgram (stackAt sp).hw.cpu where
  mode := rfl
  base := le_refl (300 : Int)
  ordered := show (300 : Int) ≤ 384 by decide
  limit := show (384 : Int) < 2000 by decide
  index := show (0 : Int) ≤ 10 by decide
  above := hl
  stack := hu

theorem interrupts_spare_program_room :
    (checkInterrupts zeros (stackAt 17)).2.hw.ram (translate (stackAt 17).hw.cpu 9) =
      (stackAt 17).hw.ram (translate (stackAt 17).hw.cpu 9) := by
  refine (interrupts_spare_program zeros (stack_at_above (by decide) (by decide))).mpr ?_ 9
    (by decide)
  intro _ i hi _ hrx
  change (17 : Int) - 1 - i < 10 at hrx
  omega

/-- With only two words free the frame replaces the last five words of the program. -/
theorem not_interrupts_spare_program :
    ¬ ∀ (u : Unspecified) (s : System), StackAboveProgram s.hw.cpu → s.hw.interruptBitmap ≠ ∅ →
      ∀ a < s.hw.cpu.rx, (checkInterrupts u s).2.hw.ram (translate s.hw.cpu a) =
        s.hw.ram (translate s.hw.cpu a) := by
  intro spared
  have kept := spared zeros (stackAt 12) (stack_at_above (by decide) (by decide)) (by decide) 9
    (by decide)
  exact absurd kept (by decide)

end Lucario.Proofs
