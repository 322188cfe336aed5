import Lucario.Debugger
import Lucario.Proofs.ProgramImage

namespace Lucario.Proofs

/-- A load for the debugger that fails leaves the registers and memory as they were. -/
def LoadRestores (host : Host) (path : List Char) (m : Machine) : Prop :=
  (loadProgram host path m).1 ≠ .success →
    (loadProgram host path m).2.cpu = m.cpu ∧ (loadProgram host path m).2.ram = m.ram

def accepted (words : List Int) : List Int := words.takeWhile (fun w => isValidInstruction w)

def storeWords : Int → List Int → (Int → Int) → Int → Int
  | _, [], ram => ram
  | a, w :: words, ram => storeWords (a + 1) words (Function.update ram a w)

/-- Where the load changes nothing before it fails: in kernel mode, with a header that asks for
too much or the accepted words in memory already. -/
def LoadHarmless (host : Host) (path : List Char) (m : Machine) : Prop :=
  ∀ file, host path = some file →
    if ramSize < osReservedSize + minStackSize + (programInfo file).1.wordCount then
      m.cpu.psw.mode = .kernel
    else
      let words := delivered (programInfo file).1.wordCount.toNat (programInfo file).2
      accepted words ≠ words → m.cpu.psw.mode = .kernel ∧
        ∀ i (hi : i < (accepted words).length), m.ram (osReservedSize + i) = (accepted words)[i]

theorem store_words_outside (words : List Int) (a : Int) (ram : Int → Int) {x : Int} (hx : x < a) :
    storeWords a words ram x = ram x := by
  induction words generalizing a ram with
  | nil => rfl
  | cons w words ih =>
    rw [storeWords, ih _ _ (by omega)]
    exact Function.update_of_ne (by omega) _ _

theorem store_words_eq (words : List Int) (a : Int) (ram : Int → Int) :
    storeWords a words ram = ram ↔ ∀ i (hi : i < words.length), ram (a + i) = words[i] := by
  induction words generalizing a ram with
  | nil => exact iff_of_true rfl nofun
  | cons w words ih =>
    have next : (∀ i (hi : i < (w :: words).length), ram (a + i) = (w :: words)[i]) ↔
        ram a = w ∧ ∀ i (hi : i < words.length), ram (a + 1 + i) = words[i] := by
      constructor
      · intro h
        refine ⟨?_, fun i hi => ?_⟩
        · have hfirst := h 0 (by simp)
          rw [Nat.cast_zero, add_zero] at hfirst
          exact hfirst
        · rw [add_assoc, add_comm 1 (i : Int)]
          exact_mod_cast h (i + 1) (by simpa using hi)
      · rintro ⟨hfirst, hrest⟩ i hi
        cases i with
        | zero => simpa using hfirst
        | succ i =>
          have hi' := hrest i (by simpa using hi)
          rw [add_assoc, add_comm 1 (i : Int)] at hi'
          exact_mod_cast hi'
    rw [storeWords, next, ← ih]
    constructor
    · intro h
      have hfirst : ram a = w := by
        have hx := congrFun h a
        rw [store_words_outside _ _ _ (by omega), Function.update_self] at hx
        exact hx.symm
      rw [Function.update_eq_self_iff.mpr hfirst.symm] at h
      exact ⟨hfirst, h⟩
    · rintro ⟨hfirst, h⟩
      rw [Function.update_eq_self_iff.mpr hfirst.symm]
      exact h

/-- The loading loop stores the words up to the first refused one. -/
theorem load_words_eq (count : Nat) (i : Int) (file : List Char) (m : Machine)
    (hk : m.cpu.psw.mode = .kernel) (hi : 0 ≤ i) (hr : i + count ≤ 1700) :
    loadWords count i file m =
      (if accepted (delivered count file) = delivered count file then .success else .memoryError,
        { m with ram :=
          storeWords (osReservedSize + i) (accepted (delivered count file)) m.ram }) := by
  induction count generalizing i file m with
  | zero => rfl
  | succ count ih =>
    have reach : Accessible m.cpu (osReservedSize + i) := by
      push_cast at hr
      refine ⟨?_, fun h => h.1 hk⟩
      simp only [translate, if_pos hk, isPhysicalAddressValid, osReservedSize, ramSize]
      omega
    rw [loadWords, delivered]
    dsimp only
    generalize readProgramWord file = r
    obtain ⟨w, rest⟩ := r
    dsimp only
    by_cases hw : isValidInstruction w
    · have first : accepted (w :: delivered count rest) = w :: accepted (delivered count rest) := by
        simp [accepted, hw]
      have stored := ih (i + 1) rest (storeRam (osReservedSize + i) w m) hk (by omega)
        (by push_cast at hr; omega)
      rw [write_accessible reach hw, first, storeWords, add_assoc]
      simp only [translate, if_pos hk, stored, List.cons.injEq, true_and]
      rfl
    · obtain ⟨status, hs⟩ := write_refused (m := m) (a := osReservedSize + i) (fun h => hw h.2)
      rw [hs]
      simp [accepted, hw, storeWords]

/-- A failed load leaves the machine as it was exactly when `LoadHarmless` holds: it is in kernel
mode before the header is checked and stays there, and a refused word does not undo the stores
before it. -/
theorem failed_load_restores (host : Host) (path : List Char) (m : Machine) :
    LoadRestores host path m ↔ LoadHarmless host path m := by
  unfold LoadRestores LoadHarmless loadProgram
  cases host path with
  | none => exact iff_of_true (fun _ => ⟨rfl, rfl⟩) nofun
  | some file =>
    simp only [Option.some.injEq, forall_eq']
    generalize programInfo file = r
    obtain ⟨header, rest⟩ := r
    dsimp only
    have kernel : { m.cpu with psw.mode := .kernel } = m.cpu ↔ m.cpu.psw.mode = .kernel := by
      constructor
      · intro h
        rw [← h]
      · intro h
        rw [← h]
    split_ifs with hlarge
    · simp [kernel]
    · simp only [ramSize, osReservedSize, minStackSize] at hlarge
      have loaded := load_words_eq header.wordCount.toNat 0 rest
        { m with cpu.psw.mode := .kernel } rfl le_rfl (by omega)
      rw [loaded]
      by_cases hall : accepted (delivered header.wordCount.toNat rest) =
          delivered header.wordCount.toNat rest
      · simp [hall]
      · have stored := store_words_eq (accepted (delivered header.wordCount.toNat rest))
          (osReservedSize + 0) m.ram
        simp only [if_neg hall, kernel, stored]
        constructor
        · intro h _
          exact h nofun
        · intro h _
          exact h hall

def unknownOpcodeHost : Host := hostOf "_start 1\n.N 2\n.P A\n06000000\n34000000\n" ""

theorem not_failed_load_restores :
    ¬ ∀ (host : Host) (path : List Char) (m : Machine), LoadRestores host path m := by
  intro restores
  have kept := (restores unknownOpcodeHost ['a'] (boot zeroKeys).hw (by decide +kernel)).2
  exact absurd (congrFun kept 300) (by decide +kernel)

end Lucario.Proofs
