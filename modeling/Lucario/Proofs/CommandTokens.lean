import Lucario.Proofs.Trimming

namespace Lucario.Proofs

open Words

def HasString (array : List Char) (p : Nat) (s : List Char) : Prop :=
  ∃ tail, array.drop p = s ++ '\x00' :: tail

def Faces (t : Tokenizer) (ws : List (List Char)) : Prop :=
  HasString t.array t.position ([' '].intercalate ws)

def Uncut (ws : List (List Char)) : Prop :=
  ∀ w ∈ ws, w ≠ [] ∧ ∀ c ∈ w, c ≠ '\x00' ∧ isSeparator c = false

variable {array s w : List Char} {ws : List (List Char)} {p q : Nat} {t : Tokenizer}

theorem char_at_drop {front behind : List Char} {c : Char}
    (h : array.drop p = front ++ c :: behind) : charAt array (p + front.length) = c := by
  have hat : charAt (array.drop p) front.length = c := by rw [h, char_at_end]
  simpa [charAt, List.getD_eq_getElem?_getD] using hat

theorem set_null (h : charAt array p = '\x00') : array.set p '\x00' = array := by
  refine List.ext_getElem? ?_
  intro i
  rcases eq_or_ne p i with rfl | hne
  · rcases lt_or_ge p array.length with hlt | hge
    · simpa [charAt, List.getElem?_set, hlt] using h.symm
    · simp [hge]
  · exact List.getElem?_set_ne hne

theorem HasString.string_at (h : HasString array p s) (hs : '\x00' ∉ s) : stringAt array p = s := by
  obtain ⟨tail, h⟩ := h
  have hfree : ∀ c ∈ s, decide (c ≠ '\x00') = true := by
    intro c hc
    simpa using ne_of_mem_of_not_mem hc hs
  rw [stringAt, cString, h, List.takeWhile_append_of_pos hfree]
  simp

/-- A null behind a string does not change it. -/
theorem HasString.set (h : HasString array p s) (hq : p + s.length ≤ q) :
    HasString (array.set q '\x00') p s := by
  obtain ⟨tail, h⟩ := h
  have hp : ¬ q < p := by omega
  rw [HasString, List.drop_set, if_neg hp, h, List.set_append_right _ _ (by omega)]
  cases hd : q - p - s.length with
  | zero => exact ⟨tail, rfl⟩
  | succ d => exact ⟨tail.set d '\x00', rfl⟩

theorem words_free (h : Uncut ws) : '\x00' ∉ [' '].intercalate ws := by
  intro hmem
  rcases mem_intercalate hmem with hspace | ⟨w, hw, hc⟩
  · exact absurd hspace (by decide)
  · exact ((h w hw).2 _ hc).1 rfl

theorem strtok_end (h : Faces t []) : strtok t = (none, t) := by
  have hstring := h.string_at (by simp)
  obtain ⟨tail, h⟩ := h
  have hend := char_at_drop h
  simp only [List.intercalate_nil, List.length_nil, Nat.add_zero] at hstring hend
  simp [strtok, hstring, hend]

/-- The next token is the word the tokenizer faces; a null closes it. -/
theorem strtok_word (hw : Uncut (w :: ws)) (h : Faces t (w :: ws)) :
    ∃ next, strtok t = (some t.position, ⟨t.array.set (t.position + w.length) '\x00', next⟩) ∧
      t.position + w.length ≤ next ∧
      Faces ⟨t.array.set (t.position + w.length) '\x00', next⟩ ws := by
  have hstring := h.string_at (words_free hw)
  obtain ⟨tail, h⟩ := h
  rw [intercalate_spaced] at hstring h
  obtain ⟨hne, hfree⟩ := hw w (by simp)
  have hstart : (w ++ spaced ' ' ws).takeWhile isSeparator = [] ∧
      charAt t.array t.position ≠ '\x00' := by
    obtain ⟨c, word, rfl⟩ := List.exists_cons_of_ne_nil hne
    obtain ⟨hnull, hc⟩ := hfree c (by simp)
    have hat : charAt t.array (t.position + ([] : List Char).length) = c :=
      char_at_drop (by simpa using h)
    rw [List.length_nil, Nat.add_zero] at hat
    exact ⟨by simp [hc], by simpa [hat] using hnull⟩
  have hstop : (w ++ spaced ' ' ws).takeWhile (fun c => ! isSeparator c) = w := by
    have hword : ∀ c ∈ w, (! isSeparator c) = true := by
      intro c hc
      simp [(hfree c hc).2]
    rw [List.takeWhile_append_of_pos hword]
    cases ws with
    | nil => simp [spaced]
    | cons v ws => simp [spaced, isSeparator]
  cases ws with
  | nil =>
    have hend : charAt t.array (t.position + w.length) = '\x00' := by
      simp only [spaced, List.flatMap_nil, List.append_nil] at h
      exact char_at_drop h
    refine ⟨t.position + w.length, ?_, le_rfl, ?_⟩
    · simp [strtok, hstring, hstart, hstop, hend, set_null hend]
    · refine ⟨tail, ?_⟩
      rw [set_null hend, ← List.drop_drop, h]
      simp [spaced]
  | cons v ws =>
    have hspace : charAt t.array (t.position + w.length) = ' ' := by
      simp only [spaced, List.flatMap_cons, List.append_assoc, List.cons_append] at h
      exact char_at_drop h
    refine ⟨t.position + w.length + 1, ?_, by omega, ?_⟩
    · simp [strtok, hstring, hstart, hstop, hspace]
    · refine ⟨tail, ?_⟩
      dsimp only
      rw [List.drop_set_of_lt (by omega), Nat.add_assoc, ← List.drop_drop, h, intercalate_spaced,
        List.append_assoc]
      simp [spaced]

/-- What `strtok` returned and what it still faces are these words. -/
inductive Reads (t : Tokenizer) : Option Nat → List (List Char) → Prop where
  | done (faced : Faces t []) : Reads t none []
  | token (p : Nat) (w : List Char) (ws : List (List Char)) (held : HasString t.array p w)
      (passed : p + w.length ≤ t.position) (faced : Faces t ws) : Reads t (some p) (w :: ws)

def Keeps (t t' : Tokenizer) : Prop :=
  ∀ p s, HasString t.array p s → p + s.length ≤ t.position →
    HasString t'.array p s ∧ p + s.length ≤ t'.position

theorem strtok_reads (hw : Uncut ws) (h : Faces t ws) :
    Reads (strtok t).2 (strtok t).1 ws ∧ Keeps t (strtok t).2 := by
  cases ws with
  | nil =>
    rw [strtok_end h]
    exact ⟨.done h, fun _ _ hs hp => ⟨hs, hp⟩⟩
  | cons w ws =>
    obtain ⟨next, heq, hnext, hfaces⟩ := strtok_word hw h
    obtain ⟨tail, hword⟩ := h
    rw [intercalate_spaced] at hword
    rw [heq]
    constructor
    · refine .token _ w ws ?_ hnext hfaces
      have hp : ¬ t.position + w.length < t.position := by omega
      cases ws <;> simp [HasString, List.drop_set, hword, spaced, hp]
    · intro p s hs hp
      exact ⟨hs.set (by omega), by dsimp only; omega⟩

/-- The token loop has filled the slots from `n` on with the words, as far as there was room. -/
structure Fills (room n : Nat) (ws : List (List Char)) (args : Nat → Option Nat)
    (t : Tokenizer) (r : Tokenizer × (Nat → Option Nat) × Nat) : Prop where
  count : r.2.2 = n + min room ws.length
  filled : ∀ i w, i < room → ws[i]? = some w →
    ∃ p, r.2.1 (n + i) = some p ∧ HasString r.1.array p w
  others : ∀ i, i < n ∨ n + min room ws.length ≤ i → r.2.1 i = args i
  kept : ∀ p s, HasString t.array p s → p + s.length ≤ t.position → HasString r.1.array p s

theorem parse_arguments_fills {token : Option Nat} (room : Nat) (hw : Uncut ws)
    (h : Reads t token ws) (args : Nat → Option Nat) (n : Nat) :
    Fills room n ws args t (parseArguments room token t args n) := by
  induction room generalizing token t ws args n with
  | zero =>
    have heq : parseArguments 0 token t args n = (t, args, n) := by simp [parseArguments]
    rw [heq]
    exact ⟨by simp, by simp, fun _ _ => rfl, fun _ _ hs _ => hs⟩
  | succ room ih =>
    cases h with
    | done faced =>
      have heq : parseArguments (room + 1) none t args n = (t, args, n) := by
        simp [parseArguments]
      rw [heq]
      exact ⟨by simp, by simp, fun _ _ => rfl, fun _ _ hs _ => hs⟩
    | token p w ws held passed faced =>
      have hrest : Uncut ws := fun v hv => hw v (by simp [hv])
      obtain ⟨reads, keeps⟩ := strtok_reads hrest faced
      have fills := ih hrest reads (Function.update args n (some p)) (n + 1)
      have hkept : ∀ q s, HasString t.array q s → q + s.length ≤ t.position →
          HasString (parseArguments room (strtok t).1 (strtok t).2
            (Function.update args n (some p)) (n + 1)).1.array q s := by
        intro q s hs hq
        obtain ⟨hs, hq⟩ := keeps q s hs hq
        exact fills.kept q s hs hq
      constructor
      case count =>
        have := fills.count
        simp only [parseArguments, List.length_cons]
        omega
      case filled =>
        intro i v hi hv
        cases i with
        | zero =>
          cases hv
          refine ⟨p, ?_, hkept p w held passed⟩
          simp [parseArguments, fills.others n (Or.inl (by omega))]
        | succ i =>
          obtain ⟨q, hq, hs⟩ := fills.filled i v (by omega) (by simpa using hv)
          refine ⟨q, ?_, hs⟩
          simpa [parseArguments, Nat.add_assoc, Nat.add_comm 1] using hq
      case others =>
        intro i hi
        simp only [List.length_cons] at hi
        simp only [parseArguments]
        rw [fills.others i (by omega), Function.update_of_ne (by omega)]
      case kept => exact hkept

def lineWords (line : List Char) : List (List Char) :=
  words isspace (line.takeWhile (fun c => c ≠ '\n'))

/-- The first word is the command and the following ones the arguments, each a string in the
line. -/
structure Tokenized (ws : List (List Char)) (r : CommandStatus × CommandLine) : Prop where
  blank : ws = [] → r.1 = .empty ∧ r.2.argCount = 0
  command : ∀ name operands, ws = name :: operands →
    r.1 = .success ∧ r.2.command = name.take 19 ∧
      r.2.argCount = min operands.length (2 * maxProcesses)
  arguments : ∀ i < r.2.argCount, ∃ p, r.2.args i = some p ∧
    ws[i + 1]? = some (stringAt r.2.input p)

theorem line_words_uncut {line : List Char} (hnull : '\x00' ∉ line) : Uncut (lineWords line) := by
  intro w hw
  have hline : '\x00' ∉ line.takeWhile (fun c => c ≠ '\n') :=
    fun h => hnull (List.takeWhile_subset _ h)
  obtain ⟨hne, hfree⟩ := word_characters hline hw
  refine ⟨hne, ?_⟩
  intro c hc
  obtain ⟨hc, hspace⟩ := hfree c hc
  simp only [isspace, Bool.or_eq_false_iff] at hspace
  exact ⟨hc, by simp [isSeparator, hspace]⟩

/-- The line the tokens are read from: cut at its newline and trimmed. -/
theorem trimmed_line {line : List Char} (hnull : '\x00' ∉ line) (rest : List Char) :
    ∃ tail, trimWhitespace ((line ++ '\x00' :: rest).set
        ((cString (line ++ '\x00' :: rest)).takeWhile (fun c => c ≠ '\n')).length '\x00') =
      [' '].intercalate (lineWords line) ++ '\x00' :: tail := by
  have hstring : HasString (line ++ '\x00' :: rest) 0 line := ⟨rest, rfl⟩
  have hline : cString (line ++ '\x00' :: rest) = line := hstring.string_at hnull
  have hcut : ∃ behind, (line ++ '\x00' :: rest).set
      (line.takeWhile (fun c => c ≠ '\n')).length '\x00' =
        line.takeWhile (fun c => c ≠ '\n') ++ '\x00' :: behind := by
    have hsplit : line = line.takeWhile (fun c => c ≠ '\n') ++ line.dropWhile (fun c => c ≠ '\n') :=
      List.takeWhile_append_dropWhile.symm
    generalize line.takeWhile (fun c => c ≠ '\n') = front at hsplit ⊢
    generalize line.dropWhile (fun c => c ≠ '\n') = back at hsplit
    subst hsplit
    cases back with
    | nil => exact ⟨rest, by simp⟩
    | cons c back => exact ⟨back ++ '\x00' :: rest, by simp⟩
  obtain ⟨behind, hcut⟩ := hcut
  have hfront : '\x00' ∉ line.takeWhile (fun c => c ≠ '\n') :=
    fun h => hnull (List.takeWhile_subset _ h)
  obtain ⟨junk, htrim, -⟩ := trim_whitespace_words hfront behind
  exact ⟨junk ++ behind, by rw [hline, hcut, htrim, lineWords]⟩

/-- One round of the console: the words of the line, in the slots it fills. -/
theorem parse_input_tokens {line : List Char} (hnull : '\x00' ∉ line) (rest : List Char)
    (args : Nat → Option Nat) :
    Tokenized (lineWords line) (parseInput (line ++ '\x00' :: rest) args) ∧
      ∀ i, (parseInput (line ++ '\x00' :: rest) args).2.argCount ≤ i →
        (parseInput (line ++ '\x00' :: rest) args).2.args i = args i := by
  obtain ⟨tail, htrim⟩ := trimmed_line hnull rest
  have huncut := line_words_uncut hnull
  generalize lineWords line = ws at htrim huncut ⊢
  have hfree := words_free huncut
  have faces : Faces ⟨[' '].intercalate ws ++ '\x00' :: tail, 0⟩ ws := ⟨tail, rfl⟩
  have hstring : cString ([' '].intercalate ws ++ '\x00' :: tail) = [' '].intercalate ws :=
    faces.string_at hfree
  unfold parseInput
  dsimp only
  rw [htrim, hstring]
  cases ws with
  | nil =>
    refine ⟨⟨fun _ => ⟨rfl, rfl⟩, nofun, ?_⟩, fun _ _ => rfl⟩
    intro i hi
    cases hi
  | cons name operands =>
    have hlength : ([' '].intercalate (name :: operands)).length ≠ 0 := by
      rw [intercalate_spaced]
      simp [(huncut name (by simp)).1]
    rw [if_neg hlength]
    obtain ⟨reads, -⟩ := strtok_reads huncut faces
    generalize strtok ⟨[' '].intercalate (name :: operands) ++ '\x00' :: tail, 0⟩ = r at reads ⊢
    obtain ⟨token, t⟩ := r
    cases reads with
    | token p _ _ held passed faced =>
      have hrest : Uncut operands := fun v hv => huncut v (by simp [hv])
      obtain ⟨next, -⟩ := strtok_reads hrest faced
      have fills := parse_arguments_fills (maxProcesses * 2) hrest next args 0
      have hname : stringAt t.array p = name :=
        held.string_at (fun h => ((huncut name (by simp)).2 _ h).1 rfl)
      dsimp only
      rw [hname]
      generalize parseArguments (maxProcesses * 2) (strtok t).1 (strtok t).2 args 0 = r at fills ⊢
      obtain ⟨t', args', argCount⟩ := r
      have hcount := fills.count
      dsimp only [Nat.zero_add] at hcount
      refine ⟨⟨nofun, ?_, ?_⟩, ?_⟩
      · rintro _ _ ⟨⟩
        refine ⟨rfl, rfl, ?_⟩
        simp only [maxProcesses] at hcount ⊢
        omega
      · intro i hi
        dsimp only at hi ⊢
        have hoperand : operands[i]? = some operands[i] := List.getElem?_eq_getElem (by omega)
        obtain ⟨q, hq, hs⟩ := fills.filled i operands[i] (by omega) hoperand
        refine ⟨q, by simpa using hq, ?_⟩
        rw [List.getElem?_cons_succ, hoperand, hs.string_at]
        exact fun h => ((hrest _ (List.getElem_mem _)).2 _ h).1 rfl
      · intro i hi
        dsimp only at hi ⊢
        exact fills.others i (by omega)

/-- Every input line is cut into its words, whatever stands behind it and in the slots; trimming
changes nothing the second time and nothing behind the end of the string. -/
theorem command_line_tokens (line rest : List Char) (hnull : '\x00' ∉ line)
    (args : Nat → Option Nat) :
    Tokenized (lineWords line) (parseInput (line ++ '\x00' :: rest) args) ∧
      trimWhitespace (trimWhitespace (line ++ '\x00' :: rest)) =
        trimWhitespace (line ++ '\x00' :: rest) ∧
      (trimWhitespace (line ++ '\x00' :: rest)).drop (line.length + 1) = rest := by
  refine ⟨(parse_input_tokens hnull rest args).1, trim_whitespace_twice hnull rest, ?_⟩
  obtain ⟨junk, htrim, hlength⟩ := trim_whitespace_words hnull rest
  generalize [' '].intercalate (words isspace line) = text at htrim hlength
  rw [htrim, ← hlength, Nat.add_assoc, ← List.drop_drop]
  simp

theorem command_line_tokens_run :
    (parseInput (" run \t a  b\n".toList ++ '\x00' :: ['x']) (fun _ => none)).2.argCount = 2 := by
  have tokens := (command_line_tokens " run \t a  b\n".toList ['x'] (by simp)
    (fun _ => none)).1
  exact (tokens.command "run".toList ["a".toList, "b".toList] rfl).2.2

end Lucario.Proofs
