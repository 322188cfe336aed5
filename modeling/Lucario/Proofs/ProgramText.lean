import Lucario.Lib.BoundedLines
import Lucario.Lib.PaddedList
import Lucario.Proofs.ProgramImage
import Lucario.Proofs.TextScan

namespace Lucario.Proofs
open BoundedLines PaddedList

structure HeaderLine where
  indent : List Char
  label : List Char
  gap : List Char
  value : List Char
  ending : List Char
  one_line : '\n' ∉ indent ++ gap ++ ending
  indent_blank : Blank indent
  label_solid : Solid label
  gap_apart : gap ≠ [] ∧ Blank gap
  value_solid : Solid value
  ending_apart : ∀ c ∈ ending.head?, isspace c

def HeaderLine.text (l : HeaderLine) : List Char :=
  l.indent ++ (l.label ++ (l.gap ++ (l.value ++ l.ending)))

/-- A program file: the header lines and the later lines. Only the name may have text behind it. -/
structure ProgramText where
  startLine : HeaderLine
  countLine : HeaderLine
  nameLine : HeaderLine
  startPC : Int
  wordCount : Int
  later : List (List Char)
  start_value : Numeral startLine.value startPC
  start_ending : Blank startLine.ending
  count_value : Numeral countLine.value wordCount
  count_ending : Blank countLine.ending
  later_lines : ∀ l ∈ later, '\n' ∉ l

def ProgramText.body (t : ProgramText) : List Char :=
  t.nameLine.ending ++ t.later.flatMap ('\n' :: ·)

def ProgramText.text (t : ProgramText) : List Char :=
  t.startLine.text ++ '\n' :: (t.countLine.text ++ '\n' ::
    (t.nameLine.text ++ t.later.flatMap ('\n' :: ·)))

def leading (line : List Char) : Option Int := (scanInt (cutComment line)).1

/-- The integers that the pieces start with which `fgets` makes of a line, 511 characters each. -/
def pieceWords (line : List Char) : List Int := found '\n' 510 leading line

def ReadsLines (u : Unspecified) (t : ProgramText) : Prop :=
  ∀ n, delivered n (readHeader u t.text).2 =
    (List.range n).map (fun i => (t.later.filterMap leading).getD i 0)

/-- Line by line, the integers that its pieces start with and the one that it should give: the
rest of the name's line none, a later line its own. -/
def lineParts (t : ProgramText) : List (List Int × List Int) :=
  (pieceWords t.nameLine.ending, []) ::
    t.later.map (fun line => (pieceWords line, (leading line).toList))

theorem leading_eq (line : List Char) : leading line = (scanInt line).1 := scan_cut_comment line

theorem leading_newline (piece : List Char) : leading (piece ++ ['\n']) = leading piece := by
  rw [leading_eq, leading_eq, inert_newline.scan_append]

theorem head_append {p : Char → Prop} {first rest : List Char} (hfirst : ∀ c ∈ first.head?, p c)
    (hrest : ∀ c ∈ rest.head?, p c) : ∀ c ∈ (first ++ rest).head?, p c := by
  cases first with
  | nil => exact hrest
  | cons d first => exact hfirst

theorem scan_label {before rest : List Char} (h : Blank before) (l : HeaderLine) :
    scanToken (before ++ (l.text ++ rest)) =
      (some l.label, l.gap ++ (l.value ++ (l.ending ++ rest))) := by
  have hblank : Blank (before ++ l.indent) := by
    intro c hc
    rcases List.mem_append.mp hc with hc | hc
    · exact h c hc
    · exact l.indent_blank c hc
  have hgap : ∀ c ∈ (l.gap ++ (l.value ++ (l.ending ++ rest))).head?, isspace c := by
    obtain ⟨d, gap, hd⟩ := List.exists_cons_of_ne_nil l.gap_apart.1
    have hspace := l.gap_apart.2 d (by simp [hd])
    simpa [hd] using hspace
  have token := scan_token hblank l.label_solid hgap
  simpa only [HeaderLine.text, List.append_assoc] using token

/-- A labelled integer is read up to the end of its numeral. -/
theorem scan_labelled_int {before rest : List Char} (h : Blank before) (l : HeaderLine) {n : Int}
    (hvalue : Numeral l.value n) (hrest : ∀ c ∈ rest.head?, isspace c) :
    scanLabelledInt (before ++ (l.text ++ rest)) = (some n, l.ending ++ rest) := by
  rw [scanLabelledInt, scan_label h]
  refine scan_numeral l.gap_apart.2 hvalue ?_
  intro c hc
  by_contra hd
  have hs := head_append l.ending_apart hrest c hc
  rw [digit_not_space (Bool.eq_true_of_not_eq_false hd)] at hs
  cases hs

theorem scan_labelled_token {before rest : List Char} (h : Blank before) (l : HeaderLine)
    (hrest : ∀ c ∈ rest.head?, isspace c) :
    scanLabelledToken (before ++ (l.text ++ rest)) = (some l.value, l.ending ++ rest) := by
  rw [scanLabelledToken, scan_label h]
  exact scan_token l.gap_apart.2 l.value_solid (head_append l.ending_apart hrest)

theorem blank_line {ending : List Char} (h : Blank ending) : Blank (ending ++ ['\n']) := by
  intro c hc
  rcases List.mem_append.mp hc with hc | hc
  · exact h c hc
  · obtain rfl := List.mem_singleton.mp hc
    rfl

/-- The header is read as written and leaves the rest of the name's line and the later lines. -/
theorem header_read (u : Unspecified) (t : ProgramText) :
    readHeader u t.text =
      (⟨t.startPC, t.wordCount, cString t.nameLine.value⟩, t.body) := by
  have later : ∀ c ∈ (t.later.flatMap ('\n' :: ·)).head?, isspace c := by
    cases t.later with
    | nil => simp
    | cons l lines => simp [isspace]
  have start := @scan_labelled_int [] ('\n' :: (t.countLine.text ++ '\n' ::
    (t.nameLine.text ++ t.later.flatMap ('\n' :: ·)))) (by simp [Blank]) t.startLine _ t.start_value
    (by simp [isspace])
  have count := @scan_labelled_int _ ('\n' :: (t.nameLine.text ++ t.later.flatMap ('\n' :: ·)))
    (blank_line t.start_ending) t.countLine _ t.count_value (by simp [isspace])
  have name := scan_labelled_token (blank_line t.count_ending) t.nameLine later
  simp only [List.nil_append, List.append_assoc, List.cons_append] at start count name
  simp only [readHeader, ProgramText.text, start, count, name, Option.getD_some,
    ProgramText.body]

theorem fgets_eq (room : Nat) (file : List Char) : fgets room file = takeLine '\n' room file := by
  induction room generalizing file with
  | zero => rfl
  | succ room ih =>
    cases file with
    | nil => rfl
    | cons c file => simp only [fgets, takeLine, ih]

/-- The reading loop returns the first integer found in the pieces and leaves those after it. -/
theorem read_lines (fuel : Nat) (file : List Char) (h : file.length ≤ fuel) :
    (readProgramLines fuel file).1 = (pieceWords file).headD 0 ∧
      pieceWords (readProgramLines fuel file).2 = (pieceWords file).tail := by
  induction fuel generalizing file with
  | zero =>
    obtain rfl : file = [] := by simpa using h
    simp [readProgramLines, pieceWords]
  | succ fuel ih =>
    cases file with
    | nil => simp [readProgramLines, pieceWords]
    | cons c file =>
      have shorter := take_line_progress '\n' 510 c file
      have first : pieceWords (c :: file) =
          (leading (takeLine '\n' 511 (c :: file)).1).toList ++
            pieceWords (takeLine '\n' 511 (c :: file)).2 := found_of_ne (by simp)
      rw [readProgramLines, fgets_eq, first]
      · generalize takeLine '\n' 511 (c :: file) = r at shorter
        obtain ⟨piece, rest⟩ := r
        dsimp only
        rw [scan_cut_comment, scan_c_string, leading_eq]
        cases (scanInt piece).1 with
        | none => exact ih rest (by simp at h shorter; omega)
        | some w => simp
      · exact List.cons_ne_nil c file

theorem delivered_words (n : Nat) (file : List Char) :
    delivered n file = (List.range n).map (fun i => (pieceWords file).getD i 0) := by
  induction n generalizing file with
  | zero => rfl
  | succ n ih =>
    obtain ⟨hfirst, hrest⟩ := read_lines file.length file le_rfl
    rw [delivered, List.range_succ_eq_map, List.map_cons, List.map_map, ih, readProgramWord,
      hfirst, hrest]
    cases pieceWords file <;> rfl

theorem pieces_of_long {line : List Char} (h : '\n' ∉ line) (hlong : ¬ line.length ≤ 511) :
    pieceWords line = (leading (line.take 511)).toList ++ pieceWords (line.drop 511) := by
  have long := found_long (f := leading) h (by omega : 510 < line.length) []
  rwa [List.append_nil, List.append_nil] at long

/-- Every line that starts with an integer has a piece that does. -/
theorem leading_found {line : List Char} (h : '\n' ∉ line) :
    (leading line).toList.length ≤ (pieceWords line).length := by
  induction hn : line.length using Nat.strongRecOn generalizing line with
  | ind n ih =>
    by_cases hshort : line.length ≤ 511
    · exact (congrArg List.length (found_short rfl h hshort)).ge
    · have split := pieces_of_long h hshort
      have hrest : '\n' ∉ line.drop 511 := fun hmem => h (List.mem_of_mem_drop hmem)
      cases hfirst : leading (line.take 511) with
      | some w =>
        cases leading line <;> simp [split, hfirst]
      | none =>
        cases hline : leading line with
        | none => simp
        | some w =>
          have resumed : (leading (line.drop 511)).isSome := by
            rw [leading_eq] at hfirst hline ⊢
            apply scan_resumes hfirst
            rw [List.take_append_drop, hline]
            rfl
          have later := ih _ (by simp; omega) hrest rfl
          obtain ⟨v, hv⟩ := Option.isSome_iff_exists.mp resumed
          rw [hv] at later
          simpa [split, hfirst] using later

/-- A line that starts with an integer other than zero has a piece that does. -/
theorem leading_found_nonzero {line : List Char} (h : '\n' ∉ line) {v : Int}
    (hline : leading line = some v) (hv : v ≠ 0) : ∃ w ∈ pieceWords line, w ≠ 0 := by
  induction hn : line.length using Nat.strongRecOn generalizing line v with
  | ind n ih =>
    by_cases hshort : line.length ≤ 511
    · have own : pieceWords line = (leading line).toList := found_short rfl h hshort
      exact ⟨v, by simp [own, hline], hv⟩
    · have hrest : '\n' ∉ line.drop 511 := fun hmem => h (List.mem_of_mem_drop hmem)
      by_cases hzero : ∀ w ∈ leading (line.take 511), w = 0
      · have resumed : ∃ w, leading (line.drop 511) = some w ∧ w ≠ 0 := by
          simp only [leading_eq] at hzero hline ⊢
          rw [← List.take_append_drop 511 line] at hline
          exact scan_resumes_nonzero hzero hline hv
        obtain ⟨w, hw, hne⟩ := resumed
        obtain ⟨x, hx, hx0⟩ := ih _ (by simp; omega) hrest hw hne rfl
        exact ⟨x, by simp [pieces_of_long h hshort, hx], hx0⟩
      · push Not at hzero
        obtain ⟨w, hw, hne⟩ := hzero
        exact ⟨w, by simp [pieces_of_long h hshort, Option.mem_def.mp hw], hne⟩

/-- The pieces of a line give at least what the line should give. -/
theorem line_covers {line : List Char} (h : '\n' ∉ line) :
    Covers 0 (pieceWords line, (leading line).toList) where
  most := by cases leading line <;> simp
  least := leading_found h
  padding := by
    intro hpieces v hv
    by_contra hne
    obtain ⟨w, hw, hw0⟩ := leading_found_nonzero h (Option.mem_toList.mp hv) hne
    exact hw0 (hpieces w hw)

theorem parts_cover (t : ProgramText) : ∀ part ∈ lineParts t, Covers 0 part := by
  intro part hpart
  rcases List.mem_cons.mp hpart with rfl | hpart
  · exact ⟨by simp, by simp, fun _ => nofun⟩
  · obtain ⟨line, hline, rfl⟩ := List.mem_map.mp hpart
    exact line_covers (t.later_lines line hline)

theorem body_words (t : ProgramText) :
    pieceWords t.body = pieceWords t.nameLine.ending ++ t.later.flatMap pieceWords := by
  have hending : '\n' ∉ t.nameLine.ending :=
    fun hmem => t.nameLine.one_line (List.mem_append_right _ hmem)
  exact found_lines leading_newline rfl hending t.later t.later_lines

theorem reads_iff_same (u : Unspecified) (t : ProgramText) :
    ReadsLines u t ↔ Same 0 (pieceWords t.body) (t.later.filterMap leading) := by
  unfold ReadsLines
  rw [header_read]
  simp only [delivered_words]
  constructor
  · intro h i
    have hi := congrArg (fun words => words.getD i 0) (h (i + 1))
    simpa using hi
  · intro h n
    exact List.map_congr_left (fun i _ => h i)

/-- Reading a program returns the integers its later lines start with, then zeros, exactly when,
line by line, no piece of the rest of the name's line starts with an integer and those of a later
line start with its own alone, up to zeros after which only zeros follow. Every line that fits the
buffer is read so. -/
theorem program_text_read (u : Unspecified) (t : ProgramText) :
    (ReadsLines u t ↔ Settled 0 (lineParts t)) ∧
    ∀ line ∈ t.later, line.length ≤ 511 → pieceWords line = (leading line).toList := by
  refine ⟨?_, fun line hline hshort => found_short rfl (t.later_lines line hline) hshort⟩
  rw [reads_iff_same, ← same_iff_settled (parts_cover t), body_words]
  simp only [lineParts, List.flatMap_cons, List.flatMap_map, List.nil_append,
    List.filterMap_eq_flatMap_toList]

def headerLine (label value ending : List Char) (hlabel : Solid label) (hvalue : Solid value)
    (hending : ∀ c ∈ ending.head?, isspace c) (hline : '\n' ∉ ending) : HeaderLine where
  indent := []
  label := label
  gap := [' ']
  value := value
  ending := ending
  one_line := by simpa using hline
  indent_blank := nofun
  label_solid := hlabel
  gap_apart := ⟨by simp, by simp [Blank, isspace]⟩
  value_solid := hvalue
  ending_apart := hending

def numberedName : ProgramText where
  startLine := headerLine "_start".toList ['1'] [] (by simp [Solid, isspace])
    (by simp [Solid, isspace]) nofun nofun
  countLine := headerLine ".N".toList ['1'] [] (by simp [Solid, isspace])
    (by simp [Solid, isspace]) nofun nofun
  nameLine := headerLine ".P".toList ['A'] [' ', '2'] (by simp [Solid, isspace])
    (by simp [Solid, isspace]) (by simp [isspace]) (by simp)
  startPC := 1
  wordCount := 1
  later := ["06000000".toList, []]
  start_value := .plain ['1'] (by simp) (by simp [isDigit])
  start_ending := nofun
  count_value := .plain ['1'] (by simp) (by simp [isDigit])
  count_ending := nofun
  later_lines := by simp

/-- The number behind the name is read as the first word. -/
theorem not_program_text_read : ¬ ∀ (u : Unspecified) (t : ProgramText), ReadsLines u t := by
  intro reads
  exact absurd (reads zeros numberedName 1) (by decide +kernel)

end Lucario.Proofs
