import Mathlib.Data.List.Basic

/-! Reading a text line by line through a buffer. A line longer than the buffer comes in several
pieces. -/

namespace BoundedLines

variable {α β : Type*} [DecidableEq α]

def takeLine (sep : α) : Nat → List α → List α × List α
  | 0, text => ([], text)
  | _ + 1, [] => ([], [])
  | room + 1, c :: text =>
    if c = sep then ([c], text)
    else (c :: (takeLine sep room text).1, (takeLine sep room text).2)

variable {sep : α}

theorem take_line_short {line : List α} (h : sep ∉ line) {room : Nat} (hroom : line.length < room)
    (text : List α) : takeLine sep room (line ++ sep :: text) = (line ++ [sep], text) := by
  induction line generalizing room with
  | nil =>
    obtain ⟨room, rfl⟩ := Nat.exists_eq_succ_of_ne_zero (Nat.ne_of_gt hroom)
    simp [takeLine]
  | cons c line ih =>
    have hc := List.ne_of_not_mem_cons h
    have hline := List.not_mem_of_not_mem_cons h
    cases room with
    | zero => simp at hroom
    | succ room => simp [takeLine, hc.symm, ih hline (by simpa using hroom)]

theorem take_line_long {line : List α} (h : sep ∉ line) {room : Nat} (hroom : room ≤ line.length)
    (text : List α) :
    takeLine sep room (line ++ text) = (line.take room, line.drop room ++ text) := by
  induction line generalizing room with
  | nil =>
    obtain rfl : room = 0 := by simpa using hroom
    simp [takeLine]
  | cons c line ih =>
    have hc := List.ne_of_not_mem_cons h
    have hline := List.not_mem_of_not_mem_cons h
    cases room with
    | zero => simp [takeLine]
    | succ room => simp [takeLine, hc.symm, ih hline (by simpa using hroom)]

theorem take_line_last {line : List α} (h : sep ∉ line) {room : Nat}
    (hroom : line.length ≤ room) : takeLine sep room line = (line, []) := by
  induction line generalizing room with
  | nil => cases room <;> rfl
  | cons c line ih =>
    have hc := List.ne_of_not_mem_cons h
    have hline := List.not_mem_of_not_mem_cons h
    cases room with
    | zero => simp at hroom
    | succ room => simp [takeLine, hc.symm, ih hline (by simpa using hroom)]

/-- A piece takes nothing but its own elements off the text. -/
theorem take_line_length (sep : α) (room : Nat) (text : List α) :
    (takeLine sep room text).1.length + (takeLine sep room text).2.length = text.length := by
  induction room generalizing text with
  | zero => simp [takeLine]
  | succ room ih =>
    cases text with
    | nil => rfl
    | cons c text =>
      rw [takeLine]
      split_ifs
      · simp [Nat.add_comm]
      · have := ih text
        simp only [List.length_cons]
        omega

/-- A buffer with room for an element makes progress. -/
theorem take_line_progress (sep : α) (room : Nat) (c : α) (text : List α) :
    (takeLine sep (room + 1) (c :: text)).2.length < (c :: text).length := by
  have hlen := take_line_length sep (room + 1) (c :: text)
  have hpos : 0 < (takeLine sep (room + 1) (c :: text)).1.length := by
    rw [takeLine]
    split_ifs <;> simp
  omega

/-- The pieces a text is read in, with room for `room + 1` elements. -/
def pieces (sep : α) (room : Nat) : List α → List (List α)
  | [] => []
  | c :: text =>
    (takeLine sep (room + 1) (c :: text)).1 ::
      pieces sep room (takeLine sep (room + 1) (c :: text)).2
termination_by text => text.length
decreasing_by exact take_line_progress sep room c text

@[simp] theorem pieces_nil (sep : α) (room : Nat) : pieces sep room [] = [] := by
  rw [pieces]

theorem pieces_of_ne {room : Nat} {text : List α} (h : text ≠ []) :
    pieces sep room text = (takeLine sep (room + 1) text).1 ::
      pieces sep room (takeLine sep (room + 1) text).2 := by
  obtain ⟨c, text, rfl⟩ := List.exists_cons_of_ne_nil h
  rw [pieces]

/-- A line longer than the buffer gives up one piece and goes on as a line. -/
theorem pieces_long {line : List α} (h : sep ∉ line) {room : Nat} (hroom : room < line.length)
    (text : List α) : pieces sep room (line ++ text) =
      line.take (room + 1) :: pieces sep room (line.drop (room + 1) ++ text) := by
  have hne : line ++ text ≠ [] := by
    intro hnil
    simp [(List.append_eq_nil_iff.mp hnil).1] at hroom
  rw [pieces_of_ne hne, take_line_long h hroom]

def found (sep : α) (room : Nat) (f : List α → Option β) (text : List α) : List β :=
  (pieces sep room text).filterMap f

variable {room : Nat} {f : List α → Option β}

@[simp] theorem found_nil : found sep room f [] = [] := by simp [found]

theorem found_of_ne {text : List α} (h : text ≠ []) :
    found sep room f text = (f (takeLine sep (room + 1) text).1).toList ++
      found sep room f (takeLine sep (room + 1) text).2 := by
  rw [found, pieces_of_ne h, List.filterMap_cons]
  cases f (takeLine sep (room + 1) text).1 <;> rfl

theorem found_long {line : List α} (h : sep ∉ line) (hroom : room < line.length) (text : List α) :
    found sep room f (line ++ text) = (f (line.take (room + 1))).toList ++
      found sep room f (line.drop (room + 1) ++ text) := by
  rw [found, pieces_long h hroom, List.filterMap_cons]
  cases f (line.take (room + 1)) <;> rfl

/-- In a line that fits, a function finds what it finds in the line. -/
theorem found_short (hnil : f [] = none) {line : List α} (h : sep ∉ line)
    (hroom : line.length ≤ room + 1) : found sep room f line = (f line).toList := by
  by_cases hline : line = []
  · simp [hline, hnil]
  · rw [found_of_ne hline, take_line_last h hroom, found_nil, List.append_nil]

/-- Nothing is found across the end of a line, if the separator makes no difference to a piece. -/
theorem found_line (hsep : ∀ piece, f (piece ++ [sep]) = f piece) (hnil : f [] = none)
    {line : List α} (h : sep ∉ line) (text : List α) :
    found sep room f (line ++ sep :: text) = found sep room f line ++ found sep room f text := by
  induction hn : line.length using Nat.strongRecOn generalizing line with
  | ind n ih =>
    by_cases hroom : line.length ≤ room
    · rw [found_of_ne (by simp), take_line_short h (by omega), hsep,
        found_short hnil h (by omega)]
    · have hrest : sep ∉ line.drop (room + 1) := fun hmem => h (List.mem_of_mem_drop hmem)
      have rest := ih (line.drop (room + 1)).length (by simp; omega) hrest rfl
      have whole := found_long (f := f) h (by omega : room < line.length) []
      rw [List.append_nil, List.append_nil] at whole
      rw [found_long h (by omega), rest, whole, List.append_assoc]

/-- What is found in a text is found line by line. -/
theorem found_lines (hsep : ∀ piece, f (piece ++ [sep]) = f piece) (hnil : f [] = none)
    {line : List α} (h : sep ∉ line) (lines : List (List α)) (hlines : ∀ l ∈ lines, sep ∉ l) :
    found sep room f (line ++ lines.flatMap (sep :: ·)) =
      found sep room f line ++ lines.flatMap (found sep room f) := by
  induction lines generalizing line with
  | nil => simp
  | cons l lines ih =>
    rw [List.flatMap_cons, List.cons_append, found_line hsep hnil h,
      ih (hlines l (by simp)) (fun x hx => hlines x (by simp [hx])), List.flatMap_cons]

section Stream

/-! A stream delivers elements, and `none` where it comes to an end; more may follow either way. -/

def front (sep : α) (stream : List (Option α)) : List α :=
  (stream.takeWhile (fun r => r ≠ none ∧ r ≠ some sep)).filterMap id

/-- The next line of a stream with what ends it, an end being used up, or as much of it as there is
room for; none while it may still go on. -/
def nextLine (sep : α) (room : Nat) (stream : List (Option α)) :
    Option (List α × List (Option α)) :=
  let line := front sep stream
  if room ≤ line.length then some (line.take room, stream.drop room)
  else
    match stream.drop line.length with
    | [] => none
    | none :: rest => some (line, rest)
    | some c :: rest => some (line ++ [c], rest)

variable (sep)

@[simp] theorem front_nil : front sep [] = [] := rfl

@[simp] theorem front_end (stream : List (Option α)) : front sep (none :: stream) = [] := by
  simp [front]

@[simp] theorem front_sep (stream : List (Option α)) : front sep (some sep :: stream) = [] := by
  simp [front]

@[simp] theorem front_cons {c : α} (h : c ≠ sep) (stream : List (Option α)) :
    front sep (some c :: stream) = c :: front sep stream := by
  simp [front, h]

theorem next_line_full (stream : List (Option α)) : nextLine sep 0 stream = some ([], stream) := by
  simp [nextLine]

theorem next_line_cons {c : α} (h : c ≠ sep) (room : Nat) (stream : List (Option α)) :
    nextLine sep (room + 1) (some c :: stream) =
      (nextLine sep room stream).map (fun r => (c :: r.1, r.2)) := by
  simp only [nextLine, front_cons sep h, List.length_cons, Nat.add_le_add_iff_right,
    List.drop_succ_cons, List.take_succ_cons]
  split_ifs
  · rfl
  · split <;> rfl

end Stream

end BoundedLines
