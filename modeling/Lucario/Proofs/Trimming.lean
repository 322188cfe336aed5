import Lucario.CommandLine
import Lucario.Lib.Words

namespace Lucario.Proofs

open Words

variable {line src string : List Char} {rounds source destiny : Nat}

theorem char_at_end (front : List Char) (c : Char) (behind : List Char) :
    charAt (front ++ c :: behind) front.length = c := by
  simp [charAt]

theorem skip_blanks_line (out rest : List Char) (hnull : '\x00' ∉ src)
    (hrounds : src.length ≤ rounds) :
    skipBlanks rounds (out ++ (src ++ '\x00' :: rest)) out.length =
      out.length + (src.takeWhile isspace).length := by
  induction src generalizing out rounds with
  | nil => cases rounds <;> simp [skipBlanks, charAt]
  | cons c src ih =>
    simp only [List.mem_cons, not_or] at hnull
    obtain ⟨hc, hsrc⟩ := hnull
    cases rounds with
    | zero => simp at hrounds
    | succ rounds =>
      have inner := ih (out ++ [c]) hsrc (by simpa using hrounds)
      cases hblank : isspace c with
      | true =>
        simp only [List.append_assoc, List.singleton_append, List.length_append,
          List.length_singleton] at inner
        simp [skipBlanks, char_at_end, hblank, Ne.symm hc, inner]
        omega
      | false => simp [skipBlanks, char_at_end, hblank]

/-- A character written in front of a gap widens the text and leaves a gap as wide. -/
theorem set_gap (out gap : List Char) (x c : Char) (behind : List Char) :
    ∃ narrower : List Char, narrower.length = gap.length ∧
      (out ++ (gap ++ c :: behind)).set out.length x = (out ++ [x]) ++ (narrower ++ behind) := by
  cases gap with
  | nil => exact ⟨[], rfl, by simp⟩
  | cons g gap => exact ⟨gap ++ [c], by simp, by simp⟩

/-- The words move over the gap, which ends where the unread characters begin. -/
theorem move_words_squeeze (inWord : Bool) (out gap rest : List Char) (hnull : '\x00' ∉ src)
    (hrounds : src.length ≤ rounds)
    (hsource : source = out.length + gap.length) (hdestiny : destiny = out.length)
    (hstring : string = out ++ (gap ++ (src ++ '\x00' :: rest))) :
    ∃ behind,
      moveWords rounds inWord source destiny string =
        ((out ++ squeeze isspace ' ' inWord src).length,
          out ++ squeeze isspace ' ' inWord src ++ (behind ++ '\x00' :: rest)) ∧
      (squeeze isspace ' ' inWord src).length + behind.length = gap.length + src.length := by
  induction src generalizing out gap rounds inWord source destiny string with
  | nil =>
    refine ⟨gap, ?_, by simp [squeeze]⟩
    have hend : charAt string source = '\x00' := by
      have := char_at_end (out ++ gap) '\x00' rest
      simpa [hstring, hsource] using this
    cases rounds with
    | zero => simp [moveWords, squeeze, hstring, hdestiny]
    | succ rounds =>
      rw [moveWords, if_pos hend]
      simp [squeeze, hstring, hdestiny]
  | cons c src ih =>
    simp only [List.mem_cons, not_or] at hnull
    obtain ⟨hc, hsrc⟩ := hnull
    cases rounds with
    | zero => simp at hrounds
    | succ rounds =>
      have hbound : src.length ≤ rounds := by simpa using hrounds
      have hread : charAt string source = c := by
        have := char_at_end (out ++ gap) c (src ++ '\x00' :: rest)
        simpa [hstring, hsource] using this
      have written : ∀ x inside, ∃ behind,
          moveWords rounds inside (source + 1) (destiny + 1) (string.set destiny x) =
            ((out ++ x :: squeeze isspace ' ' inside src).length,
              out ++ x :: squeeze isspace ' ' inside src ++ (behind ++ '\x00' :: rest)) ∧
          (x :: squeeze isspace ' ' inside src).length + behind.length =
            gap.length + (c :: src).length := by
        intro x inside
        obtain ⟨narrower, hlength, hset⟩ := set_gap out gap x c (src ++ '\x00' :: rest)
        have hnext : source + 1 = (out ++ [x]).length + narrower.length := by
          simp
          omega
        have hwritten : string.set destiny x =
            (out ++ [x]) ++ (narrower ++ (src ++ '\x00' :: rest)) := by
          simpa [hstring, hdestiny] using hset
        have hout : destiny + 1 = (out ++ [x]).length := by simp [hdestiny]
        obtain ⟨behind, hmoved, hroom⟩ :=
          ih inside (out ++ [x]) narrower hsrc hbound hnext hout hwritten
        refine ⟨behind, by simpa using hmoved, ?_⟩
        simp only [List.length_cons]
        omega
      cases hblank : isspace c with
      | false => simpa [moveWords, squeeze, hread, Ne.symm hc, hblank] using written c true
      | true =>
        cases inWord with
        | true => simpa [moveWords, squeeze, hread, Ne.symm hc, hblank] using written ' ' false
        | false =>
          have hnext : source + 1 = out.length + (gap ++ [c]).length := by
            simp
            omega
          obtain ⟨behind, hmoved, hroom⟩ := ih false out (gap ++ [c]) hsrc hbound hnext hdestiny
            (by simpa using hstring)
          refine ⟨behind, by simpa [moveWords, squeeze, hread, Ne.symm hc, hblank] using hmoved, ?_⟩
          simp [squeeze, hblank] at hroom ⊢
          omega

/-- The null that ends the words takes the place of the space behind them, if there is one. -/
theorem close_words (text behind rest : List Char) :
    ∃ junk, (text ++ (behind ++ '\x00' :: rest)).set
        (if 0 < text.length ∧ isspace (charAt (text ++ (behind ++ '\x00' :: rest))
          (text.length - 1)) then text.length - 1 else text.length) '\x00' =
        close isspace text ++ '\x00' :: (junk ++ rest) ∧
      (close isspace text).length + junk.length = text.length + behind.length := by
  have kept : ∀ text : List Char, ∃ junk : List Char, junk.length = behind.length ∧
      (text ++ (behind ++ '\x00' :: rest)).set text.length '\x00' =
        text ++ '\x00' :: (junk ++ rest) := by
    intro text
    obtain ⟨junk, hlength, hset⟩ := set_gap text behind '\x00' '\x00' rest
    exact ⟨junk, hlength, by simpa using hset⟩
  rcases List.eq_nil_or_concat text with rfl | ⟨text, c, rfl⟩
  · obtain ⟨junk, hlength, hset⟩ := kept []
    exact ⟨junk, by simpa using hset, by simp [hlength]⟩
  · have hlast := char_at_end text c (behind ++ '\x00' :: rest)
    cases hblank : isspace c with
    | true =>
      refine ⟨behind ++ ['\x00'], ?_, ?_⟩
      · simp [hlast, hblank, close]
      · simp [hblank, close]
        omega
    | false =>
      obtain ⟨junk, hlength, hset⟩ := kept (text ++ [c])
      refine ⟨junk, ?_, ?_⟩
      · simpa [hlast, hblank, close] using hset
      · simp [hblank, close, hlength]

/-- Trimming leaves the words of the string one space apart, and everything behind its end as it
was. -/
theorem trim_whitespace_words (hnull : '\x00' ∉ line) (rest : List Char) :
    ∃ junk, trimWhitespace (line ++ '\x00' :: rest) =
        [' '].intercalate (words isspace line) ++ '\x00' :: (junk ++ rest) ∧
      ([' '].intercalate (words isspace line)).length + junk.length = line.length := by
  have hblanks : line = line.takeWhile isspace ++ line.dropWhile isspace :=
    List.takeWhile_append_dropWhile.symm
  have hskip : skipBlanks (line ++ '\x00' :: rest).length (line ++ '\x00' :: rest) 0 =
      (line.takeWhile isspace).length := by
    have hbound : line.length ≤ (line ++ '\x00' :: rest).length := by simp
    simpa using skip_blanks_line [] rest hnull hbound
  have hfree : '\x00' ∉ line.dropWhile isspace :=
    fun h => hnull (List.dropWhile_subset isspace h)
  have hbound : (line.dropWhile isspace).length ≤ (line ++ '\x00' :: rest).length := by
    simp [(List.dropWhile_suffix isspace).length_le.trans]
  have hstring : line ++ '\x00' :: rest =
      [] ++ (line.takeWhile isspace ++ (line.dropWhile isspace ++ '\x00' :: rest)) := by
    rw [List.nil_append, ← List.append_assoc, ← hblanks]
  obtain ⟨behind, hmoved, hroom⟩ := move_words_squeeze false [] (line.takeWhile isspace) rest
    hfree hbound (Nat.zero_add _).symm (show 0 = ([] : List Char).length from rfl) hstring
  obtain ⟨junk, hset, hlength⟩ :=
    close_words (squeeze isspace ' ' false (line.dropWhile isspace)) behind rest
  rw [squeeze_drop_while] at hmoved hroom hset hlength
  rw [close_squeeze (by decide)] at hset hlength
  refine ⟨junk, ?_, ?_⟩
  · simp only [trimWhitespace, hskip, hmoved, List.nil_append]
    exact hset
  · have := congrArg List.length hblanks
    simp only [List.length_append] at this
    omega

/-- The words of a string come from its characters. -/
theorem word_characters (hnull : '\x00' ∉ line) {w : List Char} (h : w ∈ words isspace line) :
    w ≠ [] ∧ ∀ c ∈ w, c ≠ '\x00' ∧ isspace c = false := by
  obtain ⟨hne, hw⟩ := mem_words h
  refine ⟨hne, ?_⟩
  intro c hc
  exact ⟨ne_of_mem_of_not_mem (hw c hc).1 hnull, (hw c hc).2⟩

theorem trimmed_free (hnull : '\x00' ∉ line) :
    '\x00' ∉ [' '].intercalate (words isspace line) := by
  intro h
  rcases mem_intercalate h with hspace | ⟨w, hw, hc⟩
  · exact absurd hspace (by decide)
  · exact ((word_characters hnull hw).2 _ hc).1 rfl

/-- There is nothing left to trim in a trimmed string. -/
theorem trim_whitespace_twice (hnull : '\x00' ∉ line) (rest : List Char) :
    trimWhitespace (trimWhitespace (line ++ '\x00' :: rest)) =
      trimWhitespace (line ++ '\x00' :: rest) := by
  obtain ⟨junk, htrim, -⟩ := trim_whitespace_words hnull rest
  obtain ⟨none_left, hagain, hlength⟩ :=
    trim_whitespace_words (trimmed_free hnull) (junk ++ rest)
  have same : words isspace ([' '].intercalate (words isspace line)) = words isspace line := by
    refine words_spaced (by decide) ?_
    intro w hw
    obtain ⟨hne, hfree⟩ := word_characters hnull hw
    exact ⟨hne, fun c hc => (hfree c hc).2⟩
  rw [same] at hagain hlength
  obtain rfl : none_left = [] := List.length_eq_zero_iff.mp (by omega)
  rw [htrim, hagain, List.nil_append]

end Lucario.Proofs
