import Mathlib.Data.List.GetD
import Lucario.History
import Lucario.Lib.Window

namespace Lucario.Proofs

open Window

def IsCString (s : List Char) : Prop := ∀ c ∈ s, c ≠ '\x00'

structure Spells (row : Nat → Char) (s : List Char) : Prop where
  text : IsCString s
  fits : s.length < maxLineLength
  chars : ∀ j ≤ s.length, row j = s.getD j '\x00'

/-- The rows in use hold the lines, in order. -/
structure Stores (r : Rows) (lines : List (List Char)) : Prop where
  count : r.historyCount = lines.length
  bounded : lines.length ≤ maxHistoryLines
  rows : ∀ i s, lines[i]? = some s → Spells (r.monitorHistory i) s

def lastMessages (messages : List (List Char)) : List (List Char) :=
  (messages.drop (messages.length - maxHistoryLines)).map (fun m => m.take (maxLineLength - 1))

def Monitor.lines (mon : Monitor) : List (List Char) :=
  (List.range mon.historyCount).map mon.history

variable {row : Nat → Char} {s message : List Char}

theorem IsCString.take (h : IsCString message) (n : Nat) : IsCString (message.take n) :=
  fun c hc => h c (List.mem_of_mem_take hc)

theorem spells_strcpy (h : Spells row s) (target : Nat → Char) : Spells (strcpy row target) s := by
  refine ⟨h.text, h.fits, ?_⟩
  intro j hj
  have before : ∀ k < j, row k ≠ '\x00' := by
    intro k hk
    have hlt : k < s.length := by omega
    rw [h.chars k (by omega), List.getD_eq_getElem _ _ hlt]
    exact h.text _ (List.getElem_mem hlt)
  rw [strcpy, if_pos before]
  exact h.chars j hj

/-- A stored message is cut to the row, whatever was in the row before. -/
theorem spells_store (h : IsCString message) (r : Rows) (i : Nat) :
    Spells ((r.store i message).monitorHistory i) (message.take (maxLineLength - 1)) := by
  have hlen : (message.take (maxLineLength - 1)).length ≤ maxLineLength - 1 :=
    List.length_take_le _ _
  refine ⟨h.take _, by rw [maxLineLength] at hlen ⊢; omega, ?_⟩
  intro j hj
  simp only [Rows.store, Function.update_self]
  rcases eq_or_ne j (maxLineLength - 1) with rfl | hne
  · rw [Function.update_self, List.getD_eq_default _ _ hlen]
  · rw [Function.update_of_ne hne, strncpy, if_pos (by omega), List.getD_eq_getElem?_getD,
      List.getD_eq_getElem?_getD, List.getElem?_take_of_lt (by omega)]

theorem store_other (r : Rows) (message : List Char) {i j : Nat} (h : j ≠ i) :
    (r.store i message).monitorHistory j = r.monitorHistory j :=
  Function.update_of_ne h _ _

/-- The rows after the shift are copies of the next ones. -/
theorem shift_row (r : Rows) {count i : Nat} (h : i < count - 1) :
    (r.shift count).monitorHistory i = strcpy (r.monitorHistory (i + 1)) (r.monitorHistory i) := by
  rw [Rows.shift, foldl_shift]
  exact if_pos h

/-- Saving a message pushes it into the window, by appending a row as by shifting them all. -/
theorem Stores.save {r : Rows} {lines : List (List Char)} (h : Stores r lines)
    (hm : IsCString message) : Stores (r.monitorSaveHistory message)
      (push maxHistoryLines lines (message.take (maxLineLength - 1))) := by
  have hcount := h.count
  have hbounded := h.bounded
  unfold Rows.monitorSaveHistory push
  rw [hcount]
  split_ifs with hroom
  · refine ⟨by simp, by simpa using hroom, ?_⟩
    intro i s hi
    rcases lt_or_ge i lines.length with hlt | hge
    · rw [List.getElem?_append_left hlt] at hi
      exact (store_other r message hlt.ne).symm ▸ h.rows i s hi
    · rw [List.getElem?_append_right hge, List.getElem?_singleton] at hi
      split_ifs at hi with hlast
      cases hi
      rw [show i = lines.length by omega]
      exact spells_store hm r lines.length
  · have hfull : lines.length = maxHistoryLines := by omega
    have htail : lines.tail.length = maxHistoryLines - 1 := by rw [List.length_tail, hfull]
    refine ⟨?_, ?_, ?_⟩
    · rw [List.length_append, htail]
      exact hcount.trans hfull
    · rw [List.length_append, htail]
      exact le_rfl
    · intro i s hi
      rcases lt_or_ge i (maxHistoryLines - 1) with hlt | hge
      · rw [List.getElem?_append_left (by omega), List.getElem?_tail] at hi
        rw [store_other _ message hlt.ne, shift_row r hlt]
        exact spells_strcpy (h.rows (i + 1) s hi) _
      · rw [List.getElem?_append_right (by omega), List.getElem?_singleton] at hi
        split_ifs at hi with hlast
        cases hi
        rw [show i = maxHistoryLines - 1 by omega]
        exact spells_store hm _ _

theorem Stores.run {r : Rows} {lines : List (List Char)} (h : Stores r lines)
    {messages : List (List Char)} (hm : ∀ m ∈ messages, IsCString m) :
    Stores (messages.foldl Rows.monitorSaveHistory r)
      ((messages.map (fun m => m.take (maxLineLength - 1))).foldl
        (push maxHistoryLines) lines) := by
  induction messages generalizing r lines with
  | nil => exact h
  | cons m messages ih =>
    exact ih (h.save (hm m (by simp))) (fun n hn => hm n (by simp [hn]))

theorem Stores.forall {r : Rows} {lines : List (List Char)} (h : Stores r lines) :
    List.Forall₂ Spells ((List.range r.historyCount).map r.monitorHistory) lines := by
  refine List.forall₂_iff_get.mpr ⟨by simp [h.count], ?_⟩
  intro i _ hi
  simpa using h.rows i lines[i] (List.getElem?_eq_getElem hi)

/-- After every sequence of messages the rows hold the last hundred of them in order, each cut to
its first 255 characters and terminated. -/
theorem history_window (messages : List (List Char)) (hm : ∀ m ∈ messages, IsCString m) (r : Rows)
    (h0 : r.historyCount = 0) :
    (messages.foldl Rows.monitorSaveHistory r).historyCount =
        min messages.length maxHistoryLines ∧
      List.Forall₂ Spells
        ((List.range (messages.foldl Rows.monitorSaveHistory r).historyCount).map
          (messages.foldl Rows.monitorSaveHistory r).monitorHistory) (lastMessages messages) := by
  have empty : Stores r [] := ⟨h0, Nat.zero_le _, nofun⟩
  have stores := empty.run hm
  rw [foldl_push (by decide), List.length_map, ← List.map_drop] at stores
  refine ⟨?_, stores.forall⟩
  rw [stores.count, List.length_map, List.length_drop]
  omega

theorem history_window_two :
    List.Forall₂ Spells
      ((List.range 2).map (["a".toList, "b".toList].foldl Rows.monitorSaveHistory
        ⟨fun _ _ => '\x00', 0⟩).monitorHistory) ["a".toList, "b".toList] :=
  (history_window ["a".toList, "b".toList] (by simp [IsCString]) ⟨fun _ _ => '\x00', 0⟩ rfl).2

/-- The strings of `Monitor` slide in the same window. -/
theorem monitor_lines_saved {mon : Monitor} (h : mon.historyCount ≤ maxHistoryLines) :
    Monitor.lines (monitorSaveHistory message mon) =
      push maxHistoryLines (Monitor.lines mon) (message.take (maxLineLength - 1)) := by
  have hlen : (Monitor.lines mon).length = mon.historyCount := by simp [Monitor.lines]
  unfold monitorSaveHistory push
  rw [hlen]
  dsimp only
  split_ifs with hroom
  · simp only [Monitor.lines, List.range_succ, List.map_append, List.map_cons, List.map_nil,
      Function.update_self]
    congr 1
    refine List.map_congr_left ?_
    intro i hi
    exact Function.update_of_ne (List.mem_range.mp hi).ne _ _
  · have hfull : mon.historyCount = maxHistoryLines := by omega
    have hshift : ∀ i < maxHistoryLines - 1,
        shiftHistory maxHistoryLines mon.history i = mon.history (i + 1) := by
      intro i hi
      rw [shiftHistory, foldl_shift (fun line _ => line)]
      exact if_pos hi
    have htail : (Monitor.lines mon).tail = (List.range (maxHistoryLines - 1)).map
        (fun i => mon.history (i + 1)) := by
      rw [Monitor.lines, hfull]
      rfl
    have hrange : List.range maxHistoryLines =
        List.range (maxHistoryLines - 1) ++ [maxHistoryLines - 1] := List.range_succ
    rw [htail, Monitor.lines, hfull, hrange, List.map_append, List.map_singleton]
    dsimp only
    rw [Function.update_self]
    refine congrArg (fun older => older ++ [message.take (maxLineLength - 1)]) ?_
    refine List.map_congr_left ?_
    intro i hi
    rw [List.mem_range] at hi
    rw [Function.update_of_ne hi.ne, hshift i hi]

/-- The buffers go on holding the strings of `Monitor`. -/
theorem Stores.monitor {r : Rows} {mon : Monitor} (h : Stores r (Monitor.lines mon))
    (hm : IsCString message) :
    Stores (r.monitorSaveHistory message) (Monitor.lines (monitorSaveHistory message mon)) := by
  have hbounded : mon.historyCount ≤ maxHistoryLines := by
    simpa [Monitor.lines] using h.bounded
  rw [monitor_lines_saved hbounded]
  exact h.save hm

end Lucario.Proofs
