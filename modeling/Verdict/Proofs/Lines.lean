import Mathlib
import Verdict.CommandLine.Display

/-! # The line of an error

An error is shown with the line on which its span starts. The search for that line keeps what is before the
current line, the current line so far and what is left of the text. If the span is within the text, the line that
is found holds its start, so the column is at least one and the line below it is drawn (`SyntaxError.line_holds`). -/

namespace Verdict

/-- Whether a line is the line of a text that holds a position: no newline is on it, the text is cut before and
after it at newlines or at its ends, and its number counts the newlines up to the position. -/
structure SourceLine.Holds (l : SourceLine) (text : List Char) (index : ℕ) : Prop where
  no_newline : '\n' ∉ l.chars
  cut : ∃ before after, text = before ++ l.chars ++ after ∧ before.length = l.start ∧
    (∀ c ∈ before.getLast?, c = '\n') ∧ ∀ c ∈ after.head?, c = '\n'
  start_le : l.start ≤ index
  le_stop : index ≤ l.start + l.length
  number_eq : l.number = 1 + (text.take index).count '\n'

namespace SourceFile

theorem untilNewline_append (cs : List Char) : ∃ after, cs = untilNewline cs ++ after ∧
    ∀ c ∈ after.head?, c = '\n' := by
  refine ⟨cs.dropWhile (· != '\n'), List.takeWhile_append_dropWhile.symm, fun c hc => ?_⟩
  have hhead := List.head?_dropWhile_not (· != '\n') cs
  rw [Option.mem_def.mp hc] at hhead
  simpa using hhead

theorem not_mem_untilNewline (cs : List Char) : '\n' ∉ untilNewline cs := fun h => by
  simpa using List.mem_takeWhile_imp h

/-- What is known when a search reaches a position: the lines before the current one, and the current one so far
(in reverse). -/
structure Reached (before line : List Char) (pos number start : ℕ) : Prop where
  last : ∀ c ∈ before.getLast?, c = '\n'
  no_newline : '\n' ∉ line
  pos_eq : pos = (before ++ line.reverse).length
  number_eq : number = 1 + (before ++ line.reverse).count '\n'
  start_eq : start = before.length

namespace Reached

variable {before line : List Char} {pos number start : ℕ}

theorem newline (h : Reached before line pos number start) :
    Reached (before ++ line.reverse ++ ['\n']) [] (pos + 1) (number + 1) (pos + 1) where
  last := by simp
  no_newline := by simp
  pos_eq := by simp [h.pos_eq, Nat.add_assoc]
  number_eq := by simp [h.number_eq, Nat.add_assoc]
  start_eq := by simp [h.pos_eq, Nat.add_assoc]

theorem next {c : Char} (h : Reached before line pos number start) (hc : c ≠ '\n') :
    Reached before (c :: line) (pos + 1) number start where
  last := h.last
  no_newline := by simp [h.no_newline, hc.symm]
  pos_eq := by simp [h.pos_eq, Nat.add_assoc]
  number_eq := by simp [h.number_eq, hc]
  start_eq := h.start_eq

/-- The line that holds the position ends where the text does or where the next newline is. -/
theorem holds (h : Reached before line pos number start) (us after : List Char) (hus : '\n' ∉ us)
    (hafter : ∀ c ∈ after.head?, c = '\n') :
    SourceLine.Holds ⟨number, start, line.reverse ++ us⟩ (before ++ line.reverse ++ (us ++ after)) pos where
  no_newline := by simp [h.no_newline, hus]
  cut := ⟨before, after, by simp, h.start_eq.symm, h.last, hafter⟩
  start_le := by simp [h.start_eq, h.pos_eq]
  le_stop := by simp [SourceLine.length, h.start_eq, h.pos_eq]
  number_eq := by rw [h.pos_eq, List.take_left, h.number_eq]

end Reached

/-- The search finds the line of any position that is not yet passed. -/
theorem holds_lineFrom {pos number start : ℕ} {before line : List Char} (index : ℕ) (rest : List Char)
    (h : Reached before line pos number start) (hle : pos ≤ index)
    (hstop : index ≤ (before ++ line.reverse ++ rest).length) :
    (lineFrom index pos number start line rest).Holds (before ++ line.reverse ++ rest) index := by
  induction rest generalizing before line pos number start with
  | nil =>
    have hindex : index = pos := by rw [List.append_nil, ← h.pos_eq] at hstop; omega
    rw [lineFrom, hindex]
    simpa using h.holds [] [] (by simp) (by simp)
  | cons c cs ih =>
    rw [lineFrom]
    split
    · next hpos =>
      obtain ⟨after, hcut, hafter⟩ := untilNewline_append (c :: cs)
      have hholds := h.holds (untilNewline (c :: cs)) after (not_mem_untilNewline (c :: cs)) hafter
      rwa [← hcut, Int.ofNat_inj.mp hpos] at hholds
    · next hpos =>
      have hlt : pos + 1 ≤ index := by omega
      split
      · next hc =>
        subst hc
        simpa using ih h.newline hlt (by simpa using hstop)
      · next hc => simpa using ih (h.next hc) hlt (by simpa using hstop)

end SourceFile

namespace SyntaxError

/-- Let an error be about a span within a text. The line that is found for it holds the start of the span. The
column is at least one, if the text is not too long for a word, and neither the blanks below the line nor the marks
after them are less than none. -/
theorem line_holds (e : SyntaxError) (f : SourceFile) (hstart : 0 ≤ e.span.start)
    (hstop : e.span.stop ≤ f.text.length) :
    (f.lineOf e.span).Holds f.text e.span.start.toNat ∧
    (f.text.length + 1 < 2 ^ 63 → 1 ≤ (e.column f).toInt) ∧ 0 ≤ e.offset f ∧ 0 ≤ e.width f := by
  have horder := e.span.start_le_stop
  have hholds : (f.lineOf e.span).Holds f.text e.span.start.toNat := by
    have hfirst : SourceFile.Reached [] [] 0 1 0 := ⟨by simp, by simp, rfl, rfl, rfl⟩
    have h := SourceFile.holds_lineFrom e.span.start.toNat f.text hfirst (by omega) (by simp; omega)
    rwa [Int.toNat_of_nonneg hstart] at h
  have hle := hholds.start_le
  have hwithin := hholds.le_stop
  refine ⟨hholds, fun hsize => ?_, ?_, ?_⟩
  · rw [toInt_column]
    · omega
    · rw [Text.fitsSigned_iff]
      omega
  · rw [offset]
    omega
  · rw [width, offset]
    omega

/-- The second of two lines holds an error that starts on it and runs over its end. -/
theorem line_holds_second :
    let f : SourceFile := ⟨"two", ['(', 'a', '\n', 'b', ')', '\n']⟩
    let e : SyntaxError := ⟨Span.ofLength 4 2, "stray bracket"⟩
    f.lineOf e.span = ⟨2, 3, ['b', ')']⟩ ∧ (f.lineOf e.span).Holds f.text 4 ∧ 1 ≤ (e.column f).toInt := by
  intro f e
  obtain ⟨hline, hcolumn, -, -⟩ := line_holds e f (by decide) (by decide)
  exact ⟨by decide, hline, hcolumn (by decide)⟩

end SyntaxError

end Verdict
