import Verdict.Proofs.ReadBack
import Verdict.Solver.Response

/-! # Responses are read one at a time

A response ends with the first line on which something has been written and no bracket is left open. In a layout
of an S-expression without newlines in its symbols, lines are broken only between brackets, and the brackets and
quotation marks in its symbols stand between bars. So the count of brackets passes over every part of the layout
as if it were not there (`Response.passes_piece`), and is back at zero exactly at the end. The lines up to there
are read as the S-expression, and what comes after them is left (`Response.read_leaves_rest`). -/

namespace Verdict

namespace Response

open Token

/-! ### Passing over a text -/

/-- Whether counting from `depth` open brackets passes over a text: the response does not end in it, and as many
brackets are open after it, outside quotations. -/
def Passes (depth : ℤ) (text : List Char) : Prop :=
  ∀ seen rest, splitFrom seen ⟨depth, none⟩ (text ++ rest) = splitFrom (text.reverse ++ seen) ⟨depth, none⟩ rest

theorem passes_nil (depth : ℤ) : Passes depth [] := fun _ _ => rfl

variable {depth : ℤ} {c : Char} {cs blanks : List Char} {t : SExp}

theorem Passes.append {a b : List Char} (ha : Passes depth a) (hb : Passes depth b) :
    Passes depth (a ++ b) := by
  intro seen rest
  rw [List.append_assoc, ha, hb, List.reverse_append, List.append_assoc]

theorem splitFrom_cons (hc : c ≠ '\n') (seen : List Char) (n : Nesting) (cs : List Char) :
    splitFrom seen n (c :: cs) = splitFrom (c :: seen) (n.step c) cs := by
  rw [splitFrom, if_neg hc]

/-- A line ends inside brackets. -/
theorem passes_newline (hdepth : 0 < depth) : Passes depth ['\n'] := by
  intro seen rest
  have hopen : isComplete seen depth = false := by
    simp only [isComplete, Bool.and_eq_false_iff, decide_eq_false_iff_not, not_le]
    exact .inl hdepth
  change splitFrom seen ⟨depth, none⟩ ('\n' :: rest) = _
  rw [splitFrom, if_pos rfl, hopen]
  rfl

/-- The characters that the count of brackets does not look at. -/
def IsPlain (c : Char) : Prop := c ≠ '\n' ∧ c ≠ '|' ∧ c ≠ '"' ∧ c ≠ '(' ∧ c ≠ ')'

theorem step_plain (hc : IsPlain c) (depth : ℤ) : Nesting.step ⟨depth, none⟩ c = ⟨depth, none⟩ := by
  obtain ⟨-, hbar, hmark, hopening, hclosing⟩ := hc
  simp [Nesting.step, hbar, hmark, hopening, hclosing]

theorem passes_plain (hcs : ∀ c ∈ cs, IsPlain c) (depth : ℤ) : Passes depth cs := by
  induction cs with
  | nil => exact passes_nil depth
  | cons c cs ih =>
    obtain ⟨hc, hcs⟩ := List.forall_mem_cons.mp hcs
    intro seen rest
    rw [List.cons_append, splitFrom_cons hc.1, step_plain hc, ih hcs, List.reverse_cons, List.append_assoc]
    rfl

/-- Between bars nothing counts but the second bar. -/
theorem splitFrom_inner (hbar : '|' ∉ cs) (hline : '\n' ∉ cs) (depth : ℤ) (seen rest : List Char) :
    splitFrom seen ⟨depth, some '|'⟩ (cs ++ rest) = splitFrom (cs.reverse ++ seen) ⟨depth, some '|'⟩ rest := by
  induction cs generalizing seen with
  | nil => rfl
  | cons c cs ih =>
    obtain ⟨hc, hbar⟩ := List.ne_and_not_mem_of_not_mem_cons hbar
    obtain ⟨hc', hline⟩ := List.ne_and_not_mem_of_not_mem_cons hline
    have hstep : Nesting.step ⟨depth, some '|'⟩ c = ⟨depth, some '|'⟩ := if_neg hc.symm
    rw [List.cons_append, splitFrom_cons hc'.symm, hstep, ih hbar hline, List.reverse_cons, List.append_assoc]
    rfl

theorem passes_bars (hbar : '|' ∉ cs) (hline : '\n' ∉ cs) (depth : ℤ) :
    Passes depth ('|' :: (cs ++ ['|'])) := by
  intro seen rest
  have htext : '|' :: (cs ++ ['|']) ++ rest = '|' :: (cs ++ '|' :: rest) := by simp
  rw [htext, splitFrom_cons (by decide)]
  refine (splitFrom_inner hbar hline depth _ _).trans ?_
  rw [splitFrom_cons (by decide)]
  simp [Nesting.step]

/-- Brackets are passed over if what stands between them is, one level deeper. -/
theorem passes_brackets {inner : List Char} (h : Passes (depth + 1) inner) :
    Passes depth ('(' :: (inner ++ [')'])) := by
  intro seen rest
  have htext : '(' :: (inner ++ [')']) ++ rest = '(' :: (inner ++ ')' :: rest) := by simp
  rw [htext, splitFrom_cons (by decide)]
  refine (h _ _).trans ?_
  rw [splitFrom_cons (by decide)]
  simp [Nesting.step]

/-! ### Passing over a layout -/

theorem isPlain_of_isSimpleChar (h : SExp.isSimpleChar c = true) : IsPlain c := by
  refine ⟨?_, ?_, ?_, ?_, ?_⟩ <;>
  · rintro rfl
    exact absurd h (by decide)

theorem passes_quote {x : String} (hbar : '|' ∉ x.toList) (hline : '\n' ∉ x.toList) (depth : ℤ) :
    Passes depth (SExp.quote x).toList := by
  unfold SExp.quote
  split_ifs with hsimple
  · refine passes_plain (fun c hc => ?_) depth
    rcases (SExp.chars_of_isSimple hsimple).2 c hc with rfl | hc
    · exact ⟨by decide, by decide, by decide, by decide, by decide⟩
    · exact isPlain_of_isSimpleChar hc
  · simpa using passes_bars hbar hline depth

/-- Whether no symbol in a list of them has a bar or a newline. -/
def OneLine (xs : List String) : Prop := ∀ x ∈ xs, '|' ∉ x.toList ∧ '\n' ∉ x.toList

theorem passes_blank (depth : ℤ) : Passes depth [' '] :=
  passes_plain (by simp [IsPlain]) depth

mutual

theorem passes_print : ∀ (t : SExp), OneLine t.symbols → ∀ depth : ℤ, Passes depth t.print.toList
  | .symbol x, h, depth => by
    obtain ⟨hbar, hline⟩ := h x (by simp [SExp.symbols])
    exact passes_quote hbar hline depth
  | .list ts, h, depth => by
    have htext : (SExp.list ts).print.toList = '(' :: ((SExp.printElements SExp.quote ts).toList ++ [')']) := by
      simp [SExp.print, SExp.printWith]
    rw [htext]
    exact passes_brackets (passes_printElements ts h (depth + 1))

theorem passes_printElements : ∀ (ts : List SExp), OneLine (SExp.symbolsAll ts) → ∀ depth : ℤ,
    Passes depth (SExp.printElements SExp.quote ts).toList
  | [], _, depth => passes_nil depth
  | [t], h, depth => passes_print t (List.forall_mem_append.mp h).1 depth
  | t :: u :: ts, h, depth => by
    obtain ⟨ht, hts⟩ := List.forall_mem_append.mp h
    have htext : (SExp.printElements SExp.quote (t :: u :: ts)).toList =
        t.print.toList ++ [' '] ++ (SExp.printElements SExp.quote (u :: ts)).toList := by
      simp [SExp.printElements, SExp.print]
    rw [htext]
    exact ((passes_print t ht depth).append (passes_blank depth)).append
      (passes_printElements (u :: ts) hts depth)

end

/-- The gap in front of an argument is passed over between brackets. -/
theorem passes_gap (hdepth : 0 < depth) (keep : Bool) (n : ℕ) :
    Passes depth (if keep = true then " " else "\n" ++ Layout.indent n).toList := by
  cases keep with
  | true => simpa using passes_blank depth
  | false =>
    have hindent : ∀ c ∈ (Layout.indent n).toList, IsPlain c := by
      intro c hc
      rw [Layout.indent, String.toList_ofList] at hc
      rw [List.eq_of_mem_replicate hc]
      simp [IsPlain]
    simpa using (passes_newline hdepth).append (passes_plain hindent depth)

mutual

/-- Every part of a layout is passed over, since lines are broken only between brackets. -/
theorem passes_piece (style : Layout) (t : SExp) (h : OneLine t.symbols) (level width : ℕ) {depth : ℤ}
    (hdepth : 0 ≤ depth) : Passes depth (style.piece level width t).text.toList :=
  match t, h with
  | .symbol x, h => by
    simpa [Layout.piece, Layout.Piece.flat, SExp.print, SExp.printWith] using passes_print (.symbol x) h depth
  | .list [], h | .list [_], h => by
    simpa [Layout.piece, Layout.Piece.flat, SExp.print, SExp.printWith, SExp.printElements] using
      passes_print _ h depth
  | .list (head :: t :: ts), h => by
    simp only [Layout.piece]
    split_ifs with hfits
    · exact passes_print (.list (head :: t :: ts)) h depth
    · obtain ⟨hhead, hargs⟩ := List.forall_mem_append.mp h
      have hinner := (passes_piece style head hhead (level + 1) (width + 1) (by omega : 0 ≤ depth + 1)).append
        (passes_arguments style (t :: ts) hargs (level + 1)
          (style.piece (level + 1) (width + 1) head).width
          (style.sticky.contains ((SExp.headOf [head]).getD "")) (by omega : 0 < depth + 1))
      simpa using passes_brackets hinner

theorem passes_arguments (style : Layout) (ts : List SExp) (h : OneLine (SExp.symbolsAll ts))
    (level width : ℕ) (keep : Bool) {depth : ℤ} (hdepth : 0 < depth) :
    Passes depth (style.arguments level width keep ts).text.toList :=
  match ts, h with
  | [], _ => by
    simpa [Layout.arguments] using passes_nil depth
  | t :: ts, h => by
    obtain ⟨ht, hts⟩ := List.forall_mem_append.mp h
    simp only [Layout.arguments, String.toList_append]
    exact ((passes_gap hdepth keep level).append (passes_piece style t ht _ _ hdepth.le)).append
      (passes_arguments style ts hts _ _ _ hdepth)

end

/-! ### From blank lines to the end of the response -/

theorem isPlain_of_isBlank (h : Text.isBlank c = true) (hline : c ≠ '\n') : IsPlain c := by
  refine ⟨hline, ?_, ?_, ?_, ?_⟩ <;>
  · rintro rfl
    exact absurd h (by decide)

/-- Blanks in front of a response belong to it, and no response ends in them. -/
theorem splitFrom_blanks (hblanks : ∀ c ∈ blanks, Text.isBlank c = true) {seen : List Char}
    (hseen : ∀ c ∈ seen, Text.isBlank c = true) (rest : List Char) :
    splitFrom seen .outside (blanks ++ rest) = splitFrom (blanks.reverse ++ seen) .outside rest := by
  induction blanks generalizing seen with
  | nil => rfl
  | cons c blanks ih =>
    obtain ⟨hc, hblanks⟩ := List.forall_mem_cons.mp hblanks
    have hstep : splitFrom seen .outside (c :: (blanks ++ rest)) =
        splitFrom (c :: seen) .outside (blanks ++ rest) := by
      by_cases hline : c = '\n'
      · have hempty : isComplete seen 0 = false := by simpa [isComplete] using hseen
        rw [splitFrom, if_pos hline, Nesting.outside, hempty]
        rfl
      · rw [splitFrom_cons hline, Nesting.outside, step_plain (isPlain_of_isBlank hc hline)]
    rw [List.cons_append, hstep, ih hblanks (List.forall_mem_cons.mpr ⟨hc, hseen⟩), List.reverse_cons,
      List.append_assoc]
    rfl

/-- A layout is not blank. -/
theorem exists_not_blank (style : Layout) (ht : t.NoBars) :
    ∃ c ∈ (style.format t).toList, Text.isBlank c = false := by
  by_contra hnone
  push Not at hnone
  have hblank : kinds (style.format t).toList = [] := by
    simpa using kinds_blanks (fun c hc => by simpa using hnone c hc) []
  have htokens : kinds (style.format t).toList = t.tokens := by
    simpa using style.kinds_format ht (show Breaks [] from trivial)
  rw [hblank] at htokens
  cases t <;> cases htokens

/-- The lines up to the end of a layout are split off. -/
theorem split_format (style : Layout) (ht : OneLine t.symbols)
    (hblanks : ∀ c ∈ blanks, Text.isBlank c = true) (rest : List Char) :
    split (blanks ++ ((style.format t).toList ++ '\n' :: rest)) =
      some (blanks ++ ((style.format t).toList ++ ['\n']), rest) := by
  have hpasses : Passes 0 (style.format t).toList := passes_piece style t ht 0 0 le_rfl
  obtain ⟨c, hc, hblank⟩ := exists_not_blank style (t.noBars_iff.mpr fun x hx => (ht x hx).1)
  have hcomplete : isComplete ((style.format t).toList.reverse ++ (blanks.reverse ++ [])) 0 = true := by
    simp only [isComplete, le_refl, decide_true, Bool.true_and, List.any_eq_true, List.mem_append,
      List.mem_reverse]
    exact ⟨c, .inl hc, by simp [hblank]⟩
  rw [split, splitFrom_blanks hblanks (by simp), Nesting.outside, hpasses, splitFrom, if_pos rfl, hcomplete]
  simp

theorem read_lines (style : Layout) (ht : t.NoBars) (hblanks : ∀ c ∈ blanks, Text.isBlank c = true) :
    SExp.read (String.ofList (blanks ++ ((style.format t).toList ++ ['\n']))) = .ok t := by
  refine SExp.read_of_kinds ?_
  rw [String.toList_ofList, kinds_blanks hblanks, style.kinds_format ht (breaks_cons (c := '\n') rfl []),
    kinds_blank (c := '\n') rfl, kinds_nil, List.append_nil]

/-- A response is read from the lines of any layout of an S-expression that does not report an error, after any
number of blank lines, and exactly what follows the newline at its end is left. -/
theorem read_leaves_rest (style : Layout) {t : SExp} (ht : ∀ x ∈ t.symbols, '|' ∉ x.toList ∧ '\n' ∉ x.toList)
    (herror : ∀ ts, t ≠ .list (.symbol "error" :: ts)) {blanks : List Char}
    (hblanks : ∀ c ∈ blanks, Text.isBlank c = true) (rest : List Char) :
    read (blanks ++ ((style.format t).toList ++ '\n' :: rest)) = .ok (t, rest) := by
  have hlines := read_lines style (t.noBars_iff.mpr fun x hx => (ht x hx).1) hblanks
  have hresponse : ofLines (String.ofList (blanks ++ ((style.format t).toList ++ ['\n']))) = .ok t := by
    rw [ofLines, hlines]
    split
    · next hfail => cases hfail
    · next ts hsome => exact absurd (Except.ok.inj hsome) (herror ts)
    · next hsome => rw [Except.ok.inj hsome]
  rw [read, split_format style ht hblanks]
  dsimp only
  rw [hresponse]
  rfl

/-- A definition of a constant whose name has a closing bracket, a quotation mark and a blank. -/
def definition : SExp :=
  .list [.symbol "define-fun", .symbol "x)\" y", .list [], .list [.symbol "-", .symbol "1"]]

/-- The definition is read from four lines after two blank ones, and the answer after it is left. -/
theorem read_leaves_rest_definition :
    (∀ x ∈ definition.symbols, '|' ∉ x.toList ∧ '\n' ∉ x.toList) ∧
    (∀ ts, definition ≠ .list (.symbol "error" :: ts)) ∧
    (⟨8, []⟩ : Layout).format definition = "(define-fun\n   |x)\" y|\n   ()\n   (- 1))" ∧
    read ("\n \t\n".toList ++ (((⟨8, []⟩ : Layout).format definition).toList ++ '\n' :: "unsat\n".toList)) =
      .ok (definition, "unsat\n".toList) := by
  have hsymbols : ∀ x ∈ definition.symbols, '|' ∉ x.toList ∧ '\n' ∉ x.toList := by decide
  have herror : ∀ ts, definition ≠ .list (.symbol "error" :: ts) := by simp [definition]
  have hblanks : ∀ c ∈ "\n \t\n".toList, Text.isBlank c = true := by simp [Text.isBlank]
  exact ⟨hsymbols, herror, by decide, read_leaves_rest ⟨8, []⟩ hsymbols herror hblanks _⟩

end Response

end Verdict
