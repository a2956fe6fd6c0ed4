import Verdict.Proofs.ReadBack
import Verdict.Smt.Query

/-! # Queries are read back from their texts

The text of a query is its comment, with a semicolon in front of every line, and then its commands, each
followed by a newline. Reading skips the comment whatever it says, since a line of it holds no newline
(`Query.kinds_printComment`), and finds the tokens of the commands in either layout. So the commands of the
script come back in order (`Query.readAll_print`). Symbols in bars end at the next bar, so no name may
contain one; sorts, numerals and the symbols of the solver itself contain none. A query has no text if a
part of an assertion is absent, and no other query is without one. -/

namespace Verdict

/-! ### Texts without bars -/

theorem bar_not_mem_toString (n : ℤ) : '|' ∉ (toString n).toList := by
  have hdigits : ∀ k : ℕ, '|' ∉ (toString k).toList := by
    intro k h
    have hk : (toString k).toList = Nat.toDigits 10 k := (String.ofList_eq.mp rfl).symm
    rw [hk] at h
    exact absurd (Nat.isDigit_of_mem_toDigits (by decide) (by decide) h) (by decide)
  cases n with
  | ofNat k => exact hdigits k
  | negSucc k =>
    change '|' ∉ ("-" ++ toString (k + 1)).toList
    simpa using hdigits (k + 1)

theorem SmtSort.noBars_toSExp : ∀ s : SmtSort, s.toSExp.NoBars
  | int | bool => show '|' ∉ _ by decide
  | array s => ⟨show '|' ∉ _ by decide, show '|' ∉ _ by decide, s.noBars_toSExp, trivial⟩

namespace Term

theorem noBars_intToSExp (n : Int64) : (intToSExp n).NoBars := by
  unfold intToSExp
  split_ifs
  · exact ⟨show '|' ∉ _ by decide, bar_not_mem_toString _, trivial⟩
  · exact bar_not_mem_toString _

mutual

/-- The constants, functions and bound names of a term. -/
def names : Term → List String
  | const x => [x]
  | int _ | lit _ | absent => []
  | app fn ts => fn :: namesAll ts
  | quant _ x _ t => x :: t.names
  | constArray _ t => t.names

def namesAll : List Term → List String
  | [] => []
  | t :: ts => t.names ++ namesAll ts

end

mutual

/-- Whether no part of a term is absent. -/
def IsWhole : Term → Prop
  | const _ | int _ | lit _ => True
  | app _ ts => AllWhole ts
  | quant _ _ _ t | constArray _ t => t.IsWhole
  | absent => False

def AllWhole : List Term → Prop
  | [] => True
  | t :: ts => t.IsWhole ∧ AllWhole ts

end

mutual

/-- A term without absent parts can be written, with bars only where its names have some. -/
theorem exists_noBars : ∀ (t : Term), t.IsWhole → (∀ x ∈ t.names, '|' ∉ x.toList) →
    ∃ e, t.toSExp = some e ∧ e.NoBars
  | const x, _, hx => ⟨.symbol x, rfl, hx x (by simp [names])⟩
  | int n, _, _ => ⟨intToSExp n, rfl, noBars_intToSExp n⟩
  | lit true, _, _ | lit false, _, _ => ⟨_, rfl, show '|' ∉ _ by decide⟩
  | app fn [], _, hx => ⟨.symbol fn, rfl, hx fn (by simp [names])⟩
  | app fn (t :: ts), h, hx => by
    obtain ⟨e, he, hbars⟩ := exists_noBars t h.1 fun x hmem => hx x (by simp [names, namesAll, hmem])
    obtain ⟨es, hes, hbarsAll⟩ :=
      exists_allNoBars ts h.2 fun x hmem => hx x (by simp [names, namesAll, hmem])
    exact ⟨.app fn (e :: es), by simp [toSExp, he, hes], hx fn (by simp [names]), hbars, hbarsAll⟩
  | quant q x s t, h, hx => by
    obtain ⟨e, he, hbars⟩ := exists_noBars t h fun y hmem => hx y (by simp [names, hmem])
    refine ⟨.app q.print [.list [.list [.symbol x, s.toSExp]], e], by simp [toSExp, he], ?_,
      ⟨⟨hx x (by simp [names]), s.noBars_toSExp, trivial⟩, trivial⟩, hbars, trivial⟩
    cases q with
    | all | some => show '|' ∉ _; decide
  | constArray s t, h, hx => by
    obtain ⟨e, he, hbars⟩ := exists_noBars t h hx
    refine ⟨.list [.app "as" [.symbol "const", (SmtSort.array s).toSExp], e], by simp [toSExp, he],
      ⟨?_, ?_, (SmtSort.array s).noBars_toSExp, trivial⟩, hbars, trivial⟩
    · show '|' ∉ _; decide
    · show '|' ∉ _; decide

theorem exists_allNoBars : ∀ (ts : List Term), AllWhole ts → (∀ x ∈ namesAll ts, '|' ∉ x.toList) →
    ∃ es, toSExps ts = some es ∧ SExp.AllNoBars es
  | [], _, _ => ⟨[], rfl, trivial⟩
  | t :: ts, h, hx => by
    obtain ⟨e, he, hbars⟩ := exists_noBars t h.1 fun x hmem => hx x (by simp [namesAll, hmem])
    obtain ⟨es, hes, hbarsAll⟩ := exists_allNoBars ts h.2 fun x hmem => hx x (by simp [namesAll, hmem])
    exact ⟨e :: es, by simp [toSExps, he, hes], hbars, hbarsAll⟩

end

mutual

/-- A term that can be written has no absent part. -/
theorem isWhole_of_toSExp : ∀ (t : Term) {e : SExp}, t.toSExp = some e → t.IsWhole
  | const _, e, he | int _, e, he | lit _, e, he | app _ [], e, he => trivial
  | app fn (t :: ts), e, he => by
    rw [toSExp] at he
    obtain ⟨a, ha, he⟩ := Option.bind_eq_some_iff.mp he
    obtain ⟨as, has, -⟩ := Option.bind_eq_some_iff.mp he
    exact ⟨isWhole_of_toSExp t ha, allWhole_of_toSExps ts has⟩
  | quant q x s t, e, he | constArray s t, e, he => by
    rw [toSExp] at he
    obtain ⟨a, ha, -⟩ := Option.bind_eq_some_iff.mp he
    exact isWhole_of_toSExp t ha
  | absent, e, he => by cases he

theorem allWhole_of_toSExps : ∀ (ts : List Term) {es : List SExp}, toSExps ts = some es → AllWhole ts
  | [], es, hes => trivial
  | t :: ts, es, hes => by
    rw [toSExps] at hes
    obtain ⟨a, ha, hes⟩ := Option.bind_eq_some_iff.mp hes
    obtain ⟨as, has, -⟩ := Option.bind_eq_some_iff.mp hes
    exact ⟨isWhole_of_toSExp t ha, allWhole_of_toSExps ts has⟩

end

end Term

/-! ### Comments -/

theorem Text.newline_not_mem_splitLines (cs : List Char) :
    '\n' ∉ (Text.splitLines cs).1 ∧ ∀ line ∈ (Text.splitLines cs).2, '\n' ∉ line := by
  induction cs with
  | nil => simp [Text.splitLines]
  | cons c cs ih =>
    rw [Text.splitLines]
    split_ifs with hc
    · exact ⟨List.not_mem_nil, List.forall_mem_cons.mpr ih⟩
    · exact ⟨by simp [Ne.symm hc, ih.1], ih.2⟩

theorem Text.newline_not_mem_lines {s line : String} (h : line ∈ Text.lines s) : '\n' ∉ line.toList := by
  obtain ⟨cs, hcs, rfl⟩ := List.mem_map.mp h
  rw [String.toList_ofList]
  obtain ⟨hfirst, hrest⟩ := Text.newline_not_mem_splitLines s.toList
  rcases List.mem_cons.mp hcs with rfl | hcs
  · exact hfirst
  · exact hrest cs hcs

namespace Query

open Token

/-- A line of a comment is skipped. -/
theorem kinds_commentLine {line : String} (hline : '\n' ∉ line.toList) (cs : List Char) :
    kinds (("; " ++ line ++ "\n").toList ++ cs) = kinds cs := by
  have htext : ("; " ++ line ++ "\n").toList ++ cs = ';' :: (' ' :: line.toList ++ '\n' :: cs) := by simp
  have hafter : afterComment (' ' :: line.toList ++ '\n' :: cs) = '\n' :: cs :=
    afterComment_append (by simp [hline]) (by simp)
  rw [htext, kinds_comment, hafter, kinds_blank rfl]

/-- A comment is skipped, whatever it says. -/
theorem kinds_printComment (comment : String) (cs : List Char) :
    kinds ((printComment comment).toList ++ cs) = kinds cs := by
  unfold printComment
  split_ifs
  · rfl
  · rw [String.toList_join, List.flatMap_map]
    have hlines : ∀ line ∈ Text.lines comment, '\n' ∉ line.toList := fun _ => Text.newline_not_mem_lines
    generalize Text.lines comment = lines at hlines
    induction lines with
    | nil => rfl
    | cons line lines ih =>
      obtain ⟨hline, hlines⟩ := List.forall_mem_cons.mp hlines
      rw [List.flatMap_cons, List.append_assoc, kinds_commentLine hline, ih hlines]

/-! ### Commands -/

theorem kinds_printCommand (layout : Option Layout) {e : SExp} (he : e.NoBars) {rest : List Char}
    (hrest : Breaks rest) : kinds ((printCommand layout e).toList ++ rest) = e.tokens ++ kinds rest := by
  cases layout with
  | none => exact e.kinds_print he hrest
  | some style => exact style.kinds_format he hrest

/-- Commands on lines of their own have their tokens, in order. -/
theorem kinds_commandLines (layout : Option Layout) {es : List SExp} (hes : ∀ e ∈ es, e.NoBars) :
    kinds (String.join (es.map fun e => printCommand layout e ++ "\n")).toList = SExp.tokensAll es := by
  rw [String.toList_join, List.flatMap_map]
  induction es with
  | nil => simp [SExp.tokensAll]
  | cons e es ih =>
    obtain ⟨he, hes⟩ := List.forall_mem_cons.mp hes
    rw [List.flatMap_cons, String.toList_append, List.append_assoc, SExp.tokensAll]
    refine (kinds_printCommand layout he (breaks_cons (c := '\n') rfl _)).trans ?_
    exact congrArg _ ((kinds_blank (c := '\n') rfl _).trans (ih hes))

/-- The constants, functions and bound names of a query. -/
def names (q : Query) : List String :=
  q.declarations.consts.names ++ q.declarations.funs.names ++ q.assertions.flatMap Term.names

theorem noBars_declarationCommands {q : Query} (hnames : ∀ x ∈ q.names, '|' ∉ x.toList) :
    ∀ e ∈ q.declarationCommands, e.NoBars := by
  intro e he
  rcases List.mem_append.mp he with he | he
  · obtain ⟨⟨x, s⟩, hx, rfl⟩ := List.mem_map.mp he
    have hbar : '|' ∉ x.toList := hnames x (by simp [names, NameMap.names]; exact .inl ⟨s, hx⟩)
    exact ⟨show '|' ∉ _ by decide, hbar, s.noBars_toSExp, trivial⟩
  · obtain ⟨⟨f, sig⟩, hf, rfl⟩ := List.mem_map.mp he
    have hbar : '|' ∉ f.toList := hnames f (by simp [names, NameMap.names]; exact .inr (.inl ⟨sig, hf⟩))
    have hargs : SExp.AllNoBars (sig.args.map SmtSort.toSExp) := by
      rw [SExp.allNoBars_iff, List.forall_mem_map]
      exact fun s _ => s.noBars_toSExp
    exact ⟨show '|' ∉ _ by decide, hbar, hargs, sig.result.noBars_toSExp, trivial⟩

theorem exists_mapM_noBars {ts : List Term} (hwhole : ∀ t ∈ ts, t.IsWhole)
    (hnames : ∀ t ∈ ts, ∀ x ∈ t.names, '|' ∉ x.toList) :
    ∃ es, ts.mapM Term.toSExp = some es ∧ ∀ e ∈ es, e.NoBars := by
  induction ts with
  | nil => exact ⟨[], rfl, by simp⟩
  | cons t ts ih =>
    obtain ⟨hwhole₀, hwhole⟩ := List.forall_mem_cons.mp hwhole
    obtain ⟨hnames₀, hnames⟩ := List.forall_mem_cons.mp hnames
    obtain ⟨e, he, hbars⟩ := t.exists_noBars hwhole₀ hnames₀
    obtain ⟨es, hes, hbarsAll⟩ := ih hwhole hnames
    exact ⟨e :: es, by simp [he, hes], List.forall_mem_cons.mpr ⟨hbars, hbarsAll⟩⟩

/-- A query without absent parts has a script. -/
theorem exists_script {q : Query} (hwhole : ∀ t ∈ q.assertions, t.IsWhole)
    (hnames : ∀ x ∈ q.names, '|' ∉ x.toList) :
    ∃ script, q.script? = some script ∧ ∀ e ∈ script, e.NoBars := by
  obtain ⟨es, hes, hbars⟩ := exists_mapM_noBars hwhole fun t ht x hx =>
    hnames x (List.mem_append_right _ (List.mem_flatMap.mpr ⟨t, ht, hx⟩))
  refine ⟨.app "set-option" [.symbol ":produce-models", .symbol "true"] :: (q.declarationCommands ++
    es.map (fun t => .app "assert" [t]) ++ [.app "check-sat" []]), by simp [script?, commands?, hes], ?_⟩
  have hassert : ∀ e ∈ es.map fun t => SExp.app "assert" [t], e.NoBars :=
    List.forall_mem_map.mpr fun e he => ⟨show '|' ∉ _ by decide, hbars e he, trivial⟩
  refine List.forall_mem_cons.mpr ⟨⟨?_, ?_, ?_, trivial⟩, List.forall_mem_append.mpr
    ⟨List.forall_mem_append.mpr ⟨noBars_declarationCommands hnames, hassert⟩, ?_⟩⟩
  · show '|' ∉ _; decide
  · show '|' ∉ _; decide
  · show '|' ∉ _; decide
  · exact List.forall_mem_singleton.mpr ⟨show '|' ∉ _ by decide, trivial⟩

theorem isWhole_of_mapM {ts : List Term} {es : List SExp} (h : ts.mapM Term.toSExp = some es) :
    ∀ t ∈ ts, t.IsWhole := by
  induction ts generalizing es with
  | nil => simp
  | cons t ts ih =>
    rw [List.mapM_cons] at h
    obtain ⟨e, he, h⟩ := Option.bind_eq_some_iff.mp h
    obtain ⟨es', hes, -⟩ := Option.bind_eq_some_iff.mp h
    exact List.forall_mem_cons.mpr ⟨t.isWhole_of_toSExp he, ih hes⟩

/-- A query with a text has no absent parts. -/
theorem isWhole_of_print {q : Query} {layout : Option Layout} {text : String}
    (h : q.print? layout = some text) : ∀ t ∈ q.assertions, t.IsWhole := by
  obtain ⟨script, hscript, -⟩ := Option.bind_eq_some_iff.mp h
  obtain ⟨commands, hcommands, -⟩ := Option.bind_eq_some_iff.mp hscript
  obtain ⟨es, hes, -⟩ := Option.bind_eq_some_iff.mp hcommands
  exact isWhole_of_mapM hes

/-- A query has a text if and only if no part of an assertion is absent. The text is read as the commands of
its script, in order and without anything else, whatever the comment says and however the commands are laid
out. -/
theorem readAll_print {q : Query} (hnames : ∀ x ∈ q.names, '|' ∉ x.toList) (layout : Option Layout)
    (file : String) :
    ((∃ text, q.print? layout = some text) ↔ ∀ t ∈ q.assertions, t.IsWhole) ∧
      ∀ text, q.print? layout = some text → ∃ script trees, q.script? = some script ∧
        STree.readAll (.ofString file text) = (trees, none) ∧ STree.eraseAll trees = script := by
  refine ⟨⟨fun ⟨_, h⟩ => isWhole_of_print h, fun hwhole => ?_⟩, fun text h => ?_⟩
  · obtain ⟨script, hscript, -⟩ := exists_script hwhole hnames
    exact Option.isSome_iff_exists.mp (by simp [print?, hscript])
  · obtain ⟨script, hscript, hbars⟩ := exists_script (isWhole_of_print h) hnames
    obtain rfl : printComment q.comment ++
        String.join (script.map fun e => printCommand layout e ++ "\n") = text := by
      simpa [print?, hscript] using h
    have hkinds := (kinds_printComment q.comment _).trans (kinds_commandLines layout hbars)
    rw [← String.toList_append] at hkinds
    obtain ⟨trees, htrees, herase⟩ := @STree.exists_readAll (.ofString file _) _ hkinds
    exact ⟨script, trees, hscript, htrees, herase⟩

/-- A query with a comment that would end in the middle of a symbol if it were read, a name in bars, a
quantifier over arrays and a constant array. -/
def quoted : Query where
  comment := "f ) (check-sat)\n; |t'Int"
  declarations := ⟨.ofList [("t'Int", .array .int)], .ofList [("f g'fn", ⟨[.array .int], .bool⟩)]⟩
  assertions := [.quant .all "u v" (.array .int)
    (.or [.app "f g'fn" [.const "t'Int"], .eq (.const "u v") (.constArray .int (.int (-1)))])]

/-- The five commands of `quoted` are read from its text within a narrow width. -/
theorem readAll_print_quoted : ∃ script text trees, quoted.script? = some script ∧
    script.length = 5 ∧ quoted.print? (some (queryLayout 20)) = some text ∧
    STree.readAll (.ofString "quoted" text) = (trees, none) ∧ STree.eraseAll trees = script := by
  have hwhole : ∀ t ∈ quoted.assertions, t.IsWhole := by
    simp [quoted, Term.IsWhole, Term.AllWhole, Term.or, Term.join, Term.isLit, Term.eq]
  have hnames : ∀ x ∈ quoted.names, '|' ∉ x.toList := by decide
  obtain ⟨hiff, hread⟩ := readAll_print hnames (some (queryLayout 20)) "quoted"
  obtain ⟨text, htext⟩ := hiff.mpr hwhole
  obtain ⟨script, trees, hscript, htrees, herase⟩ := hread text htext
  have hlen : quoted.script?.map List.length = some 5 := by decide
  refine ⟨script, text, trees, hscript, ?_, htext, htrees, herase⟩
  simpa [hscript] using hlen

end Query

end Verdict
