import Mathlib
import Verdict.SExpr.Layout
import Verdict.SExpr.Reader

/-! # S-expressions are read back as they were written

A text is scanned from the front, one token after the other (`Token.scanFrom_word` and its siblings). What is
read depends on the kinds of the tokens only; where a token stands does not matter. Both ways of writing an
S-expression, on one line and laid out within a width, give the same kinds (`Layout.kinds_format`,
`SExp.kinds_print`), and from these kinds the S-expression is read (`STree.exists_readTokens`). So it comes back
from either text (`SExp.written_read_back`). A symbol in bars ends at the next bar, so symbols must not contain
one. -/

namespace Verdict

variable {rest : List Char} {c : Char}

namespace Token

/-! ### Scanning from the front

What stands at the front of a text gives its token, and scanning goes on behind it. -/

theorem scanFrom_blank (hc : Text.isBlank c = true) (pos : ℕ) (cs : List Char) :
    scanFrom pos (c :: cs) = scanFrom (pos + 1) cs := by
  rw [scanFrom, if_pos hc]

theorem scanFrom_comment (pos : ℕ) (cs : List Char) :
    scanFrom pos (';' :: cs) =
      scanFrom (pos + 1 + (cs.length - (afterComment cs).length)) (afterComment cs) := by
  rw [scanFrom, if_neg (by decide), if_pos rfl]

theorem scanFrom_opening (pos : ℕ) (cs : List Char) :
    scanFrom pos ('(' :: cs) = ⟨.opening, pos, 1⟩ :: scanFrom (pos + 1) cs := by
  rw [scanFrom, if_neg (by decide), if_neg (by decide), if_pos rfl]

theorem scanFrom_closing (pos : ℕ) (cs : List Char) :
    scanFrom pos (')' :: cs) = ⟨.closing, pos, 1⟩ :: scanFrom (pos + 1) cs := by
  rw [scanFrom, if_neg (by decide), if_neg (by decide), if_neg (by decide), if_pos rfl]

variable {inner cs : List Char}

theorem barred_append (h : '|' ∉ inner) (rest : List Char) :
    barred (inner ++ '|' :: rest) = some (inner, rest) := by
  induction inner with
  | nil => simp [barred]
  | cons c cs ih =>
    obtain ⟨hc, hcs⟩ := List.ne_and_not_mem_of_not_mem_cons h
    simp [barred, Ne.symm hc, ih hcs]

theorem scanFrom_bars (h : '|' ∉ inner) (pos : ℕ) (rest : List Char) :
    scanFrom pos ('|' :: (inner ++ '|' :: rest)) =
      ⟨.symbol (String.ofList inner), pos, inner.length + 2⟩ :: scanFrom (pos + (inner.length + 2)) rest := by
  rw [scanFrom, if_neg (by decide), if_neg (by decide), if_neg (by decide), if_neg (by decide), if_pos rfl]
  split
  · next hnone => cases (barred_append h rest).symm.trans hnone
  · next inner' rest' hsome =>
    obtain ⟨rfl, rfl⟩ := Prod.mk.inj (Option.mem_unique (barred_append h rest) hsome)
    rfl

/-- A run of characters ends in front of the first one that does not belong to it. -/
theorem run_append {p : Char → Bool} {cs rest : List Char} (hcs : ∀ c ∈ cs, p c = true)
    (hrest : ∀ c ∈ rest.head?, p c = false) :
    (cs ++ rest).takeWhile p = cs ∧ (cs ++ rest).dropWhile p = rest := by
  rw [List.takeWhile_append_of_pos hcs, List.dropWhile_append_of_pos hcs]
  cases rest with
  | nil => simp
  | cons d ds =>
    have hd : ¬ p d = true := by simp [hrest d rfl]
    rw [List.takeWhile_cons_of_neg hd, List.dropWhile_cons_of_neg hd, List.append_nil]
    exact ⟨rfl, rfl⟩

theorem forall_bne_newline (h : '\n' ∉ cs) : ∀ c ∈ cs, (c != '\n') = true :=
  fun _ hc => bne_iff_ne.mpr fun hnewline => h (hnewline ▸ hc)

theorem afterComment_append (hcs : '\n' ∉ cs) (hrest : ∀ c ∈ rest.head?, c = '\n') :
    afterComment (cs ++ rest) = rest :=
  (run_append (forall_bne_newline hcs) fun c hc => by simp [hrest c hc]).2

theorem not_isDelimiter_iff : isDelimiter c = false ↔
    c ≠ '(' ∧ c ≠ ')' ∧ c ≠ '|' ∧ c ≠ ';' ∧ Text.isBlank c = false := by
  simp [isDelimiter, and_assoc]

/-- Whether a text does not continue a symbol in front of it. -/
def Breaks : List Char → Prop
  | [] => True
  | c :: _ => isDelimiter c = true

theorem breaks_cons (hc : isDelimiter c = true) (cs : List Char) : Breaks (c :: cs) := hc

theorem breaks_iff : Breaks cs ↔ ∀ c ∈ cs.head?, isDelimiter c = true := by
  cases cs <;> simp [Breaks]

/-- A symbol without bars is scanned up to the next delimiter. -/
theorem scanFrom_word (hne : cs ≠ []) (hcs : ∀ c ∈ cs, isDelimiter c = false) (hrest : Breaks rest)
    (pos : ℕ) :
    scanFrom pos (cs ++ rest) =
      ⟨.symbol (String.ofList cs), pos, cs.length⟩ :: scanFrom (pos + cs.length) rest := by
  obtain ⟨c, cs, rfl⟩ := List.exists_cons_of_ne_nil hne
  obtain ⟨hopening, hclosing, hbar, hcomment, hblank⟩ :=
    not_isDelimiter_iff.mp (hcs c List.mem_cons_self)
  have hrun := @run_append (fun c => !isDelimiter c) cs rest
    (fun c hc => by simp [hcs c (List.mem_cons_of_mem _ hc)]) (fun c hc => by simp [breaks_iff.mp hrest c hc])
  rw [List.cons_append, scanFrom, if_neg (by simp [hblank]), if_neg hcomment, if_neg hopening,
    if_neg hclosing, if_neg hbar]
  simp only [symbolChars, afterSymbol, hrun]

/-! ### The kinds of tokens -/

/-- The kinds of the tokens of a text. -/
def kinds (cs : List Char) : List Kind := (scan cs).map kind

/-- Where a text stands does not matter for the kinds of its tokens. -/
theorem map_kind_scanFrom (p q : ℕ) (cs : List Char) :
    (scanFrom p cs).map kind = (scanFrom q cs).map kind := by
  fun_induction scanFrom p cs generalizing q with
  | case1 => simp [scanFrom]
  | case2 pos c cs hblank ih =>
    rw [scanFrom, if_pos hblank]
    exact ih (q + 1)
  | case3 pos cs rest hrest hblank ih =>
    rw [scanFrom, if_neg hblank, if_pos rfl]
    exact ih _
  | case4 pos cs hblank hcomment ih =>
    rw [scanFrom, if_neg hblank, if_neg hcomment, if_pos rfl, List.map_cons, List.map_cons, ih (q + 1)]
  | case5 pos cs hblank hcomment hopening ih =>
    rw [scanFrom, if_neg hblank, if_neg hcomment, if_neg hopening, if_pos rfl, List.map_cons,
      List.map_cons, ih (q + 1)]
  | case6 pos cs hnone hblank hcomment hopening hclosing =>
    rw [scanFrom, if_neg hblank, if_neg hcomment, if_neg hopening, if_neg hclosing, if_pos rfl]
    split
    · rfl
    · next hsome => cases hnone.symm.trans hsome
  | case7 pos cs inner rest hbarred hlength hblank hcomment hopening hclosing ih =>
    rw [scanFrom, if_neg hblank, if_neg hcomment, if_neg hopening, if_neg hclosing, if_pos rfl]
    split
    · next hnone => cases hbarred.symm.trans hnone
    · next inner' rest' hsome =>
      obtain ⟨rfl, rfl⟩ := Prod.mk.inj (Option.mem_unique hbarred hsome)
      rw [List.map_cons, List.map_cons, ih]
  | case8 pos c cs hblank hcomment hopening hclosing hbar chars hlength ih =>
    rw [scanFrom, if_neg hblank, if_neg hcomment, if_neg hopening, if_neg hclosing, if_neg hbar,
      List.map_cons, List.map_cons, ih]

@[simp] theorem kinds_nil : kinds [] = [] := by simp [kinds, scan, scanFrom]

theorem kinds_blank (hc : Text.isBlank c = true) (cs : List Char) : kinds (c :: cs) = kinds cs := by
  rw [kinds, scan, scanFrom_blank hc]
  exact map_kind_scanFrom _ _ cs

theorem kinds_blanks {blanks : List Char} (hblanks : ∀ c ∈ blanks, Text.isBlank c = true) (cs : List Char) :
    kinds (blanks ++ cs) = kinds cs := by
  induction blanks with
  | nil => rfl
  | cons c blanks ih =>
    obtain ⟨hc, hblanks⟩ := List.forall_mem_cons.mp hblanks
    rw [List.cons_append, kinds_blank hc, ih hblanks]

theorem kinds_comment (cs : List Char) : kinds (';' :: cs) = kinds (afterComment cs) := by
  rw [kinds, scan, scanFrom_comment]
  exact map_kind_scanFrom _ _ _

theorem kinds_opening (cs : List Char) : kinds ('(' :: cs) = .opening :: kinds cs := by
  rw [kinds, scan, scanFrom_opening, List.map_cons, map_kind_scanFrom _ 0]
  rfl

theorem kinds_closing (cs : List Char) : kinds (')' :: cs) = .closing :: kinds cs := by
  rw [kinds, scan, scanFrom_closing, List.map_cons, map_kind_scanFrom _ 0]
  rfl

theorem kinds_bars (h : '|' ∉ inner) (rest : List Char) :
    kinds ('|' :: inner ++ '|' :: rest) = .symbol (String.ofList inner) :: kinds rest := by
  rw [List.cons_append, kinds, scan, scanFrom_bars h, List.map_cons, map_kind_scanFrom _ 0]
  rfl

/-- A symbol without bars is read up to the next delimiter. -/
theorem kinds_word (hne : cs ≠ []) (hcs : ∀ c ∈ cs, isDelimiter c = false) (hrest : Breaks rest) :
    kinds (cs ++ rest) = .symbol (String.ofList cs) :: kinds rest := by
  rw [kinds, scan, scanFrom_word hne hcs hrest, List.map_cons, map_kind_scanFrom _ 0]
  rfl

end Token

/-! ### Symbols as they are written -/

namespace SExp

open Token

mutual

/-- The kinds of the tokens of an S-expression. -/
def tokens : SExp → List Token.Kind
  | symbol x => [.symbol x]
  | list ts => .opening :: (tokensAll ts ++ [.closing])

def tokensAll : List SExp → List Token.Kind
  | [] => []
  | t :: ts => t.tokens ++ tokensAll ts

end

mutual

/-- Whether no symbol of an S-expression contains a bar. -/
def NoBars : SExp → Prop
  | symbol x => '|' ∉ x.toList
  | list ts => AllNoBars ts

def AllNoBars : List SExp → Prop
  | [] => True
  | t :: ts => t.NoBars ∧ AllNoBars ts

end

theorem allNoBars_iff {ts : List SExp} : AllNoBars ts ↔ ∀ t ∈ ts, t.NoBars := by
  induction ts with
  | nil => simp [AllNoBars]
  | cons t ts ih => simp [AllNoBars, ih]

mutual

/-- The symbols of an S-expression. -/
def symbols : SExp → List String
  | symbol x => [x]
  | list ts => symbolsAll ts

def symbolsAll : List SExp → List String
  | [] => []
  | t :: ts => t.symbols ++ symbolsAll ts

end

mutual

theorem noBars_iff : ∀ t : SExp, t.NoBars ↔ ∀ x ∈ t.symbols, '|' ∉ x.toList
  | symbol x => by simp [NoBars, symbols]
  | list ts => allNoBars_iff_symbolsAll ts

theorem allNoBars_iff_symbolsAll : ∀ ts : List SExp, AllNoBars ts ↔ ∀ x ∈ symbolsAll ts, '|' ∉ x.toList
  | [] => by simp [AllNoBars, symbolsAll]
  | t :: ts => by
    rw [AllNoBars, symbolsAll, List.forall_mem_append, noBars_iff t, allNoBars_iff_symbolsAll ts]

end

/-- A letter or digit is no blank. -/
theorem not_isBlank_of_isAlphanum (h : c.isAlphanum = true) : Text.isBlank c = false := by
  simp only [Char.isAlphanum, Char.isAlpha, Char.isUpper, Char.isLower, Char.isDigit,
    Bool.or_eq_true, Bool.and_eq_true, decide_eq_true_eq, UInt32.le_iff_toNat_le, ge_iff_le] at h
  change ((65 ≤ c.toNat ∧ c.toNat ≤ 90) ∨ 97 ≤ c.toNat ∧ c.toNat ≤ 122) ∨
    48 ≤ c.toNat ∧ c.toNat ≤ 57 at h
  simp only [Text.isBlank, Bool.or_eq_false_iff, Bool.and_eq_false_iff, decide_eq_false_iff_not,
    beq_eq_false_iff_ne]
  omega

theorem punctuation_eq : punctuation = ['~', '!', '@', '$', '%', '^', '&', '*', '_', '-', '+', '=', '<',
    '>', '.', '?', '/'] := String.toList_ofList

theorem not_isDelimiter_of_isSimpleChar (h : isSimpleChar c = true) : isDelimiter c = false := by
  simp only [isSimpleChar, Bool.or_eq_true] at h
  rcases h with h | h
  · refine not_isDelimiter_iff.mpr ⟨?_, ?_, ?_, ?_, not_isBlank_of_isAlphanum h⟩ <;>
    · rintro rfl
      exact absurd h (by decide)
  · rw [punctuation_eq, List.contains_iff_mem] at h
    fin_cases h <;> rfl

/-- A simple symbol is made of simple characters, apart from a colon. -/
theorem chars_of_isSimple {x : String} (h : isSimple x = true) :
    x.toList ≠ [] ∧ ∀ c ∈ x.toList, c = ':' ∨ isSimpleChar c = true := by
  simp only [isSimple, Bool.and_eq_true, Bool.not_eq_true', List.isEmpty_eq_false_iff,
    List.all_eq_true] at h
  unfold dropColon at h
  split at h
  · next cs hcs =>
    rw [hcs]
    refine ⟨by simp, fun c hc => ?_⟩
    rcases List.mem_cons.mp hc with rfl | hc
    · exact .inl rfl
    · exact .inr (h.2 c hc)
  · exact ⟨h.1, fun c hc => .inr (h.2 c hc)⟩

/-- A symbol is read as it was before it was written. -/
theorem kinds_quote {x : String} (hx : '|' ∉ x.toList) (hrest : Breaks rest) :
    kinds ((quote x).toList ++ rest) = .symbol x :: kinds rest := by
  unfold quote
  split_ifs with hsimple
  · obtain ⟨hne, hchars⟩ := chars_of_isSimple hsimple
    have hword : ∀ c ∈ x.toList, isDelimiter c = false := by
      intro c hc
      rcases hchars c hc with rfl | hc
      · decide
      · exact not_isDelimiter_of_isSimpleChar hc
    rw [kinds_word hne hword hrest, String.ofList_toList]
  · have hbars := kinds_bars hx rest
    rw [String.ofList_toList] at hbars
    simpa using hbars

/-! ### S-expressions on one line -/

mutual

/-- An S-expression on one line has its tokens. -/
theorem kinds_print : ∀ (t : SExp), t.NoBars → ∀ {rest : List Char}, Breaks rest →
    kinds (t.print.toList ++ rest) = t.tokens ++ kinds rest
  | symbol x, ht, rest, hrest => kinds_quote ht hrest
  | list ts, ht, rest, hrest => by
    have htext : (list ts).print.toList ++ rest = '(' :: ((printElements quote ts).toList ++ ')' :: rest) := by
      simp [print, printWith]
    rw [htext, kinds_opening, kinds_printElements ts ht (breaks_cons rfl rest), kinds_closing]
    simp [tokens]

theorem kinds_printElements : ∀ (ts : List SExp), AllNoBars ts → ∀ {rest : List Char}, Breaks rest →
    kinds ((printElements quote ts).toList ++ rest) = tokensAll ts ++ kinds rest
  | [], _, rest, _ => by simp [printElements, tokensAll]
  | [t], ht, rest, hrest => by
    rw [tokensAll, tokensAll, List.append_nil]
    exact kinds_print t ht.1 hrest
  | t :: u :: ts, ht, rest, hrest => by
    have htext : (printElements quote (t :: u :: ts)).toList ++ rest =
        t.print.toList ++ ' ' :: ((printElements quote (u :: ts)).toList ++ rest) := by
      simp [printElements, print]
    rw [htext, kinds_print t ht.1 (breaks_cons rfl _), kinds_blank rfl, kinds_printElements (u :: ts) ht.2 hrest]
    simp [tokensAll]

end

end SExp

/-! ### S-expressions within a width -/

variable {t : SExp}

namespace Layout

open Token SExp

theorem kinds_indent (depth : ℕ) (cs : List Char) : kinds ((indent depth).toList ++ cs) = kinds cs := by
  refine kinds_blanks (fun c hc => ?_) cs
  rw [indent, String.toList_ofList] at hc
  rw [List.eq_of_mem_replicate hc]
  rfl

/-- The arguments of a broken list stand apart from its head. -/
theorem breaks_arguments (style : Layout) (depth width : ℕ) (keep : Bool) (ts : List SExp)
    (hrest : Breaks rest) : Breaks ((style.arguments depth width keep ts).text.toList ++ rest) := by
  cases ts with
  | nil => simpa [arguments] using hrest
  | cons t ts =>
    cases keep with
    | true | false => simp [arguments, Breaks, isDelimiter, Text.isBlank]

mutual

/-- A piece of a layout has the tokens of what it writes. -/
theorem kinds_piece (style : Layout) (t : SExp) (depth width : ℕ) (ht : t.NoBars) {rest : List Char}
    (hrest : Breaks rest) :
    kinds ((style.piece depth width t).text.toList ++ rest) = t.tokens ++ kinds rest :=
  match t, ht with
  | .symbol x, ht => by
    simpa [piece, Piece.flat, tokens] using kinds_quote ht hrest
  | .list [], ht | .list [_], ht => by
    simpa [piece, Piece.flat, SExp.print, printWith, printElements] using kinds_print _ ht hrest
  | .list (head :: t :: ts), ht => by
    simp only [piece]
    split_ifs with hfits
    · exact kinds_print (.list (head :: t :: ts)) ht hrest
    · simp only [String.toList_append, List.append_assoc]
      -- The list is broken: its head and its arguments are pieces of their own.
      have hclosing : Breaks (')' :: rest) := breaks_cons rfl rest
      change kinds ('(' :: (_ ++ (_ ++ ')' :: rest))) = _
      rw [kinds_opening, kinds_piece style head _ _ ht.1 (breaks_arguments style _ _ _ _ hclosing),
        kinds_arguments style (t :: ts) _ _ _ ht.2 hclosing, kinds_closing]
      simp [tokens, tokensAll]

theorem kinds_arguments (style : Layout) (ts : List SExp) (depth width : ℕ) (keep : Bool)
    (ht : AllNoBars ts) {rest : List Char} (hrest : Breaks rest) :
    kinds ((style.arguments depth width keep ts).text.toList ++ rest) = tokensAll ts ++ kinds rest :=
  match ts, ht with
  | [], ht => by simp [arguments, tokensAll]
  | t :: ts, ht => by
    have hgap : ∀ cs, kinds ((if keep = true then " " else "\n" ++ indent depth).toList ++ cs) = kinds cs := by
      intro cs
      cases keep with
      | true => simpa using kinds_blank (c := ' ') rfl cs
      | false =>
        rw [if_neg (by decide), String.toList_append, List.append_assoc]
        exact (kinds_blank (c := '\n') rfl _).trans (kinds_indent depth cs)
    simp only [arguments, String.toList_append, List.append_assoc]
    rw [hgap, kinds_piece style t _ _ ht.1 (breaks_arguments style _ _ _ _ hrest),
      kinds_arguments style ts _ _ _ ht.2 hrest, tokensAll, List.append_assoc]

end

/-- A layout has the tokens of what it writes. -/
theorem kinds_format (style : Layout) (ht : t.NoBars) (hrest : Breaks rest) :
    kinds ((style.format t).toList ++ rest) = t.tokens ++ kinds rest :=
  kinds_piece style t 0 0 ht hrest

end Layout

/-! ### Reading tokens -/

namespace STree

/-- The pending list with several more elements. -/
def Pending.pushAll (p : Pending) (trees : List STree) : Pending := ⟨p.start, trees.reverse ++ p.elements⟩

theorem Pending.pushAll_cons (p : Pending) (t : STree) (ts : List STree) :
    p.pushAll (t :: ts) = (p.push t).pushAll ts := by
  simp [pushAll, push]

theorem exists_of_map_kind {ts : List Token} {k : Token.Kind} {ks : List Token.Kind}
    (h : ts.map Token.kind = k :: ks) : ∃ t rest, ts = t :: rest ∧ t.kind = k ∧ rest.map Token.kind = ks :=
  List.map_eq_cons_iff.mp h

mutual

/-- The tokens of an S-expression are read as a tree of it, at the top or as the next element of a list. -/
theorem exists_next : ∀ (t : SExp) {ts : List Token} {ks : List Token.Kind},
    ts.map Token.kind = t.tokens ++ ks → ∃ tree rest, tree.erase = t ∧ rest.map Token.kind = ks ∧
      next [] ts = .ok (some (tree, rest)) ∧
        ∀ p stack, next (p :: stack) ts = next (p.push tree :: stack) rest
  | .symbol x, ts, ks, h => by
    obtain ⟨t, rest, rfl, ht, hrest⟩ := exists_of_map_kind h
    refine ⟨.symbol (Span.ofLength t.start t.length) x, rest, rfl, hrest, ?_, fun p stack => ?_⟩
    · simp [next, ht]
    · simp [next, ht]
  | .list es, ts, ks, h => by
    rw [SExp.tokens, List.cons_append, List.append_assoc] at h
    obtain ⟨opening, inner, rfl, hopening, hinner⟩ := exists_of_map_kind h
    obtain ⟨trees, after, rfl, hafter, hnext⟩ := exists_nextAll es hinner
    obtain ⟨closing, rest, rfl, hclosing, hrest⟩ := exists_of_map_kind hafter
    refine ⟨(Pending.pushAll ⟨opening.start, []⟩ trees).close closing.start, rest, ?_, hrest, ?_,
      fun p stack => ?_⟩
    · simp [Pending.pushAll, Pending.close, erase]
    · simp [next, hopening, hnext, hclosing]
    · simp [next, hopening, hnext, hclosing]

theorem exists_nextAll : ∀ (es : List SExp) {ts : List Token} {ks : List Token.Kind},
    ts.map Token.kind = SExp.tokensAll es ++ ks → ∃ trees rest, eraseAll trees = es ∧
      rest.map Token.kind = ks ∧ ∀ p stack, next (p :: stack) ts = next (p.pushAll trees :: stack) rest
  | [], ts, ks, h => ⟨[], ts, rfl, h, fun p stack => rfl⟩
  | e :: es, ts, ks, h => by
    rw [SExp.tokensAll, List.append_assoc] at h
    obtain ⟨tree, after, rfl, hafter, -, hnext⟩ := exists_next e h
    obtain ⟨trees, rest, rfl, hrest, hnextAll⟩ := exists_nextAll es hafter
    refine ⟨tree :: trees, rest, rfl, hrest, fun p stack => ?_⟩
    rw [hnext, hnextAll, Pending.pushAll_cons]

end

theorem readTokens_of_next {ts rest : List Token} {tree : STree} (h : next [] ts = .ok (some (tree, rest))) :
    readTokens ts = (tree :: (readTokens rest).1, (readTokens rest).2) := by
  rw [readTokens]
  split
  · next hfail => cases h.symm.trans hfail
  · next hnone => cases h.symm.trans hnone
  · next hsome =>
    cases h.symm.trans hsome
    rfl

/-- The tokens of several S-expressions are read as trees of them. -/
theorem exists_readTokens : ∀ (es : List SExp) {ts : List Token},
    ts.map Token.kind = SExp.tokensAll es → ∃ trees, readTokens ts = (trees, none) ∧ eraseAll trees = es
  | [], ts, h => by
    obtain rfl := List.map_eq_nil_iff.mp h
    exact ⟨[], by rw [readTokens]; rfl, rfl⟩
  | e :: es, ts, h => by
    obtain ⟨tree, rest, rfl, hrest, hnext, -⟩ := exists_next e h
    obtain ⟨trees, htrees, rfl⟩ := exists_readTokens es hrest
    exact ⟨tree :: trees, by rw [readTokens_of_next hnext, htrees], rfl⟩

/-- A file with the tokens of several S-expressions is read as trees of them. -/
theorem exists_readAll {file : SourceFile} {es : List SExp} (h : Token.kinds file.text = SExp.tokensAll es) :
    ∃ trees, readAll file = (trees, none) ∧ eraseAll trees = es := by
  obtain ⟨trees, htrees, hes⟩ := exists_readTokens es h
  exact ⟨trees, by rw [readAll, htrees]; rfl, hes⟩

end STree

namespace SExp

/-- A text with the tokens of an S-expression is read as that S-expression. -/
theorem read_of_kinds {text : String} (h : Token.kinds text.toList = t.tokens) :
    read text = .ok t := by
  obtain ⟨tree, rest, rfl, hrest, hnext, -⟩ := STree.exists_next t (h.trans (List.append_nil _).symm)
  obtain rfl := List.map_eq_nil_iff.mp hrest
  have hread : STree.read (.ofString "<string>" text) = .ok tree := by
    rw [STree.read, SourceFile.ofString, hnext]
  rw [read, hread]
  rfl

/-- An S-expression on one line is read back. -/
theorem read_print (ht : t.NoBars) : read t.print = .ok t := by
  refine read_of_kinds ?_
  simpa using kinds_print t ht (show Token.Breaks [] from trivial)

/-- A laid-out S-expression is read back. -/
theorem read_format (style : Layout) (ht : t.NoBars) : read (style.format t) = .ok t := by
  refine read_of_kinds ?_
  simpa using style.kinds_format ht (show Token.Breaks [] from trivial)

/-- An S-expression without bars in its symbols is read back from every layout and from its text on one line,
whatever else its symbols contain. -/
theorem written_read_back (t : SExp) (hbars : ∀ x ∈ t.symbols, '|' ∉ x.toList) (style : Layout) :
    read (style.format t) = .ok t ∧ read t.print = .ok t := by
  have ht : t.NoBars := t.noBars_iff.mpr hbars
  exact ⟨read_format style ht, read_print ht⟩

/-- An S-expression with an empty symbol and with symbols that contain a blank, brackets, a semicolon, a
quotation mark and a newline. -/
def awkward : SExp :=
  .list [.symbol "let", .list [.symbol "", .symbol "a b"], .symbol "x;(\n\"", .list []]

/-- All lines of `awkward` are broken that can be, after a head that keeps its first argument, and it is read
back. -/
theorem written_read_back_awkward : (∀ x ∈ awkward.symbols, '|' ∉ x.toList) ∧
    (⟨4, ["let"]⟩ : Layout).format awkward = "(let (||\n      |a b|)\n   |x;(\n\"|\n   ())" ∧
    read ((⟨4, ["let"]⟩ : Layout).format awkward) = .ok awkward ∧ read awkward.print = .ok awkward := by
  have hbars : ∀ x ∈ awkward.symbols, '|' ∉ x.toList := by decide
  exact ⟨hbars, by decide, written_read_back awkward hbars ⟨4, ["let"]⟩⟩

end SExp

end Verdict
