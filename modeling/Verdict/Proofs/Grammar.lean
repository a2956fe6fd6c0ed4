import Verdict.Proofs.ReadBack

/-! # The grammar of S-expressions

A text is a sequence of items: blanks and terms, as they are written. A blank is a white-space character or a
comment, which goes from a semicolon up to the next newline or the end of the text. A term is a sequence of
items in brackets, a symbol in bars, or a longest run of characters that are neither blank nor one of
`( ) | ;`. Only comments and such runs depend on what follows them, and only on the next character.

Reading follows the items: it gives the tree of every term at its position and goes on behind it
(`STree.next_textAll`, `STree.readTokens_textAll`). Conversely, a text that is read without failure is a
sequence of items (`STree.starts_of_readTokens`), and since the first character of an item says of which shape
it is, there is only one such sequence (`Item.eq_of_textAll`). -/

namespace Verdict

/-- A blank or a term, as it is written. -/
inductive Item where
  | space (c : Char)
  /-- A comment, without its semicolon. -/
  | comment (cs : List Char)
  /-- A symbol in bars. -/
  | bars (cs : List Char)
  /-- A symbol without bars. -/
  | word (cs : List Char)
  | list (items : List Item)

theorem STree.eraseAll_append (ts us : List STree) :
    STree.eraseAll (ts ++ us) = STree.eraseAll ts ++ STree.eraseAll us := by
  induction ts with
  | nil => rfl
  | cons t ts ih => rw [List.cons_append, STree.eraseAll, STree.eraseAll, ih, List.cons_append]

variable {cs rest : List Char} {c : Char}

namespace Item

open Token

/-! ### Items and their texts -/

mutual

def text : Item → List Char
  | space c => [c]
  | comment cs => ';' :: cs
  | bars cs => '|' :: (cs ++ ['|'])
  | word cs => cs
  | list items => '(' :: (textAll items ++ [')'])

def textAll : List Item → List Char
  | [] => []
  | i :: is => i.text ++ textAll is

end

/-- The characters of symbols without bars. -/
def IsWordChar (c : Char) : Prop :=
  c ≠ '(' ∧ c ≠ ')' ∧ c ≠ '|' ∧ c ≠ ';' ∧ Text.isBlank c = false

mutual

/-- Whether an item is written correctly in front of the character `after`, or at the end of the text if there
is none. Comments end with their line, and symbols without bars are longest runs. -/
def Fits (after : Option Char) : Item → Prop
  | space c => Text.isBlank c = true
  | comment cs => '\n' ∉ cs ∧ ∀ c ∈ after, c = '\n'
  | bars cs => '|' ∉ cs
  | word cs => cs ≠ [] ∧ (∀ c ∈ cs, IsWordChar c) ∧ ∀ c ∈ after, ¬ IsWordChar c
  | list items => FitAll (some ')') items

/-- Whether several items are written correctly one after the other. -/
def FitAll (after : Option Char) : List Item → Prop
  | [] => True
  | i :: is => i.Fits ((textAll is).head?.or after) ∧ FitAll after is

end

/-- Whether a text is a sequence of items. -/
structure Spells (items : List Item) (cs : List Char) : Prop where
  text_eq : textAll items = cs
  fits : FitAll none items

mutual

/-- The term that an item is, and nothing for a blank. -/
def terms : Item → List SExp
  | space _ | comment _ => []
  | bars cs | word cs => [.symbol (String.ofList cs)]
  | list items => [.list (termsAll items)]

def termsAll : List Item → List SExp
  | [] => []
  | i :: is => i.terms ++ termsAll is

end

mutual

/-- The tree of an item whose first character has position `pos`, and nothing for a blank. -/
def treesAt (pos : ℕ) : Item → List STree
  | space _ | comment _ => []
  | bars cs => [.symbol (Span.ofLength pos (cs.length + 2)) (String.ofList cs)]
  | word cs => [.symbol (Span.ofLength pos cs.length) (String.ofList cs)]
  | list items => [.list (Span.ofLength pos ((textAll items).length + 2)) (treesAllAt (pos + 1) items)]

/-- The trees of several items, one after the other from position `pos` on. -/
def treesAllAt (pos : ℕ) : List Item → List STree
  | [] => []
  | i :: is => i.treesAt pos ++ treesAllAt (pos + i.text.length) is

end

theorem isWordChar_iff : IsWordChar c ↔ isDelimiter c = false := not_isDelimiter_iff.symm

theorem not_isWordChar_iff : ¬ IsWordChar c ↔ isDelimiter c = true := by
  rw [isWordChar_iff, Bool.not_eq_false]

variable {i : Item} {after : Option Char}

theorem fitAll_cons {is : List Item} :
    FitAll rest.head? (i :: is) ↔ i.Fits (textAll is ++ rest).head? ∧ FitAll rest.head? is := by
  rw [FitAll, List.head?_append]

mutual

theorem eraseAll_treesAt : ∀ (i : Item) (pos : ℕ), STree.eraseAll (i.treesAt pos) = i.terms
  | space _, _ | comment _, _ | bars _, _ | word _, _ => rfl
  | list items, pos => by
    rw [treesAt, terms, STree.eraseAll, STree.erase, eraseAll_treesAllAt items, STree.eraseAll]

theorem eraseAll_treesAllAt : ∀ (items : List Item) (pos : ℕ),
    STree.eraseAll (treesAllAt pos items) = termsAll items
  | [], _ => rfl
  | i :: is, pos => by
    rw [treesAllAt, termsAll, STree.eraseAll_append, eraseAll_treesAt i, eraseAll_treesAllAt is]

end

/-! ### The first character of an item -/

/-- The shapes of items. -/
inductive Shape where
  | space
  | comment
  | bars
  | word
  | list

def shape : Item → Shape
  | space _ => .space
  | comment _ => .comment
  | bars _ => .bars
  | word _ => .word
  | list _ => .list

/-- The shape of the items that start with a character. No item starts with a closing bracket. -/
def shapeOf (c : Char) : Option Shape :=
  if Text.isBlank c then some .space
  else if c = ';' then some .comment
  else if c = '|' then some .bars
  else if c = '(' then some .list
  else if c = ')' then none
  else some .word

/-- The first character of an item tells its shape. -/
theorem exists_head (h : i.Fits after) : ∃ c cs, i.text = c :: cs ∧ shapeOf c = some i.shape := by
  cases i with
  | space c => exact ⟨c, [], rfl, if_pos h⟩
  | comment cs => exact ⟨';', cs, rfl, rfl⟩
  | bars cs => exact ⟨'|', cs ++ ['|'], rfl, rfl⟩
  | word cs =>
    obtain ⟨c, cs, rfl⟩ := List.exists_cons_of_ne_nil h.1
    obtain ⟨hopening, hclosing, hbar, hcomment, hblank⟩ := h.2.1 c List.mem_cons_self
    refine ⟨c, cs, rfl, ?_⟩
    rw [shapeOf, hblank, if_neg (by decide), if_neg hcomment, if_neg hbar, if_neg hopening, if_neg hclosing]
    rfl
  | list items => exact ⟨'(', textAll items ++ [')'], rfl, rfl⟩

theorem length_text_pos (h : i.Fits after) : 0 < i.text.length := by
  obtain ⟨c, cs, htext, -⟩ := exists_head h
  rw [htext, List.length_cons]
  omega

theorem length_lt_text_append (h : i.Fits after) (rest : List Char) :
    rest.length < (i.text ++ rest).length := by
  have hpos := length_text_pos h
  rw [List.length_append]
  omega

theorem shape_eq {j : Item} {a b : Option Char} (hi : i.Fits a) (hj : j.Fits b) {r r' : List Char}
    (h : i.text ++ r = j.text ++ r') : i.shape = j.shape := by
  obtain ⟨c, cs, hc, hshape⟩ := exists_head hi
  obtain ⟨d, ds, hd, hshape'⟩ := exists_head hj
  rw [hc, hd, List.cons_append, List.cons_append] at h
  obtain rfl := (List.cons.inj h).1
  exact Option.mem_unique hshape hshape'

/-- Where a sequence of items ends: at a closing bracket or at the end of the text. -/
def Stops (cs : List Char) : Prop := ∀ c ∈ cs.head?, c = ')'

theorem not_stops (h : i.Fits after) (rest : List Char) : ¬ Stops (i.text ++ rest) := by
  obtain ⟨c, cs, htext, hshape⟩ := exists_head h
  intro hstops
  rw [htext] at hstops
  obtain rfl := hstops c rfl
  cases hshape

/-! ### A text is a sequence of items in one way -/

/-- Two runs in front of what does not belong to them are equal. -/
theorem run_inj {p : Char → Bool} {ds r r' : List Char} (hcs : ∀ c ∈ cs, p c = true)
    (hr : ∀ c ∈ r.head?, p c = false) (hds : ∀ c ∈ ds, p c = true)
    (hr' : ∀ c ∈ r'.head?, p c = false) (h : cs ++ r = ds ++ r') : cs = ds ∧ r = r' := by
  have hrun := run_append hcs hr
  rw [h] at hrun
  obtain ⟨htake, hdrop⟩ := run_append hds hr'
  exact ⟨hrun.1.symm.trans htake, hrun.2.symm.trans hdrop⟩

mutual

/-- An item and what follows it are determined by the text. -/
theorem eq_of_text (i j : Item) {r r' : List Char} (hi : i.Fits r.head?) (hj : j.Fits r'.head?)
    (h : i.text ++ r = j.text ++ r') : i = j ∧ r = r' :=
  match i, hi, h with
  | space c, hi, h => by
    have hshape := shape_eq hi hj h
    cases j with
    | space d => simpa [text] using h
    | _ => cases hshape
  | comment cs, hi, h => by
    have hshape := shape_eq hi hj h
    cases j with
    | comment ds =>
      have hend : ∀ {o : Option Char}, (∀ c ∈ o, c = '\n') → ∀ c ∈ o, (c != '\n') = false :=
        fun ho c hc => by simp [ho c hc]
      obtain ⟨rfl, rfl⟩ := run_inj (forall_bne_newline hi.1) (hend hi.2) (forall_bne_newline hj.1) (hend hj.2)
        (List.cons.inj h).2
      exact ⟨rfl, rfl⟩
    | _ => cases hshape
  | bars cs, hi, h => by
    have hshape := shape_eq hi hj h
    cases j with
    | bars ds =>
      have hinner : barred (cs ++ '|' :: r) = barred (ds ++ '|' :: r') := by
        simpa [text] using congrArg (fun cs => barred cs.tail) h
      rw [barred_append hi, barred_append hj] at hinner
      obtain ⟨rfl, rfl⟩ := Prod.mk.inj (Option.some.inj hinner)
      exact ⟨rfl, rfl⟩
    | _ => cases hshape
  | word cs, hi, h => by
    have hshape := shape_eq hi hj h
    cases j with
    | word ds =>
      have hrun : ∀ {es : List Char}, (∀ c ∈ es, IsWordChar c) → ∀ c ∈ es, (!isDelimiter c) = true :=
        fun hes c hc => by simp [isWordChar_iff.mp (hes c hc)]
      have hend : ∀ {o : Option Char}, (∀ c ∈ o, ¬ IsWordChar c) → ∀ c ∈ o, (!isDelimiter c) = false :=
        fun ho c hc => by simp [not_isWordChar_iff.mp (ho c hc)]
      obtain ⟨rfl, rfl⟩ := run_inj (hrun hi.2.1) (hend hi.2.2) (hrun hj.2.1) (hend hj.2.2) h
      exact ⟨rfl, rfl⟩
    | _ => cases hshape
  | list is, hi, h => by
    have hshape := shape_eq hi hj h
    cases j with
    | list js =>
      have hinner : textAll is ++ ')' :: r = textAll js ++ ')' :: r' := by simpa [text] using h
      have hstops : ∀ cs, Stops (')' :: cs) := fun cs c hc => (Option.some.inj hc).symm
      have hopen : FitAll (')' :: r).head? is := hi
      have hopen' : FitAll (')' :: r').head? js := hj
      obtain ⟨rfl, hrest⟩ := eq_of_textAll is js hopen hopen' (hstops r) (hstops r') hinner
      exact ⟨rfl, (List.cons.inj hrest).2⟩
    | _ => cases hshape

/-- A sequence of items and what follows it are determined by the text. -/
theorem eq_of_textAll (is js : List Item) {r r' : List Char} (hi : FitAll r.head? is)
    (hj : FitAll r'.head? js) (hr : Stops r) (hr' : Stops r') (h : textAll is ++ r = textAll js ++ r') :
    is = js ∧ r = r' :=
  match is, js, hi, hj, h with
  | [], [], _, _, h => ⟨rfl, h⟩
  | [], j :: js, _, hj, h => by
    simp only [textAll, List.nil_append, List.append_assoc] at h
    exact absurd (h ▸ hr) (not_stops (fitAll_cons.mp hj).1 _)
  | i :: is, [], hi, _, h => by
    simp only [textAll, List.nil_append, List.append_assoc] at h
    exact absurd (h ▸ hr') (not_stops (fitAll_cons.mp hi).1 _)
  | i :: is, j :: js, hi, hj, h => by
    obtain ⟨hi, his⟩ := fitAll_cons.mp hi
    obtain ⟨hj, hjs⟩ := fitAll_cons.mp hj
    rw [textAll, textAll, List.append_assoc, List.append_assoc] at h
    obtain ⟨rfl, htail⟩ := eq_of_text i j hi hj h
    obtain ⟨rfl, hrest⟩ := eq_of_textAll is js his hjs hr hr' htail
    exact ⟨rfl, hrest⟩

end

end Item

namespace STree

open Token Item

/-! ### Reading follows the items -/

theorem scanFrom_space (h : (Item.space c).Fits rest.head?) (pos : ℕ) :
    scanFrom pos ((Item.space c).text ++ rest) = scanFrom (pos + (Item.space c).text.length) rest :=
  scanFrom_blank h pos rest

theorem scanFrom_commentText (h : (Item.comment cs).Fits rest.head?) (pos : ℕ) :
    scanFrom pos ((Item.comment cs).text ++ rest) = scanFrom (pos + (Item.comment cs).text.length) rest := by
  have hlength : pos + 1 + cs.length = pos + (Item.comment cs).text.length := by
    rw [text, List.length_cons]
    omega
  rw [text, List.cons_append, scanFrom_comment, afterComment_append h.1 h.2, List.length_append,
    Nat.add_sub_cancel, hlength, text]

theorem scanFrom_barsText (h : (Item.bars cs).Fits rest.head?) (pos : ℕ) :
    scanFrom pos ((Item.bars cs).text ++ rest) =
      ⟨.symbol (String.ofList cs), pos, cs.length + 2⟩ ::
        scanFrom (pos + (Item.bars cs).text.length) rest := by
  have htext : (Item.bars cs).text ++ rest = '|' :: (cs ++ '|' :: rest) := by simp [text]
  have hlength : (Item.bars cs).text.length = cs.length + 2 := by simp [text]
  rw [htext, hlength, scanFrom_bars h]

theorem scanFrom_wordText (h : (Item.word cs).Fits rest.head?) (pos : ℕ) :
    scanFrom pos ((Item.word cs).text ++ rest) =
      ⟨.symbol (String.ofList cs), pos, cs.length⟩ :: scanFrom (pos + (Item.word cs).text.length) rest :=
  scanFrom_word h.1 (fun c hc => isWordChar_iff.mp (h.2.1 c hc))
    (breaks_iff.mpr fun c hc => not_isWordChar_iff.mp (h.2.2 c hc)) pos

theorem next_opening (stack : List Pending) (pos n : ℕ) (ts : List Token) :
    next stack (⟨.opening, pos, n⟩ :: ts) = next (⟨pos, []⟩ :: stack) ts := rfl

theorem next_closing_outer (p : Pending) (pos n : ℕ) (ts : List Token) :
    next [p] (⟨.closing, pos, n⟩ :: ts) = .ok (some (p.close pos, ts)) := rfl

theorem next_closing_inner (p q : Pending) (stack : List Pending) (pos n : ℕ) (ts : List Token) :
    next (p :: q :: stack) (⟨.closing, pos, n⟩ :: ts) = next (q.push (p.close pos) :: stack) ts := rfl

theorem close_pushAll (pos n : ℕ) (trees : List STree) :
    (Pending.pushAll ⟨pos, []⟩ trees).close (pos + 1 + n) = .list (Span.ofLength pos (n + 2)) trees := by
  have hlength : pos + 1 + n + 1 - pos = n + 2 := by omega
  simp [Pending.pushAll, Pending.close, hlength]

theorem text_list_append (items : List Item) (rest : List Char) :
    (Item.list items).text ++ rest = '(' :: (textAll items ++ ')' :: rest) := by
  simp [text]

theorem length_text_list (items : List Item) (pos : ℕ) :
    pos + (Item.list items).text.length = pos + 1 + (textAll items).length + 1 := by
  simp only [text, List.length_cons, List.length_append, List.length_nil]
  omega

mutual

/-- Within a list, reading adds the tree of an item to the elements and goes on behind the item. -/
theorem next_text (i : Item) {rest : List Char} (h : i.Fits rest.head?) (pos : ℕ) (p : Pending)
    (stack : List Pending) :
    next (p :: stack) (scanFrom pos (i.text ++ rest)) =
      next (p.pushAll (i.treesAt pos) :: stack) (scanFrom (pos + i.text.length) rest) :=
  match i, h with
  | .space c, h => by
    rw [scanFrom_space h]
    rfl
  | .comment cs, h => by
    rw [scanFrom_commentText h]
    rfl
  | .bars cs, h => by
    rw [scanFrom_barsText h]
    rfl
  | .word cs, h => by
    rw [scanFrom_wordText h]
    rfl
  | .list items, h => by
    have hitems : FitAll (')' :: rest).head? items := h
    rw [text_list_append, scanFrom_opening, next_opening, next_textAll items hitems, scanFrom_closing,
      next_closing_inner, close_pushAll, length_text_list]
    rfl

/-- Within a list, reading adds the trees of several items to the elements and goes on behind the items. -/
theorem next_textAll (items : List Item) {rest : List Char} (h : FitAll rest.head? items) (pos : ℕ)
    (p : Pending) (stack : List Pending) :
    next (p :: stack) (scanFrom pos (textAll items ++ rest)) =
      next (p.pushAll (treesAllAt pos items) :: stack) (scanFrom (pos + (textAll items).length) rest) :=
  match items, h with
  | [], _ => rfl
  | i :: is, h => by
    obtain ⟨hi, his⟩ := fitAll_cons.mp h
    have hpush : (p.pushAll (i.treesAt pos)).pushAll (treesAllAt (pos + i.text.length) is) =
        p.pushAll (treesAllAt pos (i :: is)) := by
      simp [Pending.pushAll, treesAllAt]
    rw [textAll, List.append_assoc, next_text i hi, next_textAll is his, hpush, List.length_append,
      add_assoc]

end

/-- Between lists, reading gives the tree of an item and goes on behind the item. -/
theorem readTokens_text (i : Item) (h : i.Fits rest.head?) (pos : ℕ) :
    readTokens (scanFrom pos (i.text ++ rest)) =
      (i.treesAt pos ++ (readTokens (scanFrom (pos + i.text.length) rest)).1,
        (readTokens (scanFrom (pos + i.text.length) rest)).2) := by
  cases i with
  | space c =>
    rw [scanFrom_space h]
    rfl
  | comment cs =>
    rw [scanFrom_commentText h]
    rfl
  | bars cs =>
    rw [scanFrom_barsText h]
    exact readTokens_of_next rfl
  | word cs =>
    rw [scanFrom_wordText h]
    exact readTokens_of_next rfl
  | list items =>
    have hitems : FitAll (')' :: rest).head? items := h
    rw [text_list_append, scanFrom_opening, length_text_list]
    refine readTokens_of_next ?_
    rw [next_opening, next_textAll items hitems, scanFrom_closing, next_closing_outer, close_pushAll]

/-- Between lists, reading gives the trees of several items and goes on behind them. -/
theorem readTokens_textAll (items : List Item) {rest : List Char} (h : FitAll rest.head? items) (pos : ℕ) :
    readTokens (scanFrom pos (textAll items ++ rest)) =
      (treesAllAt pos items ++ (readTokens (scanFrom (pos + (textAll items).length) rest)).1,
        (readTokens (scanFrom (pos + (textAll items).length) rest)).2) := by
  induction items generalizing pos with
  | nil => rfl
  | cons i is ih =>
    obtain ⟨hi, his⟩ := fitAll_cons.mp h
    rw [textAll, List.append_assoc, readTokens_text i hi, ih his, treesAllAt, List.append_assoc,
      List.length_append, add_assoc]

/-! ### A text that is read is a sequence of items -/

/-- Whether a text starts with a sequence of items, in front of `stop`. -/
def Starts (stop cs : List Char) : Prop := ∃ items, textAll items ++ stop = cs ∧ FitAll stop.head? items

theorem starts_self (stop : List Char) : Starts stop stop := ⟨[], rfl, trivial⟩

theorem Starts.cons {i : Item} {stop rest : List Char} (hi : i.Fits rest.head?) (h : Starts stop rest) :
    Starts stop (i.text ++ rest) := by
  obtain ⟨items, rfl, hitems⟩ := h
  exact ⟨i :: items, by rw [textAll, List.append_assoc], fitAll_cons.mpr ⟨hi, hitems⟩⟩

/-- An opening bracket in front of items and a closing bracket is the start of a list. -/
theorem Starts.exists_list {rest after : List Char} (h : Starts (')' :: after) rest) :
    ∃ i : Item, i.Fits after.head? ∧ '(' :: rest = i.text ++ after := by
  obtain ⟨items, rfl, hitems⟩ := h
  exact ⟨.list items, hitems, (text_list_append items after).symm⟩

/-- What a text may start with. -/
inductive Front : List Char → Prop where
  | nil : Front []
  | item (i : Item) (rest : List Char) (h : i.Fits rest.head?) : Front (i.text ++ rest)
  | opening (rest : List Char) : Front ('(' :: rest)
  | closing (rest : List Char) : Front (')' :: rest)
  | unterminated (rest : List Char) (h : barred rest = none) : Front ('|' :: rest)

theorem barred_eq_some {inner : List Char} (h : barred cs = some (inner, rest)) :
    cs = inner ++ '|' :: rest ∧ '|' ∉ inner := by
  induction cs generalizing inner with
  | nil => cases h
  | cons c cs ih =>
    simp only [barred] at h
    split_ifs at h with hc
    · obtain ⟨rfl, rfl⟩ := Prod.mk.inj (Option.some.inj h)
      exact ⟨by rw [hc]; rfl, List.not_mem_nil⟩
    · obtain ⟨⟨inner', rest'⟩, hsome, heq⟩ := Option.map_eq_some_iff.mp h
      obtain ⟨rfl, rfl⟩ := Prod.mk.inj heq
      obtain ⟨rfl, hinner⟩ := ih hsome
      exact ⟨rfl, fun hmem => (List.mem_cons.mp hmem).elim (fun hbar => hc hbar.symm) hinner⟩

theorem head?_dropWhile {p : Char → Bool} : ∀ c ∈ (cs.dropWhile p).head?, p c = false := by
  intro c hc
  have hhead := List.head?_dropWhile_not p cs
  rw [hc] at hhead
  simpa using hhead

/-- Every text has one of the fronts. -/
theorem front : ∀ cs : List Char, Front cs
  | [] => .nil
  | c :: cs => by
    by_cases hblank : Text.isBlank c = true
    · exact .item (.space c) cs hblank
    by_cases hcomment : c = ';'
    · subst hcomment
      have htext : (Item.comment (cs.takeWhile (· != '\n'))).text ++ cs.dropWhile (· != '\n') = ';' :: cs :=
        congrArg (';' :: ·) List.takeWhile_append_dropWhile
      rw [← htext]
      refine .item _ _ ⟨fun hmem => ?_, fun c hc => ?_⟩
      · simpa using List.mem_takeWhile_imp hmem
      · simpa using head?_dropWhile c hc
    by_cases hopening : c = '('
    · exact hopening ▸ .opening cs
    by_cases hclosing : c = ')'
    · exact hclosing ▸ .closing cs
    by_cases hbar : c = '|'
    · subst hbar
      cases hbarred : barred cs with
      | none => exact .unterminated cs hbarred
      | some r =>
        obtain ⟨inner, rest⟩ := r
        obtain ⟨rfl, hinner⟩ := barred_eq_some hbarred
        have hitem := Front.item (.bars inner) rest hinner
        simpa [text] using hitem
    · have hword : IsWordChar c := ⟨hopening, hclosing, hbar, hcomment, by simpa using hblank⟩
      have htext : (Item.word (c :: symbolChars cs)).text ++ afterSymbol cs = c :: cs :=
        congrArg (c :: ·) List.takeWhile_append_dropWhile
      rw [← htext]
      refine .item _ _ ⟨List.cons_ne_nil _ _, List.forall_mem_cons.mpr ⟨hword, fun d hd => ?_⟩, fun d hd => ?_⟩
      · exact isWordChar_iff.mpr (by simpa using List.mem_takeWhile_imp hd)
      · exact not_isWordChar_iff.mpr (by simpa using head?_dropWhile d hd)

theorem scanFrom_unterminated (h : barred rest = none) (pos : ℕ) :
    scanFrom pos ('|' :: rest) = [⟨.unterminated, pos, rest.length + 1⟩] := by
  rw [scanFrom, if_neg (by decide), if_neg (by decide), if_neg (by decide), if_neg (by decide), if_pos rfl]
  split
  · rfl
  · next hsome => cases h.symm.trans hsome

variable {stack : List Pending} {ts : List Token} {trees : List STree} {f : SourceFile}

/-- A list that is read to its end is a sequence of items in front of a closing bracket. -/
theorem starts_of_next {pos : ℕ} {p : Pending} {r : STree × List Token}
    (h : next (p :: stack) (scanFrom pos cs) = .ok (some r)) :
    ∃ after, Starts (')' :: after) cs := by
  induction hn : cs.length using Nat.strong_induction_on generalizing cs pos p stack with
  | _ n ih =>
    subst hn
    -- An item at the front is read, and reading goes on with a shorter text.
    have hitem : ∀ {i : Item} {rest : List Char}, i.Fits rest.head? → cs = i.text ++ rest →
        ∃ after, Starts (')' :: after) cs := by
      rintro i rest hi rfl
      rw [next_text i hi] at h
      obtain ⟨after, hafter⟩ := ih _ (length_lt_text_append hi rest) h rfl
      exact ⟨after, hafter.cons hi⟩
    cases front cs with
    | nil => rw [scanFrom] at h; cases h
    | item i rest hi => exact hitem hi rfl
    | opening rest =>
      rw [scanFrom_opening, next_opening] at h
      obtain ⟨after, hafter⟩ := ih _ (Nat.lt_succ_self rest.length) h rfl
      obtain ⟨i, hi, heq⟩ := hafter.exists_list
      exact hitem hi heq
    | closing rest => exact ⟨rest, starts_self _⟩
    | unterminated rest hbarred => rw [scanFrom_unterminated hbarred] at h; cases h

theorem eq_nil_of_next (h : next stack ts = .ok none) : stack = [] ∧ ts = [] := by
  fun_induction next stack ts <;> simp_all

theorem exists_next_of_readTokens (h : readTokens ts = (trees, none)) (hne : ts ≠ []) :
    ∃ r, next [] ts = .ok (some r) := by
  rw [readTokens] at h
  split at h
  · cases h
  · next hnone => exact absurd (eq_nil_of_next hnone).2 hne
  · next tree rest hsome => exact ⟨_, hsome⟩

/-- A text that is read without failure is a sequence of items. -/
theorem starts_of_readTokens {pos : ℕ} (h : readTokens (scanFrom pos cs) = (trees, none)) :
    Starts [] cs := by
  induction hn : cs.length using Nat.strong_induction_on generalizing cs pos trees with
  | _ n ih =>
    subst hn
    have hitem : ∀ {i : Item} {rest : List Char}, i.Fits rest.head? → cs = i.text ++ rest → Starts [] cs := by
      rintro i rest hi rfl
      rw [readTokens_text i hi] at h
      have hrest := ih _ (length_lt_text_append hi rest) (Prod.ext rfl (Prod.mk.inj h).2) rfl
      exact hrest.cons hi
    cases front cs with
    | nil => exact starts_self []
    | item i rest hi => exact hitem hi rfl
    | opening rest =>
      rw [scanFrom_opening] at h
      obtain ⟨r, hr⟩ := exists_next_of_readTokens h (List.cons_ne_nil _ _)
      rw [next_opening] at hr
      obtain ⟨after, hafter⟩ := starts_of_next hr
      obtain ⟨i, hi, heq⟩ := hafter.exists_list
      rw [← scanFrom_opening] at h
      exact hitem hi heq
    | closing rest =>
      rw [scanFrom_closing] at h
      obtain ⟨r, hr⟩ := exists_next_of_readTokens h (List.cons_ne_nil _ _)
      cases hr
    | unterminated rest hbarred =>
      rw [scanFrom_unterminated hbarred] at h
      obtain ⟨r, hr⟩ := exists_next_of_readTokens h (List.cons_ne_nil _ _)
      cases hr

theorem readTokens_nil : readTokens [] = ([], none) := by
  rw [readTokens]
  rfl

/-- A sequence of items is read as its trees. -/
theorem readTokens_of_spells {items : List Item} (h : Spells items cs) :
    readTokens (scan cs) = (treesAllAt 0 items, none) := by
  have hitems := @readTokens_textAll items [] h.fits 0
  rwa [scanFrom, readTokens_nil, List.append_nil, List.append_nil, h.text_eq] at hitems

theorem readAll_eq_none_iff :
    readAll f = (trees, none) ↔ readTokens (scan f.text) = (trees, none) := by
  simp [readAll, Prod.ext_iff]

/-- Reading without failure gives the trees of the items of the text. -/
theorem readAll_eq_iff :
    readAll f = (trees, none) ↔ ∃ items, Spells items f.text ∧ treesAllAt 0 items = trees := by
  rw [readAll_eq_none_iff]
  constructor
  · intro h
    obtain ⟨items, htext, hfits⟩ := starts_of_readTokens h
    have hspells : Spells items f.text := ⟨by rw [← htext, List.append_nil], hfits⟩
    exact ⟨items, hspells, (Prod.mk.inj ((readTokens_of_spells hspells).symm.trans h)).1⟩
  · rintro ⟨items, hspells, rfl⟩
    exact readTokens_of_spells hspells

theorem eq_nil_of_readTokens (h : readTokens ts = ([], none)) : ts = [] := by
  by_contra hne
  obtain ⟨⟨tree, rest⟩, hnext⟩ := exists_next_of_readTokens h hne
  rw [readTokens_of_next hnext] at h
  cases h

/-- A single tree is read if it is all that there is to read. -/
theorem read_eq_ok_iff {tree : STree} : read f = .ok tree ↔ readAll f = ([tree], none) := by
  rw [readAll_eq_none_iff]
  constructor
  · intro h
    unfold read at h
    split at h
    · cases h
    · next t hnext =>
      obtain rfl := Except.ok.inj h
      rw [readTokens_of_next hnext, readTokens_nil]
    · cases h
    · cases h
  · intro h
    have hne : scan f.text ≠ [] := by
      intro hnil
      rw [hnil, readTokens_nil] at h
      cases h
    obtain ⟨⟨t, rest⟩, hnext⟩ := exists_next_of_readTokens h hne
    rw [readTokens_of_next hnext] at h
    obtain ⟨hcons, hfail⟩ := Prod.mk.inj h
    obtain ⟨rfl, htrees⟩ := List.cons.inj hcons
    obtain rfl := eq_nil_of_readTokens (Prod.ext htrees hfail)
    rw [read, hnext]

/-- The reader accepts exactly its grammar. A text is read without failure as some S-expressions if and only if
it is a sequence of items with these terms; it is such a sequence in at most one way; and a single tree is read if
and only if it is the only one among all trees of the text. -/
theorem readAll_exact (f : SourceFile) :
    (∀ ts, (∃ trees, readAll f = (trees, none) ∧ eraseAll trees = ts) ↔
      ∃ items, Spells items f.text ∧ termsAll items = ts) ∧
    {items | Spells items f.text}.Subsingleton ∧
    ∀ tree, read f = .ok tree ↔ readAll f = ([tree], none) := by
  refine ⟨fun ts => ?_, fun items h items' h' => ?_, fun tree => read_eq_ok_iff⟩
  · constructor
    · rintro ⟨trees, hread, rfl⟩
      obtain ⟨items, hspells, rfl⟩ := readAll_eq_iff.mp hread
      exact ⟨items, hspells, (eraseAll_treesAllAt items 0).symm⟩
    · rintro ⟨items, hspells, rfl⟩
      exact ⟨treesAllAt 0 items, readAll_eq_iff.mpr ⟨items, hspells, rfl⟩, eraseAll_treesAllAt items 0⟩
  · have hstops : Stops [] := fun c hc => by cases hc
    have htext : textAll items ++ [] = textAll items' ++ [] := by
      rw [List.append_nil, List.append_nil, h.text_eq, h'.text_eq]
    exact (@eq_of_textAll items items' [] [] h.fits h'.fits hstops hstops htext).1

end STree

end Verdict
