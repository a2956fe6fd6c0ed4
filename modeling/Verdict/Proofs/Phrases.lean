import Verdict.Proofs.TermTexts
import Verdict.Lang.Print

/-! # Phrases

A phrase is what a printed value, expression or formula says, with nothing in it that its text does not show:
which of several nodes with the same text it came from is forgotten. Operands are words, bracketed phrases,
elements, calls, references, negations and conditionals. A side is an operand or two operands with a sign
between them, and what a relation compares on its right may be any phrase, a relation itself or a quantified
one, but on its left only a side.

Every phrase is read back from its text (`Phrase.exists_read`), so phrases with the same text are the same
(`Phrase.text_injective`). The reader has to tell words from those that start a longer phrase: `if`, `forall`,
`exists` and the `mut` of a reference can be names of variables as well. -/

namespace Verdict

/-! ### Signs -/

/-- What joins two operands. -/
inductive Joint where
  | operation (o : Operator)
  | and
  | or
deriving DecidableEq

/-- What compares two sides. -/
inductive Relation where
  | equal
  | compare (c : Comparison)
deriving DecidableEq

/-- What stands between two operands. -/
inductive Sign where
  | joint (j : Joint)
  | relation (r : Relation)
deriving DecidableEq

namespace Sign

def chars : Sign → List Char
  | joint (.operation .add) => ['+']
  | joint (.operation .sub) => ['-']
  | joint (.operation .mul) => ['*']
  | joint (.operation .div) => ['/']
  | joint (.operation .rem) => ['%']
  | joint .and => ['&', '&']
  | joint .or => ['|', '|']
  | relation .equal => ['=', '=']
  | relation (.compare .ge) => ['>', '=']
  | relation (.compare .le) => ['<', '=']
  | relation (.compare .gt) => ['>']
  | relation (.compare .lt) => ['<']

/-- The sign that characters stand for. -/
def ofChars? : List Char → Option Sign
  | ['+'] => some (joint (.operation .add))
  | ['-'] => some (joint (.operation .sub))
  | ['*'] => some (joint (.operation .mul))
  | ['/'] => some (joint (.operation .div))
  | ['%'] => some (joint (.operation .rem))
  | ['&', '&'] => some (joint .and)
  | ['|', '|'] => some (joint .or)
  | ['=', '='] => some (relation .equal)
  | ['>', '='] => some (relation (.compare .ge))
  | ['<', '='] => some (relation (.compare .le))
  | ['>'] => some (relation (.compare .gt))
  | ['<'] => some (relation (.compare .lt))
  | _ => none

theorem eq_chars_of_ofChars? {cs : List Char} {s : Sign} (h : ofChars? cs = some s) : cs = s.chars := by
  unfold ofChars? at h
  split at h <;> cases h <;> rfl

end Sign

/-! ### Words -/

/-- Whether a character ends a word. -/
def isDelimiter (c : Char) : Bool :=
  [' ', ',', '.', ':', ';', '(', ')', '[', ']', '\x7b', '\x7d'].contains c

/-- Whether characters make a word: none of them ends it, what is in front is no sign of a reference or
negation, and the whole is no sign between operands. -/
def isWord (cs : List Char) : Bool :=
  cs.all (fun c => !isDelimiter c) && !(['&', '*', '!'].contains (cs.headD '!')) &&
    (Sign.ofChars? cs).isNone

abbrev Word := { cs : List Char // isWord cs = true }

namespace Word

/-- The word of some characters, if they make one. -/
def ofChars (cs : List Char) : Word := if h : isWord cs = true then ⟨cs, h⟩ else ⟨['?'], by decide⟩

theorem chars_ofChars {cs : List Char} (h : isWord cs = true) : (ofChars cs).1 = cs := by
  rw [ofChars, dif_pos h]

@[simp] theorem ofChars_chars (w : Word) : ofChars w.1 = w := Subtype.ext (chars_ofChars w.2)

theorem not_isDelimiter (w : Word) {c : Char} (hc : c ∈ w.1) : isDelimiter c = false := by
  have hw := w.2
  simp only [isWord, Bool.and_eq_true, List.all_eq_true] at hw
  simpa using hw.1.1 c hc

theorem not_sign (w : Word) : Sign.ofChars? w.1 = none := by
  have hw := w.2
  simp only [isWord, Bool.and_eq_true] at hw
  simpa using hw.2

theorem exists_cons (w : Word) :
    ∃ c cs, w.1 = c :: cs ∧ isDelimiter c = false ∧ c ≠ '&' ∧ c ≠ '*' ∧ c ≠ '!' := by
  obtain ⟨cs, hw⟩ := w
  cases cs with
  | nil => exact absurd hw (by decide)
  | cons c cs =>
    have hc := not_isDelimiter ⟨c :: cs, hw⟩ List.mem_cons_self
    simp only [isWord, Bool.and_eq_true, List.headD_cons] at hw
    exact ⟨c, cs, rfl, hc, by simpa using hw.1.2⟩

end Word

/-! ### Phrases and their texts -/

mutual

/-- What stands alone. -/
inductive Phrase where
  | side (s : Side)
  | relation (left : Side) (r : Relation) (right : Phrase)
  | quant (q : Quantifier) (x : Word) (type : Operand) (body : Phrase)

/-- What stands on the left of a relation. -/
inductive Side where
  | one (o : Operand)
  | two (left : Operand) (j : Joint) (right : Operand)

/-- What stands beside a sign. Types are written as operands, too. -/
inductive Operand where
  | word (w : Word)
  | elem (base : Word) (index : Phrase)
  | part (base : Word) (index : Operand)
  | group (p : Phrase)
  | tuple (ps : List Phrase)
  | array (ps : List Phrase)
  | sized (p : Phrase) (length : Word)
  | call (f : Word) (args : List Phrase)
  | ref (mutable : Bool) (o : Operand)
  | deref (o : Operand)
  | not (o : Operand)
  | ite (c t e : Phrase)

end

/-- The word for a quantifier. -/
def Quantifier.chars : Quantifier → List Char
  | all => ['f', 'o', 'r', 'a', 'l', 'l']
  | some => ['e', 'x', 'i', 's', 't', 's']

/-- What ends a tuple: one element is followed by a comma. -/
def tupleEnd (ps : List Phrase) : List Char := if ps.length = 1 then [',', ')'] else [')']

/-- What stands behind the condition of a conditional. -/
def iteThen : List Char := [' ', '\x7b', ' ']

/-- What stands between the values of a conditional. -/
def iteElse : List Char := [' ', '\x7d', ' ', 'e', 'l', 's', 'e', ' ', '\x7b', ' ']

/-- What ends a conditional. -/
def iteEnd : List Char := [' ', '\x7d']

mutual

/-- A phrase as written. -/
def Phrase.text : Phrase → List Char
  | .side s => s.text
  | .relation l r p => l.text ++ ' ' :: (Sign.relation r).chars ++ ' ' :: p.text
  | .quant q x t p => q.chars ++ ' ' :: x.1 ++ ':' :: ' ' :: t.text ++ '.' :: ' ' :: p.text

def Side.text : Side → List Char
  | .one o => o.text
  | .two a j b => a.text ++ ' ' :: (Sign.joint j).chars ++ ' ' :: b.text

def Operand.text : Operand → List Char
  | .word w => w.1
  | .elem w p => w.1 ++ '[' :: p.text ++ [']']
  | .part w o => w.1 ++ '.' :: o.text
  | .group p => '(' :: p.text ++ [')']
  | .tuple ps => '(' :: Phrase.texts ps ++ tupleEnd ps
  | .array ps => '[' :: Phrase.texts ps ++ [']']
  | .sized p w => '[' :: p.text ++ ';' :: ' ' :: w.1 ++ [']']
  | .call w ps => w.1 ++ '(' :: Phrase.texts ps ++ [')']
  | .ref true o => ['&', 'm', 'u', 't', ' '] ++ o.text
  | .ref false o => '&' :: o.text
  | .deref o => '*' :: o.text
  | .not o => '!' :: o.text
  | .ite c t e => ['i', 'f', ' '] ++ c.text ++ iteThen ++ t.text ++ iteElse ++ e.text ++ iteEnd

/-- Phrases with commas between them. -/
def Phrase.texts : List Phrase → List Char
  | [] => []
  | p :: ps => p.text ++ Phrase.more ps

/-- Phrases with a comma before each. -/
def Phrase.more : List Phrase → List Char
  | [] => []
  | p :: ps => ',' :: ' ' :: p.text ++ Phrase.more ps

end

/-! ### Reading phrases -/

namespace Phrase

/-- The characters up to the next blank. -/
def run (cs : List Char) : List Char := cs.takeWhile (· != ' ')

/-- The sign that a text goes on with, between blanks, and what stands behind it. -/
def sign? : List Char → Option (Sign × List Char)
  | ' ' :: cs =>
    match Sign.ofChars? (run cs), cs.dropWhile (· != ' ') with
    | some s, ' ' :: rest => some (s, rest)
    | _, _ => none
  | _ => none

/-- Whether a text goes on with a blank and what starts a phrase. -/
def opens : List Char → Bool
  | ' ' :: c :: cs => c != '\x7b' && c != '\x7d' && (sign? (' ' :: c :: cs)).isNone
  | _ => false

/-- The word in front of a text. -/
def front (cs : List Char) : List Char := cs.takeWhile fun c => !isDelimiter c

/-- What stands behind the word in front of a text. -/
def behind (cs : List Char) : List Char := cs.dropWhile fun c => !isDelimiter c

/-- What stands behind a word and a blank, if that starts a phrase. -/
def keyword? (w cs : List Char) : Option (List Char) :=
  if front cs = w ∧ opens (behind cs) = true then some (behind cs).tail else none

/-- The quantifier in front of a text, and what stands behind it. -/
def quantifier? (cs : List Char) : Option (Quantifier × List Char) :=
  match keyword? Quantifier.all.chars cs with
  | some rest => some (.all, rest)
  | none => (keyword? Quantifier.some.chars cs).map (.some, ·)

/-- What stands behind given characters, if they are in front. -/
def skip : List Char → List Char → Option (List Char)
  | [], cs => some cs
  | c :: s, d :: cs => if c = d then skip s cs else none
  | _ :: _, [] => none

/-- The operand of phrases in round brackets, read up to where they end. -/
def closeRound : List Phrase → List Char → Option (Operand × List Char)
  | [p], ')' :: cs => some (.group p, cs)
  | [p], ',' :: ')' :: cs => some (.tuple [p], cs)
  | ps, ')' :: cs => some (.tuple ps, cs)
  | _, _ => none

/-- The operand of phrases in square brackets, read up to where they end. -/
def closeSquare : List Phrase → List Char → Option (Operand × List Char)
  | [p], ';' :: ' ' :: cs => (skip [']'] (behind cs)).map (.sized p (.ofChars (front cs)), ·)
  | ps, ']' :: cs => some (.array ps, cs)
  | _, _ => none

mutual

/-- Reads a phrase from the front of a text. -/
def read : ℕ → List Char → Option (Phrase × List Char)
  | 0, _ => none
  | n + 1, cs =>
    match quantifier? cs with
    | some (q, cs) => do
      let (t, rest) ← readOperand n (← skip [':', ' '] (behind cs))
      let (p, rest) ← read n (← skip ['.', ' '] rest)
      return (.quant q (.ofChars (front cs)) t p, rest)
    | none => do
      let (s, rest) ← readSide n cs
      match sign? rest with
      | some (.relation r, rest) =>
        let (p, rest) ← read n rest
        return (.relation s r p, rest)
      | _ => return (.side s, rest)

def readSide : ℕ → List Char → Option (Side × List Char)
  | 0, _ => none
  | n + 1, cs => do
    let (a, rest) ← readOperand n cs
    match sign? rest with
    | some (.joint j, rest) =>
      let (b, rest) ← readOperand n rest
      return (.two a j b, rest)
    | _ => return (.one a, rest)

def readOperand : ℕ → List Char → Option (Operand × List Char)
  | 0, _ => none
  | n + 1, '(' :: cs => do
    let (ps, rest) ← readItems n ')' cs
    closeRound ps rest
  | n + 1, '[' :: cs => do
    let (ps, rest) ← readItems n ']' cs
    closeSquare ps rest
  | n + 1, '&' :: cs =>
    match keyword? ['m', 'u', 't'] cs with
    | some rest => (readOperand n rest).map fun r => (.ref true r.1, r.2)
    | none => (readOperand n cs).map fun r => (.ref false r.1, r.2)
  | n + 1, '*' :: cs => (readOperand n cs).map fun r => (.deref r.1, r.2)
  | n + 1, '!' :: cs => (readOperand n cs).map fun r => (.not r.1, r.2)
  | n + 1, cs =>
    match keyword? ['i', 'f'] cs with
    | some rest => do
      let (c, rest) ← read n rest
      let (t, rest) ← read n (← skip iteThen rest)
      let (e, rest) ← read n (← skip iteElse rest)
      return (.ite c t e, ← skip iteEnd rest)
    | none => readTail n (.ofChars (front cs)) (behind cs)

/-- Reads what belongs to a word from the text behind it. -/
def readTail : ℕ → Word → List Char → Option (Operand × List Char)
  | 0, _, _ => none
  | n + 1, w, '(' :: cs => do
    let (ps, rest) ← readItems n ')' cs
    return (.call w ps, ← skip [')'] rest)
  | n + 1, w, '[' :: cs => do
    let (p, rest) ← read n cs
    return (.elem w p, ← skip [']'] rest)
  | n + 1, w, '.' :: c :: cs =>
    if c = ' ' then some (.word w, '.' :: c :: cs)
    else (readOperand n (c :: cs)).map fun r => (.part w r.1, r.2)
  | _ + 1, w, cs => some (.word w, cs)

/-- Reads phrases with commas between them, up to a closing bracket. -/
def readItems : ℕ → Char → List Char → Option (List Phrase × List Char)
  | 0, _, _ => none
  | n + 1, close, cs =>
    if cs.head? = some close then some ([], cs)
    else do
      let (p, rest) ← read n cs
      let (ps, rest) ← readMore n rest
      return (p :: ps, rest)

/-- Reads phrases with a comma before each. -/
def readMore : ℕ → List Char → Option (List Phrase × List Char)
  | 0, _ => none
  | n + 1, ',' :: ' ' :: cs => do
    let (p, rest) ← read n cs
    let (ps, rest) ← readMore n rest
    return (p :: ps, rest)
  | _ + 1, cs => some ([], cs)

end

/-! ### Where words and phrases end -/

/-- Whether a text does not continue a word in front of it. -/
def Breaks (cs : List Char) : Prop := ∀ c ∈ cs.head?, isDelimiter c = true

/-- Whether a text does not continue a phrase in front of it. -/
def ends : List Char → Bool
  | [] => true
  | ' ' :: c :: _ => c == '\x7b' || c == '\x7d'
  | '.' :: c :: _ => c == ' '
  | c :: _ => [')', ']', ',', ';'].contains c

/-- Whether a text does not continue an operand in front of it. -/
def Stops (cs : List Char) : Prop := ends cs = true ∨ (sign? cs).isSome = true

variable {rest cs w : List Char} {c : Char}

theorem breaks_cons (hc : isDelimiter c = true) (cs : List Char) : Breaks (c :: cs) := by
  rintro d ⟨⟩
  exact hc

theorem breaks_of_ends (h : ends cs = true) : Breaks cs := by
  unfold ends at h
  split at h
  · rintro c ⟨⟩
  · exact breaks_cons rfl _
  · exact breaks_cons rfl _
  · next c _ _ _ =>
    refine breaks_cons ?_ _
    simp only [List.contains_eq_mem, List.mem_cons, List.not_mem_nil, or_false, decide_eq_true_eq] at h
    rcases h with rfl | rfl | rfl | rfl <;> rfl

theorem breaks_of_stops (h : Stops cs) : Breaks cs := by
  rcases h with h | h
  · exact breaks_of_ends h
  · unfold sign? at h
    split at h
    · exact breaks_cons rfl _
    · cases h

theorem sign?_chars (s : Sign) (rest : List Char) :
    sign? (' ' :: (s.chars ++ ' ' :: rest)) = some (s, rest) := by
  rcases s with ((_ | _ | _ | _ | _) | _ | _) | _ | (_ | _ | _ | _) <;> rfl

theorem stops_sign (s : Sign) (rest : List Char) : Stops (' ' :: (s.chars ++ ' ' :: rest)) :=
  .inr (by rw [sign?_chars]; rfl)

theorem not_isDelimiter_of_mem_chars {s : Sign} (hc : c ∈ s.chars) : isDelimiter c = false := by
  rcases s with ((_ | _ | _ | _ | _) | _ | _) | _ | (_ | _ | _ | _) <;> fin_cases hc <;> rfl

theorem ofChars?_of_isDelimiter (hc : c ∈ cs) (hdelimiter : isDelimiter c = true) :
    Sign.ofChars? cs = none := by
  cases h : Sign.ofChars? cs with
  | none => rfl
  | some s =>
    rw [Sign.eq_chars_of_ofChars? h] at hc
    exact absurd (not_isDelimiter_of_mem_chars hc) (by simp [hdelimiter])

theorem sign?_of_ends (h : ends cs = true) : sign? cs = none := by
  unfold ends at h
  split at h
  · rfl
  · next c cs =>
    have hnone : Sign.ofChars? (run (c :: cs)) = none := by
      rcases (by simpa using h : c = '\x7b' ∨ c = '\x7d') with rfl | rfl <;>
        exact ofChars?_of_isDelimiter List.mem_cons_self rfl
    simp only [sign?, hnone]
  · rfl
  · next c _ hblank _ =>
    have hc : c ≠ ' ' := by rintro rfl; exact absurd h (by decide)
    unfold sign?
    split
    · next heq => exact absurd (List.cons.inj heq).1 hc
    · rfl

theorem opens_of_stops (h : Stops cs) : opens cs = false := by
  unfold opens
  split
  · next c cs =>
    rcases h with h | h
    · have hbrace : c = '\x7b' ∨ c = '\x7d' := by simpa [ends] using h
      rcases hbrace with rfl | rfl <;> rfl
    · obtain ⟨s, hs⟩ := Option.isSome_iff_exists.mp h
      simp [hs]
  · rfl

/-! ### What texts start with -/

theorem front_append (hw : ∀ c ∈ w, isDelimiter c = false) (hrest : Breaks rest) : front (w ++ rest) = w := by
  have hall : ∀ c ∈ w, (!isDelimiter c) = true := fun c hc => by simp [hw c hc]
  rw [front, List.takeWhile_append_of_pos hall]
  cases rest with
  | nil => simp
  | cons c rest => rw [List.takeWhile_cons_of_neg (by simp [hrest c rfl]), List.append_nil]

theorem behind_append (hw : ∀ c ∈ w, isDelimiter c = false) (hrest : Breaks rest) :
    behind (w ++ rest) = rest := by
  have hall : ∀ c ∈ w, (!isDelimiter c) = true := fun c hc => by simp [hw c hc]
  rw [behind, List.dropWhile_append_of_pos hall]
  cases rest with
  | nil => rfl
  | cons c rest => rw [List.dropWhile_cons_of_neg (by simp [hrest c rfl])]

/-- Whether a text starts with what an operand can start with, and not with a sign and a blank. -/
structure Starts (cs : List Char) : Prop where
  head : ∃ c rest, cs = c :: rest ∧ (isDelimiter c = false ∨ c = '(' ∨ c = '[')
  reference : run cs ≠ ['&']
  sign : Sign.ofChars? (run cs) = none

theorem Starts.run_ne_nil (h : Starts cs) : run cs ≠ [] := by
  obtain ⟨c, rest, rfl, hc⟩ := h.head
  have hblank : c ≠ ' ' := by
    rintro rfl
    exact absurd hc (by decide)
  simp [run, hblank]

theorem Starts.opens (h : Starts cs) : opens (' ' :: cs) = true := by
  obtain ⟨c, rest, rfl, hc⟩ := h.head
  have hopening : c ≠ '\x7b' := by rintro rfl; exact absurd hc (by decide)
  have hclosing : c ≠ '\x7d' := by rintro rfl; exact absurd hc (by decide)
  simp [Phrase.opens, hopening, hclosing, sign?, h.sign]

theorem starts_word (w : Word) (hrest : Breaks rest) : Starts (w.1 ++ rest) := by
  have hblank : ∀ c ∈ w.1, (c != ' ') = true := by
    intro c hc
    have hdelimiter := w.not_isDelimiter hc
    simp only [bne_iff_ne, ne_eq]
    rintro rfl
    cases hdelimiter
  have hrun : run (w.1 ++ rest) = w.1 ++ run rest := List.takeWhile_append_of_pos hblank
  obtain ⟨c, cs, hw, hc, hreference, -⟩ := w.exists_cons
  refine ⟨⟨c, cs ++ rest, by rw [hw, List.cons_append], .inl hc⟩, ?_, ?_⟩
  · rw [hrun, hw]
    simp [hreference]
  · rw [hrun]
    cases rest with
    | nil => simpa [run] using w.not_sign
    | cons d rest =>
      by_cases hd : d = ' '
      · subst hd
        simpa [run] using w.not_sign
      · refine ofChars?_of_isDelimiter (c := d) ?_ (hrest d rfl)
        simp [run, hd]

theorem starts_bracket {c : Char} (hc : c = '(' ∨ c = '[') (cs : List Char) : Starts (c :: cs) := by
  have hrun : run (c :: cs) = c :: run cs := by rcases hc with rfl | rfl <;> rfl
  refine ⟨⟨c, cs, rfl, .inr hc⟩, ?_, ?_⟩
  · rw [hrun]
    rcases hc with rfl | rfl <;> simp
  · rw [hrun]
    rcases hc with rfl | rfl <;> exact ofChars?_of_isDelimiter List.mem_cons_self rfl

/-- A sign of a reference or negation stands right in front of its operand. -/
theorem Starts.cons (hc : c = '&' ∨ c = '*' ∨ c = '!') (h : Starts cs) : Starts (c :: cs) := by
  have hrun : run (c :: cs) = c :: run cs := by rcases hc with rfl | rfl | rfl <;> rfl
  refine ⟨⟨c, cs, rfl, ?_⟩, ?_, ?_⟩
  · rcases hc with rfl | rfl | rfl <;> exact .inl rfl
  · rw [hrun]
    simp [h.run_ne_nil]
  · rw [hrun]
    cases hsign : Sign.ofChars? (c :: run cs) with
    | none => rfl
    | some s =>
      have hchars := Sign.eq_chars_of_ofChars? hsign
      have hnil := h.run_ne_nil
      have hreference := h.reference
      rcases hc with rfl | rfl | rfl <;>
        rcases s with ((_ | _ | _ | _ | _) | _ | _) | _ | (_ | _ | _ | _) <;>
          simp_all [Sign.chars]

theorem starts_operand (o : Operand) (hrest : Breaks rest) : Starts (o.text ++ rest) :=
  match o with
  | .word w => starts_word w hrest
  | .elem w p | .part w o | .call w ps => by
    simp only [Operand.text, List.append_assoc]
    exact starts_word w (breaks_cons rfl _)
  | .group p | .tuple ps => starts_bracket (.inl rfl) _
  | .array ps | .sized p w => starts_bracket (.inr rfl) _
  | .ref true o => ⟨⟨_, _, rfl, .inl rfl⟩, by simp [Operand.text, run], rfl⟩
  | .ref false o => (starts_operand o hrest).cons (.inl rfl)
  | .deref o => (starts_operand o hrest).cons (.inr (.inl rfl))
  | .not o => (starts_operand o hrest).cons (.inr (.inr rfl))
  | .ite c t e => ⟨⟨_, _, rfl, .inl rfl⟩, by simp [Operand.text, run], rfl⟩

theorem starts_side (s : Side) (hrest : Breaks rest) : Starts (s.text ++ rest) := by
  cases s with
  | one o => exact starts_operand o hrest
  | two a j b =>
    simp only [Side.text, List.append_assoc]
    exact starts_operand a (breaks_cons rfl _)

theorem starts_text (p : Phrase) (hrest : Breaks rest) : Starts (p.text ++ rest) := by
  cases p with
  | side s => exact starts_side s hrest
  | relation l r p =>
    simp only [Phrase.text, List.append_assoc]
    exact starts_side l (breaks_cons rfl _)
  | quant q x t p => cases q <;> exact ⟨⟨_, _, rfl, .inl rfl⟩, by simp [Phrase.text, Quantifier.chars, run], rfl⟩

/-! ### Keywords -/

theorem keyword?_of_not_opens {v : Word} (hrest : Breaks rest) (hopens : opens rest = false) :
    keyword? w (v.1 ++ rest) = none := by
  have hchars : ∀ c ∈ v.1, isDelimiter c = false := fun c hc => v.not_isDelimiter hc
  rw [keyword?, behind_append hchars hrest, if_neg (by simp [hopens])]

theorem keyword?_of_ne (h : front cs ≠ w) : keyword? w cs = none := by
  rw [keyword?, if_neg fun hw => h hw.1]

theorem keyword?_self (hw : ∀ c ∈ w, isDelimiter c = false) (hrest : Starts rest) :
    keyword? w (w ++ ' ' :: rest) = some rest := by
  have hblank : Breaks (' ' :: rest) := breaks_cons rfl rest
  rw [keyword?, front_append hw hblank, behind_append hw hblank, if_pos ⟨rfl, hrest.opens⟩, List.tail_cons]

/-- No operand but a conditional starts with a keyword. -/
theorem keyword?_operand {w : Word} (hw : w.1 ≠ ['i', 'f']) (o : Operand) (hrest : Stops rest) :
    keyword? w.1 (o.text ++ rest) = none := by
  obtain ⟨c, cs, hcons, hdelimiter, hreference, hderef, hnot⟩ := w.exists_cons
  have hne {d : Char} {ds : List Char} (hd : d ≠ c) : front (d :: ds) ≠ w.1 := by
    rw [hcons, front, List.takeWhile_cons]
    split_ifs <;> simp [hd]
  cases o with
  | word v => exact keyword?_of_not_opens (breaks_of_stops hrest) (opens_of_stops hrest)
  | elem v p | part v o | call v ps =>
    simp only [Operand.text, List.append_assoc]
    exact keyword?_of_not_opens (breaks_cons rfl _) rfl
  | group p | tuple ps | array ps | sized p v => exact keyword?_of_ne (hne (by rintro rfl; cases hdelimiter))
  | ref m o => cases m <;> exact keyword?_of_ne (hne (Ne.symm hreference))
  | deref o => exact keyword?_of_ne (hne (Ne.symm hderef))
  | not o => exact keyword?_of_ne (hne (Ne.symm hnot))
  | ite c t e =>
    refine keyword?_of_ne fun h => hw ?_
    rw [← h]
    rfl

theorem quantifier?_operand (o : Operand) (hrest : Stops rest) : quantifier? (o.text ++ rest) = none := by
  have hall := keyword?_operand (w := ⟨Quantifier.all.chars, rfl⟩) (by decide) o hrest
  have hsome := keyword?_operand (w := ⟨Quantifier.some.chars, rfl⟩) (by decide) o hrest
  simp only [quantifier?, hall, hsome, Option.map_none]

theorem quantifier?_side (s : Side) (hrest : Stops rest) : quantifier? (s.text ++ rest) = none := by
  cases s with
  | one o => exact quantifier?_operand o hrest
  | two a j b =>
    simp only [Side.text, List.append_assoc, List.cons_append]
    exact quantifier?_operand a (stops_sign _ _)

theorem not_isDelimiter_of_mem_quantifier {q : Quantifier} (hc : c ∈ q.chars) : isDelimiter c = false := by
  cases q <;> fin_cases hc <;> rfl

theorem quantifier?_chars (q : Quantifier) (hrest : Starts rest) :
    quantifier? (q.chars ++ ' ' :: rest) = some (q, rest) := by
  have hself := keyword?_self (w := q.chars) (fun _ => not_isDelimiter_of_mem_quantifier) hrest
  cases q with
  | all => simp only [quantifier?, hself]
  | some =>
    have hall : keyword? Quantifier.all.chars (Quantifier.some.chars ++ ' ' :: rest) = none :=
      keyword?_of_ne (by
        rw [front_append (fun _ => not_isDelimiter_of_mem_quantifier) (breaks_cons rfl _)]
        decide)
    simp only [quantifier?, hall, hself, Option.map_some]

@[simp] theorem skip_nil (cs : List Char) : skip [] cs = some cs := rfl

@[simp] theorem skip_cons (c : Char) (s cs : List Char) : skip (c :: s) (c :: cs) = skip s cs := by
  rw [skip, if_pos rfl]

@[simp] theorem skip_append (s cs : List Char) : skip s (s ++ cs) = some cs := by
  induction s with
  | nil => rfl
  | cons c s ih => rw [List.cons_append, skip_cons, ih]

/-! ### Phrases are read back -/

/-- Whether a reader finds something in the text it is written with, if that is followed by a text that does not
continue it, and enough steps are allowed. -/
def Reads {α : Type} (reader : ℕ → List Char → Option (α × List Char)) (stop : List Char → Prop)
    (text : List Char) (a : α) : Prop :=
  ∃ N, ∀ n ≥ N, ∀ rest, stop rest → reader n (text ++ rest) = some (a, rest)

theorem Reads.step {α : Type} {reader : ℕ → List Char → Option (α × List Char)} {stop : List Char → Prop}
    {text : List Char} {a : α} (N : ℕ)
    (h : ∀ n ≥ N, ∀ rest, stop rest → reader (n + 1) (text ++ rest) = some (a, rest)) :
    Reads reader stop text a := by
  refine ⟨N + 1, fun n hn rest hrest => ?_⟩
  obtain ⟨m, rfl⟩ : ∃ m, n = m + 1 := ⟨n - 1, by omega⟩
  exact h m (by omega) rest hrest

theorem readOperand_word (n : ℕ) (w : Word) (hrest : Breaks rest) (hopens : opens rest = false) :
    readOperand (n + 1) (w.1 ++ rest) = readTail n w rest := by
  have hchars : ∀ c ∈ w.1, isDelimiter c = false := fun c hc => w.not_isDelimiter hc
  have hkeyword : keyword? ['i', 'f'] (w.1 ++ rest) = none := keyword?_of_not_opens hrest hopens
  have hfront := front_append hchars hrest
  have hbehind := behind_append hchars hrest
  obtain ⟨c, cs, hcons, hdelimiter, hreference, hderef, hnot⟩ := w.exists_cons
  have hround : c ≠ '(' := by rintro rfl; cases hdelimiter
  have hsquare : c ≠ '[' := by rintro rfl; cases hdelimiter
  rw [hcons, List.cons_append] at hkeyword hfront hbehind ⊢
  rw [readOperand.eq_def]
  simp [hround, hsquare, hreference, hderef, hnot, hkeyword, hfront, hbehind, ← hcons]

theorem readOperand_mark (n : ℕ) (w : Word) (hc : isDelimiter c = true) (hblank : c ≠ ' ') (cs : List Char) :
    readOperand (n + 1) (w.1 ++ c :: cs) = readTail n w (c :: cs) := by
  refine readOperand_word n w (breaks_cons hc cs) ?_
  unfold opens
  split
  · next heq => exact absurd (List.cons.inj heq).1 hblank
  · rfl

theorem readTail_of_stops (n : ℕ) (w : Word) (hrest : Stops rest) :
    readTail (n + 1) w rest = some (.word w, rest) := by
  unfold readTail
  split
  · next heq => cases heq
  · rcases hrest with h | h <;> cases h
  · rcases hrest with h | h <;> cases h
  · next c cs _ =>
    rcases hrest with h | h
    · rw [if_pos (by simpa [ends] using h)]
    · cases h
  · rfl

/-- Whether a text does not continue a side in front of it. -/
def SideStops (cs : List Char) : Prop := ends cs = true ∨ ∃ r rest, sign? cs = some (.relation r, rest)

theorem SideStops.stops (h : SideStops cs) : Stops cs := by
  rcases h with h | ⟨r, rest, h⟩
  · exact .inl h
  · exact .inr (by rw [h]; rfl)

/-- Whether a text closes a list of phrases in front of it. -/
def closes : List Char → Bool
  | ',' :: ')' :: _ => true
  | c :: _ => [')', ']', ';'].contains c
  | [] => false

theorem ends_of_closes (h : closes cs = true) : ends cs = true := by
  unfold closes at h
  split at h
  · rfl
  · next c _ _ =>
    simp only [List.contains_eq_mem, List.mem_cons, List.not_mem_nil, or_false, decide_eq_true_eq] at h
    rcases h with rfl | rfl | rfl <;> rfl
  · cases h

theorem readMore_of_closes (n : ℕ) (h : closes cs = true) : readMore (n + 1) cs = some ([], cs) := by
  rw [readMore]
  rintro rest rfl
  cases h

theorem reads_more_nil : Reads readMore (closes · = true) (Phrase.more []) [] :=
  .step 0 fun n _ _ hrest => readMore_of_closes n hrest

/-- Whether a text closes given phrases in front of it, with a bracket if there are none. -/
def ClosesItems (close : Char) (ps : List Phrase) (cs : List Char) : Prop :=
  closes cs = true ∧ (ps = [] → cs.head? = some close)

theorem reads_items {close : Char} (hclose : close = ')' ∨ close = ']') {p : Phrase} {ps : List Phrase}
    (hp : Reads read (ends · = true) p.text p) (hps : Reads readMore (closes · = true) (Phrase.more ps) ps) :
    Reads (readItems · close) (ClosesItems close (p :: ps)) (Phrase.texts (p :: ps)) (p :: ps) := by
  obtain ⟨N, hN⟩ := hp
  obtain ⟨M, hM⟩ := hps
  refine .step (N + M) fun n hn rest hrest => ?_
  have hends : ends (Phrase.more ps ++ rest) = true := by
    cases ps with
    | nil => exact ends_of_closes hrest.1
    | cons q qs => rfl
  have hhead : (p.text ++ (Phrase.more ps ++ rest)).head? ≠ some close := by
    obtain ⟨c, cs, hcs, hc⟩ := (starts_text p (breaks_of_ends hends)).head
    rw [hcs, List.head?_cons]
    rintro ⟨⟩
    rcases hclose with rfl | rfl <;> exact absurd hc (by decide)
  have hp := hN n (by omega) _ hends
  have hps := hM n (by omega) rest hrest.1
  simp only [Phrase.texts, readItems, List.append_assoc, if_neg hhead, hp, hps, Option.bind_eq_bind,
    Option.bind_some, Option.pure_def]

mutual

theorem exists_read : ∀ p : Phrase, Reads read (ends · = true) p.text p
  | .side s => by
    obtain ⟨N, hN⟩ := exists_readSide s
    refine .step N fun n hn rest hrest => ?_
    have hside := hN n hn rest (.inl hrest)
    simp [Phrase.text, read, quantifier?_side s (.inl hrest), hside, sign?_of_ends hrest]
  | .relation l r p => by
    obtain ⟨N, hN⟩ := exists_readSide l
    obtain ⟨M, hM⟩ := exists_read p
    refine .step (N + M) fun n hn rest hrest => ?_
    have hsign := sign?_chars (.relation r) (p.text ++ rest)
    have hside := hN n (by omega) _ (.inr ⟨_, _, hsign⟩)
    have hp := hM n (by omega) rest hrest
    simp [Phrase.text, read, quantifier?_side l (stops_sign _ _), hside, hsign, hp]
  | .quant q x t p => by
    obtain ⟨N, hN⟩ := exists_readOperand t
    obtain ⟨M, hM⟩ := exists_read p
    refine .step (N + M) fun n hn rest hrest => ?_
    have hx : ∀ c ∈ x.1, isDelimiter c = false := fun c hc => x.not_isDelimiter hc
    have hcolon : Breaks (':' :: ' ' :: (t.text ++ '.' :: ' ' :: (p.text ++ rest))) := breaks_cons rfl _
    have ht := hN n (by omega) ('.' :: ' ' :: (p.text ++ rest)) (.inl rfl)
    have hp := hM n (by omega) rest hrest
    have hquantifier := quantifier?_chars q (starts_word x hcolon)
    simp [Phrase.text, read, hquantifier, front_append hx hcolon, behind_append hx hcolon, ht, hp]

theorem exists_readSide : ∀ s : Side, Reads readSide SideStops s.text s
  | .one o => by
    obtain ⟨N, hN⟩ := exists_readOperand o
    refine .step N fun n hn rest hrest => ?_
    have ho := hN n hn rest hrest.stops
    rcases hrest with hrest | ⟨r, rest', hsign⟩
    · simp [Side.text, readSide, ho, sign?_of_ends hrest]
    · simp [Side.text, readSide, ho, hsign]
  | .two a j b => by
    obtain ⟨N, hN⟩ := exists_readOperand a
    obtain ⟨M, hM⟩ := exists_readOperand b
    refine .step (N + M) fun n hn rest hrest => ?_
    have ha := hN n (by omega) _ (stops_sign (.joint j) (b.text ++ rest))
    have hb := hM n (by omega) rest hrest.stops
    simp [Side.text, readSide, ha, sign?_chars, hb]

theorem exists_readOperand : ∀ o : Operand, Reads readOperand Stops o.text o
  | .word w => by
    refine .step 1 fun n hn rest hrest => ?_
    obtain ⟨m, rfl⟩ : ∃ m, n = m + 1 := ⟨n - 1, by omega⟩
    rw [Operand.text, readOperand_word _ w (breaks_of_stops hrest) (opens_of_stops hrest)]
    exact readTail_of_stops m w hrest
  | .elem w p => by
    obtain ⟨N, hN⟩ := exists_read p
    refine .step (N + 1) fun n hn rest hrest => ?_
    obtain ⟨m, rfl⟩ : ∃ m, n = m + 1 := ⟨n - 1, by omega⟩
    have hp := hN m (by omega) (']' :: rest) rfl
    simp [Operand.text, readOperand_mark (c := '[') _ w rfl (by decide), readTail, hp]
  | .part w o => by
    obtain ⟨N, hN⟩ := exists_readOperand o
    refine .step (N + 1) fun n hn rest hrest => ?_
    obtain ⟨m, rfl⟩ : ∃ m, n = m + 1 := ⟨n - 1, by omega⟩
    have ho := hN m (by omega) rest hrest
    obtain ⟨c, cs, hcs, hc⟩ := (starts_operand o (breaks_of_stops hrest)).head
    have hblank : c ≠ ' ' := by rintro rfl; exact absurd hc (by decide)
    rw [hcs] at ho
    simp [Operand.text, readOperand_mark (c := '.') _ w rfl (by decide), hcs, readTail, hblank, ho]
  | .call w ps => by
    obtain ⟨N, hN⟩ := exists_readItems ps (.inl rfl)
    refine .step (N + 1) fun n hn rest hrest => ?_
    obtain ⟨m, rfl⟩ : ∃ m, n = m + 1 := ⟨n - 1, by omega⟩
    have hps := hN m (by omega) (')' :: rest) ⟨rfl, fun _ => rfl⟩
    simp [Operand.text, readOperand_mark (c := '(') _ w rfl (by decide), readTail, hps]
  | .group p => by
    obtain ⟨N, hN⟩ := reads_items (.inl rfl) (exists_read p) reads_more_nil
    refine .step N fun n hn rest hrest => ?_
    have hp := hN n hn (')' :: rest) ⟨rfl, fun _ => rfl⟩
    simp only [Phrase.texts, Phrase.more, List.append_nil] at hp
    simp [Operand.text, readOperand, hp, closeRound]
  | .tuple ps => by
    obtain ⟨N, hN⟩ := exists_readItems ps (.inl rfl)
    refine .step N fun n hn rest hrest => ?_
    rcases ps with _ | ⟨p, _ | ⟨q, qs⟩⟩
    · have hps := hN n hn (')' :: rest) ⟨rfl, fun _ => rfl⟩
      simp [Operand.text, tupleEnd, readOperand, hps, closeRound]
    · have hps := hN n hn (',' :: ')' :: rest) ⟨rfl, by simp⟩
      simp [Operand.text, tupleEnd, readOperand, hps, closeRound]
    · have hps := hN n hn (')' :: rest) ⟨rfl, by simp⟩
      simp [Operand.text, tupleEnd, readOperand, hps, closeRound]
  | .array ps => by
    obtain ⟨N, hN⟩ := exists_readItems ps (.inr rfl)
    refine .step N fun n hn rest hrest => ?_
    have hps := hN n hn (']' :: rest) ⟨rfl, fun _ => rfl⟩
    simp [Operand.text, readOperand, hps, closeSquare]
  | .sized p w => by
    obtain ⟨N, hN⟩ := reads_items (.inr rfl) (exists_read p) reads_more_nil
    refine .step N fun n hn rest hrest => ?_
    have hw : ∀ c ∈ w.1, isDelimiter c = false := fun c hc => w.not_isDelimiter hc
    have hclosing : Breaks (']' :: rest) := breaks_cons rfl rest
    have hp := hN n hn (';' :: ' ' :: (w.1 ++ ']' :: rest)) ⟨rfl, by simp⟩
    simp only [Phrase.texts, Phrase.more, List.append_nil] at hp
    simp [Operand.text, readOperand, hp, closeSquare, front_append hw hclosing, behind_append hw hclosing]
  | .ref true o => by
    obtain ⟨N, hN⟩ := exists_readOperand o
    refine .step N fun n hn rest hrest => ?_
    have ho := hN n hn rest hrest
    have hmut := keyword?_self (w := ['m', 'u', 't']) (by simp [isDelimiter])
      (starts_operand o (breaks_of_stops hrest))
    simp only [List.cons_append, List.nil_append] at hmut
    simp [Operand.text, readOperand, hmut, ho]
  | .ref false o => by
    obtain ⟨N, hN⟩ := exists_readOperand o
    refine .step N fun n hn rest hrest => ?_
    have ho := hN n hn rest hrest
    have hmut := keyword?_operand (w := ⟨['m', 'u', 't'], rfl⟩) (by decide) o hrest
    simp [Operand.text, readOperand, hmut, ho]
  | .deref o | .not o => by
    obtain ⟨N, hN⟩ := exists_readOperand o
    refine .step N fun n hn rest hrest => ?_
    simp [Operand.text, readOperand, hN n hn rest hrest]
  | .ite c t e => by
    obtain ⟨N, hN⟩ := exists_read c
    obtain ⟨M, hM⟩ := exists_read t
    obtain ⟨L, hL⟩ := exists_read e
    refine .step (N + M + L) fun n hn rest hrest => ?_
    have he := hL n (by omega) (iteEnd ++ rest) rfl
    have ht := hM n (by omega) (iteElse ++ (e.text ++ (iteEnd ++ rest))) rfl
    have hthen : ends (iteThen ++ (t.text ++ (iteElse ++ (e.text ++ (iteEnd ++ rest))))) = true := rfl
    have hc := hN n (by omega) _ hthen
    have hif := keyword?_self (w := ['i', 'f']) (by simp [isDelimiter]) (starts_text c (breaks_of_ends hthen))
    simp only [List.cons_append, List.nil_append] at hif
    simp [Operand.text, readOperand, hif, hc, ht, he]

theorem exists_readItems : ∀ (ps : List Phrase) {close : Char}, close = ')' ∨ close = ']' →
    Reads (readItems · close) (ClosesItems close ps) (Phrase.texts ps) ps
  | [], close, hclose => by
    refine .step 0 fun n hn rest hrest => ?_
    simp [Phrase.texts, readItems, hrest.2 rfl]
  | p :: ps, close, hclose => reads_items hclose (exists_read p) (exists_readMore ps)

theorem exists_readMore : ∀ ps : List Phrase, Reads readMore (closes · = true) (Phrase.more ps) ps
  | [] => reads_more_nil
  | p :: ps => by
    obtain ⟨N, hN⟩ := exists_read p
    obtain ⟨M, hM⟩ := exists_readMore ps
    refine .step (N + M) fun n hn rest hrest => ?_
    have hends : ends (Phrase.more ps ++ rest) = true := by
      cases ps with
      | nil => exact ends_of_closes hrest
      | cons q qs => rfl
    have hp := hN n (by omega) _ hends
    have hps := hM n (by omega) rest hrest
    simp [Phrase.more, readMore, hp, hps]

end

/-- Phrases with the same text are the same. -/
theorem text_injective : Function.Injective Phrase.text := by
  intro p q h
  obtain ⟨N, hN⟩ := exists_read p
  obtain ⟨M, hM⟩ := exists_read q
  have hp := hN (N + M) (by omega) [] rfl
  have hq := hM (N + M) (by omega) [] rfl
  rw [h, hq] at hp
  simpa using hp.symm

end Phrase

end Verdict
