import Verdict.Proofs.Phrases
import Verdict.Proofs.Written
import Verdict.Proofs.Typing

/-! # Printed values as phrases

A value, expression or formula has a phrase, and its printed text is the text of the phrase
(`Value.toList_print`). This is so for what can be read (`Tidy`: a node is not wrapped in two others that undo
each other) and is well-typed, if no relation and no quantified formula is the left operand of a relation
(`Clear`). The printer puts no brackets around such an operand, so that without the last condition the text could
belong to a phrase of another shape. -/

namespace Verdict

namespace Phrase

def single (o : Operand) : Phrase := .side (.one o)

/-- A phrase in brackets if it is compound. -/
def wrap (compound : Bool) (p : Phrase) : Phrase := if compound then single (.group p) else p

/-- A phrase as an operand, with brackets where it needs some. -/
def operand : Phrase → Operand
  | .side (.one o) => o
  | p => .group p

def toSide : Phrase → Side
  | .side s => s
  | p => .one (.group p)

/-- Whether a phrase is a single operand. -/
def IsSingle (p : Phrase) : Prop := ∃ o, p = single o

def IsSide (p : Phrase) : Prop := ∃ s, p = .side s

@[simp] theorem text_single (o : Operand) : (single o).text = o.text := by
  rw [single, text, Side.text]

theorem texts_cons_cons (p q : Phrase) (ps : List Phrase) :
    texts (p :: q :: ps) = p.text ++ ',' :: ' ' :: texts (q :: ps) := by
  simp [texts, more]

theorem texts_singleton (p : Phrase) : texts [p] = p.text := by
  simp [texts, more]

variable {p : Phrase} {s : String} {compound : Bool}

theorem IsSingle.isSide (h : p.IsSingle) : p.IsSide := by
  obtain ⟨o, rfl⟩ := h
  exact ⟨_, rfl⟩

theorem IsSingle.text_operand (h : p.IsSingle) : p.operand.text = p.text := by
  obtain ⟨o, rfl⟩ := h
  rfl

theorem IsSide.text_toSide (h : p.IsSide) : p.toSide.text = p.text := by
  obtain ⟨s, rfl⟩ := h
  rfl

theorem text_wrap (compound : Bool) (h : s.toList = p.text) :
    (brace compound s).toList = (wrap compound p).text := by
  cases compound with
  | false => exact h
  | true => simp [brace, wrap, Operand.text, h]

theorem isSingle_wrap (h : compound = false → p.IsSingle) : (wrap compound p).IsSingle := by
  cases compound with
  | false => exact h rfl
  | true => exact ⟨_, rfl⟩

theorem text_operand_wrap (hs : s.toList = p.text) (hp : compound = false → p.IsSingle) :
    (brace compound s).toList = (wrap compound p).operand.text := by
  rw [(isSingle_wrap hp).text_operand, text_wrap compound hs]

theorem text_toSide_wrap (hs : s.toList = p.text) (hp : compound = false → p.IsSide) :
    (brace compound s).toList = (wrap compound p).toSide.text := by
  have hside : (wrap compound p).IsSide := by
    cases compound with
    | false => exact hp rfl
    | true => exact ⟨_, rfl⟩
  rw [hside.text_toSide, text_wrap compound hs]

end Phrase

/-! ### Words -/

variable {v : Value} {Γ : Scope} {c : Char}

theorem isWord_cons {cs : List Char} (hall : ∀ d ∈ c :: cs, isDelimiter d = false)
    (hhead : c ≠ '&' ∧ c ≠ '*' ∧ c ≠ '!') (hsign : Sign.ofChars? (c :: cs) = none) :
    isWord (c :: cs) = true := by
  simp only [isWord, Bool.and_eq_true, List.all_eq_true, hsign, List.headD_cons, Option.isNone_none, and_true]
  exact ⟨fun d hd => by simp [hall d hd], by simpa using hhead⟩

theorem not_isDelimiter_of_isNameChar (h : Reading.isNameChar false c = true) : isDelimiter c = false := by
  by_contra hdelimiter
  simp only [isDelimiter, Bool.not_eq_false, List.contains_eq_mem, decide_eq_true_eq] at hdelimiter
  fin_cases hdelimiter <;> cases h

/-- Characters of names make a word, whichever is in front. -/
theorem isWord_of_isNameChar {cs : List Char} (hne : cs ≠ [])
    (h : ∀ c ∈ cs, Reading.isNameChar false c = true) : isWord cs = true := by
  obtain ⟨c, cs, rfl⟩ := List.exists_cons_of_ne_nil hne
  have hc := h c List.mem_cons_self
  refine isWord_cons (fun d hd => not_isDelimiter_of_isNameChar (h d hd)) ?_ ?_
  · refine ⟨?_, ?_, ?_⟩ <;> rintro rfl <;> cases hc
  · cases hs : Sign.ofChars? (c :: cs) with
    | none => rfl
    | some s =>
      have hchars := Sign.eq_chars_of_ofChars? hs
      rcases s with ((_ | _ | _ | _ | _) | _ | _) | _ | (_ | _ | _ | _) <;> cases hchars <;> cases hc

/-- The name of a variable is a word. -/
theorem isWord_of_isName {x : String} (h : Reading.isName x = true) : isWord x.toList = true := by
  simp only [Reading.isName, Bool.and_eq_true] at h
  obtain ⟨-, h⟩ := h
  split at h
  · cases h
  · next c cs hcs =>
    simp only [Bool.and_eq_true, List.all_eq_true] at h
    obtain ⟨hc, hrest⟩ := h
    have hfirst : Reading.isNameChar false c = true := by
      simp only [Reading.isNameChar, Bool.or_eq_true] at hc ⊢
      tauto
    rw [hcs]
    exact isWord_of_isNameChar (List.cons_ne_nil c cs) (List.forall_mem_cons.mpr ⟨hfirst, hrest⟩)

theorem isNameChar_of_mem_toDigits {n : ℕ} (hc : c ∈ Nat.toDigits 10 n) :
    Reading.isNameChar false c = true := by
  simp [Reading.isNameChar, Text.isDigit_of_mem_toDigits hc]

theorem isWord_toDigits (n : ℕ) : isWord (Nat.toDigits 10 n) = true :=
  isWord_of_isNameChar Nat.toDigits_ne_nil fun _ => isNameChar_of_mem_toDigits

/-- A numeral is a word. -/
theorem isWord_toString (n : ℤ) : isWord (toString n).toList = true := by
  cases n with
  | ofNat k =>
    have htext : (toString (Int.ofNat k)).toList = Nat.toDigits 10 k := (String.ofList_eq.mp rfl).symm
    rw [htext]
    exact isWord_toDigits k
  | negSucc k =>
    have htext : (toString (Int.negSucc k)).toList = '-' :: Nat.toDigits 10 (k + 1) := by
      change ("-" ++ toString (k + 1)).toList = _
      simp
    have hsign : Sign.ofChars? ('-' :: Nat.toDigits 10 (k + 1)) = none := by
      cases hs : Sign.ofChars? ('-' :: Nat.toDigits 10 (k + 1)) with
      | none => rfl
      | some s =>
        have hchars := Sign.eq_chars_of_ofChars? hs
        rcases s with ((_ | _ | _ | _ | _) | _ | _) | _ | (_ | _ | _ | _) <;>
          simp [Sign.chars, Nat.toDigits_ne_nil] at hchars
    rw [htext]
    refine isWord_cons (fun d hd => ?_) (by decide) hsign
    rcases List.mem_cons.mp hd with rfl | hd
    · rfl
    · exact not_isDelimiter_of_isNameChar (isNameChar_of_mem_toDigits hd)

/-! ### Types as operands -/

namespace Ty

/-- The operand of types in round brackets. -/
def round : List Phrase → Operand
  | [p] => .group p
  | ps => .tuple ps

mutual

/-- A type as an operand. -/
def operand : Ty → Operand
  | bool => .word ⟨['b', 'o', 'o', 'l'], rfl⟩
  | i32 => .word ⟨['i', '3', '2'], rfl⟩
  | unit => .tuple []
  | unknown => .word ⟨['_'], rfl⟩
  | tuple ts => round (phrases ts)
  | array t n => .sized (.single t.operand) (.ofChars (Nat.toDigits 10 n))
  | ref t mutable => .ref mutable t.operand

def phrases : List Ty → List Phrase
  | [] => []
  | t :: ts => .single t.operand :: phrases ts

end

theorem text_round (ps : List Phrase) : (round ps).text = '(' :: Phrase.texts ps ++ [')'] := by
  rcases ps with _ | ⟨p, _ | ⟨q, ps⟩⟩
  · rfl
  · simp [round, Operand.text, Phrase.texts_singleton]
  · simp [round, Operand.text, tupleEnd]

mutual

theorem toList_print : ∀ t : Ty, t.print.toList = t.operand.text
  | bool | i32 => by simp [print, operand, Operand.text]
  | unit => by simp [print, operand, Operand.text, Phrase.texts, tupleEnd]
  | unknown => by simp [print, operand, Operand.text]
  | tuple ts => by simp [print, operand, text_round, toList_printAll ts]
  | array t n => by
    have hlength := Word.chars_ofChars (isWord_toDigits n)
    simp [print, operand, Operand.text, toList_print t, hlength]
  | ref t true | ref t false => by simp [print, operand, Operand.text, toList_print t]

theorem toList_printAll : ∀ ts : List Ty, (printAll ts).toList = Phrase.texts (phrases ts)
  | [] => by simp [printAll, phrases, Phrase.texts]
  | [t] => by simp [printAll, phrases, Phrase.texts_singleton, toList_print t]
  | t :: u :: ts => by
    have hrest := toList_printAll (u :: ts)
    simp [printAll, phrases, Phrase.texts_cons_cons, toList_print t, hrest]

end

end Ty

/-! ### Values as phrases -/

mutual

def Place.operand : Place → Operand
  | .name x _ => .word (.ofChars x.toList)
  | .wildcard _ => .word ⟨['_'], rfl⟩
  | .elem .array x i _ => .elem (.ofChars x.toList) i.phrase
  | .elem .tuple x i _ => .part (.ofChars x.toList) (i.phrase.wrap i.isCompound).operand

/-- A value as a phrase. What cannot be written down has none of its own. -/
def Value.phrase : Value → Phrase
  | .expr e _ => e.phrase
  | .formula f _ => f.phrase
  | .place p _ => .single p.operand
  | .tuple vs _ => .single (.tuple (Value.phrases vs))
  | .array vs _ => .single (.array (Value.phrases vs))
  | .call f vs _ => .single (.call (.ofChars f.toList) (Value.phrases vs))
  | .ref v mutable _ => .single (.ref mutable (v.phrase.wrap v.isCompound).operand)
  | .deref v _ => .single (.deref (v.phrase.wrap v.isCompound).operand)
  | .ite c t e _ => .single (.ite c.phrase t.phrase e.phrase)
  | .unit _ | .select _ _ _ _ | .store _ _ _ _ _ | .missing => .single (.tuple [])

def Value.phrases : List Value → List Phrase
  | [] => []
  | v :: vs => v.phrase :: Value.phrases vs

def Expr.phrase : Expr → Phrase
  | .num n => .single (.word (.ofChars (toString n.toInt).toList))
  | .value v => v.phrase
  | .op o a b =>
    .side (.two (a.phrase.wrap a.isCompound).operand (.operation o) (b.phrase.wrap b.isCompound).operand)

def Formula.phrase : Formula → Phrase
  | .lit true => .single (.word ⟨['t', 'r', 'u', 'e'], rfl⟩)
  | .lit false => .single (.word ⟨['f', 'a', 'l', 's', 'e'], rfl⟩)
  | .and f g => .side (.two (f.phrase.wrap f.isCompound).operand .and (g.phrase.wrap g.isCompound).operand)
  | .or f g => .side (.two (f.phrase.wrap f.isCompound).operand .or (g.phrase.wrap g.isCompound).operand)
  | .not f => .single (.not (f.phrase.wrap f.isCompound).operand)
  | .value v => v.phrase
  | .equal a b => .relation (a.phrase.wrap a.isCompound).toSide .equal (b.phrase.wrap b.isCompound)
  | .compare c a b => .relation (a.phrase.wrap a.isCompound).toSide (.compare c) (b.phrase.wrap b.isCompound)
  | .quant q x t f => .quant q (.ofChars x.toList) t.operand f.phrase

end

/-- Whether an expression stands for a relation or a quantified formula. -/
def Expr.isRelation : Expr → Bool
  | .value (.formula (.equal _ _) _) | .value (.formula (.compare _ _ _) _)
  | .value (.formula (.quant _ _ _ _) _) => true
  | _ => false

mutual

/-- Whether the left operands of all relations in a place are neither relations nor quantified. -/
def Place.Clear : Place → Prop
  | .name _ _ | .wildcard _ => True
  | .elem _ _ i _ => i.Clear

def Value.Clear : Value → Prop
  | .expr e _ => e.Clear
  | .formula f _ => f.Clear
  | .place p _ => p.Clear
  | .tuple vs _ | .array vs _ | .call _ vs _ => Value.AllClear vs
  | .ref v _ _ | .deref v _ => v.Clear
  | .unit _ | .missing => True
  | .ite c t e _ => c.Clear ∧ t.Clear ∧ e.Clear
  | .select _ b i _ => b.Clear ∧ i.Clear
  | .store _ b i e _ => b.Clear ∧ i.Clear ∧ e.Clear

def Value.AllClear : List Value → Prop
  | [] => True
  | v :: vs => v.Clear ∧ Value.AllClear vs

def Expr.Clear : Expr → Prop
  | .num _ => True
  | .value v => v.Clear
  | .op _ a b => a.Clear ∧ b.Clear

def Formula.Clear : Formula → Prop
  | .lit _ => True
  | .and f g | .or f g => f.Clear ∧ g.Clear
  | .not f => f.Clear
  | .value v => v.Clear
  | .equal a b | .compare _ a b => a.isRelation = false ∧ a.Clear ∧ b.Clear
  | .quant _ _ _ f => f.Clear

end

/-! ### Texts -/

/-- Whether the names of all functions of a scope are words. -/
def Scope.Worded (Γ : Scope) : Prop := ∀ f g, Γ.function? f = some g → isWord f.toList = true

variable {fits : Bounds}

theorem Value.isSingle_phrase (hexpr : ∀ e o, v ≠ .expr e o) (hformula : ∀ f o, v ≠ .formula f o) :
    v.phrase.IsSingle := by
  cases v with
  | expr e o => exact absurd rfl (hexpr e o)
  | formula f o => exact absurd rfl (hformula f o)
  | _ => exact ⟨_, by rw [Value.phrase]⟩

theorem Value.isSingle_of_not_isCompound (hv : v.Tidy) (h : v.isCompound = false) : v.phrase.IsSingle := by
  cases v with
  | expr e o =>
    cases e with
    | num n => exact ⟨_, by rw [Value.phrase, Expr.phrase]⟩
    | value v => exact absurd rfl (hv.1 v)
    | op o a b => cases h
  | formula f o => cases h
  | _ => exact Value.isSingle_phrase (by simp) (by simp)

/-- A value that is used as a formula is a single operand. -/
theorem Formula.isSingle_value (hv : (Formula.value v).Tidy) (ht : (Formula.value v).Typed fits Γ) :
    v.phrase.IsSingle := by
  refine Value.isSingle_phrase (fun e o heq => ?_) hv.1
  subst heq
  cases ht.1

theorem Formula.isSingle_of_not_isCompound {f : Formula} (hf : f.Tidy) (ht : f.Typed fits Γ)
    (h : f.isCompound = false) : f.phrase.IsSingle := by
  cases f with
  | lit b => cases b <;> exact ⟨_, by rw [Formula.phrase]⟩
  | not f => exact ⟨_, by rw [Formula.phrase]⟩
  | value v => exact Formula.isSingle_value hf ht
  | _ => cases h

theorem Expr.isSingle_of_not_isCompound {e : Expr} (he : e.Tidy) (ht : e.Typed fits Γ .i32)
    (h : e.isCompound = false) : e.phrase.IsSingle := by
  cases e with
  | num n => exact ⟨_, by rw [Expr.phrase]⟩
  | value v =>
    refine Value.isSingle_phrase he.1 fun f o heq => ?_
    subst heq
    cases ht.1
  | op o a b => cases h

theorem Expr.isSide_of_not_isRelation {t : Ty} {e : Expr} (he : e.Tidy) (ht : e.Typed fits Γ t)
    (hrelation : e.isRelation = false) (h : e.isCompound = false) : e.phrase.IsSide := by
  cases e with
  | num n => exact ⟨_, by rw [Expr.phrase, Phrase.single]⟩
  | op o a b => cases h
  | value v =>
    by_cases hformula : ∃ f o, v = .formula f o
    · obtain ⟨f, o, rfl⟩ := hformula
      rw [Expr.phrase, Value.phrase]
      cases f with
      | lit b => cases b <;> exact ⟨_, by rw [Formula.phrase, Phrase.single]⟩
      | and f g | or f g => exact ⟨_, by rw [Formula.phrase]⟩
      | not f => exact ⟨_, by rw [Formula.phrase, Phrase.single]⟩
      | value w =>
        rw [Formula.phrase]
        exact (Formula.isSingle_value he.2 ht.2).isSide
      | _ => cases hrelation
    · exact (Value.isSingle_phrase he.1 fun f o heq => hformula ⟨f, o, heq⟩).isSide

theorem Operator.toList_print (o : Operator) : o.print.toList = (Sign.joint (.operation o)).chars := by
  cases o <;> simp [Operator.print, Sign.chars]

theorem Comparison.toList_print (c : Comparison) : c.print.toList = (Sign.relation (.compare c)).chars := by
  cases c <;> simp [Comparison.print, Sign.chars]

theorem Quantifier.toList_print (q : Quantifier) : q.print.toList = q.chars := by
  cases q <;> simp [Quantifier.print, Quantifier.chars]

mutual

theorem Place.toList_print (p : Place) {Γ : Scope} {t : Ty} (hΓ : Γ.Worded) (hp : p.Tidy) (hc : p.Clear)
    (h : p.Typed fits Γ t) : p.print.toList = p.operand.text :=
  match p, hp, hc, h with
  | .name x _, hp, _, _ => by
    simp [Place.print, Place.operand, Operand.text, Word.chars_ofChars (isWord_of_isName hp)]
  | .wildcard _, _, _, h => by cases h
  | .elem .array x i _, hp, hc, h => by
    obtain ⟨hx, hi⟩ := hp
    obtain ⟨-, -, -, -, -, ht⟩ := h
    have hindex := Value.toList_print i hΓ hi hc ht
    simp [Place.print, Place.operand, Operand.text, Word.chars_ofChars (isWord_of_isName hx), hindex]
  | .elem .tuple x i _, hp, hc, h => by
    obtain ⟨hx, hi⟩ := hp
    obtain ⟨-, -, n, -, -, hn, -⟩ := h
    have hindex := Phrase.text_operand_wrap
      (Value.toList_print i hΓ hi hc (Value.typed_of_constantIndex hn))
      (Value.isSingle_of_not_isCompound hi)
    simp [Place.print, Place.operand, Operand.text, Word.chars_ofChars (isWord_of_isName hx), hindex]

/-- The printed text of a value is the text of its phrase. -/
theorem Value.toList_print (v : Value) {Γ : Scope} {t : Ty} (hΓ : Γ.Worded) (hv : v.Tidy) (hc : v.Clear)
    (h : v.Typed fits Γ t) : v.print.toList = v.phrase.text :=
  match v, hv, hc, h with
  | .expr e _, hv, hc, h => by
    rw [Value.print, Value.phrase]
    exact Expr.toList_print e hΓ hv.2 hc h.2
  | .formula f _, hv, hc, h => by
    rw [Value.print, Value.phrase]
    exact Formula.toList_print f hΓ hv hc h.2
  | .place p _, hv, hc, h => by
    rw [Value.print, Value.phrase, Phrase.text_single]
    exact Place.toList_print p hΓ hv hc h
  | .tuple vs _, hv, hc, h => by
    obtain ⟨ts, -, -, ht⟩ := h
    have hvs := Value.toList_printAll vs hΓ hv hc ht
    rw [Value.phrase, Phrase.text_single, Operand.text]
    rcases vs with _ | ⟨v, _ | ⟨w, vs⟩⟩
    · simp [Value.print, Value.printAll, Value.phrases, Phrase.texts, tupleEnd]
    · simp only [Value.printAll, Value.phrases] at hvs
      simp [Value.print, Value.phrases, tupleEnd, hvs]
    · simp [Value.print, hvs, Value.phrases, tupleEnd]
  | .array vs _, hv, hc, h => by
    obtain ⟨u, -, -, ht⟩ := h
    have hvs := Value.toList_printAll vs hΓ hv hc ht
    simp [Value.print, Value.phrase, Operand.text, hvs]
  | .call f vs _, hv, hc, h => by
    obtain ⟨g, hg, -, ht⟩ := h
    have hvs := Value.toList_printAll vs hΓ hv hc ht
    simp [Value.print, Value.phrase, Operand.text, Word.chars_ofChars (hΓ f g hg), hvs]
  | .ref v mutable _, hv, hc, h => by
    have hinner := Phrase.text_operand_wrap (Value.toList_print v hΓ hv hc h)
      (Value.isSingle_of_not_isCompound hv)
    cases mutable <;> simp [Value.print, Value.phrase, Operand.text, hinner]
  | .deref v _, hv, hc, h => by
    have hinner := Phrase.text_operand_wrap (Value.toList_print v hΓ hv hc h)
      (Value.isSingle_of_not_isCompound hv)
    simp [Value.print, Value.phrase, Operand.text, hinner]
  | .unit _, _, _, _ => by
    simp [Value.print, Value.phrase, Operand.text, Phrase.texts, tupleEnd]
  | .ite c v w _, hv, hclear, h => by
    have hc := Formula.toList_print c hΓ hv.1 hclear.1 h.1
    have hthen := Value.toList_print v hΓ hv.2.1 hclear.2.1 h.2.1
    have helse := Value.toList_print w hΓ hv.2.2 hclear.2.2 h.2.2
    simp [Value.print, Value.phrase, Operand.text, iteThen, iteElse, iteEnd, hc, hthen, helse]
  | .select _ _ _ _, hv, _, _ => by cases hv
  | .store _ _ _ _ _, hv, _, _ => by cases hv
  | .missing, hv, _, _ => by cases hv

theorem Value.toList_printAll (vs : List Value) {Γ : Scope} {ts : List Ty} (hΓ : Γ.Worded)
    (hv : Value.AllTidy vs) (hc : Value.AllClear vs) (h : Value.AllTyped fits Γ vs ts) :
    (Value.printAll vs).toList = Phrase.texts (Value.phrases vs) :=
  match vs, hv, hc, h with
  | [], _, _, _ => by simp [Value.printAll, Value.phrases, Phrase.texts]
  | [v], hv, hc, h => by
    obtain ⟨u, us, -, ht, -⟩ := h
    have hprint := Value.toList_print v hΓ hv.1 hc.1 ht
    simp [Value.printAll, Value.phrases, Phrase.texts_singleton, hprint]
  | v :: w :: vs, hv, hc, h => by
    obtain ⟨u, us, -, ht, hrest⟩ := h
    have hprint := Value.toList_print v hΓ hv.1 hc.1 ht
    have hall := Value.toList_printAll (w :: vs) hΓ hv.2 hc.2 hrest
    simp [Value.printAll, Value.phrases, Phrase.texts_cons_cons, hprint, hall]

theorem Expr.toList_print (e : Expr) {Γ : Scope} {t : Ty} (hΓ : Γ.Worded) (he : e.Tidy) (hc : e.Clear)
    (h : e.Typed fits Γ t) : e.print.toList = e.phrase.text :=
  match e, he, hc, h with
  | .num n, _, _, _ => by
    rw [Expr.print, Expr.phrase, Phrase.text_single, Operand.text, Word.chars_ofChars (isWord_toString _)]
  | .value v, he, hc, h => by
    rw [Expr.print, Expr.phrase]
    exact Value.toList_print v hΓ he.2 hc h
  | .op o a b, he, hc, h => by
    have ha := Phrase.text_operand_wrap (Expr.toList_print a hΓ he.1 hc.1 h.2.1)
      (Expr.isSingle_of_not_isCompound he.1 h.2.1)
    have hb := Phrase.text_operand_wrap (Expr.toList_print b hΓ he.2 hc.2 h.2.2)
      (Expr.isSingle_of_not_isCompound he.2 h.2.2)
    simp [Expr.print, Expr.phrase, Phrase.text, Side.text, ha, hb, o.toList_print]

theorem Formula.toList_print (f : Formula) {Γ : Scope} (hΓ : Γ.Worded) (hf : f.Tidy) (hc : f.Clear)
    (h : f.Typed fits Γ) : f.print.toList = f.phrase.text :=
  match f, hf, hc, h with
  | .lit true, _, _, _ | .lit false, _, _, _ => by simp [Formula.print, Formula.phrase, Operand.text]
  | .and f g, hf, hc, h | .or f g, hf, hc, h => by
    have hleft := Phrase.text_operand_wrap (Formula.toList_print f hΓ hf.1 hc.1 h.1)
      (Formula.isSingle_of_not_isCompound hf.1 h.1)
    have hright := Phrase.text_operand_wrap (Formula.toList_print g hΓ hf.2 hc.2 h.2)
      (Formula.isSingle_of_not_isCompound hf.2 h.2)
    simp [Formula.print, Formula.phrase, Phrase.text, Side.text, Sign.chars, hleft, hright]
  | .not f, hf, hc, h => by
    have hinner := Phrase.text_operand_wrap (Formula.toList_print f hΓ hf hc h)
      (Formula.isSingle_of_not_isCompound hf h)
    simp [Formula.print, Formula.phrase, Operand.text, hinner]
  | .value v, hf, hc, h => by
    rw [Formula.print, Formula.phrase]
    exact Value.toList_print v hΓ hf.2 hc h
  | .equal a b, hf, hc, h | .compare _ a b, hf, hc, h => by
    obtain ⟨t, -, hta, htb⟩ := h
    have ha := Phrase.text_toSide_wrap (Expr.toList_print a hΓ hf.1 hc.2.1 hta)
      (Expr.isSide_of_not_isRelation hf.1 hta hc.1)
    have hb := Phrase.text_wrap b.isCompound (Expr.toList_print b hΓ hf.2 hc.2.2 htb)
    simp [Formula.print, Formula.phrase, Phrase.text, Sign.chars, ha, hb, Comparison.toList_print]
  | .quant q x t f, hf, hc, h => by
    have hbody := Formula.toList_print f (Γ := Γ.declare x t) hΓ hf.2 hc h
    simp [Formula.print, Formula.phrase, Phrase.text, Word.chars_ofChars (isWord_of_isName hf.1), hbody,
      q.toList_print, t.toList_print]

end

end Verdict
