import Verdict.Proofs.QueryTexts
import Verdict.Reading.Types

/-! # Terms are read back from their texts

A term is written as an S-expression, which is ambiguous in general: a constant could be called `true`
or `1`, and a function `forall` or `-`. A term none of whose names can be read as anything else is read back
(`Term.ofSExp_toSExp`), a function without arguments as a constant. The operators of the solver are such
names, as are the names of variables and all names with a prime in them. -/

namespace Verdict

/-! ### Integers as text -/

namespace Text

variable {cs : List Char} {c : Char}

theorem digitsFrom_eq (hcs : ∀ c ∈ cs, c.isDigit = true) (n : ℕ) :
    digitsFrom n cs = some (Nat.ofDigitChars 10 cs n) := by
  induction cs generalizing n with
  | nil => rfl
  | cons c cs ih =>
    obtain ⟨hc, hcs⟩ := List.forall_mem_cons.mp hcs
    rw [digitsFrom, digit?, if_pos hc, Option.bind_some, ih hcs]
    rfl

theorem digitsFrom_eq_none (hc : c ∈ cs) (hdigit : c.isDigit = false) (n : ℕ) : digitsFrom n cs = none := by
  induction cs generalizing n with
  | nil => exact absurd hc List.not_mem_nil
  | cons d cs ih =>
    rcases List.mem_cons.mp hc with rfl | hc
    · simp [digitsFrom, digit?, hdigit]
    · rw [digitsFrom]
      cases digit? d with
      | none => rfl
      | some k => exact ih hc (10 * n + k)

theorem readNat?_eq_none (hc : c ∈ cs) (hdigit : c.isDigit = false) : readNat? cs = none := by
  unfold readNat?
  split
  · rfl
  · exact digitsFrom_eq_none hc hdigit 0

theorem isDigit_of_mem_toDigits {n : ℕ} (hc : c ∈ Nat.toDigits 10 n) : c.isDigit = true :=
  Nat.isDigit_of_mem_toDigits (by decide) (by decide) hc

theorem readNat?_toDigits (n : ℕ) : readNat? (Nat.toDigits 10 n) = some n := by
  have hdigits := digitsFrom_eq (fun c hc => isDigit_of_mem_toDigits (n := n) hc) 0
  rw [Nat.ofDigitChars_ten_toDigits] at hdigits
  unfold readNat?
  split
  · next hnil => exact absurd hnil Nat.toDigits_ne_nil
  · exact hdigits

/-- An integer is read back from its digits and its sign. -/
theorem readInt?_toString (n : ℤ) : readInt? (toString n) = some n := by
  cases n with
  | ofNat k =>
    have htext : (toString (Int.ofNat k)).toList = Nat.toDigits 10 k := (String.ofList_eq.mp rfl).symm
    have hhead : ∀ c cs, Nat.toDigits 10 k = c :: cs → c.isDigit = true := fun c cs h =>
      isDigit_of_mem_toDigits (n := k) (h ▸ List.mem_cons_self)
    unfold readInt?
    rw [htext]
    split
    · next cs h => exact absurd (hhead _ cs h) (by decide)
    · next cs h => exact absurd (hhead _ cs h) (by decide)
    · rw [readNat?_toDigits]
      rfl
  | negSucc k =>
    have htext : (toString (Int.negSucc k)).toList = '-' :: Nat.toDigits 10 (k + 1) := by
      change ("-" ++ toString (k + 1)).toList = _
      simp
    unfold readInt?
    rw [htext]
    simp only [readNat?_toDigits, Option.map_some]
    rfl

/-- A text with a prime is no integer. -/
theorem readInt?_of_prime {x : String} (hx : '\'' ∈ x.toList) : readInt? x = none := by
  unfold readInt?
  split
  · next cs h =>
    rw [readNat?_eq_none (c := '\'') (by simpa [h] using hx) (by decide)]
    rfl
  · next cs h =>
    rw [readNat?_eq_none (c := '\'') (by simpa [h] using hx) (by decide)]
    rfl
  · rw [readNat?_eq_none hx (by decide)]
    rfl

end Text

namespace Term

theorem literal?_toString (n : Int64) : literal? (toString n.toInt) = some n := by
  have hfits : Text.fitsSigned 64 n.toInt = true := by
    have hlow := Int64.le_toInt n
    have hhigh := Int64.toInt_lt n
    have hsize : Text.wordSize (64 - 1) = 9223372036854775808 := by decide
    simp only [Text.fitsSigned, hsize, Int.ofNat_eq_natCast, Bool.and_eq_true, decide_eq_true_eq]
    omega
  rw [literal?, Text.readSigned?, Text.readInt?_toString]
  simp [hfits]

variable {x fn : String} {ts : List Term}

theorem literal?_eq_none (hx : Text.readInt? x = none) : literal? x = none := by
  rw [literal?, Text.readSigned?, hx]
  rfl

/-! ### Symbols that are read as constants -/

/-- Whether a symbol can be written and is read as a constant. -/
structure IsConstant (x : String) : Prop where
  bar : '|' ∉ x.toList
  truth : x ≠ "true"
  falsity : x ≠ "false"
  literal : literal? x = none

theorem IsConstant.ofSymbol (hx : IsConstant x) : Term.ofSymbol x = const x := by
  rw [Term.ofSymbol, if_neg hx.truth, if_neg hx.falsity, hx.literal]

/-- A name with a prime in it is neither a truth value nor an integer. -/
theorem isConstant_of_prime (hbar : '|' ∉ x.toList) (hx : '\'' ∈ x.toList) : IsConstant x := by
  refine ⟨hbar, ?_, ?_, literal?_eq_none (Text.readInt?_of_prime hx)⟩
  · rintro rfl
    exact absurd hx (by decide)
  · rintro rfl
    exact absurd hx (by decide)

theorem isDigit_of_isNameChar {c : Char} (hc : Reading.isNameChar true c = true) : c.isDigit = false := by
  rw [Bool.eq_false_iff]
  intro hdigit
  have hrange : 48 ≤ c.toNat ∧ c.toNat ≤ 57 := by
    simpa [Char.isDigit, UInt32.le_iff_toNat_le] using hdigit
  simp only [Reading.isNameChar, Char.isAlpha, Char.isUpper, Char.isLower, Bool.not_true, Bool.false_and,
    Bool.or_false, Bool.or_eq_true, Bool.and_eq_true, decide_eq_true_eq, UInt32.le_iff_toNat_le,
    ge_iff_le, beq_iff_eq] at hc
  rcases hc with (rfl | rfl) | hc
  · revert hdigit
    decide
  · revert hdigit
    decide
  · change (65 ≤ c.toNat ∧ c.toNat ≤ 90) ∨ 97 ≤ c.toNat ∧ c.toNat ≤ 122 at hc
    omega

theorem ne_bar_of_isNameChar {first : Bool} {c : Char} (hc : Reading.isNameChar first c = true) :
    c ≠ '|' := by
  rintro rfl
  revert hc
  cases first <;> decide

/-- A name is no integer: it starts with no digit and no sign. -/
theorem readInt?_of_isName (hx : Reading.isName x = true) : Text.readInt? x = none := by
  simp only [Reading.isName, Bool.and_eq_true] at hx
  obtain ⟨-, hchars⟩ := hx
  split at hchars
  · cases hchars
  · next c cs hcs =>
    rw [Bool.and_eq_true] at hchars
    obtain ⟨hc, -⟩ := hchars
    unfold Text.readInt?
    rw [hcs]
    split
    · next hplus =>
      rw [(List.cons.inj hplus).1] at hc
      exact absurd hc (by decide)
    · next hminus =>
      rw [(List.cons.inj hminus).1] at hc
      exact absurd hc (by decide)
    · rw [Text.readNat?_eq_none List.mem_cons_self (isDigit_of_isNameChar hc)]
      rfl

/-- A name is read as a constant. -/
theorem isConstant_of_isName (hx : Reading.isName x = true) : IsConstant x := by
  have hword : x ≠ "true" ∧ x ≠ "false" := by
    constructor
    · rintro rfl
      exact absurd hx (by decide)
    · rintro rfl
      exact absurd hx (by decide)
  refine ⟨fun hbar => ?_, hword.1, hword.2, literal?_eq_none (readInt?_of_isName hx)⟩
  simp only [Reading.isName, Bool.and_eq_true] at hx
  obtain ⟨-, hchars⟩ := hx
  split at hchars
  · cases hchars
  · next c cs hcs =>
    rw [Bool.and_eq_true, List.all_eq_true] at hchars
    obtain ⟨hc, hrest⟩ := hchars
    rcases List.mem_cons.mp (hcs ▸ hbar) with h | h
    · exact ne_bar_of_isNameChar hc h.symm
    · exact ne_bar_of_isNameChar (hrest _ h) rfl

/-! ### Reading terms -/

mutual

/-- Whether all names of a term are read as what they are. -/
def Spelled : Term → Prop
  | const x => IsConstant x
  | int _ | lit _ | absent => True
  | app fn ts => IsConstant fn ∧ fn ≠ "forall" ∧ fn ≠ "exists" ∧ (fn = "-" → ts.length ≠ 1) ∧ AllSpelled ts
  | quant _ x _ t => '|' ∉ x.toList ∧ t.Spelled
  | constArray _ t => t.Spelled

def AllSpelled : List Term → Prop
  | [] => True
  | t :: ts => t.Spelled ∧ AllSpelled ts

end

mutual

/-- A term with constants in place of functions without arguments. -/
def plain : Term → Term
  | app fn [] => const fn
  | app fn (t :: ts) => app fn (t.plain :: plainAll ts)
  | quant q x s t => quant q x s t.plain
  | constArray s t => constArray s t.plain
  | t => t

/-- Several terms with constants in place of functions without arguments. -/
def plainAll : List Term → List Term
  | [] => []
  | t :: ts => t.plain :: plainAll ts

end

theorem allSpelled_iff : AllSpelled ts ↔ ∀ t ∈ ts, t.Spelled := by
  induction ts with
  | nil => simp [AllSpelled]
  | cons t ts ih => simp [AllSpelled, ih]

theorem ofSExp_sort (s : SmtSort) : SmtSort.ofSExp s.toSExp = .ok s := by
  induction s with
  | int => rfl
  | bool => rfl
  | array s ih =>
    rw [SmtSort.toSExp, SExp.app, SmtSort.ofSExp, ih]
    rfl

/-- What is neither a quantifier nor a negative literal is read as an application. -/
theorem ofSExp_app {args : List SExp} (hfn : ¬ (fn = "forall" ∨ fn = "exists")) :
    ofSExp (.app fn args) =
      match negative? (.symbol fn :: args) with
      | some n => .ok (int n)
      | none => (ofSExps args).map (app fn) := by
  rw [SExp.app, ofSExp.eq_def]
  simp only [if_neg hfn]
  cases negative? (.symbol fn :: args) with
  | some n => rfl
  | none => cases ofSExps args <;> rfl

theorem ofSExp_int (n : Int64) : ofSExp (intToSExp n) = .ok (int n) := by
  unfold intToSExp
  split_ifs
  · have hneg : negative? [.symbol "-", .symbol (toString (-n).toInt)] = some n := by
      rw [negative?, literal?_toString, Option.map_some, Int64.neg_neg]
    rw [ofSExp_app (by decide), hneg]
  · have hword : ∀ b : String, Text.readInt? b = none → toString n.toInt ≠ b := by
      rintro b hb rfl
      rw [Text.readInt?_toString] at hb
      cases hb
    rw [ofSExp, ofSymbol, if_neg (hword "true" (by decide)), if_neg (hword "false" (by decide)),
      literal?_toString]
    rfl

mutual

/-- A term whose names are read as what they are is read back. -/
theorem ofSExp_toSExp : ∀ (t : Term) {e : SExp}, t.Spelled → t.toSExp = some e → ofSExp e = .ok t.plain
  | const x, e, ht, he => by
    obtain rfl := Option.some.inj he
    rw [ofSExp, IsConstant.ofSymbol ht]
    rfl
  | int n, e, ht, he => by
    obtain rfl := Option.some.inj he
    exact ofSExp_int n
  | lit true, e, ht, he | lit false, e, ht, he => by
    obtain rfl := Option.some.inj he
    rw [ofSExp]
    rfl
  | app fn [], e, ht, he => by
    obtain rfl := Option.some.inj he
    rw [ofSExp, IsConstant.ofSymbol ht.1]
    rfl
  | app fn (t :: ts), e, ht, he => by
    obtain ⟨-, hforall, hexists, hminus, hargs⟩ := ht
    rw [toSExp] at he
    obtain ⟨a, ha, he⟩ := Option.bind_eq_some_iff.mp he
    obtain ⟨as, has, he⟩ := Option.bind_eq_some_iff.mp he
    obtain rfl := Option.some.inj he
    have hneg : negative? (.symbol fn :: a :: as) = none := by
      unfold negative?
      split
      · next h =>
        -- One argument of `-` would be a negative literal.
        obtain ⟨rfl, -, rfl⟩ := h
        cases ts with
        | nil => exact absurd rfl (hminus rfl)
        | cons u us =>
          rw [toSExps] at has
          obtain ⟨b, -, has⟩ := Option.bind_eq_some_iff.mp has
          obtain ⟨bs, -, has⟩ := Option.bind_eq_some_iff.mp has
          cases has
      · rfl
    rw [ofSExp_app (by simp [hforall, hexists]), hneg, ofSExps, ofSExp_toSExp t hargs.1 ha,
      ofSExps_toSExps ts hargs.2 has]
    rfl
  | quant q x s t, e, ht, he => by
    rw [toSExp] at he
    obtain ⟨a, ha, he⟩ := Option.bind_eq_some_iff.mp he
    obtain rfl := Option.some.inj he
    have hbody := ofSExp_toSExp t ht.2 ha
    cases q with
    | all =>
      rw [SExp.app, ofSExp, if_pos (.inl rfl), ofSExp_sort, hbody]
      rfl
    | some =>
      rw [SExp.app, ofSExp, if_pos (.inr rfl), ofSExp_sort, hbody]
      rfl
  | constArray s t, e, ht, he => by
    rw [toSExp] at he
    obtain ⟨a, ha, he⟩ := Option.bind_eq_some_iff.mp he
    obtain rfl := Option.some.inj he
    have hsort : arraySort (SmtSort.array s).toSExp = .ok s := by
      rw [arraySort, ofSExp_sort]
      rfl
    rw [SExp.app, ofSExp]
    simp only [hsort, ofSExp_toSExp t ht ha]
    rfl
  | absent, e, ht, he => by cases he

theorem ofSExps_toSExps : ∀ (ts : List Term) {es : List SExp}, AllSpelled ts → toSExps ts = some es →
    ofSExps es = .ok (plainAll ts)
  | [], es, hts, hes => by
    obtain rfl := Option.some.inj hes
    rfl
  | t :: ts, es, hts, hes => by
    rw [toSExps] at hes
    obtain ⟨a, ha, hes⟩ := Option.bind_eq_some_iff.mp hes
    obtain ⟨as, has, hes⟩ := Option.bind_eq_some_iff.mp hes
    obtain rfl := Option.some.inj hes
    rw [ofSExps, ofSExp_toSExp t hts.1 ha, ofSExps_toSExps ts hts.2 has]
    rfl

end

mutual

/-- Names that are read as what they are have no bars. -/
theorem Spelled.names : ∀ (t : Term), t.Spelled → ∀ x ∈ t.names, '|' ∉ x.toList
  | const y, ht, x, hx => by
    obtain rfl := List.mem_singleton.mp hx
    exact ht.bar
  | int _, ht, x, hx | lit _, ht, x, hx | absent, ht, x, hx => absurd hx List.not_mem_nil
  | app fn ts, ht, x, hx => by
    rcases List.mem_cons.mp hx with rfl | hx
    · exact ht.1.bar
    · exact AllSpelled.names ts ht.2.2.2.2 x hx
  | quant q y s t, ht, x, hx => by
    rcases List.mem_cons.mp hx with rfl | hx
    · exact ht.1
    · exact Spelled.names t ht.2 x hx
  | constArray s t, ht, x, hx => Spelled.names t ht x hx

theorem AllSpelled.names : ∀ (ts : List Term), AllSpelled ts → ∀ x ∈ namesAll ts, '|' ∉ x.toList
  | [], hts, x, hx => absurd hx List.not_mem_nil
  | t :: ts, hts, x, hx => by
    rcases List.mem_append.mp hx with hx | hx
    · exact Spelled.names t hts.1 x hx
    · exact AllSpelled.names ts hts.2 x hx

end

/-- What a term is written as is read back from its texts if its names are read as what they are. -/
theorem Spelled.read {t : Term} (ht : t.Spelled) {e : SExp} (he : t.toSExp = some e) (style : Layout) :
    SExp.read (style.format e) = .ok e ∧ SExp.read e.print = .ok e ∧ ofSExp e = .ok t.plain := by
  obtain ⟨e', he', hbars⟩ := t.exists_noBars (t.isWhole_of_toSExp he) (Spelled.names t ht)
  obtain rfl := Option.mem_unique he he'
  exact ⟨SExp.read_format style hbars, SExp.read_print hbars, ofSExp_toSExp t ht he⟩

/-! ### Terms that are made from others -/

instance (x : String) : Decidable (IsConstant x) :=
  decidable_of_iff ('|' ∉ x.toList ∧ x ≠ "true" ∧ x ≠ "false" ∧ literal? x = none)
    ⟨fun h => ⟨h.1, h.2.1, h.2.2.1, h.2.2.2⟩, fun h => ⟨h.bar, h.truth, h.falsity, h.literal⟩⟩

/-- The operators of the solver. -/
def operators : List String :=
  ["and", "or", "not", "=>", "=", "ite", "select", "store", "+", "-", "*", "div", "mod", ">=", "<=", ">", "<"]

theorem isConstant_operators : ∀ fn ∈ operators, IsConstant fn ∧ fn ≠ "forall" ∧ fn ≠ "exists" := by
  decide

theorem spelled_operator (hfn : fn ∈ operators) (hminus : fn = "-" → ts.length ≠ 1) (hts : AllSpelled ts) :
    (app fn ts).Spelled := by
  obtain ⟨hconst, hforall, hexists⟩ := isConstant_operators fn hfn
  exact ⟨hconst, hforall, hexists, hminus, hts⟩

/-- A function whose name contains a prime is none of the solver's own. -/
theorem spelled_function (hbar : '|' ∉ fn.toList) (hfn : '\'' ∈ fn.toList) (hts : AllSpelled ts) :
    (app fn ts).Spelled := by
  refine ⟨isConstant_of_prime hbar hfn, ?_, ?_, ?_, hts⟩
  · rintro rfl
    exact absurd hfn (by decide)
  · rintro rfl
    exact absurd hfn (by decide)
  · rintro rfl
    exact absurd hfn (by decide)

end Term

end Verdict
