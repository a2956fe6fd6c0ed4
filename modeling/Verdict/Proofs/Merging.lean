import Verdict.Proofs.Phrasing
import Verdict.Proofs.Substitution

/-! # Merging values

The value that is `t` or `e`, depending on a condition, is `t` if both print alike. For values that can be read and
are well-typed this keeps the meaning (`Value.ternary_means_chosen`), if the left operands of relations are neither
relations nor quantified formulas, and the names of functions are words. Without that it fails: `(p < q) < r` and
`p < (q < r)` print alike, as does a call of a function with an odd name (`Value.ternary_forgets_condition`).

The text of a value determines its phrase, and the phrase its meaning (`Value.eval_phrase`), up to one thing: unit
and the empty tuple are written in the same way. A value is flat if empty tuples stand for all units in it. What a
phrase denotes is flat, and of two values of one type with the same flat value both are the same. -/

namespace Verdict

/-! ### Flat values -/

namespace Val

mutual

/-- A value with empty tuples for units. -/
def flat : Val → Val
  | int n => int n
  | bool b => bool b
  | unit => tuple []
  | tuple vs => tuple (flatAll vs)
  | array n f => array n fun i => (f i).flat

/-- Values with empty tuples for units. -/
def flatAll : List Val → List Val
  | [] => []
  | v :: vs => v.flat :: flatAll vs

end

theorem flatAll_eq_map (vs : List Val) : flatAll vs = vs.map flat := by
  induction vs with
  | nil => rfl
  | cons v vs ih => rw [flatAll, ih, List.map_cons]

mutual

@[simp] theorem flat_flat : ∀ v : Val, v.flat.flat = v.flat
  | int n => rfl
  | bool b => rfl
  | unit => rfl
  | tuple vs => by rw [flat, flat, flatAll_flatAll vs]
  | array n f => by
    simp only [flat]
    exact congrArg _ (funext fun i => flat_flat (f i))

@[simp] theorem flatAll_flatAll : ∀ vs : List Val, flatAll (flatAll vs) = flatAll vs
  | [] => rfl
  | v :: vs => by rw [flatAll, flatAll, flat_flat v, flatAll_flatAll vs]

end

@[simp] theorem toInt_flat (v : Val) : v.flat.toInt = v.toInt := by
  cases v <;> rfl

theorem le_flat (v w : Val) : v.flat.Le w.flat ↔ v.Le w := by
  cases v <;> cases w <;> rfl

theorem lt_flat (v w : Val) : v.flat.Lt w.flat ↔ v.Lt w := by
  cases v <;> cases w <;> rfl

theorem flat_get (v : Val) (i : ℤ) : (v.flat.get i).flat = (v.get i).flat := by
  cases v with
  | tuple vs =>
    simp only [flat, get, flatAll_eq_map]
    split_ifs
    · rw [List.getElem?_map]
      cases vs[i.toNat]? with
      | none => rfl
      | some w => exact flat_flat w
    · rfl
  | array n f => exact flat_flat (f i)
  | unit => simp [flat, get]
  | _ => rfl

end Val

theorem Comparison.holds_flat (c : Comparison) (v w : Val) : c.Holds v.flat w.flat ↔ c.Holds v w := by
  cases c <;> simp only [Holds, Val.le_flat, Val.lt_flat]

namespace Ty

mutual

/-- A type with empty tuples for units. -/
def flat : Ty → Ty
  | bool => bool
  | i32 => i32
  | unit => tuple []
  | unknown => unknown
  | tuple ts => tuple (flatAll ts)
  | array t n => array t.flat n
  | ref t mutable => ref t.flat mutable

/-- Types with empty tuples for units. -/
def flatAll : List Ty → List Ty
  | [] => []
  | t :: ts => t.flat :: flatAll ts

end

mutual

/-- The value of a type that a flat value stands for. -/
def shape : Ty → Val → Val
  | unit, _ => .unit
  | tuple ts, .tuple vs => .tuple (shapeAll ts vs)
  | array t _, .array n f => .array n fun i => t.shape (f i)
  | ref t _, v => t.shape v
  | _, v => v

/-- The values of types that flat values stand for. -/
def shapeAll : List Ty → List Val → List Val
  | t :: ts, v :: vs => t.shape v :: shapeAll ts vs
  | _, _ => []

end

mutual

theorem has_flat : ∀ (t : Ty) {v : Val}, t.Has v → t.flat.Has v.flat
  | bool, v, h => by
    obtain ⟨b, rfl⟩ := h
    exact ⟨b, rfl⟩
  | i32, v, h => by
    obtain ⟨n, rfl⟩ := h
    exact ⟨n, rfl⟩
  | unit, v, h => by
    obtain rfl := h
    exact ⟨[], rfl, rfl⟩
  | unknown, v, h => by cases h
  | tuple ts, v, h => by
    obtain ⟨vs, rfl, hvs⟩ := h
    exact ⟨_, rfl, hasAll_flatAll ts hvs⟩
  | array t n, v, h => by
    obtain ⟨f, rfl, hf⟩ := h
    exact ⟨_, rfl, fun i => has_flat t (hf i)⟩
  | ref t mutable, v, h => has_flat t (v := v) h

theorem hasAll_flatAll : ∀ (ts : List Ty) {vs : List Val}, HasAll ts vs → HasAll (flatAll ts) (Val.flatAll vs)
  | [], vs, h => by
    obtain rfl := h
    rfl
  | t :: ts, vs, h => by
    obtain ⟨w, ws, rfl, hw, hws⟩ := h
    exact ⟨_, _, rfl, has_flat t hw, hasAll_flatAll ts hws⟩

end

mutual

theorem shape_flat : ∀ (t : Ty) {v : Val}, t.Has v → t.shape v.flat = v
  | bool, v, h => by
    obtain ⟨b, rfl⟩ := h
    rfl
  | i32, v, h => by
    obtain ⟨n, rfl⟩ := h
    rfl
  | unit, v, h => by
    obtain rfl := h
    rfl
  | unknown, v, h => by cases h
  | tuple ts, v, h => by
    obtain ⟨vs, rfl, hvs⟩ := h
    simp only [Val.flat, shape, shapeAll_flatAll ts hvs]
  | array t n, v, h => by
    obtain ⟨f, rfl, hf⟩ := h
    exact congrArg _ (funext fun i => shape_flat t (hf i))
  | ref t mutable, v, h => by
    rw [shape]
    exact shape_flat t h

theorem shapeAll_flatAll : ∀ (ts : List Ty) {vs : List Val}, HasAll ts vs → shapeAll ts (Val.flatAll vs) = vs
  | [], vs, h => by
    obtain rfl := h
    rfl
  | t :: ts, vs, h => by
    obtain ⟨w, ws, rfl, hw, hws⟩ := h
    rw [Val.flatAll, shapeAll, shape_flat t hw, shapeAll_flatAll ts hws]

end

/-- Two values of one type with the same flat value are the same. -/
theorem flat_inj {t : Ty} {v w : Val} (hv : t.Has v) (hw : t.Has w) : v.flat = w.flat ↔ v = w := by
  refine ⟨fun h => ?_, fun h => h ▸ rfl⟩
  rw [← t.shape_flat hv, h, t.shape_flat hw]

mutual

theorem has_shape : ∀ (t : Ty) {w : Val}, t.flat.Has w → t.Has (t.shape w) ∧ (t.shape w).flat = w.flat
  | bool, w, h => by
    obtain ⟨b, rfl⟩ := h
    exact ⟨⟨b, rfl⟩, rfl⟩
  | i32, w, h => by
    obtain ⟨n, rfl⟩ := h
    exact ⟨⟨n, rfl⟩, rfl⟩
  | unit, w, h => by
    obtain ⟨ws, rfl, rfl⟩ := h
    exact ⟨rfl, rfl⟩
  | unknown, w, h => by cases h
  | tuple ts, w, h => by
    obtain ⟨ws, rfl, hws⟩ := h
    obtain ⟨hall, hflat⟩ := hasAll_shapeAll ts hws
    exact ⟨⟨_, rfl, hall⟩, by rw [shape, Val.flat, hflat, Val.flat]⟩
  | array t n, w, h => by
    obtain ⟨f, rfl, hf⟩ := h
    refine ⟨⟨_, rfl, fun i => (has_shape t (hf i)).1⟩, ?_⟩
    simp only [shape, Val.flat]
    exact congrArg _ (funext fun i => (has_shape t (hf i)).2)
  | ref t mutable, w, h => by
    rw [shape]
    exact has_shape t h

theorem hasAll_shapeAll : ∀ (ts : List Ty) {ws : List Val}, HasAll (flatAll ts) ws →
    HasAll ts (shapeAll ts ws) ∧ Val.flatAll (shapeAll ts ws) = Val.flatAll ws
  | [], ws, h => by
    obtain rfl := h
    exact ⟨rfl, rfl⟩
  | t :: ts, ws, h => by
    obtain ⟨u, us, rfl, hu, hus⟩ := h
    obtain ⟨hhead, hflat⟩ := has_shape t hu
    obtain ⟨htail, hflats⟩ := hasAll_shapeAll ts hus
    exact ⟨⟨_, _, rfl, hhead, htail⟩, by rw [shapeAll, Val.flatAll, hflat, hflats, Val.flatAll]⟩

end

/-- A property of flat values holds for the values of a type if it holds for those of the flat type. -/
theorem forall_has_flat {t : Ty} {P : Val → Prop} :
    (∀ v, t.flat.Has v → P v.flat) ↔ ∀ v, t.Has v → P v.flat := by
  refine ⟨fun h v hv => ?_, fun h v hv => ?_⟩
  · rw [← v.flat_flat]
    exact h _ (t.has_flat hv)
  · obtain ⟨hshape, hflat⟩ := t.has_shape hv
    rw [← hflat]
    exact h _ hshape

theorem exists_has_flat {t : Ty} {P : Val → Prop} :
    (∃ v, t.flat.Has v ∧ P v.flat) ↔ ∃ v, t.Has v ∧ P v.flat := by
  constructor
  · rintro ⟨v, hv, h⟩
    obtain ⟨hshape, hflat⟩ := t.has_shape hv
    exact ⟨_, hshape, hflat ▸ h⟩
  · rintro ⟨v, hv, h⟩
    exact ⟨_, t.has_flat hv, by rwa [v.flat_flat]⟩

end Ty

/-! ### What phrases denote -/

mutual

/-- The flat type that a phrase is written for. -/
def Phrase.type : Phrase → Ty
  | .side s => s.type
  | .relation _ _ _ | .quant _ _ _ _ => .unknown

/-- The flat type that a side is written for. -/
def Side.type : Side → Ty
  | .one o => o.type
  | .two _ _ _ => .unknown

def Operand.type : Operand → Ty
  | .word w =>
    if w.1 = ['b', 'o', 'o', 'l'] then .bool else if w.1 = ['i', '3', '2'] then .i32 else .unknown
  | .group p => .tuple [p.type]
  | .tuple ps => .tuple (Phrase.types ps)
  | .sized p n => .array p.type ((Text.readNat? n.1).getD 0)
  | .ref mutable o => .ref o.type mutable
  | .elem _ _ | .part _ _ | .array _ | .call _ _ | .deref _ | .not _ | .ite _ _ _ => .unknown

/-- The flat types that phrases are written for. -/
def Phrase.types : List Phrase → List Ty
  | [] => []
  | p :: ps => p.type :: Phrase.types ps

end

theorem Ty.type_round (ps : List Phrase) : (Ty.round ps).type = .tuple (Phrase.types ps) := by
  rcases ps with _ | ⟨p, _ | ⟨q, ps⟩⟩
  · simp [Ty.round, Operand.type, Phrase.types]
  · simp [Ty.round, Operand.type, Phrase.types]
  · simp [Ty.round, Operand.type]

mutual

/-- A type is written as an operand up to units. -/
theorem Ty.type_operand : ∀ t : Ty, t.operand.type = t.flat
  | .bool | .i32 => by simp [Ty.operand, Operand.type, Ty.flat]
  | .unit => by simp [Ty.operand, Operand.type, Ty.flat, Phrase.types]
  | .unknown => by simp [Ty.operand, Operand.type, Ty.flat]
  | .tuple ts => by rw [Ty.operand, Ty.type_round, Ty.types_phrases ts, Ty.flat]
  | .array t n => by
    have hlength := Word.chars_ofChars (isWord_toDigits n)
    simp [Ty.operand, Operand.type, Ty.flat, Phrase.single, Phrase.type, Side.type, hlength, Ty.type_operand t,
      Text.readNat?_toDigits]
  | .ref t mutable => by rw [Ty.operand, Operand.type, Ty.type_operand t, Ty.flat]

theorem Ty.types_phrases : ∀ ts : List Ty, Phrase.types (Ty.phrases ts) = Ty.flatAll ts
  | [] => by rw [Ty.phrases, Phrase.types, Ty.flatAll]
  | t :: ts => by
    rw [Ty.phrases, Phrase.types, Ty.types_phrases ts, Phrase.single, Phrase.type, Side.type, Ty.type_operand t,
      Ty.flatAll]

end

/-- The variable that a word names. -/
def Word.name (w : Word) : String := String.ofList w.1

theorem Word.name_ofChars {x : String} (h : isWord x.toList = true) : (ofChars x.toList).name = x := by
  rw [name, chars_ofChars h, String.ofList_toList]

/-- What a word denotes: a truth value, a number or what a variable does. -/
def Word.eval (ρ : Valuation) (w : Word) : Val :=
  if w.name = "true" then .bool true
  else if w.name = "false" then .bool false
  else
    match Text.readInt? w.name with
    | some n => .int n
    | none => ρ w.name

/-- The meaning of a relation. -/
def Relation.Holds : Relation → Val → Val → Prop
  | .equal, v, w => v = w
  | .compare c, v, w => c.Holds v w

/-- The types of the inputs of a function, and none if there is no such function. -/
def inputTypes (functions : List Function) (f : String) : List Ty :=
  ((functions.find? fun g => g.name == f).map fun g => g.inputs.map Declaration.type).getD []

open Classical in
/-- The truth value of a proposition. -/
noncomputable def Val.truth (P : Prop) : Val := .bool (decide P)

@[simp] theorem Val.truth_eq_true {P : Prop} : Val.truth P = .bool true ↔ P := by
  simp [Val.truth]

/-- The meaning of a sign that joins two operands. -/
noncomputable def Joint.eval (I : Interp) : Joint → Val → Val → Val
  | .operation o, v, w => .int (I.operate o v.toInt w.toInt)
  | .and, v, w => .truth (v = .bool true ∧ w = .bool true)
  | .or, v, w => .truth (v = .bool true ∨ w = .bool true)

open Classical in
mutual

/-- The flat value that a phrase denotes. -/
noncomputable def Phrase.eval (I : Interp) (functions : List Function) (ρ : Valuation) : Phrase → Val
  | .side s => s.eval I functions ρ
  | .relation l r p => .truth (r.Holds (l.eval I functions ρ) (p.eval I functions ρ))
  | .quant .all x t p =>
    .truth (∀ v, t.type.Has v → p.eval I functions (Function.update ρ x.name v.flat) = .bool true)
  | .quant .some x t p =>
    .truth (∃ v, t.type.Has v ∧ p.eval I functions (Function.update ρ x.name v.flat) = .bool true)

noncomputable def Side.eval (I : Interp) (functions : List Function) (ρ : Valuation) : Side → Val
  | .one o => o.eval I functions ρ
  | .two a j b => j.eval I (a.eval I functions ρ) (b.eval I functions ρ)

/-- The flat value that an operand denotes. Functions are applied to values of the types they are declared for. -/
noncomputable def Operand.eval (I : Interp) (functions : List Function) (ρ : Valuation) : Operand → Val
  | .word w => w.eval ρ
  | .elem w p => ((ρ w.name).get (p.eval I functions ρ).toInt).flat
  | .part w o => ((ρ w.name).get (o.eval I functions ρ).toInt).flat
  | .group p => p.eval I functions ρ
  | .tuple ps => .tuple (Phrase.evalAll I functions ρ ps)
  | .array ps => (I.literal (Phrase.evalAll I functions ρ ps)).flat
  | .sized _ _ => .tuple []
  | .call f ps =>
    (I.call f.name (Ty.shapeAll (inputTypes functions f.name) (Phrase.evalAll I functions ρ ps))).flat
  | .ref _ o => o.eval I functions ρ
  | .deref o => o.eval I functions ρ
  | .not o => .truth (o.eval I functions ρ ≠ .bool true)
  | .ite c t e =>
    if c.eval I functions ρ = .bool true then t.eval I functions ρ else e.eval I functions ρ

/-- The flat values that phrases denote. -/
noncomputable def Phrase.evalAll (I : Interp) (functions : List Function) (ρ : Valuation) :
    List Phrase → List Val
  | [] => []
  | p :: ps => p.eval I functions ρ :: Phrase.evalAll I functions ρ ps

end

namespace Phrase

variable {I : Interp} {functions : List Function} {ρ : Valuation}

@[simp] theorem eval_single (o : Operand) : (single o).eval I functions ρ = o.eval I functions ρ := by
  rw [single, eval, Side.eval]

@[simp] theorem eval_wrap (compound : Bool) (p : Phrase) :
    (wrap compound p).eval I functions ρ = p.eval I functions ρ := by
  cases compound with
  | false => rfl
  | true => rw [wrap, if_pos rfl, eval_single, Operand.eval]

@[simp] theorem eval_operand (p : Phrase) : p.operand.eval I functions ρ = p.eval I functions ρ := by
  unfold operand
  split
  · rw [eval, Side.eval]
  · rw [Operand.eval]

@[simp] theorem eval_toSide (p : Phrase) : p.toSide.eval I functions ρ = p.eval I functions ρ := by
  unfold toSide
  split
  · rw [eval]
  · rw [Side.eval, Operand.eval]

end Phrase

/-! ### Meanings and phrases -/

/-- What names denote, with empty tuples for units. -/
def Valuation.flat (ρ : Valuation) : Valuation := fun x => (ρ x).flat

theorem Valuation.flat_update (ρ : Valuation) (x : String) (v : Val) :
    Valuation.flat (Function.update ρ x v) = Function.update ρ.flat x v.flat := by
  funext y
  by_cases h : y = x
  · subst h
    simp [Valuation.flat]
  · simp [Valuation.flat, h]

/-- Whether what a literal array holds outside its positions does not tell units from empty tuples. -/
def Interp.IgnoresUnits (I : Interp) : Prop := ∀ vs, (I.outside (Val.flatAll vs)).flat = (I.outside vs).flat

theorem Interp.IgnoresUnits.literal {I : Interp} (h : I.IgnoresUnits) (vs : List Val) :
    (I.literal (Val.flatAll vs)).flat = (I.literal vs).flat := by
  simp only [Interp.literal, Val.flat, Val.flatAll_eq_map, List.length_map]
  refine congrArg _ (funext fun i => ?_)
  rw [← Val.flatAll_eq_map]
  split_ifs
  · rw [Val.flatAll_eq_map, List.getElem?_map, ← Val.flatAll_eq_map]
    cases vs[i.toNat]? with
    | none => exact h vs
    | some w => exact w.flat_flat
  · exact h vs

theorem Word.eval_name {ρ : Valuation} {x : String} (hx : Reading.isName x = true) :
    (ofChars x.toList).eval ρ = ρ x := by
  have hconstant := Term.isConstant_of_isName hx
  rw [eval, name_ofChars (isWord_of_isName hx), if_neg hconstant.truth, if_neg hconstant.falsity,
    Term.readInt?_of_isName hx]

theorem Word.eval_numeral {ρ : Valuation} (n : ℤ) : (ofChars (toString n).toList).eval ρ = .int n := by
  have hread := Text.readInt?_toString n
  have htrue : toString n ≠ "true" := fun h =>
    absurd (h ▸ hread) (by simp [show Text.readInt? "true" = none from rfl])
  have hfalse : toString n ≠ "false" := fun h =>
    absurd (h ▸ hread) (by simp [show Text.readInt? "false" = none from rfl])
  rw [eval, name_ofChars (isWord_toString n), if_neg htrue, if_neg hfalse, hread]

/-- Whether phrases about some functions mean something in an interpretation. -/
structure Interp.Voices (I : Interp) (functions : List Function) : Prop where
  worded : ∀ f g, (functions.find? fun g => g.name == f) = some g → isWord f.toList = true
  regular : I.Regular functions
  units : I.IgnoresUnits

section Meaning

variable {fits : Bounds} {I : Interp} {functions : List Function}

mutual

theorem Place.eval_operand (hI : I.Voices functions) (p : Place) {vars t} (hp : p.Tidy)
    (h : p.Typed fits ⟨vars, functions⟩ t) {ρ} (hρ : ρ.Fits vars) :
    p.operand.eval I functions ρ.flat = (p.eval I ρ).flat :=
  match p, hp, h with
  | .name x _, hp, _ => by
    rw [Place.operand, Operand.eval, Word.eval_name hp, Place.eval, Valuation.flat]
  | .wildcard _, _, h => by cases h
  | .elem .array x i _, hp, h => by
    obtain ⟨hx, hi⟩ := hp
    obtain ⟨-, -, -, -, -, ht⟩ := h
    rw [Place.operand, Operand.eval, Word.name_ofChars (isWord_of_isName hx), Value.eval_phrase hI i hi ht hρ,
      Val.toInt_flat, Place.eval, Valuation.flat, Val.flat_get]
  | .elem .tuple x i _, hp, h => by
    obtain ⟨hx, hi⟩ := hp
    obtain ⟨-, -, n, -, -, hn, -⟩ := h
    have ht : i.Typed fits ⟨vars, functions⟩ .i32 := Value.typed_of_constantIndex hn
    rw [Place.operand, Operand.eval, Word.name_ofChars (isWord_of_isName hx), Phrase.eval_operand,
      Phrase.eval_wrap, Value.eval_phrase hI i hi ht hρ, Val.toInt_flat, Place.eval, Valuation.flat,
      Val.flat_get]

/-- What a well-typed value denotes is what its phrase does, up to units. -/
theorem Value.eval_phrase (hI : I.Voices functions) (v : Value) {vars t} (hv : v.Tidy)
    (h : v.Typed fits ⟨vars, functions⟩ t) {ρ} (hρ : ρ.Fits vars) :
    v.phrase.eval I functions ρ.flat = (v.eval I ρ).flat :=
  match v, hv, h with
  | .expr e _, hv, h => by
    rw [Value.phrase, Value.eval]
    exact Expr.eval_phrase hI e hv.2 h.2 hρ
  | .formula f _, hv, h => by
    rw [Value.phrase, Value.eval, Formula.eval_phrase hI f hv h.2 hρ, Val.flat, Val.truth]
  | .place p _, hv, h => by
    rw [Value.phrase, Phrase.eval_single, Value.eval]
    exact Place.eval_operand hI p hv h hρ
  | .tuple vs _, hv, h => by
    obtain ⟨ts, -, -, ht⟩ := h
    rw [Value.phrase, Phrase.eval_single, Operand.eval, Value.evalAll_phrases hI vs hv ht hρ, Value.eval,
      Val.flat]
  | .array vs _, hv, h => by
    obtain ⟨u, -, -, ht⟩ := h
    rw [Value.phrase, Phrase.eval_single, Operand.eval, Value.evalAll_phrases hI vs hv ht hρ, Value.eval,
      hI.units.literal]
  | .call f vs _, hv, h => by
    obtain ⟨g, hg, -, ht⟩ := h
    have hargs := (Ty.hasAll_bareAll _ _).mp (ht.has_eval vs hI.regular hρ)
    have hinputs : inputTypes functions f = g.inputs.map Declaration.type := by
      rw [inputTypes, show (functions.find? fun g => g.name == f) = some g from hg]
      rfl
    rw [Value.phrase, Phrase.eval_single, Operand.eval, Word.name_ofChars (hI.worded f g hg),
      Value.evalAll_phrases hI vs hv ht hρ, hinputs, Ty.shapeAll_flatAll _ hargs, Value.eval]
  | .ref v _ _, hv, h | .deref v _, hv, h => by
    rw [Value.phrase, Phrase.eval_single, Operand.eval, Phrase.eval_operand, Phrase.eval_wrap, Value.eval]
    exact Value.eval_phrase hI v hv h hρ
  | .unit _, _, _ => by
    rw [Value.phrase, Phrase.eval_single, Operand.eval, Phrase.evalAll, Value.eval, Val.flat]
  | .ite c v w _, hv, h => by
    rw [Value.phrase, Phrase.eval_single, Operand.eval, Formula.eval_phrase hI c hv.1 h.1 hρ,
      Value.eval_phrase hI v hv.2.1 h.2.1 hρ, Value.eval_phrase hI w hv.2.2 h.2.2 hρ, Value.eval]
    by_cases hc : c.Holds I ρ
    · rw [if_pos (Val.truth_eq_true.mpr hc), if_pos hc]
    · rw [if_neg (mt Val.truth_eq_true.mp hc), if_neg hc]
  | .select _ _ _ _, hv, _ => by cases hv
  | .store _ _ _ _ _, hv, _ => by cases hv
  | .missing, hv, _ => by cases hv

theorem Value.evalAll_phrases (hI : I.Voices functions) (vs : List Value) {vars ts} (hv : Value.AllTidy vs)
    (h : Value.AllTyped fits ⟨vars, functions⟩ vs ts) {ρ} (hρ : ρ.Fits vars) :
    Phrase.evalAll I functions ρ.flat (Value.phrases vs) = Val.flatAll (Value.evalAll I ρ vs) :=
  match vs, hv, h with
  | [], _, _ => by rw [Value.phrases, Phrase.evalAll, Value.evalAll, Val.flatAll]
  | v :: vs, hv, h => by
    obtain ⟨u, us, -, ht, hrest⟩ := h
    rw [Value.phrases, Phrase.evalAll, Value.eval_phrase hI v hv.1 ht hρ,
      Value.evalAll_phrases hI vs hv.2 hrest hρ, Value.evalAll, Val.flatAll]

theorem Expr.eval_phrase (hI : I.Voices functions) (e : Expr) {vars t} (he : e.Tidy)
    (h : e.Typed fits ⟨vars, functions⟩ t) {ρ} (hρ : ρ.Fits vars) :
    e.phrase.eval I functions ρ.flat = (e.eval I ρ).flat :=
  match e, he, h with
  | .num n, _, _ => by
    rw [Expr.phrase, Phrase.eval_single, Operand.eval, Word.eval_numeral, Expr.eval, Val.flat]
  | .value v, he, h => by
    rw [Expr.phrase, Expr.eval]
    exact Value.eval_phrase hI v he.2 h hρ
  | .op o a b, he, h => by
    simp only [Expr.phrase, Phrase.eval, Side.eval, Phrase.eval_operand, Phrase.eval_wrap, Joint.eval,
      Expr.eval_phrase hI a he.1 h.2.1 hρ, Expr.eval_phrase hI b he.2 h.2.2 hρ, Val.toInt_flat, Expr.eval,
      Val.flat]

theorem Formula.eval_phrase (hI : I.Voices functions) (f : Formula) {vars} (hf : f.Tidy)
    (h : f.Typed fits ⟨vars, functions⟩) {ρ} (hρ : ρ.Fits vars) :
    f.phrase.eval I functions ρ.flat = .truth (f.Holds I ρ) :=
  match f, hf, h with
  | .lit true, _, _ | .lit false, _, _ => by
    rw [Formula.phrase, Phrase.eval_single, Operand.eval, Formula.Holds]
    simp [Word.eval, Word.name, Val.truth]
  | .and f g, hf, h | .or f g, hf, h => by
    simp only [Formula.phrase, Phrase.eval, Side.eval, Phrase.eval_operand, Phrase.eval_wrap, Joint.eval,
      Formula.eval_phrase hI f hf.1 h.1 hρ, Formula.eval_phrase hI g hf.2 h.2 hρ, Val.truth_eq_true,
      Formula.Holds]
  | .not f, hf, h => by
    simp only [Formula.phrase, Phrase.eval_single, Operand.eval, Phrase.eval_operand, Phrase.eval_wrap,
      Formula.eval_phrase hI f hf h hρ, ne_eq, Val.truth_eq_true, Formula.Holds]
  | .value v, hf, h => by
    obtain ⟨b, hb⟩ := h.has_eval v hI.regular hρ
    rw [Formula.phrase, Value.eval_phrase hI v hf.2 h hρ, hb, Val.flat, Val.truth, Formula.Holds, hb]
    simp
  | .equal a b, hf, h => by
    obtain ⟨t, -, hta, htb⟩ := h
    have hinj := Ty.flat_inj (hta.has_eval a hI.regular hρ) (htb.has_eval b hI.regular hρ)
    simp only [Formula.phrase, Phrase.eval, Phrase.eval_toSide, Phrase.eval_wrap, Relation.Holds,
      Expr.eval_phrase hI a hf.1 hta hρ, Expr.eval_phrase hI b hf.2 htb hρ, hinj, Formula.Holds]
  | .compare c a b, hf, h => by
    obtain ⟨t, -, hta, htb⟩ := h
    simp only [Formula.phrase, Phrase.eval, Phrase.eval_toSide, Phrase.eval_wrap, Relation.Holds,
      Expr.eval_phrase hI a hf.1 hta hρ, Expr.eval_phrase hI b hf.2 htb hρ, c.holds_flat, Formula.Holds]
  | .quant q x t f, hf, h => by
    have hbody : ∀ v, t.Has v → (f.phrase.eval I functions (Function.update ρ.flat x v.flat) = .bool true ↔
        f.Holds I (Function.update ρ x v)) := by
      intro v hv
      rw [← Valuation.flat_update, Formula.eval_phrase hI f hf.2 h (hρ.update hv), Val.truth_eq_true]
    rw [Formula.phrase]
    cases q with
    | all =>
      rw [Phrase.eval, Word.name_ofChars (isWord_of_isName hf.1), t.type_operand, Formula.Holds]
      have hall := Ty.forall_has_flat (t := t)
        (P := fun w => f.phrase.eval I functions (Function.update ρ.flat x w) = .bool true)
      rw [hall]
      exact congrArg _ (propext (forall₂_congr hbody))
    | some =>
      rw [Phrase.eval, Word.name_ofChars (isWord_of_isName hf.1), t.type_operand, Formula.Holds]
      have hsome := Ty.exists_has_flat (t := t)
        (P := fun w => f.phrase.eval I functions (Function.update ρ.flat x w) = .bool true)
      rw [hsome]
      exact congrArg _ (propext (exists_congr fun v => and_congr_right (hbody v)))

end

end Meaning

/-! ### Conditional values -/

namespace Value

/-- Whether a value can be written in the language. -/
def Readable (v : Value) : Prop := ∃ unitAt tree, Reading.value unitAt tree = .ok v

theorem Readable.tidy {v : Value} (h : v.Readable) : v.Tidy := by
  obtain ⟨unitAt, tree, h⟩ := h
  exact Reading.hereditary_tidy.value tree h

/-- Values of one type that print alike mean the same. -/
theorem eval_eq_of_print_eq {fits : Bounds} {Γ : Scope} {I : Interp} (hI : I.Regular Γ.functions)
    (hunits : I.IgnoresUnits) (hΓ : Γ.Worded) {v w : Value} {t : Ty} (hv : v.Tidy) (hw : w.Tidy)
    (hvt : v.Typed fits Γ t) (hwt : w.Typed fits Γ t) (hvc : v.Clear) (hwc : w.Clear) {ρ : Valuation}
    (hρ : ρ.Fits Γ.vars) (h : v.print = w.print) : v.eval I ρ = w.eval I ρ := by
  have htext : v.phrase.text = w.phrase.text := by
    rw [← v.toList_print hΓ hv hvc hvt, h, w.toList_print hΓ hw hwc hwt]
  have hphrase := Phrase.text_injective htext
  have hvoices : I.Voices Γ.functions := ⟨hΓ, hI, hunits⟩
  have hflat : (v.eval I ρ).flat = (w.eval I ρ).flat := by
    rw [← Value.eval_phrase hvoices v hv hvt hρ, hphrase, Value.eval_phrase hvoices w hw hwt hρ]
  exact (Ty.flat_inj (hvt.has_eval v hI hρ) (hwt.has_eval w hI hρ)).mp hflat

theorem print_eq_of_mem_ternaryAlikes {vars : NameMap Ty} {c : Formula} {t e : Value} {a : Alike}
    (h : a ∈ ternaryAlikes vars c t e) : a = ⟨vars, t, e⟩ ∧ t.print = e.print := by
  unfold ternaryAlikes at h
  split_ifs at h with hlit hprint
  · cases h
  · exact ⟨List.mem_singleton.mp h, hprint⟩
  · cases h

open Classical in
/-- A conditional value means what the chosen side does, and its sides mean the same where the condition is left
out. -/
theorem ternary_means_chosen {fits : Bounds} {Γ : Scope} {I : Interp} (hI : I.Regular Γ.functions)
    (hunits : I.IgnoresUnits) (hΓ : Γ.Worded) {t e : Value} {u : Ty} (ht : t.Readable) (he : e.Readable)
    (htu : t.Typed fits Γ u) (heu : e.Typed fits Γ u) (hclear : t.print = e.print → t.Clear ∧ e.Clear)
    {ρ : Valuation} (hρ : ρ.Fits Γ.vars) (c : Formula) :
    (ternary c t e).eval I ρ = (if c.Holds I ρ then t.eval I ρ else e.eval I ρ) ∧
      (t.print = e.print → t.eval I ρ = e.eval I ρ) := by
  have hsame : t.print = e.print → ∀ σ : Valuation, σ.Fits Γ.vars → t.eval I σ = e.eval I σ :=
    fun h σ hσ => eval_eq_of_print_eq hI hunits hΓ ht.tidy he.tidy htu heu (hclear h).1 (hclear h).2 hσ h
  refine ⟨eval_ternary hρ fun a ha => ?_, fun h => hsame h ρ hρ⟩
  obtain ⟨rfl, hprint⟩ := print_eq_of_mem_ternaryAlikes ha
  exact hsame hprint

end Value

/-! ### Truth values in a row -/

mutual

theorem Val.flat_blank_flat : ∀ v : Val, v.flat.blank.flat = v.blank.flat
  | .int n => rfl
  | .bool b => rfl
  | .unit => rfl
  | .tuple vs => by
    simp only [Val.flat, Val.blank]
    rw [Val.flatAll_blankAll_flatAll vs]
  | .array n f => by
    simp only [Val.flat, Val.blank]
    rw [Val.flat_blank_flat (f 0)]

theorem Val.flatAll_blankAll_flatAll : ∀ vs : List Val,
    Val.flatAll (Val.blankAll (Val.flatAll vs)) = Val.flatAll (Val.blankAll vs)
  | [] => rfl
  | v :: vs => by
    simp only [Val.flatAll, Val.blankAll]
    rw [Val.flat_blank_flat v, Val.flatAll_blankAll_flatAll vs]

end

/-- The plain interpretation does not tell units from empty tuples. -/
theorem Interp.ignoresUnits_plain (call : String → List Val → Val) (byZero : Operator → ℤ → ℤ) :
    (Interp.plain call byZero).IgnoresUnits := by
  intro vs
  cases vs with
  | nil => rfl
  | cons v vs => exact v.flat_blank_flat

namespace Value

/-- Where all of a text stands, if that does not matter. -/
def somewhere : Span := ⟨0, 0, le_rfl⟩

/-- A symbol as read. -/
def symbolTree (x : String) : STree := .symbol somewhere x

/-- A head and its arguments as read. -/
def applyTree (head : String) (args : List STree) : STree := .list somewhere (symbolTree head :: args)

/-- The value of a variable that was read. -/
def readVar (x : String) : Value := .place (.name x none) somewhere.origin

/-- A comparison that was read. -/
def readLess (v w : Value) : Value := .formula (.compare .lt v.toExpr w.toExpr) somewhere.origin

/-- `f(p) < q == v`. -/
def readChain (v : Value) : Value :=
  readLess (.call "f" [readVar "p"] somewhere.origin)
    (.formula (.equal (readVar "q").toExpr v.toExpr) somewhere.origin)

/-- The tree of `f(p) < q == v`. -/
def chainTree (v : STree) : STree :=
  applyTree "<" [applyTree "call" [symbolTree "f", symbolTree "p"], applyTree "==" [symbolTree "q", v]]

/-- A function from truth values to truth values. -/
def truthFunction (name : String) : Function :=
  { (default : Function) with name := name, inputs := [⟨"x", .bool, false, none⟩], output := .bool }

/-- Truth values, and functions between them. -/
def truthScope (names : List String) : Scope :=
  ⟨.ofList [("c", .bool), ("p", .bool), ("q", .bool), ("r", .bool)], names.map truthFunction⟩

/-- All functions give the truth. -/
def alwaysTrue : Interp := .plain (fun _ _ => .bool true) fun _ n => n

/-- Only `p` and `r` are true. -/
def pAndR : Valuation := fun x => .bool (x == "p" || x == "r")

theorem fits_pAndR (names : List String) : pAndR.Fits (truthScope names).vars := by
  intro x t h
  simp only [truthScope, NameMap.ofList, List.foldl, NameMap.get?_insert, NameMap.get?_empty] at h
  split_ifs at h <;> cases h <;> exact ⟨_, rfl⟩

theorem regular_alwaysTrue (names : List String) : alwaysTrue.Regular (truthScope names).functions := by
  refine Interp.regular_plain (fun f g args h _ => ?_) _
  obtain ⟨name, -, rfl⟩ := List.mem_map.mp (List.mem_of_find?_eq_some h)
  exact ⟨true, rfl⟩

theorem worded_truthScope {names : List String} (h : ∀ f ∈ names, isWord f.toList = true) :
    (truthScope names).Worded := by
  intro f g hg
  obtain ⟨name, hname, rfl⟩ := List.mem_map.mp (List.mem_of_find?_eq_some hg)
  have hbeq := List.find?_some hg
  rw [← eq_of_beq hbeq]
  exact h name hname

section Typed

variable {fits : Bounds} {names : List String}

theorem typed_readVar {x : String} (hx : (truthScope names).type? x = some .bool) :
    (readVar x).Typed fits (truthScope names) .bool := ⟨.bool, hx, rfl⟩

theorem typed_readCall {f : String} (hf : (truthScope names).function? f = some (truthFunction f)) {v : Value}
    (hv : v.Typed fits (truthScope names) .bool) :
    (Value.call f [v] somewhere.origin).Typed fits (truthScope names) .bool :=
  ⟨_, hf, rfl, .bool, [], rfl, hv, rfl⟩

theorem typed_toExpr {v : Value} (h : v.Typed fits (truthScope names) .bool) :
    v.toExpr.Typed fits (truthScope names) .bool := by
  cases v with
  | expr e o => cases h.1
  | _ => exact h

theorem typed_readLess {v w : Value} (hv : v.Typed fits (truthScope names) .bool)
    (hw : w.Typed fits (truthScope names) .bool) : (readLess v w).Typed fits (truthScope names) .bool :=
  ⟨rfl, .bool, .inl rfl, typed_toExpr hv, typed_toExpr hw⟩

end Typed

theorem typed_readChain {fits : Bounds} {v : Value} (hv : v.Typed fits (truthScope ["f"]) .bool) :
    (readChain v).Typed fits (truthScope ["f"]) .bool := by
  have hq : (readVar "q").Typed fits (truthScope ["f"]) .bool := typed_readVar rfl
  exact typed_readLess (typed_readCall rfl (typed_readVar rfl))
    ⟨rfl, .bool, .inl rfl, typed_toExpr hq, typed_toExpr hv⟩

theorem clear_readChain {v : Value} (hv : v.toExpr.Clear) : (readChain v).Clear :=
  ⟨rfl, ⟨trivial, trivial⟩, rfl, trivial, hv⟩

/-- Relations on the right of others are allowed, and two values that print alike need not be the same. -/
theorem ternary_means_chosen_chain :
    (readChain (.formula (.value (readVar "r")) somewhere.origin)).print = (readChain (readVar "r")).print ∧
      (ternary (.value (readVar "c")) (readChain (.formula (.value (readVar "r")) somewhere.origin))
        (readChain (readVar "r"))).eval alwaysTrue pAndR = (readChain (readVar "r")).eval alwaysTrue pAndR := by
  have hreadable : (readChain (readVar "r")).Readable := ⟨fun _ => none, chainTree (symbolTree "r"), rfl⟩
  have hreadable' : (readChain (.formula (.value (readVar "r")) somewhere.origin)).Readable :=
    ⟨fun _ => none, chainTree (applyTree "=>" [symbolTree "true", symbolTree "r"]), rfl⟩
  have hr : (readVar "r").Typed ⟨fun _ => False, fun _ => False, fun _ => False⟩ (truthScope ["f"]) .bool :=
    typed_readVar rfl
  have hchosen := ternary_means_chosen (regular_alwaysTrue _) (Interp.ignoresUnits_plain _ _)
    (worded_truthScope (by decide)) hreadable' hreadable (typed_readChain ⟨rfl, hr⟩) (typed_readChain hr)
    (fun _ => ⟨clear_readChain trivial, clear_readChain trivial⟩) (fits_pAndR _) (.value (readVar "c"))
  refine ⟨rfl, hchosen.1.trans (if_neg ?_)⟩
  simp [readVar, Formula.Holds, Value.eval, Place.eval, pAndR]

/-- Whether two values can be read and are well-typed, and their merge is true where `c` and the second value are
both false. -/
structure Misleads (names : List String) (t e : Value) : Prop where
  readable : t.Readable ∧ e.Readable
  typed : t.Typed ⟨fun _ => False, fun _ => False, fun _ => False⟩ (truthScope names) .bool ∧
    e.Typed ⟨fun _ => False, fun _ => False, fun _ => False⟩ (truthScope names) .bool
  chosen : ¬ (Formula.value (readVar "c")).Holds alwaysTrue pAndR ∧ e.eval alwaysTrue pAndR = .bool false
  merged : (ternary (.value (readVar "c")) t e).eval alwaysTrue pAndR = .bool true

theorem not_holds_c : ¬ (Formula.value (readVar "c")).Holds alwaysTrue pAndR := by
  simp [readVar, Formula.Holds, Value.eval, Place.eval, pAndR]

/-- Values that print alike and mean different things are merged into one: `(p < q) < r` and `p < (q < r)`, and a
call of a function with an odd name and the comparison of two calls. -/
theorem ternary_forgets_condition :
    Misleads [] (readLess (readLess (readVar "p") (readVar "q")) (readVar "r"))
        (readLess (readVar "p") (readLess (readVar "q") (readVar "r"))) ∧
      Misleads ["f", "f(p) < f"] (.call "f(p) < f" [readVar "q"] somewhere.origin)
        (readLess (.call "f" [readVar "p"] somewhere.origin) (.call "f" [readVar "q"] somewhere.origin)) := by
  constructor
  · refine ⟨⟨⟨fun _ => none, applyTree "<" [applyTree "<" [symbolTree "p", symbolTree "q"], symbolTree "r"], rfl⟩,
      ⟨fun _ => none, applyTree "<" [symbolTree "p", applyTree "<" [symbolTree "q", symbolTree "r"]], rfl⟩⟩,
      ⟨typed_readLess (typed_readLess (typed_readVar rfl) (typed_readVar rfl)) (typed_readVar rfl),
        typed_readLess (typed_readVar rfl) (typed_readLess (typed_readVar rfl) (typed_readVar rfl))⟩,
      ⟨not_holds_c, ?_⟩, ?_⟩
    · simp [readLess, readVar, Value.toExpr, Value.eval, Formula.Holds, Expr.eval, Place.eval, Comparison.Holds,
        Val.Lt, pAndR]
    · change (readLess (readLess (readVar "p") (readVar "q")) (readVar "r")).eval alwaysTrue pAndR = .bool true
      simp [readLess, readVar, Value.toExpr, Value.eval, Formula.Holds, Expr.eval, Place.eval, Comparison.Holds,
        Val.Lt, pAndR]
  · refine ⟨⟨⟨fun _ => none, applyTree "call" [symbolTree "f(p) < f", symbolTree "q"], rfl⟩,
      ⟨fun _ => none, applyTree "<" [applyTree "call" [symbolTree "f", symbolTree "p"],
        applyTree "call" [symbolTree "f", symbolTree "q"]], rfl⟩⟩,
      ⟨typed_readCall rfl (typed_readVar rfl),
        typed_readLess (typed_readCall rfl (typed_readVar rfl)) (typed_readCall rfl (typed_readVar rfl))⟩,
      ⟨not_holds_c, ?_⟩, ?_⟩
    · simp [readLess, Value.toExpr, Value.eval, Formula.Holds, Expr.eval, Comparison.Holds, Val.Lt, alwaysTrue,
        Interp.plain]
    · change (Value.call "f(p) < f" [readVar "q"] somewhere.origin).eval alwaysTrue pAndR = .bool true
      simp [Value.eval, alwaysTrue, Interp.plain]

end Value

end Verdict
