import Verdict.Lang.Syntax

/-! # Equality of values

Two values are equal if they are built in the same way from the same parts, which come from the same origins.
This is decided by a walk through both. -/

namespace Verdict

mutual

def Ty.beq : Ty → Ty → Bool
  | .bool, .bool | .i32, .i32 | .unit, .unit | .unknown, .unknown => true
  | .tuple ts, .tuple us => Ty.beqAll ts us
  | .array t n, .array u m => t.beq u && n == m
  | .ref t a, .ref u b => t.beq u && a == b
  | _, _ => false

def Ty.beqAll : List Ty → List Ty → Bool
  | [], [] => true
  | t :: ts, u :: us => t.beq u && Ty.beqAll ts us
  | _, _ => false

end

mutual

theorem Ty.beq_iff (t u : Ty) : t.beq u = true ↔ t = u :=
  match t with
  | .bool | .i32 | .unit | .unknown => by cases u <;> simp [Ty.beq]
  | .tuple ts => by cases u <;> simp [Ty.beq, Ty.beqAll_iff ts]
  | .array t n => by cases u <;> simp [Ty.beq, Ty.beq_iff t]
  | .ref t a => by cases u <;> simp [Ty.beq, Ty.beq_iff t]

theorem Ty.beqAll_iff (ts us : List Ty) : Ty.beqAll ts us = true ↔ ts = us :=
  match ts with
  | [] => by cases us <;> simp [Ty.beqAll]
  | t :: ts => by cases us <;> simp [Ty.beqAll, Ty.beq_iff t, Ty.beqAll_iff ts]

end

instance : DecidableEq Ty := fun t u => decidable_of_iff _ (t.beq_iff u)

mutual

def Place.beq : Place → Place → Bool
  | .name x o, .name y p => x == y && o == p
  | .wildcard o, .wildcard p => o == p
  | .elem s x i o, .elem t y j p => s == t && x == y && i.beq j && o == p
  | _, _ => false

def Value.beq : Value → Value → Bool
  | .expr a o, .expr b p => a.beq b && o == p
  | .formula f o, .formula g p => f.beq g && o == p
  | .place a o, .place b p => a.beq b && o == p
  | .tuple vs o, .tuple ws p => Value.beqAll vs ws && o == p
  | .array vs o, .array ws p => Value.beqAll vs ws && o == p
  | .call f vs o, .call g ws p => f == g && Value.beqAll vs ws && o == p
  | .ref v a o, .ref w b p => v.beq w && a == b && o == p
  | .deref v o, .deref w p => v.beq w && o == p
  | .unit o, .unit p => o == p
  | .ite c t e o, .ite c' t' e' p => c.beq c' && t.beq t' && e.beq e' && o == p
  | .select s b i o, .select s' b' i' p => s == s' && b.beq b' && i.beq i' && o == p
  | .store s b i e o, .store s' b' i' e' p =>
    s == s' && b.beq b' && i.beq i' && e.beq e' && o == p
  | .missing, .missing => true
  | _, _ => false

def Value.beqAll : List Value → List Value → Bool
  | [], [] => true
  | v :: vs, w :: ws => v.beq w && Value.beqAll vs ws
  | _, _ => false

def Expr.beq : Expr → Expr → Bool
  | .num n, .num m => n == m
  | .value v, .value w => v.beq w
  | .op o a b, .op o' a' b' => o == o' && a.beq a' && b.beq b'
  | _, _ => false

def Formula.beq : Formula → Formula → Bool
  | .lit a, .lit b => a == b
  | .and f g, .and f' g' | .or f g, .or f' g' => f.beq f' && g.beq g'
  | .not f, .not g => f.beq g
  | .value v, .value w => v.beq w
  | .equal a b, .equal a' b' => a.beq a' && b.beq b'
  | .compare c a b, .compare c' a' b' => c == c' && a.beq a' && b.beq b'
  | .quant q x t f, .quant r y u g => q == r && x == y && t == u && f.beq g
  | _, _ => false

end

mutual

theorem Place.beq_iff (p q : Place) : p.beq q = true ↔ p = q :=
  match p with
  | .name _ _ | .wildcard _ => by cases q <;> simp [Place.beq]
  | .elem _ _ i _ => by cases q <;> simp [Place.beq, i.beq_iff, and_assoc]

theorem Value.beq_iff (v w : Value) : v.beq w = true ↔ v = w :=
  match v with
  | .expr e _ => by cases w <;> simp [Value.beq, e.beq_iff]
  | .formula f _ => by cases w <;> simp [Value.beq, f.beq_iff]
  | .place p _ => by cases w <;> simp [Value.beq, p.beq_iff]
  | .tuple vs _ | .array vs _ | .call _ vs _ => by
    cases w <;> simp [Value.beq, Value.beqAll_iff vs, and_assoc]
  | .ref v _ _ | .deref v _ => by cases w <;> simp [Value.beq, v.beq_iff, and_assoc]
  | .unit _ | .missing => by cases w <;> simp [Value.beq]
  | .ite c t e _ => by cases w <;> simp [Value.beq, c.beq_iff, t.beq_iff, e.beq_iff, and_assoc]
  | .select _ b i _ => by cases w <;> simp [Value.beq, b.beq_iff, i.beq_iff, and_assoc]
  | .store _ b i e _ => by
    cases w <;> simp [Value.beq, b.beq_iff, i.beq_iff, e.beq_iff, and_assoc]

theorem Value.beqAll_iff (vs ws : List Value) : Value.beqAll vs ws = true ↔ vs = ws :=
  match vs with
  | [] => by cases ws <;> simp [Value.beqAll]
  | v :: vs => by cases ws <;> simp [Value.beqAll, v.beq_iff, Value.beqAll_iff vs]

theorem Expr.beq_iff (a b : Expr) : a.beq b = true ↔ a = b :=
  match a with
  | .num _ => by cases b <;> simp [Expr.beq]
  | .value v => by cases b <;> simp [Expr.beq, v.beq_iff]
  | .op _ l r => by cases b <;> simp [Expr.beq, l.beq_iff, r.beq_iff, and_assoc]

theorem Formula.beq_iff (f g : Formula) : f.beq g = true ↔ f = g :=
  match f with
  | .lit _ => by cases g <;> simp [Formula.beq]
  | .and l r | .or l r => by cases g <;> simp [Formula.beq, l.beq_iff, r.beq_iff]
  | .not h => by cases g <;> simp [Formula.beq, h.beq_iff]
  | .value v => by cases g <;> simp [Formula.beq, v.beq_iff]
  | .equal l r => by cases g <;> simp [Formula.beq, l.beq_iff, r.beq_iff]
  | .compare _ l r => by cases g <;> simp [Formula.beq, l.beq_iff, r.beq_iff, and_assoc]
  | .quant _ _ _ h => by cases g <;> simp [Formula.beq, h.beq_iff, and_assoc]

end

instance : DecidableEq Value := fun v w => decidable_of_iff _ (v.beq_iff w)

end Verdict
