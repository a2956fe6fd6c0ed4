import Verdict.Proofs.Recording

/-! # Renaming variables

A renaming gives free variables other names. A binder keeps its name unless a free variable of its body
has been given that name; then it gets a new one. The type of a value and a constant index do not change
with names. -/

namespace Verdict

/-- The names that a binder of `z` must not have: those given to the other free variables of its body. -/
def takenNames (σ : String → String) (z : String) (free : Names) : Names :=
  .ofList ((free.erase z).members.map σ)

/-- The name of a binder of `z` after the other free variables of its body have been renamed. -/
def binderName (σ : String → String) (z : String) (free : Names) : String :=
  if (takenNames σ z free).contains z then freshName z (takenNames σ z free) else z

mutual

/-- Renames the variables of a place. -/
@[simp] def Place.rename (σ : String → String) : Place → Place
  | .name x o => .name (σ x) o
  | .wildcard o => .wildcard o
  | .elem shape x i o => .elem shape (σ x) (i.rename σ) o

/-- Renames the free variables of a value. -/
@[simp] def Value.rename (σ : String → String) : Value → Value
  | .expr e o => .expr (e.rename σ) o
  | .formula f o => .formula (f.rename σ) o
  | .place p o => .place (p.rename σ) o
  | .tuple vs o => .tuple (Value.renameAll σ vs) o
  | .array vs o => .array (Value.renameAll σ vs) o
  | .call f vs o => .call f (Value.renameAll σ vs) o
  | .ref v mutable o => .ref (v.rename σ) mutable o
  | .deref v o => .deref (v.rename σ) o
  | .unit o => .unit o
  | .ite c t e o => .ite (c.rename σ) (t.rename σ) (e.rename σ) o
  | .select shape b i o => .select shape (b.rename σ) (i.rename σ) o
  | .store shape b i e o => .store shape (b.rename σ) (i.rename σ) (e.rename σ) o
  | .missing => .missing

@[simp] def Value.renameAll (σ : String → String) : List Value → List Value
  | [] => []
  | v :: vs => v.rename σ :: Value.renameAll σ vs

@[simp] def Expr.rename (σ : String → String) : Expr → Expr
  | .num n => .num n
  | .value v => .value (v.rename σ)
  | .op o a b => .op o (a.rename σ) (b.rename σ)

@[simp] def Formula.rename (σ : String → String) : Formula → Formula
  | .lit b => .lit b
  | .and f g => .and (f.rename σ) (g.rename σ)
  | .or f g => .or (f.rename σ) (g.rename σ)
  | .not f => .not (f.rename σ)
  | .value v => .value (v.rename σ)
  | .equal a b => .equal (a.rename σ) (b.rename σ)
  | .compare c a b => .compare c (a.rename σ) (b.rename σ)
  | .quant q z t f =>
    let z' := binderName σ z f.freeVars
    .quant q z' t (f.rename (Function.update σ z z'))

end

/-- The formula in which a free variable is called `y`. -/
def Formula.renameVar (f : Formula) (x y : String) : Formula := f.rename (Function.update id x y)

-- A binder whose name is wanted for a free variable makes room.
example : (Formula.quant .all "y" .i32 (.equal (.value (.var "x")) (.value (.var "y")))).renameVar "x" "y" =
    .quant .all "y'1" .i32 (.equal (.value (.var "y")) (.value (.var "y'1"))) := by cbv

/-! ### What renaming keeps -/

variable {σ : String → String}

/-- No other free variable of the body has the name of the binder. -/
theorem binderName_ne {z x : String} {free : Names} (hx : x ∈ free.members) (hne : x ≠ z) :
    σ x ≠ binderName σ z free := by
  have htaken : σ x ∈ (takenNames σ z free).members := by
    unfold takenNames
    rw [SortedSet.mem_ofList]
    exact List.mem_map_of_mem ((SortedSet.mem_erase _ _ _).mpr ⟨hx, hne⟩)
  unfold binderName
  intro h
  split_ifs at h with hz
  · exact freshName_not_mem z _ (h ▸ htaken)
  · rw [SortedSet.contains_iff] at hz
    exact hz (h ▸ htaken)

/-- A binder keeps its name, or another free variable of the body has been given that name. -/
theorem binderName_eq_or (σ : String → String) (z : String) (free : Names) :
    binderName σ z free = z ∨
      (∃ x ∈ free.members, x ≠ z ∧ σ x = z) ∧ ∃ k, binderName σ z free = primed z k := by
  unfold binderName
  split_ifs with hz
  · right
    refine ⟨?_, _, rfl⟩
    rw [SortedSet.contains_iff, takenNames, SortedSet.mem_ofList] at hz
    obtain ⟨x, hx, hxz⟩ := List.mem_map.mp hz
    obtain ⟨hx, hne⟩ := (SortedSet.mem_erase _ _ _).mp hx
    exact ⟨x, hx, hne, hxz⟩
  · exact .inl rfl

theorem Scope.not_reserves_primed (Γ : Scope) (z : String) (k : ℕ) : ¬ Γ.Reserves (primed z k) := by
  generalize hname : primed z k = n
  intro h
  cases h with
  | part => exact Encoding.primed_ne_partName _ _ _ _ hname
  | function => exact Encoding.primed_ne_functionName _ _ _ hname
  | result => exact Encoding.primed_ne_partName _ _ _ _ hname

/-- A name without a prime is not reserved. -/
theorem Scope.Reserves.prime_mem {Γ : Scope} {n : String} (h : Γ.Reserves n) : '\'' ∈ n.toList := by
  cases h with
  | part => exact Encoding.prime_mem_partName _ _
  | function => exact Encoding.prime_mem_functionName _
  | result => exact Encoding.prime_mem_partName _ _

theorem Value.constantIndex?_rename : ∀ v : Value, (v.rename σ).constantIndex? = v.constantIndex?
  | .ref v _ _ | .deref v _ => constantIndex?_rename v
  | .expr (.num _) _ | .expr (.value _) _ | .expr (.op _ _ _) _ | .formula _ _ | .place _ _
  | .tuple _ _ | .array _ _ | .call _ _ _ | .unit _ | .ite _ _ _ _ | .select _ _ _ _
  | .store _ _ _ _ _ | .missing => by simp [constantIndex?, stripRefs]

end Verdict
