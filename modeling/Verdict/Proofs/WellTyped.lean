import Verdict.Proofs.Typing
import Verdict.Lang.Scoping

/-! # Well-typed commands and functions

Commands are well-typed along the environments of the scoping rules. What is bound, assigned, compared,
used as an index, bound or variant has the type that is declared for it.

Functions that obey the scoping rules keep variables apart: a name that is introduced is new, and a
variable that cannot be assigned to is not affected by any command in its scope. -/

namespace Verdict

/-- What well-typed functions may do. -/
structure Rules where
  bounds : Bounds
  /-- The functions that may be called. -/
  calls : List Function
  /-- Whether unit values have to be literals. -/
  unitLiterals : Prop

namespace Rules

/-- Rules that only ask for types. -/
def loose (functions : List Function) : Rules :=
  ⟨⟨fun _ => True, fun _ => True, fun _ => True⟩, functions, False⟩

variable (R : Rules)

/-- The scope in which the nodes of a program are typed. -/
def scope (e : Scoping.Env) : Scope := ⟨e.scope.vars, R.calls⟩

/-- Whether a value may be used where a type is expected. -/
def Accepts (e : Scoping.Env) (v : Value) (t : Ty) : Prop :=
  v.Typed R.bounds (R.scope e) t ∧ (R.unitLiterals → t = .unit → ∃ o, v = .unit o)

/-- Unit values need no side conditions where they are literals. -/
theorem Accepts.defined {R : Rules} {e : Scoping.Env} {v : Value} {t : Ty} {I : Interp}
    {ρ : Valuation} (h : R.Accepts e v t) (hdef : t = .unit ∨ v.Defined I ρ) :
    R.unitLiterals → v.Defined I ρ := by
  intro hunit
  rcases hdef with ht | hdef
  · obtain ⟨o, rfl⟩ := h.2 hunit ht
    trivial
  · exact hdef

/-- Whether an assignment is well-typed. An element that is assigned to is evaluated like a value. -/
def Assigns (e : Scoping.Env) (a : Assignment) : Prop :=
  ∃ t, R.Accepts e a.value t ∧
    match a.target with
    | .wildcard _ => True
    | .name x o => (Place.name x o).Typed R.bounds (R.scope e) t
    | .elem shape x i o => R.Accepts e (.place (.elem shape x i o) none) t

end Rules

/-- Whether the targets of a tuple have the types of its elements. Positions are literals, so that there
are not more of them than words. -/
def Declaration.Match (ds : List Declaration) (ts : List Ty) : Prop :=
  ds.length = ts.length ∧ ds.length ≤ 2 ^ 31 ∧
    ∀ (i : ℕ) (d : Declaration), ds[i]? = some d → d.name ≠ "_" → ts[i]? = some d.type.bare

mutual

/-- Whether a command is well-typed in an environment. -/
def Command.WellTyped (R : Rules) (e : Scoping.Env) : Command → Prop
  | .declare _ => True
  | .bind d v => R.Accepts e v d.type.bare
  | .bindTuple ds v _ => ∃ ts, R.Accepts e v (.tuple ts) ∧ Declaration.Match ds ts
  | .assign a => R.Assigns e a
  | .assignAll as _ => ∀ a ∈ as, R.Assigns e a
  | .assert f _ => f.Typed R.bounds (R.scope e)
  | .assume f _ => f.Typed R.bounds (R.scope e)
  | .invariant f _ => f.Typed R.bounds (R.scope e)
  | .cond bs _ => bs.WellTyped R e
  | .forRange i lo hi inv body _ =>
    R.Accepts e lo .i32 ∧ R.Accepts e hi .i32 ∧
      inv.Typed R.bounds (R.scope (Scoping.declare e i .i32 false)) ∧
      Command.AllWellTyped R (Scoping.declare e i .i32 false) body
  | .whileLoop c inv variant body _ =>
    c.Typed R.bounds (R.scope e) ∧ inv.Typed R.bounds (R.scope e) ∧
      (∀ v ∈ variant, v.Typed R.bounds (R.scope e) .i32) ∧ Command.AllWellTyped R e body
  | .noop _ => True

def Branches.WellTyped (R : Rules) (e : Scoping.Env) : Branches → Prop
  | .otherwise b => Command.AllWellTyped R e b
  | .branch c b rest =>
    c.Typed R.bounds (R.scope e) ∧ Command.AllWellTyped R e b ∧ rest.WellTyped R e

def Command.AllWellTyped (R : Rules) (e : Scoping.Env) : List Command → Prop
  | [] => True
  | c :: cs => c.WellTyped R e ∧ Command.AllWellTyped R (Scoping.command e c).1 cs

end

namespace Function

/-- The environment of the precondition: the inputs. -/
def inputEnv (functions : List Function) (f : Function) : Scoping.Env :=
  f.inputs.foldl (fun e d => Scoping.declare e d.name d.type d.mutable) ⟨.empty, functions⟩

/-- The environment of the body: the inputs and their values on entry. -/
def entryEnv (functions : List Function) (f : Function) : Scoping.Env :=
  f.inputs.foldl (fun e d => e.add (oldName d.name) d.type false) (f.inputEnv functions)

/-- The environment of the result: the variables at the end of the body. -/
def exitEnv (functions : List Function) (f : Function) : Scoping.Env :=
  (Scoping.block (f.entryEnv functions) f.body).1

/-- The environment of the postcondition. -/
def postEnv (functions : List Function) (f : Function) : Scoping.Env :=
  (f.exitEnv functions).add resultName f.output false

structure WellTyped (R : Rules) (functions : List Function) (f : Function) : Prop where
  precondition : f.precondition.Typed R.bounds (R.scope (f.inputEnv functions))
  body : Command.AllWellTyped R (f.entryEnv functions) f.body
  result : R.Accepts (f.exitEnv functions) f.result f.output.bare
  postcondition : f.postcondition.Typed R.bounds (R.scope (f.postEnv functions))

end Function

/-! ### Environments -/

namespace Scoping

/-- Whether a second environment knows all that a first one does. -/
def Env.Extends (e e' : Env) : Prop := ∀ x v, e.vars.get? x = some v → e'.vars.get? x = some v

theorem Env.Extends.refl (e : Env) : e.Extends e := fun _ _ h => h

variable {e e' : Env} {x : String} {o : Origin} {t : Ty} {ds : List Declaration}

theorem Env.Extends.trans {e'' : Env} (h : e.Extends e') (h' : e'.Extends e'') :
    e.Extends e'' := fun x v hx => h' x v (h x v hx)

/-- The type that an environment gives to a variable. -/
theorem Env.type?_scope (e : Env) (x : String) :
    e.scope.vars.get? x = (e.vars.get? x).map Entry.type := by
  unfold Env.scope
  rw [NameMap.get?_map]

theorem Env.Extends.type? (h : e.Extends e') (hx : e.scope.vars.get? x = some t) :
    e'.scope.vars.get? x = some t := by
  rw [Env.type?_scope, Option.map_eq_some_iff] at hx ⊢
  obtain ⟨v, hv, rfl⟩ := hx
  exact ⟨v, h x v hv, rfl⟩

@[simp] theorem Env.get?_add (e : Env) (x y : String) (t : Ty) (m : Bool) :
    (e.add x t m).vars.get? y = if x = y then some ⟨t, m⟩ else e.vars.get? y := by
  simp [Env.add]

theorem Env.type?_add (e : Env) (x y : String) (t : Ty) (m : Bool) :
    (e.add x t m).scope.vars.get? y = (e.scope.vars.insert x t).get? y := by
  rw [Env.type?_scope, Env.get?_add, NameMap.get?_insert, Env.type?_scope]
  split_ifs <;> rfl

/-- A name that is introduced is a wildcard, or new, not reserved and of a known type. -/
theorem of_declareFaults (h : declareFaults e o x t = []) (hx : x ≠ "_") :
    isReserved x = false ∧ e.vars.get? x = none ∧ t.hasUnknown = false := by
  unfold declareFaults at h
  rw [if_neg hx, List.append_eq_nil_iff] at h
  obtain ⟨hname, htype⟩ := h
  split_ifs at hname with hres hcon
  split_ifs at htype with hunk
  refine ⟨by simpa using hres, ?_, by simpa using hunk⟩
  simpa [NameMap.contains] using hcon

theorem declare_extends (m : Bool) (h : declareFaults e o x t = []) : e.Extends (declare e x t m) := by
  intro y v hy
  unfold declare
  split_ifs with hx
  · exact hy
  · have hnew := (of_declareFaults h hx).2.1
    rw [Env.get?_add, if_neg]
    · exact hy
    · rintro rfl
      rw [hnew] at hy
      cases hy

theorem declareAll_extends (h : (declareAll o e ds).2 = []) : e.Extends (declareAll o e ds).1 := by
  induction ds generalizing e with
  | nil => exact .refl e
  | cons d ds ih =>
    simp only [declareAll, List.append_eq_nil_iff] at h ⊢
    exact (declare_extends d.mutable h.1).trans (ih h.2)

/-- A command keeps all variables that are known before it. -/
theorem command_extends {c : Command} (h : (command e c).2 = []) : e.Extends (command e c).1 := by
  cases c with
  | declare d => exact declare_extends d.mutable h
  | bind d v =>
    simp only [command, List.append_eq_nil_iff] at h
    exact declare_extends d.mutable h.2
  | bindTuple ds v o =>
    simp only [command, List.append_eq_nil_iff] at h
    exact declareAll_extends h.2
  | _ => exact .refl e

theorem block_cons {c : Command} {cs : List Command} (h : (block e (c :: cs)).2 = []) :
    (command e c).2 = [] ∧ (block (command e c).1 cs).2 = [] := by
  simpa only [block, List.append_eq_nil_iff] using h

theorem block_extends {cs : List Command} (h : (block e cs).2 = []) : e.Extends (block e cs).1 := by
  induction cs generalizing e with
  | nil => exact .refl e
  | cons c cs ih =>
    obtain ⟨hc, hcs⟩ := block_cons h
    exact (command_extends hc).trans (ih hcs)

/-! ### Variables that stay as they are -/

/-- Whether a variable is known and cannot be assigned to. -/
def Env.Fixed (e : Env) (x : String) : Prop :=
  x ≠ "_" ∧ ∃ v, e.vars.get? x = some v ∧ (v.canAssign = false ∨ x.toList.contains '\'' = true)

theorem Env.Fixed.extend (h : e.Fixed x) (he : e.Extends e') : e'.Fixed x := by
  obtain ⟨hx, v, hv, hfix⟩ := h
  exact ⟨hx, v, he x v hv, hfix⟩

theorem Env.Fixed.ne_declared {y : String} (h : e.Fixed x) (hd : declareFaults e o y t = []) : x ≠ y := by
  rintro rfl
  obtain ⟨hx, v, hv, -⟩ := h
  rw [(of_declareFaults hd hx).2.1] at hv
  cases hv

theorem Env.Fixed.not_mem_namesOf (h : e.Fixed x) (hd : (declareAll o e ds).2 = []) :
    x ∉ (Declaration.namesOf ds).members := by
  simp only [Declaration.namesOf, SortedSet.mem_ofList, List.mem_filter, not_and]
  intro hmem
  induction ds generalizing e with
  | nil => simp at hmem
  | cons d ds ih =>
    simp only [declareAll, List.append_eq_nil_iff] at hd
    simp only [List.map_cons, List.mem_cons] at hmem
    rcases hmem with hmem | hmem
    · exact absurd hmem (h.ne_declared hd.1)
    · exact ih (h.extend (declare_extends d.mutable hd.1)) hd.2 hmem

theorem Env.Fixed.writeFaults_ne_nil (h : e.Fixed x) (o : Origin) : writeFaults e o x ≠ [] := by
  obtain ⟨-, v, hv, hfix⟩ := h
  unfold writeFaults
  split_ifs with hq
  · simp
  · rw [hv]
    simp [hfix.resolve_right hq]

theorem of_writes {p : Place} (h : writes e o p = []) (hp : p.base ≠ "") :
    readsPlace e p = [] ∧ writeFaults e o p.base = [] := by
  cases p with
  | wildcard o' => exact absurd rfl hp
  | name y o' | elem s y i o' => simpa only [writes, List.append_eq_nil_iff] using h

theorem Env.Fixed.not_mem_affected {a : Assignment} (h : e.Fixed x) (hw : writes e o a.target = []) :
    x ∉ a.affected.members := by
  unfold Assignment.affected
  split_ifs with hempty
  · simp
  · rw [Names.mem_single]
    rintro rfl
    exact h.writeFaults_ne_nil o (of_writes hw hempty).2

mutual

/-- A variable that cannot be assigned to is not affected. -/
theorem Env.Fixed.not_affected (c : Command) {e : Env} {x : String} (h : e.Fixed x)
    (hc : (command e c).2 = []) : x ∉ c.affected.members :=
  match c, hc with
  | .declare d, hc => by
    simpa [Command.affected] using h.ne_declared hc
  | .bind d v, hc => by
    simp only [command, List.append_eq_nil_iff] at hc
    simpa [Command.affected] using h.ne_declared hc.2
  | .bindTuple ds v o, hc => by
    simp only [command, List.append_eq_nil_iff] at hc
    exact h.not_mem_namesOf hc.2
  | .assign a, hc => by
    simp only [command, List.append_eq_nil_iff] at hc
    exact h.not_mem_affected hc.2
  | .assignAll as o, hc => by
    simp only [command, List.append_eq_nil_iff, List.flatMap_eq_nil_iff] at hc
    simp only [Command.affected, SortedSet.mem_unions, not_exists, not_and]
    intro s hs
    obtain ⟨a, ha, rfl⟩ := List.mem_map.mp hs
    exact h.not_mem_affected (hc.2 a ha)
  | .assert _ _, hc | .assume _ _, hc | .invariant _ _, hc | .noop _, hc => by simp [Command.affected]
  | .cond bs _, hc => by
    exact h.not_affectedBranches bs hc
  | .forRange i lo hi inv body o, hc => by
    simp only [command, List.append_eq_nil_iff] at hc
    obtain ⟨⟨⟨-, hd⟩, -⟩, hbody⟩ := hc
    simp only [Command.affected, SortedSet.mem_union, Names.mem_single, not_or]
    exact ⟨h.ne_declared hd, (h.extend (declare_extends false hd)).not_affectedAll body hbody⟩
  | .whileLoop c inv variant body _, hc => by
    simp only [command, List.append_eq_nil_iff] at hc
    exact h.not_affectedAll body hc.2

theorem Env.Fixed.not_affectedBranches (bs : Branches) {e : Env} {x : String} (h : e.Fixed x)
    (hc : branches e bs = []) : x ∉ bs.affected.members :=
  match bs, hc with
  | .otherwise b, hc => h.not_affectedAll b hc
  | .branch c b rest, hc => by
    simp only [branches, List.append_eq_nil_iff] at hc
    simp only [Branches.affected, SortedSet.mem_union, not_or]
    exact ⟨h.not_affectedAll b hc.1.2, h.not_affectedBranches rest hc.2⟩

theorem Env.Fixed.not_affectedAll (cs : List Command) {e : Env} {x : String} (h : e.Fixed x)
    (hc : (block e cs).2 = []) : x ∉ (Command.affectedAll cs).members :=
  match cs, hc with
  | [], hc => by simp [Command.affectedAll]
  | c :: cs, hc => by
    obtain ⟨hc', hcs⟩ := block_cons hc
    simp only [Command.affectedAll, SortedSet.mem_union, not_or]
    exact ⟨h.not_affected c hc', (h.extend (command_extends hc')).not_affectedAll cs hcs⟩

end

/-! ### Functions without violations -/

/-- Whether inputs can be declared one after the other. -/
def Declares (e : Env) : List Declaration → Prop
  | [] => True
  | d :: ds =>
    declareFaults e d.origin d.name d.type = [] ∧ Declares (declare e d.name d.type d.mutable) ds

theorem of_foldl_declare (ds : List Declaration) (r : Env × List Fault) :
    let step := fun (r : Env × List Fault) (d : Declaration) =>
      (declare r.1 d.name d.type d.mutable, r.2 ++ declareFaults r.1 d.origin d.name d.type)
    (ds.foldl step r).1 = ds.foldl (fun e d => declare e d.name d.type d.mutable) r.1 ∧
      ((ds.foldl step r).2 = [] → r.2 = [] ∧ Declares r.1 ds) := by
  induction ds generalizing r with
  | nil => exact ⟨rfl, fun h => ⟨h, trivial⟩⟩
  | cons d ds ih =>
    obtain ⟨h1, h2⟩ := ih (declare r.1 d.name d.type d.mutable,
      r.2 ++ declareFaults r.1 d.origin d.name d.type)
    refine ⟨h1, fun h => ?_⟩
    obtain ⟨h3, h4⟩ := h2 h
    rw [List.append_eq_nil_iff] at h3
    exact ⟨h3.1, h3.2, h4⟩

/-- What the scoping rules say of a function that obeys them. -/
theorem of_function {functions : List Function} {f : Function} (h : function functions f = []) :
    Declares ⟨.empty, functions⟩ f.inputs ∧ f.output.hasUnknown = false ∧
      (block (f.entryEnv functions) f.body).2 = [] := by
  unfold function at h
  have hfold := of_foldl_declare f.inputs (⟨.empty, functions⟩, [])
  simp only [List.map_eq_nil_iff, List.append_eq_nil_iff] at h hfold
  obtain ⟨⟨⟨⟨⟨hinputs, hout⟩, -⟩, hbody⟩, -⟩, -⟩ := h
  refine ⟨(hfold.2 hinputs).2, ?_, ?_⟩
  · split_ifs at hout with hunk
    simpa using hunk
  · rw [hfold.1] at hbody
    exact hbody

end Scoping

end Verdict
