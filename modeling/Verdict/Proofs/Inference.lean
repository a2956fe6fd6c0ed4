import Verdict.Lang.Inference
import Verdict.Proofs.Typing

/-! # What inference changes

Inference only fills in: the type of a binding, or of a target in the pattern of a tuple, is replaced if a part
of it is unknown and the bound value has a type without unknown parts, and then it becomes that type. The
value is typed in the scope at that point of the program as it stands after inference, which `Command.after`
reads off the commands without inferring anything. A second run comes to the same scopes, so it changes
nothing and meets the same faults (`Program.infer_settles`).

The functions of the program are part of a scope, and their bodies change. Types depend only on what functions
return, so scopes that differ in bodies are `Alike`. -/

namespace Verdict

/-! ### What the type of a value depends on -/

/-- The variable whose type decides the type of a place. -/
def Place.typeNames : Place → List String
  | .name x _ | .elem _ x _ _ => [x]
  | .wildcard _ => []

mutual

/-- The variables whose types decide the type of a value. -/
def Value.typeNames : Value → List String
  | .place p _ => p.typeNames
  | .tuple vs _ => Value.typeNamesAll vs
  | .array (v :: _) _ => v.typeNames
  | .ref v _ _ | .deref v _ | .ite _ v _ _ | .select _ v _ _ | .store _ v _ _ _ => v.typeNames
  | .expr _ _ | .formula _ _ | .array [] _ | .call _ _ _ | .unit _ | .missing => []

/-- The variables whose types decide the types of several values. -/
def Value.typeNamesAll : List Value → List String
  | [] => []
  | v :: vs => v.typeNames ++ Value.typeNamesAll vs

end

variable {Γ Δ : Scope}

/-- Whether a second scope gives some variables the types that a first one gives them, and functions return
the same in both. -/
structure Scope.Serves (Γ Δ : Scope) (K : String → Prop) : Prop where
  types : ∀ x, K x → ∀ t, Γ.type? x = some t → Δ.type? x = some t
  results : ∀ f, (Γ.function? f).map Function.output = (Δ.function? f).map Function.output

theorem map_of_forall_ok {ε α β : Type} {r r' : Except ε α} {f : α → β} {b : β}
    (h : ∀ a, r = .ok a → r' = .ok a) (hb : r.map f = .ok b) : r'.map f = .ok b := by
  cases r with
  | error e => cases hb
  | ok a =>
    rw [h a rfl]
    exact hb

theorem bind_of_forall_ok {ε α β : Type} {r r' : Except ε α} {f f' : α → Except ε β} {b : β}
    (h : ∀ a, r = .ok a → r' = .ok a) (hf : ∀ a, f a = .ok b → f' a = .ok b) (hb : r >>= f = .ok b) :
    r' >>= f' = .ok b := by
  cases r with
  | error e => cases hb
  | ok a =>
    rw [h a rfl]
    exact hf a hb

/-- A place has the type that it has in another scope, if the variable that decides it has. -/
theorem Place.typeOf_of_serves {p : Place} {K : String → Prop} {t : Ty} (h : Γ.Serves Δ K)
    (hK : ∀ x ∈ p.typeNames, K x) (ht : p.typeOf Γ = .ok t) : p.typeOf Δ = .ok t := by
  cases p with
  | name x o | elem shape x i o =>
    simp only [Place.typeOf] at ht ⊢
    cases hx : Γ.type? x with
    | none =>
      rw [hx] at ht
      cases ht
    | some u =>
      rw [hx] at ht
      rw [h.types x (hK x (List.mem_singleton.mpr rfl)) u hx]
      exact ht
  | wildcard o => cases ht

mutual

/-- A value has the type that it has in another scope, if the variables that decide it have. -/
theorem Value.typeOf_of_serves {K : String → Prop} (h : Γ.Serves Δ K) : ∀ (v : Value) {t : Ty},
    (∀ x ∈ v.typeNames, K x) → v.typeOf Γ = .ok t → v.typeOf Δ = .ok t
  | .expr _ _, _, _, ht | .formula _ _, _, _, ht | .array [] _, _, _, ht | .unit _, _, _, ht
  | .missing, _, _, ht => ht
  | .place p _, _, hK, ht => Place.typeOf_of_serves h hK ht
  | .tuple vs _, _, hK, ht => map_of_forall_ok (fun _ hts => Value.typesOf_of_serves h vs hK hts) ht
  | .call f vs o, t, hK, ht => by
    have hresult := h.results f
    simp only [Value.typeOf] at ht ⊢
    cases hΓ : Γ.function? f with
    | none =>
      rw [hΓ] at ht
      cases ht
    | some g =>
      rw [hΓ, Option.map_some, eq_comm, Option.map_eq_some_iff] at hresult
      obtain ⟨g', hΔ, houtput⟩ := hresult
      rw [hΓ] at ht
      rw [hΔ]
      exact (congrArg Except.ok houtput).trans ht
  | .array (v :: _) _, _, hK, ht | .ref v _ _, _, hK, ht | .deref v _, _, hK, ht =>
    map_of_forall_ok (fun _ hu => Value.typeOf_of_serves h v hK hu) ht
  | .ite _ v _ _, _, hK, ht | .store _ v _ _ _, _, hK, ht => (Value.typeOf_of_serves h v hK ht :)
  | .select _ b _ _, _, hK, ht =>
    bind_of_forall_ok (fun _ hu => Value.typeOf_of_serves h b hK hu) (fun _ hu => hu) ht

theorem Value.typesOf_of_serves {K : String → Prop} (h : Γ.Serves Δ K) : ∀ (vs : List Value) {ts : List Ty},
    (∀ x ∈ Value.typeNamesAll vs, K x) → Value.typesOf Γ vs = .ok ts → Value.typesOf Δ vs = .ok ts
  | [], _, _, hts => hts
  | v :: vs, ts, hK, hts => by
    simp only [Value.typeNamesAll, List.mem_append] at hK
    rw [Value.typesOf] at hts ⊢
    refine bind_of_forall_ok (fun _ hu => Value.typeOf_of_serves h v (fun x hx => hK x (.inl hx)) hu) ?_ hts
    intro u hrest
    exact bind_of_forall_ok (fun _ hus => Value.typesOf_of_serves h vs (fun x hx => hK x (.inr hx)) hus)
      (fun _ hus => hus) hrest

end

/-- Whether two scopes have the same variables, and functions return the same in both. -/
structure Scope.Alike (Γ Δ : Scope) : Prop where
  vars : Γ.vars = Δ.vars
  results : ∀ f, (Γ.function? f).map Function.output = (Δ.function? f).map Function.output

namespace Scope.Alike

theorem symm (h : Γ.Alike Δ) : Δ.Alike Γ := ⟨h.vars.symm, fun f => (h.results f).symm⟩

theorem serves (h : Γ.Alike Δ) : Γ.Serves Δ fun _ => True :=
  ⟨fun x _ t hx => by rwa [type?, ← h.vars], h.results⟩

theorem declare (h : Γ.Alike Δ) (x : String) (t : Ty) : (Γ.declare x t).Alike (Δ.declare x t) :=
  ⟨congrArg (NameMap.insert · x t) h.vars, h.results⟩

theorem declareAll (h : Γ.Alike Δ) (ds : List Declaration) :
    (Declaration.declareAll Γ ds).Alike (Declaration.declareAll Δ ds) := by
  unfold Declaration.declareAll
  induction ds generalizing Γ Δ with
  | nil => exact h
  | cons d ds ih =>
    simp only [List.foldl_cons]
    split_ifs with hd
    · exact ih h
    · exact ih (h.declare d.name d.type)

/-- In scopes that are alike, a value has the same type or has none. -/
theorem typeOf (h : Γ.Alike Δ) (v : Value) : (∃ t, v.typeOf Γ = .ok t ∧ v.typeOf Δ = .ok t) ∨
    ∃ err err', v.typeOf Γ = .error err ∧ v.typeOf Δ = .error err' := by
  cases hΓ : v.typeOf Γ with
  | ok t => exact .inl ⟨t, rfl, v.typeOf_of_serves h.serves (fun _ _ => trivial) hΓ⟩
  | error err =>
    cases hΔ : v.typeOf Δ with
    | error err' => exact .inr ⟨err, err', rfl, rfl⟩
    | ok t =>
      have ht := v.typeOf_of_serves h.symm.serves (fun _ _ => trivial) hΔ
      rw [hΓ] at ht
      cases ht

end Scope.Alike

/-! ### Programs with types filled in -/

/-- Whether a second declaration is what becomes of a first one for which a type has been found, or none: it
takes that type if its own has unknown parts and that type has none, and stays as it is otherwise. -/
inductive Declaration.Settles (found : Option Ty) (d : Declaration) : Declaration → Prop
  | kept : (d.type.hasUnknown = true → ∀ t, found = some t → t.hasUnknown = true) → Settles found d d
  | filled {t : Ty} : d.type.hasUnknown = true → found = some t → t.hasUnknown = false →
      Settles found d { d with type := t }

/-- The type of the element at position `i` of a tuple of `n` elements. -/
def Value.partType? (Γ : Scope) (v : Value) (n i : ℕ) : Option Ty :=
  match v.typeOf Γ with
  | .error _ => none
  | .ok t =>
    match t.underlying with
    | .tuple ts => if ts.length = n then ts[i]? else none
    | _ => none

/-- Whether a value has a type, but not that of a tuple of `n` elements. -/
def Value.misfits (Γ : Scope) (v : Value) (n : ℕ) : Bool :=
  match v.typeOf Γ with
  | .error _ => false
  | .ok t =>
    match t.underlying with
    | .tuple ts => ts.length != n
    | _ => true

/-- The scope after a command, with the types that stand in the command. A pattern that does not fit its value
declares nothing. -/
def Command.after (Γ : Scope) : Command → Scope
  | .declare d | .bind d _ => Γ.declare d.name d.type
  | .bindTuple ds v _ => if v.misfits Γ ds.length then Γ else Declaration.declareAll Γ ds
  | _ => Γ

mutual

/-- Whether a second command is a first one with its types filled in, in a scope. -/
def Command.Settles (Γ : Scope) : Command → Command → Prop
  | .bind d v, c => ∃ d', c = .bind d' v ∧ Declaration.Settles (v.typeOf Γ).toOption d d'
  | .bindTuple ds v o, c => ∃ ds', c = .bindTuple ds' v o ∧ ds'.length = ds.length ∧
      ∀ i d d', ds[i]? = some d → ds'[i]? = some d' → Declaration.Settles (v.partType? Γ ds.length i) d d'
  | .cond bs o, c => ∃ bs', c = .cond bs' o ∧ bs.Settles Γ bs'
  | .forRange i lo hi inv body o, c =>
      ∃ body', c = .forRange i lo hi inv body' o ∧ Command.AllSettle (Γ.declare i .i32) body body'
  | .whileLoop b inv variant body o, c =>
      ∃ body', c = .whileLoop b inv variant body' o ∧ Command.AllSettle Γ body body'
  | .declare d, c => c = .declare d
  | .assign a, c => c = .assign a
  | .assignAll as o, c => c = .assignAll as o
  | .assert f o, c => c = .assert f o
  | .assume f o, c => c = .assume f o
  | .invariant f o, c => c = .invariant f o
  | .noop o, c => c = .noop o

/-- Whether a second cascade of conditions is a first one with its types filled in. -/
def Branches.Settles (Γ : Scope) : Branches → Branches → Prop
  | .otherwise b, bs => ∃ b', bs = .otherwise b' ∧ Command.AllSettle Γ b b'
  | .branch f b rest, bs =>
      ∃ b' rest', bs = .branch f b' rest' ∧ Command.AllSettle Γ b b' ∧ rest.Settles Γ rest'

/-- Whether a second block is a first one with its types filled in. Each command is in the scope that the
commands of the second block before it leave. -/
def Command.AllSettle (Γ : Scope) : List Command → List Command → Prop
  | [], cs' => cs' = []
  | c :: cs, cs' => ∃ c' rest, cs' = c' :: rest ∧ c.Settles Γ c' ∧ Command.AllSettle (c'.after Γ) cs rest

end

/-- Whether a second function is a first one with the types in its body filled in. -/
structure Function.Settles (p : Program) (f g : Function) : Prop where
  frame : g = { f with body := g.body }
  body : Command.AllSettle (Inference.inputs p f) f.body g.body

namespace Inference

/-! ### A run fills in types -/

theorem settles_refine (d : Declaration) (t : Ty) : Declaration.Settles (some t) d (d.refine t) := by
  unfold Declaration.refine
  split_ifs with h
  · rw [Bool.and_eq_true, Bool.not_eq_true'] at h
    exact .filled h.1 rfl h.2
  · refine .kept fun hd u hu => ?_
    obtain rfl := Option.some.inj hu
    simpa [hd] using h

theorem settles_bind (s : Scope) (d : Declaration) (v : Value) :
    Declaration.Settles (v.typeOf s).toOption d (bind s d v) := by
  unfold bind
  cases v.typeOf s with
  | ok t => exact settles_refine d t
  | error e => exact .kept fun _ _ ht => nomatch ht

/-- What inference makes of a pattern: the value has no type, or is a tuple with as many elements as there are
targets, or it misfits. -/
inductive Destructs (function : String) (s : Scope) (ds : List Declaration) (v : Value) (o : Origin) : Prop
  | untyped {err : Fault} : v.typeOf s = .error err →
      bindTuple function s ds v o = ⟨.bindTuple ds v o, Declaration.declareAll s ds, []⟩ → Destructs ..
  | fits {t : Ty} {ts : List Ty} : v.typeOf s = .ok t → t.underlying = .tuple ts → ts.length = ds.length →
      bindTuple function s ds v o = ⟨.bindTuple (List.zipWith Declaration.refine ds ts) v o,
        Declaration.declareAll s (List.zipWith Declaration.refine ds ts), []⟩ → Destructs ..
  | misfits {fault : Fault} : v.misfits s ds.length = true → (∀ i, v.partType? s ds.length i = none) →
      bindTuple function s ds v o = ⟨.bindTuple ds v o, s, [fault]⟩ → Destructs ..

theorem destructs (function : String) (s : Scope) (ds : List Declaration) (v : Value) (o : Origin) :
    Destructs function s ds v o := by
  cases ht : v.typeOf s with
  | error err => exact .untyped ht (by simp only [bindTuple, ht])
  | ok t =>
    cases hu : t.underlying with
    | tuple ts =>
      by_cases hlen : ts.length = ds.length
      · exact .fits ht hu hlen (by simp only [bindTuple, ht, hu, if_pos hlen])
      · refine .misfits (by simp [Value.misfits, ht, hu, hlen]) ?_
          (by simp only [bindTuple, ht, hu, if_neg hlen]; rfl)
        intro i
        simp only [Value.partType?, ht, hu, if_neg hlen]
    | _ =>
      refine .misfits (by simp [Value.misfits, ht, hu]) ?_ (by simp only [bindTuple, ht, hu]; rfl)
      intro i
      simp only [Value.partType?, ht, hu]

/-- The scope after a command is that of its types after inference. -/
theorem scope_command (function : String) (s : Scope) (c : Command) :
    (command function s c).scope = (command function s c).node.after s := by
  cases c with
  | bindTuple ds v o =>
    simp only [command]
    cases destructs function s ds v o with
    | untyped ht h => simp [h, Command.after, Value.misfits, ht]
    | fits ht hu hlen h => simp [h, Command.after, Value.misfits, ht, hu, hlen]
    | misfits hmis _ h => simp [h, Command.after, hmis]
  | _ => rfl

theorem settles_bindTuple (function : String) (s : Scope) (ds : List Declaration) (v : Value) (o : Origin) :
    (Command.bindTuple ds v o).Settles s (bindTuple function s ds v o).node := by
  cases destructs function s ds v o with
  | untyped ht h =>
    rw [h]
    refine ⟨ds, rfl, rfl, fun i d d' hd hd' => ?_⟩
    obtain rfl := Option.mem_unique hd hd'
    refine .kept fun _ t hpart => ?_
    simp [Value.partType?, ht] at hpart
  | @fits t ts ht hu hlen h =>
    rw [h]
    refine ⟨_, rfl, by simp [hlen], fun i d d' hd hd' => ?_⟩
    rw [List.getElem?_zipWith_eq_some] at hd'
    obtain ⟨d₀, u, hd₀, hu', rfl⟩ := hd'
    obtain rfl := Option.mem_unique hd hd₀
    have hpart : v.partType? s ds.length i = some u := by simp [Value.partType?, ht, hu, hlen, hu']
    rw [hpart]
    exact settles_refine d u
  | misfits _ hparts h =>
    rw [h]
    refine ⟨ds, rfl, rfl, fun i d d' hd hd' => ?_⟩
    obtain rfl := Option.mem_unique hd hd'
    rw [hparts i]
    exact .kept fun _ _ ht => nomatch ht

mutual

theorem settles_command (function : String) : ∀ (c : Command) (s : Scope),
    c.Settles s (command function s c).node
  | .bind d v, s => ⟨_, rfl, settles_bind s d v⟩
  | .bindTuple ds v o, s => settles_bindTuple function s ds v o
  | .cond bs _, s => ⟨_, rfl, settles_branches function bs s⟩
  | .forRange i _ _ _ body _, s => ⟨_, rfl, settles_block function body (s.declare i .i32)⟩
  | .whileLoop _ _ _ body _, s => ⟨_, rfl, settles_block function body s⟩
  | .declare _, _ | .assign _, _ | .assignAll _ _, _ | .assert _ _, _ | .assume _ _, _ | .invariant _ _, _
  | .noop _, _ => rfl

theorem settles_branches (function : String) : ∀ (bs : Branches) (s : Scope),
    bs.Settles s (branches function s bs).node
  | .otherwise b, s => ⟨_, rfl, settles_block function b s⟩
  | .branch _ b rest, s => ⟨_, _, rfl, settles_block function b s, settles_branches function rest s⟩

/-- Inference makes of a block the block with its types filled in. -/
theorem settles_block (function : String) : ∀ (cs : List Command) (s : Scope),
    Command.AllSettle s cs (block function s cs).node
  | [], _ => rfl
  | c :: cs, s => by
    refine ⟨_, _, rfl, settles_command function c s, ?_⟩
    rw [← scope_command]
    exact settles_block function cs (command function s c).scope

end

/-! ### A second run -/

theorem refine_refine (d : Declaration) (t : Ty) : (d.refine t).refine t = d.refine t := by
  unfold Declaration.refine
  by_cases h : (d.type.hasUnknown && !t.hasUnknown) = true
  · rw [if_pos h, if_neg]
    rw [Bool.and_eq_true, Bool.not_eq_true'] at h
    simp [h.2]
  · rw [if_neg h, if_neg h]

theorem zipWith_refine_again (ds : List Declaration) (ts : List Ty) :
    List.zipWith Declaration.refine (List.zipWith Declaration.refine ds ts) ts =
      List.zipWith Declaration.refine ds ts := by
  induction ds generalizing ts with
  | nil => rfl
  | cons d ds ih =>
    cases ts with
    | nil => rfl
    | cons t ts => simp only [List.zipWith_cons_cons, refine_refine, ih]

/-- Whether two results of inference are the same, up to scopes that are alike. -/
structure Alike {α : Type} (r r' : Inferred α) : Prop where
  node : r.node = r'.node
  scope : r.scope.Alike r'.scope
  faults : r.faults = r'.faults

theorem bind_again (h : Γ.Alike Δ) (d : Declaration) (v : Value) : bind Γ (bind Δ d v) v = bind Δ d v := by
  unfold bind
  rcases h.typeOf v with ⟨t, hΓ, hΔ⟩ | ⟨err, err', hΓ, hΔ⟩
  · rw [hΓ, hΔ]
    exact refine_refine d t
  · rw [hΓ, hΔ]

theorem again_bindTuple (function : String) (h : Γ.Alike Δ) (ds : List Declaration) (v : Value) (o : Origin) :
    Alike (command function Γ (bindTuple function Δ ds v o).node) (bindTuple function Δ ds v o) := by
  rcases h.typeOf v with ⟨t, hΓ, hΔ⟩ | ⟨err, err', hΓ, hΔ⟩
  · cases hu : t.underlying with
    | tuple ts =>
      by_cases hlen : ts.length = ds.length
      · have hlen' : ts.length = (List.zipWith Declaration.refine ds ts).length := by simp [hlen]
        simp only [command, bindTuple, hΓ, hΔ, hu, if_pos hlen, if_pos hlen', zipWith_refine_again]
        exact ⟨rfl, h.declareAll _, rfl⟩
      · simp only [command, bindTuple, hΓ, hΔ, hu, if_neg hlen]
        exact ⟨rfl, h, rfl⟩
    | _ =>
      simp only [command, bindTuple, hΓ, hΔ, hu]
      exact ⟨rfl, h, rfl⟩
  · simp only [command, bindTuple, hΓ, hΔ]
    exact ⟨rfl, h.declareAll ds, rfl⟩

mutual

theorem again_command (function : String) : ∀ (c : Command) {Γ Δ : Scope}, Γ.Alike Δ →
    Alike (command function Γ (command function Δ c).node) (command function Δ c)
  | .bind d v, _, _, h => by
    simp only [command, bind_again h]
    exact ⟨rfl, h.declare _ _, rfl⟩
  | .bindTuple ds v o, _, _, h => again_bindTuple function h ds v o
  | .cond bs o, _, _, h =>
    have hbs := again_branches function bs h
    ⟨congrArg (Command.cond · o) hbs.node, h, hbs.faults⟩
  | .forRange i lo hi inv body o, _, _, h =>
    have hbody := again_block function body (h.declare i .i32)
    ⟨congrArg (Command.forRange i lo hi inv · o) hbody.node, h, hbody.faults⟩
  | .whileLoop c inv variant body o, _, _, h =>
    have hbody := again_block function body h
    ⟨congrArg (Command.whileLoop c inv variant · o) hbody.node, h, hbody.faults⟩
  | .declare d, _, _, h => ⟨rfl, h.declare d.name d.type, rfl⟩
  | .assign _, _, _, h | .assignAll _ _, _, _, h | .assert _ _, _, _, h | .assume _ _, _, _, h
  | .invariant _ _, _, _, h | .noop _, _, _, h => ⟨rfl, h, rfl⟩

theorem again_branches (function : String) : ∀ (bs : Branches) {Γ Δ : Scope}, Γ.Alike Δ →
    Alike (branches function Γ (branches function Δ bs).node) (branches function Δ bs)
  | .otherwise b, _, _, h =>
    have hb := again_block function b h
    ⟨congrArg Branches.otherwise hb.node, h, hb.faults⟩
  | .branch c b rest, _, _, h =>
    have hb := again_block function b h
    have hrest := again_branches function rest h
    ⟨congrArg₂ (Branches.branch c) hb.node hrest.node, h, congrArg₂ (· ++ ·) hb.faults hrest.faults⟩

/-- A second run over a block, in a scope that is alike, changes nothing and meets the same faults. -/
theorem again_block (function : String) : ∀ (cs : List Command) {Γ Δ : Scope}, Γ.Alike Δ →
    Alike (block function Γ (block function Δ cs).node) (block function Δ cs)
  | [], _, _, h => ⟨rfl, h, rfl⟩
  | c :: cs, _, _, h =>
    have hc := again_command function c h
    have hcs := again_block function cs hc.scope
    ⟨congrArg₂ List.cons hc.node hcs.node, hcs.scope, congrArg₂ (· ++ ·) hc.faults hcs.faults⟩

end

/-! ### Programs -/

theorem functions_infer (p : Program) : p.infer.1.functions = p.functions.map fun f => (function p f).1 :=
  List.map_map

theorem function?_infer (p : Program) (name : String) :
    p.infer.1.function? name = (p.function? name).map fun f => (function p f).1 := by
  unfold Program.function?
  rw [functions_infer, List.find?_map]
  rfl

theorem output_infer (p : Program) (name : String) :
    (p.infer.1.function? name).map Function.output = (p.function? name).map Function.output := by
  rw [function?_infer, Option.map_map]
  rfl

/-- The scope of the inputs of a function is the same for the program after inference, but for bodies. -/
theorem alike_inputs (p : Program) (f : Function) : (inputs p.infer.1 f).Alike (inputs p f) := by
  have hstart : Scope.Alike ⟨.empty, p.infer.1.functions⟩ ⟨.empty, p.functions⟩ := ⟨rfl, output_infer p⟩
  have hfold : ∀ (ds : List Declaration) {Γ Δ : Scope}, Γ.Alike Δ →
      (ds.foldl (fun s d => s.declare d.name d.type) Γ).Alike
        (ds.foldl (fun s d => s.declare d.name d.type) Δ) := by
    intro ds
    induction ds with
    | nil => exact fun h => h
    | cons d ds ih => exact fun h => ih (h.declare d.name d.type)
  exact hfold f.inputs hstart

theorem function_again (p : Program) (f : Function) : function p.infer.1 (function p f).1 = function p f := by
  have h := again_block f.name f.body (alike_inputs p f)
  exact Prod.ext (congrArg (fun cs => { f with body := cs }) h.node) h.faults

end Inference

namespace Program

/-- Inference keeps a program but for the types of bindings and of targets in patterns with unknown parts.
Each type that it changes becomes the type of the bound value, or of the element at that position, in the
scope there after inference, and has no unknown parts. A second run changes nothing and meets the same
faults. -/
theorem infer_settles (p : Program) :
    List.Forall₂ (Function.Settles p) p.functions p.infer.1.functions ∧ p.infer.1.infer = p.infer := by
  constructor
  · rw [Inference.functions_infer, List.forall₂_map_right_iff, List.forall₂_same]
    exact fun f _ => ⟨rfl, Inference.settles_block f.name f.body (Inference.inputs p f)⟩
  · have hruns : p.infer.1.functions.map (Inference.function p.infer.1) =
        p.functions.map (Inference.function p) := by
      rw [Inference.functions_infer, List.map_map]
      exact List.map_congr_left fun f _ => Inference.function_again p f
    exact congrArg (fun rs => ((⟨rs.map Prod.fst⟩ : Program), rs.flatMap Prod.snd)) hruns

end Program

end Verdict
