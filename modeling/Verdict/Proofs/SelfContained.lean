import Verdict.Proofs.SortTrust
import Verdict.Proofs.TypedObligations

/-! # Self-contained queries

A query declares the constants and functions that it mentions while its terms are made. Each free constant
is declared with the sort at which all its free occurrences are used, and each function with the sorts of
the arguments that it is applied to and of its result (`Term.Accords`); no name is declared twice. This
holds of the queries of all well-typed programs (`Program.queries_selfContained`), also below binders whose
names are those of constants or functions of the solver, and where tuples are nested. -/

namespace Verdict

open Encoding

/-! ### Terms that use symbols as they are declared -/

namespace Term

mutual

/-- Whether a term is of a sort if all its symbols are used as they are declared. A bound variable is used
at the sort of its binder. If its name is one that the solver needs for something else, it may stand for
that, which is of another sort. -/
def Accords (d : Declarations) (bound : NameMap SmtSort) : Term → SmtSort → Prop
  | const x, s =>
    match bound.get? x with
    | some s' => s' = s ∨ ¬ IsPlain x
    | none => d.consts.get? x = some s
  | int _, s => s = .int
  | lit _, s => s = .bool
  | app fn ts, s => ∃ ss, AllAccord d bound ts ss ∧
    (operatorSort? fn ss = some s ∨ d.funs.get? fn = some ⟨ss, s⟩)
  | quant _ x s' t, s => s = .bool ∧ t.Accords d (bound.insert x s') .bool
  | constArray s' t, s => s = .array s' ∧ t.Accords d bound s'
  | absent, _ => False

/-- Whether terms are of some sorts if all their symbols are used as they are declared. -/
def AllAccord (d : Declarations) (bound : NameMap SmtSort) : List Term → List SmtSort → Prop
  | [], ss => ss = []
  | t :: ts, ss => ∃ s ss', ss = s :: ss' ∧ t.Accords d bound s ∧ AllAccord d bound ts ss'

end

variable {d d' : Declarations} {bound : NameMap SmtSort}

mutual

/-- More declarations do no harm. -/
theorem Accords.grow (h : d.Under d') : ∀ (t : Term) {bound : NameMap SmtSort} {s : SmtSort},
    t.Accords d bound s → t.Accords d' bound s
  | const x, bound, s, ht => by
    simp only [Accords] at ht ⊢
    split at ht
    · exact ht
    · exact h.consts x s ht
  | int _, bound, s, ht | lit _, bound, s, ht => ht
  | app fn ts, bound, s, ht => by
    obtain ⟨ss, hss, hs⟩ := ht
    exact ⟨ss, AllAccord.grow h ts hss, hs.imp_right fun hs => h.funs fn _ hs⟩
  | quant q x s' t, bound, s, ht | constArray s' t, bound, s, ht => ⟨ht.1, Accords.grow h t ht.2⟩
  | absent, bound, s, ht => ht

theorem AllAccord.grow (h : d.Under d') : ∀ (ts : List Term) {bound : NameMap SmtSort}
    {ss : List SmtSort}, AllAccord d bound ts ss → AllAccord d' bound ts ss
  | [], bound, ss, hts => hts
  | t :: ts, bound, ss, hts => by
    obtain ⟨s, ss', rfl, ht, hts⟩ := hts
    exact ⟨s, ss', rfl, Accords.grow h t ht, AllAccord.grow h ts hts⟩

end

/-! ### Constructed terms -/

theorem composes_accords : Composes (Accords d bound) := by
  refine ⟨fun _ => rfl, fun _ => rfl, fun hts hs => ⟨_, ?_, .inl hs⟩, fun ht => ⟨rfl, ht⟩⟩
  clear hs
  induction hts with
  | nil => rfl
  | cons ht _ ih => exact ⟨_, _, rfl, ht, ih⟩

theorem AllAccord.append {ts us : List Term} {ss rs : List SmtSort} (hts : AllAccord d bound ts ss)
    (hus : AllAccord d bound us rs) : AllAccord d bound (ts ++ us) (ss ++ rs) := by
  induction ts generalizing ss with
  | nil =>
    cases hts
    exact hus
  | cons t ts ih =>
    obtain ⟨s, ss', rfl, ht, hts⟩ := hts
    exact ⟨s, ss' ++ rs, rfl, ht, ih hts⟩

end Term

/-! ### The arguments of functions -/

/-- References do not change the arguments of the solver. -/
theorem Ty.argumentSorts_bare : ∀ t : Ty, t.bare.argumentSorts = t.argumentSorts
  | .ref u m => by
    have hsort : (Ty.ref u m).sortOf.toOption = u.sortOf.toOption :=
      (toOption_sortOf_bare _).symm.trans (toOption_sortOf_bare u)
    rw [bare, argumentSorts_bare u]
    simp only [argumentSorts, underlying, hsort]
  | .tuple ts => congrArg (List.map SmtSort.array) (tupleSorts_bareAll ts)
  | .array t n => by
    have hsort := toOption_sortOf_bare (.array t n)
    simp only [bare] at hsort ⊢
    simp only [argumentSorts, underlying, hsort]
  | .bool | .i32 | .unit | .unknown => rfl

theorem Function.argumentSorts_eq (g : Function) :
    (Ty.bareAll (g.inputs.map Declaration.type)).flatMap Ty.argumentSorts = g.argumentSorts := by
  unfold argumentSorts
  induction g.inputs with
  | nil => rfl
  | cons x xs ih =>
    simp only [List.map_cons, Ty.bareAll, List.flatMap_cons, Ty.argumentSorts_bare, ih]

namespace Encoding

/-! ### What has been declared -/

variable {α : Type} {Γ : Scope} {d d₁ d' : Declarations} {P Q : Prop} {s : SmtSort}
  {parts' : NameMap Term}

/-- Whether only what a scope says has been declared since, and something holds. -/
def Grants (Γ : Scope) (d d' : Declarations) (P : Prop) : Prop :=
  d.Agrees Γ → d.Under d' ∧ d'.Agrees Γ ∧ P

theorem Succeeds.grants {m : EncodeM α} {Q : α → Declarations → Prop} (h : Succeeds Γ d m Q) {a : α}
    (hrun : Ran m d a d') : Grants Γ d d' (Q a d') := by
  intro hd
  obtain ⟨b, d₁, hrun', hrest⟩ := h hd
  cases hrun.symm.trans hrun'
  exact hrest

theorem Grants.none (h : P) : Grants Γ d d P := fun hd => ⟨.refl d, hd, h⟩

theorem Grants.bind (h : Grants Γ d d₁ P) (hQ : d.Under d₁ → P → Grants Γ d₁ d' Q) : Grants Γ d d' Q := by
  intro hd
  obtain ⟨hunder, hagrees, hP⟩ := h hd
  obtain ⟨hunder', hrest⟩ := hQ hunder hP hagrees
  exact ⟨hunder.trans hunder', hrest⟩

theorem Grants.mono (h : Grants Γ d d' P) (hQ : d.Under d' → P → Q) : Grants Γ d d' Q := by
  intro hd
  obtain ⟨hunder, hagrees, hP⟩ := h hd
  exact ⟨hunder, hagrees, hQ hunder hP⟩

/-! ### Constants, functions and parts of tuples -/

/-- How an environment stands to a scope: its free variables are those of the scope, and its bound ones
have sorts, which are given. -/
structure Env.Extends (env : Env) (Γ : Scope) (binders : NameMap SmtSort) : Prop where
  functions : ∀ f, env.scope.function? f = Γ.function? f
  bound : ∀ x ∈ env.bound, ∃ t s, env.scope.type? x = some t ∧ t.sortOf = .ok s ∧
    binders.get? x = some s
  free : ∀ x ∉ env.bound, env.scope.type? x = Γ.type? x ∧ binders.get? x = none

variable {env : Env} {binders : NameMap SmtSort}

theorem Env.Extends.ofScope (Γ : Scope) : (Env.ofScope Γ).Extends Γ .empty :=
  ⟨fun _ => rfl, fun _ hx => absurd hx List.not_mem_nil, fun _ _ => ⟨rfl, rfl⟩⟩

variable {t : Ty} {ts : List Ty} {r : Encoded} {parts : NameMap Term} {ss : List SmtSort}

theorem Env.Extends.bind (h : env.Extends Γ binders) (x : String) (hs : t.sortOf = .ok s) :
    (env.bind x t).Extends Γ (binders.insert x s) := by
  refine ⟨h.functions, fun y hy => ?_, fun y hy => ?_⟩
  · simp only [Env.bind, Scope.type?_declare, NameMap.get?_insert]
    by_cases hxy : x = y
    · exact ⟨t, s, if_pos hxy, hs, if_pos hxy⟩
    · simp only [if_neg hxy]
      exact h.bound y ((List.mem_cons.mp hy).resolve_left (Ne.symm hxy))
  · simp only [Env.bind, List.mem_cons, not_or] at hy
    simp only [Env.bind, Scope.type?_declare, NameMap.get?_insert, if_neg (Ne.symm hy.1)]
    exact h.free y hy.2

/-- A tuple is not bound, and has its type in the scope. -/
theorem Env.Extends.tuple (h : env.Extends Γ binders) {x : String} (ht : env.scope.type? x = some t)
    (hts : t.underlying = .tuple ts) : Γ.type? x = some t := by
  rw [← ht, (h.free x ?_).1]
  intro hx
  obtain ⟨u, s, hu, hs, -⟩ := h.bound x hx
  obtain rfl := Option.mem_unique ht hu
  exact Ty.sortOf_of_underlying_tuple hts s hs

theorem PartsSorted.later (h : PartsSorted (Term.Accords d binders) parts ss) (hd : d.Under d') :
    PartsSorted (Term.Accords d' binders) parts ss := h.mono fun t _ => Term.Accords.grow hd t

section

variable (hΓ : Γ.Plain) (he : env.Extends Γ binders)
include hΓ he

/-- What is declared for a name of the scope is what its free occurrences are used as. -/
theorem grants_declareConst {n : String} {u : Unit}
    (hbound : ∀ s', n ∈ env.bound → binders.get? n = some s' → s' = s ∨ ¬ IsPlain n)
    (hfree : n ∉ env.bound → ∃ x, Γ.Symbol x n s) (hrun : Ran (declareConst env n s) d u d') :
    Grants Γ d d' ((Term.const n).Accords d' binders s) := by
  refine ((succeeds_declare hΓ hfree).grants hrun).mono fun _ hdeclared => ?_
  simp only [Term.Accords]
  by_cases hn : n ∈ env.bound
  · obtain ⟨t, s', -, -, hget⟩ := he.bound n hn
    rw [hget]
    exact hbound s' hn hget
  · rw [(he.free n hn).2]
    exact hdeclared hn

theorem grants_variable {x : String} {u : Unit} (ht : env.scope.type? x = some t)
    (hs : t.sortOf = .ok s) (hrun : Ran (declareConst env x s) d u d') :
    Grants Γ d d' ((Term.const x).Accords d' binders s) := by
  refine grants_declareConst hΓ he (fun s' hx hget => .inl ?_) (fun hx => ⟨x, .self ?_ hs⟩) hrun
  · obtain ⟨t', s'', ht', hs', hget'⟩ := he.bound x hx
    obtain rfl := Option.mem_unique ht ht'
    obtain rfl := ok_unique hs hs'
    exact Option.mem_unique hget hget'
  · rw [← (he.free x hx).1, ht]

/-- The parts of a tuple that is a variable. A part whose name is bound is captured. -/
theorem grants_namedTuple {x : String} (ht : Γ.type? x = some t) (hts : t.underlying = .tuple ts)
    {us : List Ty} (hus : ∀ u ∈ us, u ∈ ts) {done : List SmtSort}
    (hparts : PartsSorted (Term.Accords d binders) parts done)
    (hrun : Ran (namedTuple env x parts us) d parts' d') :
    Grants Γ d d' (PartsSorted (Term.Accords d' binders) parts' (done ++ tupleSorts us)) := by
  induction us generalizing done parts d with
  | nil =>
    obtain ⟨rfl, rfl⟩ := ran_pure.mp hrun
    exact .none (hparts.congr fun s => by simp [mem_tupleSorts])
  | cons u us ih =>
    simp only [namedTuple, ran_bind, ran_orFail] at hrun
    obtain ⟨s, _, ⟨hs, rfl⟩, _, d₁, hdecl, hrun⟩ := hrun
    have hsymbol : Γ.Symbol x (partName x s) (.array s) := .part ht hts (hus u List.mem_cons_self) hs
    refine (grants_declareConst hΓ he (fun _ _ _ => .inr fun hplain => hplain.1 x s rfl)
      (fun _ => ⟨x, hsymbol⟩) hdecl).bind fun hd₁ hconst => ?_
    exact (ih (fun w hw => hus w (List.mem_cons_of_mem u hw)) ((hparts.later hd₁).insert hconst)
      hrun).mono fun _ hr => hr.tupleSorts_cons hs

end

theorem PartsSorted.allAccord (h : PartsSorted (Term.Accords d binders) parts ss) :
    ∀ {rs : List SmtSort}, (∀ s ∈ rs, s ∈ ss) →
      Term.AllAccord d binders (rs.map (Encoding.part parts)) (rs.map .array)
  | [], _ => rfl
  | s :: rs, hrs => ⟨.array s, rs.map .array, rfl, h.part (hrs s List.mem_cons_self),
      h.allAccord fun s' hs' => hrs s' (List.mem_cons_of_mem s hs')⟩

/-- Whether a value of a type has been encoded as a term that uses symbols as they are declared. -/
structure Encoded.Accords (binders : NameMap SmtSort) (t : Ty) (r : Encoded) (d : Declarations) :
    Prop where
  sort : t.sortOf = .ok r.sort
  term : r.term.Accords d binders r.sort

/-- Whether a tuple with elements of some types has been encoded. -/
structure EncodedTuple.Accords (binders : NameMap SmtSort) (ts : List Ty) (r : EncodedTuple)
    (d : Declarations) : Prop where
  elements : Ty.bareAll r.elements = ts
  parts : PartsSorted (Term.Accords d binders) r.parts (tupleSorts ts)

/-- Whether arguments of some types have been encoded. -/
structure EncodedArgs.Accords (binders : NameMap SmtSort) (ts : List Ty) (r : EncodedArgs)
    (d : Declarations) : Prop where
  sorts : r.sorts = ts.flatMap Ty.argumentSorts
  terms : Term.AllAccord d binders r.terms r.sorts

theorem Encoded.Accords.grow (h : r.Accords binders t d) (hd : d.Under d') :
    r.Accords binders t d' := ⟨h.sort, h.term.grow hd r.term⟩

theorem EncodedTuple.Accords.grow {r : EncodedTuple} (h : r.Accords binders ts d) (hd : d.Under d') :
    r.Accords binders ts d' :=
  ⟨h.elements, h.parts.later hd⟩

theorem EncodedArgs.Accords.grow {r : EncodedArgs} (h : r.Accords binders ts d) (hd : d.Under d') :
    r.Accords binders ts d' := ⟨h.sorts, h.terms.grow hd r.terms⟩

/-- The parts of the result of a call. -/
theorem grants_callParts {f : String} {g : Function} {as : EncodedArgs}
    (hg : Γ.function? f = some g) {done : List SmtSort}
    (has : as.Accords binders (Ty.bareAll (g.inputs.map Declaration.type)) d)
    (hparts : PartsSorted (Term.Accords d binders) parts done)
    (hrun : Ran (callParts f as parts ss) d parts' d') :
    Grants Γ d d' (PartsSorted (Term.Accords d' binders) parts' (done ++ ss)) := by
  induction ss generalizing done parts d with
  | nil =>
    obtain ⟨rfl, rfl⟩ := ran_pure.mp hrun
    exact .none ((List.append_nil done).symm ▸ hparts)
  | cons s ss ih =>
    simp only [callParts, ran_bind] at hrun
    obtain ⟨_, d₁, hdecl, hrun⟩ := hrun
    have hsig : Γ.Signature (partName (functionName f) s) ⟨as.sorts, .array s⟩ := by
      rw [has.sorts, g.argumentSorts_eq]
      exact .part s hg
    refine ((succeeds_define hsig).grants hdecl).bind fun hd₁ hdeclared => ?_
    have happ : (Term.app (partName (functionName f) s) as.terms).Accords d₁ binders (.array s) :=
      ⟨as.sorts, (has.grow hd₁).terms, .inr hdeclared⟩
    rw [List.append_cons]
    exact ih (has.grow hd₁) ((hparts.later hd₁).insert happ) hrun

/-- An element of a tuple is read from the part of its sort. -/
theorem EncodedTuple.Accords.element {r : EncodedTuple} (h : r.Accords binders ts d) {n : ℕ}
    {u : Ty} (ht : ts[n]? = some t) (hu : r.elements[n]? = some u) (hs : u.sortOf = .ok s)
    (cs : List Check) :
    Encoded.Accords binders t ⟨cs, .select (part r.parts s) (.int (Int64.ofNat n)), s⟩ d := by
  rw [← h.elements, Ty.getElem?_bareAll, hu] at ht
  obtain rfl := Option.some.inj ht
  have hmem : s ∈ tupleSorts ts := by
    rw [← h.elements, tupleSorts_bareAll]
    exact mem_tupleSorts.mpr ⟨u, List.mem_of_getElem? hu, hs⟩
  exact ⟨Ty.sortOf_bare.mpr hs, Term.composes_accords.select (h.parts.part hmem) rfl⟩

variable {fits : Bounds}

/-- The elements of a tuple are of the types that it is typed with. -/
theorem bareAll_of_typeOf {v : Value} {us : List Ty} (ht : v.typeOf env.scope = .ok t)
    (hts : t.underlying = .tuple ts) (hv : v.Typed fits env.scope (.tuple us)) : Ty.bareAll ts = us := by
  obtain ⟨t', ht', hbare⟩ := hv.typeOf v
  obtain rfl := ok_unique ht ht'
  rw [← Ty.bare_underlying, hts] at hbare
  exact Ty.tuple.inj hbare

/-! ### Encodings of well-typed nodes -/

/-- The elements of an array have a sort if the array has one. -/
theorem Encoded.Accords.array {n : ℕ} (h : r.Accords binders (.array t n) d) :
    ∃ s, r.sort = .array s ∧ t.sortOf = .ok s ∧ r.term.Accords d binders (.array s) := by
  obtain ⟨s, hs, ht⟩ := Ty.sortOf_array.mp h.sort
  exact ⟨s, hs, ht, hs ▸ h.term⟩

theorem Encoded.Accords.int (h : r.Accords binders .i32 d) : r.term.Accords d binders .int := by
  have hs : SmtSort.int = r.sort := Except.ok.inj h.sort
  exact hs ▸ h.term

theorem Encoded.Accords.bool (h : r.Accords binders .bool d) : r.term.Accords d binders .bool := by
  have hs : SmtSort.bool = r.sort := Except.ok.inj h.sort
  exact hs ▸ h.term

mutual

theorem grants_place (hΓ : Γ.Plain) {p env binders d d' r t} (h : RunPlace env p d r d')
    (he : env.Extends Γ binders) (hp : p.Typed fits env.scope t) :
    Grants Γ d d' (r.Accords binders t d') := by
  cases h with
  | name hu hs hdecl =>
    obtain ⟨u, hu', rfl⟩ := hp
    obtain rfl := Option.mem_unique hu hu'
    exact (grants_variable hΓ he hu hs hdecl).mono fun _ hconst => ⟨Ty.sortOf_bare.mpr hs, hconst⟩
  | array hu hunder hs hdecl hi =>
    obtain ⟨u, n, hu', hbare, -, hindex⟩ := hp
    obtain rfl := Option.mem_unique hu hu'
    obtain ⟨e, hunder', rfl⟩ := Ty.bare_eq_array hbare
    cases hunder.symm.trans hunder'
    refine (grants_variable hΓ he hu (Ty.sortOf_of_underlying_array hunder hs) hdecl).bind
      fun _ hconst => (grants_value hΓ hi he hindex).mono fun hd₂ hr => ?_
    exact ⟨Ty.sortOf_bare.mpr hs, Term.composes_accords.select (hconst.grow hd₂ _) hr.int⟩
  | tuple hu hts hparts hn hget hs =>
    obtain ⟨u, ts, n, hu', hbare, hn', ht⟩ := hp
    obtain rfl := Option.mem_unique hu hu'
    obtain rfl := Option.mem_unique hn hn'
    rw [← Ty.bare_underlying, hts] at hbare
    obtain rfl := Ty.tuple.inj hbare
    refine (grants_namedTuple hΓ he (he.tuple hu hts) hts (fun _ => id) .empty hparts).mono
      fun _ hparts => ?_
    exact EncodedTuple.Accords.element (r := ⟨[], _, _⟩) ⟨rfl, by rwa [tupleSorts_bareAll]⟩ ht hget hs []

/-- A value becomes a term of the sort of its type. -/
theorem grants_value (hΓ : Γ.Plain) {v env binders d d' r t} (h : RunValue env v d r d')
    (he : env.Extends Γ binders) (hv : v.Typed fits env.scope t) :
    Grants Γ d d' (r.Accords binders t d') := by
  cases h with
  | expr ha =>
    obtain ⟨rfl, hv⟩ := hv
    exact grants_expr hΓ ha he hv
  | formula hf =>
    obtain ⟨rfl, hv⟩ := hv
    exact grants_formula hΓ hf he hv
  | place hp => exact grants_place hΓ hp he hv
  | array hv' hvs' =>
    obtain ⟨u, rfl, -, hvs⟩ := hv
    obtain ⟨u', us, hus, hv, hvs⟩ := hvs
    obtain ⟨rfl, rfl⟩ := List.cons.inj hus
    refine (grants_value hΓ hv' he hv).bind fun _ hr => grants_elements hΓ hvs' he hvs ?_
    exact ⟨Ty.sortOf_array.mpr ⟨_, rfl, hr.sort⟩, rfl, hr.term⟩
  | call hg hs has hdecl =>
    obtain ⟨g, hg', rfl, hvs⟩ := hv
    obtain rfl := Option.mem_unique hg hg'
    refine (grants_args hΓ has he hvs).bind fun _ hargs => ?_
    have hsig : Γ.Signature _ _ := .self ((he.functions _).symm.trans hg) hs
    rw [← Function.argumentSorts_eq, ← hargs.sorts] at hsig
    refine ((succeeds_define hsig).grants hdecl).mono fun hd₂ hdeclared => ?_
    exact ⟨Ty.sortOf_bare.mpr hs, _, (hargs.grow hd₂).terms, .inr hdeclared⟩
  | ref hv' | deref hv' => exact grants_value hΓ hv' he hv
  | ite hc hv' hw hsort =>
    obtain ⟨hcond, hthen, helse⟩ := hv
    refine (grants_formula hΓ hc he hcond).bind fun _ hrc => ?_
    refine (grants_value hΓ hv' he hthen).bind fun hd₂ hrv => ?_
    refine (grants_value hΓ hw he helse).mono fun hd₃ hrw => ⟨hrv.sort, ?_⟩
    exact Term.composes_accords.ite (hrc.grow (hd₂.trans hd₃)).bool (hrv.grow hd₃).term (hsort ▸ hrw.term)
  | element hb hn hget hs =>
    obtain ⟨ts, n, hbase, hn', ht⟩ := hv
    obtain rfl := Option.mem_unique hn hn'
    exact (grants_tuple hΓ hb he hbase).mono fun _ hr => hr.element ht hget hs _
  | select ht hunder hb hi _ hs =>
    obtain ⟨n, hbase, -, hindex⟩ := hv
    refine (grants_value hΓ hb he hbase).bind fun _ hrb => ?_
    refine (grants_value hΓ hi he hindex).mono fun hd₂ hri => ?_
    obtain ⟨u, hu, hbare⟩ := hbase.typeOf _
    obtain rfl := ok_unique ht hu
    obtain ⟨e, hunder', rfl⟩ := Ty.bare_eq_array hbare
    cases hunder.symm.trans hunder'
    obtain ⟨s', -, hs', harray⟩ := hrb.array
    obtain rfl := ok_unique (Ty.sortOf_bare.mpr hs) hs'
    exact ⟨hs', Term.composes_accords.select (harray.grow hd₂ _) hri.int⟩
  | store hb hi _ he' =>
    obtain ⟨u, n, rfl, hbase, hindex, helem⟩ := hv
    refine (grants_value hΓ hb he hbase).bind fun _ hrb => ?_
    refine (grants_value hΓ hi he hindex).bind fun hd₂ hri => ?_
    refine (grants_value hΓ he' he helem).mono fun hd₃ hr => ⟨hrb.sort, ?_⟩
    obtain ⟨s, hsort, hs, harray⟩ := hrb.array
    obtain rfl := ok_unique hs hr.sort
    rw [hsort]
    exact Term.composes_accords.store (harray.grow (hd₂.trans hd₃) _) (hri.grow hd₃).int hr.term

theorem grants_elements (hΓ : Γ.Plain) {vs env binders array r s i n d d' t}
    (h : RunElements env array s i vs d r d') (he : env.Extends Γ binders)
    (hvs : Value.AllTyped fits env.scope vs (List.replicate vs.length t))
    (hr : array.Accords binders (.array t n) d) :
    Grants Γ d d' (r.Accords binders (.array t n) d') := by
  cases h with
  | nil => exact .none hr
  | cons hv _ hrest =>
    obtain ⟨u, us, hus, hv', htail⟩ := hvs
    obtain ⟨rfl, rfl⟩ := List.cons.inj hus
    refine (grants_value hΓ hv he hv').bind fun hd₁ hrv =>
      grants_elements hΓ hrest he htail ⟨hr.sort, ?_⟩
    obtain ⟨s', hs, hs', harray⟩ := hr.array
    obtain rfl := ok_unique hs' hrv.sort
    rw [hs]
    exact Term.composes_accords.store (harray.grow hd₁ _) rfl hrv.term

theorem grants_args (hΓ : Γ.Plain) {vs env binders d d' r ts} (h : RunArgs env vs d r d')
    (he : env.Extends Γ binders) (hvs : Value.AllTyped fits env.scope vs ts) :
    Grants Γ d d' (r.Accords binders ts d') := by
  cases h with
  | nil =>
    cases hvs
    exact .none ⟨rfl, rfl⟩
  | tuple ht hts hv has =>
    obtain ⟨t, ts, rfl, hv', htail⟩ := hvs
    obtain ⟨u, hu, rfl⟩ := hv'.typeOf _
    obtain rfl := ok_unique ht hu
    rw [← Ty.bare_underlying, hts, Ty.bare] at hv' ⊢
    refine (grants_tuple hΓ hv he hv').bind fun _ hr => ?_
    refine (grants_args hΓ has he htail).mono fun hd₂ hrest => ?_
    have helements := (congrArg tupleSorts hr.elements.symm).trans (tupleSorts_bareAll _)
    refine ⟨?_, ((hr.grow hd₂).parts.allAccord fun s hs => ?_).append hrest.terms⟩
    · rw [List.flatMap_cons, hrest.sorts, ← helements]
      rfl
    · rwa [helements]
  | value ht _ hv has =>
    obtain ⟨t, ts, rfl, hv', htail⟩ := hvs
    refine (grants_value hΓ hv he hv').bind fun _ hr => ?_
    refine (grants_args hΓ has he htail).mono fun hd₂ hrest => ?_
    have hkind : t.IsKind (.scalar _) := hr.sort
    refine ⟨?_, _, _, rfl, (hr.grow hd₂).term, hrest.terms⟩
    rw [List.flatMap_cons, hrest.sorts, hkind.argumentSorts]
    rfl

/-- A tuple becomes arrays of the sorts of its elements. -/
theorem grants_tuple (hΓ : Γ.Plain) {v env binders d d' r ts} (h : RunTuple env v d r d')
    (he : env.Extends Γ binders) (hv : v.Typed fits env.scope (.tuple ts)) :
    Grants Γ d d' (r.Accords binders ts d') := by
  cases h with
  | name hu hts hparts =>
    obtain ⟨u, hu', hbare⟩ := hv
    obtain rfl := Option.mem_unique hu hu'
    rw [← Ty.bare_underlying, hts] at hbare
    obtain rfl := Ty.tuple.inj hbare
    exact (grants_namedTuple hΓ he (he.tuple hu hts) hts (fun _ => id) .empty hparts).mono
      fun _ hparts => ⟨rfl, by rwa [tupleSorts_bareAll]⟩
  | literal ht hts hvs =>
    have helements := bareAll_of_typeOf ht hts hv
    obtain ⟨ts', hts', -, hvs'⟩ := hv
    obtain rfl := Ty.tuple.inj hts'
    exact (grants_literal hΓ hvs he hvs' .empty).mono fun _ hr => ⟨helements, hr⟩
  | ref _ _ hv' | deref _ _ hv' => exact grants_tuple hΓ hv' he hv
  | ite ht hts hc hv' hw =>
    have helements := bareAll_of_typeOf ht hts hv
    obtain ⟨hcond, hthen, helse⟩ := hv
    refine (grants_formula hΓ hc he hcond).bind fun _ hrc => ?_
    refine (grants_tuple hΓ hv' he hthen).bind fun hd₂ hrv => ?_
    refine (grants_tuple hΓ hw he helse).mono fun hd₃ hrw => ⟨helements, ?_⟩
    exact (hrv.grow hd₃).parts.choice Term.composes_accords (hrc.grow (hd₂.trans hd₃)).bool
      fun _ => hrw.parts.part
  | @store _ s _ _ _ _ _ _ _ n r _ _ _ ht hts hb hn _ he' =>
    have helements := bareAll_of_typeOf ht hts hv
    cases s with
    | array =>
      obtain ⟨u, n, heq, -⟩ := hv
      cases heq
    | tuple =>
      obtain ⟨ts', m, u, hts', hbase, hm, hget, helem⟩ := hv
      obtain rfl := Ty.tuple.inj hts'
      obtain rfl := Option.mem_unique hm hn
      refine (grants_tuple hΓ hb he hbase).bind fun _ hrb => ?_
      refine (grants_value hΓ he' he helem).mono fun hd₂ hr => ⟨helements, ?_⟩
      have hmem : r.sort ∈ tupleSorts ts := mem_tupleSorts.mpr ⟨u, List.mem_of_getElem? hget, hr.sort⟩
      have hstore := Term.composes_accords.store ((hrb.grow hd₂).parts.part hmem)
        (i := .int (Int64.ofNat m)) rfl hr.term
      exact ((hrb.grow hd₂).parts.insert hstore).congr fun s' => by simp +contextual [hmem]
  | call hg hts has hparts =>
    obtain ⟨g, hg', hbare, hvs⟩ := hv
    obtain rfl := Option.mem_unique hg hg'
    rw [← Ty.bare_underlying, hts] at hbare
    obtain rfl := Ty.tuple.inj hbare
    refine (grants_args hΓ has he hvs).bind fun _ hargs => ?_
    refine (grants_callParts ((he.functions _).symm.trans hg) hargs .empty hparts).mono
      fun _ hparts => ⟨rfl, by rwa [tupleSorts_bareAll]⟩

theorem grants_literal (hΓ : Γ.Plain) {vs env binders cs parts i d d' r ts done}
    (h : RunLiteral env cs parts i vs d r d') (he : env.Extends Γ binders)
    (hvs : Value.AllTyped fits env.scope vs ts)
    (hparts : PartsSorted (Term.Accords d binders) parts done) :
    Grants Γ d d' (PartsSorted (Term.Accords d' binders) r.2 (done ++ tupleSorts ts)) := by
  cases h with
  | nil =>
    cases hvs
    exact .none (hparts.congr fun s => by simp [mem_tupleSorts])
  | cons hv hrest =>
    obtain ⟨t, ts, rfl, hv', htail⟩ := hvs
    refine (grants_value hΓ hv he hv').bind fun hd₁ hr => ?_
    have hgrown := (hparts.later hd₁).literalPart (i := i) Term.composes_accords hr.term
    exact (grants_literal hΓ hrest he htail hgrown).mono fun _ hr' => hr'.tupleSorts_cons hr.sort

theorem grants_expr (hΓ : Γ.Plain) {a env binders d d' r t} (h : RunExpr env a d r d')
    (he : env.Extends Γ binders) (ha : a.Typed fits env.scope t) : Grants Γ d d' (r.Accords binders t d') := by
  cases h with
  | num =>
    cases ha
    exact .none ⟨rfl, rfl⟩
  | value hv => exact grants_value hΓ hv he ha
  | op hl _ hr =>
    obtain ⟨rfl, hleft, hright⟩ := ha
    refine (grants_expr hΓ hl he hleft).bind fun _ hra => ?_
    refine (grants_expr hΓ hr he hright).mono fun hd₂ hrb => ⟨rfl, ?_⟩
    exact Term.composes_accords.arithmetic _ (hra.grow hd₂).int hrb.int

/-- A formula becomes a truth value. -/
theorem grants_formula (hΓ : Γ.Plain) {f env binders d d' r} (h : RunFormula env f d r d')
    (he : env.Extends Γ binders) (hf : f.Typed fits env.scope) :
    Grants Γ d d' (r.Accords binders .bool d') := by
  cases h with
  | lit => exact .none ⟨rfl, rfl⟩
  | and hl hr | or hl hr =>
    refine (grants_formula hΓ hl he hf.1).bind fun _ hrf => ?_
    refine (grants_formula hΓ hr he hf.2).mono fun hd₂ hrg => ⟨rfl, ?_⟩
    exact Term.composes_accords.join (fun _ => rfl) (hrf.grow hd₂).bool hrg.bool
  | not hg => exact (grants_formula hΓ hg he hf).mono fun _ hr => ⟨rfl, Term.composes_accords.not hr.bool⟩
  | value hv => exact grants_value hΓ hv he hf
  | equal hl hr hsort =>
    obtain ⟨t, -, ha, hb⟩ := hf
    refine (grants_expr hΓ hl he ha).bind fun _ hra => ?_
    refine (grants_expr hΓ hr he hb).mono fun hd₂ hrb => ⟨rfl, ?_⟩
    exact Term.composes_accords.eq (hra.grow hd₂).term (hsort ▸ hrb.term)
  | compare hl hr hsort ht' =>
    obtain ⟨t, -, ha, hb⟩ := hf
    refine (grants_expr hΓ hl he ha).bind fun _ hra => ?_
    refine (grants_expr hΓ hr he hb).mono fun hd₂ hrb => ⟨rfl, ?_⟩
    exact Term.composes_accords.order ht' (hra.grow hd₂).term (hsort ▸ hrb.term)
  | quant hs hbody =>
    exact (grants_formula hΓ hbody (he.bind _ hs) hf).mono fun _ hr => ⟨rfl, rfl, hr.bool⟩

end

end Encoding

/-! ### Queries -/

/-- Names that agree with a scope are declared once. -/
theorem Declarations.Agrees.nodup {d : Declarations} {Γ : Scope} (h : d.Agrees Γ) (hΓ : Γ.Plain) :
    (d.consts.names ++ d.funs.names).Nodup := by
  refine List.nodup_append.mpr ⟨h.sorted.1.nodup, h.sorted.2.nodup, fun x hx y hy hxy => ?_⟩
  subst hxy
  obtain ⟨s, hs⟩ := (NameMap.mem_names_iff _ x).mp hx
  obtain ⟨sig, hsig⟩ := (NameMap.mem_names_iff _ x).mp hy
  rw [h.apart hΓ hs] at hsig
  cases hsig

end Verdict
