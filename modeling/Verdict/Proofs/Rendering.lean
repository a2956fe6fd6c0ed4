import Verdict.Proofs.Representation

/-! # Encoding keeps the meaning

A model renders a valuation if its constants represent the values of the variables, and its functions
the results of calls. In such a model the encoding of a well-typed value denotes what represents the
value, and that of a formula is true if and only if the formula is.

The induction is along the rules of the encoder. A binder changes the constant of its name in the model, so it must
not have the name of a part of a tuple or of a function, which are constants of the solver only. -/

namespace Verdict

/-! ### Bound variables -/

mutual

/-- The variables that are bound in a place. -/
def Place.binders : Place → List String
  | .name _ _ | .wildcard _ => []
  | .elem _ _ i _ => i.binders

def Value.binders : Value → List String
  | .expr e _ => e.binders
  | .formula f _ => f.binders
  | .place p _ => p.binders
  | .tuple vs _ | .array vs _ | .call _ vs _ => Value.bindersAll vs
  | .ref v _ _ | .deref v _ => v.binders
  | .unit _ | .missing => []
  | .ite c t e _ => c.binders ++ t.binders ++ e.binders
  | .select _ b i _ => b.binders ++ i.binders
  | .store _ b i e _ => b.binders ++ i.binders ++ e.binders

def Value.bindersAll : List Value → List String
  | [] => []
  | v :: vs => v.binders ++ Value.bindersAll vs

def Expr.binders : Expr → List String
  | .num _ => []
  | .value v => v.binders
  | .op _ a b => a.binders ++ b.binders

def Formula.binders : Formula → List String
  | .lit _ => []
  | .and f g | .or f g => f.binders ++ g.binders
  | .not f => f.binders
  | .value v => v.binders
  | .equal a b | .compare _ a b => a.binders ++ b.binders
  | .quant _ x _ f => x :: f.binders

end

/-- Whether bound variables are spared: none of them is one of the names that are spoken for. -/
def Spares (own : String → Prop) (bs : List String) : Prop := ∀ x ∈ bs, ¬ own x

namespace Spares

variable {own : String → Prop} {x : String} {as bs : List String}

theorem left (h : Spares own (as ++ bs)) : Spares own as := (List.forall_mem_append.mp h).1

theorem right (h : Spares own (as ++ bs)) : Spares own bs := (List.forall_mem_append.mp h).2

theorem head (h : Spares own (x :: bs)) : ¬ own x := h x List.mem_cons_self

theorem tail (h : Spares own (x :: bs)) : Spares own bs := List.forall_mem_of_forall_mem_cons h

end Spares

/-! ### Models that render valuations -/

open Encoding

def Function.inputTypes (f : Function) : List Ty := Ty.bareAll (f.inputs.map Declaration.type)

/-- Whether all elements of the tuples that are passed to a function have a sort. -/
def Function.PassesSorts (f : Function) : Prop :=
  ∀ t ∈ f.inputTypes, ∀ us, t = .tuple us → ∀ u ∈ us, ∃ s, u.sortOf = .ok s

/-- The interpretation in which a literal array holds its first element outside its positions. -/
def Interp.total (call : String → List Val → Val) (byZero : Operator → ℤ → ℤ) : Interp :=
  ⟨call, byZero, fun vs => vs.headD .unit⟩

/-- What a query can be about: all arrays, and literals whose positions are words. -/
def Bounds.queries : Bounds := ⟨fun _ => True, fun n => n ≤ 2 ^ 63, fun _ => True⟩

structure SmtModel.RendersCall (M : SmtModel) (I : Interp) (g : Function) : Prop where
  scalar : ∀ ds s, Ty.HasAll g.inputTypes (readArgs g.inputTypes ds) → g.output.sortOf = .ok s →
    g.output.Represents (I.call g.name (readArgs g.inputTypes ds)) (M.apply (functionName g.name) ds)
  tuple : ∀ ds ts, Ty.HasAll g.inputTypes (readArgs g.inputTypes ds) →
    g.output.underlying = .tuple ts → PartsRepresent ts (I.call g.name (readArgs g.inputTypes ds))
      fun s => M.apply (partName (functionName g.name) s) ds

/-- Whether a model renders some variables of a scope and all its functions. The names `own` are
those of the solver. -/
structure SmtModel.Renders (M : SmtModel) (I : Interp) (ρ : Valuation) (Γ : Scope)
    (own : String → Prop) (xs : Names) : Prop where
  byZero : M.byZero = I.byZero
  outside : I.outside = fun vs => vs.headD .unit
  var : ∀ x ∈ xs.members, ∀ t s, Γ.type? x = some t → t.sortOf = .ok s →
    t.Represents (ρ x) (M.const x)
  tuple : ∀ x ∈ xs.members, ∀ t ts, Γ.type? x = some t → t.underlying = .tuple ts →
    (∀ u ∈ ts, ∀ s, u.sortOf = .ok s → own (partName x s)) ∧
      PartsRepresent ts (ρ x) fun s => M.const (partName x s)
  call : ∀ f g, Γ.function? f = some g → g.PassesSorts ∧ own (functionName f) ∧
    (∀ s, own (partName (functionName f) s)) ∧ M.RendersCall I g

variable {f x : String}

theorem Scope.name_of_function? {Γ : Scope} {g : Function} (h : Γ.function? f = some g) :
    g.name = f := by
  simpa using List.find?_some h

theorem SmtModel.apply_bind_of_ne (M : SmtModel) (d : Datum) (hf : '\'' ∈ f.toList) (h : f ≠ x)
    (ds : List Datum) : (M.bind x d).apply f ds = M.apply f ds := by
  rw [apply_of_prime _ hf, apply_of_prime _ hf, const_bind_of_ne M d h, fn_bind]

theorem PartsRepresent.congr {parts parts' : SmtSort → Datum} {ts v} (h : PartsRepresent ts v parts)
    (hparts : ∀ t ∈ ts, ∀ s, t.sortOf = .ok s → parts' s = parts s) :
    PartsRepresent ts v parts' := by
  obtain ⟨vs, rfl, hlen, h⟩ := h
  refine ⟨vs, rfl, hlen, fun i t w s ht hw hs => ?_⟩
  rw [hparts t (List.mem_of_getElem? ht) s hs]
  exact h i t w s ht hw hs

theorem PartsRepresent.exists_array {parts : SmtSort → Datum} {ts v} (h : PartsRepresent ts v parts)
    {t : Ty} (ht : t ∈ ts) {s : SmtSort} (hs : t.sortOf = .ok s) : ∃ f, parts s = .array f := by
  obtain ⟨vs, rfl, hlen, h⟩ := h
  obtain ⟨i, hi, rfl⟩ := List.mem_iff_getElem.mp ht
  obtain ⟨f, hf, -⟩ := h i ts[i] (vs.get ⟨i, by omega⟩) s (by simp) (by simp) hs
  exact ⟨f, hf⟩

namespace SmtModel.Renders

variable {M : SmtModel} {I : Interp} {ρ : Valuation} {Γ : Scope} {own : String → Prop} {xs ys : Names}

theorem mono (h : M.Renders I ρ Γ own xs) (hsub : ∀ x ∈ ys.members, x ∈ xs.members) :
    M.Renders I ρ Γ own ys :=
  ⟨h.byZero, h.outside, fun x hx => h.var x (hsub x hx), fun x hx => h.tuple x (hsub x hx), h.call⟩

theorem left (h : M.Renders I ρ Γ own (xs.union ys)) : M.Renders I ρ Γ own xs :=
  h.mono fun x hx => by simp [hx]

theorem right (h : M.Renders I ρ Γ own (xs.union ys)) : M.Renders I ρ Γ own ys :=
  h.mono fun x hx => by simp [hx]

/-- A binder renders a value that its variable ranges over. -/
theorem bind {t : Ty} {s : SmtSort} {v : Val} {d : Datum} (h : M.Renders I ρ Γ own (xs.erase x))
    (hx : ¬ own x) (hs : t.sortOf = .ok s) (hrep : t.Represents v d) :
    (M.bind x d).Renders I (Function.update ρ x v) (Γ.declare x t) own xs := by
  have hne : ∀ n, own n → n ≠ x := fun n hn hnx => hx (hnx ▸ hn)
  refine ⟨h.byZero, h.outside, fun y hy u s' hu hs' => ?_, fun y hy u ts hu hts => ?_, fun f g hg => ?_⟩
  · rw [Scope.type?_declare] at hu
    split_ifs at hu with hxy
    · obtain rfl := Option.some_inj.mp hu
      subst hxy
      rw [Function.update_self, const_bind_self]
      exact hrep
    · rw [Function.update_of_ne (Ne.symm hxy), const_bind_of_ne M d (Ne.symm hxy)]
      exact h.var y (by simp [hy, Ne.symm hxy]) u s' hu hs'
  · rw [Scope.type?_declare] at hu
    split_ifs at hu with hxy
    · obtain rfl := Option.some_inj.mp hu
      exact absurd hs (Ty.sortOf_of_underlying_tuple hts s)
    · obtain ⟨hown, hparts⟩ := h.tuple y (by simp [hy, Ne.symm hxy]) u ts hu hts
      rw [Function.update_of_ne (Ne.symm hxy)]
      exact ⟨hown, hparts.congr fun u' hu' s' hs' =>
        const_bind_of_ne M d (hne _ (hown u' hu' s' hs'))⟩
  · obtain ⟨hpass, hf, hparts, hcall⟩ := h.call f g hg
    obtain rfl := Scope.name_of_function? hg
    refine ⟨hpass, hf, hparts, fun ds s' hds hs' => ?_, fun ds ts hds hts => ?_⟩
    · rw [apply_bind_of_ne M d (prime_mem_functionName _) (hne _ hf)]
      exact hcall.scalar ds s' hds hs'
    · refine (hcall.tuple ds ts hds hts).congr fun u hu s' hs' => ?_
      exact apply_bind_of_ne M d (prime_mem_partName _ _) (hne _ (hparts s')) ds

end SmtModel.Renders

/-! ### Steps of the encoder -/

namespace Encoding

variable {d d' : Declarations}
variable {M : SmtModel} {t : Ty} {parts : NameMap Term} {r : Encoded} {ts : List Ty} {w v : Val} {n : ℕ}
variable {Γ : Scope} {s : SmtSort}

theorem toInt_ofNat (h : n < 2 ^ 63) : (Int64.ofNat n).toInt = n :=
  Int64.toInt_ofNat_of_lt h

theorem lt_of_constantIndex {v : Value} (h : v.constantIndex? = some n) : n < 2 ^ 31 := by
  induction v, h using Value.constantIndex_induction with
  | literal k _ _ hk =>
    have := k.toInt_lt
    omega
  | ref _ _ _ _ ih | deref _ _ _ ih => exact ih

/-- The parts of a named tuple are the constants of their names. -/
theorem Ran.namedTuple {env : Env} : ∀ {ts : List Ty} {parts parts' : NameMap Term}
    {d d' : Declarations}, Ran (namedTuple env x parts ts) d parts' d' → ∀ s,
      (parts.get? s.tag = some (.const (partName x s)) ∨ ∃ t ∈ ts, t.sortOf = .ok s) →
        parts'.get? s.tag = some (.const (partName x s))
  | [], parts, parts', d, d', h, s, hs => by
    obtain ⟨rfl, -⟩ := ran_pure.mp h
    simpa using hs
  | t :: ts, parts, parts', d, d', h, s, hs => by
    simp only [Encoding.namedTuple, ran_bind, ran_orFail] at h
    obtain ⟨s', _, ⟨hs', -⟩, _, _, -, h⟩ := h
    refine h.namedTuple s ?_
    rw [NameMap.get?_insert]
    by_cases htag : s'.tag = s.tag
    · rw [if_pos htag, tag_injective htag]
      exact .inl rfl
    · rw [if_neg htag]
      rcases hs with hs | ⟨u, hu, hus⟩
      · exact .inl hs
      · rcases List.mem_cons.mp hu with rfl | hu
        · rw [hus] at hs'
          exact absurd (congrArg SmtSort.tag (Except.ok.inj hs')) (Ne.symm htag)
        · exact .inr ⟨u, hu, hus⟩

/-- The parts of the result of a call are applications. -/
theorem Ran.callParts {as : EncodedArgs} : ∀ {ss : List SmtSort}
    {parts parts' : NameMap Term} {d d' : Declarations}, Ran (callParts f as parts ss) d parts' d' →
      ∀ s, (parts.get? s.tag = some (.app (partName (functionName f) s) as.terms) ∨ s ∈ ss) →
        parts'.get? s.tag = some (.app (partName (functionName f) s) as.terms)
  | [], parts, parts', d, d', h, s, hs => by
    obtain ⟨rfl, -⟩ := ran_pure.mp h
    simpa using hs
  | s' :: ss, parts, parts', d, d', h, s, hs => by
    simp only [Encoding.callParts, ran_bind] at h
    obtain ⟨_, _, -, h⟩ := h
    refine h.callParts s ?_
    rw [NameMap.get?_insert]
    by_cases htag : s'.tag = s.tag
    · rw [if_pos htag, tag_injective htag]
      exact .inl rfl
    · rw [if_neg htag]
      rcases hs with hs | hs
      · exact .inl hs
      · exact .inr ((List.mem_cons.mp hs).resolve_left fun h => htag (h ▸ rfl))

/-! ### Sorts of encodings -/

variable {fits : Bounds} {env : Env}

theorem exists_of_map {ε α β : Type} {r : Except ε α} {f : α → β} {b : β} (h : r.map f = .ok b) :
    ∃ a, r = .ok a ∧ b = f a := by
  cases r with
  | error e => cases h
  | ok a => exact ⟨a, rfl, (Except.ok.inj h).symm⟩

theorem sort_formula {f : Formula} (h : RunFormula env f d r d') : r.sort = .bool := by
  cases h with
  | value _ hsort => exact hsort
  | _ => rfl

theorem sort_elements {vs array r s i d d'} (h : RunElements env array s i vs d r d') :
    r.sort = array.sort :=
  match h with
  | .nil => rfl
  | .cons _ _ hvs => (sort_elements hvs :)

theorem sortOf_place {p : Place} (h : RunPlace env p d r d') (ht : p.typeOf env.scope = .ok t) :
    t.sortOf = .ok r.sort := by
  cases h with
  | name hu hs =>
    simp only [Place.typeOf, hu] at ht
    obtain rfl := Except.ok.inj ht
    exact hs
  | array hu he hs =>
    simp only [Place.typeOf, hu, Ty.elementType, he] at ht
    obtain rfl := Except.ok.inj ht
    exact hs
  | tuple hu hts _ hn he hs =>
    simp only [Place.typeOf, hu, Ty.elementType, hts, hn, he] at ht
    obtain rfl := Except.ok.inj ht
    exact hs

theorem underlying_deref (t : Ty) : t.deref.underlying = t.underlying := by cases t <;> rfl

/-- The elements of the encoding of a tuple are those of its type. -/
theorem underlying_tuple {t : Ty} {v r d d'} (h : RunTuple env v d r d')
    (ht : v.typeOf env.scope = .ok t) : t.underlying = .tuple r.elements :=
  match h, ht with
  | .name hu hts _, ht => by
    simp only [Value.typeOf, Place.typeOf, hu] at ht
    exact Except.ok.inj ht ▸ hts
  | .literal hu hts _, ht | .ite hu hts _ _ _, ht | .store hu hts _ _ _ _, ht =>
    ok_unique hu ht ▸ hts
  | .ref _ _ hv, ht => by
    obtain ⟨u, hu, rfl⟩ := exists_of_map ht
    exact (underlying_tuple hv hu :)
  | .deref _ _ hv, ht => by
    obtain ⟨u, hu, rfl⟩ := exists_of_map ht
    exact (underlying_deref u).trans (underlying_tuple hv hu)
  | .call hg hts _ _, ht => by
    simp only [Value.typeOf, hg] at ht
    exact Except.ok.inj ht ▸ hts

/-- The encoding of a value that is not a tuple has the sort of its type. -/
theorem sortOf_value {t : Ty} {v r d d'} (h : RunValue env v d r d')
    (ht : v.typeOf env.scope = .ok t) : t.sortOf = .ok r.sort :=
  match h, ht with
  | .expr _ hint, ht => by
    obtain rfl := Except.ok.inj ht
    rw [hint]
    rfl
  | .formula hf, ht => by
    obtain rfl := Except.ok.inj ht
    rw [sort_formula hf]
    rfl
  | .place hp, ht => sortOf_place hp ht
  | .array hv hvs, ht => by
    obtain ⟨u, hu, rfl⟩ := exists_of_map ht
    rw [sort_elements hvs]
    exact Ty.sortOf_array.mpr ⟨_, rfl, sortOf_value hv hu⟩
  | .call hg hs _ _, ht => by
    simp only [Value.typeOf, hg] at ht
    exact Except.ok.inj ht ▸ hs
  | .ref hv, ht => by
    obtain ⟨u, hu, rfl⟩ := exists_of_map ht
    exact Ty.sortOf_ref.mpr (sortOf_value hv hu)
  | .deref hv, ht => by
    obtain ⟨u, hu, rfl⟩ := exists_of_map ht
    have hsort := sortOf_value hv hu
    cases u with
    | ref u m => exact Ty.sortOf_ref.mp hsort
    | _ => exact hsort
  | .ite _ hv _ _, ht => (sortOf_value hv ht :)
  | .element hb hn he hs, ht => by
    obtain ⟨u, hu, ht⟩ := Value.typeOf_select.mp ht
    simp only [Ty.elementType, underlying_tuple hb hu, hn, he] at ht
    exact Except.ok.inj ht ▸ hs
  | .select hu he _ _ _ hs, ht => by
    obtain ⟨u, hu', ht⟩ := Value.typeOf_select.mp ht
    obtain rfl := ok_unique hu hu'
    simp only [Ty.elementType, he] at ht
    exact Except.ok.inj ht ▸ hs
  | .store hb _ _ _, ht => (sortOf_value hb ht :)

theorem elements_tuple {v r} (h : RunTuple env v d r d') (hΓ : env.Knows Γ)
    (ht : v.Typed fits Γ (.tuple ts)) : Ty.bareAll r.elements = ts := by
  obtain ⟨u, hu, hbare⟩ := (ht.extend v (hΓ.extends _)).typeOf v
  obtain ⟨us, hus, rfl⟩ := Ty.bare_eq_tuple hbare
  rw [Ty.tuple.inj ((underlying_tuple h hu).symm.trans hus)]

theorem sort_value {v : Value} (h : RunValue env v d r d') (hΓ : env.Knows Γ) (ht : v.Typed fits Γ t) :
    t.sortOf = .ok r.sort := by
  obtain ⟨u, hu, rfl⟩ := (ht.extend v (hΓ.extends _)).typeOf v
  exact Ty.sortOf_bare.mpr (sortOf_value h hu)

theorem sort_expr {e : Expr} (h : RunExpr env e d r d') (hΓ : env.Knows Γ) (ht : e.Typed fits Γ t) :
    t.sortOf = .ok r.sort := by
  cases h with
  | num =>
    obtain rfl : t = .i32 := ht
    rfl
  | value hv => exact sort_value hv hΓ ht
  | op =>
    obtain ⟨rfl, -⟩ := ht
    rfl

/-! ### Elements and arguments -/

/-- What a literal array holds at a position. -/
def literalAt (ws : List Val) (j : ℤ) : Val :=
  if 0 ≤ j then (ws[j.toNat]?).getD (ws.headD .unit) else ws.headD .unit

theorem literalAt_concat {ws : List Val} (hne : ws ≠ []) (w : Val) (j : ℤ) :
    literalAt (ws ++ [w]) j = if j = ws.length then w else literalAt ws j := by
  have hhead : (ws ++ [w]).headD .unit = ws.headD .unit := by cases ws <;> simp_all
  unfold literalAt
  rw [hhead]
  by_cases hj : 0 ≤ j
  · rw [if_pos hj, if_pos hj]
    lift j to ℕ using hj
    simp only [Int.toNat_natCast, Nat.cast_inj]
    split_ifs with h
    · subst h
      simp
    · rcases Nat.lt_or_ge j ws.length with hlt | hge
      · rw [List.getElem?_append_left hlt]
      · rw [List.getElem?_eq_none (by simp; omega), List.getElem?_eq_none hge]
  · rw [if_neg hj, if_neg hj, if_neg (by omega)]

theorem literal_eq {I : Interp} (hI : I.outside = fun vs => vs.headD .unit) (ws : List Val) :
    I.literal ws = .array ws.length (literalAt ws) := by
  unfold Interp.literal literalAt
  rw [hI]

/-- One more element of a literal array. -/
theorem represents_store {u : Ty} {ws : List Val} {g : ℤ → Datum} {d : Datum} (hne : ws ≠ [])
    (h : ∀ j, u.Represents (literalAt ws j) (g j)) (hw : u.Represents w d) (j : ℤ) :
    u.Represents (literalAt (ws ++ [w]) j) (Function.update g ws.length d j) := by
  rw [literalAt_concat hne]
  split_ifs with hj
  · subst hj
    rwa [Function.update_self]
  · rw [Function.update_of_ne hj]
    exact h j

/-- Whether all parts of a tuple denote arrays. -/
def Arrays (M : SmtModel) (parts : NameMap Term) : Prop :=
  ∀ x p, parts.get? x = some p → ∃ f, p.eval M = .array f

theorem Arrays.literalPart (h : Arrays M parts) (i : ℕ) (r : Encoded) : Arrays M (literalPart parts i r) := by
  intro x p hp
  unfold Encoding.literalPart at hp
  rw [NameMap.get?_insert] at hp
  split_ifs at hp
  · obtain rfl := Option.some_inj.mp hp
    split
    · next p' hp' =>
      obtain ⟨f, hf⟩ := h _ p' hp'
      exact ⟨_, by rw [Term.eval_store, hf, Datum.put]⟩
    · exact ⟨_, by rw [Term.eval]⟩
  · exact h x p hp

/-- One more element of a literal tuple. -/
theorem partsRepresent_literalPart {vs : List Val} (harrays : Arrays M parts)
    (h : PartsRepresent ts (.tuple vs) fun s => (part parts s).eval M) (hsort : t.sortOf = .ok r.sort)
    (hw : t.Represents w (r.term.eval M)) (hlen : vs.length < 2 ^ 63) :
    PartsRepresent (ts ++ [t]) (.tuple (vs ++ [w]))
      fun s => (part (literalPart parts vs.length r) s).eval M := by
  obtain ⟨vs', hvs, hlen', h⟩ := h
  obtain rfl := Val.tuple.inj hvs
  refine ⟨_, rfl, by simp [hlen'], fun i u v s hu hv hs => ?_⟩
  have hpart : ∀ s, part (literalPart parts vs.length r) s = if r.sort = s then
      (parts.get? s.tag).elim (.constArray s r.term) fun p =>
        .store p (.int (Int64.ofNat vs.length)) r.term
      else part parts s := by
    intro s
    unfold part literalPart
    rw [NameMap.get?_insert]
    by_cases hrs : r.sort = s
    · subst hrs
      rw [if_pos rfl, if_pos rfl]
      cases parts.get? r.sort.tag <;> rfl
    · rw [if_neg hrs, if_neg fun htag => hrs (tag_injective htag)]
  simp only [hpart]
  rcases Nat.lt_trichotomy i vs.length with hi | rfl | hi
  · -- An earlier element stays where it is.
    rw [List.getElem?_append_left (by omega)] at hu
    rw [List.getElem?_append_left hi] at hv
    obtain ⟨f, hf, hrep⟩ := h i u v s hu hv hs
    split_ifs with hrs
    · rcases hp : parts.get? s.tag with _ | p
      · simp [part, hp, Term.eval] at hf
      · have hp' : p.eval M = .array f := by simpa [part, hp] using hf
        refine ⟨Function.update f vs.length (r.term.eval M), ?_, ?_⟩
        · simp only [Option.elim, Term.eval_store, hp', Term.eval, Datum.toInt, toInt_ofNat hlen, Datum.put]
        · rw [Function.update_of_ne (by omega)]
          exact hrep
    · exact ⟨f, hf, hrep⟩
  · rw [hlen', List.getElem?_concat_length] at hu
    rw [List.getElem?_concat_length] at hv
    obtain rfl := Option.some_inj.mp hu
    obtain rfl := Option.some_inj.mp hv
    obtain rfl := ok_unique hsort hs
    rw [if_pos rfl]
    rcases hp : parts.get? r.sort.tag with _ | p
    · exact ⟨fun _ => r.term.eval M, by simp only [Option.elim, Term.eval], hw⟩
    · obtain ⟨f, hf⟩ := harrays _ p hp
      refine ⟨Function.update f vs.length (r.term.eval M), ?_, ?_⟩
      · simp only [Option.elim, Term.eval_store, hf, Term.eval, Datum.toInt, toInt_ofNat hlen, Datum.put]
      · rwa [Function.update_self]
  · rw [List.getElem?_eq_none (by simp; omega)] at hv
    cases hv

/-- An element of a tuple is read from the part of its sort. -/
theorem represents_element {i : Value} {e : Ty} (hn : i.constantIndex? = some n) (he : ts[n]? = some e)
    (hs : e.sortOf = .ok s) (hx : PartsRepresent (Ty.bareAll ts) v fun s => (part parts s).eval M)
    (ht : (Ty.bareAll ts)[n]? = some t) :
    t.Represents (v.get n) ((Term.select (part parts s) (.int (Int64.ofNat n))).eval M) := by
  obtain rfl : e.bare = t := by simpa [Ty.getElem?_bareAll, he] using ht
  obtain ⟨vs, rfl, hlen, hvs⟩ := hx
  have hlt : n < vs.length := hlen ▸ (List.getElem?_eq_some_iff.mp ht).1
  have hw : vs[n]? = some (vs.get ⟨n, hlt⟩) := by simp
  obtain ⟨f, hf, hrep⟩ := hvs n e.bare _ s ht hw (Ty.sortOf_bare.mpr hs)
  have hword := toInt_ofNat (n := n) (by have := lt_of_constantIndex hn; omega)
  simpa only [Term.eval_select, hf, Term.eval, Datum.toInt, hword, Datum.get, Val.get,
    Int.natCast_nonneg, if_true, Int.toNat_natCast, hw, Option.getD_some] using hrep

/-- A tuple of a name is represented by the constants for its parts. -/
theorem represents_namedTuple (h : Ran (namedTuple env x .empty ts) d parts d')
    (hx : PartsRepresent ts v fun s => M.const (partName x s)) :
    PartsRepresent (Ty.bareAll ts) v fun s => (part parts s).eval M := by
  refine (hx.congr fun t ht s hs => ?_).bareAll
  simp only [part, h.namedTuple s (.inr ⟨t, ht, hs⟩), Option.getD_some, Term.eval]

/-- A part that denotes an array is there. -/
theorem get?_of_part {f : ℤ → Datum} (h : (part parts s).eval M = .array f) :
    ∃ p, parts.get? s.tag = some p ∧ part parts s = p := by
  rcases hp : parts.get? s.tag with _ | p
  · simp [part, hp, Term.eval] at h
  · exact ⟨p, rfl, by simp [part, hp]⟩

open Classical in
/-- The parts of a conditional tuple are conditionals. -/
theorem partsRepresent_ite {c : Term} {p : Prop} {parts' : NameMap Term} (hc : c.Decides M p)
    (hv : PartsRepresent ts v fun s => (part parts s).eval M)
    (hw : PartsRepresent ts w fun s => (part parts' s).eval M) :
    PartsRepresent ts (if p then v else w) fun s => (part (parts.map fun tag q =>
      .ite c q ((parts'.get? tag).getD .absent)) s).eval M := by
  have hpart : ∀ t ∈ ts, ∀ s, t.sortOf = .ok s → (part (parts.map fun tag q =>
      .ite c q ((parts'.get? tag).getD .absent)) s).eval M =
        if p then (part parts s).eval M else (part parts' s).eval M := by
    intro t ht s hs
    obtain ⟨f, hf⟩ := hv.exists_array ht hs
    obtain ⟨q, hq, hq'⟩ := get?_of_part hf
    rw [hq', part, NameMap.get?_map, hq, Option.map_some, Option.getD_some, hc.eval_ite]
    rfl
  split_ifs with h
  · exact hv.congr fun t ht s hs => by rw [hpart t ht s hs, if_pos h]
  · exact hw.congr fun t ht s hs => by rw [hpart t ht s hs, if_neg h]

/-- Replacing an element of a tuple changes the part of its sort. -/
theorem partsRepresent_store (hv : PartsRepresent ts v fun s => (part parts s).eval M) (ht : ts[n]? = some t)
    (hn : n < 2 ^ 63) (hsort : t.sortOf = .ok r.sort) (hw : t.Represents w (r.term.eval M)) :
    PartsRepresent ts (v.put n w) fun s => (part (parts.insert r.sort.tag
      (.store (part parts r.sort) (.int (Int64.ofNat n)) r.term)) s).eval M := by
  obtain ⟨g, hg⟩ := hv.exists_array (List.mem_of_getElem? ht) hsort
  have hpart : ∀ s, (part (parts.insert r.sort.tag
      (.store (part parts r.sort) (.int (Int64.ofNat n)) r.term)) s).eval M =
        if r.sort = s then .array (Function.update g n (r.term.eval M)) else (part parts s).eval M := by
    intro s
    rw [part, NameMap.get?_insert]
    by_cases hs : r.sort = s
    · rw [if_pos hs, if_pos (hs ▸ rfl), Option.getD_some, Term.eval_store, hg]
      simp only [Term.eval, Datum.toInt, toInt_ofNat hn, Datum.put]
    · rw [if_neg hs, if_neg fun htag => hs (tag_injective htag)]
      rfl
  obtain ⟨vs, rfl, hlen, h⟩ := hv
  refine ⟨vs.set n w, by simp [Val.put], by simpa using hlen, fun i u y s hu hy hs => ?_⟩
  simp only [hpart]
  rw [List.getElem?_set] at hy
  by_cases hni : n = i
  · subst hni
    obtain rfl := Option.mem_unique ht hu
    obtain rfl := ok_unique hsort hs
    have hlt : n < vs.length := hlen ▸ (List.getElem?_eq_some_iff.mp ht).1
    simp only [hlt, if_true, Option.some.injEq] at hy
    subst hy
    exact ⟨_, if_pos rfl, by rwa [Function.update_self]⟩
  · rw [if_neg hni] at hy
    obtain ⟨f, hf, hrep⟩ := h i u y s hu hy hs
    by_cases hrs : r.sort = s
    · subst hrs
      obtain rfl := Datum.array.inj (hg.symm.trans hf)
      exact ⟨_, if_pos rfl, by rwa [Function.update_of_ne (by omega)]⟩
    · exact ⟨f, (if_neg hrs).trans hf, hrep⟩

/-- The order of values of a sort is that of the terms that represent them. -/
theorem decides_orderTerm {c : Comparison} {a b r : Term} (h : orderTerm c s a b = some r)
    (ht : t = .bool ∨ t = .i32) (hs : t.sortOf = .ok s) (hv : t.Represents v (a.eval M))
    (hw : t.Represents w (b.eval M)) : r.Decides M (c.Holds v w) := by
  rcases ht with rfl | rfl
  · obtain rfl := Except.ok.inj hs
    obtain ⟨p, rfl, ha⟩ := hv
    obtain ⟨q, rfl, hb⟩ := hw
    have ha : a.Decides M (p = true) := ⟨p, ha, Iff.rfl⟩
    have hb : b.Decides M (q = true) := ⟨q, hb, Iff.rfl⟩
    cases c <;> obtain rfl := Option.some_inj.mp h
    · exact hb.implies ha
    · exact ha.implies hb
    · exact (ha.and hb.not).congr (by simp [Comparison.Holds, Val.Lt, and_comm])
    · exact (ha.not.and hb).congr (by simp [Comparison.Holds, Val.Lt])
  · obtain rfl := Except.ok.inj hs
    obtain ⟨n, rfl, ha⟩ := hv
    obtain ⟨m, rfl, hb⟩ := hw
    obtain rfl := Option.some_inj.mp h
    have heval : ∀ f, (Term.app f [a, b]).eval M = M.apply f [.int n, .int m] := by
      intro f
      rw [Term.eval, Term.evalAll, Term.evalAll, Term.evalAll, ha, hb]
    cases c <;> exact ⟨_, heval _, decide_eq_true_iff⟩

/-- An operation on integers is the operation of the solver. -/
theorem eval_operation {I : Interp} (hM : M.byZero = I.byZero) (o : Operator) {a b : Term} {n m : ℤ}
    (ha : a.eval M = .int n) (hb : b.eval M = .int m) :
    (Term.app (operatorName o) [a, b]).eval M = .int (I.operate o n m) := by
  cases o <;> simp [operatorName, Term.eval, Term.evalAll, ha, hb, Datum.toInt,
    Interp.operate, hM]

theorem toInt_ofInt_toInt (n : Int32) : (Int64.ofInt n.toInt).toInt = n.toInt := by
  have hle := n.le_toInt
  have hlt := n.toInt_lt
  exact Int64.toInt_ofInt_of_le (by omega) (by omega)

/-! ### Encodings -/

variable {I : Interp} {own : String → Prop}

open Classical in
mutual

theorem renders_place {Γ t M ρ p env d d' r} (h : RunPlace env p d r d') (hΓ : env.Knows Γ)
    (ht : p.Typed .queries Γ t) (hb : Spares own p.binders)
    (hM : M.Renders I ρ Γ own p.freeVars) : t.Represents (p.eval I ρ) (r.term.eval M) := by
  cases h with
  | @name _ x _ _ _ _ _ hu' hs =>
    obtain ⟨u, hu, rfl⟩ := ht
    obtain rfl := Option.mem_unique (hΓ.vars x u hu) hu'
    refine Ty.represents_bare.mpr ?_
    simpa only [Place.eval, Term.eval] using hM.var x (by simp [Place.freeVars]) u _ hu hs
  | @array _ x _ _ _ _ _ _ _ _ _ _ hu' he' hs _ hi' =>
    obtain ⟨u, n, hu, hbare, -, hi⟩ := ht
    obtain rfl := Option.mem_unique (hΓ.vars x u hu) hu'
    obtain ⟨k, hk, hk'⟩ := renders_value hi' hΓ hi hb hM.right
    have hus := Ty.sortOf_of_underlying_array he' hs
    have hx := Ty.represents_bare.mpr (hM.var x (by simp [Place.freeVars]) u _ hu hus)
    rw [hbare] at hx
    obtain ⟨f, g, hf, hg, hfg⟩ := hx
    rw [Term.eval_select, Term.eval, hk', hg, Place.eval, hk, hf]
    exact hfg k
  | @tuple _ x _ _ _ us _ _ _ _ _ _ hu' hus hparts hn he hs =>
    obtain ⟨u, ts, n', hu, hbare, hn', hts⟩ := ht
    obtain rfl := Option.mem_unique (hΓ.vars x u hu) hu'
    obtain rfl := Option.mem_unique hn hn'
    obtain ⟨us', hus', rfl⟩ := Ty.bare_eq_tuple hbare
    obtain rfl := Ty.tuple.inj (hus.symm.trans hus')
    have hrep := represents_namedTuple hparts (hM.tuple x (by simp [Place.freeVars]) u us hu hus).2
    rw [Place.eval, Value.eval_of_constantIndex hn]
    exact represents_element hn he hs hrep hts

/-- The encoding of a value that is not a tuple represents it. -/
theorem renders_value {Γ t M ρ v env d d' r} (h : RunValue env v d r d') (hΓ : env.Knows Γ)
    (ht : v.Typed .queries Γ t) (hb : Spares own v.binders)
    (hM : M.Renders I ρ Γ own v.freeVars) : t.Represents (v.eval I ρ) (r.term.eval M) := by
  cases h with
  | expr he =>
    obtain ⟨rfl, ht⟩ := ht
    exact renders_expr he hΓ ht hb hM
  | formula hf =>
    obtain ⟨rfl, ht⟩ := ht
    obtain ⟨b, hterm, hb'⟩ := renders_formula hf hΓ ht hb hM
    exact ⟨b, by rw [Value.eval, ← hb', Bool.decide_eq_true], hterm⟩
  | place hp => exact renders_place hp hΓ ht hb hM
  | @array _ v vs _ r' _ _ _ _ hv' hvs' =>
    obtain ⟨u, rfl, ⟨-, hlen⟩, hvs⟩ := ht
    obtain ⟨_, _, heq, hv, hvs⟩ := hvs
    obtain ⟨rfl, rfl⟩ := List.cons.inj heq
    have hrep := renders_value hv' hΓ hv hb.left hM.left
    have hfirst : ∀ j, u.Represents (literalAt [v.eval I ρ] j) (r'.term.eval M) := by
      intro j
      have hj : literalAt [v.eval I ρ] j = v.eval I ρ := by
        unfold literalAt
        split_ifs with h0
        · rcases j.toNat with _ | k <;> rfl
        · rfl
      rwa [hj]
    obtain ⟨g, hg, hall⟩ := renders_elements [v.eval I ρ] hvs' hΓ hvs hb.right hM.right
      (by simp) rfl (by simpa [Bounds.queries, add_comm] using hlen) ⟨_, by rw [Term.eval], hfirst⟩
    refine ⟨literalAt _, g, ?_, hg, hall⟩
    rw [Value.eval, literal_eq hM.outside, Value.length_evalAll]
    simp only [Value.evalAll, List.cons_append, List.nil_append]
  | @call _ f vs _ _ s as _ _ _ hg' hs has =>
    obtain ⟨g, hg, rfl, hvs⟩ := ht
    obtain rfl := Option.mem_unique (hΓ.functions f g hg) hg'
    obtain ⟨hpass, -, -, hcall⟩ := hM.call f g hg
    obtain rfl := Scope.name_of_function? hg
    obtain ⟨hread, hall⟩ := renders_args has hΓ hvs hb hM hpass
    change readArgs g.inputTypes _ = _ at hread
    refine Ty.represents_bare.mpr ?_
    have hrep := hcall.scalar (Term.evalAll M as.terms) s (hread ▸ hall) hs
    rwa [hread] at hrep
  | ref hv | deref hv => exact (renders_value hv hΓ ht hb hM :)
  | ite hc' hv' hw' =>
    obtain ⟨hc, hv, hw⟩ := ht
    have hterm := renders_formula hc' hΓ hc hb.left.left hM.left.left
    have hrepv := renders_value hv' hΓ hv hb.left.right hM.left.right
    have hrepw := renders_value hw' hΓ hw hb.right hM.right
    rw [Value.eval, hterm.eval_ite]
    split_ifs
    · exact hrepv
    · exact hrepw
  | element hb' hn he hs =>
    obtain ⟨ts, n', hbt, hn', hts⟩ := ht
    obtain rfl := Option.mem_unique hn hn'
    have hrep := renders_tuple hb' hΓ hbt hb.left hM.left
    obtain rfl := elements_tuple hb' hΓ hbt
    rw [Value.eval, Value.eval_of_constantIndex hn]
    exact represents_element hn he hs hrep hts
  | select _ _ hb' hi' =>
    obtain ⟨n, hbt, -, hi⟩ := ht
    obtain ⟨f, g, hf, hg, hfg⟩ := renders_value hb' hΓ hbt hb.left hM.left
    obtain ⟨k, hk, hk'⟩ := renders_value hi' hΓ hi hb.right hM.right
    rw [Term.eval_select, hk', hg, Value.eval, hk, hf]
    exact hfg k
  | @store _ _ _ e _ _ _ r' _ _ _ _ hb' hi' _ he' =>
    obtain ⟨u, n, rfl, hbt, hi, he⟩ := ht
    obtain ⟨f, g, hf, hg, hfg⟩ := renders_value hb' hΓ hbt hb.left.left hM.left.left
    obtain ⟨k, hk, hk'⟩ := renders_value hi' hΓ hi hb.left.right hM.left.right
    have hrep := renders_value he' hΓ he hb.right hM.right
    refine ⟨Function.update f k (e.eval I ρ), Function.update g k (r'.term.eval M), ?_, ?_, ?_⟩
    · rw [Value.eval, hk, hf]
      rfl
    · rw [Term.eval_store, hk', hg]
      rfl
    · intro j
      by_cases hj : j = k
      · subst hj
        rwa [Function.update_self, Function.update_self]
      · rw [Function.update_of_ne hj, Function.update_of_ne hj]
        exact hfg j

theorem renders_elements (ws : List Val) {vs Γ env array r s i d d' u M ρ}
    (h : RunElements env array s i vs d r d') (hΓ : env.Knows Γ)
    (ht : Value.AllTyped .queries Γ vs (List.replicate vs.length u))
    (hb : Spares own (Value.bindersAll vs)) (hM : M.Renders I ρ Γ own (Value.freeVarsAll vs))
    (hne : ws ≠ []) (hi : i = ws.length) (hlen : ws.length + vs.length ≤ 2 ^ 63)
    (hws : ∃ g, array.term.eval M = .array g ∧ ∀ j, u.Represents (literalAt ws j) (g j)) :
    ∃ g, r.term.eval M = .array g ∧
      ∀ j, u.Represents (literalAt (ws ++ Value.evalAll I ρ vs) j) (g j) := by
  cases h with
  | nil => simpa only [Value.evalAll, List.append_nil] using hws
  | @cons _ _ _ _ v vs _ _ _ _ _ hv' _ hvs' =>
    obtain ⟨_, _, heq, hv, hvs⟩ := ht
    obtain ⟨rfl, rfl⟩ := List.cons.inj heq
    have hrep := renders_value hv' hΓ hv hb.left hM.left
    obtain ⟨g, hg, hall⟩ := hws
    subst hi
    simp only [List.length_cons] at hlen
    have hnext := renders_elements (ws ++ [v.eval I ρ]) hvs' hΓ hvs hb.right hM.right (by simp)
      (by simp) (by simp; omega) ⟨_, ?_, represents_store hne hall hrep⟩
    · simpa only [Value.evalAll, List.append_assoc, List.cons_append, List.nil_append] using hnext
    · rw [Term.eval_store, hg]
      simp only [Term.eval, Datum.toInt, toInt_ofNat (show ws.length < 2 ^ 63 by omega), Datum.put]

/-- The arguments of a call can be read back from their encoding. -/
theorem renders_args {Γ ts M ρ vs env d d' r} (h : RunArgs env vs d r d') (hΓ : env.Knows Γ)
    (ht : Value.AllTyped .queries Γ vs ts) (hb : Spares own (Value.bindersAll vs))
    (hM : M.Renders I ρ Γ own (Value.freeVarsAll vs))
    (hts : ∀ t ∈ ts, ∀ us, t = .tuple us → ∀ u ∈ us, ∃ s, u.sortOf = .ok s) :
    readArgs ts (Term.evalAll M r.terms) = Value.evalAll I ρ vs ∧
      Ty.HasAll ts (Value.evalAll I ρ vs) := by
  cases h with
  | nil =>
    obtain rfl : ts = [] := ht
    simp only [readArgs, Value.evalAll, Ty.HasAll, and_self]
  | @tuple _ v _ _ us _ _ _ _ _ hu hus hv' hvs' =>
    obtain ⟨t, ts, rfl, hv, hvs⟩ := ht
    simp only [List.forall_mem_cons] at hts
    obtain ⟨u, hu', hbare⟩ := (hv.extend v (hΓ.extends _)).typeOf v
    obtain rfl := ok_unique hu hu'
    obtain rfl : t = .tuple (Ty.bareAll us) := by
      rw [← hbare, ← Ty.bare_underlying, hus, Ty.bare]
    have helems := elements_tuple hv' hΓ hv
    have hrep := renders_tuple hv' hΓ hv hb.left hM.left
    obtain ⟨hread, hall⟩ := renders_args hvs' hΓ hvs hb.right hM.right hts.2
    have hsorts := hts.1 _ rfl
    refine ⟨?_, _, _, rfl, hrep.has hsorts, hall⟩
    rw [Value.evalAll, ← tupleSorts_bareAll, helems, Term.evalAll_eq_map, List.map_append,
      List.map_map, readArgs_tuple (t := .tuple (Ty.bareAll us)) rfl, ← Term.evalAll_eq_map, hread]
    congr 1
    exact hrep.readTuple_eq hsorts
  | value _ _ hv' hvs' =>
    obtain ⟨t, ts, rfl, hv, hvs⟩ := ht
    simp only [List.forall_mem_cons] at hts
    have hrep := renders_value hv' hΓ hv hb.left hM.left
    obtain ⟨hread, hall⟩ := renders_args hvs' hΓ hvs hb.right hM.right hts.2
    refine ⟨?_, _, _, rfl, hrep.value_has, hall⟩
    rw [Value.evalAll, Term.evalAll, readArgs_cons hrep, hread]

/-- The parts of the encoding of a tuple represent it. -/
theorem renders_tuple {Γ ts M ρ v env d d' r} (h : RunTuple env v d r d') (hΓ : env.Knows Γ)
    (ht : v.Typed .queries Γ (.tuple ts)) (hb : Spares own v.binders)
    (hM : M.Renders I ρ Γ own v.freeVars) :
    PartsRepresent ts (v.eval I ρ) fun s => (part r.parts s).eval M := by
  cases h with
  | @name _ x _ _ _ us _ _ _ hu' hus hparts =>
    obtain ⟨u, hu, hbare⟩ := ht
    obtain rfl := Option.mem_unique (hΓ.vars x u hu) hu'
    obtain ⟨us', hus', rfl⟩ := Ty.bare_eq_tuple hbare
    obtain rfl := Ty.tuple.inj (hus.symm.trans hus')
    have hx := (hM.tuple x (by simp [Value.freeVars, Place.freeVars]) u us hu hus).2
    exact represents_namedTuple hparts hx
  | literal _ _ hvs' =>
    obtain ⟨_, heq, hlen, hvs⟩ := ht
    obtain rfl := Ty.tuple.inj heq
    have hrep := renders_literal [] [] hvs' hΓ hvs hb hM rfl
      (by simpa [Bounds.queries] using hlen) (by simp [Arrays]) ⟨[], rfl, rfl, by simp⟩
    simpa only [Value.eval, List.nil_append] using hrep
  | ref _ _ hv | deref _ _ hv => exact (renders_tuple hv hΓ ht hb hM :)
  | ite _ _ hc' hv' hw' =>
    obtain ⟨hc, hv, hw⟩ := ht
    have hterm := renders_formula hc' hΓ hc hb.left.left hM.left.left
    have hrepv := renders_tuple hv' hΓ hv hb.left.right hM.left.right
    have hrepw := renders_tuple hw' hΓ hw hb.right hM.right
    rw [Value.eval]
    exact partsRepresent_ite hterm hrepv hrepw
  | @store _ s b i e _ _ _ _ _ _ _ _ _ _ _ hb' hn _ he' =>
    cases s with
    | array => simp [Value.Typed] at ht
    | tuple =>
      obtain ⟨_, n, u, heq, hbt, hn', hu, he⟩ := ht
      obtain rfl := Ty.tuple.inj heq
      obtain rfl := Option.mem_unique hn hn'
      have hrepb := renders_tuple hb' hΓ hbt hb.left.left hM.left.left
      have hrepe := renders_value he' hΓ he hb.right hM.right
      rw [Value.eval, Value.eval_of_constantIndex hn]
      have := lt_of_constantIndex hn
      exact partsRepresent_store hrepb hu (by omega) (sort_value he' hΓ he) hrepe
  | @call _ f _ _ _ us as _ _ _ _ hg' hus has hparts =>
    obtain ⟨g, hg, hbare, hvs⟩ := ht
    obtain rfl := Option.mem_unique (hΓ.functions f g hg) hg'
    obtain ⟨hpass, -, -, hcall⟩ := hM.call f g hg
    obtain rfl := Scope.name_of_function? hg
    obtain ⟨us', hus', rfl⟩ := Ty.bare_eq_tuple hbare
    obtain rfl := Ty.tuple.inj (hus.symm.trans hus')
    obtain ⟨hread, hall⟩ := renders_args has hΓ hvs hb hM hpass
    change readArgs g.inputTypes _ = _ at hread
    have hrep := hcall.tuple (Term.evalAll M as.terms) us (hread ▸ hall) hus
    rw [hread] at hrep
    rw [Value.eval]
    refine hrep.bareAll.congr fun t ht s hs => ?_
    have hmem : s ∈ tupleSorts us := by
      rw [← tupleSorts_bareAll]
      exact mem_tupleSorts.mpr ⟨t, ht, hs⟩
    simp only [part, hparts.callParts s (.inr hmem), Option.getD_some, Term.eval]

theorem renders_literal (ws : List Val) (us : List Ty) {vs Γ env cs parts i d d' r ts M ρ}
    (h : RunLiteral env cs parts i vs d r d') (hΓ : env.Knows Γ)
    (ht : Value.AllTyped .queries Γ vs ts) (hb : Spares own (Value.bindersAll vs))
    (hM : M.Renders I ρ Γ own (Value.freeVarsAll vs)) (hi : i = ws.length)
    (hlen : ws.length + vs.length ≤ 2 ^ 63) (harr : Arrays M parts)
    (hrep : PartsRepresent us (.tuple ws) fun s => (part parts s).eval M) :
    PartsRepresent (us ++ ts) (.tuple (ws ++ Value.evalAll I ρ vs))
      fun s => (part r.2 s).eval M := by
  cases h with
  | nil =>
    obtain rfl : ts = [] := ht
    simpa only [Value.evalAll, List.append_nil] using hrep
  | @cons _ _ _ _ v _ _ _ _ _ _ hv' hvs' =>
    obtain ⟨t, ts, rfl, hv, hvs⟩ := ht
    simp only [List.length_cons] at hlen
    subst hi
    have hrepv := renders_value hv' hΓ hv hb.left hM.left
    have hnext := renders_literal (ws ++ [v.eval I ρ]) (us ++ [t]) hvs' hΓ hvs hb.right hM.right
      (by simp) (by simp; omega) (harr.literalPart _ _)
      (partsRepresent_literalPart harr hrep (sort_value hv' hΓ hv) hrepv (by omega))
    simpa only [Value.evalAll, List.append_assoc, List.cons_append, List.nil_append] using hnext

theorem renders_expr {Γ t M ρ e env d d' r} (h : RunExpr env e d r d') (hΓ : env.Knows Γ)
    (ht : e.Typed .queries Γ t) (hb : Spares own e.binders)
    (hM : M.Renders I ρ Γ own e.freeVars) : t.Represents (e.eval I ρ) (r.term.eval M) := by
  cases h with
  | @num _ n =>
    obtain rfl : t = .i32 := ht
    exact ⟨n.toInt, by rw [Expr.eval], by rw [Term.eval, toInt_ofInt_toInt]⟩
  | value hv => exact renders_value hv hΓ ht hb hM
  | @op _ o _ _ _ _ _ _ _ ha' _ hb' =>
    obtain ⟨rfl, ha, hbt⟩ := ht
    obtain ⟨n, hn, hn'⟩ := renders_expr ha' hΓ ha hb.left hM.left
    obtain ⟨m, hm, hm'⟩ := renders_expr hb' hΓ hbt hb.right hM.right
    refine ⟨_, ?_, eval_operation hM.byZero o hn' hm'⟩
    rw [Expr.eval, hn, hm]
    rfl

/-- The encoding of a formula is true if and only if the formula is. -/
theorem renders_formula {Γ M ρ f env d d' r} (h : RunFormula env f d r d') (hΓ : env.Knows Γ)
    (ht : f.Typed .queries Γ) (hb : Spares own f.binders) (hM : M.Renders I ρ Γ own f.freeVars) :
    r.term.Decides M (f.Holds I ρ) := by
  cases h with
  | lit => exact .lit _
  | and hf hg =>
    exact (renders_formula hf hΓ ht.1 hb.left hM.left).and (renders_formula hg hΓ ht.2 hb.right hM.right)
  | or hf hg =>
    exact (renders_formula hf hΓ ht.1 hb.left hM.left).or (renders_formula hg hΓ ht.2 hb.right hM.right)
  | not hf => exact (renders_formula hf hΓ ht hb hM).not
  | value hv' =>
    obtain ⟨b, hv, hb'⟩ := renders_value hv' hΓ ht hb hM
    exact ⟨b, hb', by simp [Formula.Holds, hv]⟩
  | equal ha' hb' =>
    obtain ⟨t, -, ha, hbt⟩ := ht
    have hrepa := renders_expr ha' hΓ ha hb.left hM.left
    have hrepb := renders_expr hb' hΓ hbt hb.right hM.right
    exact (Term.Decides.eq _ _).congr (hrepa.eq_iff hrepb).symm
  | compare ha' hb' _ hterm =>
    obtain ⟨t, ht, ha, hbt⟩ := ht
    have hrepa := renders_expr ha' hΓ ha hb.left hM.left
    have hrepb := renders_expr hb' hΓ hbt hb.right hM.right
    exact decides_orderTerm hterm ht (sort_expr ha' hΓ ha) hrepa hrepb
  | @quant _ q x t f s rf _ _ hs hf =>
    have hbody : ∀ v d, t.Represents v d → (rf.term.Holds (M.bind x d) ↔
        f.Holds I (Function.update ρ x v)) := by
      intro v d hrep
      have hM' := SmtModel.Renders.bind hM hb.head hs hrep
      exact (renders_formula hf (hΓ.bind x t) ht hb.tail hM').holds_iff
    cases q with
    | all =>
      refine ⟨_, by rw [Term.eval], ?_⟩
      simp only [decide_eq_true_eq, Formula.Holds]
      constructor
      · intro hall v hv
        have hrep := Ty.represents_datum hs hv
        exact (hbody v _ hrep).mp (hall _ (hrep.has hs))
      · intro hall d hd
        obtain ⟨hhas, hrep⟩ := Ty.represents_read hs hd
        exact (hbody _ d hrep).mpr (hall _ hhas)
    | some =>
      refine ⟨_, by rw [Term.eval], ?_⟩
      simp only [decide_eq_true_eq, Formula.Holds]
      constructor
      · rintro ⟨d, hd, htrue⟩
        obtain ⟨hhas, hrep⟩ := Ty.represents_read hs hd
        exact ⟨_, hhas, (hbody _ d hrep).mp htrue⟩
      · rintro ⟨v, hv, hholds⟩
        have hrep := Ty.represents_datum hs hv
        exact ⟨_, hrep.has hs, (hbody v _ hrep).mpr hholds⟩

end

end Encoding

end Verdict
