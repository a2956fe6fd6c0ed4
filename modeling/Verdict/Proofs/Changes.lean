import Verdict.Proofs.Evaluation

/-! # Changes of symbolic states

Writing a value to a variable, giving a variable a new constant and merging the states after two branches
change the values of a symbolic state and nothing else. Where a store matches the state before, the
store after the same change matches the state after it. -/

namespace Verdict

/-! ### Variables that get a value -/

/-- Whether the variables of a second map are those of a first one and one more. -/
def NameMap.Adjoins (vars : NameMap Ty) (x : String) (t : Ty) (vars' : NameMap Ty) : Prop :=
  ∀ y u, vars'.get? y = some u → (y = x ∧ u = t) ∨ (y ≠ x ∧ vars.get? y = some u)

theorem NameMap.adjoins_insert (vars : NameMap Ty) (x : String) (t : Ty) :
    vars.Adjoins x t (vars.insert x t) := by
  intro y u hy
  rw [get?_insert] at hy
  split_ifs at hy with hxy
  · exact .inl ⟨hxy.symm, (Option.some.inj hy).symm⟩
  · exact .inr ⟨Ne.symm hxy, hy⟩

theorem NameMap.adjoins_self {vars : NameMap Ty} {x : String} {t : Ty} (h : vars.get? x = some t) :
    vars.Adjoins x t vars := by
  intro y u hy
  by_cases hxy : y = x
  · subst hxy
    exact .inl ⟨rfl, Option.mem_unique hy h⟩
  · exact .inr ⟨hxy, hy⟩

/-- A wildcard is not a variable. -/
theorem Scoping.adjoins_declare {e : Scoping.Env} (hwild : e.vars.get? "_" = none) (x : String)
    (t : Ty) (m : Bool) : e.scope.vars.Adjoins x t (Scoping.declare e x t m).scope.vars := by
  intro y u hy
  unfold Scoping.declare at hy
  split_ifs at hy with hx
  · refine .inr ⟨?_, hy⟩
    rintro rfl
    rw [Scoping.Env.type?_scope, hx, hwild] at hy
    cases hy
  · rw [Scoping.Env.type?_add] at hy
    exact NameMap.adjoins_insert e.scope.vars x t y u hy

namespace SymState

variable {R : Rules} {vars vars' : NameMap Ty} {g g' : Generator} {s : SymState} {I : Interp}
  {ρ ρ' σ : Valuation} {x : String} {t : Ty} {v : Value}

theorem Typed.mono (h : s.Typed R vars g)
    (hvars : ∀ x t, vars'.get? x = some t → vars.get? x = some t) : s.Typed R vars' g :=
  ⟨fun x t hx => h.values x t (hvars x t hx), h.facts⟩

theorem Matches.mono (h : s.Matches I vars g ρ σ)
    (hvars : ∀ x t, vars'.get? x = some t → vars.get? x = some t) : s.Matches I vars' g ρ σ :=
  ⟨h.fits, fun x t hx => h.values x t (hvars x t hx), h.facts⟩

theorem Typed.set (h : s.Typed R vars g) (hvars : vars.Adjoins x t vars')
    (hv : v.Typed R.bounds (g.scope R) t.bare) : (s.set x v).Typed R vars' g := by
  refine ⟨fun y u hy => ?_, h.facts⟩
  rcases hvars y u hy with ⟨rfl, rfl⟩ | ⟨hne, hy⟩
  · exact ⟨v, by simp [SymState.set], hv⟩
  · obtain ⟨w, hw, hwt⟩ := h.values y u hy
    exact ⟨w, by simpa [SymState.set, Ne.symm hne] using hw, hwt⟩

theorem valuation_set_self (s : SymState) (x : String) (v : Value) :
    (s.set x v).values.valuation I ρ x = v.eval I ρ := by
  simp [SymState.set, Substitution.valuation, Substitution.image]

theorem valuation_set_of_ne (s : SymState) {y : String} (v : Value) (h : y ≠ x) :
    (s.set x v).values.valuation I ρ y = s.values.valuation I ρ y := by
  simp [SymState.set, Substitution.valuation, Substitution.image, Ne.symm h]

theorem Matches.set (h : s.Matches I vars g ρ σ) (hvars : vars.Adjoins x t vars') :
    (s.set x v).Matches I vars' g ρ (Function.update σ x (v.eval I ρ)) := by
  refine ⟨h.fits, fun y u hy => ?_, h.facts⟩
  rcases hvars y u hy with ⟨rfl, rfl⟩ | ⟨hne, hy⟩
  · rw [valuation_set_self, Function.update_self]
  · rw [valuation_set_of_ne s v hne, Function.update_of_ne hne]
    exact h.values y u hy

/-- Further constants do not matter. -/
theorem Matches.agree (hs : s.Typed R vars g) (h : s.Matches I vars g ρ σ)
    (hρ : ρ.AgreeFor ρ' g.symbols) (hfits : ρ'.Fits g'.symbols) : s.Matches I vars g' ρ' σ := by
  refine ⟨hfits, fun y u hy => ?_, fun f hf => ?_⟩
  · obtain ⟨w, hw, hwt⟩ := hs.values y u hy
    have hval := h.values y u hy
    simp only [Substitution.valuation, Substitution.image, hw, Option.getD_some] at hval ⊢
    rw [← hval]
    exact (Value.Typed.eval_eq (Γ := g.scope R) hwt hρ).symm
  · exact (Formula.Typed.holds_iff (Γ := g.scope R) (hs.facts f hf) hρ).mp (h.facts f hf)

end SymState

/-! ### Constants -/

namespace Generation

open GenM

variable {R : Rules} {ctx : GenContext} {vars vars' : NameMap Ty} {g g' : Generator}
  {s s' : SymState} {subject : Subject}

/-- A constant is always made, and it is new. It has the name of its variable, or the primed one at which the
search stops. -/
theorem run_constant (x : String) (t : Ty) (isPrimed : Bool) (g : Generator) :
    ∃ y g', Gives (constant x t isPrimed) g (.var y) g' ∧ g.symbols.get? y = none ∧
      (isPrimed = false ∧ y = x ∨
        ∃ i, y = primed x i ∧ StopsAt x g.symbols.contains ((g.counters.get? x).getD 0 + 1) i) ∧
      g'.symbols = g.symbols.insert y t ∧ g'.alikes = g.alikes ∧ g'.obligations = g.obligations := by
  have hnew : ∀ y, g.symbols.contains y = false → g.symbols.get? y = none := fun y hy => by
    simpa [NameMap.contains] using hy
  have hrun : (constant x t isPrimed).run g =
      (if (isPrimed || g.symbols.contains x) = true then _ else _ : GenM Value).run g := rfl
  split_ifs at hrun with hx
  · have hstop := stopsAt_freeIndex (x := x) ((g.counters.get? x).getD 0 + 1) g.symbols.names
      fun y hy => (g.symbols.mem_names_iff y).mpr ((g.symbols.contains_iff y).mp hy)
    rw [NameMap.names, List.length_map] at hstop
    exact ⟨_, _, hrun, hnew _ hstop.not_taken, .inr ⟨_, rfl, hstop⟩, rfl, rfl, rfl⟩
  · rw [Bool.or_eq_true, not_or, Bool.not_eq_true, Bool.not_eq_true] at hx
    exact ⟨x, _, hrun, hnew x hx.2, .inl ⟨hx.1, rfl⟩, rfl, rfl, rfl⟩

/-- A constant is new. -/
theorem of_constant {x : String} {t : Ty} {isPrimed : Bool} {v : Value}
    (h : Gives (constant x t isPrimed) g v g') :
    ∃ y, v = .var y ∧ g.symbols.get? y = none ∧ g'.symbols = g.symbols.insert y t ∧
      g'.alikes = g.alikes ∧ g'.obligations = g.obligations := by
  obtain ⟨y, g₁, hrun, hy, -, hrest⟩ := run_constant x t isPrimed g
  cases h.symm.trans hrun
  exact ⟨y, rfl, hy, hrest⟩

theorem grows_of_insert {y : String} {t : Ty} (hy : g.symbols.get? y = none)
    (hsym : g'.symbols = g.symbols.insert y t) (halikes : g'.alikes = g.alikes)
    (hobl : g'.obligations = g.obligations) : g.Grows g' := by
  refine ⟨fun x u hx => ?_, halikes ▸ List.prefix_rfl, hobl ▸ List.prefix_rfl⟩
  rw [hsym, NameMap.get?_insert, if_neg]
  · exact hx
  · rintro rfl
    rw [hy] at hx
    cases hx

theorem known_of_insert {y : String} {t : Ty} (hg : g.Known)
    (hsym : g'.symbols = g.symbols.insert y t) (ht : t.hasUnknown = false) : g'.Known := by
  intro x u hx
  rw [hsym, NameMap.get?_insert] at hx
  split_ifs at hx
  · cases hx
    exact ht
  · exact hg x u hx

theorem agreeFor_update (ρ : Valuation) {y : String} (hy : g.symbols.get? y = none) (a : Val) :
    ρ.AgreeFor (Function.update ρ y a) g.symbols := by
  intro x t hx
  rw [Function.update_of_ne]
  rintro rfl
  rw [hy] at hx
  cases hx

section Fresh

variable {x y : String} {t : Ty} (hsym : g'.symbols = g.symbols.insert y t)
  (hvars : vars.Adjoins x t vars') (hs : s.Typed R vars g)
include hsym hvars hs

theorem typed_fresh (hg : g.Grows g') : (s.set x (.var y)).Typed R vars' g' := by
  refine (hs.grow hg).set hvars ⟨t, ?_, rfl⟩
  simp [Generator.scope, Scope.type?, hsym]

/-- A new constant can mean any value of its type. -/
theorem matches_fresh {I : Interp} {ρ σ : Valuation} {a : Val} (hy : g.symbols.get? y = none)
    (hm : s.Matches I vars g ρ σ) (ha : t.Has a) :
    (s.set x (.var y)).Matches I vars' g' (Function.update ρ y a) (Function.update σ x a) := by
  have hfits : Valuation.Fits (Function.update ρ y a) g'.symbols := hsym ▸ hm.fits.update ha
  have h := (hm.agree hs (agreeFor_update ρ hy a) hfits).set (v := .var y) hvars
  simpa [Value.var, Value.eval, Place.eval] using h

end Fresh

/-- What is left alone by a change of values. -/
structure Updates (s s' : SymState) (g g' : Generator) : Prop where
  frame : s'.frame = s.frame
  facts : s'.facts = s.facts
  grows : g.Grows g'
  obligations : g'.obligations = g.obligations

theorem Updates.refl (s : SymState) (g : Generator) : Updates s s g g := ⟨rfl, rfl, .refl g, rfl⟩

theorem Updates.trans {s'' : SymState} {g'' : Generator} (h : Updates s s' g g')
    (h' : Updates s' s'' g' g'') : Updates s s'' g g'' :=
  ⟨h'.frame.trans h.frame, h'.facts.trans h.facts, h.grows.trans h'.grows,
    h'.obligations.trans h.obligations⟩

/-- Variables that get new constants can have any values of their types. -/
theorem of_havoc {xs : List String} (hs : s.Typed R vars g)
    (hframe : ∀ x t, vars.get? x = some t → s.frame.type? x = some t)
    (hknown : ∀ x t, s.frame.type? x = some t → t.hasUnknown = false) (hg : g.Known)
    (h : Gives (havoc s xs) g s' g') :
    Updates s s' g g' ∧ g'.Known ∧ s'.Typed R vars g' ∧
      ∀ {I : Interp} {ρ σ σ' : Valuation}, s.Matches I vars g ρ σ → σ'.Fits vars →
        (∀ x t, vars.get? x = some t → x ∉ xs → σ' x = σ x) →
          ∃ ρ', ρ.AgreeFor ρ' g.symbols ∧ s'.Matches I vars g' ρ' σ' := by
  induction xs generalizing s g with
  | nil =>
    obtain ⟨rfl, rfl⟩ := gives_pure h
    refine ⟨.refl _ _, hg, hs, fun {I ρ σ σ'} hm _ hσ => ⟨ρ, fun _ _ _ => rfl, hm.fits, ?_, hm.facts⟩⟩
    exact fun x t hx => (hm.values x t hx).trans (hσ x t hx (by simp)).symm
  | cons x xs ih =>
    unfold havoc at h
    split at h
    · next t hvar htype =>
      obtain ⟨v, g1, h1, h2⟩ := h.bind
      obtain ⟨y, rfl, hy, hsym, halikes, hobl⟩ := of_constant h1
      have hgrow := grows_of_insert hy hsym halikes hobl
      have hadj : vars.Adjoins x t vars := by
        intro z u hz
        by_cases hzx : z = x
        · subst hzx
          exact .inl ⟨rfl, Option.mem_unique (hframe z u hz) htype⟩
        · exact .inr ⟨hzx, hz⟩
      have ht := hknown x t htype
      obtain ⟨hup, hg', hs', hmatch⟩ := ih (typed_fresh hsym hadj hs hgrow) hframe hknown
        (known_of_insert hg hsym ht) h2
      refine ⟨⟨hup.frame, hup.facts, hgrow.trans hup.grows, hup.obligations.trans hobl⟩, hg', hs', ?_⟩
      intro I ρ σ σ' hm hfits hσ
      have hm1 := matches_fresh hsym hadj hs hy hm (Ty.has_pick ht (σ' x))
      have hoff : ∀ z u, vars.get? z = some u → z ∉ xs →
          σ' z = Function.update σ x (t.pick (σ' x)) z := by
        intro z u hz hmem
        by_cases hzx : z = x
        · subst hzx
          rw [Function.update_self, Ty.Has.pick]
          exact Option.mem_unique (hframe z u hz) htype ▸ hfits z u hz
        · rw [Function.update_of_ne hzx]
          exact hσ z u hz (by simp [hzx, hmem])
      obtain ⟨ρ', hagree, hm'⟩ := hmatch hm1 hfits hoff
      refine ⟨ρ', fun z u hz => ?_, hm'⟩
      exact (agreeFor_update ρ hy _ z u hz).trans (hagree z u (hgrow.symbols z u hz))
    · next hno =>
      obtain ⟨hup, hg', hs', hmatch⟩ := ih hs hframe hknown hg h
      refine ⟨hup, hg', hs', fun hm hfits hσ => hmatch hm hfits fun z u hz hmem => hσ z u hz ?_⟩
      have hzx : z ≠ x := by
        rintro rfl
        obtain ⟨w, hw, -⟩ := hs.values z u hz
        exact hno u (by simp [SymState.isVariable, NameMap.contains, hw]) (hframe z u hz)
      simp [hzx, hmem]

end Generation

/-! ### Assignments -/

/-- The position of the element that a place is, if it is one. -/
noncomputable def Place.position (I : Interp) (ρ : Valuation) : Place → Option ℤ
  | .elem _ _ i _ => some (i.eval I ρ).toInt
  | _ => none

/-- What is evaluated to find the place that is written to. -/
def Place.targetNodes : Place → List Node
  | .elem shape x i o => (Value.place (.elem shape x i o) none).visit Frame.outsideQuantifiers
  | _ => []

/-- Whether the place that is written to is one. -/
def Place.IsTarget (I : Interp) (ρ : Valuation) : Place → Prop
  | .elem shape x i o => (Value.place (.elem shape x i o) none).Defined I ρ
  | _ => True

/-- What is written if a value is given to a place. -/
noncomputable def Write.of (I : Interp) (ρ : Valuation) (pv : Place × Value) : Write :=
  ⟨pv.1.base, pv.1.position I ρ, pv.2.eval I ρ⟩

namespace Machine

variable {M : Machine} {σ : Valuation} {p : Place} {P : Option ℤ → Prop}

theorem ensures_index {safe : Prop}
    (h : M.Answers σ p.targetNodes →
      (safe → p.IsTarget M.interp σ) ∧ P (p.position M.interp σ)) :
    (M.index σ p).Ensures safe P := by
  cases p with
  | elem shape x i o =>
    unfold index
    rw [Ending.ensures_bind]
    exact ensures_evaluate h
  | _ => exact (h fun c hc => by simp [Place.targetNodes] at hc).2

theorem of_ensures_index {I : Interp} (h : ((ofInterp I).index σ p).Ensures True P) :
    p.IsTarget I σ ∧ P (p.position I σ) ∧ (ofInterp I).index σ p = .done (p.position I σ) := by
  cases p with
  | elem shape x i o =>
    unfold index at h ⊢
    rw [Ending.ensures_bind] at h
    obtain ⟨hdef, hP, hrun⟩ := of_ensures_evaluate h
    refine ⟨hdef, hP, ?_⟩
    unfold value
    dsimp only
    rw [hrun]
    rfl
  | _ => exact ⟨trivial, h, rfl⟩

end Machine

namespace Generation

open GenM

variable {R : Rules} {ctx : GenContext} {vars vars' : NameMap Ty} {g g' : Generator} {s s' : SymState}
  {subject : Subject}
  {p : Place} {ps : List (Place × Value)} {as : List Assignment}

/-- Whether a value may be written to a place. -/
def Fills (R : Rules) (vars : NameMap Ty) (g : Generator) (v : Value) : Place → Prop
  | .wildcard _ => True
  | .name x _ => x ≠ "" ∧ ∃ t, vars.get? x = some t ∧ v.Typed R.bounds (g.scope R) t.bare
  | .elem .array x i _ =>
    x ≠ "" ∧ ∃ u t n, vars.get? x = some u ∧ u.bare = .array t n ∧
      i.Typed R.bounds (g.scope R) .i32 ∧ v.Typed R.bounds (g.scope R) t
  | .elem .tuple x i _ =>
    x ≠ "" ∧ ∃ u ts n t, vars.get? x = some u ∧ u.bare = .tuple ts ∧ i.constantIndex? = some n ∧
      ts[n]? = some t ∧ v.Typed R.bounds (g.scope R) t

variable {v : Value} {cond : Formula}

theorem Fills.grow (h : Fills R vars g v p) (hg : g.Grows g') : Fills R vars g' v p := by
  match p with
  | .wildcard _ => trivial
  | .name x _ =>
    obtain ⟨hx, t, ht, hv⟩ := h
    exact ⟨hx, t, ht, hv.extend v (hg.extends R _)⟩
  | .elem .array x i _ =>
    obtain ⟨hx, u, t, n, hu, hb, hi, hv⟩ := h
    exact ⟨hx, u, t, n, hu, hb, hi.extend i (hg.extends R _), hv.extend v (hg.extends R _)⟩
  | .elem .tuple x i _ =>
    obtain ⟨hx, u, ts, n, t, hu, hb, hn, ht, hv⟩ := h
    exact ⟨hx, u, ts, n, t, hu, hb, hn, ht, hv.extend v (hg.extends R _)⟩

/-- A write to an element replaces the array or tuple. -/
theorem of_update {shape : Shape} {x : String} {i b : Value} {u : Ty} {o : Origin} (hs : s.Typed R vars g)
    (hx : x ≠ "") (hu : vars.get? x = some u) (hbase : s.values.get? x = some b)
    (hut : (Value.update shape b i v).Typed R.bounds (g.scope R) u.bare)
    (heval : ∀ {I : Interp} {ρ : Valuation}, I.Regular R.calls → ρ.Fits g.symbols →
      (Value.update shape b i v).eval I ρ = (b.eval I ρ).put (i.eval I ρ).toInt (v.eval I ρ))
    (h : Gives (write s (.elem shape x i o) v) g s' g') :
    Updates s s' g g' ∧ g'.symbols = g.symbols ∧ s'.Typed R vars g' ∧
      ∀ {I : Interp} {ρ σ : Valuation}, I.Regular R.calls → s.Matches I vars g ρ σ →
        s'.Matches I vars g' ρ ((Write.of I ρ (.elem shape x i o, v)).apply σ) := by
  have hvar : s.isVariable x = true := by simp [SymState.isVariable, NameMap.contains, hbase]
  have hvalue : s.valueOf x = b := by simp [SymState.valueOf, hbase]
  simp only [write, Place.base, hvar, hvalue, Bool.not_true, Bool.false_eq_true, if_false] at h
  obtain ⟨w, g1, h1, h2⟩ := h.bind
  obtain ⟨rfl, rfl⟩ := gives_pure h2
  obtain rfl := eq_of_keep hut.isWhole h1
  have hsame := same_keep h1
  have hadj := NameMap.adjoins_self hu
  refine ⟨⟨rfl, rfl, hsame.grows, hsame.obligations⟩, hsame.symbols,
    (hs.set hadj hut).grow hsame.grows, fun {I ρ σ} hI hm => ?_⟩
  have hval := hm.values x u hu
  simp only [Substitution.valuation, Substitution.image, hbase, Option.getD_some] at hval
  have hm' := hm.set (v := Value.update shape b i v) hadj
  rw [heval hI hm.fits, hval] at hm'
  refine ⟨hsame.symbols ▸ hm'.fits, ?_, hm'.facts⟩
  simpa [Write.of, Write.apply, Place.base, Place.position, hx] using hm'.values

theorem of_write (hs : s.Typed R vars g) (hp : Fills R vars g v p) (h : Gives (write s p v) g s' g') :
    Updates s s' g g' ∧ g'.symbols = g.symbols ∧ s'.Typed R vars g' ∧
      ∀ {I : Interp} {ρ σ : Valuation}, I.Regular R.calls → s.Matches I vars g ρ σ →
        s'.Matches I vars g' ρ ((Write.of I ρ (p, v)).apply σ) := by
  match p with
  | .wildcard o =>
    obtain ⟨rfl, rfl⟩ := gives_pure h
    exact ⟨.refl _ _, rfl, hs, fun _ hm => hm⟩
  | .name x o =>
    obtain ⟨hx, t, ht, hv⟩ := hp
    obtain ⟨b, hbase, -⟩ := hs.values x t ht
    have hvar : s.isVariable x = true := by simp [SymState.isVariable, NameMap.contains, hbase]
    simp only [write, Place.base, hvar, Bool.not_true, Bool.false_eq_true, if_false] at h
    obtain ⟨rfl, rfl⟩ := gives_pure h
    have hadj := NameMap.adjoins_self ht
    refine ⟨⟨rfl, rfl, .refl _, rfl⟩, rfl, hs.set hadj hv, fun {I ρ σ} _ hm => ?_⟩
    simpa [Write.of, Write.apply, Place.base, Place.position, hx] using hm.set (v := v) hadj
  | .elem .array x i o =>
    obtain ⟨hx, u, t, n, hu, hb, hi, hv⟩ := hp
    obtain ⟨b, hbase, hbt⟩ := hs.values x u hu
    rw [hb] at hbt
    refine of_update hs hx hu hbase (hb ▸ Value.typed_update_array hbt hi hv) ?_ h
    exact fun hI hρ => Value.eval_update_array (Γ := g.scope R) hI hρ hbt hv
  | .elem .tuple x i o =>
    obtain ⟨hx, u, ts, n, t, hu, hb, hn, ht, hv⟩ := hp
    obtain ⟨b, hbase, hbt⟩ := hs.values x u hu
    rw [hb] at hbt
    refine of_update hs hx hu hbase (hb ▸ Value.typed_update_tuple hbt hn ht hv) ?_ h
    exact fun _ _ => Value.eval_update_tuple

theorem of_writeAll (hs : s.Typed R vars g) (hps : ∀ pv ∈ ps, Fills R vars g pv.2 pv.1)
    (h : Gives (writeAll s ps) g s' g') :
    Updates s s' g g' ∧ g'.symbols = g.symbols ∧ s'.Typed R vars g' ∧
      ∀ {I : Interp} {ρ σ : Valuation}, I.Regular R.calls → s.Matches I vars g ρ σ →
        s'.Matches I vars g' ρ ((ps.map (Write.of I ρ)).foldl Write.apply σ) := by
  induction ps generalizing s g with
  | nil =>
    obtain ⟨rfl, rfl⟩ := gives_pure h
    exact ⟨.refl _ _, rfl, hs, fun _ hm => hm⟩
  | cons pv ps ih =>
    obtain ⟨s1, g1, h1, h2⟩ := h.bind
    obtain ⟨hup1, hsym1, hs1, hm1⟩ := of_write hs (hps pv List.mem_cons_self) h1
    obtain ⟨hup2, hsym2, hs2, hm2⟩ := ih hs1
      (fun qv hqv => (hps qv (List.mem_cons_of_mem pv hqv)).grow hup1.grows) h2
    exact ⟨hup1.trans hup2, hsym2.trans hsym1, hs2, fun hI hm => hm2 hI (hm1 hI hm)⟩

theorem Conditions.refl (hs : s.Typed R vars g) :
    Conditions R vars [] (fun _ _ => True) s s g g :=
  ⟨.refl hs, fun _ _ hm _ => ⟨trivial, hm⟩, fun _ => rfl, fun _ _ _ _ _ _ _ _ _ => adds_of_eq rfl⟩

theorem Conditions.congr {nodes : List Node} {D D' : Interp → Valuation → Prop}
    (h : Conditions R vars nodes D s s' g g') (hD : ∀ I ρ, D I ρ ↔ D' I ρ) :
    Conditions R vars nodes D' s s' g g' := by
  obtain rfl : D = D' := by
    funext I ρ
    exact propext (hD I ρ)
  exact h

theorem Evaluated.sees (h : Evaluated R vars s s' g g') (hsees : Sees ctx R vars s) :
    Sees ctx R vars s' := by
  unfold Sees programScope
  rw [h.frame]
  exact hsees

section Targets

variable (hs : s.Typed R vars g) (hR : R.Suits ctx.functions) (hsees : Sees ctx R vars s)
include hs hR hsees

/-- The place that is written to is found. -/
theorem of_location {p' : Place} {t : Ty}
    (hp : (∃ o, p = .wildcard o) ∨ p.base ≠ "" ∧ p.Typed R.bounds ⟨vars, R.calls⟩ t)
    (h : Gives (location ctx s subject p) g (p', s') g') :
    Conditions R vars p.targetNodes (fun I ρ => t = .unit ∨ p.IsTarget I ρ) s s' g g' ∧
      (∀ v : Value, v.Typed R.bounds (g'.scope R) t → Fills R vars g' v p') ∧
      p'.base = p.base ∧ Meant R vars s g g' fun I ρ σ => p'.position I ρ = p.position I σ := by
  match p with
  | .wildcard o =>
    obtain ⟨heq, rfl⟩ := gives_pure h
    cases heq
    refine ⟨?_, fun _ _ => trivial, rfl, fun _ _ _ => rfl⟩
    exact (Conditions.refl hs).congr fun _ _ => by simp [Place.IsTarget]
  | .name x o =>
    obtain ⟨hx, u, hu, rfl⟩ := hp.resolve_left (by simp)
    obtain ⟨heq, rfl⟩ := gives_pure h
    cases heq
    refine ⟨?_, fun v hv => ⟨hx, u, hu, hv⟩, rfl, fun _ _ _ => rfl⟩
    exact (Conditions.refl hs).congr fun _ _ => by simp [Place.IsTarget]
  | .elem shape x i o =>
    obtain ⟨hx, hpt⟩ := hp.resolve_left (by simp)
    obtain ⟨s1, g1, h1, h⟩ := h.bind
    obtain ⟨_, g2, h2, h3⟩ := (afterRequire h).bind
    have hplace : (Value.place (.elem shape x i o) none).Typed R.bounds ⟨vars, R.calls⟩ t := hpt
    have hcond := of_conditionsOfValue hs hR hsees hplace h1
    obtain ⟨hgrow, hsym, hobl, halike⟩ := of_noteAlikes h2
    obtain ⟨heq, rfl⟩ := gives_pure h3
    cases heq
    have hrespects := hcond.typed.respects i.freeVars
    refine ⟨hcond.grow hgrow hsym hobl, ?_⟩
    cases shape with
    | array =>
      obtain ⟨u, n, hu, hb, hn, hi⟩ := hpt
      refine ⟨fun v hv => ⟨hx, u, t, n, hu, hb, ?_, hv⟩, rfl, fun hI ha hm => ?_⟩
      · exact (hi.substNonempty i hrespects).extend _ (hgrow.extends R _)
      · have hrespects' := hs.respects i.freeVars
        simp only [Place.substIndex, Place.position, hcond.values]
        rw [hi.eval_substNonempty i hrespects' hI ?_ hm.fits, hi.eval_eq hm.agreeFor]
        intro a h
        refine ha a (halike a ?_)
        rw [hcond.symbols, hcond.values]
        exact h
    | tuple =>
      obtain ⟨u, ts, n, hu, hb, hn, ht⟩ := hpt
      have hn' := Value.constantIndex?_subst s'.values hn
      refine ⟨fun v hv => ⟨hx, u, ts, n, t, hu, hb, hn', ht, hv⟩, rfl, fun _ _ _ => ?_⟩
      simp only [Place.substIndex, Place.position, Value.eval_of_constantIndex hn',
        Value.eval_of_constantIndex hn]

/-- Whether an assignment is well-typed and does not write to a variable with the empty name. -/
def Writes (R : Rules) (vars : NameMap Ty) (a : Assignment) : Prop :=
  ∃ t, (a.value.Typed R.bounds ⟨vars, R.calls⟩ t ∧
      (R.unitLiterals → t = .unit → ∃ o, a.value = .unit o)) ∧
    ((∃ o, a.target = .wildcard o) ∨
      a.target.base ≠ "" ∧ a.target.Typed R.bounds ⟨vars, R.calls⟩ t) ∧
    (R.unitLiterals → t = .unit → ∀ I ρ, a.target.IsTarget I ρ)

omit hs hsees in
/-- What evaluating assignments does: the state after it, the writes that are made, and the connection
between obligations and runs, in both directions. -/
theorem of_targets (hs : s.Typed R vars g) (hsees : Sees ctx R vars s)
    (has : ∀ a ∈ as, Writes R vars a) (h : Gives (targets ctx subject s as) g (ps, s') g') :
    Evaluated R vars s s' g g' ∧ (∀ pv ∈ ps, Fills R vars g' pv.2 pv.1) ∧
      (∀ {M : Machine} {gF : Generator} {ρ σ : Valuation}, Sound R M gF → g'.Grows gF →
        s.Matches M.interp vars g ρ σ → (M.writes σ as).Ensures R.unitLiterals fun ws =>
          ws = ps.map (Write.of M.interp ρ) ∧ s'.Matches M.interp vars g' ρ σ) ∧
      (R.calls = [] → s' = s) ∧
      (R.calls = [] → (∀ n, R.bounds.lengths n → n < 2 ^ 31) → ∀ {I : Interp} {ρ σ : Valuation},
        I.Regular R.calls → I.Equates g'.alikes → s.Matches I vars g ρ σ →
          ((Machine.ofInterp I).writes σ as).Safe → Adds (Obligation.HoldsAt I ρ) g g' ∧
            (Machine.ofInterp I).writes σ as = .done (ps.map (Write.of I ρ))) := by
  induction as generalizing s g ps with
  | nil =>
    obtain ⟨heq, rfl⟩ := gives_pure h
    cases heq
    exact ⟨.refl hs, by simp, fun _ _ hm => ⟨rfl, hm⟩, fun _ => rfl,
      fun _ _ _ _ _ _ _ _ _ => ⟨adds_of_eq rfl, rfl⟩⟩
  | cons a as ih =>
    obtain ⟨⟨v, s1⟩, g1, h1, h⟩ := h.bind
    obtain ⟨⟨p, s2⟩, g2, h2, h⟩ := h.bind
    obtain ⟨⟨qs, s3⟩, g3, h3, h4⟩ := h.bind
    obtain ⟨heq, rfl⟩ := gives_pure h4
    cases heq
    obtain ⟨t, ⟨hv, hunit⟩, hp, htarget⟩ := has a List.mem_cons_self
    obtain ⟨hc1, hvt, hveval⟩ := of_value hs hR hsees hv h1
    obtain ⟨hc2, hfills, hbase, hpos⟩ := of_location hc1.typed hR (hc1.sees hsees) hp h2
    have he12 := hc1.toEvaluated.trans hc2.toEvaluated
    obtain ⟨he3, hqs, hsound, hfree, hcomplete⟩ := ih hc2.typed (he12.sees hsees)
      (fun a' ha' => has a' (List.mem_cons_of_mem a ha')) h3
    have hwrite : ∀ {I : Interp} {ρ σ : Valuation}, I.Regular R.calls →
        I.Equates g'.alikes → s.Matches I vars g ρ σ → s1.Matches I vars g1 ρ σ →
          Write.of I ρ (p, v) = ⟨a.target.base, a.target.position I σ, a.value.eval I σ⟩ := by
      intro I ρ σ hI ha hm hm1
      have ha2 := he3.grows.equates ha
      have ha1 := hc2.grows.equates ha2
      simp only [Write.of, hbase, hpos hI ha2 hm1, hveval hI ha1 hm]
    refine ⟨he12.trans he3, ?_, ?_, ?_, ?_⟩
    · intro pv hpv
      rcases List.mem_cons.mp hpv with rfl | hpv
      · exact (hfills v (hvt.extend v (hc2.grows.extends R _))).grow he3.grows
      · exact hqs pv hpv
    · intro M gF ρ σ hF hgF hm
      have ha := hF.of_grows hgF
      have hgF2 := he3.grows.trans hgF
      have hgF1 := hc2.grows.trans hgF2
      unfold Machine.writes
      rw [Ending.ensures_bind]
      refine Machine.ensures_evaluate fun hans => ?_
      obtain ⟨hdef, hm1⟩ := hc1.sound hF hgF1 hm hans
      refine ⟨fun hsafe => ?_, ?_⟩
      · rcases hdef with ht | hdef
        · obtain ⟨o, ho⟩ := hunit hsafe ht
          rw [ho]
          trivial
        · exact hdef
      rw [Ending.ensures_bind]
      refine Machine.ensures_index fun hans => ?_
      obtain ⟨hdef, hm2⟩ := hc2.sound hF hgF2 hm1 hans
      refine ⟨fun hsafe => hdef.elim (fun ht => htarget hsafe ht _ _) id, ?_⟩
      rw [Ending.ensures_bind]
      refine (hsound hF hgF hm2).mono ?_
      rintro ws ⟨rfl, hm3⟩
      refine ⟨?_, hm3⟩
      rw [List.map_cons, hwrite hF.regular ha hm hm1]
    · intro hcalls
      exact (hfree hcalls).trans ((hc2.callFree hcalls).trans (hc1.callFree hcalls))
    · intro hcalls hlen I ρ σ hI ha hm hsafe
      obtain rfl : s1 = s := hc1.callFree hcalls
      obtain rfl : s2 = s1 := hc2.callFree hcalls
      have ha2 := he3.grows.equates ha
      have ha1 := hc2.grows.equates ha2
      have hm1 : s2.Matches I vars g1 ρ σ := hm.withSymbols hc1.symbols
      have hm2 : s2.Matches I vars g2 ρ σ := hm1.withSymbols hc2.symbols
      unfold Ending.Safe Machine.writes at hsafe
      rw [Ending.ensures_bind] at hsafe
      obtain ⟨hdef1, hsafe, hrun1⟩ := Machine.of_ensures_evaluate hsafe
      rw [Ending.ensures_bind] at hsafe
      obtain ⟨hdef2, hsafe, hrun2⟩ := Machine.of_ensures_index hsafe
      rw [Ending.ensures_bind] at hsafe
      obtain ⟨hadds, hrun3⟩ := hcomplete hcalls hlen hI ha hm2 (hsafe.mono fun _ _ => trivial)
      refine ⟨((hc1.complete hcalls hlen hI ha1 hm (.inr hdef1)).trans
        (hc2.complete hcalls hlen hI ha2 hm1 (.inr hdef2))).trans hadds, ?_⟩
      unfold Machine.writes Machine.value
      rw [hrun1, Ending.done_bind, hrun2, Ending.done_bind, hrun3, List.map_cons,
        hwrite hI ha hm hm1]
      rfl

end Targets

theorem of_assign (hs : s.Typed R vars g) (hR : R.Suits ctx.functions) (hsees : Sees ctx R vars s)
    (has : ∀ a ∈ as, Writes R vars a) (h : Gives (assign ctx s subject as) g s' g') :
    s'.frame = s.frame ∧ g'.symbols = g.symbols ∧ g.Grows g' ∧ s'.Typed R vars g' ∧
      (∀ f ∈ s.facts, f ∈ s'.facts) ∧
      AddsUnder s g g' ∧
      (∀ {M : Machine} {gF : Generator} {ρ : Valuation} {k : Config}, Sound R M gF → g'.Grows gF →
        s.Matches M.interp vars g ρ k.store → (M.assign k as).Ensures R.unitLiterals fun k' =>
          s'.Matches M.interp vars g' ρ k'.store) ∧
      (R.calls = [] → s'.facts = s.facts) ∧
      (R.calls = [] → (∀ n, R.bounds.lengths n → n < 2 ^ 31) → ∀ {I : Interp} {ρ : Valuation} {k : Config},
        I.Regular R.calls → I.Equates g'.alikes → s.Matches I vars g ρ k.store →
          ((Machine.ofInterp I).assign k as).Safe → Adds (Obligation.HoldsAt I ρ) g g' ∧
            ∃ σ, s'.Matches I vars g' ρ σ ∧
              ∀ ch, (Machine.ofInterp I).assign ⟨k.store, ch⟩ as = .done ⟨σ, ch⟩) := by
  obtain ⟨⟨ps, s1⟩, g1, h1, h2⟩ := h.bind
  obtain ⟨he, hfills, hsound, hfree, hcomplete⟩ := of_targets hR hs hsees has h1
  obtain ⟨hup, hsym, hs', hm'⟩ := of_writeAll he.typed hfills h2
  refine ⟨hup.frame.trans he.frame, hsym.trans he.symbols, he.grows.trans hup.grows, hs', ?_, ?_, ?_,
    ?_, ?_⟩
  · exact fun f hf => hup.facts ▸ he.facts f hf
  · exact he.adds.trans (adds_of_eq hup.obligations)
  · intro M gF ρ k hF hgF hm
    unfold Machine.assign
    rw [Ending.ensures_bind]
    refine (hsound hF (hup.grows.trans hgF) hm).mono ?_
    rintro ws ⟨rfl, hm1⟩
    exact hm' hF.regular hm1
  · intro hcalls
    rw [hup.facts, hfree hcalls]
  · intro hcalls hlen I ρ k hI ha hm hsafe
    obtain rfl := hfree hcalls
    unfold Ending.Safe Machine.assign at hsafe
    rw [Ending.ensures_bind] at hsafe
    obtain ⟨hadds, hrun⟩ := hcomplete hcalls hlen hI (hup.grows.equates ha) hm
      (hsafe.mono fun _ _ => trivial)
    refine ⟨hadds.trans (adds_of_eq hup.obligations), _,
      hm' hI (hm.withSymbols he.symbols), fun ch => ?_⟩
    unfold Machine.assign
    rw [hrun]
    rfl

/-! ### Destructuring -/

/-- The targets of a tuple get its elements. -/
theorem of_bindElements {o : Origin} {ts : List Ty} {ds : List Declaration} {i : ℕ} {e : Scoping.Env}
    (hs : s.Typed R e.scope.vars g) (hwild : e.vars.get? "_" = none)
    (hv : v.Typed R.bounds (g.scope R) (.tuple ts))
    (hds : ∀ (j : ℕ) (d : Declaration), ds[j]? = some d → d.name ≠ "_" → ts[i + j]? = some d.type.bare)
    (hlen : i + ds.length ≤ 2 ^ 31) (h : Gives (bindElements s v i ds) g s' g') :
    Updates s s' g g' ∧ g'.symbols = g.symbols ∧
      s'.Typed R (Scoping.declareAll o e ds).1.scope.vars g' ∧
      Meant R e.scope.vars s g g' fun I ρ σ =>
        s'.Matches I (Scoping.declareAll o e ds).1.scope.vars g' ρ (σ.bindElements (v.eval I ρ) i ds) := by
  induction ds generalizing s g e i with
  | nil =>
    obtain ⟨rfl, rfl⟩ := gives_pure h
    exact ⟨.refl _ _, rfl, hs, fun _ _ hm => hm⟩
  | cons d ds ih =>
    have hds' : ∀ (j : ℕ) (d' : Declaration), ds[j]? = some d' → d'.name ≠ "_" →
        ts[i + 1 + j]? = some d'.type.bare := by
      intro j d' hj hd'
      have := hds (j + 1) d' (by simpa using hj) hd'
      rwa [show i + (j + 1) = i + 1 + j by omega] at this
    have hlen' : i + 1 + ds.length ≤ 2 ^ 31 := by
      rw [List.length_cons] at hlen
      omega
    unfold bindElements at h
    split_ifs at h with hd
    · have hdeclare : Scoping.declare e d.name d.type d.mutable = e := if_pos hd
      simp only [Scoping.declareAll, hdeclare]
      obtain ⟨hup, hsym, hs', hm'⟩ := ih hs hwild hv hds' hlen' h
      refine ⟨hup, hsym, hs', fun hI ha hm => ?_⟩
      simp only [Valuation.bindElements, if_pos hd]
      exact hm' hI ha hm
    · obtain ⟨_, g1, h1, h⟩ := (afterRequire h).bind
      obtain ⟨w, g2, h2, h3⟩ := h.bind
      have hindex : (Value.int (Int32.ofNat i)).constantIndex? = some i :=
        Value.constantIndex?_int (by rw [List.length_cons] at hlen; omega)
      have ht : ts[i]? = some d.type.bare := hds 0 d rfl hd
      have helem := Value.finds_elementOf.typed_tuple hindex ht hv hv
      obtain ⟨hgrow1, hsym1, hobl1, halike⟩ := of_noteAlikes h1
      obtain rfl := eq_of_keep helem.isWhole h2
      have hsame := same_keep h2
      have hgrow := hgrow1.trans hsame.grows
      have hsym : g2.symbols = g.symbols := hsame.symbols.trans hsym1
      have hadj := Scoping.adjoins_declare hwild d.name d.type d.mutable
      have hwild' : (Scoping.declare e d.name d.type d.mutable).vars.get? "_" = none := by
        rw [Scoping.declare, if_neg hd, Scoping.Env.get?_add, if_neg hd, hwild]
      have hs1 := (hs.set hadj helem).grow hgrow
      obtain ⟨hup, hsym', hs', hm'⟩ := ih hs1 hwild' (hv.extend v (hgrow.extends R _)) hds' hlen' h3
      refine ⟨⟨hup.frame, hup.facts, hgrow.trans hup.grows,
        (hup.obligations.trans hsame.obligations).trans hobl1⟩, hsym'.trans hsym, hs', ?_⟩
      intro I ρ σ hI ha hm
      have heval : (Value.element .tuple v (.int (Int32.ofNat i))).eval I ρ = (v.eval I ρ).get i := by
        refine Value.eval_elementOf_tuple (Γ := g.scope R) hindex ht hI hm.fits v v hv rfl ?_
        exact ((hsame.grows.trans hup.grows).equates ha).of_subset halike
      have hm1 := hm.set (v := Value.element .tuple v (.int (Int32.ofNat i))) hadj
      rw [heval] at hm1
      simp only [Valuation.bindElements, if_neg hd]
      exact hm' hI ha (hm1.withSymbols hsym)

/-! ### Branches -/

theorem of_mergeValue {v' w : Value} (h : Gives (mergeValue cond v v') g w g') :
    ((Value.ternary cond v v').isWhole = true → w = Value.ternary cond v v') ∧
      g.Notes g' (Value.ternaryAlikes g.symbols cond v v') :=
  of_noteAlikes_keep (afterRequire h)

/-- A variable that is merged keeps its value, if both branches do, or gets the conditional value. -/
theorem of_mergeValues {t e : SymState} {xs : List String} (h : Gives (mergeValues cond t e s xs) g s' g') :
    Updates s s' g g' ∧ g'.symbols = g.symbols ∧ ∀ x,
      ((x ∉ xs ∨ t.valueOf x = s.valueOf x ∧ e.valueOf x = s.valueOf x) →
        s'.values.get? x = s.values.get? x) ∧
      (x ∈ xs → ¬ (t.valueOf x = s.valueOf x ∧ e.valueOf x = s.valueOf x) →
        (∀ a ∈ Value.ternaryAlikes g.symbols cond (t.valueOf x) (e.valueOf x), a ∈ g'.alikes) ∧
        ((Value.ternary cond (t.valueOf x) (e.valueOf x)).isWhole = true →
          s'.values.get? x = some (Value.ternary cond (t.valueOf x) (e.valueOf x)))) := by
  induction xs generalizing s g with
  | nil =>
    obtain ⟨rfl, rfl⟩ := gives_pure h
    exact ⟨.refl _ _, rfl, fun x => ⟨fun _ => rfl, by simp⟩⟩
  | cons y xs ih =>
    unfold mergeValues at h
    split_ifs at h with hkept
    · obtain ⟨hup, hsym, hvalues⟩ := ih h
      refine ⟨hup, hsym, fun x => ⟨fun hx => (hvalues x).1 (hx.imp_left ?_), fun hx hchanged => ?_⟩⟩
      · exact fun hx hmem => hx (List.mem_cons_of_mem _ hmem)
      · refine (hvalues x).2 ((List.mem_cons.mp hx).resolve_left ?_) hchanged
        rintro rfl
        exact hchanged hkept
    · obtain ⟨w, g1, h1, h2⟩ := h.bind
      obtain ⟨hw, hgrow, hsym, hobl, halike⟩ := of_mergeValue h1
      obtain ⟨hup, hsym', hvalues⟩ := ih h2
      refine ⟨⟨hup.frame, hup.facts, hgrow.trans hup.grows, hup.obligations.trans hobl⟩,
        hsym'.trans hsym, fun x => ?_⟩
      by_cases hxy : x = y
      · subst hxy
        refine ⟨fun hx => (hx.elim (absurd List.mem_cons_self ·) hkept).elim, fun _ _ =>
          ⟨fun a ha => hup.grows.alikes.subset (halike a ha), fun hwhole => ?_⟩⟩
        -- Its name may come once more, and then the value is the same again.
        by_cases hmem : x ∈ xs ∧ ¬ (t.valueOf x = (s.set x w).valueOf x ∧ e.valueOf x = (s.set x w).valueOf x)
        · exact ((hvalues x).2 hmem.1 hmem.2).2 hwhole
        · rw [(hvalues x).1 (by tauto), ← hw hwhole]
          simp [SymState.set]
      · have hget : (s.set y w).values.get? x = s.values.get? x := by simp [SymState.set, Ne.symm hxy]
        have hx := hvalues x
        rw [SymState.valueOf, SymState.valueOf, hget, hsym] at hx
        simpa [hxy, SymState.valueOf] using hx

theorem valuation_of_get? {x : String} {I : Interp} {ρ : Valuation} (h : s.values.get? x = some v) :
    s.values.valuation I ρ x = v.eval I ρ := by
  simp [Substitution.valuation, Substitution.image, h]

/-- After a conditional the variables have the values that they have after the branch that is taken. -/
theorem of_merge {t e : SymState} (hs : s.Typed R vars g) (ht : t.Typed R vars g) (he : e.Typed R vars g)
    (hcond : cond.Typed R.bounds (g.scope R)) (h : Gives (merge cond t e s) g s' g') :
    Updates s s' g g' ∧ g'.symbols = g.symbols ∧ s'.Typed R vars g' ∧
      ∀ {I : Interp} {ρ σ : Valuation}, I.Equates g'.alikes → ρ.Fits g.symbols →
        (∀ f ∈ s.facts, f.Holds I ρ) →
        (cond.Holds I ρ → (t.values.valuation I ρ).AgreeFor σ vars) →
        (¬ cond.Holds I ρ → (e.values.valuation I ρ).AgreeFor σ vars) →
          s'.Matches I vars g' ρ σ := by
  obtain ⟨_, g1, h1, h2⟩ := h.bind
  have hsame := same_noteLoss h1
  obtain ⟨hup, hsym, hvalues⟩ := of_mergeValues h2
  have hgrow := hsame.grows.trans hup.grows
  -- What is known of a variable: both branches keep its value, or it has a conditional value.
  have hvariable : ∀ x u, vars.get? x = some u → ∃ v w r, t.values.get? x = some v ∧
      e.values.get? x = some w ∧ s'.values.get? x = some r ∧ r.Typed R.bounds (g.scope R) u.bare ∧
        ((v = r ∧ w = r) ∨ r = Value.ternary cond v w ∧
          ∀ a ∈ Value.ternaryAlikes g.symbols cond v w, a ∈ g'.alikes) := by
    intro x u hx
    obtain ⟨b, hb, hbt⟩ := hs.values x u hx
    obtain ⟨v, hv, hvt⟩ := ht.values x u hx
    obtain ⟨w, hw, hwt⟩ := he.values x u hx
    have hmerged := hvalues x
    simp only [SymState.valueOf, hb, hv, hw, Option.getD_some] at hmerged
    by_cases hkept : v = b ∧ w = b
    · exact ⟨v, w, b, hv, hw, hmerged.1 (.inr hkept), hbt, .inl hkept⟩
    · have htern := Value.typed_ternary hcond hvt hwt
      obtain ⟨halike, hset⟩ := hmerged.2 ((NameMap.mem_names_iff _ _).mpr ⟨b, hb⟩) hkept
      exact ⟨v, w, _, hv, hw, hset htern.isWhole, htern, .inr ⟨rfl, hsame.symbols ▸ halike⟩⟩
  refine ⟨⟨hup.frame, hup.facts, hgrow, hup.obligations.trans hsame.obligations⟩,
    hsym.trans hsame.symbols, ⟨fun x u hx => ?_, fun f hf => ?_⟩, ?_⟩
  · obtain ⟨-, -, r, -, -, hr, hrt, -⟩ := hvariable x u hx
    exact ⟨r, hr, hrt.extend r (hgrow.extends R _)⟩
  · rw [hup.facts] at hf
    exact (hs.facts f hf).extend f (hgrow.extends R _)
  · intro I ρ σ ha hρ hfacts hthen helse
    refine ⟨(hsym.trans hsame.symbols) ▸ hρ, fun x u hx => ?_, fun f hf => hfacts f (hup.facts ▸ hf)⟩
    obtain ⟨v, w, r, hv, hw, hr, -, hmeans⟩ := hvariable x u hx
    have hbranches : (cond.Holds I ρ → r.eval I ρ = v.eval I ρ) ∧
        (¬ cond.Holds I ρ → r.eval I ρ = w.eval I ρ) := by
      rcases hmeans with ⟨rfl, rfl⟩ | ⟨rfl, halike⟩
      · exact ⟨fun _ => rfl, fun _ => rfl⟩
      · rw [Value.eval_ternary hρ fun a h => ha a (halike a h)]
        exact ⟨fun hc => if_pos hc, fun hc => if_neg hc⟩
    rw [valuation_of_get? hr]
    by_cases hc : cond.Holds I ρ
    · rw [hbranches.1 hc, ← hthen hc x u hx, valuation_of_get? hv]
    · rw [hbranches.2 hc, ← helse hc x u hx, valuation_of_get? hw]

theorem values_foldl_set (source : SymState) (xs : List String) (s : SymState) (x : String) :
    (xs.foldl (fun s x => s.set x (source.valueOf x)) s).values.get? x =
      if x ∈ xs then some (source.valueOf x) else s.values.get? x := by
  induction xs generalizing s with
  | nil => simp
  | cons y ys ih =>
    rw [List.foldl_cons, ih]
    by_cases hys : x ∈ ys
    · simp [hys]
    · by_cases hxy : x = y
      · subst hxy
        simp [hys, SymState.set]
      · simp [hys, hxy, SymState.set, Ne.symm hxy]

theorem foldl_set_rest (source : SymState) (xs : List String) (s : SymState) :
    (xs.foldl (fun s x => s.set x (source.valueOf x)) s).facts = s.facts ∧
      (xs.foldl (fun s x => s.set x (source.valueOf x)) s).frame = s.frame := by
  induction xs generalizing s with
  | nil => exact ⟨rfl, rfl⟩
  | cons y ys ih => exact ih (s.set y (source.valueOf y))

/-- The variables of a state take over their values in another one. -/
theorem of_copyValues {source : SymState} (hs : s.Typed R vars g) (hsource : source.Typed R vars g)
    (h : Gives (copyValues source s) g s' g') :
    Updates s s' g g' ∧ g'.symbols = g.symbols ∧ s'.Typed R vars g' ∧
      ∀ {I : Interp} {ρ σ : Valuation}, ρ.Fits g.symbols → (∀ f ∈ s.facts, f.Holds I ρ) →
        (source.values.valuation I ρ).AgreeFor σ vars → s'.Matches I vars g' ρ σ := by
  obtain ⟨_, g1, h1, h2⟩ := h.bind
  have hsame := same_noteLoss h1
  obtain ⟨rfl, rfl⟩ := gives_pure h2
  obtain ⟨hfacts, hframe⟩ := foldl_set_rest source s.values.names s
  have hget : ∀ x u, vars.get? x = some u → ∃ v, source.values.get? x = some v ∧
      v.Typed R.bounds (g.scope R) u.bare ∧
      (s.values.names.foldl (fun s x => s.set x (source.valueOf x)) s).values.get? x = some v := by
    intro x u hx
    obtain ⟨b, hb, -⟩ := hs.values x u hx
    obtain ⟨v, hv, hvt⟩ := hsource.values x u hx
    refine ⟨v, hv, hvt, ?_⟩
    rw [values_foldl_set, if_pos ((NameMap.mem_names_iff _ _).mpr ⟨b, hb⟩)]
    simp [SymState.valueOf, hv]
  refine ⟨⟨hframe, hfacts, hsame.grows, hsame.obligations⟩, hsame.symbols, ⟨fun x u hx => ?_, ?_⟩, ?_⟩
  · obtain ⟨v, -, hvt, hset⟩ := hget x u hx
    exact ⟨v, hset, hvt.extend v (hsame.grows.extends R _)⟩
  · rw [hfacts]
    exact fun f hf => (hs.facts f hf).extend f (hsame.grows.extends R _)
  · intro I ρ σ hρ hs hσ
    refine ⟨hsame.symbols ▸ hρ, fun x u hx => ?_, fun f hf => hs f (hfacts ▸ hf)⟩
    obtain ⟨v, hv, -, hset⟩ := hget x u hx
    rw [valuation_of_get? hset, ← valuation_of_get? hv]
    exact hσ x u hx

end Generation

end Verdict
