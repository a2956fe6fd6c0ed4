import Verdict.Proofs.SideConditions
import Verdict.Proofs.Frames

/-! # What the steps of generation do

Generation keeps symbolic constants, pairs of values that are taken for one another, and obligations.
They only ever become more. This module says, for each step below commands, what it adds and what it
gives. -/

namespace Verdict

/-! ### Steps that succeed -/

/-- Whether a step of generation gives a result. -/
def GenM.Gives {α : Type} (m : GenM α) (g : Generator) (a : α) (g' : Generator) : Prop :=
  m.run g = .ok (a, g')

namespace GenM

variable {α β : Type} {m : GenM α} {g g' : Generator} {a : α}

theorem gives_pure {b : α} (h : Gives (pure a) g b g') : b = a ∧ g' = g := by
  cases h
  exact ⟨rfl, rfl⟩

theorem Gives.bind {f : α → GenM β} {b : β} (h : Gives (m >>= f) g b g') :
    ∃ a g₁, m.Gives g a g₁ ∧ (f a).Gives g₁ b g' := by
  unfold Gives at h
  rw [StateT.run_bind] at h
  cases hm : m.run g with
  | error e =>
    rw [hm] at h
    cases h
  | ok r =>
    rw [hm] at h
    exact ⟨r.1, r.2, hm, h⟩

theorem not_gives_throw {e : Stop} : ¬ Gives (throw e : GenM α) g a g' := by
  intro h
  cases h

theorem not_gives_fault {e : Fault} : ¬ Gives (Generation.fault e : GenM α) g a g' :=
  not_gives_throw

theorem Gives.modify {f : Generator → Generator} {u : Unit} (h : Gives (modify f) g u g') :
    g' = f g := by
  cases h
  rfl

theorem Gives.modifyGet {f : Generator → α × Generator} (h : Gives (modifyGet f) g a g') :
    f g = (a, g') :=
  Except.ok.inj h

theorem Gives.ofFault {r : Except Fault α} (h : Gives (Generation.ofFault r) g a g') :
    r = .ok a ∧ g' = g := by
  cases r with
  | ok b =>
    obtain ⟨rfl, rfl⟩ := gives_pure h
    exact ⟨rfl, rfl⟩
  | error e => exact absurd h not_gives_throw

theorem Gives.inScope {r : Except Fault Frame} {a : Frame} (h : Gives (Generation.inScope r) g a g') :
    r = .ok a ∧ g' = g := by
  cases r with
  | ok b =>
    obtain ⟨rfl, rfl⟩ := gives_pure h
    exact ⟨rfl, rfl⟩
  | error e => exact absurd h not_gives_throw

end GenM

/-! ### Growth -/

/-- Whether a later generator has everything that an earlier one has, and has it first. -/
structure Generator.Grows (g g' : Generator) : Prop where
  symbols : ∀ x t, g.symbols.get? x = some t → g'.symbols.get? x = some t
  alikes : g.alikes <+: g'.alikes
  obligations : g.obligations <+: g'.obligations

/-- Whether two generators have the same constants, pairs and obligations. -/
structure Generator.Same (g g' : Generator) : Prop where
  symbols : g'.symbols = g.symbols
  alikes : g'.alikes = g.alikes
  obligations : g'.obligations = g.obligations

/-- Whether a generator has grown by pairs only, some of which it has now. -/
structure Generator.Notes (g g' : Generator) (alikes : List Alike) : Prop where
  grows : g.Grows g'
  symbols : g'.symbols = g.symbols
  obligations : g'.obligations = g.obligations
  alikes : ∀ a ∈ alikes, a ∈ g'.alikes

namespace Generator

variable {g g' g'' : Generator}

theorem Grows.refl (g : Generator) : g.Grows g := ⟨fun _ _ h => h, List.prefix_rfl, List.prefix_rfl⟩

theorem Grows.trans (h : g.Grows g') (h' : g'.Grows g'') : g.Grows g'' :=
  ⟨fun x t hx => h'.symbols x t (h.symbols x t hx), h.alikes.trans h'.alikes,
    h.obligations.trans h'.obligations⟩

theorem Grows.equates {I : Interp} (h : g.Grows g') (ha : I.Equates g'.alikes) : I.Equates g.alikes :=
  ha.of_subset fun _ ha => h.alikes.subset ha

theorem Same.refl (g : Generator) : g.Same g := ⟨rfl, rfl, rfl⟩

theorem Same.grows (h : g.Same g') : g.Grows g' :=
  ⟨fun _ _ hx => h.symbols ▸ hx, h.alikes ▸ List.prefix_rfl, h.obligations ▸ List.prefix_rfl⟩

/-- The scope of the symbolic constants, with the functions that may be called. -/
def scope (g : Generator) (R : Rules) : Scope := ⟨g.symbols, R.calls⟩

theorem Grows.extends (h : g.Grows g') (R : Rules) (xs : Names) :
    (g.scope R).ExtendsOn (g'.scope R) xs :=
  ⟨fun x _ t ht => ⟨t, h.symbols x t ht, rfl⟩, fun _ _ => id⟩

end Generator

namespace Generation

open GenM

variable {g g' : Generator} {need : Unit → Option Need}
variable {u : Unit} {v w : Value} {P : Obligation → Prop} {m : Substitution}

theorem same_require (h : Gives (require need) g u g') : g' = g := by
  obtain ⟨g1, g2, h1, h⟩ := h.bind
  cases h1
  split_ifs at h
  · split at h
    · exact (gives_pure h).2
    · exact absurd h not_gives_throw
  · exact (gives_pure h).2

theorem afterRequire {α : Type} {f : Unit → GenM α} {a : α} (h : Gives (require need >>= f) g a g') :
    (f ()).Gives g a g' := by
  obtain ⟨_, g1, h1, h2⟩ := h.bind
  rwa [same_require h1] at h2

theorem same_noteLoss {b : Bool} (h : Gives (noteLoss b) g u g') : g.Same g' := by
  rw [h.modify]
  exact ⟨rfl, rfl, rfl⟩

theorem same_keep (h : Gives (keep v) g w g') : g.Same g' := by
  have hk := h.modifyGet
  split_ifs at hk
  · cases hk
    exact .refl g
  · cases hk
    exact ⟨rfl, rfl, rfl⟩

/-- A value in which nothing is missing is kept as it is. -/
theorem eq_of_keep (hv : v.isWhole = true) (h : Gives (keep v) g w g') : w = v := by
  have hk := h.modifyGet
  simp only [hv, Bool.or_true, if_true, Prod.mk.injEq] at hk
  exact hk.1.symm

/-- What is done aside leaves no numbers of its values behind. -/
theorem of_aside {α : Type} {m : GenM α} {a : α} (h : Gives (aside m) g a g') :
    ∃ g₁, m.Gives g a g₁ ∧ g' = { g₁ with made := g.made } := by
  obtain ⟨g₀, _, h₀, h⟩ := h.bind
  cases h₀
  obtain ⟨b, g₁, h₁, h⟩ := h.bind
  obtain ⟨_, g₂, h₂, h₃⟩ := h.bind
  obtain ⟨rfl, rfl⟩ := gives_pure h₃
  exact ⟨g₁, h₁, h₂.modify⟩

theorem of_noteAlikes {alikes : NameMap Ty → List Alike} (h : Gives (noteAlikes alikes) g u g') :
    g.Notes g' (alikes g.symbols) := by
  rw [h.modify]
  refine ⟨⟨fun _ _ h => h, List.prefix_append _ _, List.prefix_rfl⟩, rfl, rfl, ?_⟩
  exact fun a ha => List.mem_append_right _ ha

/-! ### Obligations -/

/-- Whether an obligation for a goal has been added at a state, or none is needed. -/
def Emitted (g : Generator) (s : SymState) (goal : Formula) : Prop :=
  goal.isTrue = true ∨ ∃ o ∈ g.obligations, o.assumptions = s.facts ∧ o.goal = goal

def Adds (P : Obligation → Prop) (g g' : Generator) : Prop :=
  ∀ o ∈ g'.obligations, o ∈ g.obligations ∨ P o

theorem Adds.trans {g'' : Generator} (h : Adds P g g') (h' : Adds P g' g'') : Adds P g g'' := by
  intro o ho
  rcases h' o ho with ho | ho
  · exact h o ho
  · exact .inr ho

theorem adds_of_eq (h : g'.obligations = g.obligations) : Adds P g g' :=
  fun _ ho => .inl (h ▸ ho)

theorem Adds.mono {Q : Obligation → Prop} (h : Adds P g g') (hPQ : ∀ o, P o → Q o) :
    Adds Q g g' := fun o ho => (h o ho).imp_right (hPQ o)

theorem Emitted.grows {s : SymState} {goal : Formula} (h : Emitted g s goal) (hg : g.Grows g') :
    Emitted g' s goal :=
  h.imp_right fun ⟨o, ho, hog⟩ => ⟨o, hg.obligations.subset ho, hog⟩

theorem of_emit {ctx : GenContext} {s : SymState} {kind : ObligationKind} {subject : Subject} {goal : Formula}
    (h : Gives (emit ctx s kind subject goal) g u g') :
    g.Grows g' ∧ g'.symbols = g.symbols ∧ g'.alikes = g.alikes ∧ Emitted g' s goal ∧
      Adds (fun o => o.assumptions = s.facts ∧ o.goal = goal) g g' := by
  unfold emit at h
  split_ifs at h with hgoal
  · rw [(gives_pure h).2]
    exact ⟨.refl g, rfl, rfl, .inl hgoal, fun o ho => .inl ho⟩
  · rw [h.modify]
    refine ⟨⟨fun _ _ h => h, List.prefix_rfl, List.prefix_append _ _⟩, rfl, rfl, ?_, ?_⟩
    · exact .inr ⟨_, List.mem_append_right _ (List.mem_singleton_self _), rfl, rfl⟩
    · intro o ho
      rcases List.mem_append.mp ho with ho | ho
      · exact .inl ho
      · obtain rfl := List.mem_singleton.mp ho
        exact .inr ⟨rfl, rfl⟩

/-! ### Substitutions -/

theorem of_noteAlikes_keep {alikes : NameMap Ty → List Alike}
    (h : Gives (noteAlikes alikes >>= fun _ => keep v) g w g') :
    (v.isWhole = true → w = v) ∧ g.Notes g' (alikes g.symbols) := by
  obtain ⟨_, g1, h1, h2⟩ := h.bind
  obtain ⟨hgrow, hsym, hobl, halike⟩ := of_noteAlikes h1
  have hsame := same_keep h2
  refine ⟨fun hw => eq_of_keep hw h2, hgrow.trans hsame.grows, hsame.symbols.trans hsym,
    hsame.obligations.trans hobl, fun a ha => ?_⟩
  exact hsame.grows.alikes.subset (halike a ha)

theorem of_noteAlikes_pure {α : Type} {a b : α} {alikes : NameMap Ty → List Alike}
    (h : Gives (noteAlikes alikes >>= fun _ => pure a) g b g') :
    b = a ∧ g.Notes g' (alikes g.symbols) := by
  obtain ⟨_, g1, h1, h2⟩ := h.bind
  obtain ⟨rfl, rfl⟩ := gives_pure h2
  exact ⟨rfl, of_noteAlikes h1⟩

theorem of_substValue (h : Gives (substValue m v) g w g') :
    ((v.subst m).isWhole = true → w = v.subst m) ∧ g.Notes g' (v.alikes g.symbols m) :=
  of_noteAlikes_keep (afterRequire h)

theorem of_substFormula {f f' : Formula} (h : Gives (substFormula m f) g f' g') :
    f' = f.subst m ∧ g.Notes g' (f.alikes g.symbols m) :=
  of_noteAlikes_pure (afterRequire h)

theorem of_substExpr {e e' : Expr} (h : Gives (substExpr m e) g e' g') :
    e' = e.subst m ∧ g.Notes g' (e.alikes g.symbols m) :=
  of_noteAlikes_pure (afterRequire h)

end Generation

/-! ### Well-typed states -/

/-- Whether the values of some variables have their types, and the facts are well-typed. -/
structure SymState.Typed (R : Rules) (vars : NameMap Ty) (g : Generator) (s : SymState) : Prop where
  values : ∀ x t, vars.get? x = some t →
    ∃ v, s.values.get? x = some v ∧ v.Typed R.bounds (g.scope R) t.bare
  facts : ∀ f ∈ s.facts, f.Typed R.bounds (g.scope R)

/-- Whether a store is what the values of a state denote, for some meaning of the constants under which
the facts are true. -/
structure SymState.Matches (I : Interp) (vars : NameMap Ty) (g : Generator) (s : SymState)
    (ρ σ : Valuation) : Prop where
  fits : ρ.Fits g.symbols
  values : ∀ x t, vars.get? x = some t → s.values.valuation I ρ x = σ x
  facts : ∀ f ∈ s.facts, f.Holds I ρ

namespace SymState

variable {R : Rules} {vars : NameMap Ty} {g g' : Generator} {s : SymState} {I : Interp}
  {ρ σ : Valuation}

theorem Typed.respects (h : s.Typed R vars g) (xs : Names) :
    s.values.Respects R.bounds ⟨vars, R.calls⟩ (g.scope R) xs := by
  refine ⟨fun x _ t ht => ?_, fun _ _ => id⟩
  obtain ⟨v, hv, htyped⟩ := h.values x t ht
  simpa [Substitution.image, hv] using htyped

theorem Typed.grow (h : s.Typed R vars g) (hg : g.Grows g') : s.Typed R vars g' := by
  refine ⟨fun x t hx => ?_, fun f hf => (h.facts f hf).extend f (hg.extends R _)⟩
  obtain ⟨v, hv, htyped⟩ := h.values x t hx
  exact ⟨v, hv, htyped.extend v (hg.extends R _)⟩

theorem Matches.withSymbols (h : s.Matches I vars g ρ σ) (hsym : g'.symbols = g.symbols) :
    s.Matches I vars g' ρ σ :=
  ⟨hsym ▸ h.fits, h.values, h.facts⟩

theorem Matches.agreeFor (h : s.Matches I vars g ρ σ) :
    (s.values.valuation I ρ).AgreeFor σ vars := h.values

variable (hs : s.Typed R vars g) (hI : I.Regular R.calls) (hm : s.Matches I vars g ρ σ)
include hs hI hm

/-- The store that a state describes is well-typed. -/
theorem Matches.store_fits : σ.Fits vars := by
  intro x t hx
  obtain ⟨v, hv, htyped⟩ := hs.values x t hx
  have hval := hm.values x t hx
  unfold Substitution.valuation Substitution.image at hval
  rw [hv, Option.getD_some] at hval
  rw [← hval]
  exact (Ty.has_bare t _).mp (htyped.has_eval v hI hm.fits)

theorem Matches.eval_subst {v : Value} {t : Ty} (hv : v.Typed R.bounds ⟨vars, R.calls⟩ t)
    (ha : I.Equates (v.alikes g.symbols s.values)) :
    (v.subst s.values).eval I ρ = v.eval I σ :=
  (hv.eval_subst (hs.respects _) hI ha hm.fits).trans (hv.eval_eq hm.agreeFor)

theorem Matches.eval_substExpr {e : Expr} {t : Ty} (he : e.Typed R.bounds ⟨vars, R.calls⟩ t)
    (ha : I.Equates (e.alikes g.symbols s.values)) :
    (e.subst s.values).eval I ρ = e.eval I σ :=
  (he.eval_subst (hs.respects _) hI ha hm.fits).trans (he.eval_eq hm.agreeFor)

theorem Matches.holds_subst {f : Formula} (hf : f.Typed R.bounds ⟨vars, R.calls⟩)
    (ha : I.Equates (f.alikes g.symbols s.values)) :
    (f.subst s.values).Holds I ρ ↔ f.Holds I σ :=
  (hf.holds_subst (hs.respects _) hI ha hm.fits).trans (hf.holds_iff hm.agreeFor)

end SymState

/-! ### Obligations that hold -/

/-- The valuation in which further constants are blank. -/
noncomputable def Valuation.extend (ρ : Valuation) (old new : NameMap Ty) : Valuation := fun x =>
  if (old.get? x).isSome then ρ x else ((new.get? x).map Ty.blank).getD (ρ x)

theorem Valuation.agreeFor_extend (ρ : Valuation) (old new : NameMap Ty) :
    ρ.AgreeFor (ρ.extend old new) old := by
  intro x t hx
  simp [Valuation.extend, hx]

theorem Valuation.Fits.extend {ρ : Valuation} {old new : NameMap Ty} (h : ρ.Fits old)
    (hsub : ∀ x t, old.get? x = some t → new.get? x = some t)
    (hknown : ∀ x t, new.get? x = some t → t.hasUnknown = false) :
    (ρ.extend old new).Fits new := by
  intro x t hx
  unfold Valuation.extend
  cases hold : old.get? x with
  | some u =>
    have hu := hsub x u hold
    rw [hx, Option.some.injEq] at hu
    subst hu
    exact h x t hold
  | none =>
    rw [hx]
    exact Ty.has_blank t (hknown x t hx)

/-- Whether the types of all symbolic constants are known. -/
def Generator.Known (g : Generator) : Prop :=
  ∀ x t, g.symbols.get? x = some t → t.hasUnknown = false

/-- Whether an obligation is true for one meaning of the constants. -/
def Obligation.HoldsAt (I : Interp) (ρ : Valuation) (o : Obligation) : Prop :=
  (∀ f ∈ o.assumptions, f.Holds I ρ) → o.goal.Holds I ρ

/-- Whether all obligations of a generator are true. -/
def Generator.Discharged (I : Interp) (g : Generator) : Prop :=
  ∀ o ∈ g.obligations, ∀ ρ : Valuation, ρ.Fits g.symbols → o.HoldsAt I ρ

/-- The goal of an obligation is true where its state is possible, also for constants of which more
are added later. -/
theorem Generator.Discharged.goal {I : Interp} {R : Rules} {vars : NameMap Ty} {g gF : Generator}
    {s : SymState} {ρ σ : Valuation} {goal : Formula} (hF : gF.Discharged I) (hknown : gF.Known)
    (hg : g.Grows gF) (he : Generation.Emitted g s goal) (hs : s.Typed R vars g)
    (hgoal : goal.Typed R.bounds (g.scope R)) (hm : s.Matches I vars g ρ σ) : goal.Holds I ρ := by
  rcases he with htrue | ⟨o, ho, hfacts, rfl⟩
  · exact Formula.holds_of_isTrue htrue
  · have hagree : ρ.AgreeFor (ρ.extend g.symbols gF.symbols) g.symbols := ρ.agreeFor_extend _ _
    rw [hgoal.holds_iff (I := I) (Γ := g.scope R) hagree]
    refine hF o (hg.obligations.subset ho) _ (hm.fits.extend hg.symbols hknown) fun f hf => ?_
    rw [hfacts] at hf
    rw [← (hs.facts f hf).holds_iff (I := I) (Γ := g.scope R) hagree]
    exact hm.facts f hf

end Verdict
