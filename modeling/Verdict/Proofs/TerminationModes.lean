import Verdict.Proofs.TwinRuns

/-! # Variants only add

Where loops have to end, the variant of a loop is evaluated twice in each iteration: at its start it must not
be negative, and at its end it must be smaller. As long as no call stands in the variant, nothing is learned
from this, and no value or constant is made. So all that comes after it is as it would be without, and the
obligations of a function where nothing is shown about the end of loops are the others without those about
variants (`Function.obligations_unchecked`). -/

namespace Verdict

/-- Whether obligations of a kind are about the variant of a loop. -/
def ObligationKind.isVariant : ObligationKind → Bool
  | .variantNonnegative | .variantDecreases | .variantMissing => true
  | _ => false

/-- Whether some side conditions are those of evaluating an integer expression in a scope. -/
def Expr.Needs (Γ : Scope) (checks : List Check) (e : Expr) : Prop :=
  ((Generation.valueChecks (.ofScope Γ) e.toValue).run.run default).1 = .ok checks

/-- The scope in a frame of a function. -/
def Function.scopeIn (f : Function) (F : Frame) : Scope := F.scopeOver (Generation.ghosts f)

/-- Whether obligations are those about the variant of a loop of a function, in the frame of the loop, at one
point of its iteration: the side conditions of the variant, and then what is asked of its value. An iteration
ends in the frame that the body of the loop leads to. -/
inductive Command.Measured (f : Function) (F : Frame) : Command → List Obligation → Prop
  | absent {c inv body o facts q} (hq : Obligation.Asks f.name
      ⟨o, (Command.whileLoop c inv none body o).print⟩ facts .variantMissing (.lit false) q) :
      Measured f F (.whileLoop c inv none body o) [q]
  | start {c inv e body o facts σ checks vs q} (hneeds : e.Needs (f.scopeIn F) checks)
      (hvs : Obligation.AskAll f.name ⟨o, (Command.whileLoop c inv (some e) body o).print⟩ facts σ
        checks vs)
      (hq : Obligation.Asks f.name ⟨o, (Command.whileLoop c inv (some e) body o).print⟩ facts
        .variantNonnegative (.compare .ge (e.subst σ) (.num 0)) q) :
      Measured f F (.whileLoop c inv (some e) body o) (vs ++ [q])
  | finish {c inv e body o facts σ σ₀ F' checks vs q} (hbody : body.foldlM Frame.step F = .ok F')
      (hneeds : e.Needs (f.scopeIn F') checks)
      (hvs : Obligation.AskAll f.name ⟨o, (Command.whileLoop c inv (some e) body o).print⟩ facts σ
        checks vs)
      (hq : Obligation.Asks f.name ⟨o, (Command.whileLoop c inv (some e) body o).print⟩ facts
        .variantDecreases (.compare .lt (e.subst σ) (e.subst σ₀)) q) :
      Measured f F (.whileLoop c inv (some e) body o) (vs ++ [q])

/-- Whether some obligations are others of a function without those about the variants of its loops. Only
their positions may differ. -/
inductive Function.Sheds (functions : List Function) (f : Function) : List Obligation → List Obligation → Prop
  | nil : Sheds functions f [] []
  | keep {o os os'} (i : Nat) (hkind : o.kind.isVariant = false) (hos : Sheds functions f os os') :
      Sheds functions f (o :: os) ({ o with index := i } :: os')
  | shed {F loop qs os os'} (hloop : (F, loop) ∈ f.points functions) (hqs : loop.Measured f F qs)
      (hos : Sheds functions f os os') : Sheds functions f (qs ++ os) os'

/-! ### Relating the obligations -/

namespace Function.Sheds

variable {functions : List Function} {f : Function} {os os' qs qs' : List Obligation}

theorem append (h : f.Sheds functions os os') (h' : f.Sheds functions qs qs') :
    f.Sheds functions (os ++ qs) (os' ++ qs') := by
  induction h with
  | nil => exact h'
  | keep i hkind _ ih => exact .keep i hkind ih
  | shed hloop hqs _ ih =>
    rw [List.append_assoc]
    exact .shed hloop hqs ih

theorem measured {F : Frame} {loop : Command} (hloop : (F, loop) ∈ f.points functions)
    (hqs : loop.Measured f F qs) (h : f.Sheds functions os os') : f.Sheds functions (os ++ qs) os' := by
  simpa using h.append (.shed hloop hqs .nil)

end Function.Sheds

namespace Obligation

variable {function : String} {subject : Subject} {facts : List Formula} (Γ : Scope)

theorem Asks.within {kind : ObligationKind} {goal : Formula} {o : Obligation}
    (h : o.Asks function subject facts kind goal) : (o.within Γ).Asks function subject facts kind goal :=
  ⟨h.function, h.origin, h.text, h.assumptions, h.kind, h.goal⟩

theorem AskAll.within {σ : Substitution} {checks : List Check} {os : List Obligation}
    (h : AskAll function subject facts σ checks os) :
    AskAll function subject facts σ checks (os.map (Obligation.within Γ)) :=
  List.forall₂_map_right_iff.mpr (List.Forall₂.imp (fun _ _ ho => ho.within Γ) h)

end Obligation

theorem Command.Measured.within {f : Function} {F : Frame} {loop : Command} {os : List Obligation}
    (h : loop.Measured f F os) (Γ : Scope) : loop.Measured f F (os.map (Obligation.within Γ)) := by
  cases h with
  | absent hq => exact .absent (hq.within Γ)
  | start hneeds hvs hq =>
    rw [List.map_append]
    exact .start hneeds (hvs.within Γ) (hq.within Γ)
  | finish hbody hneeds hvs hq =>
    rw [List.map_append]
    exact .finish hbody hneeds (hvs.within Γ) (hq.within Γ)

theorem Function.Sheds.within {functions : List Function} {f : Function} {os os' : List Obligation}
    (h : f.Sheds functions os os') (Γ : Scope) :
    f.Sheds functions (os.map (Obligation.within Γ)) (os'.map (Obligation.within Γ)) := by
  induction h with
  | nil => exact .nil
  | keep i hkind _ ih => exact .keep i hkind ih
  | shed hloop hqs _ ih =>
    rw [List.map_append]
    exact .shed hloop (hqs.within Γ) ih

/-- Both runs know the same, and the second one lacks the obligations about variants. -/
def terminationBond (functions : List Function) (f : Function) : Bond where
  facts fs fs' := fs' = fs
  alikes _ _ := True
  obligations := f.Sheds functions
  shares kind := kind.isVariant = false
  learn f h := by rw [h]
  note _ h := h
  emit := by
    rintro os os' o ⟨i, _, _, _, _, _, _, _⟩ hos ⟨rfl, rfl, rfl, rfl, rfl, rfl⟩ - - rfl hkind
    exact hos.append (.keep i hkind .nil)

namespace Generation

open GenM Bond

variable {ctx : GenContext} {s s' : SymState} {subject : Subject} {g g' : Generator}
  {functions : List Function} {f : Function}

/-! ### What a variant adds -/

theorem receives_substExpr {m : Substitution} {e e' : Expr} (h : Gives (substExpr m e) g e' g') :
    g.Receives [] g' ∧ e' = e.subst m := by
  obtain ⟨_, g₁, h₁, h₂⟩ := (afterRequire h).bind
  obtain ⟨rfl, rfl⟩ := gives_pure h₂
  obtain rfl := h₁.modify
  exact ⟨⟨g.alikes ++ e.alikes g.symbols m, by simp⟩, rfl⟩

/-- The calls in an integer expression are those in it as a value. -/
theorem calls_toValue (e : Expr) :
    (e.toValue.visit Frame.outsideQuantifiers).filterMap call? =
      (e.visit Frame.outsideQuantifiers).filterMap call? := by
  cases e <;> rfl

/-- An expression without calls is evaluated in a state that stays the same. -/
theorem receives_expr {e e' : Expr} (hcalls : (e.visit Frame.outsideQuantifiers).filterMap call? = [])
    (h : Gives (expr ctx s subject e) g (e', s') g') : s' = s ∧ e' = e.subst s.values ∧
      ∃ checks vs, e.Needs (s.frame.scopeOver ctx.ghosts) checks ∧ g.Receives vs g' ∧
        Obligation.AskAll ctx.function subject s.facts s.values checks vs := by
  obtain ⟨s₁, g₁, hconds, h⟩ := h.bind
  obtain ⟨e₁, g₂, hsubst, h⟩ := h.bind
  obtain ⟨hresult, rfl⟩ := gives_pure h
  cases hresult
  obtain ⟨checks, g₃, hchecks, hrest⟩ := hconds.bind
  obtain ⟨_, g₄, hemit, hlearn⟩ := hrest.bind
  obtain ⟨hok, rfl⟩ := hchecks.ofFault
  obtain ⟨rfl, rfl⟩ := eq_of_no_calls ((calls_toValue e).trans hcalls) hlearn
  obtain ⟨vs, hvs, hall⟩ := receives_emitChecks hemit
  obtain ⟨hnoted, rfl⟩ := receives_substExpr hsubst
  exact ⟨rfl, rfl, checks, vs, hok, by simpa using hvs.trans hnoted, hall⟩

section Loop

variable {c inv : Formula} {variant : Option Expr} {body : List Command} {o : Origin} {F : Frame}
  (hloop : (F, .whileLoop c inv variant body o) ∈ f.points functions)
  (hcalls : ∀ e ∈ variant, (e.visit Frame.outsideQuantifiers).filterMap call? = []) {calls : CallMode}
include hloop hcalls

theorem sheds_measureBefore {r : Option Expr × SymState} (hframe : s.frame = F)
    (h : Gives (measureBefore (contextOf ⟨.total, calls⟩ functions f) s
      ⟨o, (Command.whileLoop c inv variant body o).print⟩ variant) g r g') :
    r.2 = s ∧ (∀ e ∈ variant, r.1 = some (e.subst s.values)) ∧ ∃ qs, g.Receives qs g' ∧
      ∀ os os', f.Sheds functions os os' → f.Sheds functions (os ++ qs) os' := by
  subst hframe
  cases variant with
  | none =>
    obtain ⟨_, g₁, hemit, h⟩ := h.bind
    obtain ⟨rfl, rfl⟩ := gives_pure h
    exact ⟨rfl, fun e he => (nomatch he), _, receives_emit hemit,
      fun _ _ => .measured hloop (.absent (asks_obligationFor (contextOf _ functions f)))⟩
  | some e =>
    obtain ⟨⟨before, s₁⟩, g₁, hexpr, h⟩ := h.bind
    obtain ⟨_, g₂, hemit, h⟩ := h.bind
    obtain ⟨rfl, rfl⟩ := gives_pure h
    obtain ⟨rfl, rfl, checks, vs, hneeds, hvs, hall⟩ := receives_expr (hcalls e rfl) hexpr
    exact ⟨rfl, fun _ he => by rw [Option.mem_some_iff.mp he], _, hvs.trans (receives_emit hemit),
      fun _ _ => .measured hloop (.start hneeds hall (asks_obligationFor (contextOf _ functions f)))⟩

theorem sheds_measureAfter {before : Option Expr} {u : Unit} {σ₀ : Substitution}
    (hbody : body.foldlM Frame.step F = .ok s.frame)
    (hbefore : ∀ e ∈ variant, before = some (e.subst σ₀))
    (h : Gives (measureAfter (contextOf ⟨.total, calls⟩ functions f) s
      ⟨o, (Command.whileLoop c inv variant body o).print⟩ variant before) g u g') :
    ∃ qs, g.Receives qs g' ∧ ∀ os os', f.Sheds functions os os' → f.Sheds functions (os ++ qs) os' := by
  cases variant with
  | none =>
    obtain ⟨-, rfl⟩ := gives_pure h
    exact ⟨[], ⟨g'.alikes, by simp⟩, fun os os' h => by rwa [List.append_nil]⟩
  | some e =>
    rw [hbefore e rfl] at h
    obtain ⟨⟨after, s₁⟩, g₁, hexpr, hemit⟩ := h.bind
    obtain ⟨rfl, rfl, checks, vs, hneeds, hvs, hall⟩ := receives_expr (hcalls e rfl) hexpr
    exact ⟨_, hvs.trans (receives_emit hemit),
      fun _ _ => .measured hloop (.finish hbody hneeds hall (asks_obligationFor (contextOf _ functions f)))⟩

/-- What is done about the variant of a loop adds only obligations about it. -/
theorem variantFollows_unchecked :
    VariantFollows (terminationBond functions f) (contextOf ⟨.total, calls⟩ functions f) ⟨.unchecked, calls⟩ F
      body ⟨o, (Command.whileLoop c inv variant body o).print⟩ variant := by
  -- At the end of an iteration the first run knows the value of the variant at its start, the second none.
  refine ⟨fun before before' => before' = none ∧ ∃ σ₀, ∀ e ∈ variant, before = some (e.subst σ₀), ?_, ?_⟩
  · rintro s _ hframe ⟨_, rfl, rfl⟩
    refine follows_alone (fun _ _ => trivial) fun g r g' h => ?_
    obtain ⟨hstate, hvalue, hsheds⟩ := sheds_measureBefore hloop hcalls hframe h
    exact ⟨⟨⟨rfl, s.values, hvalue⟩, s.facts, by rw [hstate]; rfl, by rw [hstate]⟩, hsheds⟩
  · rintro s _ before _ hbody ⟨rfl, σ₀, hbefore⟩ ⟨_, rfl, rfl⟩
    have hnothing : measureAfter (contextOf ⟨.unchecked, calls⟩ functions f) s
        ⟨o, (Command.whileLoop c inv variant body o).print⟩ variant none = pure () := by
      cases variant <;> rfl
    refine hnothing ▸ follows_alone (fun _ _ => trivial) fun g r g' h => ?_
    exact ⟨trivial, sheds_measureAfter hloop hcalls hbody hbefore h⟩

end Loop

/-- Whether calls are used as contracts depends on the call mode alone. -/
theorem callsFollow_unchecked (functions : List Function) (f : Function) (ctx : GenContext) :
    CallsFollow (terminationBond functions f) ctx ⟨.unchecked, ctx.modes.calls⟩ where
  plain k hk := by cases k <;> first | rfl | cases hk
  calls subject nodes hs := follows_calls rfl (by rfl) nodes hs

end Generation

/-- The variant of a loop, if a node is a loop that has one. -/
def Node.variant? : Node → Option Expr
  | .command (.whileLoop _ _ variant _ _) => variant
  | _ => none

/-- The variants of the loops of a function. -/
def Function.variants (f : Function) : List Expr :=
  (Command.visitAll (fun _ => true) f.body).filterMap Node.variant?

namespace Frame

variable {c inv : Formula} {variant : Option Expr} {body : List Command} {o : Origin}

mutual

theorem loop_of_pointsOf : ∀ (d : Command) {F G : Frame}, (G, .whileLoop c inv variant body o) ∈ F.pointsOf d →
    .command (.whileLoop c inv variant body o) ∈ d.visit fun _ => true
  | .cond bs o, F, G, h => by
    have h := (List.mem_cons.mp h).resolve_left nofun
    simp [Command.visit, Node.with, loop_of_pointsIn bs h]
  | .whileLoop c inv variant body o, F, G, h => by
    rw [pointsOf, List.mem_cons] at h
    rcases h with h | h
    · cases h
      simp [Command.visit, Node.with]
    · simp [Command.visit, Node.with, loop_of_points body h]
  | .forRange i lo hi inv body o, F, G, h => by
    have h := (List.mem_cons.mp h).resolve_left nofun
    split at h
    · simp [Command.visit, Node.with, loop_of_points body h]
    · cases h
  | .declare _, F, G, h | .bind _ _, F, G, h | .bindTuple _ _ _, F, G, h | .assign _, F, G, h
  | .assignAll _ _, F, G, h | .assert _ _, F, G, h | .invariant _ _, F, G, h | .assume _ _, F, G, h
  | .noop _, F, G, h => by cases List.mem_singleton.mp h

theorem loop_of_pointsIn : ∀ (bs : Branches) {F G : Frame},
    (G, .whileLoop c inv variant body o) ∈ F.pointsIn bs →
      .command (.whileLoop c inv variant body o) ∈ bs.visit fun _ => true
  | .otherwise b, F, G, h => loop_of_points b h
  | .branch c b rest, F, G, h => by
    rcases List.mem_append.mp h with h | h
    · simp [Branches.visit, loop_of_points b h]
    · simp [Branches.visit, loop_of_pointsIn rest h]

theorem loop_of_points : ∀ (cs : List Command) {F G : Frame},
    (G, .whileLoop c inv variant body o) ∈ F.points cs →
      .command (.whileLoop c inv variant body o) ∈ Command.visitAll (fun _ => true) cs
  | d :: cs, F, G, h => by
    rw [points, List.mem_append] at h
    rcases h with h | h
    · simp [Command.visitAll, loop_of_pointsOf d h]
    · split at h
      · simp [Command.visitAll, loop_of_points cs h]
      · cases h

end

end Frame

/-- The variant of a loop at a point of the body of a function is a variant of the function. -/
theorem Function.mem_variants {functions : List Function} {f : Function} {F : Frame} {c inv : Formula}
    {e : Expr} {body : List Command} {o : Origin}
    (h : (F, .whileLoop c inv (some e) body o) ∈ f.points functions) : e ∈ f.variants := by
  unfold Function.points at h
  split at h
  · exact List.mem_filterMap.mpr ⟨_, Frame.loop_of_points f.body h, rfl⟩
  · cases h

/-- Where generation succeeds for a function whose loops have to end, and no variant has a call outside
quantifiers, it succeeds where nothing is shown about their end. The obligations are then the same, those
about variants left out: what is asked of the values of variants, and the side conditions of evaluating
them. -/
theorem Function.obligations_unchecked (calls : CallMode) {functions : List Function} {f : Function}
    (hcalls : ∀ e ∈ f.variants, (e.visit Frame.outsideQuantifiers).filterMap Generation.call? = [])
    {os : List Obligation} (hos : f.obligations ⟨.total, calls⟩ functions = .ok os) :
    ∃ os', f.obligations ⟨.unchecked, calls⟩ functions = .ok os' ∧ f.Sheds functions os os' := by
  have hloops : ∀ p ∈ f.points functions, Generation.LoopFollows (terminationBond functions f)
      (Generation.contextOf ⟨.total, calls⟩ functions f) ⟨.unchecked, calls⟩ p.1 p.2 := by
    rintro ⟨F, c⟩ hp
    cases c with
    | whileLoop c inv variant body o =>
      refine Generation.variantFollows_unchecked hp fun e he => hcalls e ?_
      obtain rfl : variant = some e := he
      exact mem_variants hp
    | _ => trivial
  obtain ⟨Γ, qs, qs', hsheds, rfl, hos'⟩ := Bond.obligations_follow
    (Generation.follows_function rfl (Generation.callsFollow_unchecked functions f _) hloops) trivial .nil hos
  exact ⟨_, hos', Sheds.within hsheds Γ⟩

/-- Makes its input smaller in two nested loops. The variant of the first one is a quotient, the second one
has none. -/
def shrink : Function where
  name := "shrink"
  inputs := [⟨"n", .i32, true, none⟩, ⟨"d", .i32, false, none⟩]
  output := .unit
  precondition := .lit true
  postcondition := .lit true
  result := .unit none
  body := [
    .whileLoop (.compare .gt (.value (.var "n")) (.num 0)) (.lit true)
      (some (.op .div (.value (.var "n")) (.value (.var "d"))))
      [.whileLoop (.compare .gt (.value (.var "n")) (.num 9)) (.lit true) none
        [.assign ⟨.name "n" none, .expr (.op .sub (.value (.var "n")) (.num 1)) none, none⟩] none,
      .assert (.compare .le (.value (.var "n")) (.num 9)) none,
      .assign ⟨.name "n" none, .expr (.op .sub (.value (.var "n")) (.num 1)) none, none⟩] none]
  origin := none

/-- Of the obligations of `shrink`, only the assertion is not about a variant. -/
theorem Function.obligations_unchecked_shrink : ∃ os os',
    (∀ e ∈ shrink.variants, (e.visit Frame.outsideQuantifiers).filterMap Generation.call? = []) ∧
    shrink.obligations .standard [shrink] = .ok os ∧
    os.map Obligation.kind = [.sideCondition .divisionByZero, .variantNonnegative, .variantMissing, .assertion,
      .sideCondition .divisionByZero, .variantDecreases] ∧
    shrink.obligations ⟨.unchecked, .contracts⟩ [shrink] = .ok os' ∧
    shrink.Sheds [shrink] os os' := by
  obtain ⟨os, hos, hkinds⟩ : ∃ os, shrink.obligations .standard [shrink] = .ok os ∧ _ :=
    Function.obligations_of_view Obligation.kind (by cbv)
  have hcalls : ∀ e ∈ shrink.variants,
      (e.visit Frame.outsideQuantifiers).filterMap Generation.call? = [] := by
    intro e he
    obtain rfl : e = .op .div (.value (.var "n")) (.value (.var "d")) := List.mem_singleton.mp he
    rfl
  obtain ⟨os', hos', hsheds⟩ := Function.obligations_unchecked .contracts hcalls hos
  exact ⟨os, os', hcalls, hos, hkinds, hos', hsheds⟩

end Verdict
