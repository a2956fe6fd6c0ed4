import Verdict.Proofs.Framing
import Verdict.Proofs.Functions

/-! # Two runs of one function

Generation for one function is run twice, in two modes or from two states. The second run does what the first
one does: it makes the same values and the same constants, and stops nowhere where the first one does not. The
runs may differ in what they know, in the obligations that they add and in the pairs of values that they take
for one another.

A `Bond` says how these are related. A step of the second run follows one of the first (`Bond.Follows`) if it
succeeds wherever the first does, and keeps the bond. Two things depend on the modes: what is learned from
calls, and what is done about the variants of loops. Where these steps follow one another, so do the runs of
every command and of the function (`Generation.follows_function`). -/

namespace Verdict

/-- Whether a generator is another one to which obligations have been added. It has the same constants, and
gives the same numbers to values. -/
def Generator.Receives (g : Generator) (os : List Obligation) (g' : Generator) : Prop :=
  ∃ as, g' = { g with alikes := as, obligations := g.obligations ++ os }

namespace Generator.Receives

variable {g g₁ g₂ : Generator} {os qs : List Obligation}

theorem trans (h : g.Receives os g₁) (h' : g₁.Receives qs g₂) : g.Receives (os ++ qs) g₂ := by
  obtain ⟨as, rfl⟩ := h
  obtain ⟨bs, rfl⟩ := h'
  exact ⟨bs, by simp⟩

theorem renumber (h : g.Receives os g₁) (n : Nat) :
    Generator.Receives { g with made := n } os { g₁ with made := n } := by
  obtain ⟨as, rfl⟩ := h
  exact ⟨as, rfl⟩

theorem obligations (h : g.Receives os g₁) : g₁.obligations = g.obligations ++ os := by
  obtain ⟨as, rfl⟩ := h
  rfl

end Generator.Receives

/-! ### The points of a body -/

namespace Frame

mutual

/-- The points of a command that is run in a frame: the commands that it consists of, itself among them, with
the frames that they are run in. -/
def pointsOf (F : Frame) : Command → List (Frame × Command)
  | .cond bs o => (F, .cond bs o) :: F.pointsIn bs
  | .whileLoop c inv variant body o => (F, .whileLoop c inv variant body o) :: F.points body
  | .forRange i lo hi inv body o => (F, .forRange i lo hi inv body o) ::
    match F.step (.declare ⟨i, .i32, false, none⟩) with
    | .ok F' => F'.points body
    | .error _ => []
  | c => [(F, c)]

def pointsIn (F : Frame) : Branches → List (Frame × Command)
  | .otherwise b => F.points b
  | .branch _ b rest => F.points b ++ F.pointsIn rest

def points (F : Frame) : List Command → List (Frame × Command)
  | [] => []
  | c :: cs => F.pointsOf c ++
    match F.step c with
    | .ok F' => F'.points cs
    | .error _ => []

end

end Frame

/-- The points of the body of a function. -/
def Function.points (functions : List Function) (f : Function) : List (Frame × Command) :=
  match Frame.entry functions f with
  | .ok F => F.points f.body
  | .error _ => []

/-! ### Bonds -/

/-- Whether two obligations ask for the same, whatever they assume. Their positions may differ. -/
structure Obligation.Counterpart (o o' : Obligation) : Prop where
  function : o'.function = o.function
  kind : o'.kind = o.kind
  origin : o'.origin = o.origin
  text : o'.text = o.text
  goal : o'.goal = o.goal
  scope : o'.scope = o.scope

/-- Whether an obligation is for a goal that has to follow from some facts at a node of a function. -/
structure Obligation.Asks (function : String) (subject : Subject) (facts : List Formula)
    (kind : ObligationKind) (goal : Formula) (o : Obligation) : Prop where
  function : o.function = function
  origin : o.origin = subject.origin
  text : o.text = subject.text
  assumptions : o.assumptions = facts
  kind : o.kind = kind
  goal : o.goal = goal

/-- Whether obligations are for those of some side conditions that are not literally true, in order. -/
def Obligation.AskAll (function : String) (subject : Subject) (facts : List Formula) (σ : Substitution)
    (checks : List Check) (os : List Obligation) : Prop :=
  List.Forall₂ (fun c o => o.Asks function subject facts (.sideCondition c.kind) (c.cond.subst σ))
    (checks.filter fun c => !(c.cond.subst σ).isTrue) os

/-- Whether obligations of a kind are added whatever the modes are. -/
def ObligationKind.isPlain : ObligationKind → Bool
  | .precondition | .variantNonnegative | .variantDecreases | .variantMissing => false
  | _ => true

/-- What relates two runs: the facts known at the same point of both, the pairs of values that they have taken
for one another, and their obligations. -/
structure Bond where
  facts : List Formula → List Formula → Prop
  alikes : List Alike → List Alike → Prop
  obligations : List Obligation → List Obligation → Prop
  /-- The kinds of obligations that both runs add. -/
  shares : ObligationKind → Prop
  learn : ∀ {fs fs' : List Formula} (f : Formula), facts fs fs' → facts (fs ++ [f]) (fs' ++ [f])
  note : ∀ {as as' : List Alike} (bs : List Alike), alikes as as' → alikes (as ++ bs) (as' ++ bs)
  emit : ∀ {os os' : List Obligation} {o o' : Obligation}, obligations os os' → o.Counterpart o' →
    o.index = os.length → o'.index = os'.length → facts o.assumptions o'.assumptions →
    shares o.kind → obligations (os ++ [o]) (os' ++ [o'])

/-- Whether two generators are the same but for what a bond relates. -/
def Bond.Joins (B : Bond) (g h : Generator) : Prop :=
  ∃ as os, h = { g with alikes := as, obligations := os } ∧ B.alikes g.alikes as ∧
    B.obligations g.obligations os

/-! ### Steps that do the same -/

namespace GenM

variable {α β γ δ : Type}

theorem gives_bind {m : GenM α} {f : α → GenM β} {g g₁ g' : Generator} {a : α} {b : β}
    (hm : m.Gives g a g₁) (hf : (f a).Gives g₁ b g') : (m >>= f).Gives g b g' := by
  unfold Gives at hm hf ⊢
  rw [StateT.run_bind, hm]
  exact hf

/-- Whether a step adds no obligations, and neither looks at obligations nor at the pairs of values that have
been taken for one another. -/
def Steady (m : GenM α) : Prop :=
  ∀ ⦃g a g'⦄, m.Gives g a g' → ∃ bs, g'.alikes = g.alikes ++ bs ∧ g'.obligations = g.obligations ∧
    ∀ as os, m.Gives { g with alikes := as, obligations := os } a
      { g' with alikes := as ++ bs, obligations := os }

theorem steady_pure (a : α) : Steady (pure a) := by
  intro g b g' hb
  obtain ⟨rfl, rfl⟩ := gives_pure hb
  refine ⟨[], by simp, rfl, fun as os => ?_⟩
  rw [List.append_nil]
  rfl

theorem Steady.bind {m : GenM α} {f : α → GenM β} (hm : m.Steady) (hf : ∀ a, (f a).Steady) :
    (m >>= f).Steady := by
  intro g b g' hb
  obtain ⟨a, g₁, h₁, h₂⟩ := hb.bind
  obtain ⟨bs, has, hos, hrun⟩ := hm h₁
  obtain ⟨cs, has', hos', hrun'⟩ := hf a h₂
  refine ⟨bs ++ cs, by rw [has', has, List.append_assoc], hos'.trans hos, fun as os => ?_⟩
  rw [← List.append_assoc]
  exact gives_bind (hrun as os) (hrun' _ os)

theorem steady_throw (e : Stop) : Steady (throw e : GenM α) := fun _ _ _ h => absurd h not_gives_throw

theorem steady_modifyGet {f : Generator → α × Generator}
    (hf : ∀ g, ∃ bs, ∀ as os, f { g with alikes := as, obligations := os } =
      ((f g).1, { (f g).2 with alikes := as ++ bs, obligations := os })) :
    Steady (modifyGet f : GenM α) := by
  intro g a g' ha
  have hg := ha.modifyGet
  obtain ⟨bs, hrun⟩ := hf g
  have hsame := hrun g.alikes g.obligations
  rw [hg] at hrun hsame
  exact ⟨bs, congrArg (fun r => r.2.alikes) hsame, congrArg (fun r => r.2.obligations) hsame,
    fun as os => congrArg Except.ok (hrun as os)⟩

end GenM

namespace Generation

open GenM

theorem steady_require (need : Unit → Option Need) : (require need).Steady := by
  intro g u g' hu
  obtain rfl := same_require hu
  refine ⟨[], by simp, rfl, fun as os => ?_⟩
  rw [List.append_nil]
  obtain ⟨g₁, g₂, h₁, hu⟩ := hu.bind
  cases h₁
  refine gives_bind rfl ?_
  split_ifs at hu ⊢
  · split at hu
    · rfl
    · exact absurd hu not_gives_throw
  · rfl

theorem steady_noteAlikes (alikes : NameMap Ty → List Alike) : (noteAlikes alikes).Steady :=
  steady_modifyGet fun g => ⟨alikes g.symbols, fun _ _ => rfl⟩

theorem steady_noteLoss (b : Bool) : (noteLoss b).Steady :=
  steady_modifyGet fun _ => ⟨[], fun _ _ => by rw [List.append_nil]⟩

theorem steady_keep (v : Value) : (keep v).Steady := by
  refine steady_modifyGet fun g => ⟨[], fun as os => ?_⟩
  rw [List.append_nil]
  split_ifs <;> rfl

theorem steady_constant (x : String) (t : Ty) (isPrimed : Bool) : (constant x t isPrimed).Steady := by
  intro g v g' hv
  obtain ⟨g₁, g₂, h₁, hv⟩ := hv.bind
  cases h₁
  split_ifs at hv with hx
  all_goals
    cases hv
    refine ⟨[], by simp, rfl, fun as os => gives_bind rfl ?_⟩
    simp only [hx, List.append_nil, ↓reduceIte]
    rfl

theorem steady_ofFault {α : Type} (r : Except Fault α) : (ofFault r).Steady := by
  cases r with
  | ok a => exact steady_pure a
  | error e => exact steady_throw _

theorem steady_inScope (r : Except Fault Frame) : (inScope r).Steady := by
  cases r with
  | ok f => exact steady_pure f
  | error e => exact steady_throw _

theorem steady_substValue (m : Substitution) (v : Value) : (substValue m v).Steady :=
  (steady_require _).bind fun _ => (steady_noteAlikes _).bind fun _ => steady_keep _

theorem steady_substFormula (m : Substitution) (f : Formula) : (substFormula m f).Steady :=
  (steady_require _).bind fun _ => (steady_noteAlikes _).bind fun _ => steady_pure _

theorem steady_substExpr (m : Substitution) (e : Expr) : (substExpr m e).Steady :=
  (steady_require _).bind fun _ => (steady_noteAlikes _).bind fun _ => steady_pure _

theorem steady_substValues (m : Substitution) (vs : List Value) : (substValues m vs).Steady := by
  induction vs with
  | nil => exact steady_pure _
  | cons v vs ih => exact (steady_substValue m v).bind fun _ => ih.bind fun _ => steady_pure _

theorem steady_mergeValue (cond : Formula) (t e : Value) : (mergeValue cond t e).Steady :=
  (steady_require _).bind fun _ => (steady_noteAlikes _).bind fun _ => steady_keep _

end Generation

/-! ### Steps that follow -/

namespace Bond

open GenM

variable {α β γ δ : Type} (B : Bond)

/-- Whether a step succeeds wherever another one does, with a related result, and keeps the bond. -/
def Follows (m : GenM α) (m' : GenM β) (R : α → β → Prop) : Prop :=
  ∀ ⦃g h a g'⦄, B.Joins g h → m.Gives g a g' → ∃ b h', m'.Gives h b h' ∧ R a b ∧ B.Joins g' h'

/-- Whether two states are the same but for what is known in them, which is related. -/
def Twins (s s' : SymState) : Prop := ∃ fs, B.facts s.facts fs ∧ s' = { s with facts := fs }

variable {B} {R : α → β → Prop} {Q : γ → δ → Prop}
variable {s s' : SymState}

theorem Twins.frame (h : B.Twins s s') : s'.frame = s.frame := by
  obtain ⟨fs, -, rfl⟩ := h
  rfl

theorem Twins.values (h : B.Twins s s') : s'.values = s.values := by
  obtain ⟨fs, -, rfl⟩ := h
  rfl

theorem Joins.symbols {g h : Generator} (hgh : B.Joins g h) : h.symbols = g.symbols := by
  obtain ⟨as, os, rfl, -, -⟩ := hgh
  rfl

theorem follows_pure {a : α} {b : β} (h : R a b) : B.Follows (pure a) (pure b) R := by
  intro g k c g' hjoins hc
  obtain ⟨rfl, rfl⟩ := gives_pure hc
  exact ⟨b, k, rfl, h, hjoins⟩

theorem Follows.bind {m : GenM α} {m' : GenM β} {f : α → GenM γ} {f' : β → GenM δ} (hm : B.Follows m m' R)
    (hf : ∀ a b, R a b → B.Follows (f a) (f' b) Q) : B.Follows (m >>= f) (m' >>= f') Q := by
  intro g h c g' hjoins hc
  obtain ⟨a, g₁, h₁, h₂⟩ := hc.bind
  obtain ⟨b, k₁, hrun, hab, hjoins₁⟩ := hm hjoins h₁
  obtain ⟨d, k₂, hrun₂, hcd, hjoins₂⟩ := hf a b hab hjoins₁ h₂
  exact ⟨d, k₂, gives_bind hrun hrun₂, hcd, hjoins₂⟩

theorem follows_throw {m' : GenM β} (e : Stop) : B.Follows (throw e : GenM α) m' R :=
  fun _ _ _ _ _ h => absurd h not_gives_throw

theorem follows_of_steady {m : GenM α} (hm : m.Steady) : B.Follows m m fun a b => b = a := by
  rintro g _ a g' ⟨as, os, rfl, has, hos⟩ ha
  obtain ⟨bs, has', hos', hrun⟩ := hm ha
  exact ⟨a, _, hrun as os, rfl, as ++ bs, os, rfl, has' ▸ B.note bs has, hos' ▸ hos⟩

/-- What does the same in both runs may be done first. -/
theorem follows_after {m : GenM α} {f : α → GenM γ} {f' : α → GenM δ} (hm : m.Steady)
    (hf : ∀ a, B.Follows (f a) (f' a) Q) : B.Follows (m >>= f) (m >>= f') Q :=
  (follows_of_steady hm).bind fun a b hab => by
    obtain rfl : b = a := hab
    exact hf b

/-- What is known of the results of the first run may be used. -/
theorem Follows.and {m : GenM α} {m' : GenM β} {P : α → Prop} (h : B.Follows m m' R)
    (hP : ∀ g, m.Leads g fun a _ => P a) : B.Follows m m' fun a b => P a ∧ R a b := by
  intro g k a g' hjoins ha
  obtain ⟨b, k', hrun, hab, hjoins'⟩ := h hjoins ha
  exact ⟨b, k', hrun, ⟨(hP g ha).2, hab⟩, hjoins'⟩

/-- The second run has no part in a step that only adds obligations which it does not have. -/
theorem follows_alone {m : GenM α} {b : β} (hfree : ∀ as as', B.alikes as as')
    (hm : ∀ ⦃g a g'⦄, m.Gives g a g' → R a b ∧ ∃ os, g.Receives os g' ∧
      ∀ qs qs', B.obligations qs qs' → B.obligations (qs ++ os) qs') :
    B.Follows m (pure b) R := by
  rintro g _ a g' ⟨as, os, rfl, -, hos⟩ ha
  obtain ⟨hab, new, ⟨as', rfl⟩, hrel⟩ := hm ha
  exact ⟨b, _, rfl, hab, as, os, rfl, hfree _ _, hrel _ _ hos⟩

theorem Follows.aside {m : GenM α} {m' : GenM β} (h : B.Follows m m' R) :
    B.Follows (Generation.aside m) (Generation.aside m') R := by
  intro g k a g' hjoins ha
  obtain ⟨g₁, h₁, rfl⟩ := Generation.of_aside ha
  obtain ⟨b, _, hrun, hab, as₁, os₁, rfl, has, hos⟩ := h hjoins h₁
  obtain ⟨as, os, rfl, -, -⟩ := hjoins
  exact ⟨b, _, gives_bind rfl (gives_bind hrun rfl), hab, as₁, os₁, rfl, has, hos⟩

theorem twins_assume (h : B.Twins s s') (f : Formula) : B.Twins (s.assume f) (s'.assume f) := by
  obtain ⟨fs, hfs, rfl⟩ := h
  unfold SymState.assume
  split_ifs
  · exact ⟨fs, hfs, rfl⟩
  · exact ⟨fs ++ [f], B.learn f hfs, rfl⟩

theorem twins_set (h : B.Twins s s') (x : String) (v : Value) : B.Twins (s.set x v) (s'.set x v) := by
  obtain ⟨fs, hfs, rfl⟩ := h
  exact ⟨fs, hfs, rfl⟩

/-- Twin states in another frame, and with another name forgotten. -/
theorem twins_leave (h : B.Twins s s') (i : String) (frame : Frame) :
    B.Twins { s.forget i with frame } { s'.forget i with frame } := by
  obtain ⟨fs, hfs, rfl⟩ := h
  exact ⟨fs, hfs, rfl⟩

theorem twins_frame (h : B.Twins s s') (frame : Frame) : B.Twins { s with frame } { s' with frame } := by
  obtain ⟨fs, hfs, rfl⟩ := h
  exact ⟨fs, hfs, rfl⟩

end Bond

/-- What is fixed while the obligations of a function are generated, in other modes. -/
def GenContext.inModes (ctx : GenContext) (modes : Modes) : GenContext := { ctx with modes }

namespace Generation

open GenM Bond

variable {B : Bond} {ctx : GenContext} {modes : Modes} {s s' : SymState} {subject : Subject}

/-- Whether two results are the same, and belong to twin states. -/
def SameResult (B : Bond) {α : Type} (r r' : α × SymState) : Prop := r'.1 = r.1 ∧ B.Twins r.2 r'.2

theorem Follows.bindSame {α β γ : Type} {m m' : GenM (α × SymState)} {f : α × SymState → GenM β}
    {f' : α × SymState → GenM γ} {R : β → γ → Prop} (hm : B.Follows m m' (SameResult B))
    (hf : ∀ a ⦃s s'⦄, B.Twins s s' → B.Follows (f (a, s)) (f' (a, s')) R) :
    B.Follows (m >>= f) (m' >>= f') R := by
  refine hm.bind ?_
  rintro ⟨a, s⟩ ⟨_, s'⟩ ⟨rfl, hs⟩
  exact hf _ hs

/-- An evaluation leaves values and frame as they are. -/
theorem Follows.bindKept {α β γ : Type} {m m' : GenM (α × SymState)} {f : α × SymState → GenM β}
    {f' : α × SymState → GenM γ} {R : β → γ → Prop} (hm : B.Follows m m' (SameResult B))
    (hkept : ∀ g, m.Leads g fun r _ => s.SameValues r.2)
    (hf : ∀ a ⦃s₁ s₁'⦄, s.SameValues s₁ → B.Twins s₁ s₁' → B.Follows (f (a, s₁)) (f' (a, s₁')) R) :
    B.Follows (m >>= f) (m' >>= f') R := by
  refine (hm.and hkept).bind ?_
  rintro ⟨a, s₁⟩ ⟨_, s₁'⟩ ⟨hsame, rfl, hs₁⟩
  exact hf _ hsame hs₁

theorem follows_inScope {β γ : Type} {r : Except Fault Frame} {f : Frame → GenM β} {f' : Frame → GenM γ}
    {R : β → γ → Prop} (hf : ∀ frame, r = .ok frame → B.Follows (f frame) (f' frame) R) :
    B.Follows (inScope r >>= f) (inScope r >>= f') R := by
  refine ((follows_of_steady (steady_inScope r)).and fun _ => leads_inScope r).bind ?_
  rintro _ frame ⟨hr, rfl⟩
  exact hf frame hr

/-- Whether a step of the second run follows the same step of the first one, from all twin states. -/
def FollowsIn (B : Bond) (ctx : GenContext) (modes : Modes) {α : Type} (m : GenContext → SymState → GenM α)
    (R : α → α → Prop) : Prop :=
  ∀ ⦃s s'⦄, B.Twins s s' → B.Follows (m ctx s) (m (ctx.inModes modes) s') R

/-- Whether a step of the second run follows the same step of the first one, from all twin states in a
frame. -/
def FollowsAt (B : Bond) (ctx : GenContext) (modes : Modes) (F : Frame) {α : Type}
    (m : GenContext → SymState → GenM α) (R : α → α → Prop) : Prop :=
  ∀ ⦃s s'⦄, s.frame = F → B.Twins s s' → B.Follows (m ctx s) (m (ctx.inModes modes) s') R

/-! ### Obligations -/

variable {g g' : Generator} {kind : ObligationKind}

theorem receives_substFormula {m : Substitution} {f f' : Formula} (h : Gives (substFormula m f) g f' g') :
    g.Receives [] g' ∧ f' = f.subst m := by
  obtain ⟨_, g₁, h₁, h₂⟩ := (afterRequire h).bind
  obtain ⟨rfl, rfl⟩ := gives_pure h₂
  obtain rfl := h₁.modify
  exact ⟨⟨g.alikes ++ f.alikes g.symbols m, by simp⟩, rfl⟩

/-- The obligation for a goal in a state. -/
def obligationFor (ctx : GenContext) (g : Generator) (s : SymState) (kind : ObligationKind)
    (subject : Subject) (goal : Formula) : Obligation :=
  ⟨g.obligations.length, ctx.function, kind, subject.origin, subject.text, s.facts, goal,
    ⟨g.symbols, ctx.functions⟩⟩

theorem receives_emit {goal : Formula} {u : Unit} (h : Gives (emit ctx s kind subject goal) g u g') :
    g.Receives (if goal.isTrue then [] else [obligationFor ctx g s kind subject goal]) g' := by
  unfold emit at h
  split_ifs at h ⊢
  · obtain ⟨-, rfl⟩ := gives_pure h
    exact ⟨g'.alikes, by simp⟩
  · rw [h.modify]
    exact ⟨g.alikes, rfl⟩

theorem asks_obligationFor (ctx : GenContext) {goal : Formula} :
    (obligationFor ctx g s kind subject goal).Asks ctx.function subject s.facts kind goal :=
  ⟨rfl, rfl, rfl, rfl, rfl, rfl⟩

theorem receives_emitChecks {checks : List Check} {u : Unit}
    (h : Gives (emitChecks ctx s subject checks) g u g') :
    ∃ os, g.Receives os g' ∧ Obligation.AskAll ctx.function subject s.facts s.values checks os := by
  induction checks generalizing g with
  | nil =>
    obtain ⟨-, rfl⟩ := gives_pure h
    exact ⟨[], ⟨g'.alikes, by simp⟩, .nil⟩
  | cons c cs ih =>
    obtain ⟨goal, g₁, h₁, h⟩ := h.bind
    obtain ⟨_, g₂, h₂, h₃⟩ := h.bind
    obtain ⟨hsubst, rfl⟩ := receives_substFormula h₁
    obtain ⟨os, hos, hall⟩ := ih h₃
    refine ⟨_, (hsubst.trans (receives_emit h₂)).trans hos, ?_⟩
    unfold Obligation.AskAll
    cases htrue : (c.cond.subst s.values).isTrue with
    | true =>
      rw [List.filter_cons_of_neg (by simp [htrue])]
      exact hall
    | false =>
      rw [List.filter_cons_of_pos (by simp [htrue])]
      exact .cons (asks_obligationFor ctx) hall

theorem follows_emit (hkind : B.shares kind) (hs : B.Twins s s') (goal : Formula) :
    B.Follows (emit ctx s kind subject goal) (emit (ctx.inModes modes) s' kind subject goal)
      fun _ _ => True := by
  obtain ⟨fs, hfs, rfl⟩ := hs
  unfold emit
  split_ifs
  · exact follows_pure trivial
  · rintro g _ u g' ⟨as, os, rfl, has, hos⟩ hu
    obtain rfl := hu.modify
    refine ⟨(), _, rfl, trivial, as, _, rfl, has, ?_⟩
    exact B.emit hos ⟨rfl, rfl, rfl, rfl, rfl, rfl⟩ rfl rfl hfs hkind

theorem follows_emitChecks (hside : ∀ k, B.shares (.sideCondition k)) (cs : List Check) :
    FollowsIn B ctx modes (emitChecks · · subject cs) fun _ _ => True := by
  intro s s' hs
  induction cs with
  | nil => exact follows_pure trivial
  | cons c cs ih =>
    simp only [emitChecks, hs.values]
    exact follows_after (steady_substFormula _ _) fun goal =>
      (follows_emit (hside c.kind) hs goal).bind fun _ _ _ => ih

/-- Both runs use contracts. -/
theorem follows_contract (hpre : B.shares .precondition) (c : Call) :
    FollowsIn B ctx modes (contract · · subject c) B.Twins := by
  rintro s _ ⟨fs, hfs, rfl⟩
  unfold contract
  dsimp only [GenContext.inModes]
  split
  · exact follows_throw _
  · split_ifs
    · exact follows_throw _
    · refine follows_after (steady_substValues _ _) fun args => follows_after (steady_substFormula _ _)
        fun pre => (follows_emit hpre ⟨fs, hfs, rfl⟩ pre).bind fun _ _ _ => ?_
      split_ifs
      · exact follows_after (steady_keep _) fun r => follows_after (steady_substFormula _ _)
          fun post => follows_pure (twins_assume ⟨fs, hfs, rfl⟩ post)
      · exact follows_pure ⟨fs, hfs, rfl⟩

theorem follows_contracts (hpre : B.shares .precondition) (cs : List Call) :
    FollowsIn B ctx modes (contracts · subject · cs) B.Twins := by
  induction cs with
  | nil => exact fun _ _ => follows_pure
  | cons c cs ih => exact fun _ _ hs => (follows_contract hpre c hs).bind ih

/-- Both runs use contracts, or neither does. -/
theorem follows_calls (hpre : B.shares .precondition) (hmode : modes.calls = ctx.modes.calls)
    (nodes : List Node) : FollowsIn B ctx modes (calls · · subject nodes) B.Twins := by
  intro s s' hs
  unfold calls
  dsimp only [GenContext.inModes]
  rw [hmode]
  cases ctx.modes.calls with
  | uninterpreted => exact follows_pure hs
  | contracts => exact (follows_contracts hpre _ hs).aside

/-! ### Evaluation -/

/-- Whether both runs add plain obligations, and what they learn from calls is related. -/
structure CallsFollow (B : Bond) (ctx : GenContext) (modes : Modes) : Prop where
  plain : ∀ k : ObligationKind, k.isPlain = true → B.shares k
  calls : ∀ {s s' : SymState} (subject : Subject) (nodes : List Node), B.Twins s s' →
    B.Follows (calls ctx s subject nodes) (calls (ctx.inModes modes) s' subject nodes) B.Twins

section Evaluation

variable (hcalls : CallsFollow B ctx modes)
include hcalls

theorem follows_conditionsOfValue (v : Value) :
    FollowsIn B ctx modes (conditionsOfValue · · subject v) B.Twins := by
  rintro s _ ⟨fs, hfs, rfl⟩
  refine follows_after (steady_ofFault _) fun cs => ?_
  exact (follows_emitChecks (fun k => hcalls.plain _ rfl) cs ⟨fs, hfs, rfl⟩).bind fun _ _ _ =>
    hcalls.calls subject _ ⟨fs, hfs, rfl⟩

theorem follows_conditionsOfFormula (f : Formula) :
    FollowsIn B ctx modes (conditionsOfFormula · · subject f) B.Twins := by
  rintro s _ ⟨fs, hfs, rfl⟩
  refine follows_after (steady_ofFault _) fun r => ?_
  exact (follows_emitChecks (fun k => hcalls.plain _ rfl) r.checks ⟨fs, hfs, rfl⟩).bind fun _ _ _ =>
    hcalls.calls subject _ ⟨fs, hfs, rfl⟩

theorem follows_value (v : Value) : FollowsIn B ctx modes (value · · subject v) (SameResult B) := by
  refine fun _ _ hs => (follows_conditionsOfValue hcalls v hs).bind ?_
  rintro s₁ _ ⟨fs, hfs, rfl⟩
  exact follows_after (steady_substValue _ _) fun w => follows_pure ⟨rfl, fs, hfs, rfl⟩

theorem follows_formula (f : Formula) : FollowsIn B ctx modes (formula · · subject f) (SameResult B) := by
  refine fun _ _ hs => (follows_conditionsOfFormula hcalls f hs).bind ?_
  rintro s₁ _ ⟨fs, hfs, rfl⟩
  exact follows_after (steady_substFormula _ _) fun f' => follows_pure ⟨rfl, fs, hfs, rfl⟩

theorem follows_expr (e : Expr) : FollowsIn B ctx modes (expr · · subject e) (SameResult B) := by
  refine fun _ _ hs => (follows_conditionsOfValue hcalls e.toValue hs).bind ?_
  rintro s₁ _ ⟨fs, hfs, rfl⟩
  exact follows_after (steady_substExpr _ _) fun e' => follows_pure ⟨rfl, fs, hfs, rfl⟩

theorem follows_check (hkind : B.shares kind) (f : Formula) :
    FollowsIn B ctx modes (check · · kind subject f) B.Twins := fun _ _ hs =>
  Follows.bindSame (follows_formula hcalls f hs) fun goal _ _ hs₁ =>
    (follows_emit hkind hs₁ goal).bind fun _ _ _ => follows_pure hs₁

/-! ### Changes of variables -/

theorem follows_location (p : Place) : FollowsIn B ctx modes (location · · subject p) (SameResult B) := by
  intro s s' hs
  cases p with
  | elem shape x i o =>
    refine (follows_conditionsOfValue hcalls _ hs).bind ?_
    rintro s₁ _ ⟨fs, hfs, rfl⟩
    exact follows_after (steady_require _) fun _ => follows_after (steady_noteAlikes _) fun _ =>
      follows_pure ⟨rfl, fs, hfs, rfl⟩
  | name x o | wildcard o => exact follows_pure ⟨rfl, hs⟩

theorem follows_targets (as : List Assignment) :
    FollowsIn B ctx modes (targets · subject · as) (SameResult B) := by
  induction as with
  | nil => exact fun _ _ hs => follows_pure ⟨rfl, hs⟩
  | cons a as ih =>
    exact fun _ _ hs => Follows.bindSame (follows_value hcalls a.value hs) fun v _ _ hs₁ =>
      Follows.bindSame (follows_location hcalls a.target hs₁) fun p _ _ hs₂ =>
        Follows.bindSame (ih hs₂) fun rest _ _ hs₃ => follows_pure ⟨rfl, hs₃⟩

omit hcalls in
theorem follows_write (hs : B.Twins s s') (p : Place) (v : Value) :
    B.Follows (write s p v) (write s' p v) B.Twins := by
  obtain ⟨fs, hfs, rfl⟩ := hs
  cases p with
  | wildcard o => exact follows_pure ⟨fs, hfs, rfl⟩
  | name x o =>
    change B.Follows (if !s.isVariable x then throw _ else pure _)
      (if !s.isVariable x then throw _ else pure _) _
    split_ifs
    · exact follows_throw _
    · exact follows_pure (twins_set ⟨fs, hfs, rfl⟩ x v)
  | elem shape x i o =>
    change B.Follows (if !s.isVariable x then throw _ else
        keep (.update shape (s.valueOf x) i v) >>= fun w => pure (s.set x w))
      (if !s.isVariable x then throw _ else keep (.update shape (s.valueOf x) i v) >>= fun w => pure _) _
    split_ifs
    · exact follows_throw _
    · exact follows_after (steady_keep _) fun w => follows_pure (twins_set ⟨fs, hfs, rfl⟩ x w)

omit hcalls in
theorem follows_writeAll (hs : B.Twins s s') (writes : List (Place × Value)) :
    B.Follows (writeAll s writes) (writeAll s' writes) B.Twins := by
  induction writes generalizing s s' with
  | nil => exact follows_pure hs
  | cons w ws ih => exact (follows_write hs w.1 w.2).bind fun _ _ hs₁ => ih hs₁

theorem follows_assign (as : List Assignment) :
    FollowsIn B ctx modes (assign · · subject as) B.Twins := fun _ _ hs =>
  Follows.bindSame (follows_targets hcalls as hs) fun writes _ _ hs₁ => follows_writeAll hs₁ writes

omit hcalls in
theorem follows_bindElements (hs : B.Twins s s') (v : Value) (ds : List Declaration) (i : Nat) :
    B.Follows (bindElements s v i ds) (bindElements s' v i ds) B.Twins := by
  induction ds generalizing s s' i with
  | nil => exact follows_pure hs
  | cons d ds ih =>
    unfold bindElements
    split_ifs
    · exact ih hs (i + 1)
    · exact follows_after (steady_require _) fun _ => follows_after (steady_noteAlikes _) fun _ =>
        follows_after (steady_keep _) fun w => ih (twins_set hs d.name w) (i + 1)

theorem follows_destructure (ds : List Declaration) (v : Value) :
    FollowsIn B ctx modes (destructure · · subject ds v) B.Twins := by
  refine fun _ _ hs => Follows.bindSame (follows_value hcalls v hs) fun w s₁ _ hs₁ => ?_
  have hget : B.Follows (get : GenM Generator) get fun g h => h.symbols = g.symbols := by
    intro g h a g' hjoins ha
    cases ha
    exact ⟨h, h, rfl, hjoins.symbols, hjoins⟩
  refine hget.bind fun g h hsymbols => ?_
  rw [hsymbols]
  refine follows_after (steady_ofFault _) fun t => ?_
  split
  · split_ifs
    · exact follows_bindElements hs₁ w ds 0
    · exact follows_throw _
  · exact follows_throw _

/-! ### Loops and conditionals -/

omit hcalls in
theorem follows_havoc (hs : B.Twins s s') (xs : List String) :
    B.Follows (havoc s xs) (havoc s' xs) B.Twins := by
  induction xs generalizing s s' with
  | nil => exact follows_pure hs
  | cons x xs ih =>
    obtain ⟨fs, hfs, rfl⟩ := hs
    have hvariable : SymState.isVariable { s with facts := fs } x = s.isVariable x := rfl
    simp only [havoc, hvariable]
    split
    · exact follows_after (steady_constant _ _ _) fun v => ih (twins_set ⟨fs, hfs, rfl⟩ x v)
    · exact ih ⟨fs, hfs, rfl⟩

theorem follows_iteration (written : Names) (inv : Formula) :
    FollowsIn B ctx modes (iteration · · subject written inv) B.Twins := fun _ _ hs =>
  (follows_havoc hs _).bind fun _ _ hh => Follows.bindSame (follows_formula hcalls inv hh)
    fun f _ _ hh₁ => follows_pure (twins_assume hh₁ f)

omit hcalls in
theorem follows_mergeValues {t t' e e' : SymState} (cond : Formula) (ht : B.Twins t t') (he : B.Twins e e')
    (hs : B.Twins s s') (xs : List String) :
    B.Follows (mergeValues cond t e s xs) (mergeValues cond t' e' s' xs) B.Twins := by
  obtain ⟨ts, hts, rfl⟩ := ht
  obtain ⟨es, hes, rfl⟩ := he
  induction xs generalizing s s' with
  | nil => exact follows_pure hs
  | cons x xs ih =>
    obtain ⟨fs, hfs, rfl⟩ := hs
    unfold mergeValues
    split_ifs with hkept hkept' hkept'
    · exact ih ⟨fs, hfs, rfl⟩
    · exact absurd hkept hkept'
    · exact absurd hkept' hkept
    · exact follows_after (steady_mergeValue _ _ _) fun v => ih (twins_set ⟨fs, hfs, rfl⟩ x v)

omit hcalls in
theorem follows_merge {t t' e e' : SymState} (cond : Formula) (ht : B.Twins t t') (he : B.Twins e e')
    (hs : B.Twins s s') : B.Follows (merge cond t e s) (merge cond t' e' s') B.Twins := by
  obtain ⟨ts, hts, rfl⟩ := ht
  obtain ⟨es, hes, rfl⟩ := he
  obtain ⟨fs, hfs, rfl⟩ := hs
  exact follows_after (steady_noteLoss _) fun _ =>
    follows_mergeValues cond ⟨ts, hts, rfl⟩ ⟨es, hes, rfl⟩ ⟨fs, hfs, rfl⟩ _

omit hcalls in
theorem twins_foldl_set {source : SymState} (fs : List Formula) (xs : List String) (hs : B.Twins s s') :
    B.Twins (xs.foldl (fun s x => s.set x (source.valueOf x)) s)
      (xs.foldl (fun s x => s.set x (SymState.valueOf { source with facts := fs } x)) s') := by
  induction xs generalizing s s' with
  | nil => exact hs
  | cons x xs ih => exact ih (twins_set hs x _)

omit hcalls in
theorem follows_copyValues {source source' : SymState} (hsource : B.Twins source source')
    (hs : B.Twins s s') : B.Follows (copyValues source s) (copyValues source' s') B.Twins := by
  obtain ⟨fs, hfs, rfl⟩ := hsource
  obtain ⟨gs, hgs, rfl⟩ := hs
  exact follows_after (steady_noteLoss _) fun _ => follows_pure (twins_foldl_set fs _ ⟨gs, hgs, rfl⟩)

end Evaluation

/-! ### Variants -/

/-- What is done about the variant of a loop at the start of an iteration. -/
def measureBefore (ctx : GenContext) (s : SymState) (subject : Subject) (variant : Option Expr) :
    GenM (Option Expr × SymState) :=
  match ctx.modes.termination, variant with
  | .total, some e => do
    let (before, s) ← expr ctx s subject e
    emit ctx s .variantNonnegative subject (.compare .ge before (.num 0))
    return (some before, s)
  | .total, none => do
    emit ctx s .variantMissing subject (.lit false)
    return (none, s)
  | .unchecked, _ => return (none, s)

/-- What is done about the variant of a loop at the end of an iteration, from its value at the start. -/
def measureAfter (ctx : GenContext) (s : SymState) (subject : Subject) (variant before : Option Expr) :
    GenM Unit :=
  match variant, before with
  | some e, some before => do
    let (after, s) ← expr ctx s subject e
    emit ctx s .variantDecreases subject (.compare .lt after before)
  | _, _ => return ()

/-- A loop is run in the same steps in all modes. -/
theorem run_whileLoop (c inv : Formula) (variant : Option Expr) (body : List Command) (o : Origin) :
    run ctx s subject (.whileLoop c inv variant body o) = (do
      let s ← check ctx s .invariantEntry subject inv
      let h ← iteration ctx s subject (Command.affectedAll body) inv
      let (guard, h) ← formula ctx h subject c
      let (before, b) ← measureBefore ctx (h.assume guard) subject variant
      let b ← block ctx b body
      let b ← check ctx b .invariantPreserved subject inv
      measureAfter ctx b subject variant before
      return h.assume guard.negate) := by
  simp only [run, measureBefore, measureAfter]
  cases ctx.modes.termination <;> cases variant <;> simp

theorem leads_measureBefore (variant : Option Expr) {g : Generator} :
    (measureBefore ctx s subject variant).Leads g fun r _ => r.2.frame = s.frame := by
  unfold measureBefore
  split
  · exact (leads_expr _).bind fun r _ _ hr => (leads_emit _ _).bind fun _ _ _ _ => leads_pure hr.frame
  · exact (leads_emit _ _).bind fun _ _ _ _ => leads_pure rfl
  · exact leads_pure rfl

/-- A block ends in the frame that its commands lead to. -/
theorem leads_steps (cs : List Command) {g : Generator} :
    (block ctx s cs).Leads g fun s' _ => cs.foldlM Frame.step s.frame = .ok s'.frame := by
  induction cs generalizing s g with
  | nil => exact leads_pure rfl
  | cons c cs ih =>
    refine (leads_inScope _).bind fun frame _ _ hstep => (leads_run c s _ _).bind fun s₁ _ _ _ =>
      ih.mono fun s₂ _ _ hsteps => ?_
    rw [List.foldlM_cons, hstep]
    exact hsteps

/-- Whether both runs do what is related about the variant of a loop in a frame. The values that it has at
the start of an iteration are linked in some way, for the end of the iteration. -/
def VariantFollows (B : Bond) (ctx : GenContext) (modes : Modes) (F : Frame) (body : List Command)
    (subject : Subject) (variant : Option Expr) : Prop :=
  ∃ link : Option Expr → Option Expr → Prop,
    FollowsAt B ctx modes F (measureBefore · · subject variant)
      (fun r r' => link r.1 r'.1 ∧ B.Twins r.2 r'.2) ∧
    ∀ {s s' : SymState} {before before' : Option Expr}, body.foldlM Frame.step F = .ok s.frame →
      link before before' → B.Twins s s' → B.Follows (measureAfter ctx s subject variant before)
        (measureAfter (ctx.inModes modes) s' subject variant before') fun _ _ => True

/-- Both runs check variants, or neither does. -/
theorem variantFollows_of_calls (hcalls : CallsFollow B ctx modes)
    (hmode : modes.termination = ctx.modes.termination) (hshares : ∀ k, k ≠ .precondition → B.shares k)
    (F : Frame) (body : List Command) (subject : Subject) (variant : Option Expr) :
    VariantFollows B ctx modes F body subject variant := by
  refine ⟨fun before before' => before' = before, fun s s' _ hs => ?_, ?_⟩
  · unfold measureBefore
    simp only [GenContext.inModes, hmode]
    split
    · exact Follows.bindSame (follows_expr hcalls _ hs) fun before _ _ hs₁ =>
        (follows_emit (hshares _ (by simp)) hs₁ _).bind fun _ _ _ => follows_pure ⟨rfl, hs₁⟩
    · exact (follows_emit (hshares _ (by simp)) hs _).bind fun _ _ _ => follows_pure ⟨rfl, hs⟩
    · exact follows_pure ⟨rfl, hs⟩
  · rintro s s' before _ - rfl hs
    unfold measureAfter
    split
    · exact Follows.bindSame (follows_expr hcalls _ hs) fun after _ _ hs₁ =>
        follows_emit (hshares _ (by simp)) hs₁ _
    · exact follows_pure trivial

/-! ### Commands -/

/-- Whether both runs do what is related about the variant of a command in a frame, if it is a loop. -/
def LoopFollows (B : Bond) (ctx : GenContext) (modes : Modes) (F : Frame) : Command → Prop
  | .whileLoop c inv variant body o =>
    VariantFollows B ctx modes F body ⟨o, (Command.whileLoop c inv variant body o).print⟩ variant
  | _ => True

/-- Both runs check variants, or neither does. -/
theorem loopFollows_of_calls (hcalls : CallsFollow B ctx modes)
    (hmode : modes.termination = ctx.modes.termination) (hshares : ∀ k, k ≠ .precondition → B.shares k)
    (F : Frame) (c : Command) : LoopFollows B ctx modes F c := by
  unfold LoopFollows
  split
  · exact variantFollows_of_calls hcalls hmode hshares F _ _ _
  · trivial

section Commands

variable {F : Frame} {body : List Command} (hcalls : CallsFollow B ctx modes)
include hcalls

theorem follows_whileLoop {variant : Option Expr} (hvariant : VariantFollows B ctx modes F body subject variant)
    (hbody : FollowsAt B ctx modes F (block · · body) B.Twins) (c inv : Formula) (o : Origin) :
    FollowsAt B ctx modes F (run · · subject (.whileLoop c inv variant body o)) B.Twins := by
  rintro s s' rfl hs
  obtain ⟨link, hbefore, hafter⟩ := hvariant
  simp only [run_whileLoop]
  refine ((follows_check hcalls (hcalls.plain _ rfl) inv hs).and fun _ => leads_check _ _).bind ?_
  rintro s₁ _ ⟨hsame₁, hs₁⟩
  refine ((follows_iteration hcalls _ inv hs₁).and
    fun _ => (leads_iteration _ _).mono fun _ _ _ h => h.frame).bind ?_
  rintro h _ ⟨hframe, hh⟩
  refine Follows.bindKept (follows_formula hcalls c hh) (fun _ => leads_formula c)
    fun guard h₁ _ hsame hh₁ => ?_
  -- The iteration starts in the frame of the loop, and ends in the one that its body leads to.
  have hstart : (h₁.assume guard).frame = s.frame :=
    (hsame.assume guard).frame.trans (hframe.trans hsame₁.frame)
  refine ((hbefore hstart (twins_assume hh₁ guard)).and fun _ => leads_measureBefore variant).bind ?_
  rintro ⟨before, b⟩ ⟨before', b'⟩ ⟨hb, hlink, htwins⟩
  refine ((hbody (hb.trans hstart) htwins).and fun _ => leads_steps body).bind ?_
  rintro b₁ _ ⟨hsteps, hb₁⟩
  refine ((follows_check hcalls (hcalls.plain _ rfl) inv hb₁).and fun _ => leads_check _ _).bind ?_
  rintro b₂ _ ⟨hsame₂, hb₂⟩
  have hend : body.foldlM Frame.step s.frame = .ok b₂.frame := by
    rw [hsame₂.frame, ← hsteps, hb, hstart]
  exact (hafter hend hlink hb₂).bind fun _ _ _ => follows_pure (twins_assume hh₁ _)

theorem follows_forRange {i : String}
    (hbody : ∀ F', F.step (.declare ⟨i, .i32, false, none⟩) = .ok F' →
      FollowsAt B ctx modes F' (block · · body) B.Twins) (lo hi : Value) (inv : Formula) (o : Origin) :
    FollowsAt B ctx modes F (run · · subject (.forRange i lo hi inv body o)) B.Twins := by
  rintro s s' rfl hs
  refine Follows.bindKept (follows_value hcalls lo hs) (fun _ => leads_value lo)
    fun lo' s₁ _ hsame₁ hs₁ => Follows.bindKept (follows_value hcalls hi hs₁) (fun _ => leads_value hi)
      fun hi' s₂ _ hsame₂ hs₂ => ?_
  dsimp only
  rw [hs₂.frame]
  refine follows_inScope fun frame hstep => ?_
  rw [(hsame₁.trans hsame₂).frame] at hstep
  refine ((follows_check hcalls (hcalls.plain _ rfl) inv (twins_frame (twins_set hs₂ i lo') frame)).and
    fun _ => leads_check _ _).bind ?_
  rintro entry _ ⟨hentry, hs₃⟩
  refine ((follows_iteration hcalls _ inv hs₃).and
    fun _ => (leads_iteration _ _).mono fun _ _ _ h => h.frame).bind ?_
  rintro head _ ⟨hframe, gs, hgs, rfl⟩
  have hhead : B.Twins head { head with facts := gs } := ⟨gs, hgs, rfl⟩
  have hstart : (head.assume (rangeGuard i head hi')).frame = frame :=
    (SymState.assume_frame _ _).trans (hframe.trans hentry.frame)
  refine (hbody frame hstep hstart (twins_assume hhead (rangeGuard i head hi'))).bind ?_
  rintro b _ ⟨bs, hbs, rfl⟩
  have hb : B.Twins b { b with facts := bs } := ⟨bs, hbs, rfl⟩
  refine follows_after (steady_noteLoss _) fun _ => follows_after (steady_keep _) fun next => ?_
  exact (follows_check hcalls (hcalls.plain _ rfl) inv (twins_set hb i next)).bind fun _ _ _ =>
    follows_pure (twins_leave (twins_assume hhead (rangeGuard i head hi').negate) i s₂.frame)

theorem follows_branch {rest : Branches} (hbody : FollowsAt B ctx modes F (block · · body) B.Twins)
    (hrest : FollowsAt B ctx modes F (alternative · · subject rest) B.Twins) (c : Formula) :
    FollowsAt B ctx modes F (alternative · · subject (.branch c body rest)) B.Twins := by
  rintro s s' rfl hs
  refine Follows.bindKept (follows_formula hcalls c hs) (fun _ => leads_formula c)
    fun cond s₁ _ hsame hs₁ => ?_
  exact (hbody (hsame.assume cond).frame (twins_assume hs₁ cond)).bind fun _ _ ht =>
    (hrest (hsame.assume cond.negate).frame (twins_assume hs₁ cond.negate)).bind
      fun _ _ he => follows_merge cond ht he hs₁

end Commands

mutual

theorem follows_run (hcalls : CallsFollow B ctx modes) (c : Command) {F : Frame}
    (hloops : ∀ p ∈ F.pointsOf c, LoopFollows B ctx modes p.1 p.2) :
    FollowsAt B ctx modes F (run · · ⟨c.origin, c.print⟩ c) B.Twins := by
  intro s s' hF hs
  match c with
  | .declare d =>
    exact follows_after (steady_constant _ _ _) fun v => follows_pure (twins_set hs d.name v)
  | .bind d v =>
    exact Follows.bindSame (follows_value hcalls v hs) fun w _ _ hs₁ => follows_pure (twins_set hs₁ d.name w)
  | .bindTuple ds v _ => exact follows_destructure hcalls ds v hs
  | .assign a => exact follows_assign hcalls [a] hs
  | .assignAll as _ => exact follows_assign hcalls as hs
  | .assert f _ | .invariant f _ => exact follows_check hcalls (hcalls.plain _ rfl) f hs
  | .assume f _ =>
    exact Follows.bindSame (follows_formula hcalls f hs) fun f' _ _ hs₁ => follows_pure (twins_assume hs₁ f')
  | .cond bs o =>
    exact follows_conditional hcalls bs (fun p hp => hloops p (by simp [Frame.pointsOf, hp])) hF hs
  | .whileLoop c inv variant body o =>
    have hloop := hloops (F, .whileLoop c inv variant body o) (by simp [Frame.pointsOf])
    refine follows_whileLoop hcalls hloop (follows_block hcalls body fun p hp => hloops p ?_) c inv o hF hs
    simp [Frame.pointsOf, hp]
  | .forRange i lo hi inv body o =>
    refine follows_forRange hcalls (fun F' hstep => follows_block hcalls body fun p hp => hloops p ?_)
      lo hi inv o hF hs
    simp [Frame.pointsOf, hstep, hp]
  | .noop _ => exact follows_pure hs

theorem follows_conditional (hcalls : CallsFollow B ctx modes) (bs : Branches) {F : Frame} {subject : Subject}
    (hloops : ∀ p ∈ F.pointsIn bs, LoopFollows B ctx modes p.1 p.2) :
    FollowsAt B ctx modes F (conditional · · subject bs) B.Twins := by
  match bs with
  | .otherwise b =>
    exact fun _ _ hF hs => (follows_block hcalls b hloops hF hs).bind fun e _ he => follows_copyValues he hs
  | .branch c b rest =>
    simp only [conditional_branch]
    exact follows_branch hcalls (follows_block hcalls b fun p hp => hloops p (by simp [Frame.pointsIn, hp]))
      (follows_alternative hcalls rest fun p hp => hloops p (by simp [Frame.pointsIn, hp])) c

theorem follows_alternative (hcalls : CallsFollow B ctx modes) (bs : Branches) {F : Frame} {subject : Subject}
    (hloops : ∀ p ∈ F.pointsIn bs, LoopFollows B ctx modes p.1 p.2) :
    FollowsAt B ctx modes F (alternative · · subject bs) B.Twins := by
  match bs with
  | .otherwise b => exact follows_block hcalls b hloops
  | .branch c b rest =>
    exact follows_branch hcalls (follows_block hcalls b fun p hp => hloops p (by simp [Frame.pointsIn, hp]))
      (follows_alternative hcalls rest fun p hp => hloops p (by simp [Frame.pointsIn, hp])) c

theorem follows_block (hcalls : CallsFollow B ctx modes) (cs : List Command) {F : Frame}
    (hloops : ∀ p ∈ F.points cs, LoopFollows B ctx modes p.1 p.2) :
    FollowsAt B ctx modes F (block · · cs) B.Twins := by
  rintro s s' rfl hs
  match cs with
  | [] => exact follows_pure hs
  | c :: cs =>
    simp only [block]
    rw [hs.frame]
    refine follows_inScope fun frame hstep => ?_
    refine (follows_run hcalls c (fun p hp => hloops p (by simp [Frame.points, hp])) rfl hs).bind
      fun s₁ _ hs₁ => ?_
    exact follows_block hcalls cs (fun p hp => hloops p (by simp [Frame.points, hstep, hp])) rfl
      (twins_frame hs₁ _)

end

/-! ### Functions -/

variable {functions : List Function} {f : Function} {modes' : Modes}

/-- If what is learned from calls and what is done about variants follows, the second run of a function
follows the first one. -/
theorem follows_function (hstart : B.facts [] []) (hcalls : CallsFollow B (contextOf modes functions f) modes')
    (hloops : ∀ p ∈ f.points functions, LoopFollows B (contextOf modes functions f) modes' p.1 p.2) :
    B.Follows (function modes functions f) (function modes' functions f) fun _ _ => True := by
  have hfacts (frame : Frame) : B.Twins (initial frame f) (initial frame f) := by
    refine ⟨[], ?_, ?_⟩
    · rw [facts_initial]
      exact hstart
    · rw [← facts_initial]
  refine follows_inScope fun frame hentry =>
    follows_after (steady_modifyGet fun _ => ⟨[], fun _ _ => by rw [List.append_nil]⟩) fun _ =>
      Follows.bindKept (follows_formula hcalls f.precondition (hfacts frame)) (fun _ => leads_formula _)
        fun pre s₁ _ hsame hs₁ => ?_
  have hframe : (s₁.assume pre).frame = frame := (hsame.assume pre).frame.trans frame_initial
  have hbody := follows_block hcalls f.body fun p hp => hloops p (by rwa [Function.points, hentry])
  exact (hbody hframe (twins_assume hs₁ pre)).bind fun s₂ _ hs₂ =>
    Follows.bindSame (follows_value hcalls f.result hs₂) fun result s₃ _ hs₃ =>
      (follows_check hcalls (hcalls.plain _ rfl) f.postcondition (twins_set hs₃ resultName result)).bind
        fun _ _ _ => follows_pure trivial

end Generation

/-- An obligation in another scope. -/
def Obligation.within (Γ : Scope) (o : Obligation) : Obligation := { o with scope := Γ }

/-- Where the second run of a function follows the first one, it succeeds as the first one does, and the
obligations of both are related, the scope aside that all of them get in the end. -/
theorem Bond.obligations_follow {B : Bond} {modes modes' : Modes} {functions : List Function} {f : Function}
    (hfollows : B.Follows (Generation.function modes functions f) (Generation.function modes' functions f)
      fun _ _ => True) (halikes : B.alikes [] []) (hnone : B.obligations [] []) {os : List Obligation}
    (hos : f.obligations modes functions = .ok os) :
    ∃ (Γ : Scope) (qs qs' : List Obligation), B.obligations qs qs' ∧ os = qs.map (Obligation.within Γ) ∧
      f.obligations modes' functions = .ok (qs'.map (Obligation.within Γ)) := by
  unfold Function.obligations at hos ⊢
  split at hos
  · next u g hrun =>
    obtain ⟨_, h, hrun', -, as, qs, rfl, -, hrel⟩ := hfollows ⟨[], [], rfl, halikes, hnone⟩ hrun
    cases hos
    refine ⟨⟨g.symbols, functions⟩, g.obligations, qs, hrel, rfl, ?_⟩
    rw [show (Generation.function modes' functions f).run default = .ok ((), _) from hrun']
    rfl
  · cases hos

/-- A view of the obligations of a function shows that there are obligations. -/
theorem Function.obligations_of_view {f : Function} {modes : Modes} {functions : List Function} {β : Type}
    (view : Obligation → β) {bs : List β}
    (h : (f.obligations modes functions).toOption.map (List.map view) = some bs) :
    ∃ os, f.obligations modes functions = .ok os ∧ os.map view = bs := by
  cases hos : f.obligations modes functions with
  | error e => simp [hos, Except.toOption] at h
  | ok os => exact ⟨os, rfl, by simpa [hos, Except.toOption] using h⟩

end Verdict
