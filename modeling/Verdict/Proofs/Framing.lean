import Verdict.Proofs.Courses

/-! # What commands leave alone

A command changes the values of the variables that it affects, and of no others. A conditional and a loop
have the same variables before and after, and what the body of a loop may write has a new constant for
its value after the loop (`Generation.command_frames`). No part of a body has to be well-typed for this. -/

namespace Verdict

/-! ### Results and growth -/

/-- Whether a step that succeeds only adds to a generator, and ends with a property. -/
def GenM.Leads {α : Type} (m : GenM α) (g : Generator) (Q : α → Generator → Prop) : Prop :=
  ∀ ⦃a g'⦄, m.Gives g a g' → g.Grows g' ∧ Q a g'

namespace GenM

variable {α β : Type} {m : GenM α} {g : Generator} {Q : α → Generator → Prop}
  {R : β → Generator → Prop}

theorem leads_pure {a : α} (h : Q a g) : Leads (pure a) g Q := by
  intro b g' hb
  obtain ⟨rfl, rfl⟩ := gives_pure hb
  exact ⟨.refl _, h⟩

theorem Leads.bind {f : α → GenM β} (hm : m.Leads g Q)
    (hf : ∀ a g₁, g.Grows g₁ → Q a g₁ → (f a).Leads g₁ R) : (m >>= f).Leads g R := by
  intro b g' h
  obtain ⟨a, g₁, h₁, h₂⟩ := h.bind
  obtain ⟨hgrow, hQ⟩ := hm h₁
  obtain ⟨hgrow', hR⟩ := hf a g₁ hgrow hQ h₂
  exact ⟨hgrow.trans hgrow', hR⟩

theorem Leads.mono {Q' : α → Generator → Prop} (h : m.Leads g Q)
    (hQ : ∀ a g', g.Grows g' → Q a g' → Q' a g') : m.Leads g Q' := fun a g' ha =>
  ⟨(h ha).1, hQ a g' (h ha).1 (h ha).2⟩

theorem leads_throw (e : Stop) : Leads (throw e : GenM α) g Q :=
  fun _ _ h => absurd h not_gives_throw

/-- A step that succeeds and of which only the growth is known. -/
theorem Leads.trivial (h : m.Leads g Q) : m.Leads g fun _ _ => True :=
  h.mono fun _ _ _ _ => True.intro

end GenM

/-! ### States that differ in what is known -/

/-- Whether two states have the same variables and frame. -/
structure SymState.SameValues (s s' : SymState) : Prop where
  values : s'.values = s.values
  frame : s'.frame = s.frame

namespace SymState.SameValues

variable {s s' s'' : SymState}

theorem refl (s : SymState) : s.SameValues s := ⟨rfl, rfl⟩

theorem trans (h : s.SameValues s') (h' : s'.SameValues s'') : s.SameValues s'' :=
  ⟨h'.values.trans h.values, h'.frame.trans h.frame⟩

theorem assume (h : s.SameValues s') (f : Formula) : s.SameValues (s'.assume f) :=
  ⟨(assume_values s' f).trans h.values, (assume_frame s' f).trans h.frame⟩

end SymState.SameValues

namespace Generation

open GenM

variable {ctx : GenContext} {s : SymState} {subject : Subject} {g : Generator}
  {written : List String}

/-! ### Evaluation -/

theorem leads_require (need : Unit → Option Need) : (require need).Leads g fun _ _ => True := by
  intro u g' h
  rw [same_require h]
  exact ⟨.refl g, trivial⟩

theorem leads_noteAlikes (alikes : NameMap Ty → List Alike) :
    (noteAlikes alikes).Leads g fun _ _ => True :=
  fun _ _ h => ⟨(of_noteAlikes h).grows, trivial⟩

theorem leads_noteLoss (b : Bool) : (noteLoss b).Leads g fun _ _ => True :=
  fun _ _ h => ⟨(same_noteLoss h).grows, trivial⟩

theorem leads_keep (v : Value) : (keep v).Leads g fun _ _ => True :=
  fun _ _ h => ⟨(same_keep h).grows, trivial⟩

theorem leads_emit (kind : ObligationKind) (goal : Formula) :
    (emit ctx s kind subject goal).Leads g fun _ _ => True :=
  fun _ _ h => ⟨(of_emit h).1, trivial⟩

variable {α : Type} {s' s'' : SymState} {xs : Names} {g' : Generator}

theorem leads_ofFault (r : Except Fault α) : (ofFault r).Leads g fun _ _ => True := by
  intro a g' h
  rw [h.ofFault.2]
  exact ⟨.refl g, trivial⟩

theorem leads_inScope (r : Except Fault Frame) : (inScope r).Leads g fun f _ => r = .ok f := by
  intro a g' h
  obtain ⟨hr, rfl⟩ := h.inScope
  exact ⟨.refl _, hr⟩

theorem leads_substValue (m : Substitution) (v : Value) :
    (substValue m v).Leads g fun _ _ => True :=
  (leads_require _).bind fun _ _ _ _ => (leads_noteAlikes _).bind fun _ _ _ _ => leads_keep _

theorem leads_substFormula (m : Substitution) (f : Formula) :
    (substFormula m f).Leads g fun _ _ => True :=
  (leads_require _).bind fun _ _ _ _ => (leads_noteAlikes _).bind fun _ _ _ _ => leads_pure trivial

theorem leads_substExpr (m : Substitution) (e : Expr) :
    (substExpr m e).Leads g fun _ _ => True :=
  (leads_require _).bind fun _ _ _ _ => (leads_noteAlikes _).bind fun _ _ _ _ => leads_pure trivial

theorem leads_substValues (m : Substitution) (vs : List Value) :
    (substValues m vs).Leads g fun _ _ => True := by
  induction vs generalizing g with
  | nil => exact leads_pure trivial
  | cons v vs ih =>
    exact (leads_substValue m v).bind fun _ _ _ _ => ih.bind fun _ _ _ _ => leads_pure trivial

theorem leads_emitChecks (cs : List Check) :
    (emitChecks ctx s subject cs).Leads g fun _ _ => True := by
  induction cs generalizing g with
  | nil => exact leads_pure trivial
  | cons c cs ih =>
    exact (leads_substFormula _ _).bind fun _ _ _ _ => (leads_emit _ _).bind fun _ _ _ _ => ih

theorem leads_contract (c : Call) : (contract ctx s subject c).Leads g fun s' _ => s.SameValues s' := by
  unfold contract
  split
  · exact leads_throw _
  · split_ifs
    · exact leads_throw _
    · refine (leads_substValues _ _).bind fun args _ _ _ => (leads_substFormula _ _).bind
        fun pre _ _ _ => (leads_emit _ _).bind fun _ _ _ _ => ?_
      dsimp only
      split_ifs
      · exact (leads_keep _).bind fun _ _ _ _ => (leads_substFormula _ _).bind
          fun post _ _ _ => leads_pure ((SymState.SameValues.refl s).assume post)
      · exact leads_pure (.refl s)

theorem leads_contracts (cs : List Call) :
    (contracts ctx subject s cs).Leads g fun s' _ => s.SameValues s' := by
  induction cs generalizing s g with
  | nil => exact leads_pure (.refl s)
  | cons c cs ih =>
    exact (leads_contract c).bind fun s₁ _ _ h₁ => ih.mono fun s₂ _ _ h₂ => h₁.trans h₂

theorem leads_aside {m : GenM α} {Q : α → Prop} (h : m.Leads g fun a _ => Q a) :
    (aside m).Leads g fun a _ => Q a := by
  intro a g' ha
  obtain ⟨g₁, h₁, rfl⟩ := of_aside ha
  have hsame : g₁.Same { g₁ with made := g.made } := ⟨rfl, rfl, rfl⟩
  exact ⟨(h h₁).1.trans hsame.grows, (h h₁).2⟩

theorem leads_calls (nodes : List Node) :
    (calls ctx s subject nodes).Leads g fun s' _ => s.SameValues s' := by
  unfold calls
  split
  · exact leads_pure (.refl s)
  · exact leads_aside (leads_contracts _)

theorem leads_conditionsOfValue (v : Value) :
    (conditionsOfValue ctx s subject v).Leads g fun s' _ => s.SameValues s' :=
  (leads_ofFault _).bind fun _ _ _ _ => (leads_emitChecks _).bind fun _ _ _ _ => leads_calls _

theorem leads_value (v : Value) : (value ctx s subject v).Leads g fun r _ => s.SameValues r.2 :=
  (leads_conditionsOfValue v).bind fun _ _ _ h =>
    (leads_substValue _ _).bind fun _ _ _ _ => leads_pure h

theorem leads_formula (f : Formula) : (formula ctx s subject f).Leads g fun r _ => s.SameValues r.2 := by
  refine Leads.bind (Q := fun s' _ => s.SameValues s') ?_ fun s' _ _ h =>
    (leads_substFormula _ _).bind fun _ _ _ _ => leads_pure h
  exact (leads_ofFault _).bind fun _ _ _ _ => (leads_emitChecks _).bind fun _ _ _ _ => leads_calls _

theorem leads_expr (e : Expr) : (expr ctx s subject e).Leads g fun r _ => s.SameValues r.2 :=
  (leads_conditionsOfValue _).bind fun _ _ _ h =>
    (leads_substExpr _ _).bind fun _ _ _ _ => leads_pure h

theorem leads_check (kind : ObligationKind) (f : Formula) :
    (check ctx s kind subject f).Leads g fun s' _ => s.SameValues s' :=
  (leads_formula f).bind fun _ _ _ h => (leads_emit _ _).bind fun _ _ _ _ => leads_pure h

/-! ### Changes of variables -/

/-- Whether only the values of some variables have changed. The empty name is that of the wildcard, and
assignments to a variable of this name are not seen. -/
def Frames (affected : Names) (s s' : SymState) : Prop :=
  ∀ x, x ≠ "" → x ∉ affected.members → s'.values.get? x = s.values.get? x

theorem frames_of_sameValues (h : s.SameValues s') (affected : Names) : Frames affected s s' :=
  fun x _ _ => by rw [h.values]

theorem Frames.trans {ys : Names} (h : Frames xs s s') (h' : Frames ys s' s'') :
    Frames (xs.union ys) s s'' := by
  intro x hne hx
  rw [SortedSet.mem_union, not_or] at hx
  rw [h' x hne hx.2, h x hne hx.1]

theorem Frames.of_sameValues (h : s.SameValues s') (h' : Frames xs s' s'') :
    Frames xs s s'' := fun x hne hx => by rw [h' x hne hx, h.values]

theorem frames_set {x : String} (hx : x = "" ∨ x ∈ xs.members) (v : Value) : Frames xs s (s.set x v) := by
  intro y hne hy
  have hxy : x ≠ y := by
    rintro rfl
    exact hx.elim hne hy
  simp [SymState.set, hxy]

theorem leads_location (p : Place) :
    (location ctx s subject p).Leads g fun r _ => s.SameValues r.2 ∧ r.1.base = p.base := by
  cases p with
  | elem shape x i o =>
    exact (leads_conditionsOfValue _).bind fun _ _ _ h => (leads_require _).bind fun _ _ _ _ =>
      (leads_noteAlikes _).bind fun _ _ _ _ => leads_pure ⟨h, rfl⟩
  | name x o | wildcard o => exact leads_pure ⟨.refl s, rfl⟩

theorem leads_write {p : Place} (hp : p.base = "" ∨ p.base ∈ xs.members) (v : Value) :
    (write s p v).Leads g fun s' _ => Frames xs s s' := by
  cases p with
  | wildcard o => exact leads_pure fun _ _ _ => rfl
  | name x o =>
    unfold write
    dsimp only
    split_ifs
    · exact leads_throw _
    · exact leads_pure (frames_set hp v)
  | elem shape x i o =>
    unfold write
    dsimp only
    split_ifs
    · exact leads_throw _
    · exact (leads_keep _).bind fun w _ _ _ => leads_pure (frames_set hp w)

/-- The bases of some evaluated places. -/
def basesOf (writes : List (Place × Value)) : List String := writes.map fun w => w.1.base

theorem leads_targets (as : List Assignment) :
    (targets ctx subject s as).Leads g fun r _ =>
      s.SameValues r.2 ∧ basesOf r.1 = as.map fun a => a.target.base := by
  induction as generalizing s g with
  | nil => exact leads_pure ⟨.refl s, rfl⟩
  | cons a as ih =>
    refine (leads_value a.value).bind fun r _ _ h₁ => (leads_location a.target).bind
      fun q _ _ h₂ => ih.bind fun rest _ _ h₃ => leads_pure ⟨(h₁.trans h₂.1).trans h₃.1, ?_⟩
    simp only [basesOf, List.map_cons, h₂.2]
    exact congrArg _ h₃.2

theorem leads_writeAll (writes : List (Place × Value)) (hw : ∀ x ∈ basesOf writes, x = "" ∨ x ∈ xs.members) :
    (writeAll s writes).Leads g fun s' _ => Frames xs s s' := by
  induction writes generalizing s g with
  | nil => exact leads_pure fun _ _ _ => rfl
  | cons w ws ih =>
    refine (leads_write (hw _ (by simp [basesOf])) w.2).bind fun s₁ _ _ h₁ => ?_
    refine (ih fun x hx => hw x ?_).mono fun s₂ _ _ h₂ y hne hy => by rw [h₂ y hne hy, h₁ y hne hy]
    exact List.mem_cons_of_mem _ hx

theorem leads_assign (as : List Assignment) (ha : ∀ a ∈ as, a.target.base = "" ∨ a.target.base ∈ xs.members) :
    (assign ctx s subject as).Leads g fun s' _ => Frames xs s s' := by
  refine (leads_targets as).bind fun r _ _ h₁ => ?_
  refine (leads_writeAll r.1 fun x hx => ?_).mono fun s' _ _ h₂ => h₂.of_sameValues h₁.1
  rw [h₁.2] at hx
  obtain ⟨a, hmem, rfl⟩ := List.mem_map.mp hx
  exact ha a hmem

theorem leads_bindElements (v : Value) (i : Nat) (ds : List Declaration)
    (hd : ∀ d ∈ ds, d.name ≠ "_" → d.name ∈ xs.members) :
    (bindElements s v i ds).Leads g fun s' _ => Frames xs s s' := by
  induction ds generalizing s g i with
  | nil => exact leads_pure fun _ _ _ => rfl
  | cons d ds ih =>
    have hrest : ∀ e ∈ ds, e.name ≠ "_" → e.name ∈ xs.members :=
      fun e he => hd e (List.mem_cons_of_mem _ he)
    unfold bindElements
    dsimp only
    split_ifs with hname
    · exact ih _ hrest
    · refine (leads_require _).bind fun _ _ _ _ => (leads_noteAlikes _).bind fun _ _ _ _ =>
        (leads_keep _).bind fun w _ _ _ => (ih _ hrest).mono fun s' _ _ h y hne hy => ?_
      rw [h y hne hy, frames_set (.inr (hd d List.mem_cons_self hname)) w y hne hy]

theorem leads_destructure (ds : List Declaration) (v : Value)
    (hd : ∀ d ∈ ds, d.name ≠ "_" → d.name ∈ xs.members) :
    (destructure ctx s subject ds v).Leads g fun s' _ => Frames xs s s' := by
  refine (leads_value v).bind fun r _ _ h₁ => ?_
  refine Leads.bind (Q := fun _ _ => True) (fun _ _ h => by cases h; exact ⟨.refl _, trivial⟩)
    fun g₁ _ _ _ => (leads_ofFault _).bind fun t _ _ _ => ?_
  split
  · split_ifs
    · exact (leads_bindElements _ _ ds hd).mono fun s' _ _ h₂ => h₂.of_sameValues h₁
    · exact leads_throw _
  · exact leads_throw _

/-! ### Conditionals -/

def SameNames (s s' : SymState) : Prop := ∀ x, s'.isVariable x = s.isVariable x

theorem sameNames_set {x : String} (hx : s.isVariable x = true) (v : Value) : SameNames s (s.set x v) := by
  intro y
  by_cases hxy : x = y
  · subst hxy
    rw [hx]
    simp [SymState.isVariable, NameMap.contains, SymState.set]
  · simp [SymState.isVariable, NameMap.contains, SymState.set, hxy]

theorem sameNames_of_values (h : s'.values = s.values) : SameNames s s' := fun x => by
  rw [SymState.isVariable, h, SymState.isVariable]

theorem SameNames.trans (h : SameNames s s') (h' : SameNames s' s'') :
    SameNames s s'' := fun x => (h' x).trans (h x)

theorem leads_mergeValue (cond : Formula) (v w : Value) : (mergeValue cond v w).Leads g fun _ _ => True :=
  (leads_require _).bind fun _ _ _ _ => (leads_noteAlikes _).bind fun _ _ _ _ => leads_keep _

theorem leads_mergeValues (cond : Formula) (t e : SymState) (xs : List String)
    (hxs : ∀ x ∈ xs, s.isVariable x = true) :
    (mergeValues cond t e s xs).Leads g fun s' _ => SameNames s s' := by
  induction xs generalizing s g with
  | nil => exact leads_pure fun _ => rfl
  | cons x xs ih =>
    unfold mergeValues
    split_ifs
    · exact ih fun y hy => hxs y (List.mem_cons_of_mem _ hy)
    · refine (leads_mergeValue cond _ _).bind fun v _ _ _ => ?_
      have hnames := sameNames_set (hxs x List.mem_cons_self) v
      refine (ih fun y hy => ?_).mono fun s' _ _ h => hnames.trans h
      rw [hnames y]
      exact hxs y (List.mem_cons_of_mem _ hy)

/-- What neither branch affects has the same value after both of them, and so it is kept. -/
theorem leads_merge {ys : Names} {t e : SymState} (cond : Formula) (ht : Frames xs s t)
    (he : Frames ys s e) :
    (merge cond t e s).Leads g fun s' _ => Frames (xs.union ys) s s' ∧ SameNames s s' := by
  intro s' g' h
  obtain ⟨_, g₁, h₁, h₂⟩ := h.bind
  obtain ⟨hgrow, hnames⟩ := leads_mergeValues cond t e _ (fun x hx => by
    rw [SymState.isVariable, NameMap.contains_iff]
    exact (NameMap.mem_names_iff _ _).mp hx) h₂
  obtain ⟨-, -, hvalues⟩ := of_mergeValues h₂
  refine ⟨(same_noteLoss h₁).grows.trans hgrow, fun x hne hx => (hvalues x).1 (.inr ?_), hnames⟩
  rw [SortedSet.mem_union, not_or] at hx
  simp only [SymState.valueOf, ht x hne hx.1, he x hne hx.2, and_self]

/-- The variables of a state take over their values in a state in which only some have changed. -/
theorem leads_copyValues {affected : Names} {source : SymState} (h : Frames affected s source) :
    (copyValues source s).Leads g fun s' _ => Frames affected s s' ∧ SameNames s s' := by
  refine (leads_noteLoss _).bind fun _ _ _ _ => leads_pure ⟨fun x hne hx => ?_, fun x => ?_⟩
  · rw [values_foldl_set]
    split_ifs with hmem
    · obtain ⟨v, hv⟩ := (NameMap.mem_names_iff _ _).mp hmem
      rw [SymState.valueOf, h x hne hx, hv, Option.getD_some]
    · rfl
  · unfold SymState.isVariable NameMap.contains
    rw [values_foldl_set]
    split_ifs with hmem
    · obtain ⟨v, hv⟩ := (NameMap.mem_names_iff _ _).mp hmem
      simp [hv]
    · rfl

theorem leads_branch {b : List Command} {rest : Branches}
    (hb : ∀ s g, (block ctx s b).Leads g fun t _ => Frames (Command.affectedAll b) s t)
    (hrest : ∀ s g, (alternative ctx s subject rest).Leads g fun e _ => Frames rest.affected s e)
    (c : Formula) :
    (alternative ctx s subject (.branch c b rest)).Leads g fun s' _ =>
      Frames (Branches.affected (.branch c b rest)) s s' ∧ SameNames s s' := by
  refine (leads_formula c).bind fun r _ _ h₁ => (hb _ _).bind fun t _ _ ht => (hrest _ _).bind
    fun e _ _ he => ?_
  -- Each branch starts with the values before the conditional, whatever it assumes.
  have hstart (p : Formula) : r.2.SameValues (r.2.assume p) := (SymState.SameValues.refl r.2).assume p
  refine (leads_merge r.1 (ht.of_sameValues (hstart _)) (he.of_sameValues (hstart _))).mono
    fun s' _ _ h => ?_
  exact ⟨h.1.of_sameValues h₁, (sameNames_of_values h₁.values).trans h.2⟩

/-! ### Loops -/

/-- Whether a variable in scope has a constant for its value after a loop that is new there and has the
type of the variable. -/
def Renewed (x : String) (s : SymState) (g : Generator) (s' : SymState) (g' : Generator) : Prop :=
  ∀ t, s.isVariable x = true → s.frame.type? x = some t →
    ∃ y, s'.values.get? x = some (.var y) ∧ g.symbols.get? y = none ∧ g'.symbols.get? y = some t

/-- What an iteration of a loop may start from: what is written has new constants, and nothing else has
changed. -/
structure Loosens (written : List String) (s : SymState) (g : Generator) (s' : SymState)
    (g' : Generator) : Prop where
  frame : s'.frame = s.frame
  kept : ∀ x, x ∉ written → s'.values.get? x = s.values.get? x
  names : SameNames s s'
  fresh : ∀ x ∈ written, Renewed x s g s' g'

/-- A constant that is new to a generator is new to any that it comes from. -/
theorem not_symbol_of_grows (h : g.Grows g') {y : String} (hy : g'.symbols.get? y = none) :
    g.symbols.get? y = none := by
  cases hg : g.symbols.get? y with
  | none => rfl
  | some t => rw [h.symbols y t hg] at hy; cases hy

theorem leads_constant (x : String) (t : Ty) (isPrimed : Bool) :
    (constant x t isPrimed).Leads g fun v g' =>
      ∃ y, v = .var y ∧ g.symbols.get? y = none ∧ g'.symbols.get? y = some t := by
  intro v g' h
  obtain ⟨y, rfl, hy, hsym, halikes, hobl⟩ := of_constant h
  exact ⟨grows_of_insert hy hsym halikes hobl, y, rfl, hy, by rw [hsym]; simp⟩

theorem Loosens.before {s₁ : SymState} {g₁ : Generator} (hs : s.SameValues s₁) (hg : g.Grows g₁)
    (h : Loosens written s₁ g₁ s' g') : Loosens written s g s' g' := by
  have hnames := sameNames_of_values hs.values
  refine ⟨h.frame.trans hs.frame, fun x hx => by rw [h.kept x hx, hs.values], hnames.trans h.names,
    fun x hx t hvar ht => ?_⟩
  obtain ⟨y, hy, hnew, hsym⟩ := h.fresh x hx t (by rw [hnames x, hvar]) (by rw [hs.frame, ht])
  exact ⟨y, hy, not_symbol_of_grows hg hnew, hsym⟩

theorem Loosens.after {s₁ : SymState} {g₁ : Generator} (h : Loosens written s g s₁ g₁)
    (hs : s₁.SameValues s') (hg : g₁.Grows g') : Loosens written s g s' g' := by
  refine ⟨hs.frame.trans h.frame, fun x hx => by rw [hs.values, h.kept x hx],
    h.names.trans (sameNames_of_values hs.values), fun x hx t hvar ht => ?_⟩
  obtain ⟨y, hy, hnew, hsym⟩ := h.fresh x hx t hvar ht
  exact ⟨y, by rw [hs.values, hy], hnew, hg.symbols y t hsym⟩

theorem leads_havoc (xs : List String) : (havoc s xs).Leads g (Loosens xs s g) := by
  induction xs generalizing s g with
  | nil => exact leads_pure ⟨rfl, fun _ _ => rfl, fun _ => rfl, fun x hx => absurd hx List.not_mem_nil⟩
  | cons x xs ih =>
    unfold havoc
    split
    · next t hvar htype =>
      refine (leads_constant x t true).bind fun v g₁ hg₁ hv => ih.mono fun s' g' hg' h => ?_
      obtain ⟨y, rfl, hnew, hsym⟩ := hv
      have hnames := sameNames_set hvar (.var y)
      refine ⟨h.frame, fun z hz => ?_, hnames.trans h.names, fun z hz u hzvar hztype => ?_⟩
      · rw [List.mem_cons, not_or] at hz
        rw [h.kept z hz.2]
        simp [SymState.set, Ne.symm hz.1]
      · by_cases hzs : z ∈ xs
        · obtain ⟨w, hw, hwnew, hwsym⟩ := h.fresh z hzs u (by rw [hnames z, hzvar]) hztype
          exact ⟨w, hw, not_symbol_of_grows hg₁ hwnew, hwsym⟩
        · obtain rfl : z = x := (List.mem_cons.mp hz).resolve_right hzs
          obtain rfl : t = u := Option.mem_unique htype hztype
          refine ⟨y, ?_, hnew, hg'.symbols y t hsym⟩
          rw [h.kept z hzs]
          simp [SymState.set]
    · next hno =>
      refine ih.mono fun s' g' _ h => ⟨h.frame, fun z hz => ?_, h.names, fun z hz u hzvar hztype => ?_⟩
      · exact h.kept z fun hmem => hz (List.mem_cons_of_mem _ hmem)
      · refine h.fresh z ((List.mem_cons.mp hz).resolve_left ?_) u hzvar hztype
        rintro rfl
        exact hno u hzvar hztype

theorem leads_iteration (written : Names) (inv : Formula) :
    (iteration ctx s subject written inv).Leads g (Loosens written.members s g) :=
  (leads_havoc written.members).bind fun _ _ _ h => (leads_formula inv).bind fun r _ hg hr =>
    leads_pure (h.after (hr.assume r.1) hg)

/-- What a loop over a range does to the state before it: the iterator is forgotten. -/
structure Ranges (i : String) (written : List String) (s : SymState) (g : Generator) (s' : SymState)
    (g' : Generator) : Prop where
  kept : ∀ x, x ≠ i → x ∉ written → s'.values.get? x = s.values.get? x
  names : ∀ x, s'.isVariable x = (s.isVariable x && x != i)
  fresh : ∀ x ∈ written, x ≠ i → Renewed x s g s' g'

section Body

variable {body : List Command} (hbody : ∀ s g, (block ctx s body).Leads g fun _ _ => True)
include hbody

theorem leads_whileLoop (c inv : Formula) (variant : Option Expr) (o : Origin) :
    (run ctx s subject (.whileLoop c inv variant body o)).Leads g
      (Loosens (Command.affectedAll body).members s g) := by
  refine (leads_check _ inv).bind fun s₁ g₁ hg₁ h₁ => (leads_iteration _ inv).bind
    fun head g₂ _ h₂ => (leads_formula c).bind fun r g₃ hg₃ h₃ => ?_
  -- Neither the body nor what is done about a variant is seen after the loop.
  have hend : ∀ g₄, g₃.Grows g₄ → Leads (pure (r.2.assume r.1.negate)) g₄
      (Loosens (Command.affectedAll body).members s g) := fun g₄ hg₄ =>
    leads_pure ((h₂.before h₁ hg₁).after (h₃.assume _) (hg₃.trans hg₄))
  cases ctx.modes.termination with
  | unchecked =>
    exact (hbody _ _).bind fun b g₄ h₄ _ => (leads_check _ inv).bind fun _ g₅ h₅ _ =>
      hend _ (h₄.trans h₅)
  | total =>
    cases variant with
    | none =>
      exact (leads_emit _ _).bind fun _ _ h₄ _ => (hbody _ _).bind fun _ _ h₅ _ =>
        (leads_check _ inv).bind fun _ _ h₆ _ => hend _ ((h₄.trans h₅).trans h₆)
    | some e =>
      refine (leads_expr e).bind fun _ _ h₄ _ => (leads_emit _ _).bind fun _ _ h₅ _ =>
        (hbody _ _).bind fun _ _ h₆ _ => (leads_check _ inv).bind fun _ _ h₇ _ =>
        (leads_expr e).bind fun _ _ h₈ _ => (leads_emit _ _).bind fun _ _ h₉ _ => hend _ ?_
      exact ((((h₄.trans h₅).trans h₆).trans h₇).trans h₈).trans h₉

theorem leads_forRange (i : String) (lo hi : Value) (inv : Formula) (o : Origin) :
    (run ctx s subject (.forRange i lo hi inv body o)).Leads g
      (Ranges i (Command.affectedAll body).members s g) := by
  refine (leads_value lo).bind fun r g₁ hg₁ h₁ => (leads_value hi).bind fun q g₂ hg₂ h₂ =>
    (leads_inScope _).bind fun frame g₃ hg₃ hframe => (leads_check _ inv).bind fun entry g₄ hg₄ h₄ =>
    (leads_iteration _ inv).bind fun head g₅ hg₅ h₅ => (hbody _ _).bind fun b g₆ hg₆ _ =>
    (leads_noteLoss _).bind fun _ g₇ hg₇ _ => (leads_keep _).bind fun next g₈ hg₈ _ =>
    (leads_check _ inv).bind fun _ g₉ hg₉ _ => leads_pure ?_
  have hsame := h₁.trans h₂
  have hgrow := (hg₁.trans hg₂).trans hg₃
  have hlater := ((hg₆.trans hg₇).trans hg₈).trans hg₉
  have hhead := h₅.before h₄ hg₄
  -- All but the iterator is in the loop as it is before it.
  have hget : ∀ x, x ≠ i → (q.2.set i r.1).values.get? x = s.values.get? x := fun x hx => by
    simp [SymState.set, Ne.symm hx, hsame.values]
  have hvar : ∀ x, x ≠ i → (q.2.set i r.1).isVariable x = s.isVariable x := fun x hx => by
    simp only [SymState.isVariable, NameMap.contains, hget x hx]
  have htype : ∀ x, x ≠ i → frame.type? x = s.frame.type? x := fun x hx => by
    rw [Frame.type?_of_declare hframe, if_neg (Ne.symm hx), hsame.frame]
  have hforget : ∀ f x, x ≠ i →
      ((head.assume f).forget i).values.get? x = head.values.get? x := fun f x hx => by
    simp [SymState.forget, Ne.symm hx]
  refine ⟨fun x hx hmem => ?_, fun x => ?_, fun x hmem hx t hxvar hxtype => ?_⟩
  · rw [hforget _ x hx, hhead.kept x (by simp [hx, hmem])]
    exact hget x hx
  · by_cases hx : x = i
    · subst hx
      simp [SymState.isVariable, NameMap.contains, SymState.forget]
    · have hnames := hhead.names x
      simp only [SymState.isVariable, NameMap.contains, hforget _ x hx, bne_iff_ne.mpr hx,
        Bool.and_true] at hnames ⊢
      rw [hnames, hget x hx]
  · obtain ⟨y, hy, hnew, hsym⟩ := hhead.fresh x (by simp [hmem]) t ((hvar x hx).trans hxvar)
      ((htype x hx).trans hxtype)
    exact ⟨y, (hforget _ x hx).trans hy, not_symbol_of_grows hgrow hnew, hlater.symbols y t hsym⟩

end Body

/-! ### Commands -/

theorem base_affected (a : Assignment) :
    a.target.base = "" ∨ a.target.base ∈ a.affected.members := by
  unfold Assignment.affected
  split_ifs with h
  · exact .inl h
  · exact .inr (by simp)

mutual

theorem leads_run (c : Command) (s : SymState) (subject : Subject) (g : Generator) :
    (run ctx s subject c).Leads g fun s' _ => Frames c.affected s s' := by
  match c with
  | .declare d =>
    refine (leads_constant _ _ _).bind fun v _ _ _ => leads_pure (frames_set ?_ v)
    simp [Command.affected]
  | .bind d v =>
    refine (leads_value v).bind fun r _ _ h => leads_pure ((frames_set ?_ r.1).of_sameValues h)
    simp [Command.affected]
  | .bindTuple ds v _ =>
    refine leads_destructure ds v fun d hd hname => ?_
    simp only [Command.affected, Declaration.namesOf, SortedSet.mem_ofList]
    exact List.mem_filter.mpr ⟨List.mem_map.mpr ⟨d, hd, rfl⟩, by simpa using hname⟩
  | .assign a => exact leads_assign [a] fun b hb => List.mem_singleton.mp hb ▸ base_affected a
  | .assignAll as _ =>
    refine leads_assign as fun a ha => (base_affected a).imp_right fun hmem => ?_
    simp only [Command.affected, SortedSet.mem_unions]
    exact ⟨_, List.mem_map.mpr ⟨a, ha, rfl⟩, hmem⟩
  | .assert f _ | .invariant f _ => exact (leads_check _ f).mono fun _ _ _ h => frames_of_sameValues h _
  | .assume f _ =>
    exact (leads_formula f).bind fun r _ _ h => leads_pure (frames_of_sameValues (h.assume r.1) _)
  | .cond bs _ => exact (leads_conditional bs s subject g).mono fun _ _ _ h => h.1
  | .whileLoop c inv variant body o =>
    exact (leads_whileLoop (fun s g => (leads_block body s g).trivial) c inv variant o).mono
      fun s' _ _ h x _ hx => h.kept x hx
  | .forRange i lo hi inv body o =>
    refine (leads_forRange (fun s g => (leads_block body s g).trivial) i lo hi inv o).mono
      fun s' _ _ h x _ hx => ?_
    simp only [Command.affected, SortedSet.mem_union, Names.mem_single, not_or] at hx
    exact h.kept x hx.1 hx.2
  | .noop _ => exact leads_pure fun _ _ _ => rfl

theorem leads_conditional (bs : Branches) (s : SymState) (subject : Subject) (g : Generator) :
    (conditional ctx s subject bs).Leads g fun s' _ => Frames bs.affected s s' ∧ SameNames s s' := by
  match bs with
  | .otherwise b => exact (leads_block b s g).bind fun _ _ _ h => leads_copyValues h
  | .branch c b rest =>
    rw [conditional_branch]
    exact leads_branch (leads_block b) (fun s g => leads_alternative rest s subject g) c

theorem leads_alternative (bs : Branches) (s : SymState) (subject : Subject) (g : Generator) :
    (alternative ctx s subject bs).Leads g fun s' _ => Frames bs.affected s s' := by
  match bs with
  | .otherwise b => exact leads_block b s g
  | .branch c b rest =>
    exact (leads_branch (leads_block b) (fun s g => leads_alternative rest s subject g) c).mono
      fun _ _ _ h => h.1

theorem leads_block (cs : List Command) (s : SymState) (g : Generator) :
    (block ctx s cs).Leads g fun s' _ => Frames (Command.affectedAll cs) s s' := by
  match cs with
  | [] => exact leads_pure fun _ _ _ => rfl
  | c :: cs =>
    refine (leads_inScope _).bind fun frame _ _ _ => (leads_run c s _ _).bind fun s₁ _ _ h₁ => ?_
    exact (leads_block cs _ _).mono fun s₂ _ _ h₂ => h₁.trans h₂

end

theorem of_command {c : Command} (h : Gives (command ctx s c) g s' g') :
    ∃ frame s₁, s' = { s₁ with frame } ∧ Gives (run ctx s ⟨c.origin, c.print⟩ c) g s₁ g' := by
  obtain ⟨frame, g₀, h₀, h'⟩ := h.bind
  obtain ⟨-, rfl⟩ := h₀.inScope
  obtain ⟨s₁, g₁, h₁, h₂⟩ := h'.bind
  obtain ⟨rfl, rfl⟩ := gives_pure h₂
  exact ⟨frame, s₁, rfl, h₁⟩

/-- A command leaves the values of all variables that it does not affect. A conditional and a loop have the
same variables before and after, and what the body of a loop writes has new constants after it. The
iterator of a loop is in scope only within the loop. -/
theorem command_frames {c : Command} {s' : SymState} {g' : Generator}
    (h : Gives (command ctx s c) g s' g') :
    (∀ x v, x ≠ "" → s.values.get? x = some v → x ∉ c.affected.members →
      s'.values.get? x = some v) ∧
    (∀ bs o, c = .cond bs o → SameNames s s') ∧
    (∀ b inv variant body o, c = .whileLoop b inv variant body o →
      SameNames s s' ∧ ∀ x ∈ (Command.affectedAll body).members, Renewed x s g s' g') ∧
    (∀ i lo hi inv body o, c = .forRange i lo hi inv body o →
      (s.isVariable i = false → SameNames s s') ∧
        ∀ x ∈ (Command.affectedAll body).members, x ≠ i → Renewed x s g s' g') := by
  obtain ⟨frame, s₁, rfl, h₁⟩ := of_command h
  have hbody : ∀ body s g, (block ctx s body).Leads g fun _ _ => True :=
    fun body s g => (leads_block body s g).trivial
  refine ⟨fun x v hne hv hx => ?_, ?_, ?_, ?_⟩
  · rw [← hv]
    exact (leads_run c s _ _ h₁).2 x hne hx
  · rintro bs o rfl
    exact (leads_conditional bs s _ _ h₁).2.2
  · rintro b inv variant body o rfl
    obtain ⟨-, hloop⟩ := leads_whileLoop (hbody body) b inv variant o h₁
    exact ⟨hloop.names, hloop.fresh⟩
  · rintro i lo hi inv body o rfl
    obtain ⟨-, hloop⟩ := leads_forRange (hbody body) i lo hi inv o h₁
    refine ⟨fun hi x => (hloop.names x).trans ?_, hloop.fresh⟩
    by_cases hx : x = i
    · simp [hx, hi]
    · simp [hx]

/-! ### Runs -/

/-- What is read off a run that succeeds. -/
theorem exists_gives {β : Type} {m : GenM α} {b : β} (read : α → β)
    (h : (m.run g).toOption.map (fun r => read r.1) = some b) : ∃ a g', m.Gives g a g' ∧ read a = b := by
  obtain ⟨r, hr, hread⟩ := Option.map_eq_some_iff.mp h
  exact ⟨r.1, r.2, toOption_eq_some.mp hr, hread⟩

def plainContext : GenContext := ⟨.standard, [], "f", .empty⟩

/-- The state in which `x` is the constant `a` and `y` is one more. -/
def twoVariables : SymState where
  frame := ⟨[], [⟨"x", .i32, true, none⟩, ⟨"y", .i32, true, none⟩], [], [], .empty⟩
  values := .ofList [("x", .var "a"), ("y", .expr (.op .add (.value (.var "a")) (.num 1)) none)]
  facts := []

def oneSymbol : Generator := { (default : Generator) with symbols := .ofList [("a", .i32)] }

/-- A loop over a range that counts `x` up where it is less than the iterator. -/
def countUp : Command :=
  .forRange "i" (.int 0) (.int 3) (.lit true)
    [.cond (.branch (.compare .lt (.value (.var "x")) (.value (.var "i")))
      [.assign ⟨.name "x" none, .expr (.op .add (.value (.var "x")) (.num 1)) none, none⟩]
      (.otherwise [])) none] none

theorem command_frames_countUp :
    ∃ s' g', GenM.Gives (command plainContext twoVariables countUp) oneSymbol s' g' ∧
      s'.values.get? "y" = twoVariables.values.get? "y" ∧ SameNames twoVariables s' ∧
      Renewed "x" twoVariables oneSymbol s' g' := by
  obtain ⟨s', g', hgives, -⟩ := exists_gives (fun _ => ())
    (show ((command plainContext twoVariables countUp).run oneSymbol).toOption.map _ = some () by cbv)
  obtain ⟨hkept, -, -, hloop⟩ := command_frames hgives
  obtain ⟨hnames, hfresh⟩ := hloop _ _ _ _ _ _ rfl
  have hy : "y" ∉ countUp.affected.members := by
    simp [countUp, Command.affected, Command.affectedAll, Branches.affected, Assignment.affected,
      Place.base]
  refine ⟨s', g', hgives, hkept "y" _ (by decide) rfl hy, hnames (by decide), hfresh "x" ?_ (by decide)⟩
  simp [Command.affected, Command.affectedAll, Branches.affected, Assignment.affected, Place.base]

/-- The state in which the variable with the empty name is `1`. -/
def namelessOne : SymState where
  frame := ⟨[], [⟨"", .i32, true, none⟩], [], [], .empty⟩
  values := .ofList [("", .int 1)]
  facts := []

/-- An assignment to a variable with the empty name changes it, although it affects nothing. A loop over a
range whose iterator is a variable before it leaves no value for that variable, although its body writes
to it. -/
theorem command_changes_unaffected :
    (∃ s' g', GenM.Gives (command plainContext namelessOne (.assign ⟨.name "" none, .int 2, none⟩)) default
        s' g' ∧ namelessOne.values.get? "" = some (.int 1) ∧
        "" ∉ (Command.affected (.assign ⟨.name "" none, .int 2, none⟩)).members ∧
        s'.values.get? "" = some (.int 2)) ∧
      ∃ s' g', GenM.Gives (command plainContext twoVariables (.forRange "x" (.int 0) (.int 3) (.lit true)
          [.assign ⟨.name "x" none, .int 5, none⟩] none)) oneSymbol s' g' ∧
        twoVariables.isVariable "x" = true ∧
        "x" ∈ (Command.affectedAll [.assign ⟨.name "x" none, .int 5, none⟩]).members ∧
        s'.values.get? "x" = none := by
  constructor
  · obtain ⟨s', g', hgives, hvalue⟩ := exists_gives (fun s => s.values.get? "")
      (show ((command plainContext namelessOne (.assign ⟨.name "" none, .int 2, none⟩)).run
        default).toOption.map _ = some (some (.int 2)) by cbv)
    exact ⟨s', g', hgives, by cbv, by simp [Command.affected, Assignment.affected, Place.base], hvalue⟩
  · obtain ⟨s', g', hgives, hvalue⟩ := exists_gives (fun s => s.values.get? "x")
      (show ((command plainContext twoVariables (.forRange "x" (.int 0) (.int 3) (.lit true)
        [.assign ⟨.name "x" none, .int 5, none⟩] none)).run oneSymbol).toOption.map _ = some none by cbv)
    exact ⟨s', g', hgives, by decide,
      by simp [Command.affected, Command.affectedAll, Assignment.affected, Place.base], hvalue⟩

end Generation

end Verdict
