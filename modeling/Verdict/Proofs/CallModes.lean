import Verdict.Proofs.TwinRuns

/-! # Contracts only add

With contracts, a call adds the precondition of the callee as an obligation and its postcondition as a fact.
Where calls are uninterpreted, nothing is added. What comes after a call is the same in both modes: the values,
the constants and all goals. So the obligations without contracts are those with contracts, preconditions
aside, each with some of its assumptions (`Function.obligations_uninterpreted`). -/

namespace Verdict

/-- Whether an obligation asks for the same as another one from some of its assumptions. -/
structure Obligation.Relies (o o' : Obligation) : Prop where
  counterpart : o.Counterpart o'
  assumptions : o'.assumptions.Sublist o.assumptions

/-- What follows from some of the assumptions follows from all of them. -/
theorem Obligation.Relies.holdsAt {o o' : Obligation} (h : o.Relies o') {I : Interp} {ρ : Valuation}
    (ho : o'.HoldsAt I ρ) : o.HoldsAt I ρ := by
  intro hassumptions
  rw [← h.counterpart.goal]
  exact ho fun f hf => hassumptions f (h.assumptions.subset hf)

/-- The obligations that are no preconditions of callees. -/
def Obligation.besidesCalls (os : List Obligation) : List Obligation :=
  os.filter fun o => o.kind ≠ .precondition

/-- The first run knows all that the second one does, and has all of its obligations. -/
def contractBond : Bond where
  facts fs fs' := fs'.Sublist fs
  alikes _ _ := True
  obligations os os' := List.Forall₂ Obligation.Relies (Obligation.besidesCalls os) os'
  shares kind := kind ≠ .precondition
  learn f h := h.append (List.Sublist.refl [f])
  note _ h := h
  emit hos hcounter _ _ hfacts hkind := by
    unfold Obligation.besidesCalls at hos ⊢
    rw [List.filter_append, List.filter_cons_of_pos (by simpa using hkind)]
    exact List.rel_append hos (.cons ⟨hcounter, hfacts⟩ .nil)

namespace Generation

open GenM Bond

variable {ctx : GenContext} {s s' : SymState} {subject : Subject} {g g' : Generator}

/-! ### What a contract adds -/

theorem receives_keep {v w : Value} (h : Gives (keep v) g w g') (n : Nat) :
    Generator.Receives { g with made := n } [] { g' with made := n } := by
  have hk := h.modifyGet
  split_ifs at hk
  all_goals
    cases hk
    exact ⟨g.alikes, by simp⟩

theorem receives_substValue {m : Substitution} {v w : Value} (h : Gives (substValue m v) g w g') (n : Nat) :
    Generator.Receives { g with made := n } [] { g' with made := n } := by
  obtain ⟨_, g₁, h₁, h₂⟩ := (afterRequire h).bind
  have hnoted : Generator.Receives { g with made := n } [] { g₁ with made := n } := by
    rw [h₁.modify]
    exact ⟨g.alikes ++ v.alikes g.symbols m, by simp⟩
  exact hnoted.trans (receives_keep h₂ n)

theorem receives_substValues {m : Substitution} {vs ws : List Value} (h : Gives (substValues m vs) g ws g')
    (n : Nat) : Generator.Receives { g with made := n } [] { g' with made := n } := by
  induction vs generalizing g ws with
  | nil =>
    obtain ⟨rfl, rfl⟩ := gives_pure h
    exact ⟨g'.alikes, by simp⟩
  | cons v vs ih =>
    obtain ⟨w, g₁, h₁, h⟩ := h.bind
    obtain ⟨ws, g₂, h₂, h₃⟩ := h.bind
    obtain ⟨rfl, rfl⟩ := gives_pure h₃
    exact (receives_substValue h₁ n).trans (ih h₂)

/-- Whether obligations and facts are added as contracts add them. -/
def Contracted (n : Nat) (s : SymState) (g : Generator) (s' : SymState) (g' : Generator) : Prop :=
  ∃ fs os, s' = { s with facts := s.facts ++ fs } ∧ (∀ o ∈ os, o.kind = .precondition) ∧
    Generator.Receives { g with made := n } os { g' with made := n }

theorem contracted_contract {c : Call} (h : Gives (contract ctx s subject c) g s' g') (n : Nat) :
    Contracted n s g s' g' := by
  unfold contract at h
  split at h
  · exact absurd h not_gives_throw
  · split_ifs at h
    · exact absurd h not_gives_throw
    · obtain ⟨args, g₁, h₁, h⟩ := h.bind
      obtain ⟨pre, g₂, h₂, h⟩ := h.bind
      obtain ⟨_, g₃, h₃, h⟩ := h.bind
      have hbefore := ((receives_substValues h₁ n).trans ((receives_substFormula h₂).1.renumber n)).trans
        ((receives_emit h₃).renumber n)
      have hpre : ∀ o ∈ (if pre.isTrue then [] else [obligationFor ctx g₂ s .precondition subject pre]),
          o.kind = .precondition := by
        intro o ho
        split_ifs at ho
        · cases ho
        · rw [List.mem_singleton.mp ho]
          rfl
      dsimp only at h
      split_ifs at h
      · obtain ⟨r, g₄, h₄, h⟩ := h.bind
        obtain ⟨post, g₅, h₅, h⟩ := h.bind
        obtain ⟨rfl, rfl⟩ := gives_pure h
        have hafter := (receives_keep h₄ n).trans ((receives_substFormula h₅).1.renumber n)
        refine ⟨if post.isTrue then [] else [post], _, ?_, hpre, by simpa using hbefore.trans hafter⟩
        unfold SymState.assume
        split_ifs <;> simp
      · obtain ⟨rfl, rfl⟩ := gives_pure h
        exact ⟨[], _, by simp, hpre, by simpa using hbefore⟩

theorem contracted_contracts {cs : List Call} (h : Gives (contracts ctx subject s cs) g s' g') (n : Nat) :
    Contracted n s g s' g' := by
  induction cs generalizing s g with
  | nil =>
    obtain ⟨rfl, rfl⟩ := gives_pure h
    exact ⟨[], [], by simp, by simp, g'.alikes, by simp⟩
  | cons c cs ih =>
    obtain ⟨s₁, g₁, h₁, h₂⟩ := h.bind
    obtain ⟨fs, os, rfl, hos, hreceives⟩ := contracted_contract h₁ n
    obtain ⟨fs', os', rfl, hos', hreceives'⟩ := ih h₂
    refine ⟨fs ++ fs', os ++ os', by simp, fun o ho => ?_, hreceives.trans hreceives'⟩
    exact (List.mem_append.mp ho).elim (hos o) (hos' o)

/-! ### Both runs -/

/-- The run without contracts has no part in what a call adds. -/
theorem callsFollow_uninterpreted (ctx : GenContext) (hmode : ctx.modes.calls = .contracts) :
    CallsFollow contractBond ctx ⟨ctx.modes.termination, .uninterpreted⟩ where
  plain := by
    rintro k hk rfl
    cases hk
  calls {s s'} subject nodes hs := by
    obtain ⟨fs, hfs, rfl⟩ := hs
    unfold calls
    rw [hmode]
    refine follows_alone (fun _ _ => trivial) fun g s₁ g' h => ?_
    obtain ⟨g₁, h₁, rfl⟩ := of_aside h
    obtain ⟨fs', os, rfl, hos, hreceives⟩ := contracted_contracts h₁ g.made
    refine ⟨⟨fs, hfs.trans (List.sublist_append_left _ _), rfl⟩, os, hreceives, fun qs qs' hqs => ?_⟩
    have hnone : Obligation.besidesCalls (qs ++ os) = Obligation.besidesCalls qs := by
      unfold Obligation.besidesCalls
      rw [List.filter_append, List.append_right_eq_self, List.filter_eq_nil_iff]
      exact fun o ho => by simpa using hos o ho
    change List.Forall₂ _ (Obligation.besidesCalls (qs ++ os)) qs'
    rw [hnone]
    exact hqs

end Generation

theorem Obligation.Relies.within {o o' : Obligation} (h : o.Relies o') (Γ : Scope) :
    (o.within Γ).Relies (o'.within Γ) :=
  ⟨⟨h.counterpart.function, h.counterpart.kind, h.counterpart.origin, h.counterpart.text,
    h.counterpart.goal, rfl⟩, h.assumptions⟩

theorem Obligation.besidesCalls_within (Γ : Scope) (os : List Obligation) :
    besidesCalls (os.map (within Γ)) = (besidesCalls os).map (within Γ) := by
  rw [besidesCalls, List.filter_map]
  rfl

/-- Where generation succeeds with contracts, it succeeds without them. The obligations that it then gives
are, in order, those with contracts that are no preconditions of callees: they ask for the same at the same
node, from some of the assumptions. So whatever makes one of them true makes its counterpart with contracts
true. -/
theorem Function.obligations_uninterpreted (t : Termination) {functions : List Function} {f : Function}
    {os : List Obligation} (hos : f.obligations ⟨t, .contracts⟩ functions = .ok os) :
    ∃ os', f.obligations ⟨t, .uninterpreted⟩ functions = .ok os' ∧
      List.Forall₂ (fun o o' => o.Counterpart o' ∧ o'.assumptions.Sublist o.assumptions ∧
        ∀ I ρ, o'.HoldsAt I ρ → o.HoldsAt I ρ) (Obligation.besidesCalls os) os' := by
  have hcalls := Generation.callsFollow_uninterpreted (Generation.contextOf ⟨t, .contracts⟩ functions f) rfl
  obtain ⟨Γ, qs, qs', hrel, rfl, hos'⟩ := Bond.obligations_follow
    (Generation.follows_function (List.Sublist.refl []) hcalls
      fun p _ => Generation.loopFollows_of_calls hcalls rfl (fun _ hk => hk) p.1 p.2) trivial .nil hos
  refine ⟨_, hos', ?_⟩
  rw [Obligation.besidesCalls_within, List.forall₂_map_left_iff, List.forall₂_map_right_iff]
  refine List.Forall₂.imp (fun o o' h => ?_) hrel
  have hwithin := Obligation.Relies.within h Γ
  exact ⟨hwithin.counterpart, hwithin.assumptions, fun I ρ => hwithin.holdsAt⟩

/-- Gives a number above its input, which has to be small. -/
def raise : Function where
  name := "raise"
  inputs := [⟨"n", .i32, false, none⟩]
  output := .i32
  precondition := .compare .lt (.value (.var "n")) (.num 9)
  postcondition := .compare .gt (.value (.var resultName)) (.value (.var "n"))
  result := .expr (.op .add (.value (.var "n")) (.num 1)) none
  body := []
  origin := none

/-- Raises its input twice in each iteration of a loop. -/
def climb : Function where
  name := "climb"
  inputs := [⟨"k", .i32, true, none⟩]
  output := .unit
  precondition := .lit true
  postcondition := .lit true
  result := .unit none
  body := [
    .whileLoop (.compare .lt (.value (.var "k")) (.num 5)) (.lit true)
      (some (.op .sub (.num 9) (.value (.var "k"))))
      [.assign ⟨.name "k" none, .call "raise" [.call "raise" [.var "k"] none] none, none⟩] none,
    .assert (.compare .ge (.value (.var "k")) (.num 5)) none]
  origin := none

/-- With contracts `climb` has two obligations more than without them, the preconditions of its calls. -/
theorem Function.obligations_uninterpreted_climb : ∃ os os',
    climb.obligations ⟨.total, .contracts⟩ [raise, climb] = .ok os ∧
    os.map Obligation.kind =
      [.variantNonnegative, .precondition, .precondition, .variantDecreases, .assertion] ∧
    climb.obligations ⟨.total, .uninterpreted⟩ [raise, climb] = .ok os' ∧
    List.Forall₂ (fun o o' => o.Counterpart o' ∧ o'.assumptions.Sublist o.assumptions ∧
      ∀ I ρ, o'.HoldsAt I ρ → o.HoldsAt I ρ) (Obligation.besidesCalls os) os' := by
  obtain ⟨os, hos, hkinds⟩ : ∃ os, climb.obligations ⟨.total, .contracts⟩ [raise, climb] = .ok os ∧ _ :=
    Function.obligations_of_view Obligation.kind (by cbv)
  obtain ⟨os', hos', hrel⟩ := Function.obligations_uninterpreted .total hos
  exact ⟨os, os', hos, hkinds, hos', hrel⟩

end Verdict
