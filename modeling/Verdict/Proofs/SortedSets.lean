import Verdict.Proofs.Names

/-! # Sorted sets are sets

Any sequence of operations on sorted sets does what the operations on sets do in which nothing is sorted. The
sets stay ascending, membership is what searching finds, buffers are filled exactly, and the members alone decide
the list that is kept, whatever the operations were (`SetOp.run_refines`). -/

namespace Verdict

/-- An operation on numbered sets. The first number is that of the set which is changed or made. -/
inductive SetOp (α : Type) where
  | new (r : ℕ) (as : List α)
  | add (r : ℕ) (a : α)
  | remove (r : ℕ) (a : α)
  | merge (r q : ℕ)
  | intersect (r p q : ℕ)
  | unite (r : ℕ) (qs : List ℕ)

namespace SetOp

variable {α : Type}

/-- The sets after an operation, without order. -/
def denote (M : ℕ → Set α) : SetOp α → ℕ → Set α
  | new r as => Function.update M r {a | a ∈ as}
  | add r a => Function.update M r (insert a (M r))
  | remove r a => Function.update M r (M r \ {a})
  | merge r q => Function.update M r (M r ∪ M q)
  | intersect r p q => Function.update M r (M p ∩ M q)
  | unite r qs => Function.update M r (⋃ q ∈ qs, M q)

/-- The sets after a sequence of operations, all empty at first. -/
def denotes (ops : List (SetOp α)) : ℕ → Set α := ops.foldl denote fun _ => ∅

variable [LinearOrder α]

/-- The sorted sets after an operation. -/
def step (σ : ℕ → SortedSet α) : SetOp α → ℕ → SortedSet α
  | new r as => Function.update σ r (.ofList as)
  | add r a => Function.update σ r ((σ r).insert a)
  | remove r a => Function.update σ r ((σ r).erase a)
  | merge r q => Function.update σ r ((σ r).union (σ q))
  | intersect r p q => Function.update σ r ((σ p).inter (σ q))
  | unite r qs => Function.update σ r (.unions (qs.map σ))

/-- The sorted sets after a sequence of operations. -/
def run (ops : List (SetOp α)) : ℕ → SortedSet α := ops.foldl step fun _ => .empty

/-- Whether sorted sets have the members of other sets. -/
def Refines (σ : ℕ → SortedSet α) (M : ℕ → Set α) : Prop := ∀ r a, a ∈ (σ r).members ↔ a ∈ M r

variable {σ : ℕ → SortedSet α} {M : ℕ → Set α}

theorem Refines.update (h : Refines σ M) (r : ℕ) {s : SortedSet α} {A : Set α}
    (hs : ∀ a, a ∈ s.members ↔ a ∈ A) : Refines (Function.update σ r s) (Function.update M r A) := by
  intro q a
  by_cases hq : q = r
  · subst hq
    simp [hs]
  · simp [hq, h q a]

/-- One operation on sorted sets does what it does on sets. -/
theorem Refines.step (h : Refines σ M) (op : SetOp α) : Refines (op.step σ) (op.denote M) := by
  cases op with
  | new r as => exact h.update r fun a => SortedSet.mem_ofList a as
  | add r b => exact h.update r fun a => by simp [h r a]
  | remove r b => exact h.update r fun a => by simp [h r a]
  | merge r q => exact h.update r fun a => by simp [h r a, h q a]
  | intersect r p q => exact h.update r fun a => by simp [SortedSet.inter, h p a, h q a]
  | unite r qs => exact h.update r fun a => by simp [h _ a]

theorem refines_run (ops : List (SetOp α)) : Refines (run ops) (denotes ops) := by
  have hfold : ∀ {σ : ℕ → SortedSet α} {M : ℕ → Set α}, Refines σ M →
      Refines (ops.foldl SetOp.step σ) (ops.foldl denote M) := by
    induction ops with
    | nil => exact fun h => h
    | cons op ops ih => exact fun h => ih (h.step op)
  exact hfold fun r a => by simp

/-- Let sets be made by any operations, one after the other. The members of each are strictly ascending, and
searching finds exactly those that operations on sets without order give. To merge two of them, a buffer with a
slot for each member of either set is allocated; all is written to slots that there are, and in the end every
slot holds a member. Sets that have the same members are equal, whatever the operations were. -/
theorem run_refines (ops : List (SetOp α)) :
    (∀ r, (run ops r).members.Pairwise (· < ·)) ∧
    (∀ r a, (run ops r).contains a = true ↔ a ∈ denotes ops r) ∧
    (∀ r q, SortedSet.Buffer.merge
      (List.replicate ((run ops r).size + (run ops q).size -
        SortedSet.common (run ops r).members (run ops q).members) none) 0
      (run ops r).members (run ops q).members =
        some (((run ops r).union (run ops q)).members.map some)) ∧
    ∀ ops' r r', denotes ops r = denotes ops' r' → run ops r = run ops' r' := by
  refine ⟨fun r => (run ops r).ascending, fun r a => ?_, fun r q => ?_, fun ops' r r' hsame => ?_⟩
  · rw [SortedSet.contains_iff]
    exact refines_run ops r a
  · rw [SortedSet.members_union]
    exact SortedSet.merge_allocated (run ops r).members (run ops q).members
  · -- An ascending list is decided by its members.
    have hmembers : (run ops r).members = (run ops' r').members :=
      (run ops r).ascending.eq_of_mem_iff (run ops' r').ascending fun a =>
        (refines_run ops r a).trans (hsame ▸ (refines_run ops' r' a).symm)
    exact SortedSet.ext hmembers

/-- The members alone decide the set. -/
theorem run_refines_orders :
    (run [.new 0 [3, 1, 2, 1]] 0 : SortedSet ℕ) = run [.add 0 2, .new 1 [3, 1], .merge 0 1] 0 := by
  refine (run_refines [.new 0 [3, 1, 2, 1]]).2.2.2 _ 0 0 ?_
  ext a
  have hmembers : a = 3 ∨ a = 1 ∨ a = 2 ∨ a = 1 ↔ a = 2 ∨ a = 3 ∨ a = 1 := by omega
  simpa [denotes, denote] using hmembers

end SetOp

end Verdict
