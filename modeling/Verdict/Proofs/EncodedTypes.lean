import Verdict.Proofs.Rendering

/-! # The types of encodings

The typing rules and the encoder go over a value each on their own, and take the type of a compound value
from different parts of it. They agree (`Encoding.typeOf_encoded`): what becomes a term has a type, and the
term is of its sort; what becomes the parts of a tuple has the type of a tuple with the same elements. -/

namespace Verdict

/-! ### Types up to references -/

namespace Ty

mutual

theorem same_of_underlying (t : Ty) {u} (h : u.underlying = t.underlying) : t.same u = true :=
  match t, h with
  | .bool, h | .i32, h | .unit, h | .unknown, h => by simp [same, h, underlying]
  | .array t n, h => by
    unfold same
    simp [h, underlying, same_of_underlying t rfl]
  | .tuple ts, h => by simp [same, h, underlying, sameAll_self ts]
  | .ref t m, h => by
    rw [same]
    exact same_of_underlying t h

theorem sameAll_self (ts : List Ty) : sameAll ts ts = true :=
  match ts with
  | [] => rfl
  | t :: ts => by rw [sameAll, same_of_underlying t rfl, sameAll_self ts, Bool.and_self]

end

end Ty

namespace Encoding

variable {env : Env} {d d' : Declarations}

/-! ### Encodings of typed values -/

theorem exists_typeOf_of_place {p r} (h : RunPlace env p d r d') :
    ∃ t, p.typeOf env.scope = .ok t := by
  cases h with
  | @name _ _ _ t _ _ _ hu => exact ⟨t, by simp only [Place.typeOf, hu]⟩
  | @array _ _ _ _ _ e _ _ _ _ _ _ hu he => exact ⟨e, by simp only [Place.typeOf, hu, Ty.elementType, he]; rfl⟩
  | @tuple _ _ _ _ _ _ _ _ e _ _ _ hu hts _ hn he =>
    exact ⟨e, by simp only [Place.typeOf, hu, Ty.elementType, hts, hn, he]; rfl⟩

theorem exists_typeOf_of_tuple {v r} (h : RunTuple env v d r d') :
    ∃ t, v.typeOf env.scope = .ok t := by
  cases h with
  | @name _ _ _ _ t _ _ _ _ ht => exact ⟨t, by simp only [Value.typeOf, Place.typeOf, ht]⟩
  | @call _ _ _ _ g _ _ _ _ _ _ hg => exact ⟨g.output, by simp only [Value.typeOf, hg]⟩
  | literal ht | ref ht | deref ht | ite ht | store ht => exact ⟨_, ht⟩

theorem exists_typeOf_of_value {v d r d'} (h : RunValue env v d r d') :
    ∃ t, v.typeOf env.scope = .ok t :=
  match h with
  | .expr _ _ => ⟨.i32, rfl⟩
  | .formula _ => ⟨.bool, rfl⟩
  | .place hp => exists_typeOf_of_place hp
  | .array hv _ => by
    obtain ⟨t, ht⟩ := exists_typeOf_of_value hv
    exact ⟨_, by rw [Value.typeOf, ht]; rfl⟩
  | .call hg _ _ _ => ⟨_, by simp only [Value.typeOf, hg]; rfl⟩
  | .ref hv | .deref hv => by
    obtain ⟨t, ht⟩ := exists_typeOf_of_value hv
    exact ⟨_, by rw [Value.typeOf, ht]; rfl⟩
  | .ite _ hv _ _ => (exists_typeOf_of_value hv :)
  | .element hb hn he _ => by
    obtain ⟨t, ht⟩ := exists_typeOf_of_tuple hb
    have hu := underlying_tuple hb ht
    exact ⟨_, Value.typeOf_select.mpr ⟨t, ht, by simp only [Ty.elementType, hu, hn, he]; rfl⟩⟩
  | .select ht he _ _ _ _ =>
    ⟨_, Value.typeOf_select.mpr ⟨_, ht, by simp only [Ty.elementType, he]; rfl⟩⟩
  | .store hb _ _ _ => (exists_typeOf_of_value hb :)

/-- What is encoded has a type in the scope of the encoder. A term is of the sort of the type, and the
parts of a tuple are those of the type without the references in front. -/
theorem typeOf_encoded (env : Env) (v : Value) (d d' : Declarations) :
    (∀ r, Ran (value env v) d r d' →
      ∃ t, v.typeOf env.scope = .ok t ∧ t.sortOf = .ok r.sort) ∧
    ∀ r, Ran (tuple env v) d r d' → ∃ t, v.typeOf env.scope = .ok t ∧
      t.underlying = .tuple r.elements ∧ t.underlying.same (.tuple r.elements) = true := by
  refine ⟨fun r h => ?_, fun r h => ?_⟩
  · obtain ⟨t, ht⟩ := exists_typeOf_of_value (runs_value h)
    exact ⟨t, ht, sortOf_value (runs_value h) ht⟩
  · obtain ⟨t, ht⟩ := exists_typeOf_of_tuple (runs_tuple h)
    have hu := underlying_tuple (runs_tuple h) ht
    exact ⟨t, ht, hu, Ty.same_of_underlying _ (by rw [hu])⟩

/-- The environment of a formula that binds a pair behind a reference. -/
def pairEnv : Env := Env.bind ⟨⟨.empty, []⟩, []⟩ "p" (.ref (.tuple [.i32, .bool]) false)

/-- The pair with its second element replaced. -/
def flippedPair : Value :=
  .store .tuple (.deref (.var "p") none) (.int 1) (.formula (.lit false) none) none

theorem typeOf_encoded_pair :
    (∃ r d', Ran (value pairEnv (.select .tuple flippedPair (.int 1) none)) ⟨.empty, .empty⟩ r d' ∧
      r.sort = .bool ∧ ∃ t, (Value.select .tuple flippedPair (.int 1) none).typeOf pairEnv.scope = .ok t ∧
        t.sortOf = .ok r.sort) ∧
    ∃ r d', Ran (tuple pairEnv flippedPair) ⟨.empty, .empty⟩ r d' ∧ r.elements = [.i32, .bool] ∧
      ∃ t, flippedPair.typeOf pairEnv.scope = .ok t ∧ t.underlying = .tuple r.elements ∧
        t.underlying.same (.tuple r.elements) = true := by
  refine ⟨⟨_, _, rfl, rfl, ?_⟩, ⟨_, _, rfl, rfl, ?_⟩⟩
  · exact (typeOf_encoded pairEnv _ ⟨.empty, .empty⟩ _).1 _ rfl
  · exact (typeOf_encoded pairEnv flippedPair ⟨.empty, .empty⟩ _).2 _ rfl

end Encoding

end Verdict
