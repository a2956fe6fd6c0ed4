import Verdict.Proofs.Typing

/-! # Substitution keeps types and meanings

Replacing variables by values of their types keeps a node well-typed. What the result denotes is what
the node denotes where each variable stands for what its replacement denotes, provided that values
which are taken for one another do mean the same. -/

namespace Verdict

variable {fits : Bounds} {Γ Δ : Scope} {I : Interp} {ρ : Valuation}

/-! ### Lists of well-typed values -/

variable {vs : List Value} {v : Value}

namespace Value.AllTyped

variable {ts : List Ty}

theorem forall₂ (h : AllTyped fits Γ vs ts) : List.Forall₂ (Typed fits Γ) vs ts := by
  induction vs generalizing ts with
  | nil =>
    obtain rfl : ts = [] := h
    exact .nil
  | cons v vs ih =>
    obtain ⟨t, ts, rfl, hv, hvs⟩ := h
    exact .cons hv (ih hvs)

theorem of_forall₂ (h : List.Forall₂ (Typed fits Γ) vs ts) : AllTyped fits Γ vs ts := by
  induction h with
  | nil => rfl
  | cons hv _ ih => exact ⟨_, _, rfl, hv, ih⟩

theorem getElem? (h : AllTyped fits Γ vs ts) {n : ℕ} {t : Ty} (ht : ts[n]? = some t) :
    ∃ v, vs[n]? = some v ∧ v.Typed fits Γ t :=
  exists_getElem?_of_forall₂ h.forall₂ ht

theorem length_eq (h : AllTyped fits Γ vs ts) : vs.length = ts.length := h.forall₂.length_eq

theorem set (h : AllTyped fits Γ vs ts) {n : ℕ} {t : Ty} {w : Value} (ht : ts[n]? = some t)
    (hw : w.Typed fits Γ t) : AllTyped fits Γ (vs.set n w) ts :=
  .of_forall₂ (forall₂_set h.forall₂ ht hw)

end Value.AllTyped

theorem Value.getElem?_evalAll (vs : List Value) (n : ℕ) :
    (Value.evalAll I ρ vs)[n]? = (vs[n]?).map (Value.eval I ρ) := by
  rw [evalAll_eq_map, List.getElem?_map]

theorem Value.evalAll_set (vs : List Value) (n : ℕ) (w : Value) :
    Value.evalAll I ρ (vs.set n w) = (Value.evalAll I ρ vs).set n (w.eval I ρ) := by
  rw [evalAll_eq_map, evalAll_eq_map, List.map_set]

/-! ### Conditional values -/

namespace Value

variable {w : Value}

theorem typed_ternary {c : Formula} {t : Ty} (hc : c.Typed fits Γ) (hv : v.Typed fits Γ t)
    (hw : w.Typed fits Γ t) : (ternary c v w).Typed fits Γ t := by
  unfold ternary
  split_ifs
  · exact hv
  · exact hw
  · exact hv
  · exact ⟨hc, hv, hw⟩

open Classical in
theorem eval_ternary {vars : NameMap Ty} {c : Formula} (hρ : ρ.Fits vars)
    (ha : I.Equates (ternaryAlikes vars c v w)) :
    (ternary c v w).eval I ρ = if c.Holds I ρ then v.eval I ρ else w.eval I ρ := by
  unfold ternary
  by_cases hT : c.isTrue = true
  · rw [if_pos hT, if_pos (Formula.holds_of_isTrue hT)]
  by_cases hF : c.isFalse = true
  · rw [if_neg hT, if_pos hF, if_neg (Formula.not_holds_of_isFalse hF)]
  rw [if_neg hT, if_neg hF]
  split_ifs with hp hc
  · rfl
  · refine ha ⟨vars, v, w⟩ ?_ ρ hρ
    simp [ternaryAlikes, hT, hF, hp]
  · simp [eval, *]
  · simp [eval, *]

/-! ### Elements -/

theorem literalElement?_eq_some {i : Value} (h : literalElement? vs i = some w) :
    ∃ n, i.constantIndex? = some n ∧ vs[n]? = some w := by
  simpa [literalElement?, Option.bind_eq_some_iff] using h

/-- Where an element is found: `Finds s i whole v r` if `r` stands for the element of `whole` at an
index, `v` being `whole` without some references in front. -/
inductive Finds (s : Shape) (i : Value) : Value → Value → Value → Prop
  | ref {whole v r m o} (h : Finds s i whole v r) : Finds s i whole (.ref v m o) r
  | deref {whole v r o} (h : Finds s i whole v r) : Finds s i whole (.deref v o) r
  | name {whole x o o'} : Finds s i whole (.place (.name x o) o') (.place (.elem s x i none) none)
  | tuple {whole vs o n w} (hn : i.constantIndex? = some n) (hw : vs[n]? = some w) :
    Finds s i whole (.tuple vs o) w
  | array {whole vs o n w} (hn : i.constantIndex? = some n) (hw : vs[n]? = some w) :
    Finds s i whole (.array vs o) w
  | hit {whole s' b j e o n} (hn : i.constantIndex? = some n) (hj : j.constantIndex? = some n) :
    Finds s i whole (.store s' b j e o) e
  | miss {whole s' b j e o n m r} (hn : i.constantIndex? = some n) (hj : j.constantIndex? = some m)
    (hne : n ≠ m) (h : Finds s i b b r) : Finds s i whole (.store s' b j e o) r
  | ite {whole c v w o r r'} (hs : s = .tuple) (hv : Finds s i v v r) (hw : Finds s i w w r') :
    Finds s i whole (.ite c v w o) (ternary c r r')
  | select {whole v} : Finds s i whole v (.select s whole i none)

theorem Finds.getD {s : Shape} {i whole : Value}
    (h : ∀ n w, i.constantIndex? = some n → vs[n]? = some w → Finds s i whole v w) :
    Finds s i whole v ((literalElement? vs i).getD (.select s whole i none)) := by
  cases hl : literalElement? vs i with
  | none => exact .select
  | some w =>
    obtain ⟨n, hn, hw⟩ := literalElement?_eq_some hl
    exact h n w hn hw

theorem finds_elementOf {s : Shape} {i whole : Value} : Finds s i whole v (elementOf s i whole v) := by
  fun_induction elementOf s i whole v with
  | case1 _ _ _ _ _ ih => exact .ref ih
  | case2 _ _ _ _ ih => exact .deref ih
  | case3 => exact .name
  | case4 => exact .getD fun _ _ => .tuple
  | case5 => exact .getD fun _ _ => .array
  | case6 _ _ _ _ _ _ _ _ hj hn => exact .hit hn hj
  | case7 _ _ _ _ _ _ _ _ _ hj hn hne ih => exact .miss hn hj hne ih
  | case9 _ _ _ _ _ ihv ihw => exact .ite rfl ihv ihw
  | case8 | case10 | case11 => exact .select

section Array

variable {t : Ty} {n : ℕ} {i whole r : Value}

theorem Typed.of_store_array {s : Shape} {b j e : Value} {o : Origin}
    (h : (Value.store s b j e o).Typed fits Γ (.array t n)) :
    b.Typed fits Γ (.array t n) ∧ e.Typed fits Γ t := by
  cases s with
  | tuple => simp [Typed] at h
  | array =>
    obtain ⟨u, m, ⟨rfl, rfl⟩, hb, -, he⟩ := h
    exact ⟨hb, he⟩

theorem Finds.typed_array (hr : Finds .array i whole v r) (hn : fits.lengths n)
    (hi : i.Typed fits Γ .i32) (h : v.Typed fits Γ (.array t n))
    (hw : whole.Typed fits Γ (.array t n)) : r.Typed fits Γ t := by
  induction hr with
  | ref _ ih | deref _ ih => exact ih h hw
  | name =>
    obtain ⟨u, hu, hb⟩ := h
    exact ⟨u, n, hu, hb, hn, hi⟩
  | tuple => simp [Typed] at h
  | array _ hk =>
    obtain ⟨u, ⟨rfl, rfl⟩, -, hvs⟩ := h
    have hlt := (List.getElem?_eq_some_iff.mp hk).1
    obtain ⟨w', hw', ht⟩ := hvs.getElem? (List.getElem?_replicate_of_lt hlt)
    rw [hk, Option.some.injEq] at hw'
    exact hw' ▸ ht
  | hit => exact h.of_store_array.2
  | miss _ _ _ _ ih => exact ih h.of_store_array.1 h.of_store_array.1
  | ite hs => cases hs
  | select => exact ⟨n, hw, hn, hi⟩

theorem Finds.eval_array (hr : Finds .array i whole v r) (hI : I.Regular Γ.functions)
    (hρ : ρ.Fits Γ.vars) (h : v.Typed fits Γ (.array t n)) (hw : whole.eval I ρ = v.eval I ρ) :
    r.eval I ρ = (v.eval I ρ).get (i.eval I ρ).toInt := by
  induction hr with
  | ref _ ih | deref _ ih => exact ih h hw
  | name => simp only [eval, Place.eval]
  | tuple => simp [Typed] at h
  | array hk hkw =>
    simp [eval, eval_of_constantIndex hk, Val.toInt, Interp.literal, Val.get, getElem?_evalAll, hkw]
  | hit hk hl =>
    obtain ⟨f, hf, -⟩ := h.of_store_array.1.has_eval _ hI hρ
    simp [eval, eval_of_constantIndex hk, eval_of_constantIndex hl, hf, Val.toInt, Val.put, Val.get]
  | @miss _ _ _ _ _ _ k l _ hk hl hkl _ ih =>
    have hb := h.of_store_array.1
    obtain ⟨f, hf, -⟩ := hb.has_eval _ hI hρ
    have hne : (k : ℤ) ≠ l := by simpa using hkl
    rw [ih hb rfl]
    simp [eval, eval_of_constantIndex hk, eval_of_constantIndex hl, hf, Val.put, Val.get, Val.toInt,
      Function.update_of_ne hne]
  | ite hs => cases hs
  | select => simp only [eval, hw]

end Array

section Tuple

variable {ts : List Ty} {t : Ty} {n : ℕ} {i : Value}

theorem Typed.of_store_tuple {s : Shape} {b j e : Value} {o : Origin}
    (h : (Value.store s b j e o).Typed fits Γ (.tuple ts)) :
    b.Typed fits Γ (.tuple ts) ∧
      ∃ m u, j.constantIndex? = some m ∧ ts[m]? = some u ∧ e.Typed fits Γ u := by
  cases s with
  | array => simp [Typed] at h
  | tuple =>
    simp only [Typed, Ty.tuple.injEq] at h
    obtain ⟨us, m, u, rfl, hb, hm, hu, he⟩ := h
    exact ⟨hb, m, u, hm, hu, he⟩

theorem Finds.typed_tuple {whole r : Value} (hr : Finds .tuple i whole v r)
    (hn : i.constantIndex? = some n) (ht : ts[n]? = some t) (h : v.Typed fits Γ (.tuple ts))
    (hw : whole.Typed fits Γ (.tuple ts)) : r.Typed fits Γ t := by
  induction hr with
  | ref _ ih | deref _ ih => exact ih h hw
  | name =>
    obtain ⟨u, hu, hb⟩ := h
    exact ⟨u, ts, n, hu, hb, hn, ht⟩
  | array => simp [Typed] at h
  | tuple hn' hk =>
    obtain rfl := Option.mem_unique hn hn'
    simp only [Typed, Ty.tuple.injEq] at h
    obtain ⟨us, rfl, -, hvs⟩ := h
    obtain ⟨w, hk', hwt⟩ := hvs.getElem? ht
    exact Option.mem_unique hk hk' ▸ hwt
  | hit hn' hj =>
    obtain ⟨-, m, u, hm, hu, he⟩ := h.of_store_tuple
    obtain rfl := Option.mem_unique hn hn'
    obtain rfl := Option.mem_unique hj hm
    exact Option.mem_unique ht hu ▸ he
  | miss _ _ _ _ ih => exact ih h.of_store_tuple.1 h.of_store_tuple.1
  | ite _ _ _ ihv ihw => exact typed_ternary h.1 (ihv h.2.1 h.2.1) (ihw h.2.2 h.2.2)
  | select => exact ⟨ts, n, hw, hn, ht⟩

theorem eval_elementOf_tuple (hn : i.constantIndex? = some n) (ht : ts[n]? = some t)
    (hI : I.Regular Γ.functions) (hρ : ρ.Fits Γ.vars) (v whole : Value) (h : v.Typed fits Γ (.tuple ts))
    (hw : whole.eval I ρ = v.eval I ρ) (ha : I.Equates (elementAlikes Γ.vars .tuple i v)) :
    (elementOf .tuple i whole v).eval I ρ = (v.eval I ρ).get n :=
  match v, h, hw, ha with
  | .ref v _ _, h, hw, ha | .deref v _, h, hw, ha => eval_elementOf_tuple hn ht hI hρ v whole h hw ha
  | .place (.name x _) _, h, hw, ha => by
    simp only [elementOf, eval, Place.eval, eval_of_constantIndex hn, Val.toInt]
  | .array vs _, h, hw, ha => by simp [Typed] at h
  | .tuple vs _, h, hw, ha => by
    simp only [Typed, Ty.tuple.injEq] at h
    obtain ⟨us, rfl, -, hvs⟩ := h
    obtain ⟨w, hk, -⟩ := hvs.getElem? ht
    simp [elementOf, literalElement?, hn, hk, eval, Val.get, getElem?_evalAll]
  | .store _ b j e _, h, hw, ha => by
    obtain ⟨hb, m, u, hm, -⟩ := h.of_store_tuple
    obtain ⟨vs, hvs, hall⟩ := hb.has_eval b hI hρ
    simp only [elementAlikes, hn, hm] at ha
    simp only [elementOf, hn, hm, eval, eval_of_constantIndex hm, Val.toInt]
    split_ifs at ha ⊢ with hnm
    · obtain ⟨w, hw', -⟩ := hall.getElem? ht
      have hlt : n < vs.length := (List.getElem?_eq_some_iff.mp hw').1
      simp [hvs, Val.put, Val.get, ← hnm, hlt]
    · rw [eval_elementOf_tuple hn ht hI hρ b b hb rfl ha]
      have hmn : m ≠ n := fun h => hnm h.symm
      simp [hvs, Val.put, Val.get, List.getElem?_set_ne hmn]
  | .ite c v w _, h, hw, ha => by
    simp only [elementAlikes, element] at ha
    have hv := eval_elementOf_tuple hn ht hI hρ v v h.2.1 rfl ha.left.left
    have hw := eval_elementOf_tuple hn ht hI hρ w w h.2.2 rfl ha.left.right
    simp only [elementOf, eval]
    rw [eval_ternary hρ ha.right, hv, hw]
    split_ifs <;> rfl
  | .place (.wildcard _) _, h, hw, ha | .place (.elem _ _ _ _) _, h, hw, ha | .expr _ _, h, hw, ha
  | .formula _ _, h, hw, ha | .call _ _ _, h, hw, ha | .unit _, h, hw, ha | .select _ _ _ _, h, hw, ha
  | .missing, h, hw, ha => by
    simp only [elementOf, eval, hw, eval_of_constantIndex hn, Val.toInt]

end Tuple

end Value

/-! ### Replacements -/

namespace Substitution

/-- What stands for a variable after a substitution. -/
def image (m : Substitution) (x : String) : Value := (m.get? x).getD (.var x)

/-- What each variable denotes where its replacement is evaluated. -/
noncomputable def valuation (I : Interp) (m : Substitution) (ρ : Valuation) : Valuation :=
  fun x => (m.image x).eval I ρ

/-- Whether replacements have, in a second scope, the types that a first scope gives to some
variables. -/
structure Respects (fits : Bounds) (m : Substitution) (Γ Δ : Scope) (xs : Names) : Prop where
  vars : ∀ x ∈ xs.members, ∀ t, Γ.type? x = some t → (m.image x).Typed fits Δ t.bare
  functions : ∀ f g, Γ.function? f = some g → Δ.function? f = some g

namespace Respects

variable {m : Substitution} {xs ys : Names}

theorem left (h : m.Respects fits Γ Δ (xs.union ys)) : m.Respects fits Γ Δ xs :=
  ⟨fun x hx => h.vars x (by simp [hx]), h.functions⟩

theorem right (h : m.Respects fits Γ Δ (xs.union ys)) : m.Respects fits Γ Δ ys :=
  ⟨fun x hx => h.vars x (by simp [hx]), h.functions⟩

end Respects

theorem get?_below (m : Substitution) (x y : String) (free : Names) :
    (m.below x free).get? y = if y ≠ x ∧ y ∈ free.members then m.get? y else none := by
  unfold below NameMap.filter NameMap.get?
  rw [NameMap.find_filter fun z => decide (z ≠ x) && free.contains z]
  simp

variable {x z : String} {free : Names}

theorem mem_freeVars {m : Substitution} {y : String} {w : Value} (h : m.get? x = some w)
    (hy : y ∈ w.freeVars.members) : y ∈ m.freeVars.members := by
  simp only [freeVars, SortedSet.mem_unions, List.mem_map]
  exact ⟨w.freeVars, ⟨(x, w), NameMap.mem_of_find h, rfl⟩, hy⟩

theorem mentions_of_mem {m : Substitution} {y : String} {w : Value} (h : m.get? x = some w)
    (hy : y ∈ w.freeVars.members) : m.mentions y = true := by
  simp only [mentions, List.any_eq_true]
  exact ⟨(x, w), NameMap.mem_of_find h, by simpa using hy⟩

theorem image_enter_self (m : Substitution) (x : String) (free : Names) :
    (m.enter x free).2.image x = .var (m.enter x free).1 := by
  unfold enter
  by_cases h : (m.below x free).mentions x = true
  · simp [h, image]
  · simp [h, image, get?_below]

/-- The other variables of the body have the replacements that they had. -/
theorem image_enter_of_ne (m : Substitution) (hz : z ∈ free.members) (hzx : z ≠ x) :
    (m.enter x free).2.image z = m.image z := by
  have hb : (m.below x free).get? z = m.get? z := by rw [get?_below, if_pos ⟨hzx, hz⟩]
  unfold enter
  by_cases h : (m.below x free).mentions x = true
  · simp [h, image, Ne.symm hzx, hb]
  · simp [h, image, hb]

/-- The bound variable captures nothing. -/
theorem enter_not_mem (m : Substitution) (hz : z ∈ free.members) (hzx : z ≠ x) :
    (m.enter x free).1 ∉ (m.image z).freeVars.members := by
  have hb : (m.below x free).get? z = m.get? z := by rw [get?_below, if_pos ⟨hzx, hz⟩]
  unfold enter
  by_cases h : (m.below x free).mentions x = true
  · simp only [h, if_true]
    have hfresh := freshName_not_mem x (free.union (m.below x free).freeVars)
    rw [SortedSet.mem_union, not_or] at hfresh
    unfold image
    cases hg : m.get? z with
    | none =>
      intro hmem
      rw [Option.getD_none, Value.var, Value.freeVars, Place.freeVars, Names.mem_single] at hmem
      exact hfresh.1 (hmem ▸ hz)
    | some w => exact fun hmem => hfresh.2 (mem_freeVars (hb.trans hg) hmem)
  · simp only [h]
    unfold image
    cases hg : m.get? z with
    | none => simpa [Value.var, Value.freeVars, Place.freeVars] using Ne.symm hzx
    | some w => exact fun hmem => h (mentions_of_mem (hb.trans hg) hmem)

theorem image_of_below_isEmpty {m : Substitution} (h : (m.below x free).isEmpty = true)
    (hz : z ∈ free.members) (hzx : z ≠ x) : m.image z = .var z := by
  have hb := (NameMap.isEmpty_iff _).mp h z
  rw [get?_below, if_pos ⟨hzx, hz⟩] at hb
  simp [image, hb]

theorem Respects.enter {m : Substitution} {t : Ty} (h : m.Respects fits Γ Δ (free.erase x)) :
    (m.enter x free).2.Respects fits (Γ.declare x t) (Δ.declare (m.enter x free).1 t) free := by
  refine ⟨fun z hz u hu => ?_, h.functions⟩
  rw [Scope.type?_declare] at hu
  split_ifs at hu with hxz
  · subst hxz
    cases hu
    rw [image_enter_self]
    exact ⟨t, by simp, rfl⟩
  · have hzx : z ≠ x := Ne.symm hxz
    rw [image_enter_of_ne m hz hzx]
    refine (h.vars z (by simp [hz, hzx]) u hu).extend _ ⟨fun y hy w hw => ⟨w, ?_, rfl⟩, fun _ _ => id⟩
    rw [Scope.type?_declare, if_neg]
    · exact hw
    · rintro rfl
      exact enter_not_mem m hz hzx hy

end Substitution

/-! ### Substitution in nodes -/

theorem Value.constantIndex?_subst {n : ℕ} (m : Substitution) (h : v.constantIndex? = some n) :
    (v.substNonempty m).constantIndex? = some n := by
  induction v, h using constantIndex_induction with
  | literal k o _ hk =>
    have hle : (0 : Int32) ≤ k := by
      rw [Int32.le_iff_toInt_le, hk]
      simp
    simp [substNonempty, Expr.substNonempty, Expr.toValue, constantIndex?, stripRefs, hk, hle]
  | ref _ _ _ _ ih | deref _ _ _ ih =>
    simpa only [substNonempty, constantIndex?, stripRefs] using ih

mutual

theorem Place.Typed.substNonempty (p : Place) (o : Origin) {Γ Δ m t} (h : p.Typed fits Γ t)
    (hm : m.Respects fits Γ Δ p.freeVars) : (p.substRead m o).Typed fits Δ t :=
  match p, h, hm with
  | .name x o', h, hm => by
    obtain ⟨u, hu, rfl⟩ := h
    have hx := hm.vars x (by simp [Place.freeVars]) u hu
    unfold Substitution.image at hx
    simp only [Place.substRead]
    cases hg : m.get? x with
    | none | some w =>
      rw [hg] at hx
      exact hx
  | .wildcard _, h, hm => by simp [Place.Typed] at h
  | .elem .array x i _, h, hm => by
    obtain ⟨u, n, hu, hb, hn, hi⟩ := h
    have hx := hm.vars x (by simp [Place.freeVars]) u hu
    rw [hb] at hx
    exact Value.finds_elementOf.typed_array hn (hi.substNonempty i hm.right) hx hx
  | .elem .tuple x i _, h, hm => by
    obtain ⟨u, ts, n, hu, hb, hn, ht⟩ := h
    have hx := hm.vars x (by simp [Place.freeVars]) u hu
    rw [hb] at hx
    exact Value.finds_elementOf.typed_tuple (Value.constantIndex?_subst m hn) ht hx hx

theorem Value.Typed.substNonempty (v : Value) {Γ Δ m t} (h : v.Typed fits Γ t)
    (hm : m.Respects fits Γ Δ v.freeVars) : (v.substNonempty m).Typed fits Δ t :=
  match v, h, hm with
  | .expr e _, h, hm => by
    obtain ⟨rfl, he⟩ := h
    exact (he.substNonempty e hm).toValue
  | .formula f _, h, hm => by
    obtain ⟨rfl, hf⟩ := h
    exact (hf.substNonempty f hm).toValue
  | .place p o, h, hm => by
    simp only [Value.Typed] at h
    exact h.substNonempty p o hm
  | .tuple vs _, h, hm => by
    obtain ⟨ts, rfl, hlit, hvs⟩ := h
    have hall := hvs.substNonempty vs hm
    exact ⟨ts, rfl, by rwa [hall.length_eq, ← hvs.length_eq], hall⟩
  | .array vs _, h, hm => by
    obtain ⟨u, rfl, hne, hvs⟩ := h
    have hall := hvs.substNonempty vs hm
    have hlen : (Value.substAll m vs).length = vs.length := by simpa using hall.length_eq
    refine ⟨u, by rw [hlen], ?_, by rwa [hlen]⟩
    simpa [← List.length_pos_iff, hlen] using hne
  | .call f vs _, h, hm => by
    obtain ⟨g, hg, hb, hvs⟩ := h
    exact ⟨g, hm.functions f g hg, hb, hvs.substNonempty vs hm⟩
  | .ref v _ _, h, hm | .deref v _, h, hm => h.substNonempty v hm
  | .unit _, h, hm => h
  | .ite c v w _, h, hm =>
    Value.typed_ternary (h.1.substNonempty c hm.left.left) (h.2.1.substNonempty v hm.left.right)
      (h.2.2.substNonempty w hm.right)
  | .select .array b i _, h, hm => by
    obtain ⟨n, hb, hn, hi⟩ := h
    have hb' := hb.substNonempty b hm.left
    exact Value.finds_elementOf.typed_array hn (hi.substNonempty i hm.right) hb' hb'
  | .select .tuple b i _, h, hm => by
    obtain ⟨ts, n, hb, hn, ht⟩ := h
    have hb' := hb.substNonempty b hm.left
    exact Value.finds_elementOf.typed_tuple (Value.constantIndex?_subst m hn) ht hb' hb'
  | .store .array b i e _, h, hm => by
    obtain ⟨u, n, rfl, hb, hi, he⟩ := h
    exact ⟨u, n, rfl, hb.substNonempty b hm.left.left, hi.substNonempty i hm.left.right,
      he.substNonempty e hm.right⟩
  | .store .tuple b i e _, h, hm => by
    obtain ⟨ts, n, u, rfl, hb, hn, hu, he⟩ := h
    exact ⟨ts, n, u, rfl, hb.substNonempty b hm.left.left, Value.constantIndex?_subst m hn, hu,
      he.substNonempty e hm.right⟩
  | .missing, h, hm => by simp [Value.Typed] at h

theorem Value.AllTyped.substNonempty (vs : List Value) {Γ Δ m ts} (h : Value.AllTyped fits Γ vs ts)
    (hm : m.Respects fits Γ Δ (Value.freeVarsAll vs)) :
    Value.AllTyped fits Δ (Value.substAll m vs) ts :=
  match vs, h, hm with
  | [], h, hm => h
  | v :: vs, h, hm => by
    obtain ⟨u, us, rfl, hv, hvs⟩ := h
    exact ⟨u, us, rfl, hv.substNonempty v hm.left, hvs.substNonempty vs hm.right⟩

theorem Expr.Typed.substNonempty (e : Expr) {Γ Δ m t} (h : e.Typed fits Γ t)
    (hm : m.Respects fits Γ Δ e.freeVars) : (e.substNonempty m).Typed fits Δ t :=
  match e, h, hm with
  | .num _, h, hm => h
  | .value v, h, hm => by
    simp only [Expr.Typed] at h
    exact (h.substNonempty v hm).toExpr
  | .op _ a b, h, hm => ⟨h.1, h.2.1.substNonempty a hm.left, h.2.2.substNonempty b hm.right⟩

theorem Formula.Typed.substNonempty (f : Formula) {Γ Δ m} (h : f.Typed fits Γ)
    (hm : m.Respects fits Γ Δ f.freeVars) : (f.substNonempty m).Typed fits Δ :=
  match f, h, hm with
  | .lit _, h, hm => h
  | .and f g, h, hm | .or f g, h, hm => ⟨h.1.substNonempty f hm.left, h.2.substNonempty g hm.right⟩
  | .not f, h, hm => h.substNonempty f hm
  | .value v, h, hm => by
    simp only [Formula.Typed] at h
    exact (h.substNonempty v hm).toFormula
  | .equal a b, h, hm | .compare _ a b, h, hm => by
    obtain ⟨t, ht, ha, hb⟩ := h
    exact ⟨t, ht, ha.substNonempty a hm.left, hb.substNonempty b hm.right⟩
  | .quant _ x t f, h, hm => by
    simp only [Formula.substNonempty]
    split_ifs with hempty
    · refine h.extend f (Scope.ExtendsOn.declare ⟨fun z hz u hu => ?_, hm.functions⟩ t)
      have hz' : z ∈ f.freeVars.members ∧ z ≠ x := by simpa using hz
      have htyped := hm.vars z hz u hu
      rw [Substitution.image_of_below_isEmpty hempty hz'.1 hz'.2] at htyped
      exact htyped
    · exact h.substNonempty f hm.enter

end

/-- Two logical values are the same if one is true exactly if the other one is. -/
theorem Ty.Has.bool_ext {v w : Val} (hv : Ty.bool.Has v) (hw : Ty.bool.Has w)
    (h : v = .bool true ↔ w = .bool true) : v = w := by
  obtain ⟨a, rfl⟩ := hv
  obtain ⟨b, rfl⟩ := hw
  cases a <;> cases b <;> simp_all

/-- Below a binder, the variables of the body denote what they do outside, and the bound one what it is
bound to. -/
theorem Substitution.valuation_enter (m : Substitution) (x : String) (free : Names) (v : Val) :
    ((m.enter x free).2.valuation I (Function.update ρ (m.enter x free).1 v)).AgreeOn
      (Function.update (m.valuation I ρ) x v) free := by
  intro z hz
  unfold valuation
  by_cases hzx : z = x
  · subst hzx
    rw [image_enter_self]
    simp [Value.var, Value.eval, Place.eval]
  · rw [image_enter_of_ne m hz hzx, Function.update_of_ne hzx]
    refine Value.eval_congr _ fun y hy => ?_
    rw [Function.update_of_ne]
    rintro rfl
    exact enter_not_mem m hz hzx hy

mutual

theorem Place.Typed.eval_substNonempty (p : Place) (o : Origin) {Γ Δ m t} (h : p.Typed fits Γ t)
    (hm : m.Respects fits Γ Δ p.freeVars) (hI : I.Regular Δ.functions)
    (ha : I.Equates (p.substAlikes Δ.vars m)) {ρ : Valuation} (hρ : ρ.Fits Δ.vars) :
    (p.substRead m o).eval I ρ = p.eval I (m.valuation I ρ) :=
  match p, h, hm, ha with
  | .name x _, h, hm, ha => by
    unfold Substitution.valuation Substitution.image
    simp only [Place.substRead, Place.eval]
    cases m.get? x <;> rfl
  | .wildcard _, h, hm, ha => rfl
  | .elem .array x i _, h, hm, ha => by
    obtain ⟨u, n, hu, hb, hn, hi⟩ := h
    have hx := hm.vars x (by simp [Place.freeVars]) u hu
    rw [hb] at hx
    have hi' := hi.eval_substNonempty i hm.right hI ha.left hρ
    rw [Place.eval, ← hi']
    exact Value.finds_elementOf.eval_array hI hρ hx rfl
  | .elem .tuple x i _, h, hm, ha => by
    obtain ⟨u, ts, n, hu, hb, hn, ht⟩ := h
    have hx := hm.vars x (by simp [Place.freeVars]) u hu
    rw [hb] at hx
    rw [Place.eval, Value.eval_of_constantIndex hn]
    exact Value.eval_elementOf_tuple (Value.constantIndex?_subst m hn) ht hI hρ _ _ hx rfl ha.right

/-- **Substitution keeps meanings.** -/
theorem Value.Typed.eval_substNonempty (v : Value) {Γ Δ m t} (h : v.Typed fits Γ t)
    (hm : m.Respects fits Γ Δ v.freeVars) (hI : I.Regular Δ.functions)
    (ha : I.Equates (v.substAlikes Δ.vars m)) {ρ : Valuation} (hρ : ρ.Fits Δ.vars) :
    (v.substNonempty m).eval I ρ = v.eval I (m.valuation I ρ) :=
  match v, h, hm, ha with
  | .expr e _, h, hm, ha => by
    simp only [Value.substNonempty, Value.eval, Expr.eval_toValue]
    exact h.2.eval_substNonempty e hm hI ha hρ
  | .formula f o, h, hm, ha => by
    refine Ty.Has.bool_ext ((h.2.substNonempty f hm).toValue.has_eval _ hI hρ) ⟨_, rfl⟩ ?_
    rw [Value.eval_formula_eq_true, Value.substNonempty, Formula.eval_toValue]
    exact h.2.holds_substNonempty f hm hI ha hρ
  | .place p o, h, hm, ha => by
    simp only [Value.Typed] at h
    exact h.eval_substNonempty p o hm hI ha hρ
  | .tuple vs _, h, hm, ha | .array vs _, h, hm, ha | .call _ vs _, h, hm, ha => by
    obtain ⟨_, -, -, hvs⟩ := h
    simp only [Value.substNonempty, Value.eval, hvs.eval_substNonempty vs hm hI ha hρ]
  | .ref v _ _, h, hm, ha | .deref v _, h, hm, ha => by
    simp only [Value.substNonempty, Value.eval]
    exact h.eval_substNonempty v hm hI ha hρ
  | .unit _, h, hm, ha => rfl
  | .ite c v w _, h, hm, ha => by
    have hc := h.1.holds_substNonempty c hm.left.left hI ha.left.left.left hρ
    have hv := h.2.1.eval_substNonempty v hm.left.right hI ha.left.left.right hρ
    have hw := h.2.2.eval_substNonempty w hm.right hI ha.left.right hρ
    simp only [Value.substNonempty, Value.eval]
    rw [Value.eval_ternary hρ ha.right, hv, hw]
    by_cases hc' : c.Holds I (m.valuation I ρ)
    · rw [if_pos hc', if_pos (hc.mpr hc')]
    · rw [if_neg hc', if_neg (mt hc.mp hc')]
  | .select .array b i _, h, hm, ha => by
    obtain ⟨n, hb, hn, hi⟩ := h
    have hb' := hb.eval_substNonempty b hm.left hI ha.left.left hρ
    have hi' := hi.eval_substNonempty i hm.right hI ha.left.right hρ
    rw [Value.eval, ← hi', ← hb']
    exact Value.finds_elementOf.eval_array hI hρ (hb.substNonempty b hm.left) rfl
  | .select .tuple b i _, h, hm, ha => by
    obtain ⟨ts, n, hb, hn, ht⟩ := h
    have hb' := hb.eval_substNonempty b hm.left hI ha.left.left hρ
    rw [Value.eval, Value.eval_of_constantIndex hn, ← hb']
    exact Value.eval_elementOf_tuple (Value.constantIndex?_subst m hn) ht hI hρ _ _
      (hb.substNonempty b hm.left) rfl ha.right
  | .store .array b i e _, h, hm, ha => by
    obtain ⟨u, n, rfl, hb, hi, he⟩ := h
    have hb' := hb.eval_substNonempty b hm.left.left hI ha.left.left hρ
    have hi' := hi.eval_substNonempty i hm.left.right hI ha.left.right hρ
    have he' := he.eval_substNonempty e hm.right hI ha.right hρ
    simp only [Value.substNonempty, Value.eval, hb', hi', he']
  | .store .tuple b i e _, h, hm, ha => by
    obtain ⟨ts, n, u, rfl, hb, hn, hu, he⟩ := h
    have hb' := hb.eval_substNonempty b hm.left.left hI ha.left.left hρ
    have he' := he.eval_substNonempty e hm.right hI ha.right hρ
    simp only [Value.substNonempty, Value.eval, hb', he', Value.eval_of_constantIndex hn,
      Value.eval_of_constantIndex (Value.constantIndex?_subst m hn)]
  | .missing, h, hm, ha => rfl

theorem Value.AllTyped.eval_substNonempty (vs : List Value) {Γ Δ m ts}
    (h : Value.AllTyped fits Γ vs ts) (hm : m.Respects fits Γ Δ (Value.freeVarsAll vs))
    (hI : I.Regular Δ.functions) (ha : I.Equates (Value.substAlikesAll Δ.vars m vs))
    {ρ : Valuation} (hρ : ρ.Fits Δ.vars) :
    Value.evalAll I ρ (Value.substAll m vs) = Value.evalAll I (m.valuation I ρ) vs :=
  match vs, h, hm, ha with
  | [], h, hm, ha => rfl
  | v :: vs, h, hm, ha => by
    obtain ⟨u, us, rfl, hv, hvs⟩ := h
    have hv' := hv.eval_substNonempty v hm.left hI ha.left hρ
    have hvs' := hvs.eval_substNonempty vs hm.right hI ha.right hρ
    simp only [Value.substAll, Value.evalAll, hv', hvs']

theorem Expr.Typed.eval_substNonempty (e : Expr) {Γ Δ m t} (h : e.Typed fits Γ t)
    (hm : m.Respects fits Γ Δ e.freeVars) (hI : I.Regular Δ.functions)
    (ha : I.Equates (e.substAlikes Δ.vars m)) {ρ : Valuation} (hρ : ρ.Fits Δ.vars) :
    (e.substNonempty m).eval I ρ = e.eval I (m.valuation I ρ) :=
  match e, h, hm, ha with
  | .num _, h, hm, ha => rfl
  | .value v, h, hm, ha => by
    simp only [Expr.Typed] at h
    simp only [Expr.substNonempty, Expr.eval, Value.eval_toExpr]
    exact h.eval_substNonempty v hm hI ha hρ
  | .op _ a b, h, hm, ha => by
    have ha' := h.2.1.eval_substNonempty a hm.left hI ha.left hρ
    have hb' := h.2.2.eval_substNonempty b hm.right hI ha.right hρ
    simp only [Expr.substNonempty, Expr.eval, ha', hb']

/-- **Substitution keeps truth.** -/
theorem Formula.Typed.holds_substNonempty (f : Formula) {Γ Δ m} (h : f.Typed fits Γ)
    (hm : m.Respects fits Γ Δ f.freeVars) (hI : I.Regular Δ.functions)
    (ha : I.Equates (f.substAlikes Δ.vars m)) {ρ : Valuation} (hρ : ρ.Fits Δ.vars) :
    ((f.substNonempty m).Holds I ρ ↔ f.Holds I (m.valuation I ρ)) :=
  match f, h, hm, ha with
  | .lit _, h, hm, ha => Iff.rfl
  | .and f g, h, hm, ha | .or f g, h, hm, ha => by
    have hf := h.1.holds_substNonempty f hm.left hI ha.left hρ
    have hg := h.2.holds_substNonempty g hm.right hI ha.right hρ
    simp only [Formula.substNonempty, Formula.Holds, hf, hg]
  | .not f, h, hm, ha => by
    simp only [Formula.substNonempty, Formula.Holds, h.holds_substNonempty f hm hI ha hρ]
  | .value v, h, hm, ha => by
    simp only [Formula.substNonempty, Value.holds_toFormula, Formula.Holds,
      h.eval_substNonempty v hm hI ha hρ]
  | .equal a b, h, hm, ha | .compare _ a b, h, hm, ha => by
    obtain ⟨t, -, h1, h2⟩ := h
    have ha' := h1.eval_substNonempty a hm.left hI ha.left hρ
    have hb' := h2.eval_substNonempty b hm.right hI ha.right hρ
    simp only [Formula.substNonempty, Formula.Holds, ha', hb']
  | .quant q x t f, h, hm, ha => by
    simp only [Formula.substAlikes] at ha
    simp only [Formula.substNonempty]
    split_ifs at ha ⊢ with hempty
    · -- No variable of the body is replaced.
      refine Formula.holds_congr _ fun z hz => ?_
      have hz' : z ∈ f.freeVars.members ∧ z ≠ x := by simpa [Formula.freeVars] using hz
      unfold Substitution.valuation
      rw [Substitution.image_of_below_isEmpty hempty hz'.1 hz'.2]
      rfl
    · have hbody : ∀ v, t.Has v →
          ((f.substNonempty (m.enter x f.freeVars).2).Holds I
              (Function.update ρ (m.enter x f.freeVars).1 v) ↔
            f.Holds I (Function.update (m.valuation I ρ) x v)) := by
        intro v hv
        rw [h.holds_substNonempty f hm.enter hI ha (hρ.update hv)]
        exact f.holds_congr (m.valuation_enter x f.freeVars v)
      cases q with
      | all => exact forall₂_congr hbody
      | some => exact exists_congr fun v => and_congr_right (hbody v)

end

/-! ### Substitutions that may be empty

Without replacements a node stays as it is. Its variables then stand for themselves. -/

namespace Substitution

variable {m : Substitution} {xs : Names}

theorem image_of_isEmpty (h : m.isEmpty = true) (x : String) : m.image x = .var x := by
  simp [image, (NameMap.isEmpty_iff m).mp h x]

theorem valuation_of_isEmpty (h : m.isEmpty = true) : m.valuation I ρ = ρ := by
  funext x
  unfold valuation
  rw [image_of_isEmpty h]
  rfl

theorem Respects.extendsOn (h : m.Respects fits Γ Δ xs) (hempty : m.isEmpty = true) :
    Γ.ExtendsOn Δ xs := by
  refine ⟨fun x hx t ht => ?_, h.functions⟩
  have hx' := h.vars x hx t ht
  rw [image_of_isEmpty hempty] at hx'
  exact hx'

end Substitution

theorem Value.Typed.subst {m : Substitution} {t : Ty} (h : v.Typed fits Γ t)
    (hm : m.Respects fits Γ Δ v.freeVars) : (v.subst m).Typed fits Δ t := by
  unfold Value.subst
  split_ifs with hempty
  · exact h.extend v (hm.extendsOn hempty)
  · exact h.substNonempty v hm

theorem Expr.Typed.subst {e : Expr} {m : Substitution} {t : Ty} (h : e.Typed fits Γ t)
    (hm : m.Respects fits Γ Δ e.freeVars) : (e.subst m).Typed fits Δ t := by
  unfold Expr.subst
  split_ifs with hempty
  · exact h.extend e (hm.extendsOn hempty)
  · exact h.substNonempty e hm

theorem Formula.Typed.subst {f : Formula} {m : Substitution} (h : f.Typed fits Γ)
    (hm : m.Respects fits Γ Δ f.freeVars) : (f.subst m).Typed fits Δ := by
  unfold Formula.subst
  split_ifs with hempty
  · exact h.extend f (hm.extendsOn hempty)
  · exact h.substNonempty f hm

theorem Value.Typed.eval_subst {m : Substitution} {t : Ty} (h : v.Typed fits Γ t)
    (hm : m.Respects fits Γ Δ v.freeVars) (hI : I.Regular Δ.functions)
    (ha : I.Equates (v.alikes Δ.vars m)) (hρ : ρ.Fits Δ.vars) :
    (v.subst m).eval I ρ = v.eval I (m.valuation I ρ) := by
  unfold Value.alikes at ha
  unfold Value.subst
  split_ifs at ha ⊢ with hempty
  · rw [Substitution.valuation_of_isEmpty hempty]
  · exact h.eval_substNonempty v hm hI ha hρ

theorem Expr.Typed.eval_subst {e : Expr} {m : Substitution} {t : Ty} (h : e.Typed fits Γ t)
    (hm : m.Respects fits Γ Δ e.freeVars) (hI : I.Regular Δ.functions)
    (ha : I.Equates (e.alikes Δ.vars m)) (hρ : ρ.Fits Δ.vars) :
    (e.subst m).eval I ρ = e.eval I (m.valuation I ρ) := by
  unfold Expr.alikes at ha
  unfold Expr.subst
  split_ifs at ha ⊢ with hempty
  · rw [Substitution.valuation_of_isEmpty hempty]
  · exact h.eval_substNonempty e hm hI ha hρ

theorem Formula.Typed.holds_subst {f : Formula} {m : Substitution} (h : f.Typed fits Γ)
    (hm : m.Respects fits Γ Δ f.freeVars) (hI : I.Regular Δ.functions)
    (ha : I.Equates (f.alikes Δ.vars m)) (hρ : ρ.Fits Δ.vars) :
    (f.subst m).Holds I ρ ↔ f.Holds I (m.valuation I ρ) := by
  unfold Formula.alikes at ha
  unfold Formula.subst
  split_ifs at ha ⊢ with hempty
  · rw [Substitution.valuation_of_isEmpty hempty]
  · exact h.holds_substNonempty f hm hI ha hρ

/-! ### Writing an element -/

namespace Value

variable {b i e : Value} {t : Ty} {n : ℕ}

theorem typed_update_array (hb : b.Typed fits Γ (.array t n)) (hi : i.Typed fits Γ .i32)
    (he : e.Typed fits Γ t) : (update .array b i e).Typed fits Γ (.array t n) := by
  have hstore : (Value.store .array b i e none).Typed fits Γ (.array t n) := by
    exact ⟨t, n, rfl, hb, hi, he⟩
  unfold update
  split
  · next hs _ => cases hs
  · split_ifs with hlt
    · obtain ⟨u, ⟨rfl, rfl⟩, hne, hvs⟩ := hb
      refine ⟨t, by simp, by simpa using hne, ?_⟩
      rw [List.length_set]
      exact hvs.set (List.getElem?_replicate_of_lt hlt) he
    · exact hstore
  · exact hstore

theorem typed_update_tuple {ts : List Ty} (hb : b.Typed fits Γ (.tuple ts)) (hn : i.constantIndex? = some n)
    (ht : ts[n]? = some t) (he : e.Typed fits Γ t) : (update .tuple b i e).Typed fits Γ (.tuple ts) := by
  have hstore : (Value.store .tuple b i e none).Typed fits Γ (.tuple ts) := by
    exact ⟨ts, n, t, rfl, hb, hn, ht, he⟩
  unfold update
  split
  · next vs o k hk =>
    rw [hn, Option.some.injEq] at hk
    subst hk
    split_ifs with hlt
    · simp only [Typed, Ty.tuple.injEq] at hb ⊢
      obtain ⟨us, rfl, hlit, hvs⟩ := hb
      exact ⟨ts, rfl, by simpa using hlit, hvs.set ht he⟩
    · exact hstore
  · next hs _ => cases hs
  · exact hstore

theorem eval_update_array (hI : I.Regular Γ.functions) (hρ : ρ.Fits Γ.vars) (hb : b.Typed fits Γ (.array t n))
    (he : e.Typed fits Γ t) :
    (update .array b i e).eval I ρ = (b.eval I ρ).put (i.eval I ρ).toInt (e.eval I ρ) := by
  unfold update
  split
  · next hs _ => cases hs
  · next vs _ k _ hk =>
    split_ifs with hlt
    · obtain ⟨u, ⟨rfl, rfl⟩, hne, hvs⟩ := hb
      have hall := hvs.has_eval vs hI hρ
      have hne' : evalAll I ρ vs ≠ [] := by simpa [← List.length_pos_iff] using hne.1
      have hset : Ty.HasAll (List.replicate vs.length t)
          ((evalAll I ρ vs).set k (e.eval I ρ)) :=
        hall.set (List.getElem?_replicate_of_lt hlt) (he.has_eval e hI hρ)
      have hout : I.outside ((evalAll I ρ vs).set k (e.eval I ρ)) = I.outside (evalAll I ρ vs) := by
        refine hI.outside_eq t _ _ (by simpa using hne') (by simp) ?_ ?_
        · simpa using hset
        · simpa using hall
      simp only [eval, evalAll_set, eval_of_constantIndex hk, Val.toInt, Interp.literal, Val.put,
        hout, List.length_set, Val.array.injEq, true_and]
      funext j
      by_cases hj : j = k
      · subst hj
        have hlt' : k < (evalAll I ρ vs).length := by simpa using hlt
        simp [List.getElem?_set_self hlt']
      · rw [Function.update_of_ne hj]
        split_ifs with h0
        · have hk' : k ≠ j.toNat := by omega
          rw [List.getElem?_set_ne hk']
        · rfl
    · simp only [eval]
  · simp only [eval]

theorem eval_update_tuple :
    (update .tuple b i e).eval I ρ = (b.eval I ρ).put (i.eval I ρ).toInt (e.eval I ρ) := by
  unfold update
  split
  · next vs _ k _ hk =>
    split_ifs
    · simp [eval, evalAll_set, eval_of_constantIndex hk, Val.toInt, Val.put]
    · simp only [eval]
  · next hs _ => cases hs
  · simp only [eval]

end Value

end Verdict
