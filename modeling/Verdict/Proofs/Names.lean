import Mathlib
import Verdict.Lang.Subst

/-! # Names: membership, lookups and new names

Sets of names are read through membership and maps from names through lookups; each operation has one
equation for it. A name `x'i` that is searched among more candidates than there are names taken is
found: the candidates are pairwise different, so they cannot all be taken. -/

namespace Verdict

theorem toOption_eq_some {ε α : Type} {x : Except ε α} {a : α} : x.toOption = some a ↔ x = .ok a := by
  cases x <;> simp [Except.toOption]

theorem ok_unique {ε α : Type} {x : Except ε α} {a b : α} (ha : x = .ok a) (hb : x = .ok b) : a = b :=
  Except.ok.inj (ha.symm.trans hb)

theorem ok_of_bind {ε α β : Type} {x : Except ε α} {k : α → Except ε β} {b : β} (h : x >>= k = .ok b) :
    ∃ a, x = .ok a ∧ k a = .ok b := by
  cases x with
  | error e => cases h
  | ok a => exact ⟨a, rfl, h⟩

/-! ### Sorted sets through membership -/

namespace SortedSet

variable {α : Type} [LT α]

@[simp] theorem not_mem_empty (a : α) : a ∉ (empty : SortedSet α).members := by simp [empty]

variable [DecidableLT α]

section

variable [DecidableEq α]

@[simp] theorem mem_insert (s : SortedSet α) (a b : α) :
    a ∈ (s.insert b).members ↔ a = b ∨ a ∈ s.members := mem_insertList

theorem mem_foldl_insert (a : α) (as : List α) (s : SortedSet α) :
    a ∈ (as.foldl insert s).members ↔ a ∈ s.members ∨ a ∈ as := by
  induction as generalizing s with
  | nil => simp
  | cons b bs ih => simp only [List.foldl_cons, ih, mem_insert, List.mem_cons]; tauto

@[simp] theorem mem_ofList (a : α) (as : List α) : a ∈ (ofList as).members ↔ a ∈ as := by
  unfold ofList; rw [mem_foldl_insert]; simp

end

variable [StrictLinear α]

/-- In an ascending list, what is missing at its position is missing. -/
theorem getElem?_position {as : List α} (h : as.Pairwise (· < ·)) (a : α) :
    as[position as a]? = some a ↔ a ∈ as := by
  induction as with
  | nil => simp
  | cons b bs ih =>
    by_cases hba : b < a
    · have hne : a ≠ b := fun hab => StrictLinear.irrefl b (hab ▸ hba)
      simp [position_of_lt hba, ih h.of_cons, hne]
    · have hnot : a ∉ bs := fun ha => hba (List.rel_of_pairwise_cons h ha)
      simp [position_of_not_lt hba, hnot, eq_comm]

@[simp] theorem mem_union (s t : SortedSet α) (a : α) :
    a ∈ (s.union t).members ↔ a ∈ s.members ∨ a ∈ t.members := by
  rw [members_union, mem_mergeLists]

theorem mem_foldl_union (a : α) (ss : List (SortedSet α)) (s : SortedSet α) :
    a ∈ (ss.foldl union s).members ↔ a ∈ s.members ∨ ∃ t ∈ ss, a ∈ t.members := by
  induction ss generalizing s with
  | nil => simp
  | cons t ts ih => simp only [List.foldl_cons, ih, mem_union, List.exists_mem_cons_iff]; tauto

@[simp] theorem mem_unions (a : α) (ss : List (SortedSet α)) :
    a ∈ (unions ss).members ↔ ∃ s ∈ ss, a ∈ s.members := by
  unfold unions; rw [mem_foldl_union]; simp

variable [DecidableEq α]

@[simp] theorem contains_iff (s : SortedSet α) (a : α) : s.contains a = true ↔ a ∈ s.members := by
  simp [contains, getElem?_position s.ascending]

theorem mem_eraseList {as : List α} (h : as.Pairwise (· < ·)) {a b : α} :
    a ∈ eraseList b as ↔ a ∈ as ∧ a ≠ b := by
  induction as with
  | nil => simp [eraseList]
  | cons c cs ih =>
    by_cases hcb : c < b
    · have hne : c ≠ b := fun heq => StrictLinear.irrefl b (heq ▸ hcb)
      rw [eraseList_of_lt hcb, List.mem_cons, List.mem_cons, ih h.of_cons]
      grind
    · have hcs : a ∈ cs → a ≠ b := fun ha hab => hcb (hab ▸ List.rel_of_pairwise_cons h ha)
      rw [eraseList_of_not_lt hcb, List.mem_cons]
      grind

@[simp] theorem mem_erase (s : SortedSet α) (a b : α) :
    a ∈ (s.erase b).members ↔ a ∈ s.members ∧ a ≠ b := mem_eraseList s.ascending

end SortedSet

@[simp] theorem Names.mem_single (x y : String) : x ∈ (Names.single y).members ↔ x = y := by
  simp [Names.single]

namespace SortedSet

/-- Whether all of some names satisfy a condition. -/
def In (xs : Names) (K : String → Prop) : Prop := ∀ x ∈ xs.members, K x

variable {x : String} {xs ys : Names} {K L : String → Prop}

@[simp] theorem in_empty : (SortedSet.empty : Names).In K := by
  simp [In]

@[simp] theorem in_single : (Names.single x).In K ↔ K x := by
  simp [In]

@[simp] theorem in_union : (xs.union ys).In K ↔ xs.In K ∧ ys.In K := by
  simp [In, or_imp, forall_and]

theorem in_erase : (xs.erase x).In K ↔ xs.In fun y => y = x ∨ K y := by
  simp only [In, SortedSet.mem_erase, and_imp]
  exact forall₂_congr fun y _ => ⟨fun h => or_iff_not_imp_left.mpr h, fun h hne => h.resolve_left hne⟩

theorem In.mono (h : xs.In K) (hKL : ∀ x, K x → L x) : xs.In L := fun x hx => hKL x (h x hx)

theorem In.left (h : (xs.union ys).In K) : xs.In K := (in_union.mp h).1

theorem In.right (h : (xs.union ys).In K) : ys.In K := (in_union.mp h).2

theorem In.union (h : xs.In K) (h' : ys.In K) : (xs.union ys).In K := in_union.mpr ⟨h, h'⟩

end SortedSet

/-! ### Maps through lookups -/

namespace NameMap

variable {α β : Type} {es : List (String × α)}

theorem contains_iff (m : NameMap α) (x : String) : m.contains x = true ↔ ∃ a, m.get? x = some a := by
  simp [contains, Option.isSome_iff_exists]

theorem get?_map (m : NameMap α) (f : String → α → β) (x : String) :
    (m.map f).get? x = (m.get? x).map (f x) := by
  unfold map get?
  induction m.entries with
  | nil => simp [find]
  | cons e es ih =>
    obtain ⟨y, a⟩ := e
    by_cases h : y = x
    · subst h; simp [find]
    · simp [find, h, ih]

theorem find_eq_none_iff (x : String) (es : List (String × α)) :
    find x es = none ↔ ∀ e ∈ es, e.1 ≠ x := by
  induction es with
  | nil => simp [find]
  | cons e es ih =>
    obtain ⟨y, a⟩ := e
    by_cases h : y = x <;> simp [find, h, ih]

theorem mem_names_iff (m : NameMap α) (x : String) : x ∈ m.names ↔ ∃ a, m.get? x = some a := by
  have h := find_eq_none_iff x m.entries
  rw [← Option.isSome_iff_exists, ← Option.ne_none_iff_isSome]
  unfold get? names
  rw [ne_eq, h]
  simp

theorem mem_of_find {x : String} {a : α} (h : find x es = some a) : (x, a) ∈ es := by
  induction es with
  | nil => simp [find] at h
  | cons e es ih =>
    obtain ⟨y, b⟩ := e
    simp only [find] at h
    split_ifs at h with hy
    · cases h; subst hy; simp
    · exact List.mem_cons_of_mem _ (ih h)

theorem mem_insertEntry {name : String} {a : α} {e : String × α} (h : e ∈ insertEntry name a es) :
    e = (name, a) ∨ e ∈ es := by
  induction es with
  | nil => simpa [insertEntry] using h
  | cons e' es ih =>
    unfold insertEntry at h
    split_ifs at h
    · simpa using h
    · rcases List.mem_cons.mp h with h | h
      · exact .inl h
      · exact .inr (List.mem_cons_of_mem _ h)
    · rcases List.mem_cons.mp h with h | h
      · exact .inr (h ▸ List.mem_cons_self)
      · exact (ih h).imp_right (List.mem_cons_of_mem _)

theorem find_filter (p : String → Bool) (x : String) (es : List (String × α)) :
    find x (es.filter fun e => p e.1) = if p x then find x es else none := by
  induction es with
  | nil => simp [find]
  | cons e es ih =>
    obtain ⟨y, b⟩ := e
    by_cases hy : y = x
    · subst hy
      by_cases hp : p y <;> simp [find, hp, ih]
    · by_cases hp : p y <;> simp [find, hp, hy, ih]

theorem isEmpty_iff (m : NameMap α) : m.isEmpty = true ↔ ∀ x, m.get? x = none := by
  unfold isEmpty get?
  constructor
  · intro h x
    rw [List.isEmpty_iff.mp h]
    rfl
  · intro h
    rcases hm : m.entries with _ | ⟨⟨y, a⟩, es⟩
    · rfl
    · have := h y
      rw [hm] at this
      simp [find] at this

end NameMap

/-! ### New names -/

theorem primed_injective (x : String) : Function.Injective (primed x) := by
  intro i j h
  have h' : toString i = toString j := by
    unfold primed at h
    simpa [String.ext_iff] using h
  exact Nat.repr_inj.mp h'

/-- Whether the search for a name that is not taken, through `x'i`, `x'(i + 1)` and so on without an end,
stops at `x'j`. -/
inductive StopsAt (x : String) (taken : String → Bool) : ℕ → ℕ → Prop
  | found {i : ℕ} : taken (primed x i) = false → StopsAt x taken i i
  | next {i j : ℕ} : taken (primed x i) = true → StopsAt x taken (i + 1) j → StopsAt x taken i j

section

variable {x : String} {taken : String → Bool} {i j : ℕ}

theorem StopsAt.not_taken (h : StopsAt x taken i j) : taken (primed x j) = false := by
  induction h with
  | found h => exact h
  | next _ _ ih => exact ih

theorem StopsAt.le (h : StopsAt x taken i j) : i ≤ j := by
  induction h with
  | found => exact le_rfl
  | next _ _ ih => omega

/-- The search stops at the number that is found, unless all candidates are taken. -/
theorem stopsAt_or_taken (n : ℕ) : StopsAt x taken i (freeIndex x taken i n) ∨
    ∀ j, i ≤ j → j ≤ i + n → taken (primed x j) = true := by
  induction n generalizing i with
  | zero =>
    cases hi : taken (primed x i) with
    | false => exact .inl (.found hi)
    | true =>
      refine .inr fun j hij hj => ?_
      obtain rfl : j = i := by omega
      exact hi
  | succ n ih =>
    unfold freeIndex
    split_ifs with hi
    · refine ih.imp (.next hi) fun hall j hij hj => ?_
      rcases Nat.eq_or_lt_of_le hij with rfl | hlt
      · exact hi
      · exact hall j hlt (by omega)
    · exact .inl (.found (Bool.of_not_eq_true hi))

/-- Among one more candidate than there are names taken, one is not taken. -/
theorem stopsAt_freeIndex (i : ℕ) (names : List String) (htaken : ∀ y, taken y = true → y ∈ names) :
    StopsAt x taken i (freeIndex x taken i names.length) := by
  refine (stopsAt_or_taken names.length).resolve_right fun hall => ?_
  have hnodup : ((List.range' i (names.length + 1)).map (primed x)).Nodup :=
    List.Nodup.map (primed_injective x) List.nodup_range'
  have hsub : (List.range' i (names.length + 1)).map (primed x) ⊆ names := by
    intro y hy
    obtain ⟨j, hj, rfl⟩ := List.mem_map.mp hy
    rw [List.mem_range'_1] at hj
    exact htaken _ (hall j hj.1 (by omega))
  have hlen := (hnodup.subperm hsub).length_le
  simp only [List.length_map, List.length_range'] at hlen
  omega

end

theorem freshName_stops (x : String) (taken : Names) :
    ∃ i, freshName x taken = primed x i ∧ StopsAt x taken.contains 1 i :=
  ⟨_, rfl, stopsAt_freeIndex 1 taken.members fun y hy => (taken.contains_iff y).mp hy⟩

theorem freshName_not_mem (x : String) (taken : Names) : freshName x taken ∉ taken.members := by
  obtain ⟨i, hi, hstop⟩ := freshName_stops x taken
  rw [hi, ← SortedSet.contains_iff, hstop.not_taken]
  exact Bool.false_ne_true

end Verdict
