import Verdict.Proofs.Models

/-! # Names of the solver

The parts of a tuple `x` are the constants `x'Int`, `x'Bool`, …, a function `f` is called `f'fn` and the
parts of its result are `f'fn'Int`, …. What stands after the last prime tells them apart from one another
and from new variables, which end in a number. -/

namespace Verdict

/-- What stands before and after the last of some characters. -/
theorem append_cons_inj_of_last {p : Char} {a b c d : List Char} (hb : p ∉ b) (hd : p ∉ d)
    (h : a ++ p :: b = c ++ p :: d) : a = c ∧ b = d := by
  induction a generalizing c with
  | nil =>
    cases c with
    | nil => simpa using h
    | cons e c =>
      simp only [List.nil_append, List.cons_append, List.cons.injEq] at h
      exact absurd (by simp [h.2]) hb
  | cons e a ih =>
    cases c with
    | nil =>
      simp only [List.nil_append, List.cons_append, List.cons.injEq] at h
      exact absurd (by simp [← h.2]) hd
    | cons e' c =>
      simp only [List.cons_append, List.cons.injEq] at h
      obtain ⟨rfl, h⟩ := h
      simpa using ih h

namespace Encoding

theorem prime_not_mem_tag (s : SmtSort) : '\'' ∉ s.tag.toList := by
  induction s with
  | int => decide
  | bool => decide
  | array s ih => simpa [SmtSort.tag] using ih

/-- The tag of a sort has a capital letter. -/
theorem tag_ne {s : SmtSort} {cs : List Char} (hint : 'I' ∉ cs) (hbool : 'B' ∉ cs) (harray : 'A' ∉ cs) :
    cs ≠ s.tag.toList := by
  rintro rfl
  cases s with
  | int => exact hint (by decide)
  | bool => exact hbool (by decide)
  | array s => exact harray (by simp [SmtSort.tag])

theorem tag_injective : Function.Injective SmtSort.tag := by
  intro s
  induction s with
  | int | bool =>
    intro s' h
    cases s' with
    | array s' => simp [SmtSort.tag, String.ext_iff] at h
    | _ => simp_all [SmtSort.tag]
  | array s ih =>
    intro s' h
    cases s' with
    | array s' => simp [SmtSort.tag, String.ext_iff] at h; rw [ih (String.ext h)]
    | _ => simp [SmtSort.tag, String.ext_iff] at h

theorem partName_inj {x y : String} {s s' : SmtSort} :
    partName x s = partName y s' ↔ x = y ∧ s = s' := by
  refine ⟨fun h => ?_, fun ⟨hx, hs⟩ => hx ▸ hs ▸ rfl⟩
  have h' := congrArg String.toList h
  simp only [partName, String.toList_append, List.append_assoc] at h'
  obtain ⟨hx, hs⟩ := append_cons_inj_of_last (prime_not_mem_tag s) (prime_not_mem_tag s') h'
  exact ⟨String.ext hx, tag_injective (String.ext hs)⟩

theorem prime_mem_partName (x : String) (s : SmtSort) : '\'' ∈ (partName x s).toList := by
  simp [partName]

theorem prime_mem_functionName (f : String) : '\'' ∈ (functionName f).toList := by
  simp [functionName]

theorem functionName_inj {f g : String} : functionName f = functionName g ↔ f = g := by
  simp [functionName, String.ext_iff]

theorem functionName_ne_partName (f x : String) (s : SmtSort) : functionName f ≠ partName x s := by
  intro h
  have h' := congrArg String.toList h
  simp only [functionName, partName, String.toList_append, List.append_assoc] at h'
  have htag := (append_cons_inj_of_last (by decide) (prime_not_mem_tag s) h').2
  exact tag_ne (by decide) (by decide) (by decide) htag

theorem not_mem_toString {c : Char} (hc : c.isDigit = false) (k : ℕ) : c ∉ (toString k).toList := by
  intro h
  have hdigits : (toString k).toList = Nat.toDigits 10 k := (String.ofList_eq.mp rfl).symm
  rw [hdigits] at h
  rw [Nat.isDigit_of_mem_toDigits (by decide) (by decide) h] at hc
  cases hc

theorem primed_ne_partName (x y : String) (k : ℕ) (s : SmtSort) : primed x k ≠ partName y s := by
  intro h
  have h' := congrArg String.toList h
  simp only [primed, partName, String.toList_append, List.append_assoc] at h'
  have htag := (append_cons_inj_of_last (not_mem_toString rfl k) (prime_not_mem_tag s) h').2
  exact tag_ne (not_mem_toString rfl k) (not_mem_toString rfl k) (not_mem_toString rfl k) htag

theorem primed_ne_functionName (x f : String) (k : ℕ) : primed x k ≠ functionName f := by
  intro h
  have h' := congrArg String.toList h
  simp only [primed, functionName, String.toList_append, List.append_assoc] at h'
  have hfn := (append_cons_inj_of_last (not_mem_toString rfl k) (by decide) h').2
  exact not_mem_toString (c := 'f') rfl k (by rw [hfn]; decide)

end Encoding

end Verdict
