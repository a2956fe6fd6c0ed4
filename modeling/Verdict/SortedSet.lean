/-! # Sorted sets

A finite set over a linear order, kept as the list of its members in strictly ascending order. A member
is searched at the first position before which all are below it. To merge two sets, the members that they
have in common are counted, and a buffer is filled that has room for the others and for one of each pair.
Nothing is written beside the buffer, and no slot stays empty (`merge_allocated`). -/

namespace Verdict

/-- Whether `<` is a strict linear order. -/
class StrictLinear (α : Type) [LT α] : Prop where
  irrefl (a : α) : ¬ a < a
  trans {a b c : α} : a < b → b < c → a < c
  connected {a b : α} : ¬ a < b → ¬ b < a → a = b

instance {α : Type} [LE α] [LT α] [Std.LawfulOrderLT α] [Std.IsLinearOrder α] : StrictLinear α where
  irrefl _ := Std.lt_irrefl
  trans := Std.lt_trans
  connected h h' := Std.le_antisymm (Std.not_lt.mp h') (Std.not_lt.mp h)

/-- The members of a finite set. They are strictly ascending, if `<` is a strict linear order. -/
@[ext] structure SortedSet (α : Type) [LT α] where
  members : List α
  ascending [StrictLinear α] : members.Pairwise (· < ·)
deriving DecidableEq, Repr

namespace SortedSet

variable {α : Type} {a b : α} {as bs : List α}

/-! ### Buffers -/

/-- Slots for members, which are empty at first. -/
abbrev Buffer (α : Type) := List (Option α)

namespace Buffer

/-- Writes a member into the slot at position `k`, if there is one. -/
def write (buffer : Buffer α) (k : Nat) (a : α) : Option (Buffer α) :=
  if k < buffer.length then some (buffer.set k (some a)) else none

/-- Copies members into the slots from position `k` on, as far as there are any, and counts them. -/
def copy (buffer : Buffer α) (k : Nat) (as : List α) : Option (Buffer α × Nat) :=
  if k ≤ buffer.length then
    let as := as.take (buffer.length - k)
    some (buffer.take k ++ as.map some ++ buffer.drop (k + as.length), as.length)
  else none

/-- Copies two lists, one after the other. -/
def append (buffer : Buffer α) (k : Nat) (as bs : List α) : Option (Buffer α) := do
  let (buffer, n) ← buffer.copy k as
  let (buffer, _) ← buffer.copy (k + n) bs
  return buffer

/-- The members in a buffer, if no slot is empty. -/
def members? (buffer : Buffer α) : Option (List α) :=
  if buffer.all Option.isSome then some (buffer.filterMap id) else none

theorem write_next (done : List α) (n : Nat) (a : α) :
    write (done.map some ++ List.replicate (n + 1) none) done.length a =
      some ((done ++ [a]).map some ++ List.replicate n none) := by
  simp [write, List.set_append_right, List.replicate_succ]

theorem copy_next (done as : List α) (n : Nat) :
    copy (done.map some ++ List.replicate (as.length + n) none) done.length as =
      some ((done ++ as).map some ++ List.replicate n none, as.length) := by
  have htake : as.take (as.length + n) = as := List.take_of_length_le (by omega)
  simp [copy, htake, List.drop_append, List.drop_eq_nil_of_le]

theorem append_next (done as bs : List α) :
    append (done.map some ++ List.replicate (as ++ bs).length none) done.length as bs =
      some ((done ++ (as ++ bs)).map some) := by
  have hbs := copy_next (done ++ as) bs 0
  rw [List.length_append, Nat.add_zero] at hbs
  rw [List.length_append]
  simp only [append, copy_next, Option.bind_eq_bind, Option.bind_some, hbs]
  simp

end Buffer

variable [LT α]

def empty : SortedSet α := ⟨[], .nil⟩

instance : EmptyCollection (SortedSet α) := ⟨empty⟩

instance : Inhabited (SortedSet α) := ⟨empty⟩

def size (s : SortedSet α) : Nat := s.members.length

theorem lt_of_lt_head [StrictLinear α] (hab : a < b) (h : (b :: bs).Pairwise (· < ·)) :
    ∀ c ∈ b :: bs, a < c :=
  List.forall_mem_cons.mpr ⟨hab, fun _ hc => StrictLinear.trans hab (List.rel_of_pairwise_cons h hc)⟩

variable [DecidableLT α]

/-! ### Positions -/

/-- The first position before which all are below `a`. -/
def position (as : List α) (a : α) : Nat := as.findIdx fun b => !decide (b < a)

theorem position_of_lt (h : b < a) : position (b :: bs) a = position bs a + 1 := by
  simp [position, List.findIdx_cons, h]

theorem position_of_not_lt (h : ¬ b < a) : position (b :: bs) a = 0 := by
  simp [position, List.findIdx_cons, h]

/-! ### Merging -/

/-- The members of two ascending lists, those that they have in common once. -/
def mergeLists : List α → List α → List α
  | [], bs => bs
  | as, [] => as
  | a :: as, b :: bs =>
    if a < b then a :: mergeLists as (b :: bs)
    else if b < a then b :: mergeLists (a :: as) bs
    else a :: mergeLists as bs
termination_by as bs => as.length + bs.length

/-- The number of members that two ascending lists have in common. -/
def common : List α → List α → Nat
  | [], _ => 0
  | _, [] => 0
  | a :: as, b :: bs =>
    if a < b then common as (b :: bs)
    else if b < a then common (a :: as) bs
    else common as bs + 1
termination_by as bs => as.length + bs.length

/-- Merges two ascending lists into the slots from position `k` on. What is left of one is copied. -/
def Buffer.merge (buffer : Buffer α) (k : Nat) : List α → List α → Option (Buffer α)
  | [], bs => buffer.append k [] bs
  | as, [] => buffer.append k as []
  | a :: as, b :: bs =>
    if a < b then do (← buffer.write k a).merge (k + 1) as (b :: bs)
    else if b < a then do (← buffer.write k b).merge (k + 1) (a :: as) bs
    else do (← buffer.write k a).merge (k + 1) as bs
termination_by as bs => as.length + bs.length

/-- The members of two ascending lists, merged in a buffer unless the second one adds nothing. -/
def merged? (as bs : List α) : Option (List α) :=
  let n := common as bs
  if n = bs.length then some as
  else do (← Buffer.merge (List.replicate (as.length + bs.length - n) none) 0 as bs).members?

theorem common_le (as bs : List α) : common as bs ≤ bs.length := by
  fun_induction common as bs with
  | case1 => exact Nat.zero_le _
  | case2 => exact Nat.zero_le _
  | case3 _ _ _ _ _ ih => exact ih
  | case4 _ _ _ _ _ _ ih => exact Nat.le_succ_of_le ih
  | case5 _ _ _ _ _ _ ih => exact Nat.succ_le_succ ih

theorem length_mergeLists (as bs : List α) :
    (mergeLists as bs).length + common as bs = as.length + bs.length := by
  fun_induction mergeLists as bs <;> simp_all [common] <;> omega

/-- If all of the second list are in the first one, merging gives the first one. -/
theorem mergeLists_of_common (h : common as bs = bs.length) : mergeLists as bs = as := by
  fun_induction mergeLists as bs with
  | case1 bs =>
    rw [common, eq_comm, List.length_eq_zero_iff] at h
    exact h
  | case2 as => rfl
  | case3 a as b bs hab ih =>
    rw [common, if_pos hab] at h
    rw [ih h]
  | case4 a as b bs hab hba ih =>
    -- The head of the second list is met alone, so not all of it is in the first one.
    rw [common, if_neg hab, if_pos hba, List.length_cons] at h
    have hle := common_le (a :: as) bs
    omega
  | case5 a as b bs hab hba ih =>
    rw [common, if_neg hab, if_neg hba, List.length_cons] at h
    rw [ih (Nat.succ.inj h)]

/-- Whether merging fills a buffer of the right size with some members, whatever was written before. -/
def Fills (as bs cs : List α) : Prop :=
  ∀ done : List α, Buffer.merge (done.map some ++ List.replicate cs.length none) done.length as bs =
    some ((done ++ cs).map some)

theorem Fills.write {cs : List α} (h : Fills as bs cs) (done : List α) (c : α) :
    ((Buffer.write (done.map some ++ List.replicate (c :: cs).length none) done.length c).bind
      fun buffer => buffer.merge (done.length + 1) as bs) = some ((done ++ c :: cs).map some) := by
  have hrest := h (done ++ [c])
  rw [List.length_append, List.length_singleton] at hrest
  rw [List.length_cons, Buffer.write_next, Option.bind_some, hrest]
  simp

/-- A buffer is filled exactly. -/
theorem fills_mergeLists (as bs : List α) : Fills as bs (mergeLists as bs) := by
  fun_induction mergeLists as bs with
  | case1 bs =>
    intro done
    simpa [Buffer.merge] using Buffer.append_next done [] bs
  | case2 as =>
    intro done
    simpa [Buffer.merge] using Buffer.append_next done as []
  | case3 a as b bs hab ih =>
    intro done
    rw [Buffer.merge, if_pos hab]
    exact ih.write done a
  | case4 a as b bs hab hba ih =>
    intro done
    rw [Buffer.merge, if_neg hab, if_pos hba]
    exact ih.write done b
  | case5 a as b bs hab hba ih =>
    intro done
    rw [Buffer.merge, if_neg hab, if_neg hba]
    exact ih.write done a

/-- Merging fills the buffer that is allocated for it, from its first slot on. -/
theorem merge_allocated (as bs : List α) :
    Buffer.merge (List.replicate (as.length + bs.length - common as bs) none) 0 as bs =
      some ((mergeLists as bs).map some) := by
  have hlength := length_mergeLists as bs
  have hsize : as.length + bs.length - common as bs = (mergeLists as bs).length := by omega
  rw [hsize]
  exact fills_mergeLists as bs []

theorem merged?_eq (as bs : List α) : merged? as bs = some (mergeLists as bs) := by
  simp only [merged?]
  split
  · next h => rw [mergeLists_of_common h]
  · simp [merge_allocated, Buffer.members?]

theorem mem_mergeLists [StrictLinear α] (c : α) (as bs : List α) :
    c ∈ mergeLists as bs ↔ c ∈ as ∨ c ∈ bs := by
  fun_induction mergeLists as bs with
  | case1 | case2 => simp
  | case3 a as b bs hab ih | case4 a as b bs hab hba ih => grind
  | case5 a as b bs hab hba ih =>
    obtain rfl := StrictLinear.connected hab hba
    grind

theorem pairwise_mergeLists [StrictLinear α] (has : as.Pairwise (· < ·)) (hbs : bs.Pairwise (· < ·)) :
    (mergeLists as bs).Pairwise (· < ·) := by
  have hmem := mem_mergeLists (α := α)
  fun_induction mergeLists as bs with
  | case1 => exact hbs
  | case2 => exact has
  | case3 a as b bs hab ih =>
    refine List.pairwise_cons.mpr ⟨fun c hc => ?_, ih has.of_cons hbs⟩
    exact ((hmem _ _ _).mp hc).elim (List.rel_of_pairwise_cons has) (lt_of_lt_head hab hbs c)
  | case4 a as b bs hab hba ih =>
    refine List.pairwise_cons.mpr ⟨fun c hc => ?_, ih has hbs.of_cons⟩
    exact ((hmem _ _ _).mp hc).elim (lt_of_lt_head hba has c) (List.rel_of_pairwise_cons hbs)
  | case5 a as b bs hab hba ih =>
    obtain rfl := StrictLinear.connected hab hba
    refine List.pairwise_cons.mpr ⟨fun c hc => ?_, ih has.of_cons hbs.of_cons⟩
    exact ((hmem _ _ _).mp hc).elim (List.rel_of_pairwise_cons has) (List.rel_of_pairwise_cons hbs)

/-! ### Operations -/

def union (s t : SortedSet α) : SortedSet α where
  members := (merged? s.members t.members).getD []
  ascending := by
    intro _
    rw [merged?_eq]
    exact pairwise_mergeLists s.ascending t.ascending

theorem members_union (s t : SortedSet α) : (s.union t).members = mergeLists s.members t.members := by
  simp [union, merged?_eq]

def unions (ss : List (SortedSet α)) : SortedSet α := ss.foldl union empty

variable [DecidableEq α]

/-- An ascending list with `a` at its position. -/
def insertList (a : α) (as : List α) : List α :=
  let i := position as a
  if as[i]? = some a then as else as.take i ++ a :: as.drop i

/-- An ascending list without `a`. -/
def eraseList (a : α) (as : List α) : List α :=
  let i := position as a
  if as[i]? = some a then as.take i ++ as.drop (i + 1) else as

theorem insertList_of_lt (h : b < a) : insertList a (b :: bs) = b :: insertList a bs := by
  simp only [insertList, position_of_lt h, List.getElem?_cons_succ]
  split <;> rfl

theorem insertList_of_not_lt (h : ¬ b < a) :
    insertList a (b :: bs) = if b = a then b :: bs else a :: b :: bs := by
  simp [insertList, position_of_not_lt h]

theorem eraseList_of_lt (h : b < a) : eraseList a (b :: bs) = b :: eraseList a bs := by
  simp only [eraseList, position_of_lt h, List.getElem?_cons_succ]
  split <;> rfl

theorem eraseList_of_not_lt (h : ¬ b < a) : eraseList a (b :: bs) = if b = a then bs else b :: bs := by
  simp [eraseList, position_of_not_lt h]

theorem mem_insertList : b ∈ insertList a as ↔ b = a ∨ b ∈ as := by
  simp only [insertList]
  split
  · next h => exact ⟨.inr, fun hb => hb.elim (fun hba => hba ▸ List.mem_of_getElem? h) id⟩
  · -- What is before the position and from it on is the whole list.
    conv => rhs; rw [← List.take_append_drop (position as a) as]
    simp only [List.mem_append, List.mem_cons, or_left_comm]

theorem pairwise_insertList [StrictLinear α] (h : as.Pairwise (· < ·)) :
    (insertList a as).Pairwise (· < ·) := by
  induction as with
  | nil => simp [insertList]
  | cons b bs ih =>
    by_cases hba : b < a
    · rw [insertList_of_lt hba]
      refine List.pairwise_cons.mpr ⟨fun c hc => ?_, ih h.of_cons⟩
      rcases mem_insertList.mp hc with rfl | hc
      · exact hba
      · exact List.rel_of_pairwise_cons h hc
    · rw [insertList_of_not_lt hba]
      split
      · exact h
      · next hne =>
        have hab : a < b := Classical.byContradiction fun hab => hne (StrictLinear.connected hba hab)
        exact List.pairwise_cons.mpr ⟨lt_of_lt_head hab h, h⟩

theorem sublist_eraseList : (eraseList a as).Sublist as := by
  simp only [eraseList]
  split
  · rw [← List.eraseIdx_eq_take_drop_succ]
    exact List.eraseIdx_sublist ..
  · exact List.Sublist.refl as

def contains (s : SortedSet α) (a : α) : Bool := s.members[position s.members a]? = some a

def insert (s : SortedSet α) (a : α) : SortedSet α := ⟨insertList a s.members, pairwise_insertList s.ascending⟩

/-- The set without `a`. -/
def erase (s : SortedSet α) (a : α) : SortedSet α :=
  ⟨eraseList a s.members, s.ascending.sublist sublist_eraseList⟩

def inter (s t : SortedSet α) : SortedSet α := ⟨s.members.filter t.contains, s.ascending.filter _⟩

/-- The set of the members of a list. -/
def ofList (as : List α) : SortedSet α := as.foldl insert empty

end SortedSet

end Verdict
