/-! # Maps from names

A finite map from names, kept as a list of entries. An entry is put before the first greater name, so
that entries are listed in the order of their names. -/

namespace Verdict

/-- A finite map from names to `α`. -/
structure NameMap (α : Type) where
  entries : List (String × α)
deriving Repr

namespace NameMap

variable {α β : Type}

def empty : NameMap α := ⟨[]⟩

instance : EmptyCollection (NameMap α) := ⟨empty⟩

instance : Inhabited (NameMap α) := ⟨empty⟩

def find (name : String) : List (String × α) → Option α
  | [] => none
  | (x, a) :: rest => if x = name then some a else find name rest

def get? (m : NameMap α) (name : String) : Option α := find name m.entries

def contains (m : NameMap α) (name : String) : Bool := (m.get? name).isSome

/-- Puts an entry in its place, where it takes over from an earlier one. -/
def insertEntry (name : String) (a : α) : List (String × α) → List (String × α)
  | [] => [(name, a)]
  | (x, b) :: rest =>
    if name < x then (name, a) :: (x, b) :: rest
    else if x = name then (name, a) :: rest
    else (x, b) :: insertEntry name a rest

/-- The map in which `name` stands for `a`. -/
def insert (m : NameMap α) (name : String) (a : α) : NameMap α :=
  ⟨insertEntry name a m.entries⟩

/-- The map without the entry for a name. -/
def erase (m : NameMap α) (name : String) : NameMap α :=
  ⟨m.entries.filter fun e => e.1 ≠ name⟩

/-- The map of a list of entries, of which the last for a name counts. -/
def ofList (entries : List (String × α)) : NameMap α :=
  entries.foldl (fun m e => m.insert e.1 e.2) empty

/-- The names with an entry, in order. -/
def names (m : NameMap α) : List String := m.entries.map Prod.fst

def isEmpty (m : NameMap α) : Bool := m.entries.isEmpty

/-- The entries that satisfy `p`. -/
def filter (m : NameMap α) (p : String → α → Bool) : NameMap α :=
  ⟨m.entries.filter fun e => p e.1 e.2⟩

/-- The map with every entry replaced by its image. -/
def map (m : NameMap α) (f : String → α → β) : NameMap β :=
  ⟨m.entries.map fun e => (e.1, f e.1 e.2)⟩

@[simp] theorem get?_empty (name : String) : (empty : NameMap α).get? name = none := rfl

theorem find_insertEntry (name x : String) (a : α) (es : List (String × α)) :
    find x (insertEntry name a es) = if name = x then some a else find x es := by
  induction es with
  | nil => simp [insertEntry, find]
  | cons e es ih =>
    obtain ⟨y, b⟩ := e
    simp only [insertEntry]
    split
    · simp [find]
    · split
      · next h => subst h; by_cases hx : y = x <;> simp [find, hx]
      · next h =>
        simp only [find, ih]
        by_cases hy : y = x
        · subst hy; simp [Ne.symm h]
        · simp [hy]

@[simp] theorem get?_insert (m : NameMap α) (name x : String) (a : α) :
    (m.insert name a).get? x = if name = x then some a else m.get? x :=
  find_insertEntry name x a m.entries

theorem find_filter_ne (name x : String) (es : List (String × α)) :
    find x (es.filter fun e => decide (e.1 ≠ name)) = if name = x then none else find x es := by
  induction es with
  | nil => simp [find]
  | cons e es ih =>
    obtain ⟨y, b⟩ := e
    by_cases hy : y = name
    · subst hy
      simp only [List.filter, ne_eq, not_true, decide_false, ih, find]
      split <;> rfl
    · simp only [List.filter, ne_eq, hy, not_false_eq_true, decide_true, find, ih]
      by_cases hx : y = x
      · subst hx; simp [Ne.symm hy]
      · simp [hx]

@[simp] theorem get?_erase (m : NameMap α) (name x : String) :
    (m.erase name).get? x = if name = x then none else m.get? x :=
  find_filter_ne name x m.entries

end NameMap

end Verdict
