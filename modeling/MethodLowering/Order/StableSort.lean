/-!
Order: tables, whose keys increase and which have at most one entry for a key, and stable sorting by
position, where items that compare equal stay in the order in which they were given.
-/

set_option autoImplicit false
set_option relaxedAutoImplicit false

namespace MethodLowering

/-! ### Tables -/

/-- Values by key, listed in the order of the keys. -/
structure Table (κ α : Type) where
  entries : List (κ × α)

namespace Table

variable {κ α : Type}

def empty : Table κ α := ⟨[]⟩

def keys (table : Table κ α) : List κ := table.entries.map Prod.fst

def values (table : Table κ α) : List α := table.entries.map Prod.snd

def size (table : Table κ α) : Nat := table.entries.length

variable [Ord κ]

/-- Put an entry at its place, instead of an entry with the same key. -/
def insertEntry (key : κ) (value : α) : List (κ × α) → List (κ × α)
  | [] => [(key, value)]
  | entry :: rest =>
    match compare key entry.1 with
    | .lt => (key, value) :: entry :: rest
    | .eq => (key, value) :: rest
    | .gt => entry :: insertEntry key value rest

/-- Store a value under a key, replacing what was stored there. -/
def insert (table : Table κ α) (key : κ) (value : α) : Table κ α :=
  ⟨insertEntry key value table.entries⟩

def find? (table : Table κ α) (key : κ) : Option α :=
  (table.entries.find? fun entry => compare key entry.1 == .eq).map Prod.snd

end Table

/-! ### Sorting -/

namespace StableSort

variable {α : Type} [Ord α]

/-- The items with their positions, in increasing order. -/
def ranked (items : List α) : List (α × Nat) :=
  items.zipIdx.mergeSort fun a b => (compare a.1 b.1).isLE

def permutation (items : List α) : List Nat :=
  (ranked items).map Prod.snd

/-- For each item in increasing order but the last, whether the next one is the same. -/
def repeats [DecidableEq α] (items : List α) : List Bool :=
  let sorted := (ranked items).map Prod.fst
  sorted.zipWith (fun a b => decide (a = b)) sorted.tail

end StableSort

end MethodLowering
