import ThreeAddress.Code.Operand

/-!
# Sets of destinations

A set is the list of its members in order, so that sets with the same members
are equal.
-/

namespace ThreeAddress

structure DestSet where
  toList : List Dest
  ordered : toList.Pairwise (· < ·)
deriving DecidableEq

namespace DestSet

instance : Membership Dest DestSet := ⟨fun set dest => dest ∈ set.toList⟩

instance (dest : Dest) (set : DestSet) : Decidable (dest ∈ set) :=
  inferInstanceAs (Decidable (dest ∈ set.toList))

theorem mem_toList {set : DestSet} {dest : Dest} : dest ∈ set.toList ↔ dest ∈ set := Iff.rfl

def empty : DestSet := ⟨[], .nil⟩

instance : Inhabited DestSet := ⟨empty⟩

@[simp] theorem not_mem_empty (dest : Dest) : dest ∉ empty := List.not_mem_nil

def insertList (dest : Dest) : List Dest → List Dest
  | [] => [dest]
  | first :: rest =>
      if dest = first then first :: rest
      else if dest < first then dest :: first :: rest
      else first :: insertList dest rest

theorem mem_insertList {dest other : Dest} {dests : List Dest} :
    other ∈ insertList dest dests ↔ other = dest ∨ other ∈ dests := by
  induction dests with
  | nil => simp [insertList]
  | cons first rest ih =>
      unfold insertList
      split
      next heq => simp [heq]
      next =>
        split
        next => simp
        next => simp only [List.mem_cons, ih, or_left_comm]

theorem pairwise_insertList (dest : Dest) {dests : List Dest} (h : dests.Pairwise (· < ·)) :
    (insertList dest dests).Pairwise (· < ·) := by
  induction dests with
  | nil => simp [insertList]
  | cons first rest ih =>
      obtain ⟨hfirst, hrest⟩ := List.pairwise_cons.mp h
      unfold insertList
      split
      next => exact h
      next hne =>
        split
        next hlt =>
          refine List.pairwise_cons.mpr ⟨fun other hother => ?_, h⟩
          rcases List.mem_cons.mp hother with rfl | hmem
          · exact hlt
          · exact Dest.lt_trans hlt (hfirst other hmem)
        next hnlt =>
          refine List.pairwise_cons.mpr ⟨fun other hother => ?_, ih hrest⟩
          rcases mem_insertList.mp hother with rfl | hmem
          · exact (Dest.lt_or_gt_of_ne hne).resolve_left hnlt
          · exact hfirst other hmem

def insert (dest : Dest) (set : DestSet) : DestSet :=
  ⟨insertList dest set.toList, pairwise_insertList dest set.ordered⟩

def erase (dest : Dest) (set : DestSet) : DestSet :=
  ⟨set.toList.filter (· ≠ dest), set.ordered.filter _⟩

def ofList (dests : List Dest) : DestSet :=
  dests.foldr insert empty

/-- Adds the listed destinations to a set. -/
def insertAll (dests : List Dest) (set : DestSet) : DestSet :=
  dests.foldr insert set

def union (left right : DestSet) : DestSet :=
  right.insertAll left.toList

def size (set : DestSet) : Nat := set.toList.length

@[simp] theorem mem_insert {dest other : Dest} {set : DestSet} :
    other ∈ set.insert dest ↔ other = dest ∨ other ∈ set :=
  mem_insertList

@[simp] theorem mem_erase {dest other : Dest} {set : DestSet} :
    other ∈ set.erase dest ↔ other ∈ set ∧ other ≠ dest := by
  simp [← mem_toList, erase]

@[simp] theorem mem_insertAll {other : Dest} {dests : List Dest} {set : DestSet} :
    other ∈ set.insertAll dests ↔ other ∈ dests ∨ other ∈ set := by
  induction dests with
  | nil => simp [insertAll]
  | cons dest rest ih =>
      change other ∈ (set.insertAll rest).insert dest ↔ _
      rw [mem_insert, ih, List.mem_cons, or_assoc]

@[simp] theorem mem_ofList {other : Dest} {dests : List Dest} :
    other ∈ ofList dests ↔ other ∈ dests := by
  change other ∈ empty.insertAll dests ↔ _
  simp

@[simp] theorem mem_union {other : Dest} {left right : DestSet} :
    other ∈ left.union right ↔ other ∈ left ∨ other ∈ right := by
  simp [union, mem_toList]

theorem list_ext {left right : List Dest} (hleft : left.Pairwise (· < ·))
    (hright : right.Pairwise (· < ·)) (h : ∀ dest, dest ∈ left ↔ dest ∈ right) :
    left = right := by
  induction left generalizing right with
  | nil =>
      cases right with
      | nil => rfl
      | cons first rest => exact absurd ((h first).mpr List.mem_cons_self) List.not_mem_nil
  | cons first rest ih =>
      cases right with
      | nil => exact absurd ((h first).mp List.mem_cons_self) List.not_mem_nil
      | cons other others =>
          obtain ⟨hfirst, hrest⟩ := List.pairwise_cons.mp hleft
          obtain ⟨hother, hothers⟩ := List.pairwise_cons.mp hright
          have heq : first = other := by
            rcases List.mem_cons.mp ((h first).mp List.mem_cons_self) with heq | hmem
            · exact heq
            · rcases List.mem_cons.mp ((h other).mpr List.mem_cons_self) with heq | hmem'
              · exact heq.symm
              · exact absurd (Dest.lt_trans (hother first hmem) (hfirst other hmem'))
                  (Dest.lt_irrefl other)
          subst heq
          congr 1
          refine ih hrest hothers fun dest => ⟨fun hmem => ?_, fun hmem => ?_⟩
          · rcases List.mem_cons.mp ((h dest).mp (List.mem_cons_of_mem _ hmem)) with rfl | hmem'
            · exact absurd (hfirst dest hmem) (Dest.lt_irrefl dest)
            · exact hmem'
          · rcases List.mem_cons.mp ((h dest).mpr (List.mem_cons_of_mem _ hmem)) with rfl | hmem'
            · exact absurd (hother dest hmem) (Dest.lt_irrefl dest)
            · exact hmem'

/-- Sets with the same members are equal. -/
theorem ext {left right : DestSet} (h : ∀ dest, dest ∈ left ↔ dest ∈ right) : left = right := by
  obtain ⟨left, hleft⟩ := left
  obtain ⟨right, hright⟩ := right
  have hlists : left = right := list_ext hleft hright h
  subst hlists
  rfl

end DestSet

end ThreeAddress
