import ThreeAddress.Code.Operand

/-!
# Maps from destinations

A map is the list of its entries in the order of their destinations, each of which
has one entry at most. What an operation does is said for the entry of each
destination apart.
-/

namespace ThreeAddress

structure DestMap (Value : Type) where
  entries : List (Dest × Value)
  ordered : entries.Pairwise (·.1 < ·.1)

namespace DestMap

variable {Value : Type}

def empty : DestMap Value := ⟨[], .nil⟩

def findIn? (dest : Dest) : List (Dest × Value) → Option Value
  | [] => none
  | entry :: rest => if dest = entry.1 then some entry.2 else findIn? dest rest

/-- The value of a destination. -/
def find? (map : DestMap Value) (dest : Dest) : Option Value := findIn? dest map.entries

def contains (map : DestMap Value) (dest : Dest) : Bool := (map.find? dest).isSome

/-- The values in the order of their destinations. -/
def values (map : DestMap Value) : List Value := map.entries.map (·.2)

def updateEntry (dest : Dest) (change : Value → Value) (fresh : Value) :
    List (Dest × Value) → List (Dest × Value)
  | [] => [(dest, fresh)]
  | entry :: rest =>
      if dest = entry.1 then (dest, change entry.2) :: rest
      else if dest < entry.1 then (dest, fresh) :: entry :: rest
      else entry :: updateEntry dest change fresh rest

theorem mem_updateEntry {dest : Dest} {change : Value → Value} {fresh : Value}
    {entries : List (Dest × Value)} {entry : Dest × Value}
    (h : entry ∈ updateEntry dest change fresh entries) : entry.1 = dest ∨ entry ∈ entries := by
  induction entries with
  | nil => exact .inl (congrArg Prod.fst (List.mem_singleton.mp h))
  | cons first rest ih =>
      unfold updateEntry at h
      split at h
      next heq =>
        rcases List.mem_cons.mp h with rfl | hrest
        · exact .inl rfl
        · exact .inr (List.mem_cons_of_mem _ hrest)
      next =>
        split at h
        next =>
          rcases List.mem_cons.mp h with rfl | hall
          · exact .inl rfl
          · exact .inr hall
        next =>
          rcases List.mem_cons.mp h with rfl | hrest
          · exact .inr List.mem_cons_self
          · exact (ih hrest).imp_right (List.mem_cons_of_mem _)

theorem pairwise_updateEntry (dest : Dest) (change : Value → Value) (fresh : Value)
    {entries : List (Dest × Value)} (h : entries.Pairwise (·.1 < ·.1)) :
    (updateEntry dest change fresh entries).Pairwise (·.1 < ·.1) := by
  induction entries with
  | nil => exact List.pairwise_singleton _ _
  | cons first rest ih =>
      obtain ⟨hfirst, hrest⟩ := List.pairwise_cons.mp h
      unfold updateEntry
      split
      next heq =>
        refine List.pairwise_cons.mpr ⟨fun other hother => ?_, hrest⟩
        rw [heq]
        exact hfirst other hother
      next hne =>
        split
        next hlt =>
          refine List.pairwise_cons.mpr ⟨fun other hother => ?_, h⟩
          rcases List.mem_cons.mp hother with rfl | hmem
          · exact hlt
          · exact Dest.lt_trans hlt (hfirst other hmem)
        next hnlt =>
          refine List.pairwise_cons.mpr ⟨fun other hother => ?_, ih hrest⟩
          rcases mem_updateEntry hother with heq | hmem
          · rw [heq]
            exact (Dest.lt_or_gt_of_ne hne).resolve_left hnlt
          · exact hfirst other hmem

/-- Changes the value of a destination, or gives it a fresh one if it has none. -/
def update (map : DestMap Value) (dest : Dest) (change : Value → Value) (fresh : Value) :
    DestMap Value :=
  ⟨updateEntry dest change fresh map.entries, pairwise_updateEntry dest change fresh map.ordered⟩

def modifyEntry (dest : Dest) (change : Value → Value) (entry : Dest × Value) : Dest × Value :=
  if entry.1 = dest then (entry.1, change entry.2) else entry

@[simp] theorem modifyEntry_fst (dest : Dest) (change : Value → Value) (entry : Dest × Value) :
    (modifyEntry dest change entry).1 = entry.1 := by
  unfold modifyEntry
  split <;> rfl

/-- Changes the value of a destination if it has one. -/
def modify (map : DestMap Value) (dest : Dest) (change : Value → Value) : DestMap Value where
  entries := map.entries.map (modifyEntry dest change)
  ordered := List.pairwise_map.mpr (map.ordered.imp fun hlt => by simpa using hlt)

/-! ## The entry of a destination -/

@[simp] theorem find?_empty (dest : Dest) : (empty : DestMap Value).find? dest = none := rfl

theorem findIn?_of_lt {dest : Dest} {entries : List (Dest × Value)}
    (h : ∀ entry ∈ entries, dest < entry.1) : findIn? dest entries = none := by
  induction entries with
  | nil => rfl
  | cons first rest ih =>
      obtain ⟨hfirst, hrest⟩ := List.forall_mem_cons.mp h
      rw [findIn?, if_neg, ih hrest]
      rintro rfl
      exact Dest.lt_irrefl _ hfirst

theorem mem_entries_iff {map : DestMap Value} {dest : Dest} {value : Value} :
    (dest, value) ∈ map.entries ↔ map.find? dest = some value := by
  obtain ⟨entries, hordered⟩ := map
  change _ ↔ findIn? dest entries = some value
  induction entries with
  | nil => simp [findIn?]
  | cons first rest ih =>
      obtain ⟨hfirst, hrest⟩ := List.pairwise_cons.mp hordered
      rw [findIn?, List.mem_cons]
      by_cases heq : dest = first.1
      · rw [if_pos heq, Option.some.injEq]
        constructor
        · rintro (rfl | hmem)
          · rfl
          · exact absurd (heq ▸ hfirst _ hmem) (Dest.lt_irrefl _)
        · rintro rfl
          exact .inl (Prod.ext heq rfl)
      · rw [if_neg heq, ← ih hrest]
        exact or_iff_right fun h => heq (congrArg Prod.fst h)

theorem find?_update (map : DestMap Value) (dest other : Dest) (change : Value → Value)
    (fresh : Value) :
    (map.update dest change fresh).find? other =
      if other = dest then some (((map.find? dest).map change).getD fresh)
      else map.find? other := by
  obtain ⟨entries, hordered⟩ := map
  change findIn? other (updateEntry dest change fresh entries) =
    if other = dest then some (((findIn? dest entries).map change).getD fresh)
    else findIn? other entries
  induction entries with
  | nil => simp [updateEntry, findIn?]
  | cons first rest ih =>
      obtain ⟨hfirst, hrest⟩ := List.pairwise_cons.mp hordered
      by_cases heq : dest = first.1
      · by_cases hother : other = dest <;> grind [updateEntry, findIn?]
      · by_cases hlt : dest < first.1
        · have hnone : findIn? dest (first :: rest) = none := findIn?_of_lt <| by
            refine List.forall_mem_cons.mpr ⟨hlt, fun entry hentry => ?_⟩
            exact Dest.lt_trans hlt (hfirst entry hentry)
          rw [updateEntry, if_neg heq, if_pos hlt, findIn?, hnone]
          rfl
        · rw [updateEntry, if_neg heq, if_neg hlt]
          by_cases hother : other = first.1 <;> grind [findIn?]

theorem find?_modify (map : DestMap Value) (dest other : Dest) (change : Value → Value) :
    (map.modify dest change).find? other =
      if other = dest then (map.find? dest).map change else map.find? other := by
  obtain ⟨entries, hordered⟩ := map
  change findIn? other (entries.map (modifyEntry dest change)) =
    if other = dest then (findIn? dest entries).map change else findIn? other entries
  clear hordered
  induction entries with
  | nil => simp [findIn?]
  | cons first rest ih => grind [findIn?, modifyEntry]

theorem contains_eq_true_iff {map : DestMap Value} {dest : Dest} :
    map.contains dest = true ↔ map.find? dest ≠ none := by
  rw [contains, Option.isSome_iff_ne_none]

end DestMap

end ThreeAddress
