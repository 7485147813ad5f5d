import Mathlib.Data.List.Forall2
import Mathlib.Data.List.Nodup
import ThreeAddress.Proofs.Asm.Fragments

/-!
# Patching

A builder that writes bytes with zeros for references, and patches these at the end, makes the
image that its layout describes. Until then its bytes are those of the fragments of the
layout without their references, and its numbered labels stand for the names in the layout
one to one. Patching changes the last four bytes of the fragments that refer to a label and
no others.
-/

namespace ThreeAddress

open Encoding (bytes32)

namespace Fragment

/-- The bytes of a fragment with zeros for its reference. -/
def template : Fragment → List UInt8
  | instr code =>
      LaidOut.encode (code.map (fun _ => 0)
        (fun
          | .builtin builtin => .builtin builtin.address
          | .routine _ => .routine 0)
        (fun _ => 0))
  | data bytes => bytes

/-- A fragment refers to nothing, or to one label with its last four bytes. -/
inductive Refers (fragment : Fragment) : Prop
  | nothing (hreferences : fragment.references = [])
      (hsize : fragment.size = fragment.template.length)
      (hencode : ∀ place stop, fragment.encode place stop = fragment.template) : Refers fragment
  | last (label : String) (opcode : List UInt8) (hreferences : fragment.references = [label])
      (hsize : fragment.size = opcode.length + 4)
      (htemplate : fragment.template = opcode ++ bytes32 0)
      (hencode : ∀ place stop, fragment.encode place stop =
        opcode ++ bytes32 (Int32.ofInt ((place label : Int) - stop))) : Refers fragment

theorem refers (fragment : Fragment) : fragment.Refers := by
  cases fragment with
  | data bytes => exact .nothing rfl rfl fun _ _ => rfl
  | instr code =>
      cases code with
      | jmp label => exact .last label [0xE9] rfl rfl rfl fun _ _ => rfl
      | jcc cond label =>
          exact .last label [0x0F, 0x80 + Encoding.condition cond] rfl rfl rfl fun _ _ => rfl
      | leaLiteral label dst =>
          exact .last label [Encoding.lead true (Encoding.high dst) 0, 0x8D,
            0x05 + 8 * Encoding.low dst] rfl rfl rfl fun _ _ => rfl
      | call label =>
          cases label with
          | builtin builtin => exact .nothing rfl rfl fun _ _ => rfl
          | routine label => exact .last label [0xE8] rfl rfl rfl fun _ _ => rfl
      | alu op src dst => cases op <;> exact .nothing rfl rfl fun _ _ => rfl
      | _ => exact .nothing rfl rfl fun _ _ => rfl

theorem size_eq (fragment : Fragment) : fragment.size = fragment.template.length := by
  cases fragment.refers with
  | nothing _ hsize _ => exact hsize
  | last label opcode _ hsize htemplate _ => rw [hsize, htemplate, List.length_append]; rfl

end Fragment

/-- The ends of the references of fragments that start at an offset, with their labels. -/
def Layout.referencesFrom : Nat → List Fragment → List (Nat × String)
  | _, [] => []
  | offset, fragment :: rest =>
      fragment.references.map (fun label => (offset + fragment.size, label)) ++
        referencesFrom (offset + fragment.size) rest

theorem Layout.referencesFrom_append (offset : Nat) (first second : List Fragment) :
    referencesFrom offset (first ++ second) = referencesFrom offset first ++
      referencesFrom (offset + (first.flatMap Fragment.template).length) second := by
  induction first generalizing offset with
  | nil => rfl
  | cons fragment rest ih =>
      rw [List.cons_append, referencesFrom, ih, referencesFrom, List.append_assoc,
        List.flatMap_cons, List.length_append, Fragment.size_eq, Nat.add_assoc]

theorem Layout.map_snd_referencesFrom (offset : Nat) (fragments : List Fragment) :
    (referencesFrom offset fragments).map (·.2) = fragments.flatMap Fragment.references := by
  induction fragments generalizing offset with
  | nil => rfl
  | cons fragment rest ih =>
      rw [referencesFrom, List.map_append, ih, List.map_map, List.flatMap_cons]
      exact congrArg (· ++ _) (List.map_id _)

namespace Builder

/-! ## Bytes -/

theorem toList_overwrite {code : Array UInt8} {before old after new : List UInt8}
    (hcode : code.toList = before ++ old ++ after) (hlength : old.length = new.length) :
    (overwrite code before.length new).toList = before ++ new ++ after := by
  induction new generalizing code before old with
  | nil =>
      obtain rfl := List.length_eq_zero_iff.mp hlength
      exact hcode
  | cons byte rest ih =>
      cases old with
      | nil => cases hlength
      | cons first old =>
          have hset : (code.setIfInBounds before.length byte).toList =
              (before ++ [byte]) ++ old ++ after := by
            simp [hcode]
          have hrest := ih hset (Nat.succ.inj hlength)
          rw [List.length_append] at hrest
          simpa [overwrite] using hrest

/-- Patching gives each fragment the bytes that it has where it stands. -/
theorem toList_foldl_patch (place : String → Nat) (fragments : List Fragment) {code : Array UInt8}
    {before : List UInt8} (hcode : code.toList = before ++ fragments.flatMap Fragment.template) :
    ((Layout.referencesFrom before.length fragments).foldl
      (fun code entry => patch code entry.1 (place entry.2)) code).toList =
      before ++ Layout.encodeFrom place before.length fragments := by
  induction fragments generalizing code before with
  | nil => exact hcode
  | cons fragment rest ih =>
      rw [List.flatMap_cons] at hcode
      rw [Layout.referencesFrom, Layout.encodeFrom, List.foldl_append]
      cases fragment.refers with
      | nothing hreferences hsize hencode =>
          have hcode' : code.toList =
              (before ++ fragment.template) ++ rest.flatMap Fragment.template := by
            rw [hcode, List.append_assoc]
          have hrest := ih hcode'
          rw [List.length_append, ← hsize, List.append_assoc] at hrest
          rw [hreferences, hencode]
          exact hrest
      | last label opcode hreferences hsize htemplate hencode =>
          -- The zeros end where the fragment does, so the patch writes over them and nothing else.
          generalize hstop : before.length + fragment.size = stop
          have hpatched : (patch code stop (place label)).toList =
              (before ++ fragment.encode place stop) ++ rest.flatMap Fragment.template := by
            have hbefore : stop - 4 = (before ++ opcode).length := by
              rw [List.length_append]
              omega
            have hcode' : code.toList =
                (before ++ opcode) ++ bytes32 0 ++ rest.flatMap Fragment.template := by
              rw [hcode, htemplate]
              simp only [List.append_assoc]
            have hlength (value : Int32) : (bytes32 0).length = (bytes32 value).length := rfl
            rw [patch, hbefore, toList_overwrite hcode' (hlength _), hencode]
            simp only [List.append_assoc]
          have hrest := ih hpatched
          have hlength : (before ++ fragment.encode place stop).length = stop := by
            rw [hencode, List.length_append, List.length_append, ← hstop, hsize]
            rfl
          rw [hlength, List.append_assoc] at hrest
          rw [hreferences]
          exact hrest

/-! ## Labels -/

/-- The registry has a label for each name, and no label for two names. -/
structure Regular (builder : Builder) : Prop where
  fresh : ∀ name label, builder.registry.lookup name = some label → label < builder.made
  injective : ∀ name other label, builder.registry.lookup name = some label →
    builder.registry.lookup other = some label → name = other
  found : ∀ entry ∈ builder.registry, builder.registry.lookup entry.1 = some entry.2

theorem mem_of_lookup {entries : List (String × Nat)} {name : String} {label : Nat}
    (h : entries.lookup name = some label) : (name, label) ∈ entries := by
  obtain ⟨before, after, rfl, _⟩ := List.lookup_eq_some_iff.mp h
  simp

theorem lookup_cons_eq (name other : String) (label : Nat) (entries : List (String × Nat)) :
    ((name, label) :: entries).lookup other =
      if other = name then some label else entries.lookup other := by
  rw [List.lookup_cons]
  by_cases heq : other = name
  · simp [heq]
  · have hne : (other == name) = false := by simpa using heq
    simp [heq, hne]

/-- A label that has been made stays that of its name. -/
def Extends (builder next : Builder) : Prop :=
  ∀ name label, builder.registry.lookup name = some label →
    next.registry.lookup name = some label

theorem Regular.label {builder : Builder} (h : builder.Regular) (name : String) :
    (builder.label name).2.Regular ∧ builder.Extends (builder.label name).2 ∧
      (builder.label name).2.registry.lookup name = some (builder.label name).1 := by
  cases hlookup : builder.registry.lookup name with
  | some label =>
      have hlabel : builder.label name = (label, builder) := by
        rw [Builder.label, hlookup]
      rw [hlabel]
      exact ⟨h, fun _ _ hold => hold, hlookup⟩
  | none =>
      have hlabel : builder.label name = (builder.made, { builder with
          registry := (name, builder.made) :: builder.registry
          made := builder.made + 1 }) := by
        rw [Builder.label, hlookup]
      have hne {other : String} {label : Nat}
          (hother : builder.registry.lookup other = some label) : other ≠ name := by
        rintro rfl
        cases hother.symm.trans hlookup
      -- The new label is the number of labels so far, which no name has yet.
      rw [hlabel]
      refine ⟨⟨?_, ?_, ?_⟩, ?_, List.lookup_cons_self⟩
      · intro other label hother
        rw [lookup_cons_eq] at hother
        split at hother
        next => exact Option.some.inj hother ▸ Nat.lt_succ_self _
        next => exact Nat.lt_succ_of_lt (h.fresh other label hother)
      · intro first second label hfirst hsecond
        rw [lookup_cons_eq] at hfirst hsecond
        split at hfirst <;> split at hsecond
        next heq heq' => rw [heq, heq']
        next =>
          have hlt := h.fresh second label hsecond
          rw [Option.some.inj hfirst] at hlt
          exact absurd hlt (Nat.lt_irrefl _)
        next =>
          have hlt := h.fresh first label hfirst
          rw [Option.some.inj hsecond] at hlt
          exact absurd hlt (Nat.lt_irrefl _)
        next => exact h.injective first second label hfirst hsecond
      · refine List.forall_mem_cons.mpr ⟨List.lookup_cons_self, fun entry hentry => ?_⟩
        have hfound := h.found entry hentry
        rw [lookup_cons_eq, if_neg (hne hfound), hfound]
      · intro other label hother
        rw [lookup_cons_eq, if_neg (hne hother), hother]

theorem offset_write (builder : Builder) (bytes : List UInt8) :
    (builder.write bytes).offset = builder.offset + bytes.length := by
  simp [offset, write, ← Array.length_toList]

/-! ## A builder and its layout -/

/-- A builder has written what is in a layout, with labels for names. -/
structure Lays (builder : Builder) (layout : Layout) : Prop where
  regular : builder.Regular
  code : builder.code.toList = layout.fragments.flatMap Fragment.template
  bound : List.Forall₂ (fun entry named =>
    builder.registry.lookup named.1 = some entry.1 ∧ entry.2 = named.2)
    builder.bound layout.labels
  references : List.Forall₂ (fun entry named =>
    entry.1 = named.1 ∧ builder.registry.lookup named.2 = some entry.2)
    builder.references (Layout.referencesFrom 0 layout.fragments)
  offset : layout.offset = builder.offset
  routines : builder.routines = layout.routines

theorem lays_empty : empty.Lays .empty := by
  refine ⟨⟨?_, ?_, ?_⟩, rfl, .nil, .nil, rfl, rfl⟩ <;> simp [empty]

namespace Lays

variable {builder : Builder} {layout : Layout}

/-- Asking for a label changes the registry alone. -/
theorem label (h : builder.Lays layout) (name : String) :
    (builder.label name).2.Lays layout ∧
      (builder.label name).2.registry.lookup name = some (builder.label name).1 := by
  obtain ⟨hregular, hextends, hlookup⟩ := h.regular.label name
  have hsame : ∃ registry made, (builder.label name).2 =
      { builder with registry := registry, made := made } := by
    unfold Builder.label
    split
    next => exact ⟨_, _, rfl⟩
    next => exact ⟨_, _, rfl⟩
  obtain ⟨registry, made, hsame⟩ := hsame
  rw [hsame] at hregular hextends hlookup ⊢
  exact ⟨⟨hregular, h.code, h.bound.imp fun _ _ hnamed => ⟨hextends _ _ hnamed.1, hnamed.2⟩,
    h.references.imp fun _ _ hnamed => ⟨hnamed.1, hextends _ _ hnamed.2⟩, h.offset,
    h.routines⟩, hlookup⟩

theorem declare (h : builder.Lays layout) (routine : String) :
    (builder.declare routine).Lays (layout.declare routine) :=
  ⟨⟨h.regular.fresh, h.regular.injective, h.regular.found⟩, h.code, h.bound, h.references,
    h.offset, congrArg (· ++ [routine]) h.routines⟩

theorem bind (h : builder.Lays layout) (name : String) :
    (builder.bind name).Lays (layout.bind name) := by
  obtain ⟨hlays, hlookup⟩ := h.label name
  refine ⟨⟨hlays.regular.fresh, hlays.regular.injective, hlays.regular.found⟩, hlays.code, ?_,
    hlays.references, hlays.offset, hlays.routines⟩
  exact List.rel_append hlays.bound (.cons ⟨hlookup, hlays.offset.symm⟩ .nil)

/-- The references of a layout that has one more fragment. -/
theorem referencesFrom_add (h : builder.Lays layout) (fragment : Fragment) :
    Layout.referencesFrom 0 (layout.add fragment).fragments =
      Layout.referencesFrom 0 layout.fragments ++
        fragment.references.map fun label =>
          (builder.offset + fragment.template.length, label) := by
  have hoffset : (layout.fragments.flatMap Fragment.template).length = builder.offset := by
    rw [← h.code]
    rfl
  rw [Layout.add, Layout.referencesFrom_append, hoffset, Nat.zero_add, Layout.referencesFrom,
    Layout.referencesFrom, List.append_nil, Fragment.size_eq]

theorem offset_write (h : builder.Lays layout) (fragment : Fragment) :
    (layout.add fragment).offset = (builder.write fragment.template).offset := by
  rw [Builder.offset_write, Layout.add, h.offset, fragment.size_eq]

/-- A fragment without references is written as it is. -/
theorem write (h : builder.Lays layout) {fragment : Fragment} {bytes : List UInt8}
    (hnone : fragment.references = []) (hbytes : bytes = fragment.template) :
    (builder.write bytes).Lays (layout.add fragment) := by
  subst hbytes
  refine ⟨⟨h.regular.fresh, h.regular.injective, h.regular.found⟩, ?_, h.bound, ?_,
    h.offset_write fragment, h.routines⟩
  · simp [Builder.write, Layout.add, h.code]
  · rw [h.referencesFrom_add, hnone, List.map_nil, List.append_nil]
    exact h.references

/-- A reference is noted down with the label of its name. -/
theorem refer (h : builder.Lays layout) {fragment : Fragment} {name : String} {code : LaidOut}
    (hreferences : fragment.references = [name]) (hcode : code.encode = fragment.template) :
    (builder.refer name code).Lays (layout.add fragment) := by
  obtain ⟨hlays, hlookup⟩ := h.label name
  unfold Builder.refer
  rw [hcode]
  refine ⟨⟨hlays.regular.fresh, hlays.regular.injective, hlays.regular.found⟩, ?_, hlays.bound, ?_,
    hlays.offset_write fragment, hlays.routines⟩
  · simp [Builder.write, Layout.add, hlays.code]
  · rw [hlays.referencesFrom_add, hreferences]
    exact List.rel_append hlays.references (.cons ⟨Builder.offset_write _ _, hlookup⟩ .nil)

end Lays

/-- A builder and a layout that end alike. -/
inductive Alike : Except AssemblyError Builder → Except AssemblyError Layout → Prop
  | error (error : AssemblyError) : Alike (.error error) (.error error)
  | ok {builder : Builder} {layout : Layout} (h : builder.Lays layout) :
      Alike (.ok builder) (.ok layout)

namespace Lays

variable {builder : Builder} {layout : Layout}

theorem call (h : builder.Lays layout) (callee : String) :
    Alike (builder.call callee) (layout.emit (.instr (.call callee))) := by
  unfold Builder.call
  simp only [Layout.emit, Layout.labelled, Layout.callLabel, h.routines]
  cases Builtin.ofName? callee with
  | some builtin => exact .ok (h.write rfl rfl)
  | none =>
      dsimp only
      split
      next => exact .ok (h.refer rfl rfl)
      next => exact .error _

theorem emit (h : builder.Lays layout) (item : Item Nat) :
    Alike (builder.emit item) (layout.emit item) := by
  cases item with
  | label name => exact .ok (h.bind name)
  | instr code =>
      cases code with
      | call callee => exact h.call callee
      | jmp | jcc | leaLiteral => exact .ok (h.refer rfl rfl)
      | _ => exact .ok (h.write rfl rfl)

theorem emitAll (h : builder.Lays layout) (items : List (Item Nat)) :
    Alike (builder.emitAll items) (layout.emitAll items) := by
  induction items generalizing builder layout with
  | nil => exact .ok h
  | cons item rest ih =>
      have hitem := h.emit item
      unfold Builder.emitAll Layout.emitAll
      generalize builder.emit item = written at hitem ⊢
      generalize layout.emit item = laid at hitem ⊢
      cases hitem with
      | error error => exact .error error
      | ok hnext => exact ih hnext

theorem data (h : builder.Lays layout) (name : String) (bytes : List UInt8) :
    (builder.data name bytes).Lays (layout.data name bytes) :=
  (h.bind name).write rfl rfl

theorem addLiterals (h : builder.Lays layout) (index : Nat) (texts : List String) :
    (builder.addLiterals index texts).Lays (layout.addLiterals index texts) := by
  induction texts generalizing builder layout index with
  | nil => exact h
  | cons text rest ih => exact ih (h.data _ _) (index + 1)

theorem declareAll (h : builder.Lays layout) (routines : List Routine) :
    (routines.foldl (fun builder routine => builder.declare routine.name) builder).Lays
      (routines.foldl (fun layout routine => layout.declare routine.name) layout) := by
  induction routines generalizing builder layout with
  | nil => exact h
  | cons routine rest ih => exact ih (h.declare routine.name)

/-- Routines are added with the same error or with the same entry. -/
theorem addRoutines (h : builder.Lays layout) (entry : Option Nat) (routines : List Routine) :
    (∃ error, builder.addRoutines entry routines = .error error ∧
        layout.addRoutines entry routines = .error error) ∨
      ∃ builder' layout' entry', builder.addRoutines entry routines = .ok (builder', entry') ∧
        layout.addRoutines entry routines = .ok (layout', entry') ∧ builder'.Lays layout' := by
  induction routines generalizing builder layout entry with
  | nil => exact .inr ⟨builder, layout, entry, rfl, rfl, h⟩
  | cons routine rest ih =>
      have hitems := (h.bind (routineLabel routine.name)).emitAll routine.items
      unfold Builder.addRoutines Layout.addRoutines
      rw [h.offset]
      generalize (builder.bind (routineLabel routine.name)).emitAll routine.items = written
        at hitems ⊢
      generalize (layout.bind (routineLabel routine.name)).emitAll routine.items = laid
        at hitems ⊢
      cases hitems with
      | error error => exact .inl ⟨error, rfl, rfl⟩
      | ok hnext => exact ih hnext _

/-! ## The end -/

theorem nameOf_eq (h : builder.Regular) {name : String} {label : Nat}
    (hlookup : builder.registry.lookup name = some label) : builder.nameOf label = name := by
  unfold nameOf
  cases hfind : builder.registry.find? (·.2 = label) with
  | none =>
      have hnone := List.find?_eq_none.mp hfind _ (mem_of_lookup hlookup)
      simp at hnone
  | some entry =>
      have hlabel : entry.2 = label := by simpa using List.find?_some hfind
      have hfound := h.found entry (List.mem_of_find?_eq_some hfind)
      rw [hlabel] at hfound
      exact h.injective _ _ label hfound hlookup

/-- Labels are bound where their names are. -/
theorem symbols_eq (h : builder.Lays layout) : builder.symbols = layout.labels := by
  have hnames : List.Forall₂ Eq builder.symbols layout.labels :=
    List.forall₂_map_left_iff.mpr (h.bound.imp fun _ _ hnamed =>
      Prod.ext (nameOf_eq h.regular hnamed.1) hnamed.2)
  rwa [List.forall₂_eq_eq_eq] at hnames

/-- What has a label, has it for a name of its own. -/
theorem nameOf_inj (h : builder.Lays layout) {name other : String} {label label' : Nat}
    (hlookup : builder.registry.lookup name = some label)
    (hlookup' : builder.registry.lookup other = some label')
    (heq : builder.nameOf label = builder.nameOf label') : label = label' := by
  rw [nameOf_eq h.regular hlookup, nameOf_eq h.regular hlookup'] at heq
  exact Option.some.inj (hlookup.symm.trans (heq ▸ hlookup'))

theorem place?_eq (h : builder.Lays layout) {name : String} {label : Nat}
    (hlookup : builder.registry.lookup name = some label) :
    builder.place? label = layout.place? name := by
  unfold Builder.place? Layout.place?
  generalize hbound : builder.bound = bound
  generalize hlabels : layout.labels = labels
  have hall := h.bound
  rw [hbound, hlabels] at hall
  clear hbound hlabels
  -- Both look for the first entry, in lists whose entries correspond one to one.
  induction hall with
  | nil => rfl
  | @cons entry named rest others hnamed _ ih =>
      obtain ⟨found, offset⟩ := entry
      obtain ⟨other, offset'⟩ := named
      obtain ⟨hother, rfl⟩ := hnamed
      by_cases heq : other = name
      · obtain rfl : found = label := Option.some.inj (hother.symm.trans (heq ▸ hlookup))
        simp [heq]
      · have hne : label ≠ found := fun hlabel =>
          heq (h.regular.injective other name found hother (hlabel ▸ hlookup))
        have hne' : (label == found) = false := by simpa using hne
        rw [List.lookup_cons, hne', List.find?_cons_of_neg (by simpa using heq)]
        exact ih

theorem map_fst_labels (h : builder.Lays layout) :
    layout.labels.map (·.1) = (builder.bound.map (·.1)).map builder.nameOf := by
  rw [← h.symbols_eq, symbols, List.map_map, List.map_map]
  rfl

theorem references_eq (h : builder.Lays layout) :
    layout.fragments.flatMap Fragment.references =
      (builder.references.map (·.2)).map builder.nameOf := by
  have hnames : List.Forall₂ Eq ((builder.references.map (·.2)).map builder.nameOf)
      ((Layout.referencesFrom 0 layout.fragments).map (·.2)) := by
    rw [List.map_map, List.forall₂_map_left_iff, List.forall₂_map_right_iff]
    exact h.references.imp fun _ _ hnamed => nameOf_eq h.regular hnamed.2
  rw [List.forall₂_eq_eq_eq] at hnames
  rw [hnames, Layout.map_snd_referencesFrom]

/-- Every label that has been bound or referred to has a name. -/
theorem exists_name (h : builder.Lays layout) {label : Nat}
    (hlabel : label ∈ builder.bound.map (·.1) ∨ label ∈ builder.references.map (·.2)) :
    ∃ name, builder.registry.lookup name = some label := by
  rcases hlabel with hbound | hreference
  · obtain ⟨entry, hentry, rfl⟩ := List.mem_map.mp hbound
    obtain ⟨index, rfl⟩ := List.mem_iff_get.mp hentry
    exact ⟨_, (h.bound.get index.isLt (h.bound.length_eq ▸ index.isLt)).1⟩
  · obtain ⟨entry, hentry, rfl⟩ := List.mem_map.mp hreference
    obtain ⟨index, rfl⟩ := List.mem_iff_get.mp hentry
    exact ⟨_, (h.references.get index.isLt (h.references.length_eq ▸ index.isLt)).2⟩

theorem wellLabelled_iff (h : builder.Lays layout) :
    builder.WellLabelled ↔ layout.WellLabelled := by
  -- Two labels with one name would make a layout ill-labelled whose builder is not.
  have hinj {first second : Nat}
      (hfirst : first ∈ builder.bound.map (·.1) ∨ first ∈ builder.references.map (·.2))
      (hsecond : second ∈ builder.bound.map (·.1) ∨ second ∈ builder.references.map (·.2))
      (heq : builder.nameOf first = builder.nameOf second) : first = second := by
    obtain ⟨name, hname⟩ := h.exists_name hfirst
    obtain ⟨other, hother⟩ := h.exists_name hsecond
    exact h.nameOf_inj hname hother heq
  unfold Builder.WellLabelled Layout.WellLabelled
  rw [h.map_fst_labels, h.references_eq]
  refine and_congr ⟨fun hnodup => ?_, List.Nodup.of_map _⟩ ?_
  · exact hnodup.map_on fun first hfirst second hsecond heq =>
      hinj (.inl hfirst) (.inl hsecond) heq
  · constructor
    · intro hbound
      exact List.forall_mem_map.mpr fun label hlabel => List.mem_map_of_mem (hbound label hlabel)
    · intro hbound label hlabel
      obtain ⟨found, hfound, heq⟩ := List.mem_map.mp (List.forall_mem_map.mp hbound label hlabel)
      exact hinj (.inl hfound) (.inr hlabel) heq ▸ hfound

/-- What is patched in the end is the code of the layout. -/
theorem finish_eq (h : builder.Lays layout) : builder.finish = layout.finish := by
  unfold Builder.finish Layout.finish
  by_cases hwell : builder.WellLabelled
  · rw [if_pos hwell, if_pos (h.wellLabelled_iff.mp hwell)]
    have hfold : builder.references.foldl
        (fun code entry => patch code entry.1 ((builder.place? entry.2).getD 0)) builder.code =
        (Layout.referencesFrom 0 layout.fragments).foldl
          (fun code named => patch code named.1 ((layout.place? named.2).getD 0)) builder.code :=
      List.rel_foldl (fun _ _ hcode _ _ hnamed => by
        rw [hcode, hnamed.1, h.place?_eq hnamed.2]) rfl h.references
    have hpatched := toList_foldl_patch (fun name => (layout.place? name).getD 0)
      layout.fragments (h.code.trans (List.nil_append _).symm)
    exact congrArg Except.ok ((congrArg Array.toList hfold).trans hpatched)
  · rw [if_neg hwell, if_neg (mt h.wellLabelled_iff.mpr hwell)]

end Lays

end Builder

/-- An image is what the layout of its program describes. -/
theorem AsmProgram.assemble_eq (program : AsmProgram) : program.assemble = program.layOut := by
  have hstart := Builder.lays_empty.declareAll program.routines
  unfold assemble layOut
  generalize program.routines.foldl (fun builder routine => builder.declare routine.name)
    Builder.empty = builder at hstart ⊢
  generalize program.routines.foldl (fun layout routine => layout.declare routine.name)
    Layout.empty = layout at hstart ⊢
  rcases hstart.addRoutines none program.routines with
    ⟨error, hbuilder, hlayout⟩ | ⟨builder', layout', entry, hbuilder, hlayout, hlays⟩
  · simp only [hbuilder, hlayout]
  · simp only [hbuilder, hlayout]
    cases entry with
    | none => rfl
    | some entry =>
        have hall := hlays.addLiterals 0 program.literals.texts
        cases hfinish : (layout'.addLiterals 0 program.literals.texts).finish with
        | error error => simp only [hall.finish_eq, hfinish]
        | ok code => simp only [hall.finish_eq, hfinish, hall.symbols_eq]

end ThreeAddress
