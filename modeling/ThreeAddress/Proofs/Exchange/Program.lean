import ThreeAddress.Exchange.Program
import ThreeAddress.Proofs.Json.Values
import ThreeAddress.Proofs.Text.Utf8

/-!
# Programs are read back

The text that a program is written as stands for that program, whatever its names and
literals are. Every record is written with all of its fields under different names, so
each field is found again, whether it may be missing or not.
-/

namespace ThreeAddress

namespace Json

variable {α β γ : Type}

theorem mapM_map {write : α → β} {read : β → Option γ} (value : α → γ) {items : List α}
    (h : ∀ item ∈ items, read (write item) = some (value item)) :
    (items.map write).mapM read = some (items.map value) := by
  induction items with
  | nil => rfl
  | cons item rest ih =>
      obtain ⟨hitem, hrest⟩ := List.forall_mem_cons.mp h
      simp [hitem, ih hrest]

/-- A list is read back if its items are. -/
theorem list?_map {write : α → Json} {read : Json → Option α}
    (h : ∀ item, read (write item) = some item) (items : List α) :
    (array (items.map write)).list? read = some items := by
  rw [list?, mapM_map id fun item _ => h item, List.map_id]

/-- An optional value is read back, as long as none is written as null. -/
theorem option?_map {write : α → Json} {read : Json → Option α}
    (h : ∀ item, read (write item) = some item) (hnull : ∀ item, write item ≠ null)
    (item : Option α) : ((item.map write).getD null).option? read = some item := by
  cases item with
  | none => rfl
  | some item =>
      have hread := h item
      have hvalue := hnull item
      rw [Option.map_some, Option.getD_some]
      cases hwrite : write item with
      | null => exact absurd hwrite hvalue
      | _ =>
          rw [hwrite] at hread
          simp [option?, hread]

theorem field?_of_mem {fields : List (String × Json)} (hnodup : (fields.map (·.1)).Nodup)
    {name : String} {value : Json} (h : (name, value) ∈ fields) :
    field? (fields.map fun field => (some field.1, field.2)) name = some (some value) := by
  have hfilter : fields.filter (·.1 == name) = [(name, value)] := by
    induction fields with
    | nil => cases h
    | cons field rest ih =>
        obtain ⟨hfirst, hrest⟩ := List.nodup_cons.mp hnodup
        rcases List.mem_cons.mp h with rfl | hmem
        · have hnone : rest.filter (·.1 == name) = [] := by
            refine List.filter_eq_nil_iff.mpr fun other hother heq => hfirst ?_
            exact List.mem_map.mpr ⟨other, hother, eq_of_beq heq⟩
          simp [hnone]
        · have hne : field.1 ≠ name := fun heq =>
            hfirst (List.mem_map.mpr ⟨_, hmem, heq.symm⟩)
          simp [hne, ih hrest hmem]
  have hkey : ((fun field : Option String × Json => field.1 == some name) ∘
      fun field : String × Json => (some field.1, field.2)) = (·.1 == name) := by
    funext field
    simp
  rw [field?, List.filter_map, hkey, hfilter]
  rfl

/-- The fields of a record are found under their names. -/
theorem record?_ofRecord {names : List String} {fields : List (String × Json)} {least : Nat}
    (hnames : fields.map (·.1) = names) (hnodup : names.Nodup) :
    (ofRecord fields).record? names least = some (fields.map fun field => some field.2) := by
  have hkeys : (fields.map fun field => ((some field.1 : Option String), field.2)).all
      (·.1.isSome) = true := by simp
  subst hnames
  rw [ofRecord, record?, if_pos hkeys]
  exact mapM_map _ fun field hfield => field?_of_mem hnodup hfield

@[simp] theorem choice?_ofChoice (name : String) (contents : Json) :
    (ofChoice name contents).choice? = some (name, contents) := rfl

@[simp] theorem string?_ofText (text : String) : (ofText text).string? = some text := rfl

@[simp] theorem int32?_ofInt (value : Int32) : (ofInt value.toInt).int32? = some value := by
  have hrange : (-2147483648 : Int) ≤ value.toInt ∧ value.toInt ≤ 2147483647 :=
    ⟨value.le_toInt, value.toInt_le⟩
  rw [int32?, ofInt, int?, if_pos hrange, Option.map_some, Int32.ofInt_toInt]

@[simp] theorem uint32?_ofInt (number : UInt32) :
    (ofInt number.toNat).uint32? = some number := by
  have hrange : (0 : Int) ≤ number.toNat ∧ (number.toNat : Int) ≤ 4294967295 := by
    have := number.toNat_lt
    omega
  rw [uint32?, ofInt, int?, if_pos hrange, Option.map_some, Int.toNat_natCast, UInt32.ofNat_toNat]

end Json

open Json

@[simp] theorem Dest.ofJson?_toJson (dest : Dest) : ofJson? dest.toJson = some dest := by
  cases dest <;> simp [toJson, ofJson?]

@[simp] theorem Source.ofJson?_toJson (source : Source) : ofJson? source.toJson = some source := by
  cases source <;> simp [toJson, ofJson?, bool?]

@[simp] theorem Address.ofJson?_toJson (address : Address) :
    ofJson? address.toJson = some address := by
  simp [toJson, ofJson?, record?_ofRecord]

@[simp] theorem ArithOp.ofJson?_key (op : ArithOp) : ofJson? (.ofText op.key) = some op := by
  cases op <;> rfl

@[simp] theorem RelOp.ofJson?_key (op : RelOp) : ofJson? (.ofText op.key) = some op := by
  cases op <;> rfl

@[simp] theorem UnaryOp.ofJson?_key (op : UnaryOp) : ofJson? (.ofText op.key) = some op := by
  cases op <;> rfl

@[simp] theorem BinaryOp.ofJson?_toJson (op : BinaryOp) : ofJson? op.toJson = some op := by
  cases op <;> simp [toJson, ofJson?]

@[simp] theorem Inst.ofJson?_toJson (inst : Inst) : ofJson? inst.toJson = some inst := by
  cases inst <;> rw [toJson, ofJson?, choice?_ofChoice, Option.bind_eq_bind, Option.bind_some]
  case call callee args dst =>
    have hdst : ((dst.map Dest.toJson).getD .null).option? Dest.ofJson? = some dst :=
      option?_map Dest.ofJson?_toJson (fun dest => by cases dest <;> exact nofun) dst
    simp [record?_ofRecord, hdst, list?_map Source.ofJson?_toJson]
  case ret value =>
    have hvalue : ((value.map Source.toJson).getD .null).option? Source.ofJson? = some value :=
      option?_map Source.ofJson?_toJson (fun source => by cases source <;> exact nofun) value
    simp [hvalue]
  all_goals simp [record?_ofRecord]

@[simp] theorem Function.ofJson?_toJson (function : Function) :
    ofJson? function.toJson = some function := by
  simp [toJson, ofJson?, record?_ofRecord, list?_map string?_ofText, list?_map Inst.ofJson?_toJson]

theorem Program.ofJson?_toJson (program : Program) : ofJson? program.toJson = some program := by
  simp [toJson, ofJson?, record?_ofRecord, list?_map Function.ofJson?_toJson]

/-! ## Texts -/

theorem Json.plain_ofText (text : String) : (ofText text).Plain := .string text

theorem Json.plain_ofInt (value : Int) : (ofInt value).Plain := .number value

theorem Json.plain_ofRecord {fields : List (String × Json)}
    (h : ∀ field ∈ fields, field.2.Plain) :
    (ofRecord fields).Plain :=
  .object (List.forall_mem_map.mpr fun _ _ => rfl) (List.forall_mem_map.mpr h)

theorem Json.plain_ofChoice (name : String) {contents : Json} (h : contents.Plain) :
    (ofChoice name contents).Plain :=
  plain_ofRecord (List.forall_mem_singleton.mpr h)

theorem Json.plain_map {α : Type} {write : α → Json} (h : ∀ item, (write item).Plain)
    (items : List α) : (array (items.map write)).Plain :=
  .array (List.forall_mem_map.mpr fun item _ => h item)

theorem Json.plain_getD {α : Type} {write : α → Json} (h : ∀ item, (write item).Plain)
    (item : Option α) : ((item.map write).getD null).Plain := by
  cases item with
  | none => exact .null
  | some item => exact h item

theorem Dest.plain_toJson (dest : Dest) : dest.toJson.Plain := by
  cases dest with
  | temp number => exact plain_ofChoice _ (plain_ofInt _)
  | var name => exact plain_ofChoice _ (plain_ofText _)

theorem Source.plain_toJson (source : Source) : source.toJson.Plain := by
  cases source with
  | temp | int => exact plain_ofChoice _ (plain_ofInt _)
  | var | str => exact plain_ofChoice _ (plain_ofText _)
  | bool value => exact plain_ofChoice _ (.bool value)

theorem Address.plain_toJson (address : Address) : address.toJson.Plain :=
  plain_ofRecord (by simp [address.base.plain_toJson, plain_ofInt])

theorem BinaryOp.plain_toJson (op : BinaryOp) : op.toJson.Plain := by
  cases op <;> exact plain_ofChoice _ (plain_ofText _)

theorem Inst.plain_toJson (inst : Inst) : inst.toJson.Plain := by
  cases inst with
  | label | jump => exact plain_ofChoice _ (plain_ofText _)
  | ret value => exact plain_ofChoice _ (plain_getD Source.plain_toJson value)
  | _ =>
      refine plain_ofChoice _ (plain_ofRecord ?_)
      simp [plain_ofText, plain_map, plain_getD, Dest.plain_toJson, Source.plain_toJson,
        Address.plain_toJson, BinaryOp.plain_toJson]

theorem Function.plain_toJson (function : Function) : function.toJson.Plain :=
  plain_ofRecord (by simp [plain_ofText, plain_map, Inst.plain_toJson])

theorem Program.plain_toJson (program : Program) : program.toJson.Plain :=
  plain_ofRecord (by simp [plain_map, Function.plain_toJson])

namespace Program

theorem ofText?_toJson (program : Program) : ofText? program.toJson.text = some program := by
  rw [ofText?, program.plain_toJson.ofChars?_text, Option.bind_some, ofJson?_toJson]

/-- A text is read from its bytes. -/
theorem ofBytes?_encode (text : String) : ofBytes? (Text.encode text) = ofText? text := by
  rw [ofBytes?, ofText?, Text.encode, Text.decode_encodeAll]

/-- The text that the program of an accepted text is written as. -/
def canonical? (text : String) : Option String :=
  (ofText? text).map (·.toJson.text)

/-- The same for the bytes of a text. -/
def canonicalOfBytes? (bytes : List UInt8) : Option String :=
  (ofBytes? bytes).map (·.toJson.text)

theorem map_toJson_bind_ofText? (found : Option Program) :
    (found.map (·.toJson.text)).bind ofText? = found := by
  cases found with
  | none => rfl
  | some program => rw [Option.map_some, Option.bind_some, ofText?_toJson]

theorem map_toJson_bind_canonical? (found : Option Program) :
    (found.map (·.toJson.text)).bind canonical? = found.map (·.toJson.text) := by
  have h := congrArg (Option.map (·.toJson.text)) (map_toJson_bind_ofText? found)
  rwa [Option.map_bind] at h

/-- Reading undoes writing. So whatever text or bytes a program was read from, what it is written as
is read as the same program, and written in the same way again. -/
theorem ofText?_undoes_toJson :
    (∀ program : Program, ofText? program.toJson.text = some program ∧
      ofBytes? (Text.encode program.toJson.text) = some program) ∧
    (∀ text, (canonical? text).bind ofText? = ofText? text ∧
      (canonical? text).bind canonical? = canonical? text) ∧
    ∀ bytes, (canonicalOfBytes? bytes).bind ofText? = ofBytes? bytes ∧
      (canonicalOfBytes? bytes).bind canonical? = canonicalOfBytes? bytes := by
  refine ⟨fun program => ⟨program.ofText?_toJson, ?_⟩, fun text => ?_, fun bytes => ?_⟩
  · rw [ofBytes?_encode, ofText?_toJson]
  · rw [canonical?]
    exact ⟨map_toJson_bind_ofText? _, map_toJson_bind_canonical? _⟩
  · rw [canonicalOfBytes?]
    exact ⟨map_toJson_bind_ofText? _, map_toJson_bind_canonical? _⟩

end Program

end ThreeAddress
