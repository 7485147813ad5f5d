import ThreeAddress.Json.Value
import ThreeAddress.Proofs.Json.Tokens

/-!
# Values are read back

The tokens of a value are read as that value, whatever containers are open around it.
In its text no number meets anything that could continue it, so the text of a value
whose numbers and strings are known is read as that value as well.
-/

namespace ThreeAddress.Json

/-- What holds of an array if it holds of its items, and of an object if it holds of its values,
holds of every value. -/
@[elab_as_elim]
theorem induction {motive : Json → Prop} (null : motive .null)
    (bool : ∀ value, motive (.bool value)) (number : ∀ value, motive (.number value))
    (string : ∀ text, motive (.string text))
    (array : ∀ items, (∀ item ∈ items, motive item) → motive (.array items))
    (object : ∀ fields, (∀ field ∈ fields, motive field.2) → motive (.object fields))
    (value : Json) : motive value := by
  refine @Json.rec motive (fun items => ∀ item ∈ items, motive item)
    (fun fields => ∀ field ∈ fields, motive field.2) (fun field => motive field.2)
    null bool number string array object ?_ ?_ ?_ ?_ ?_ value
  · simp
  · intro item rest hitem hrest
    exact List.forall_mem_cons.mpr ⟨hitem, hrest⟩
  · simp
  · intro field rest hfield hrest
    exact List.forall_mem_cons.mpr ⟨hfield, hrest⟩
  · exact fun _ _ h => h

theorem itemTokens_eq (items : List Json) : itemTokens items = items.map tokens := by
  induction items with
  | nil => rfl
  | cons item rest ih => rw [itemTokens, ih, List.map_cons]

theorem fieldTokens_eq (fields : List (Option String × Json)) :
    fieldTokens fields = fields.map fun field => .string field.1 :: .colon :: field.2.tokens := by
  induction fields with
  | nil => rfl
  | cons field rest ih => rw [fieldTokens, ih, List.map_cons]

theorem separate_cons (item : List Token) (rest : List (List Token)) :
    separate (item :: rest) = item ++ rest.flatMap (.comma :: ·) := by
  induction rest generalizing item with
  | nil => simp [separate]
  | cons next rest ih => simp [separate, ih]

/-! ## Reading tokens -/

/-- The tokens of a value are read as the value, whatever stands around it. -/
def ReadsBack (value : Json) : Prop :=
  ∀ mayClose containers rest,
    ofTokensFrom (.value mayClose) containers (value.tokens ++ rest) =
      ofTokensFrom (.afterValue value) containers rest

variable {outer : List Container} {rest : List Token}

/-- The items of an array after its first ones, the latest of which has just been read. -/
theorem ofTokensFrom_items {items : List Json} (h : ∀ item ∈ items, item.ReadsBack)
    (last : Json) (done : List Json) :
    ofTokensFrom (.afterValue last) (.array done :: outer)
        ((items.map tokens).flatMap (.comma :: ·) ++ .closeBracket :: rest) =
      ofTokensFrom (.afterValue (.array ((last :: done).reverse ++ items))) outer rest := by
  induction items generalizing last done with
  | nil => simp [ofTokensFrom, Expected.read]
  | cons item items ih =>
      obtain ⟨hitem, hitems⟩ := List.forall_mem_cons.mp h
      rw [List.map_cons, List.flatMap_cons, List.cons_append, List.cons_append, ofTokensFrom,
        Expected.read, List.append_assoc]
      dsimp only
      rw [hitem, ih hitems]
      simp

/-- The fields of an object after its first ones, of the latest of which the value has just been
read. -/
theorem ofTokensFrom_fields {fields : List (Option String × Json)}
    (h : ∀ field ∈ fields, field.2.ReadsBack) (last : Json) (key : Option String)
    (done : List (Option String × Json)) :
    ofTokensFrom (.afterValue last) (.object done key :: outer)
        ((fields.map fun field => .string field.1 :: .colon :: field.2.tokens).flatMap
          (.comma :: ·) ++ .closeBrace :: rest) =
      ofTokensFrom (.afterValue (.object (((key, last) :: done).reverse ++ fields))) outer
        rest := by
  induction fields generalizing last key done with
  | nil => simp [ofTokensFrom, Expected.read]
  | cons field fields ih =>
      obtain ⟨hfield, hfields⟩ := List.forall_mem_cons.mp h
      rw [List.map_cons, List.flatMap_cons]
      simp only [List.cons_append, List.append_assoc, ofTokensFrom, Expected.read]
      rw [hfield, ih hfields]
      simp

theorem readsBack (value : Json) : value.ReadsBack := by
  intro mayClose containers rest
  induction value using Json.induction generalizing mayClose containers rest with
  | null | bool | number | string => rfl
  | array items ih =>
      rw [tokens, itemTokens_eq]
      cases items with
      | nil => rfl
      | cons item items =>
          obtain ⟨hitem, hitems⟩ := List.forall_mem_cons.mp ih
          rw [List.map_cons, separate_cons]
          simp only [List.cons_append, List.append_assoc, ofTokensFrom, Expected.read]
          rw [hitem, List.nil_append, ofTokensFrom_items hitems]
          simp
  | object fields ih =>
      rw [tokens, fieldTokens_eq]
      cases fields with
      | nil => rfl
      | cons field fields =>
          obtain ⟨hfield, hfields⟩ := List.forall_mem_cons.mp ih
          rw [List.map_cons, separate_cons]
          simp only [List.cons_append, List.append_assoc, ofTokensFrom, Expected.read]
          rw [hfield, List.nil_append, ofTokensFrom_fields hfields]
          simp

/-- A value is read back from its tokens. -/
theorem ofTokens?_tokens (value : Json) : ofTokens? value.tokens = some value := by
  have h := value.readsBack false [] []
  rw [List.append_nil] at h
  exact h

/-! ## Reading texts -/

/-- A value whose numbers and strings are known. -/
inductive Plain : Json → Prop where
  | null : Plain .null
  | bool (value : Bool) : Plain (.bool value)
  | number (value : Int) : Plain (.number (some value))
  | string (text : String) : Plain (.string (some text))
  | array {items : List Json} (hitems : ∀ item ∈ items, Plain item) : Plain (.array items)
  | object {fields : List (Option String × Json)} (hkeys : ∀ field ∈ fields, field.1.isSome = true)
      (hvalues : ∀ field ∈ fields, Plain field.2) : Plain (.object fields)

theorem plain_of_mem_enclosed {first last : Token} {lists : List (List Token)}
    (hfirst : first.Plain) (hlast : last.Plain) (h : ∀ list ∈ lists, ∀ token ∈ list, token.Plain) :
    ∀ token ∈ first :: separate lists ++ [last], token.Plain := by
  have hseparate : ∀ token ∈ separate lists, token.Plain := by
    cases lists with
    | nil => simp [separate]
    | cons list rest =>
        obtain ⟨hlist, hrest⟩ := List.forall_mem_cons.mp h
        rw [separate_cons]
        refine List.forall_mem_append.mpr ⟨hlist, fun token htoken => ?_⟩
        obtain ⟨other, hother, htoken⟩ := List.mem_flatMap.mp htoken
        rcases List.mem_cons.mp htoken with rfl | htoken
        · trivial
        · exact hrest other hother token htoken
  exact List.forall_mem_cons.mpr ⟨hfirst,
    List.forall_mem_append.mpr ⟨hseparate, List.forall_mem_singleton.mpr hlast⟩⟩

theorem Plain.tokens {value : Json} (h : value.Plain) : ∀ token ∈ value.tokens, token.Plain := by
  induction h with
  | null | bool | number | string => exact List.forall_mem_singleton.mpr trivial
  | array _ ih =>
      rw [Json.tokens, itemTokens_eq]
      exact plain_of_mem_enclosed trivial trivial (List.forall_mem_map.mpr ih)
  | object hkeys _ ih =>
      rw [Json.tokens, fieldTokens_eq]
      refine plain_of_mem_enclosed trivial trivial (List.forall_mem_map.mpr fun field hfield => ?_)
      have hkey : Token.Plain (.string field.1) := by
        obtain ⟨name, hname⟩ := Option.isSome_iff_exists.mp (hkeys field hfield)
        rw [hname]
        trivial
      exact List.forall_mem_cons.mpr ⟨hkey, List.forall_mem_cons.mpr ⟨trivial, ih field hfield⟩⟩

/-- What stands after a value in a container. -/
def Token.Closes (token : Token) : Prop :=
  token = .comma ∨ token = .closeBracket ∨ token = .closeBrace

theorem Token.Closes.endsBefore {next : Token} (h : next.Closes) (token : Token) :
    token.EndsBefore next := by
  cases token with
  | number => exact h
  | _ => trivial

theorem isChain_append_cons {first : List Token} {next : Token} (hnext : next.Closes)
    (hfirst : first.IsChain Token.EndsBefore) (hrest : (next :: rest).IsChain Token.EndsBefore) :
    (first ++ next :: rest).IsChain Token.EndsBefore := by
  refine List.isChain_append.mpr ⟨hfirst, hrest, fun token _ other hother => ?_⟩
  obtain rfl := Option.some.inj hother
  exact hnext.endsBefore token

theorem isChain_separate {lists : List (List Token)} {close : Token} (hclose : close.Closes)
    (h : ∀ list ∈ lists, list.IsChain Token.EndsBefore) :
    (separate lists ++ [close]).IsChain Token.EndsBefore := by
  induction lists using separate.induct with
  | case1 => exact .singleton _
  | case2 item => exact isChain_append_cons hclose (h item List.mem_cons_self) (.singleton _)
  | case3 item rest hne ih =>
      obtain ⟨hitem, hrest⟩ := List.forall_mem_cons.mp h
      rw [separate, List.append_assoc, List.cons_append]
      · exact isChain_append_cons (.inl rfl) hitem
          (List.isChain_cons.mpr ⟨fun _ _ => trivial, ih hrest⟩)
      · exact hne

/-- In the tokens of a value each token ends before the next one. -/
theorem isChain_tokens (value : Json) : value.tokens.IsChain Token.EndsBefore := by
  induction value using Json.induction with
  | null | bool | number | string => exact .singleton _
  | array items ih =>
      rw [tokens, itemTokens_eq]
      refine List.isChain_cons.mpr ⟨fun _ _ => trivial, isChain_separate (.inr (.inl rfl)) ?_⟩
      exact List.forall_mem_map.mpr ih
  | object fields ih =>
      rw [tokens, fieldTokens_eq]
      refine List.isChain_cons.mpr ⟨fun _ _ => trivial, isChain_separate (.inr (.inr rfl)) ?_⟩
      refine List.forall_mem_map.mpr fun field hfield => ?_
      exact List.isChain_cons.mpr ⟨fun _ _ => trivial,
        List.isChain_cons.mpr ⟨fun _ _ => trivial, ih field hfield⟩⟩

/-- A value is read back from its text. -/
theorem Plain.ofChars?_text {value : Json} (h : value.Plain) :
    ofChars? (value.text.toList.map some) = some value := by
  rw [ofChars?, text, String.toList_ofList, tokens?_chars h.tokens value.isChain_tokens]
  exact ofTokens?_tokens value

end ThreeAddress.Json
