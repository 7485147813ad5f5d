import ThreeAddress.Lowering.Function

/-!
# Code with texts in place

What the lowering of a function writes can be told without a pool: the code with the texts of
its literals in place. Where writing fails, the code before that point is still known.
-/

namespace ThreeAddress

/-- The code that was written, and the result or why writing failed. -/
structure Emission (α : Type) where
  code : List (Item String)
  result : Except CompileError α

namespace Emission

variable {α β γ : Type}

protected def pure (value : α) : Emission α := ⟨[], .ok value⟩

protected def bind (first : Emission α) (next : α → Emission β) : Emission β :=
  match first.result with
  | .error error => ⟨first.code, .error error⟩
  | .ok value => ⟨first.code ++ (next value).code, (next value).result⟩

instance : Monad Emission where
  pure := Emission.pure
  bind := Emission.bind

instance : CodeWriter String Emission where
  fail := fun error => ⟨[], .error error⟩
  item := fun item => ⟨[item], .ok ()⟩
  literal := pure

abbrev fail (error : CompileError) : Emission α := CodeWriter.fail error

/-- Writes a label or an instruction. -/
abbrev item (item : Item String) : Emission Unit := CodeWriter.item item

abbrev instr (code : Instr String String String) : Emission Unit := CodeWriter.instr code

theorem map_id (emission : Emission α) : id <$> emission = emission := by
  obtain ⟨code, result⟩ := emission
  cases result <;> simp [Functor.map, Emission.bind, Emission.pure]

theorem pure_bind (value : α) (next : α → Emission β) : (pure value >>= next) = next value := by
  simp [bind, pure, Emission.bind, Emission.pure]

theorem bind_assoc (first : Emission α) (second : α → Emission β) (third : β → Emission γ) :
    (first >>= second >>= third) = first >>= fun value => second value >>= third := by
  obtain ⟨code, result⟩ := first
  cases result with
  | error => rfl
  | ok value =>
      simp only [bind, Emission.bind]
      cases (second value).result <;> simp

instance : LawfulMonad Emission :=
  LawfulMonad.mk' _ map_id pure_bind bind_assoc

@[simp] theorem code_bind_ok {first : Emission α} {next : α → Emission β} {value : α}
    (h : first.result = .ok value) :
    (first >>= next).code = first.code ++ (next value).code := by
  simp [bind, Emission.bind, h]

end Emission

/-! ## The lowering of functions -/

namespace Placed

abbrev move (src dst : Register) : Emission Unit := Lowering.move src dst

abbrev moveAll (moves : List Move) : Emission Unit := Lowering.moveAll moves

variable (placed : Placed)

abbrev operand (dest : Dest) : Emission Register := Lowering.operand placed dest

abbrev source (scratch : Register) (src : Source) : Emission Register :=
  Lowering.source placed scratch src

abbrev prologue : Emission Unit := Lowering.prologue placed

abbrev epilogue : Emission Unit := Lowering.epilogue placed

abbrev compare (left right : Source) : Emission Unit := Lowering.compare placed left right

abbrev division (dst : Register) (left right : Source) : Emission Unit :=
  Lowering.division placed dst left right

abbrev arithmetic (op : ArithOp) (alu : AluOp) (dst : Register) (left right : Source) :
    Emission Unit :=
  Lowering.arithmetic placed op alu dst left right

abbrev binary (op : BinaryOp) (dst : Register) (left right : Source) : Emission Unit :=
  Lowering.binary placed op dst left right

abbrev unary (op : UnaryOp) (dst : Register) (src : Source) : Emission Unit :=
  Lowering.unary placed op dst src

abbrev argumentMoves (passed : List (Source × Register)) : Emission (List Move) :=
  Lowering.argumentMoves placed passed

abbrev call (callee : String) (args : List Source) (dst : Option Dest) : Emission Unit :=
  Lowering.call placed callee args dst

abbrev inst (inst : Inst) : Emission Unit := Lowering.inst placed inst

abbrev code : Emission Unit := Lowering.code placed

theorem source_str (scratch : Register) (text : String) :
    placed.source scratch (.str text) = do
      Emission.instr (.leaLiteral text scratch)
      return scratch := rfl

end Placed

end ThreeAddress
